import AbsoluteChain.HardCap
import AbsoluteChain.OffBlock
import AbsoluteChain.Restart

/-!
# The replay of the tip

`ensure_state_at_tip` rebuilds the accounts from the blocks alone. What has moved a
balance without a block is lost then, and the records of the features stay as they were.
Accounts are compared here by sums that a payment moves by its amount.
-/

namespace AbsoluteChain

open Python Actions Act Transactions KeyedTable Runs

/-! ## Weighted sums of balances -/

/-- A sum of balances, in which an address counts `w`. -/
structure Weighs (q : Tables → ℚ) (w : String → ℚ) : Prop where
  congr : ∀ {t u : Tables}, u.accounts = t.accounts → q u = q t
  delta : ∀ a d (t : Tables), 0 ≤ t.getBalance a + d → q (t.applyBalanceDelta a d) = q t + w a * d
  nonce : ∀ a (t : Tables), q (t.incrementNonce a) = q t

theorem weighs_supply : Weighs Tables.getTotalSupply fun _ => 1 where
  congr h := Tables.supply_congr h
  delta a d t h := by
    rw [Tables.supply_applyBalanceDelta, Tables.clipped_eq_zero h]
    ring
  nonce a t := Tables.supply_incrementNonce a t

theorem weighs_balance (a : String) : Weighs (fun t => t.getBalance a) fun b => if b = a then 1 else 0 where
  congr h := Tables.balance_congr h a
  delta b d t h := by
    rw [Tables.balance_applyBalanceDelta]
    by_cases hab : a = b
    · rw [if_pos hab, if_pos hab.symm, max_eq_right h, hab, one_mul]
    · rw [if_neg hab, if_neg fun hba => hab hba.symm, zero_mul, add_zero]
  nonce b t := Tables.balance_incrementNonce b a t

namespace Blockchain

variable {c : Blockchain} {now height : Int} {proposer : String} {q : Tables → ℚ} {w : String → ℚ}

/-- What a transfer moves. -/
def txWorth (c : Blockchain) (w : String → ℚ) (proposer : String) (tx : Transaction) : ℚ :=
  let ch := c.charge (c.gasFee tx.gas)
  w tx.fromAddr * -(tx.value.toRat + ch.fee) + w tx.toAddr * tx.value.toRat + w proposer * ch.minerFee +
    if 0 < ch.burned ∧ c.config.burnAddress ≠ "" then w c.config.burnAddress * ch.burned else 0

def txsWorth (c : Blockchain) (w : String → ℚ) (proposer : String) (txs : List Transaction) : ℚ :=
  (txs.map (c.txWorth w (c.feeRecipient proposer))).sum

def blockWorth (c : Blockchain) (w : String → ℚ) (b : Block) : ℚ :=
  c.txsWorth w b.miner b.transactions + w b.miner * c.config.blockReward

/-- A transfer with amounts that are not negative. -/
def Positive (tx : Transaction) : Prop := 0 ≤ tx.value.toRat ∧ 0 ≤ tx.gas

theorem worth_transfer (hq : Weighs q w) (hs : c.config.Sound) {tx : Transaction} (hp : Positive tx) {t : Tables}
    (ht : t.Solvent) (h : c.precheck t tx = .ok ()) :
    q (c.transferTables tx proposer t) = q t + c.txWorth w proposer tx := by
  obtain ⟨hvalue, hgas⟩ := hp
  have hfunds := (precheck_ok.mp h).2.1
  have hfee := gasFee_nonneg hs hgas
  have hminer : 0 ≤ (c.charge (c.gasFee tx.gas)).minerFee := minerFee_nonneg hs hfee
  have hdebit : 0 ≤ t.getBalance tx.fromAddr + -(tx.value.toRat + (c.charge (c.gasFee tx.gas)).fee) := by
    show 0 ≤ t.getBalance tx.fromAddr + -(tx.value.toRat + c.gasFee tx.gas)
    linarith
  have h₁ := ht.applyBalanceDelta tx.fromAddr (-(tx.value.toRat + (c.charge (c.gasFee tx.gas)).fee))
  have h₂ := h₁.applyBalanceDelta tx.toAddr tx.value.toRat
  have h₃ := h₂.applyBalanceDelta proposer (c.charge (c.gasFee tx.gas)).minerFee
  have hcredit : ∀ {u : Tables} {a : String} {d : ℚ}, u.Solvent → 0 ≤ d → q (u.applyBalanceDelta a d) = q u + w a * d := by
    intro u a d hu hd
    exact hq.delta a d u (by have := hu a; linarith)
  unfold transferTables settleTables txWorth
  by_cases hb : 0 < (c.charge (c.gasFee tx.gas)).burned ∧ c.config.burnAddress ≠ ""
  · simp only [if_pos hb]
    rw [hq.nonce, hcredit h₃ hb.1.le, hcredit h₂ hminer, hcredit h₁ hvalue, hq.delta _ _ _ hdebit]
    ring
  · simp only [if_neg hb]
    rw [hq.nonce, hcredit h₂ hminer, hcredit h₁ hvalue, hq.delta _ _ _ hdebit]
    ring

variable {tx tx' : Transaction} {txs txs' : List Transaction} {db db' : Db} {cap : ℚ}

theorem TxStep.worth (h : TxStep c now height proposer tx db tx' db') (hq : Weighs q w) (hs : c.config.Sound)
    (hk : c.kindOf db.live tx = .transfer) (hp : Positive tx) (ht : db.live.Within cap) :
    q db'.live = q db.live + c.txWorth w (c.feeRecipient proposer) tx ∧ db'.live.Within cap := by
  cases h with
  | transfer checks kind =>
    have hacc := @accounts_recordPool c tx.fromAddr (tx.value.toRat + c.gasFee tx.gas)
      (db.exec (c.transferTables tx (c.feeRecipient proposer)))
    refine ⟨?_, (within_transfer hs ht hp.1 hp.2 checks).congr hacc⟩
    rw [hq.congr hacc, Store.live_exec, worth_transfer hq hs hp ht.solvent checks]
  | contract checks kind => exact absurd hk kind

theorem worth_applyTransactions (hq : Weighs q w) (hs : c.config.Sound) (hplain : c.PlainTxs db.live txs)
    (hp : ∀ tx ∈ txs, Positive tx) (ht : db.live.Within cap)
    (h : c.applyTransactions now height proposer txs db = (.ok txs', db')) :
    q db'.live = q db.live + c.txsWorth w proposer txs ∧ db'.live.Within cap := by
  induction txs generalizing db txs' with
  | nil =>
    cases h
    exact ⟨(add_zero _).symm, ht⟩
  | cons tx rest ih =>
    unfold applyTransactions at h
    obtain ⟨tx₁, db₁, h₁, h⟩ := bind_ok.mp h
    obtain ⟨rest', db₂, h₂, h⟩ := bind_ok.mp h
    cases h
    obtain ⟨hk, hpool⟩ := hplain tx List.mem_cons_self
    obtain ⟨hstep, ht₁⟩ := (applyTransaction_ok h₁).worth hq hs hk (hp tx List.mem_cons_self) ht
    have hframe := @applyTransaction_plain c now tx height proposer db hk hpool
    rw [h₁] at hframe
    obtain ⟨hrest, ht₂⟩ := ih (PlainTxs.step (fun x hx => hplain x (List.mem_cons_of_mem _ hx)) hframe)
      (fun x hx => hp x (List.mem_cons_of_mem _ hx)) ht₁ h₂
    refine ⟨?_, ht₂⟩
    rw [hrest, hstep]
    unfold txsWorth
    rw [List.map_cons, List.sum_cons]
    ring

theorem worth_reward (hq : Weighs q w) (hs : c.config.Sound) {t : Tables} (ht : t.Solvent) (miner : String)
    (hroom : t.getTotalSupply + c.config.blockReward ≤ c.config.maxSupply) :
    q (c.rewardTables miner t) = q t + w miner * c.config.blockReward ∧ (c.rewardTables miner t).Solvent := by
  have hreward : c.rewardFor t = c.config.blockReward := if_neg (not_lt.mpr hroom)
  have hnonneg := hs.reward
  unfold rewardTables
  rw [hreward]
  by_cases hpos : 0 < c.config.blockReward
  · rw [if_pos hpos]
    exact ⟨hq.delta _ _ _ (by have := ht miner; linarith), ht.applyBalanceDelta _ _⟩
  · have hzero : c.config.blockReward = 0 := le_antisymm (not_lt.mp hpos) hnonneg
    rw [if_neg hpos, hzero, mul_zero, add_zero]
    exact ⟨rfl, ht⟩

/-! ## Blocks -/

/-- Plain transfers from ordinary senders, with amounts that are not negative. -/
def Simple (c : Blockchain) (t : Tables) (b : Block) : Prop :=
  c.PlainTxs t b.transactions ∧ ∀ tx ∈ b.transactions, Positive tx

theorem Simple.step {b : Block} (h : c.Simple db.live b) (hr : plainFrame.rel db db') : c.Simple db'.live b :=
  ⟨h.1.step hr, h.2⟩

theorem transactions_stored (b : Block) :
    (c.stored now b.toDict).transactions =
      b.transactions.map fun tx => Transaction.fromDict c.host now tx.toDict.asPeer := by
  show ((b.transactions.map Transaction.toDict).map TxDict.asPeer).map (Transaction.fromDict c.host now) = _
  rw [List.map_map, List.map_map]
  rfl

/-- Reading a block back from the store keeps what it moves. -/
theorem blockWorth_stored (b : Block) : c.blockWorth w (c.stored now b.toDict) = c.blockWorth w b := by
  unfold blockWorth txsWorth
  rw [transactions_stored, List.map_map]
  rfl

theorem Simple.stored {t : Tables} {b : Block} (h : c.Simple t b) (now : Int) : c.Simple t (c.stored now b.toDict) := by
  unfold Simple PlainTxs
  rw [transactions_stored]
  refine ⟨fun tx htx => ?_, fun tx htx => ?_⟩
  · obtain ⟨x, hx, rfl⟩ := List.mem_map.mp htx
    exact h.1 x hx
  · obtain ⟨x, hx, rfl⟩ := List.mem_map.mp htx
    exact h.2 x hx

def Room (c : Blockchain) : ℚ → List Block → Prop
  | _, [] => True
  | supply, b :: rest =>
    supply + c.config.blockReward ≤ c.config.maxSupply ∧ Room c (supply + c.blockWorth (fun _ => 1) b) rest

theorem room_append {supply : ℚ} {bs : List Block} {b : Block} :
    c.Room supply (bs ++ [b]) ↔ c.Room supply bs ∧
      supply + (bs.map (c.blockWorth fun _ => 1)).sum + c.config.blockReward ≤ c.config.maxSupply := by
  induction bs generalizing supply with
  | nil => simp [Room]
  | cons a bs ih =>
    show _ ∧ c.Room _ (bs ++ [b]) ↔ (_ ∧ c.Room _ bs) ∧ _
    rw [ih, List.map_cons, List.sum_cons, and_assoc, add_assoc supply]

theorem worth_execution (hq : Weighs q w) (hs : c.config.Sound) {b : Block} (hb : c.Simple db.live b)
    (ht : db.live.Solvent) (hroom : db.live.getTotalSupply + c.config.blockReward ≤ c.config.maxSupply)
    (h : c.applyTransactions now height b.miner b.transactions db = (.ok txs', db')) :
    q (c.rewardTables b.miner db'.live) = q db.live + c.blockWorth w b ∧ (c.rewardTables b.miner db'.live).Solvent := by
  obtain ⟨hmoved, hwithin⟩ := worth_applyTransactions hq hs hb.1 hb.2 ⟨ht, le_rfl⟩ h
  obtain ⟨hreward, hsolvent⟩ := worth_reward hq hs hwithin.solvent b.miner (by linarith [hwithin.capped])
  refine ⟨?_, hsolvent⟩
  rw [hreward, hmoved]
  unfold blockWorth
  ring

theorem worth_replayBlocks (hq : Weighs q w) (hs : c.config.Sound) {bs : List Block} {h : ℤ}
    (hrows : ∀ k d, k < bs.length → db.live.getBlock (h + k) = some d → ∃ b, bs[k]? = some b ∧ d = b.toDict)
    (hsimple : ∀ b ∈ bs, c.Simple db.live b) (ht : db.live.Solvent) (hroom : c.Room db.live.getTotalSupply bs)
    (hrun : c.replayBlocks now bs.length h db = (.ok (), db')) :
    q db'.live = q db.live + (bs.map (c.blockWorth w)).sum ∧ db'.live.Solvent ∧ plainFrame.rel db db' := by
  induction bs generalizing db h with
  | nil =>
    cases hrun
    exact ⟨(add_zero _).symm, ht, plainFrame.refl _⟩
  | cons b bs ih =>
    unfold List.length replayBlocks at hrun
    simp only [bind_run, query_run] at hrun
    cases hd : db.live.getBlock h with
    | none =>
      rw [hd] at hrun
      cases hrun
    | some d =>
      rw [hd] at hrun
      obtain ⟨b₀, hb₀, rfl⟩ := hrows 0 d (Nat.succ_pos _) (by simpa using hd)
      obtain rfl : b = b₀ := Option.some.inj hb₀
      obtain ⟨txs, db₁, htxs, hrun⟩ := bind_ok.mp hrun
      obtain ⟨reward, db₂, hreward, hrun⟩ := bind_ok.mp hrun
      have hstored := (hsimple b List.mem_cons_self).stored now
      have hminer : (c.stored now b.toDict).miner = b.miner := rfl
      have hlive := (applyBlockReward_ok hreward).2
      -- the first block is worth what its rows say
      have hworth : ∀ {q' w'}, Weighs q' w' → q' db₂.live = q' db.live + c.blockWorth w' b ∧ db₂.live.Solvent := by
        intro q' w' hq'
        rw [hlive, ← @blockWorth_stored c now w']
        exact worth_execution hq' hs hstored ht hroom.1 htxs
      have hframe : plainFrame.rel db db₂ := by
        have h₁ := @applyTransactions_plain c now (c.stored now b.toDict).height (c.stored now b.toDict).miner _ _ hstored.1
        have h₂ := @applyBlockReward_plain c (c.stored now b.toDict).miner db₁
        have htxs' : c.applyTransactions now (c.stored now b.toDict).height (c.stored now b.toDict).miner
          (c.stored now b.toDict).transactions db = (.ok txs, db₁) := htxs
        have hreward' : c.applyBlockReward (c.stored now b.toDict).miner db₁ = (.ok reward, db₂) := hreward
        rw [htxs'] at h₁
        rw [hreward'] at h₂
        exact plainFrame.trans h₁ h₂
      -- the rest of the list stands above it
      have hnext : ∀ k d, k < bs.length → db₂.live.getBlock (h + 1 + k) = some d → ∃ b, bs[k]? = some b ∧ d = b.toDict := by
        intro k d hk hget
        refine hrows (k + 1) d (Nat.succ_lt_succ hk) ?_
        rw [getBlock_congr hframe.2.2.2] at hget
        rw [← hget]
        congr 1
        push_cast
        ring
      have hroom₂ : c.Room db₂.live.getTotalSupply bs := by
        rw [(hworth weighs_supply).1]
        exact hroom.2
      have hsimple₂ : ∀ x ∈ bs, c.Simple db₂.live x := fun x hx => (hsimple x (List.mem_cons_of_mem _ hx)).step hframe
      obtain ⟨hmoved, hsolvent, hkept⟩ := ih hnext hsimple₂ (hworth hq).2 hroom₂ hrun
      refine ⟨?_, hsolvent, plainFrame.trans hframe hkept⟩
      rw [hmoved, (hworth hq).1, List.map_cons, List.sum_cons, add_assoc]

/-! ## Accepted blocks -/

section accepted
variable {b b' : Block} {preserve : Bool} {n n' : Node} (r : Accepted c now b preserve n b' n')

include r

/-- Execution fills in fields that do not tell what a transaction moves. -/
theorem Accepted.blockWorth : c.blockWorth w b' = c.blockWorth w b := by
  have hworth : ∀ {txs txs' : List Transaction}, List.Forall₂ (fun tx tx' =>
      tx' = { tx with fee := tx'.fee, burned := tx'.burned, gasUsed := tx'.gasUsed, blockHeight := b.height }) txs txs' →
      c.txsWorth w b.miner txs' = c.txsWorth w b.miner txs := by
    intro txs txs' h
    induction h with
    | nil => rfl
    | cons hx _ ih =>
      unfold txsWorth at ih ⊢
      rw [List.map_cons, List.map_cons, List.sum_cons, List.sum_cons, ih, hx]
      rfl
  unfold Blockchain.blockWorth
  rw [r.transactions_eq, r.miner_eq, hworth r.steps.kept]

theorem Accepted.simple {t : Tables} (h : c.Simple t b) : c.Simple t b' := by
  have hkept : ∀ tx' ∈ b'.transactions, ∃ tx ∈ b.transactions,
      tx' = { tx with fee := tx'.fee, burned := tx'.burned, gasUsed := tx'.gasUsed, blockHeight := b.height } := by
    rw [r.transactions_eq]
    intro tx' htx'
    obtain ⟨i, hi, rfl⟩ := List.mem_iff_getElem.mp htx'
    have hlen := r.steps.kept.length_eq
    exact ⟨b.transactions.get ⟨i, hlen ▸ hi⟩, List.getElem_mem _, (List.forall₂_iff_get.mp r.steps.kept).2 i (hlen ▸ hi) hi⟩
  refine ⟨fun tx' htx' => ?_, fun tx' htx' => ?_⟩
  · obtain ⟨tx, htx, heq⟩ := hkept tx' htx'
    rw [heq]
    exact h.1 tx htx
  · obtain ⟨tx, htx, heq⟩ := hkept tx' htx'
    rw [heq]
    exact h.2 tx htx

theorem Accepted.live_opened : n.db.opened.live = n.db.live := by
  rw [← r.began, r.live_start]

/-- A block of transfers deploys no contract. -/
theorem Accepted.codeOf (h : c.PlainTxs n.db.live b.transactions) (a : String) :
    EvmAdapter.codeOf n'.db.live a = EvmAdapter.codeOf n.db.live a := by
  rw [← r.live_opened] at h ⊢
  have happlied := (@applyTransactions_plain c now b.height b.miner _ _ h).2.1 a
  rw [r.run_opened] at happlied
  have hrewarded : EvmAdapter.codeOf (c.rewarded now b n.db) a = EvmAdapter.codeOf r.applied.live a := by
    rw [← r.rewarded_eq]
    unfold rewardTables
    split
    · exact codeOf_applyBalanceDelta _ _ _ _
    · rfl
  have hstored : EvmAdapter.codeOf n'.db.live a = EvmAdapter.codeOf (c.rewarded now b n.db) a := by
    have haccounts := (congrArg Tables.accounts r.live_eq).trans (accounts_persisted b' _)
    by_cases hb : 0 < b'.totalBurned ∧ c.config.burnAddress ≠ ""
    · rw [if_pos hb] at haccounts
      exact (congrFun (codeOf_accounts haccounts) a).trans (codeOf_applyBalanceDelta _ _ _ _)
    · rw [if_neg hb] at haccounts
      exact congrFun (codeOf_accounts haccounts) a
  exact hstored.trans (hrewarded.trans happlied)

theorem Accepted.worth (hq : Weighs q w) (hs : c.config.Sound) (hb : c.Simple n.db.live b) (ht : n.db.live.Solvent)
    (hroom : n.db.live.getTotalSupply + c.config.blockReward ≤ c.config.maxSupply) :
    q (c.rewarded now b n.db) = q n.db.live + c.blockWorth w b' ∧ n'.db.live.Solvent := by
  rw [← r.live_opened] at hb ht hroom
  obtain ⟨hmoved, hsolvent⟩ := worth_execution hq hs hb ht hroom r.run_opened
  rw [r.rewarded_eq] at hmoved hsolvent
  rw [r.live_opened] at hmoved
  refine ⟨hmoved.trans (by rw [r.blockWorth]), ?_⟩
  have haccounts := (congrArg Tables.accounts r.live_eq).trans (accounts_persisted b' _)
  by_cases hburned : 0 < b'.totalBurned ∧ c.config.burnAddress ≠ ""
  · rw [if_pos hburned] at haccounts
    exact fun a => (Tables.balance_congr haccounts a).symm ▸ hsolvent.applyBalanceDelta _ _ a
  · rw [if_neg hburned] at haccounts
    exact fun a => (Tables.balance_congr haccounts a).symm ▸ hsolvent a

end accepted

theorem height_structured {t : Tables} {b : Block} (hk : Keyed t) {d : BlockDict}
    (htop : t.getBlock t.getChainTip = some d) (hs : validateBlockStructure t b = .ok ()) :
    b.height = t.getChainTip + 1 := by
  cases hlast : t.blocks.last? with
  | none =>
    rw [Tables.getBlock, Table.last_eq_none.mp hlast] at htop
    cases htop
  | some e =>
    obtain ⟨k, last⟩ := e
    have htip : t.getChainTip = k := by
      unfold Tables.getChainTip
      rw [hlast]
      rfl
    have hheight : last.height = k := hk k last (Table.last_mem hlast)
    unfold validateBlockStructure Tables.getLastBlock at hs
    simp only [hlast, Option.map_some] at hs
    by_cases hh : b.height = last.height + 1
    · rw [hh, hheight, htip]
    · rw [if_pos hh] at hs
      cases hs

def rootDiffers (c : Blockchain) (t : Tables) : Bool :=
  match t.getBlock t.getChainTip with
  | none => false
  | some d => 0 < t.getChainTip ∧ strip d.stateRoot ≠ "" ∧ c.computeStateRoot t ≠ strip d.stateRoot

/-- The database once `_apply_genesis_allocation` has looked at the founder of a node that has started before. -/
def toppedUp (c : Blockchain) (db : Db) : Db := (topUp c.resolvedFounder c.founderExpected db).2

/-- The accounts are replayed, and the replay goes through. -/
def rebuilds (c : Blockchain) (now : Int) (db : Db) : Bool :=
  c.rootDiffers db.live ∧ (c.reorgToAncestor now 0 db.live.getChainTip db).1.toOption.isSome

def atTip (c : Blockchain) (now : Int) (db : Db) : Db :=
  if c.rootDiffers db.live then (c.reorgToAncestor now 0 db.live.getChainTip db).2 else db

theorem ensureStateAtTip_run (db : Db) : (c.ensureStateAtTip now 0 db).2 = c.atTip now db := by
  unfold ensureStateAtTip atTip rootDiffers
  simp only [bind_run, query_run, id]
  by_cases htip : db.live.getChainTip ≤ 0
  · rw [if_pos htip]
    cases db.live.getBlock db.live.getChainTip with
    | none => rfl
    | some d =>
      simp only [not_lt.mpr htip, false_and, decide_false, Bool.false_eq_true, if_false]
      rfl
  · rw [if_neg htip]
    cases db.live.getBlock db.live.getChainTip with
    | none => rfl
    | some d =>
      by_cases hsame : strip d.stateRoot = "" ∨ c.computeStateRoot db.live = strip d.stateRoot
      · have hno : ¬ (0 < db.live.getChainTip ∧ strip d.stateRoot ≠ "" ∧ c.computeStateRoot db.live ≠ strip d.stateRoot) :=
          fun h => hsame.elim h.2.1 h.2.2
        simp only [if_pos hsame, decide_eq_false hno, Bool.false_eq_true, if_false]
        rfl
      · have hyes : 0 < db.live.getChainTip ∧ strip d.stateRoot ≠ "" ∧ c.computeStateRoot db.live ≠ strip d.stateRoot :=
          ⟨not_le.mp htip, not_or.mp hsame⟩
        simp only [if_neg hsame, decide_eq_true hyes, if_true]

theorem rootDiffers_congr {t u : Tables} (haccounts : u.accounts = t.accounts) (hblocks : u.blocks = t.blocks) :
    c.rootDiffers u = c.rootDiffers t := by
  unfold rootDiffers
  rw [chainTip_congr hblocks, getBlock_congr hblocks, computeStateRoot_congr haccounts]

theorem rootDiffers_false {t : Tables} (h : c.TipRoot t) : c.rootDiffers t = false := by
  unfold rootDiffers
  cases hd : t.getBlock t.getChainTip with
  | none => rfl
  | some d =>
    refine decide_eq_false ?_
    rintro ⟨hpos, hne, hdiff⟩
    exact (h hpos d hd).elim hne hdiff

/-! ### The top-up -/

theorem balance_setBalance (a b : String) (x : ℚ) (t : Tables) :
    (t.setBalance a x).getBalance b = if b = a then x else t.getBalance b := by
  unfold Tables.getBalance Tables.getAccount Tables.setBalance
  simp only [Table.get_upsert]
  by_cases h : b = a
  · rw [if_pos h, if_pos h]
    cases t.accounts.get? a with
    | none => rfl
    | some y => rfl
  · rw [if_neg h, if_neg h]

theorem supply_setBalance (a : String) (x : ℚ) (t : Tables) :
    (t.setBalance a x).getTotalSupply = t.getTotalSupply + (x - t.getBalance a) := by
  unfold Tables.getTotalSupply Tables.setBalance Table.upsert Tables.getBalance Tables.getAccount
  simp only [Table.sum_put]
  cases t.accounts.get? a with
  | none => simp
  | some y =>
    simp only [Option.elim_some, Option.map_some, Option.getD_some]
    ring

theorem codeOf_setBalance (a b : String) (x : ℚ) (t : Tables) :
    EvmAdapter.codeOf (t.setBalance a x) b = EvmAdapter.codeOf t b := by
  unfold EvmAdapter.codeOf Tables.getAccount Tables.setBalance
  simp only [Table.get_upsert]
  by_cases h : b = a
  · rw [if_pos h, ← h]
    cases t.accounts.get? b with
    | none => rfl
    | some y => rfl
  · rw [if_neg h]

theorem founderExpected_nonneg : (0 : ℚ) ≤ c.founderExpected := by
  have h : 0 ≤ c.founderExpected := @genesisBalances_nonneg _ (_, c.founderExpected) c.founderExpected_mem
  exact Int.cast_nonneg h

theorem toppedUp_full (h : ¬ c.FounderShort db.live) : c.toppedUp db = db := by
  unfold toppedUp
  rw [topUp_full h]

theorem toppedUp_short (h : c.FounderShort db.live) :
    c.toppedUp db = db.write (Tables.setBalance c.resolvedFounder c.founderExpected) := by
  unfold toppedUp
  rw [topUp_short h]

/-- A top-up is a gain. -/
theorem supply_toppedUp (h : c.FounderShort db.live) : db.live.getTotalSupply < (c.toppedUp db).live.getTotalSupply := by
  have hshort : db.live.getBalance c.resolvedFounder < c.founderExpected * (99 / 100) := h
  have hnonneg := @founderExpected_nonneg c
  rw [toppedUp_short h, Store.live_write, supply_setBalance]
  linarith

/-- A top-up touches nothing but the balance. -/
theorem toppedUp_kept (hclosed : db.pending = none) (ht : db.live.Solvent) : (c.toppedUp db).pending = none ∧
    (c.toppedUp db).live.blocks = db.live.blocks ∧ (c.toppedUp db).live.poolLocks = db.live.poolLocks ∧
    (c.toppedUp db).live.Solvent ∧ ∀ a, EvmAdapter.codeOf (c.toppedUp db).live a = EvmAdapter.codeOf db.live a := by
  by_cases hshort : c.FounderShort db.live
  · rw [toppedUp_short hshort]
    refine ⟨rfl, rfl, rfl, fun a => ?_, fun a => codeOf_setBalance _ _ _ _⟩
    rw [Store.live_write, balance_setBalance]
    by_cases ha : a = c.resolvedFounder
    · rw [if_pos ha]
      exact founderExpected_nonneg
    · rw [if_neg ha]
      exact ht a
  · rw [toppedUp_full hshort]
    exact ⟨hclosed, rfl, rfl, ht, fun _ => rfl⟩

theorem topUps_kept {alloc : Dict String Int} (hl : ∀ e ∈ alloc, 0 ≤ e.2) (hclosed : db.pending = none)
    (ht : db.live.Solvent) (hcode : ∀ a, EvmAdapter.codeOf db.live a = none) :
    ∃ db', topUps alloc db = (.ok (), db') ∧ db'.pending = none ∧ db'.live.blocks = db.live.blocks ∧
      db'.live.Solvent ∧ ∀ a, EvmAdapter.codeOf db'.live a = none := by
  induction alloc generalizing db with
  | nil => exact ⟨db, rfl, hclosed, rfl, ht, hcode⟩
  | cons e alloc ih =>
    have hrest : ∀ x ∈ alloc, 0 ≤ x.2 := fun x hx => hl x (List.mem_cons_of_mem _ hx)
    unfold topUps
    by_cases hshort : db.live.Short e.1 e.2
    · have ht' : (db.live.setBalance e.1 e.2).Solvent := by
        intro a
        rw [balance_setBalance]
        by_cases ha : a = e.1
        · rw [if_pos ha]
          exact Int.cast_nonneg (hl e List.mem_cons_self)
        · rw [if_neg ha]
          exact ht a
      obtain ⟨db', hrun, hkept⟩ := @ih (db.write (Tables.setBalance e.1 e.2)) hrest rfl ht'
        fun a => (codeOf_setBalance _ _ _ _).trans (hcode a)
      exact ⟨db', (bind_of_ok (topUp_short hshort)).trans hrun, hkept⟩
    · obtain ⟨db', hrun, hkept⟩ := ih hrest hclosed ht hcode
      exact ⟨db', (bind_of_ok (topUp_full hshort)).trans hrun, hkept⟩

theorem atTip_closed (hclosed : db.pending = none) : (c.atTip now db).pending = none := by
  unfold atTip
  by_cases h : c.rootDiffers db.live = true
  · rw [if_pos h]
    exact idle_reorgToAncestor _ _ db hclosed
  · rw [if_neg h]
    exact hclosed

/-- A replay that does not go through leaves the accounts alone, when no replayed transaction commits. -/
theorem atTip_kept (hq : c.QuietReplay now db.live.getChainTip db) (h : c.rebuilds now db = false) :
    (c.atTip now db).live.guarded = db.live.guarded := by
  unfold atTip
  by_cases hroot : c.rootDiffers db.live = true
  · rw [if_pos hroot]
    rcases hrun : c.reorgToAncestor now 0 db.live.getChainTip db with ⟨fault | u, db'⟩
    · exact reorg_guarded hrun hq
    · unfold rebuilds at h
      rw [hroot, hrun] at h
      simp [Except.toOption] at h
  · rw [if_neg hroot]

theorem atTip_rebuilt (hclosed : db.pending = none) (h : c.rebuilds now db = true) :
    ∃ db₀ db₁, db₀.live = db.live.resetAccounts (genesisBalances c.config.founderAddress) ∧
      c.replayBlocks now db.live.getChainTip.toNat 1 db₀ = (.ok (), db₁) ∧ (c.atTip now db).live = db₁.live := by
  unfold rebuilds at h
  simp only [Bool.decide_and, Bool.and_eq_true, decide_eq_true_eq] at h
  obtain ⟨hroot, hok⟩ := h
  unfold atTip
  rw [if_pos hroot]
  rcases hrun : c.reorgToAncestor now 0 db.live.getChainTip db with ⟨fault | u, db'⟩
  · rw [hrun] at hok
    cases hok
  · rcases reorg_returned hclosed hrun with ⟨hlt, -⟩ | ⟨-, db₀, db₁, hstart, hreplay, hlive⟩
    · exact absurd hlt (lt_irrefl _)
    · refine ⟨db₀, db₁, ?_, hreplay, hlive⟩
      rw [hstart]
      unfold replayStart
      rw [if_neg (lt_irrefl _)]

theorem startUp_run (db : Db) : c.startUp now ⟨db, true⟩ = (.ok (), ⟨c.atTip now (c.toppedUp db), true⟩) := by
  have htop : topUp c.resolvedFounder c.founderExpected db = (.ok (), c.toppedUp db) := by
    unfold toppedUp
    by_cases hs : db.live.Short c.resolvedFounder c.founderExpected
    · rw [topUp_short hs]
    · rw [topUp_full hs]
  have hensure := @ensureStateAtTip_run c now (c.toppedUp db)
  unfold startUp
  refine (bind_of_ok (applyGenesisAllocation_applied htop)).trans ?_
  unfold Act.on Act.when
  simp only [bind_run, query_run]
  rw [show DataDir.dbPart.get (⟨c.toppedUp db, true⟩ : DataDir) = c.toppedUp db from rfl]
  by_cases htip : 0 < (c.toppedUp db).live.getChainTip
  · rw [if_pos htip]
    unfold Act.attempt
    rcases hrun : c.ensureStateAtTip now 0 (c.toppedUp db) with ⟨f | u, db'⟩
    · rw [hrun] at hensure
      exact congrArg (fun d => ((.ok (), ⟨d, true⟩) : Except Fault Unit × DataDir)) hensure
    · rw [hrun] at hensure
      exact congrArg (fun d => ((.ok (), ⟨d, true⟩) : Except Fault Unit × DataDir)) hensure
  · rw [if_neg htip]
    have hsame : c.atTip now (c.toppedUp db) = c.toppedUp db := by
      unfold atTip rootDiffers
      cases (c.toppedUp db).live.getBlock (c.toppedUp db).live.getChainTip with
      | none => rfl
      | some d =>
        simp only [htip, false_and, decide_false, Bool.false_eq_true, if_false]
    rw [hsame]
    rfl

end Blockchain

/-! ## Histories -/

/-- A node with its features, the blocks it has accepted, and what else has moved its accounts since
they were last rebuilt: the tables before and after. -/
structure History where
  node : Node
  ledgers : Ledgers
  memory : Memory
  blocks : List Block
  changes : List (Tables × Tables)

inductive NodeEvent where
  | block (now : Int) (b : Block) (preserve : Bool)
  | offBlock (op : OffBlockOp)
  | restart (now : Int) (scans : Scans) (slashing : Option SlashingEngine)

namespace History

variable (c : Blockchain) (f : Features) (s : History)

def live : Tables := s.node.db.live

def drift (q : Tables → ℚ) : ℚ := (s.changes.map fun p => q p.2 - q p.1).sum

def addBlock (now : Int) (b : Block) (preserve : Bool) : History :=
  match c.addBlock now b preserve s.node with
  | (.ok b', n) =>
    { s with node := n, blocks := s.blocks ++ [b'], changes := s.changes ++ [(c.rewarded now b s.node.db, n.db.live)] }
  | (.error _, n) => { s with node := n, changes := s.changes ++ [(s.live, n.db.live)] }

def offBlock (op : OffBlockOp) : History :=
  let r := f.apply op { tables := s.live, ledgers := s.ledgers, memory := s.memory }
  { s with
    node := { s.node with db := s.node.db.write fun _ => r.tables }
    ledgers := r.ledgers
    memory := r.memory
    changes := s.changes ++ [(s.live, r.tables)] }

def restart (now : Int) (scans : Scans) (slashing : Option SlashingEngine) : History :=
  let d := (c.startUp now ⟨s.node.db, true⟩).2
  let l := s.ledgers.load scans
  { s with
    node := { db := d.db, slashing := slashing }
    ledgers := l.1
    memory := l.2
    changes := if c.rebuilds now (c.toppedUp s.node.db) then [] else s.changes ++ [(s.live, d.db.live)] }

def step : NodeEvent → History → History
  | .block now b preserve, s => s.addBlock c now b preserve
  | .offBlock op, s => s.offBlock f op
  | .restart now scans slashing, s => s.restart c now scans slashing

/-- A restart keeps the balances and the locked amounts together, and gives nothing back to an
account that has an open lock. -/
def Preserved (now : Int) (scans : Scans) (slashing : Option SlashingEngine) : Prop :=
  let s' := s.restart c now scans slashing
  s'.live.getTotalSupply + s'.ledgers.locked = s.live.getTotalSupply + s.ledgers.locked ∧
    ∀ a, s.ledgers.Locker a → s'.live.getBalance a ≤ s.live.getBalance a

/-- The restart finds the founder's share and the root of the tip. -/
def Undisturbed : Prop := ¬ c.FounderShort s.live ∧ c.rootDiffers s.live = false

/-- Either nothing is rebuilt and nobody is topped up, or what is lost with the rebuild adds up to
zero and is no loss to an account with an open lock. -/
def Balanced (now : Int) : Prop :=
  (¬ c.FounderShort s.live ∧ c.rebuilds now s.node.db = false) ∨
  (c.rebuilds now (c.toppedUp s.node.db) = true ∧ s.drift Tables.getTotalSupply = 0 ∧
    ∀ a, s.ledgers.Locker a → 0 ≤ s.drift fun t => t.getBalance a)

/-- An accepted block of plain transfers that finds room for its reward, with the changes and
without them; a rejected one that commits nothing. -/
def Ordinary : NodeEvent → History → Prop
  | .block now b preserve, s =>
    match (c.addBlock now b preserve s.node).1 with
    | .ok _ => c.Simple s.live b ∧ s.live.getTotalSupply + c.config.blockReward ≤ c.config.maxSupply ∧
        s.live.getTotalSupply - s.drift Tables.getTotalSupply + c.config.blockReward ≤ c.config.maxSupply
    | .error _ => c.Quiet now b s.node
  | _, _ => True

structure Started : Prop where
  closed : s.node.db.pending = none
  genesis : ∃ d : BlockDict, d.height = 0 ∧ d.transactions = [] ∧ s.live.blocks = Table.empty.put 0 d
  solvent : s.live.Solvent
  codeless : ∀ a, EvmAdapter.codeOf s.live a = none
  blocks : s.blocks = []
  changes : s.changes = [(c.genesisTables, s.live)]

/-! ### The invariant -/

structure Booked : Prop where
  closed : s.node.db.pending = none
  keyed : Blockchain.Keyed s.live
  tip : s.live.getChainTip = s.blocks.length
  top : ∃ d, s.live.getBlock s.live.getChainTip = some d
  rows : ∀ h d, s.live.getBlock h = some d →
    (h = 0 ∧ d.transactions = []) ∨ ∃ (k : ℕ) (b : Block), h = 1 + k ∧ s.blocks[k]? = some b ∧ d = b.toDict
  solvent : s.live.Solvent
  codeless : ∀ a, EvmAdapter.codeOf s.live a = none
  simple : ∀ b ∈ s.blocks, c.Simple s.live b
  room : c.Room c.genesisTables.getTotalSupply s.blocks
  booked : ∀ {q w}, Weighs q w → q s.live = q c.genesisTables + (s.blocks.map (c.blockWorth w)).sum + s.drift q

variable {c f s}

theorem booked_started (h : Started c s) : Booked c s := by
  obtain ⟨d, hd, htxs, hblocks⟩ := h.genesis
  have htip : s.live.getChainTip = 0 := by
    unfold Tables.getChainTip
    rw [hblocks]
    rfl
  have honly : ∀ k e, s.live.getBlock k = some e → k = 0 ∧ e = d := by
    intro k e he
    unfold Tables.getBlock at he
    rw [hblocks, Table.get_put] at he
    by_cases hk : k = 0
    · rw [if_pos hk] at he
      exact ⟨hk, (Option.some.inj he).symm⟩
    · rw [if_neg hk] at he
      cases he
  refine { closed := h.closed, keyed := ?_, tip := ?_, top := ⟨d, ?_⟩, rows := ?_, solvent := h.solvent,
           codeless := h.codeless, simple := ?_, room := ?_, booked := ?_ }
  · intro k e he
    obtain ⟨rfl, rfl⟩ := honly k e he
    exact hd
  · rw [htip, h.blocks]
    rfl
  · unfold Tables.getBlock
    rw [htip, hblocks]
    rfl
  · intro k e he
    obtain ⟨rfl, rfl⟩ := honly k e he
    exact .inl ⟨rfl, htxs⟩
  · rw [h.blocks]
    exact fun b hb => absurd hb List.not_mem_nil
  · rw [h.blocks]
    trivial
  · intro q w hq
    unfold drift
    rw [h.blocks, h.changes]
    simp

/-- Something moved balances beside the blocks, and touched nothing else of the chain. -/
theorem Booked.changed (h : Booked c s) {s' : History} (hclosed : s'.node.db.pending = none)
    (hblocks : s'.live.blocks = s.live.blocks) (hpools : s'.live.poolLocks = s.live.poolLocks)
    (hsolvent : s'.live.Solvent) (hcode : ∀ a, EvmAdapter.codeOf s'.live a = none) (hsame : s'.blocks = s.blocks)
    (hchanges : s'.changes = s.changes ++ [(s.live, s'.live)]) : Booked c s' where
  closed := hclosed
  keyed k d hd := h.keyed k d (by rwa [getBlock_congr hblocks] at hd)
  tip := by rw [chainTip_congr hblocks, hsame, h.tip]
  top := by
    rw [chainTip_congr hblocks]
    obtain ⟨d, hd⟩ := h.top
    exact ⟨d, by rwa [getBlock_congr hblocks]⟩
  rows k d hd := by
    rw [hsame]
    exact h.rows k d (by rwa [getBlock_congr hblocks] at hd)
  solvent := hsolvent
  codeless := hcode
  simple := by
    rw [hsame]
    intro b hb
    exact ⟨(h.simple b hb).1.congr (fun a => (hcode a).trans (h.codeless a).symm) hpools, (h.simple b hb).2⟩
  room := by
    rw [hsame]
    exact h.room
  booked := by
    intro q w hq
    have hbooked := h.booked hq
    unfold drift at hbooked ⊢
    rw [hsame, hchanges, List.map_append, List.sum_append]
    simp only [List.map_cons, List.map_nil, List.sum_cons, List.sum_nil]
    linarith

/-! ### Steps -/

theorem paid_kept {t u : Tables} (h : t.Paid u) : u.blocks = t.blocks ∧ u.poolLocks = t.poolLocks ∧
    (t.Solvent → u.Solvent) ∧ ∀ a, EvmAdapter.codeOf u a = EvmAdapter.codeOf t a :=
  ⟨h.keeps (P := fun v => v.blocks = t.blocks) (fun _ _ _ hv => hv) rfl,
    h.keeps (P := fun v => v.poolLocks = t.poolLocks) (fun _ _ _ hv => hv) rfl,
    h.keeps (fun _ a d hv => hv.applyRealDelta a d),
    h.keeps (P := fun v => ∀ a, EvmAdapter.codeOf v a = EvmAdapter.codeOf t a)
      (fun _ _ _ hv b => (Tables.codeOf_applyRealDelta _ _ _ _).trans (hv b)) fun _ => rfl⟩

theorem booked_offBlock (h : Booked c s) (op : OffBlockOp) : Booked c (s.offBlock f op) := by
  obtain ⟨hblocks, hpools, hsolvent, hcode⟩ :=
    paid_kept (f.paid_apply { tables := s.live, ledgers := s.ledgers, memory := s.memory } op)
  exact h.changed rfl hblocks hpools (hsolvent h.solvent) (fun a => (hcode a).trans (h.codeless a)) rfl rfl

theorem booked_rejected (h : Booked c s) {now : Int} {b : Block} {preserve : Bool} {fault : Fault} {n : Node}
    (hrun : c.addBlock now b preserve s.node = (.error fault, n)) (hq : c.Quiet now b s.node) :
    Booked c (s.addBlock c now b preserve) := by
  have hguarded := Blockchain.rejected_guarded hrun hq
  have hclosed : n.db.pending = none := by
    have hidle := @Blockchain.idle_addBlock c now b preserve s.node h.closed
    rwa [hrun] at hidle
  have haccounts : n.db.live.accounts = s.live.accounts := congrArg Guarded.accounts hguarded
  have hstep : s.addBlock c now b preserve = { s with node := n, changes := s.changes ++ [(s.live, n.db.live)] } := by
    unfold addBlock
    rw [hrun]
  rw [hstep]
  refine h.changed hclosed (congrArg Guarded.blocks hguarded) (congrArg Guarded.poolLocks hguarded) ?_ ?_ rfl rfl
  · exact fun a => (Tables.balance_congr haccounts a).symm ▸ h.solvent a
  · exact fun a => (congrFun (codeOf_accounts haccounts) a).trans (h.codeless a)

theorem booked_accepted (h : Booked c s) (hs : c.config.Sound) {now : Int} {b b' : Block} {preserve : Bool} {n : Node}
    (hrun : c.addBlock now b preserve s.node = (.ok b', n)) (hsimple : c.Simple s.live b)
    (hroom : s.live.getTotalSupply + c.config.blockReward ≤ c.config.maxSupply)
    (halone : s.live.getTotalSupply - s.drift Tables.getTotalSupply + c.config.blockReward ≤ c.config.maxSupply) :
    Booked c (s.addBlock c now b preserve) := by
  obtain ⟨r⟩ := Blockchain.addBlock_ok hrun
  have hstep : s.addBlock c now b preserve =
      { s with node := n, blocks := s.blocks ++ [b'], changes := s.changes ++ [(c.rewarded now b s.node.db, n.db.live)] } := by
    unfold addBlock
    rw [hrun]
  rw [hstep]
  have hadmitted := Blockchain.admitBlock_ok r.admitted
  obtain ⟨d, hd⟩ := h.top
  have hheight : b'.toDict.height = s.live.getChainTip + 1 :=
    r.height_eq.trans (Blockchain.height_structured h.keyed hd hadmitted.structured)
  obtain ⟨htip, htop⟩ := Blockchain.tip_putBlock h.keyed hadmitted.structured (d := b'.toDict) r.height_eq
  have hnext : n.db.live.getChainTip = b.height := (chainTip_congr r.blocks).trans htip
  have hcode : ∀ a, EvmAdapter.codeOf n.db.live a = none := fun a => (r.codeOf hsimple.1 a).trans (h.codeless a)
  have hpools : n.db.live.poolLocks = s.live.poolLocks := r.poolLocks fun tx htx => (hsimple.1 tx htx).2
  have hkept : ∀ {x : Block}, c.Simple s.live x → c.Simple n.db.live x := fun hx =>
    ⟨hx.1.congr (fun a => (hcode a).trans (h.codeless a).symm) hpools, hx.2⟩
  -- the rows of the blocks, with the new one on top
  have hget : ∀ k, n.db.live.getBlock k = if k = b'.toDict.height then some b'.toDict else
      (s.live.getBlock k).filter fun e => decide (e.hash ≠ b'.toDict.hash) := fun k => by
    rw [getBlock_congr r.blocks, getBlock_putBlock]
    rfl
  refine { closed := ?_, keyed := ?_, tip := ?_, top := ⟨b'.toDict, ?_⟩, rows := ?_,
           solvent := (r.worth weighs_supply hs hsimple h.solvent hroom).2, codeless := hcode, simple := ?_, room := ?_,
           booked := ?_ }
  · show n.db.pending = none
    rw [r.result]
  · intro k e he
    exact h.keyed.putBlock b'.toDict k e ((getBlock_congr r.blocks k).symm.trans he)
  · show n.db.live.getChainTip = ((s.blocks ++ [b']).length : ℤ)
    rw [hnext, ← r.height_eq]
    refine hheight.trans ?_
    rw [h.tip]
    simp
  · show n.db.live.getBlock n.db.live.getChainTip = _
    rw [hnext]
    exact (getBlock_congr r.blocks _).trans htop
  -- every row is of the genesis block or of a block of the list
  · intro k e he
    have he' : n.db.live.getBlock k = some e := he
    rw [hget] at he'
    by_cases hk : k = b'.toDict.height
    · rw [if_pos hk] at he'
      refine .inr ⟨s.blocks.length, b', ?_, ?_, (Option.some.inj he').symm⟩
      · rw [hk, hheight, h.tip]
        ring
      · show (s.blocks ++ [b'])[s.blocks.length]? = some b'
        simp
    · rw [if_neg hk] at he'
      rcases h.rows k e (Option.filter_eq_some_iff.mp he').1 with hgenesis | ⟨j, x, hj, hx, hex⟩
      · exact .inl hgenesis
      · refine .inr ⟨j, x, hj, ?_, hex⟩
        have hlt : j < s.blocks.length := (List.getElem?_eq_some_iff.mp hx).1
        show (s.blocks ++ [b'])[j]? = some x
        rw [List.getElem?_append_left hlt, hx]
  · intro x hx
    rcases List.mem_append.mp hx with hx | hx
    · exact hkept (h.simple x hx)
    · rw [List.mem_singleton.mp hx]
      exact hkept (r.simple hsimple)
  -- there is room for the reward of the new block as well
  · show c.Room _ (s.blocks ++ [b'])
    rw [Blockchain.room_append]
    refine ⟨h.room, ?_⟩
    have hsupply := h.booked weighs_supply
    linarith
  -- what the accounts hold is what the blocks are worth and the tables' own drift
  · intro q w hq
    have hbooked := h.booked hq
    have hmoved := (r.worth hq hs hsimple h.solvent hroom).1
    have hlive : s.node.db.live = s.live := rfl
    rw [hlive] at hmoved
    unfold drift at hbooked ⊢
    show q n.db.live = q c.genesisTables + ((s.blocks ++ [b']).map (c.blockWorth w)).sum +
      ((s.changes ++ [(c.rewarded now b s.node.db, n.db.live)]).map fun p => q p.2 - q p.1).sum
    simp only [List.map_append, List.sum_append, List.map_cons, List.map_nil, List.sum_cons, List.sum_nil]
    linarith

theorem live_restart (now : Int) (scans : Scans) (slashing : Option SlashingEngine) :
    (s.restart c now scans slashing).live = (c.atTip now (c.toppedUp s.node.db)).live := by
  unfold restart
  rw [Blockchain.startUp_run]
  rfl

theorem restart_rebuilt (now : Int) (scans : Scans) (slashing : Option SlashingEngine)
    (hrebuilt : c.rebuilds now (c.toppedUp s.node.db) = true) :
    s.restart c now scans slashing =
      { s with
        node := { db := c.atTip now (c.toppedUp s.node.db), slashing := slashing }
        ledgers := (s.ledgers.load scans).1
        memory := (s.ledgers.load scans).2
        changes := [] } := by
  unfold restart
  rw [Blockchain.startUp_run, hrebuilt]
  rfl

section restart
variable (h : Booked c s) (now : Int) (scans : Scans) (slashing : Option SlashingEngine)

include h

theorem Booked.quiet : c.QuietReplay now (c.toppedUp s.node.db).live.getChainTip (c.toppedUp s.node.db) := by
  obtain ⟨-, hblocks, hpools, -⟩ := @Blockchain.toppedUp_kept c s.node.db h.closed h.solvent
  have htip : 0 ≤ (c.toppedUp s.node.db).live.getChainTip := by
    rw [chainTip_congr hblocks]
    exact h.tip ▸ Int.natCast_nonneg _
  refine Blockchain.quietReplay_of_stored htip fun k d _ hd tx htx => ?_
  rw [getBlock_congr hblocks] at hd
  rcases h.rows k d hd with ⟨-, hnone⟩ | ⟨j, b, -, hb, rfl⟩
  · have hread : (Block.fromDict c.host now d.asPeer).transactions =
        (d.transactions.map TxDict.asPeer).map (Transaction.fromDict c.host now) := rfl
    rw [hread, hnone] at htx
    cases htx
  · have hsimple := ((h.simple b (List.mem_of_getElem? hb)).stored now).1 tx htx
    have hempty : ∀ a, EvmAdapter.codeOf Tables.empty a = EvmAdapter.codeOf s.live a := fun a => (h.codeless a).symm
    exact ⟨(Blockchain.kindOf_congr hempty tx).trans hsimple.1, hsimple.2.congr hpools⟩

theorem booked_kept (hkept : c.rebuilds now (c.toppedUp s.node.db) = false) : Booked c (s.restart c now scans slashing) := by
  obtain ⟨hclosed, hblocks, hpools, hsolvent, hcode⟩ := @Blockchain.toppedUp_kept c s.node.db h.closed h.solvent
  have hguarded := Blockchain.atTip_kept (h.quiet now) hkept
  have haccounts : (c.atTip now (c.toppedUp s.node.db)).live.accounts = (c.toppedUp s.node.db).live.accounts :=
    congrArg Guarded.accounts hguarded
  have hstep : s.restart c now scans slashing =
      { s with
        node := { db := c.atTip now (c.toppedUp s.node.db), slashing := slashing }
        ledgers := (s.ledgers.load scans).1
        memory := (s.ledgers.load scans).2
        changes := s.changes ++ [(s.live, (c.atTip now (c.toppedUp s.node.db)).live)] } := by
    unfold restart
    rw [Blockchain.startUp_run, hkept]
    rfl
  rw [hstep]
  refine h.changed (Blockchain.atTip_closed hclosed) ?_ ?_ ?_ ?_ rfl rfl
  · exact (congrArg Guarded.blocks hguarded).trans hblocks
  · exact (congrArg Guarded.poolLocks hguarded).trans hpools
  · exact fun a => (Tables.balance_congr haccounts a).symm ▸ hsolvent a
  · exact fun a => (congrFun (codeOf_accounts haccounts) a).trans ((hcode a).trans (h.codeless a))

theorem rebuilt_worth (hs : c.config.Sound) (hrebuilt : c.rebuilds now (c.toppedUp s.node.db) = true)
    {q : Tables → ℚ} {w : String → ℚ} (hq : Weighs q w) :
    q (c.atTip now (c.toppedUp s.node.db)).live = q c.genesisTables + (s.blocks.map (c.blockWorth w)).sum ∧
      (c.atTip now (c.toppedUp s.node.db)).live.Solvent ∧
      (c.atTip now (c.toppedUp s.node.db)).live.blocks = s.live.blocks ∧
      (c.atTip now (c.toppedUp s.node.db)).live.poolLocks = s.live.poolLocks ∧
      ∀ a, EvmAdapter.codeOf (c.atTip now (c.toppedUp s.node.db)).live a = none := by
  obtain ⟨hclosed, hblocks, hpools, -⟩ := @Blockchain.toppedUp_kept c s.node.db h.closed h.solvent
  obtain ⟨db₀, db₁, hstart, hreplay, hlive⟩ := Blockchain.atTip_rebuilt hclosed hrebuilt
  have htip : (c.toppedUp s.node.db).live.getChainTip = s.blocks.length := (chainTip_congr hblocks).trans h.tip
  have haccounts : db₀.live.accounts = c.genesisTables.accounts := by
    rw [hstart]
    rfl
  have hrows₀ : db₀.live.blocks = s.live.blocks := by
    rw [hstart]
    exact hblocks
  have hpools₀ : db₀.live.poolLocks = s.live.poolLocks := by
    rw [hstart]
    exact hpools
  have hcode₀ : ∀ a, EvmAdapter.codeOf db₀.live a = none := fun a => by
    rw [hstart]
    exact Blockchain.codeOf_resetAccounts _ _ _
  have hsolvent₀ : db₀.live.Solvent := by
    rw [hstart]
    exact Blockchain.solvent_resetAccounts _ _
  have hrows : ∀ k d, k < s.blocks.length → db₀.live.getBlock (1 + (k : ℤ)) = some d →
      ∃ b, s.blocks[k]? = some b ∧ d = b.toDict := by
    intro k d _ hd
    rw [getBlock_congr hrows₀] at hd
    rcases h.rows _ d hd with ⟨hzero, -⟩ | ⟨j, b, hj, hb, hdb⟩
    · omega
    · obtain rfl : k = j := by omega
      exact ⟨b, hb, hdb⟩
  have hsimple : ∀ b ∈ s.blocks, c.Simple db₀.live b := fun b hb =>
    ⟨(h.simple b hb).1.congr (fun a => (hcode₀ a).trans (h.codeless a).symm) hpools₀, (h.simple b hb).2⟩
  have hroom : c.Room db₀.live.getTotalSupply s.blocks := by
    rw [Tables.supply_congr haccounts]
    exact h.room
  rw [htip, Int.toNat_natCast] at hreplay
  obtain ⟨hmoved, hsolvent, hframe⟩ := Blockchain.worth_replayBlocks hq hs hrows hsimple hsolvent₀ hroom hreplay
  rw [hlive]
  refine ⟨?_, hsolvent, hframe.2.2.2.trans hrows₀, hframe.2.2.1.trans hpools₀,
    fun a => (hframe.2.1 a).trans (hcode₀ a)⟩
  rw [hmoved, hq.congr haccounts]

theorem booked_rebuilt (hs : c.config.Sound) (hrebuilt : c.rebuilds now (c.toppedUp s.node.db) = true) :
    Booked c (s.restart c now scans slashing) := by
  obtain ⟨-, hsolvent, hblocks, hpools, hcode⟩ := rebuilt_worth h now hs hrebuilt weighs_supply
  rw [restart_rebuilt now scans slashing hrebuilt]
  refine { closed := ?_, keyed := ?_, tip := ?_, top := ?_, rows := ?_, solvent := hsolvent, codeless := hcode,
           simple := ?_, room := h.room, booked := ?_ }
  · exact Blockchain.atTip_closed (@Blockchain.toppedUp_kept c s.node.db h.closed h.solvent).1
  · exact fun k d hd => h.keyed k d ((getBlock_congr hblocks k).symm.trans hd)
  · exact (chainTip_congr hblocks).trans h.tip
  · obtain ⟨d, hd⟩ := h.top
    exact ⟨d, (getBlock_congr hblocks _).trans ((congrArg s.live.getBlock (chainTip_congr hblocks)).trans hd)⟩
  · exact fun k d hd => h.rows k d ((getBlock_congr hblocks k).symm.trans hd)
  · exact fun b hb => ⟨(h.simple b hb).1.congr (fun a => (hcode a).trans (h.codeless a).symm) hpools, (h.simple b hb).2⟩
  · intro q w hq
    have hmoved := (rebuilt_worth h now hs hrebuilt hq).1
    show q (c.atTip now (c.toppedUp s.node.db)).live = _ + _ + (([] : List (Tables × Tables)).map _).sum
    rw [hmoved]
    exact (add_zero _).symm

end restart

theorem booked_step (hs : c.config.Sound) (e : NodeEvent) (s : History) (h : Booked c s) (hc : Ordinary c e s) :
    Booked c (step c f e s) := by
  cases e with
  | block now b preserve =>
    rcases hrun : c.addBlock now b preserve s.node with ⟨fault | b', n⟩
    · simp only [Ordinary, hrun] at hc
      exact booked_rejected h hrun hc
    · simp only [Ordinary, hrun] at hc
      exact booked_accepted h hs hrun hc.1 hc.2.1 hc.2.2
  | offBlock op => exact booked_offBlock h op
  | restart now scans slashing =>
    cases hrebuilt : c.rebuilds now (c.toppedUp s.node.db) with
    | false => exact booked_kept h now scans slashing hrebuilt
    | true => exact booked_rebuilt h now scans slashing hs hrebuilt

theorem locked_restart (now : Int) (scans : Scans) (slashing : Option SlashingEngine) :
    (s.restart c now scans slashing).ledgers.locked = s.ledgers.locked := by
  simp only [restart, Ledgers.locked_load]

theorem preserved_kept (now : Int) (scans : Scans) (slashing : Option SlashingEngine)
    (hfull : ¬ c.FounderShort s.live) (hkept : (c.atTip now s.node.db).live.accounts = s.live.accounts) :
    Preserved c s now scans slashing := by
  have hlive := live_restart (c := c) (s := s) now scans slashing
  rw [Blockchain.toppedUp_full hfull] at hlive
  unfold Preserved
  dsimp only
  rw [hlive, Tables.supply_congr hkept, locked_restart]
  exact ⟨rfl, fun a _ => le_of_eq (Tables.balance_congr hkept a)⟩

theorem preserved_undisturbed (now : Int) (scans : Scans) (slashing : Option SlashingEngine) (hu : Undisturbed c s) :
    Preserved c s now scans slashing := by
  refine preserved_kept now scans slashing hu.1 ?_
  unfold Blockchain.atTip
  rw [show c.rootDiffers s.node.db.live = false from hu.2]
  rfl

/-- Every sum of balances loses what the changes had added to it. -/
theorem preserved_rebuilt (hs : c.config.Sound) (h : Booked c s) (now : Int) (scans : Scans)
    (slashing : Option SlashingEngine) (hrebuilt : c.rebuilds now (c.toppedUp s.node.db) = true) :
    Preserved c s now scans slashing ↔
      s.drift Tables.getTotalSupply = 0 ∧ ∀ a, s.ledgers.Locker a → 0 ≤ s.drift fun t => t.getBalance a := by
  have hafter : ∀ {q w}, Weighs q w → q (s.restart c now scans slashing).live = q s.live - s.drift q := by
    intro q w hq
    rw [live_restart, (rebuilt_worth h now hs hrebuilt hq).1, h.booked hq]
    ring
  have hbalance : ∀ a, (s.restart c now scans slashing).live.getBalance a =
      s.live.getBalance a - s.drift fun t => t.getBalance a := fun a => hafter (weighs_balance a)
  unfold Preserved
  dsimp only
  simp only [hafter weighs_supply, locked_restart, hbalance, sub_le_self_iff]
  refine and_congr_left fun _ => ?_
  constructor
  · intro hsum
    linarith
  · intro hzero
    rw [hzero, sub_zero]

theorem preserved_iff (hs : c.config.Sound) (h : Booked c s) (now : Int) (scans : Scans) (slashing : Option SlashingEngine) :
    Preserved c s now scans slashing ↔ Balanced c s now := by
  cases hrebuilt : c.rebuilds now (c.toppedUp s.node.db) with
  | true =>
    rw [preserved_rebuilt hs h now scans slashing hrebuilt]
    unfold Balanced
    constructor
    · exact fun hzero => .inr ⟨hrebuilt, hzero⟩
    · rintro (⟨hfull, hkept⟩ | ⟨-, hzero⟩)
      · rw [Blockchain.toppedUp_full hfull, hkept] at hrebuilt
        cases hrebuilt
      · exact hzero
  | false =>
    have haccounts : (c.atTip now (c.toppedUp s.node.db)).live.accounts = (c.toppedUp s.node.db).live.accounts :=
      congrArg Guarded.accounts (Blockchain.atTip_kept (h.quiet now) hrebuilt)
    constructor
    · rintro ⟨hsum, -⟩
      have hfull : ¬ c.FounderShort s.live := by
        intro hshort
        have hgain : s.live.getTotalSupply < (c.toppedUp s.node.db).live.getTotalSupply := Blockchain.supply_toppedUp hshort
        rw [live_restart, Tables.supply_congr haccounts, locked_restart] at hsum
        linarith
      refine .inl ⟨hfull, ?_⟩
      rwa [Blockchain.toppedUp_full hfull] at hrebuilt
    · rintro (⟨hfull, hkept⟩ | ⟨hyes, -⟩)
      · rw [Blockchain.toppedUp_full hfull] at haccounts
        exact preserved_kept now scans slashing hfull haccounts
      · rw [hrebuilt] at hyes
        cases hyes

/-! ### A first start -/

def fresh (c : Blockchain) (db : Db) (slashing : Option SlashingEngine) : History :=
  let l := Ledgers.empty.load { deposits := [], exits := [], wills := [] }
  { node := { db := db, slashing := slashing }, ledgers := l.1, memory := l.2, blocks := [],
    changes := [(c.genesisTables, db.live)] }

theorem started_fresh {first : Blockchain} {start : ℤ} {engine : Bool} (hfits : fitsInt64 start = true) {empty db₀ db : Db}
    (hclosed : empty.pending = none) (hblocks : empty.file.blocks = .empty) (haccounts : empty.file.accounts = .empty)
    (hgen : first.ensureGenesis start engine empty = (.ok (), db₀))
    (halloc : c.applyGenesisAllocation ⟨db₀, false⟩ = (.ok (), ⟨db, true⟩)) (slashing : Option SlashingEngine) :
    Started c (fresh c db slashing) := by
  obtain ⟨db₁, hrun, hpending, hgenesis, hacc, -⟩ :=
    Blockchain.ensureGenesis_run (c := first) engine hclosed hblocks haccounts hfits
  obtain rfl : db₁ = db₀ := congrArg Prod.snd (hrun.symm.trans hgen)
  have hlive : db₁.live = db₁.file := Store.live_closed hpending
  rw [← hlive] at hgenesis hacc
  have hsolvent : db₁.live.Solvent := fun a =>
    (Tables.balance_congr hacc a).symm ▸ Blockchain.solvent_resetAccounts _ _ a
  have hcode : ∀ a, EvmAdapter.codeOf db₁.live a = none := fun a =>
    (congrFun (codeOf_accounts hacc) a).trans (Blockchain.codeOf_resetAccounts _ _ _)
  obtain ⟨db₂, hrun₂, hpending₂, hblocks₂, hsolvent₂, hcode₂⟩ :=
    Blockchain.topUps_kept (fun e he => @genesisBalances_nonneg c.resolvedFounder e he) hpending hsolvent hcode
  obtain rfl : db₂ = db :=
    congrArg (fun r => r.2.db) ((Blockchain.applyGenesisAllocation_first hrun₂).symm.trans halloc)
  exact ⟨hpending₂, ⟨_, rfl, rfl, hblocks₂.trans hgenesis⟩, hsolvent₂, hcode₂, rfl, rfl⟩

theorem run_block (now : Int) (b : Block) (preserve : Bool) :
    run (step c f) [.block now b preserve] s = s.addBlock c now b preserve := rfl

theorem node_accepted {now : Int} {b b' : Block} {preserve : Bool} {n : Node}
    (h : c.addBlock now b preserve s.node = (.ok b', n)) : (s.addBlock c now b preserve).node = n := by
  unfold addBlock
  rw [h]

theorem channels_fresh (db : Db) (slashing : Option SlashingEngine) :
    (fresh c db slashing).ledgers.lightningChannels = .empty := by
  unfold fresh
  dsimp only
  rw [Ledgers.channels_load]
  rfl

theorem run_offBlock (now : Int) (b : Block) (preserve : Bool) (op : OffBlockOp) :
    run (step c f) [.block now b preserve, .offBlock op] s = (s.addBlock c now b preserve).offBlock f op := rfl

theorem ledgers_addBlock (now : Int) (b : Block) (preserve : Bool) : (s.addBlock c now b preserve).ledgers = s.ledgers := by
  unfold addBlock
  split
  · rfl
  · rfl

/-! ### A node that opens a channel -/

def lightningNode : Features := { host := .plain, nodeAddress := "v", bridge := BridgeNode.sampleNode }

def freshHistory : History := fresh .plain (Blockchain.freshNode true).db none

theorem freshHistory_started : Started .plain freshHistory :=
  started_fresh (by decide) rfl rfl rfl (Blockchain.freshNode_run true) Blockchain.freshNode_allocated none

theorem freshHistory_node : freshHistory.node = Blockchain.freshNode true := by
  unfold freshHistory fresh Blockchain.freshNode
  rfl

theorem freshHistory_block {n : Node} {b : Block}
    (h : Blockchain.plain.addBlock 2 Blockchain.secondBlock true (Blockchain.freshNode true) = (.ok b, n)) :
    (run (step .plain lightningNode) [.block 2 Blockchain.secondBlock true] freshHistory).node = n := by
  rw [← freshHistory_node] at h
  rw [run_block]
  exact node_accepted h

theorem second_started {g : Blockchain.Growth .plain 1} (hstart : g.nodes 0 = Blockchain.freshNode true) :
    Blockchain.plain.ensureGenesis 1 true Blockchain.emptyDb = (.ok (), (g.nodes 0).db) := by
  rw [hstart]
  exact Blockchain.freshNode_run true

theorem founder_stocked {t : Tables} (h : t.getBalance defaultFounderAddress = 38454000) :
    ¬ Blockchain.plain.FounderShort t := by
  have hname : Blockchain.plain.resolvedFounder = defaultFounderAddress := by decide
  have hshare : Blockchain.plain.founderExpected = 38454000 := by decide
  unfold Blockchain.FounderShort Tables.Short
  rw [hname, hshare, h]
  norm_num

def secondTables : Tables :=
  { Tables.empty with
    accounts := [("0xbeb0962327d6f0ad8de263bd883bb184e88744a2", 38454000), ("0xecosystem000000000000000000000000000001", 22100000),
      ("0xtreasury00000000000000000000000000001", 22100000), ("v", 50)].foldl
        (fun acc (e : String × ℚ) => acc.put e.1 { balance := e.2, nonce := 0, code := none, storage := none }) .empty }

theorem secondBlock_accounts {n : Node} {b : Block}
    (h : Blockchain.plain.addBlock 2 Blockchain.secondBlock true (Blockchain.freshNode true) = (.ok b, n)) :
    n.db.live.accounts = secondTables.accounts := by
  have hrows : (Blockchain.plain.blockBody 2 Blockchain.secondBlock true (Blockchain.freshNode true)).2.db.live.accounts =
      secondTables.accounts := by
    decide +kernel
  obtain ⟨b', n₁, hbody, -⟩ := Blockchain.secondBlock_body
  have hrun := Blockchain.addBlock_accepted Blockchain.secondBlock_admitted (Blockchain.freshNode_blocks true).2.1 hbody
  rw [hbody] at hrows
  obtain ⟨-, rfl⟩ := Prod.mk.inj (h.symm.trans hrun)
  exact hrows

def ecosystem : String := "0xecosystem000000000000000000000000000001"

def settledChannel : String :=
  lightningNode.shortId [lightningNode.nodeAddress, ecosystem, lightningNode.host.strNum (.float 10)] 0

def settledEvents : List NodeEvent :=
  [.block 2 Blockchain.secondBlock true, .offBlock (.openChannel ecosystem 10 0 3), .offBlock (.closeChannel settledChannel)]

theorem run_offBlocks (now : Int) (b : Block) (preserve : Bool) (op op' : OffBlockOp) :
    run (step c f) [.block now b preserve, .offBlock op, .offBlock op'] s =
      ((s.addBlock c now b preserve).offBlock f op).offBlock f op' := rfl

theorem live_closeChannel {id : String} {ch : LightningChannel} (hget : s.memory.channels.get? id = some ch)
    (hopen : ch.status = .open) : (s.offBlock f (.closeChannel id)).live =
      (s.live.applyBalanceDelta ch.node1 ch.balance1).applyBalanceDelta ch.node2 ch.balance2 := by
  unfold offBlock Features.apply Features.closeChannel
  dsimp only
  rw [hget]
  dsimp only
  rw [if_neg (not_not_intro hopen)]
  rfl

/-- Opening a channel and closing it again leaves the accounts as they were. -/
theorem settled_live (haccounts : s.live.accounts = secondTables.accounts) :
    let s' := (s.offBlock lightningNode (.openChannel ecosystem 10 0 3)).offBlock lightningNode (.closeChannel settledChannel)
    s'.live.accounts = s.live.accounts ∧ s'.live.blocks = s.live.blocks := by
  have hfunds : ¬ s.live.getBalance lightningNode.nodeAddress < 10 := by
    rw [Tables.balance_congr haccounts]
    decide +kernel
  obtain ⟨s₁, hs₁⟩ : ∃ s₁, s.offBlock lightningNode (.openChannel ecosystem 10 0 3) = s₁ := ⟨_, rfl⟩
  have hopened : s₁.live = s.live.applyBalanceDelta "v" (-10) ∧ s₁.memory.channels.get? settledChannel = some
      { node1 := "v", node2 := ecosystem, capacity := 10, balance1 := 10, balance2 := 0, status := .open, createdAt := 3,
        feeRate := 1 / 100000 } := by
    rw [← hs₁]
    unfold offBlock Features.apply Features.openChannel
    dsimp only
    rw [if_neg (by decide), if_neg hfunds]
    unfold settledChannel
    exact ⟨rfl, Table.get_put_same _ _ _⟩
  intro s'
  have hafter : s'.live = ((s.live.applyBalanceDelta "v" (-10)).applyBalanceDelta "v" 10).applyBalanceDelta ecosystem 0 := by
    show ((s.offBlock lightningNode _).offBlock lightningNode _).live = _
    rw [hs₁, live_closeChannel hopened.2 rfl, hopened.1]
  rw [hafter]
  refine ⟨?_, rfl⟩
  rw [haccounts, accounts_applyBalanceDelta (accounts_applyBalanceDelta (accounts_applyBalanceDelta haccounts "v" (-10)) "v" 10)
    ecosystem 0]
  decide +kernel

theorem settled_undisturbed : Undisturbed .plain (run (step .plain lightningNode) settledEvents freshHistory) := by
  obtain ⟨g, hstart, hrun, -, hfounder, hs⟩ := Blockchain.second_growth
  obtain ⟨hg, -⟩ := Blockchain.grown_of_genesis g (by decide) rfl rfl rfl (second_started hstart)
    (Blockchain.genesisBalances_founder (.inr (.inl rfl))) hs
  have hroot := hg.tipRoot hs
  -- the block, then the channel that is opened and closed
  obtain ⟨s₁, hs₁⟩ : ∃ s₁, freshHistory.addBlock .plain 2 Blockchain.secondBlock true = s₁ := ⟨_, rfl⟩
  have hlive : s₁.live = (g.nodes 1).db.live := by
    unfold live
    rw [← hs₁, ← run_block (f := lightningNode), freshHistory_block hrun]
  have hsecond : s₁.live.accounts = secondTables.accounts := by
    rw [hlive]
    exact secondBlock_accounts hrun
  obtain ⟨haccounts, hblocks⟩ := settled_live hsecond
  rw [hlive] at haccounts hblocks
  unfold settledEvents
  rw [run_offBlocks, hs₁]
  refine ⟨founder_stocked ((Tables.balance_congr haccounts _).trans hfounder), ?_⟩
  exact (Blockchain.rootDiffers_congr haccounts hblocks).trans (Blockchain.rootDiffers_false hroot)

theorem freshHistory_supply :
    freshHistory.live.getTotalSupply = 82654000 ∧ freshHistory.drift Tables.getTotalSupply = 0 := by
  have hgenesis : Blockchain.plain.genesisTables.getTotalSupply = 82654000 := by decide +kernel
  have haccounts : (Blockchain.freshNode true).db.live.accounts = Blockchain.plain.genesisTables.accounts := by
    rw [(Blockchain.freshNode_blocks true).2.2]
    unfold Blockchain.genesisTables
    exact Blockchain.accounts_resetAccounts _ _ _
  have hsame : freshHistory.live.getTotalSupply = Blockchain.plain.genesisTables.getTotalSupply := by
    unfold live
    rw [freshHistory_node]
    exact Tables.supply_congr haccounts
  have hdrift : freshHistory.drift Tables.getTotalSupply =
      freshHistory.live.getTotalSupply - Blockchain.plain.genesisTables.getTotalSupply := by
    unfold drift
    rw [freshHistory_started.changes, List.map_cons, List.map_nil, List.sum_cons, List.sum_nil, add_zero]
  rw [hdrift, hsame, sub_self]
  exact ⟨hgenesis, rfl⟩

theorem ordinary_accepted {now : Int} {b b' : Block} {preserve : Bool} {n : Node}
    (hrun : c.addBlock now b preserve s.node = (.ok b', n)) (hsimple : c.Simple s.live b)
    (hroom : s.live.getTotalSupply + c.config.blockReward ≤ c.config.maxSupply)
    (halone : s.live.getTotalSupply - s.drift Tables.getTotalSupply + c.config.blockReward ≤ c.config.maxSupply) :
    Ordinary c (.block now b preserve) s := by
  unfold Ordinary
  dsimp only
  rw [hrun]
  exact ⟨hsimple, hroom, halone⟩

theorem settled_ordinary : Along (step .plain lightningNode) (Ordinary .plain) settledEvents freshHistory := by
  obtain ⟨g, -, hrun, -⟩ := Blockchain.second_growth
  rw [← freshHistory_node] at hrun
  have hnone : ∀ tx, tx ∉ Blockchain.secondBlock.transactions := fun tx htx => (by cases htx)
  refine ⟨?_, trivial, trivial, trivial⟩
  refine ordinary_accepted hrun ⟨fun tx htx => absurd htx (hnone tx), fun tx htx => absurd htx (hnone tx)⟩ ?_ ?_
  · rw [freshHistory_supply.1]
    decide +kernel
  · rw [freshHistory_supply.1, freshHistory_supply.2]
    decide +kernel

/-! ### The restart of a history -/

/-- A restart that finds the founder's share and the root of the tip preserves balances and locks, on
every chain; on a chain of ordinary blocks exactly the balanced ones do. -/
theorem tip_replay_preserves (hstart : Started c s) (events : List NodeEvent) (now : Int) (scans : Scans)
    (slashing : Option SlashingEngine) :
    (Undisturbed c (run (step c f) events s) → Preserved c (run (step c f) events s) now scans slashing) ∧
    (c.config.Sound → Along (step c f) (Ordinary c) events s →
      (Preserved c (run (step c f) events s) now scans slashing ↔ Balanced c (run (step c f) events s) now)) := by
  refine ⟨preserved_undisturbed now scans slashing, fun hs hall => ?_⟩
  have hbooked := (always_of_along (fun e s hi hc => booked_step hs e s hi hc) (booked_started hstart) hall).last
  exact preserved_iff hs hbooked now scans slashing

theorem tip_replay_preserves_settled :
    Preserved .plain (run (step .plain lightningNode) settledEvents freshHistory) 4
        { deposits := [], exits := [], wills := [] } none ∧
      Balanced .plain (run (step .plain lightningNode) settledEvents freshHistory) 4 := by
  have hreplay := tip_replay_preserves freshHistory_started settledEvents (f := lightningNode) 4
    { deposits := [], exits := [], wills := [] } none
  have hsound : Blockchain.plain.config.Sound := ⟨by decide +kernel, by decide +kernel, by decide +kernel, by decide +kernel⟩
  have hkept := hreplay.1 settled_undisturbed
  exact ⟨hkept, (hreplay.2 hsound settled_ordinary).1 hkept⟩

def channelEvents : List NodeEvent := [.block 2 Blockchain.secondBlock true, .offBlock (.openChannel "p" 10 0 3)]

theorem secondTables_roots : Blockchain.plain.computeStateRoot (secondTables.applyBalanceDelta "v" (-10)) ≠
    Blockchain.plain.computeStateRoot secondTables := by
  rw [Blockchain.computeStateRoot_chars, Blockchain.computeStateRoot_chars]
  decide +kernel

theorem offBlock_openChannel (hnone : s.ledgers.lightningChannels = .empty) (hfunds : 10 ≤ s.live.getBalance "v") :
    (s.offBlock lightningNode (.openChannel "p" 10 0 3)).live = s.live.applyBalanceDelta "v" (-10) ∧
    (s.offBlock lightningNode (.openChannel "p" 10 0 3)).ledgers.locked = s.ledgers.locked + 10 ∧
    (s.offBlock lightningNode (.openChannel "p" 10 0 3)).ledgers.Locker "v" := by
  obtain ⟨id, hopen⟩ := @Features.openChannel_ok lightningNode "p" 10 0 3
    { tables := s.live, ledgers := s.ledgers, memory := s.memory } (by decide) (by decide) hfunds
  have happly : lightningNode.apply (.openChannel "p" 10 0 3)
      { tables := s.live, ledgers := s.ledgers, memory := s.memory } = _ := congrArg Prod.snd hopen
  unfold offBlock
  rw [happly]
  refine ⟨rfl, ?_, .inl ⟨id, _, Table.get_put_same _ _ _, rfl, rfl⟩⟩
  refine (Ledgers.locked_putChannel _ ?_ rfl).trans ?_
  · show s.ledgers.lightningChannels.get? id = none
    rw [hnone]
    rfl
  · show s.ledgers.locked + (10 + 0) = s.ledgers.locked + 10
    rw [add_zero]

/-- After the restart the miner has its ten coins back, and the channel still holds them. -/
theorem tip_replay_returns_funds :
    let s := run (step .plain lightningNode) channelEvents freshHistory
    let s' := s.restart .plain 4 { deposits := [], exits := [], wills := [] } none
    s.ledgers.Locker "v" ∧ s.live.getBalance "v" = 40 ∧ s'.live.getBalance "v" = 50 ∧
      s'.ledgers.locked = s.ledgers.locked ∧
      ¬ Preserved .plain s 4 { deposits := [], exits := [], wills := [] } none := by
  obtain ⟨g, hstart, hrun, hreward, hfounder, hs⟩ := Blockchain.second_growth
  obtain ⟨hg, halloc, -⟩ := Blockchain.grown_of_genesis g (by decide) rfl rfl rfl (second_started hstart)
    (Blockchain.genesisBalances_founder (.inr (.inl rfl))) hs
  -- the node before the channel is opened
  obtain ⟨s₁, hs₁⟩ : ∃ s₁, freshHistory.addBlock .plain 2 Blockchain.secondBlock true = s₁ := ⟨_, rfl⟩
  have hlive : s₁.live = (g.nodes 1).db.live := by
    unfold live
    rw [← hs₁, ← run_block (f := lightningNode), freshHistory_block hrun]
  have hnone : s₁.ledgers.lightningChannels = .empty := by
    rw [← hs₁, ledgers_addBlock]
    exact channels_fresh _ _
  unfold channelEvents
  rw [run_offBlock, hs₁]
  intro s s'
  obtain ⟨hopened, -, hlocker⟩ := offBlock_openChannel hnone (by rw [hlive, hreward]; norm_num)
  have hafter : s.live = (g.nodes 1).db.live.applyBalanceDelta "v" (-10) := hlive ▸ hopened
  have hbefore : s.live.getBalance "v" = 40 := by
    rw [hafter, Tables.balance_applyBalanceDelta, if_pos rfl, hreward]
    norm_num
  -- the restart replays the block
  have hfull : ¬ Blockchain.plain.FounderShort s.live := by
    refine founder_stocked ?_
    rw [hafter, Tables.balance_applyBalanceDelta, if_neg (by decide), hfounder]
  have htip : s.live.getChainTip = 1 := by
    rw [hafter]
    exact hg.tip
  have hrow : s.live.getBlock 1 = some (g.stored 0).toDict := by
    rw [hafter]
    exact hg.blocks 0 Nat.one_pos
  have hroot : strip (g.stored 0).stateRoot = Blockchain.plain.computeStateRoot secondTables := by
    rw [(hg.root hs Nat.one_pos).1, Blockchain.computeStateRoot_congr (secondBlock_accounts hrun)]
    exact Blockchain.strip_hashData _
  have hdiffers : Blockchain.plain.rootDiffers s.node.db.live = true := by
    have hother : Blockchain.plain.computeStateRoot s.live ≠ strip (g.stored 0).stateRoot := by
      rw [hroot, hafter, Blockchain.computeStateRoot_congr
        (accounts_applyBalanceDelta (secondBlock_accounts hrun) "v" (-10))]
      exact secondTables_roots
    show Blockchain.plain.rootDiffers s.live = true
    unfold Blockchain.rootDiffers
    rw [htip, hrow]
    refine decide_eq_true ⟨Int.one_pos, ?_, hother⟩
    show strip (g.stored 0).stateRoot ≠ ""
    rw [hroot]
    exact fun h => absurd (congrArg String.length h) (by unfold Blockchain.computeStateRoot hashData sha256Hex; rw [Digest.sha256Hex_length]; decide)
  obtain ⟨db', hreorg, -, hacc, -⟩ := @Blockchain.Grown.replays _ _ _ hg hs halloc _ (le_refl 1)
    (fun d hd => .inr (by
      obtain rfl := Option.some.inj ((hg.blocks 0 Nat.one_pos).symm.trans hd)
      exact (hg.root hs Nat.one_pos).1))
    (by decide) 0 4 (by decide) s.node.db rfl
    (congrArg Tables.blocks hafter : s.live.blocks = _) (congrArg Tables.poolLocks hafter : s.live.poolLocks = _)
  have hrestart : s'.live.accounts = (g.nodes 1).db.live.accounts := by
    show (s.restart .plain 4 { deposits := [], exits := [], wills := [] } none).live.accounts = _
    rw [live_restart, Blockchain.toppedUp_full hfull]
    unfold Blockchain.atTip
    rw [if_pos hdiffers]
    rw [show s.node.db.live.getChainTip = ((1 : ℕ) : ℤ) from htip, hreorg]
    exact hacc
  have hreturned : s'.live.getBalance "v" = 50 := (Tables.balance_congr hrestart "v").trans hreward
  refine ⟨hlocker, hbefore, hreturned, locked_restart _ _ _, fun hp => ?_⟩
  have hle := hp.2 "v" hlocker
  rw [hbefore] at hle
  have hle' : s'.live.getBalance "v" ≤ 40 := hle
  rw [hreturned] at hle'
  norm_num at hle'

end History

end AbsoluteChain
