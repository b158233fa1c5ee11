import AbsoluteChain.Atomicity
import Mathlib.Algebra.Order.BigOperators.Group.List

/-!
# Supply

What a block does to the sum of all balances. Every write to a balance moves the
sum by its delta and by what `MAX(0, ..)` adds when the delta does not fit; the
rest is bookkeeping of what is credited against what is charged.
-/

namespace AbsoluteChain

open Python Actions Act Transactions KeyedTable

/-! ## Balances -/

namespace Tables

def clipped (address : String) (delta : ℚ) (t : Tables) : ℚ := max 0 (-(t.getBalance address + delta))

theorem clipped_eq_zero {address : String} {delta : ℚ} {t : Tables} (h : 0 ≤ t.getBalance address + delta) :
    t.clipped address delta = 0 := by
  unfold clipped
  exact max_eq_left (by linarith)

theorem max_eq_add (q : ℚ) : max 0 q = q + max 0 (-q) := by
  rcases le_total 0 q with h | h
  · rw [max_eq_right h, max_eq_left (by linarith)]
    ring
  · rw [max_eq_left h, max_eq_right (by linarith)]
    ring

theorem supply_applyBalanceDelta (address : String) (delta : ℚ) (t : Tables) :
    (t.applyBalanceDelta address delta).getTotalSupply = t.getTotalSupply + delta + t.clipped address delta := by
  unfold getTotalSupply applyBalanceDelta Table.upsert clipped getBalance getAccount
  simp only [Table.sum_put]
  cases h : t.accounts.get? address with
  | none =>
    simp only [Option.elim_none, Option.map_none, Option.getD_none]
    rw [max_eq_add delta, zero_add]
    ring
  | some a =>
    simp only [Option.elim_some, Option.map_some, Option.getD_some]
    rw [max_eq_add (a.balance + delta)]
    ring

theorem supply_incrementNonce (address : String) (t : Tables) :
    (t.incrementNonce address).getTotalSupply = t.getTotalSupply := by
  unfold getTotalSupply incrementNonce Table.upsert
  simp only [Table.sum_put]
  cases t.accounts.get? address with
  | none => simp
  | some a => simp

/-! ### A balance after a write -/

theorem balance_applyBalanceDelta (a b : String) (delta : ℚ) (t : Tables) :
    (t.applyBalanceDelta a delta).getBalance b =
      if b = a then max 0 (t.getBalance a + delta) else t.getBalance b := by
  unfold getBalance getAccount applyBalanceDelta
  simp only [Table.get_upsert]
  by_cases h : b = a
  · rw [if_pos h, if_pos h]
    cases t.accounts.get? a with
    | none => simp
    | some x => simp
  · rw [if_neg h, if_neg h]

theorem balance_incrementNonce (a b : String) (t : Tables) : (t.incrementNonce a).getBalance b = t.getBalance b := by
  unfold getBalance getAccount incrementNonce
  simp only [Table.get_upsert]
  by_cases h : b = a
  · rw [if_pos h, ← h]
    cases t.accounts.get? b with
    | none => simp
    | some x => simp
  · rw [if_neg h]

/-- No account is in debt. -/
def Solvent (t : Tables) : Prop := ∀ a, 0 ≤ t.getBalance a

theorem Solvent.applyBalanceDelta {t : Tables} (h : t.Solvent) (a : String) (delta : ℚ) :
    (t.applyBalanceDelta a delta).Solvent := by
  intro b
  rw [balance_applyBalanceDelta]
  by_cases hb : b = a
  · rw [if_pos hb]
    exact le_max_left _ _
  · rw [if_neg hb]
    exact h b

theorem Solvent.incrementNonce {t : Tables} (h : t.Solvent) (a : String) : (t.incrementNonce a).Solvent := by
  intro b
  rw [balance_incrementNonce]
  exact h b

theorem Solvent.clipped {t : Tables} (h : t.Solvent) (a : String) {delta : ℚ} (hd : 0 ≤ delta) :
    t.clipped a delta = 0 :=
  clipped_eq_zero (by have := h a; linarith)

theorem balance_congr {t u : Tables} (h : u.accounts = t.accounts) (a : String) : u.getBalance a = t.getBalance a := by
  unfold getBalance getAccount
  rw [h]

theorem supply_congr {t u : Tables} (h : u.accounts = t.accounts) : u.getTotalSupply = t.getTotalSupply := by
  unfold getTotalSupply
  rw [h]

end Tables

/-- Parameters that make no fee, no share of it and no reward negative. -/
structure Config.Sound (config : Config) : Prop where
  gasPrice : 0 ≤ config.gasPriceWei
  burnRate : 0 ≤ config.burnRate
  burnShare : config.burnRate ≤ 1
  reward : 0 ≤ config.blockReward

namespace Blockchain

variable {c : Blockchain} {now : Int}

/-! ## What is created or lost, stage by stage -/

/-- Settling pays out the fee. What is burned is lost when there is no burn address, and a negative
amount never reaches it. -/
def settleDrift (c : Blockchain) (proposer : String) (ch : Charge) (t : Tables) : ℚ :=
  t.clipped proposer ch.minerFee +
    if 0 < ch.burned ∧ c.config.burnAddress ≠ "" then
      (t.applyBalanceDelta proposer ch.minerFee).clipped c.config.burnAddress ch.burned
    else -ch.burned

def transferDrift (c : Blockchain) (tx : Transaction) (proposer : String) (t : Tables) : ℚ :=
  let ch := c.charge (c.gasFee tx.gas)
  let debited := t.applyBalanceDelta tx.fromAddr (-(tx.value.toRat + ch.fee))
  debited.clipped tx.toAddr tx.value.toRat +
    c.settleDrift proposer ch (debited.applyBalanceDelta tx.toAddr tx.value.toRat)

def contractDrift (c : Blockchain) (tx : Transaction) (proposer : String) (gasUsed : Int) (t t' : Tables) : ℚ :=
  let ch := c.contractCharge tx gasUsed
  (t'.getTotalSupply - t.getTotalSupply) + t'.clipped tx.fromAddr (-ch.fee) +
    c.settleDrift proposer ch (t'.applyBalanceDelta tx.fromAddr (-ch.fee))

def txDrift (c : Blockchain) (now height : Int) (proposer : String) (tx : Transaction) (db : Db) : ℚ :=
  match c.kindOf db.live tx with
  | .transfer => c.transferDrift tx (c.feeRecipient proposer) db.live
  | kind =>
    match c.runContract now kind tx height db with
    | (.ok res, db₁) => c.contractDrift tx (c.feeRecipient proposer) res.gasUsed db.live db₁.live
    | (.error _, _) => 0

def txsDrift (c : Blockchain) (now height : Int) (proposer : String) : List Transaction → Db → ℚ
  | [], _ => 0
  | tx :: rest, db =>
    c.txDrift now height proposer tx db +
      txsDrift c now height proposer rest (c.applyTransaction now tx height proposer db).2

def rewardDrift (c : Blockchain) (miner : String) (t : Tables) : ℚ :=
  if 0 < c.rewardFor t then t.clipped miner (c.rewardFor t) else -c.rewardFor t

def burnDrift (c : Blockchain) (burned : ℚ) (t : Tables) : ℚ :=
  if 0 < burned ∧ c.config.burnAddress ≠ "" then burned + t.clipped c.config.burnAddress burned else 0

theorem supply_settleTables (tx : Transaction) (proposer : String) (ch : Charge) (t : Tables) :
    (c.settleTables tx proposer ch t).getTotalSupply =
      t.getTotalSupply + ch.minerFee + ch.burned + c.settleDrift proposer ch t := by
  unfold settleTables settleDrift
  by_cases h : 0 < ch.burned ∧ c.config.burnAddress ≠ ""
  · simp only [if_pos h, Tables.supply_incrementNonce, Tables.supply_applyBalanceDelta]
    ring
  · simp only [if_neg h, Tables.supply_incrementNonce, Tables.supply_applyBalanceDelta]
    ring

theorem charge_fee (fee : ℚ) : (c.charge fee).minerFee + (c.charge fee).burned = fee := by
  unfold charge
  ring

theorem supply_transferTables {tx : Transaction} {t : Tables} (proposer : String) (h : c.precheck t tx = .ok ()) :
    (c.transferTables tx proposer t).getTotalSupply = t.getTotalSupply + c.transferDrift tx proposer t := by
  have hfunds := (precheck_ok.mp h).2.1
  have hfee : (c.charge (c.gasFee tx.gas)).fee = c.gasFee tx.gas := rfl
  have hclip : t.clipped tx.fromAddr (-(tx.value.toRat + c.gasFee tx.gas)) = 0 :=
    Tables.clipped_eq_zero (by linarith)
  have hsum := charge_fee (c := c) (c.gasFee tx.gas)
  unfold transferTables transferDrift
  simp only [supply_settleTables, Tables.supply_applyBalanceDelta, hfee, hclip]
  linarith

theorem supply_contractTables (tx : Transaction) (proposer : String) (gasUsed : Int) (t t' : Tables) :
    (c.contractTables tx proposer (c.contractCharge tx gasUsed) t').getTotalSupply =
      t.getTotalSupply + c.contractDrift tx proposer gasUsed t t' := by
  have hsum : (c.contractCharge tx gasUsed).minerFee + (c.contractCharge tx gasUsed).burned =
      (c.contractCharge tx gasUsed).fee := charge_fee _
  unfold contractTables contractDrift
  simp only [supply_settleTables, Tables.supply_applyBalanceDelta]
  linarith

theorem accounts_recordPool (a : String) (amount : ℚ) (db : Db) :
    (c.recordPool a amount db).live.accounts = db.live.accounts := by
  unfold recordPool
  cases c.poolSpending db.live a amount with
  | none => rfl
  | some s => rfl

theorem TxStep.supply {height : Int} {proposer : String} {tx tx' : Transaction} {db db' : Db}
    (h : TxStep c now height proposer tx db tx' db') :
    db'.live.getTotalSupply = db.live.getTotalSupply + c.txDrift now height proposer tx db := by
  cases h with
  | transfer checks kind =>
    rw [Tables.supply_congr (accounts_recordPool _ _ _), Store.live_exec, supply_transferTables _ checks]
    unfold txDrift
    simp only [kind]
  | @contract res db₁ checks kind run success funds =>
    rw [Tables.supply_congr (accounts_recordPool _ _ _), Store.live_exec, supply_contractTables _ _ _ db.live]
    unfold txDrift
    cases hk : c.kindOf db.live tx with
    | transfer => exact absurd hk kind
    | call =>
      rw [hk] at run
      simp only [run]
    | deploy =>
      rw [hk] at run
      simp only [run]

theorem supply_applyTransactions {height : Int} {proposer : String} {txs txs' : List Transaction} {db db' : Db}
    (h : c.applyTransactions now height proposer txs db = (.ok txs', db')) :
    db'.live.getTotalSupply = db.live.getTotalSupply + c.txsDrift now height proposer txs db := by
  induction txs generalizing db txs' with
  | nil =>
    cases h
    simp [txsDrift]
  | cons tx rest ih =>
    unfold applyTransactions at h
    obtain ⟨tx', db₁, h₁, h⟩ := bind_ok.mp h
    obtain ⟨rest', db₂, h₂, h⟩ := bind_ok.mp h
    cases h
    have hstep := (applyTransaction_ok h₁).supply
    have hrest := ih h₂
    unfold txsDrift
    rw [h₁, hrest, hstep]
    ring

theorem supply_rewardTables (miner : String) (t : Tables) :
    (c.rewardTables miner t).getTotalSupply = t.getTotalSupply + c.rewardFor t + c.rewardDrift miner t := by
  unfold rewardTables rewardDrift
  by_cases h : 0 < c.rewardFor t
  · rw [if_pos h, if_pos h, Tables.supply_applyBalanceDelta]
  · rw [if_neg h, if_neg h]
    ring

end Blockchain

theorem accounts_persistTables (host : Host) (now : Int) (b : BlockDict) (txs : List TxDict) (burned : ℚ)
    (burnAddress : String) (t : Tables) :
    (persistTables host now b txs burned burnAddress t).accounts =
      if 0 < burned ∧ burnAddress ≠ "" then (t.applyBalanceDelta burnAddress burned).accounts else t.accounts := by
  have hstore : (storeTxs host b.hash b.height txs (storeBlock host now b t)).accounts = t.accounts := by
    obtain ⟨transactions, receipts, hrows⟩ := storeTxs_rows host b.hash b.height txs (storeBlock host now b t)
    rw [hrows]
    rfl
  unfold persistTables burnTables
  by_cases hb : 0 < burned
  · rw [if_pos hb]
    by_cases ha : burnAddress ≠ ""
    · simp only [if_pos ha, if_pos (And.intro hb ha), Tables.applyBalanceDelta, Tables.insertBurnRecord, hstore]
    · simp only [if_neg ha, if_neg fun h : 0 < burned ∧ burnAddress ≠ "" => ha h.2]
      exact hstore
  · rw [if_neg hb, if_neg fun h : 0 < burned ∧ burnAddress ≠ "" => hb h.1]
    exact hstore

namespace Blockchain

variable {c : Blockchain} {now : Int}

theorem accounts_persisted (b : Block) (t : Tables) :
    (c.persisted now b t).accounts =
      if 0 < b.totalBurned ∧ c.config.burnAddress ≠ "" then
        (t.applyBalanceDelta c.config.burnAddress b.totalBurned).accounts
      else t.accounts := by
  unfold persisted
  rw [accounts_persistTables]
  by_cases hb : 0 < b.totalBurned
  · simp only [if_pos hb]
  · simp only [if_neg hb, if_neg fun h : 0 < b.totalBurned ∧ _ => hb h.1]

theorem poolLocks_persisted (b : Block) (t : Tables) : (c.persisted now b t).poolLocks = t.poolLocks := by
  have hstore : (storeTxs c.host b.toDict.hash b.toDict.height (b.transactions.map Transaction.toDict)
      (storeBlock c.host now b.toDict t)).poolLocks = t.poolLocks := by
    obtain ⟨transactions, receipts, hrows⟩ := storeTxs_rows c.host b.toDict.hash b.toDict.height
      (b.transactions.map Transaction.toDict) (storeBlock c.host now b.toDict t)
    rw [hrows]
    rfl
  unfold persisted persistTables burnTables
  by_cases hb : 0 < b.totalBurned
  · simp only [if_pos hb]
    by_cases ha : c.config.burnAddress ≠ ""
    · simp only [if_pos ha]
      exact hstore
    · simp only [if_neg ha]
      exact hstore
  · simp only [if_neg hb]
    exact hstore

theorem supply_persisted (b : Block) (t : Tables) :
    (c.persisted now b t).getTotalSupply = t.getTotalSupply + c.burnDrift b.totalBurned t := by
  have hacc := @accounts_persisted c now b t
  unfold burnDrift
  by_cases h : 0 < b.totalBurned ∧ c.config.burnAddress ≠ ""
  · rw [if_pos h] at hacc
    rw [if_pos h, Tables.supply_congr hacc, Tables.supply_applyBalanceDelta]
    ring
  · rw [if_neg h] at hacc
    rw [if_neg h, Tables.supply_congr hacc, add_zero]

/-! ## Accepted blocks -/

def burnedIn (c : Blockchain) (now : Int) (b : Block) (db : Db) : ℚ :=
  match (c.applyTransactions now b.height b.miner b.transactions db.opened).1 with
  | .ok txs => (txs.map Transaction.burned).sum
  | .error _ => 0

def rewarded (c : Blockchain) (now : Int) (b : Block) (db : Db) : Tables :=
  c.rewardTables b.miner (c.applyTransactions now b.height b.miner b.transactions db.opened).2.live

def rewardOf (c : Blockchain) (now : Int) (b : Block) (db : Db) : ℚ :=
  c.rewardFor (c.applyTransactions now b.height b.miner b.transactions db.opened).2.live

def blockDrift (c : Blockchain) (now : Int) (b : Block) (db : Db) : ℚ :=
  let applied := (c.applyTransactions now b.height b.miner b.transactions db.opened).2
  c.txsDrift now b.height b.miner b.transactions db.opened + c.rewardDrift b.miner applied.live +
    c.burnDrift (c.burnedIn now b db) (c.rewarded now b db)

variable {b b' : Block} {preserve : Bool} {n n' : Node}

theorem Accepted.run_opened (r : Accepted c now b preserve n b' n') :
    c.applyTransactions now b.height b.miner b.transactions n.db.opened = (.ok r.txs, r.applied) := by
  rw [← r.began]
  exact r.ran

theorem Accepted.burned_eq (r : Accepted c now b preserve n b' n') : b'.totalBurned = c.burnedIn now b n.db := by
  unfold burnedIn
  rw [r.run_opened, r.totalBurned_eq]

theorem Accepted.rewarded_eq (r : Accepted c now b preserve n b' n') :
    c.rewardTables b.miner r.applied.live = c.rewarded now b n.db := by
  unfold rewarded
  rw [r.run_opened]

theorem Accepted.live_eq (r : Accepted c now b preserve n b' n') :
    n'.db.live = c.persisted now b' (c.rewarded now b n.db) := by
  rw [r.result, ← r.rewarded_eq]
  rfl

theorem Accepted.supply (r : Accepted c now b preserve n b' n') :
    n'.db.live.getTotalSupply = n.db.live.getTotalSupply + c.rewardOf now b n.db + c.blockDrift now b n.db := by
  have hrun := r.run_opened
  have htxs := supply_applyTransactions hrun
  have hlive := r.live_start
  rw [r.began] at hlive
  rw [hlive] at htxs
  rw [r.live_eq, supply_persisted, r.burned_eq]
  unfold rewardOf blockDrift
  rw [← r.rewarded_eq, supply_rewardTables, hrun, htxs]
  ring

/-! ## Blocks of plain transfers -/

def PlainTransfers (c : Blockchain) (txs : List Transaction) (t : Tables) : Prop :=
  ∀ tx ∈ txs, c.kindOf t tx = .transfer ∧ 0 ≤ tx.value.toRat ∧ 0 ≤ tx.gas

def burnedBy (c : Blockchain) (tx : Transaction) : ℚ := (c.charge (c.gasFee tx.gas)).burned

theorem gasFee_nonneg (hs : c.config.Sound) {gas : Int} (hg : 0 ≤ gas) : 0 ≤ c.gasFee gas :=
  mul_nonneg (by exact_mod_cast hg) hs.gasPrice

theorem burned_nonneg (hs : c.config.Sound) {fee : ℚ} (h : 0 ≤ fee) : 0 ≤ (c.charge fee).burned :=
  mul_nonneg h hs.burnRate

theorem minerFee_nonneg (hs : c.config.Sound) {fee : ℚ} (h : 0 ≤ fee) : 0 ≤ (c.charge fee).minerFee := by
  have hshare : fee * c.config.burnRate ≤ fee := mul_le_of_le_one_right h hs.burnShare
  have heq : (c.charge fee).minerFee = fee - fee * c.config.burnRate := rfl
  rw [heq]
  linarith

theorem burnedBy_nonneg (hs : c.config.Sound) {tx : Transaction} (hg : 0 ≤ tx.gas) : 0 ≤ c.burnedBy tx :=
  burned_nonneg hs (gasFee_nonneg hs hg)

theorem solvent_settleTables {t : Tables} (h : t.Solvent) (tx : Transaction) (proposer : String) (ch : Charge) :
    (c.settleTables tx proposer ch t).Solvent := by
  unfold settleTables
  by_cases hb : 0 < ch.burned ∧ c.config.burnAddress ≠ ""
  · simp only [if_pos hb]
    exact ((h.applyBalanceDelta _ _).applyBalanceDelta _ _).incrementNonce _
  · simp only [if_neg hb]
    exact (h.applyBalanceDelta _ _).incrementNonce _

theorem solvent_transferTables {t : Tables} (h : t.Solvent) (tx : Transaction) (proposer : String) :
    (c.transferTables tx proposer t).Solvent :=
  solvent_settleTables ((h.applyBalanceDelta _ _).applyBalanceDelta _ _) _ _ _

theorem codeOf_congr {t u : Tables} (h : u.accounts = t.accounts) (a : String) :
    EvmAdapter.codeOf u a = EvmAdapter.codeOf t a := by
  unfold EvmAdapter.codeOf Tables.getAccount
  rw [h]

theorem PlainTransfers.step {height : Int} {proposer : String} {tx tx' : Transaction} {rest : List Transaction}
    {db db' : Db} (h : c.PlainTransfers (tx :: rest) db.live) (s : TxStep c now height proposer tx db tx' db') :
    c.PlainTransfers rest db'.live ∧ db'.live.accounts = (c.transferTables tx (c.feeRecipient proposer) db.live).accounts ∧
      tx'.burned = c.burnedBy tx := by
  cases s with
  | contract checks kind run success funds => exact absurd (h tx (List.mem_cons_self ..)).1 kind
  | transfer checks kind =>
    have hacc := accounts_recordPool (c := c) tx.fromAddr (tx.value.toRat + c.gasFee tx.gas)
      (db.exec (c.transferTables tx (c.feeRecipient proposer)))
    refine ⟨fun tx₁ htx₁ => ?_, hacc, rfl⟩
    obtain ⟨hk, hv⟩ := h tx₁ (List.mem_cons_of_mem _ htx₁)
    refine ⟨?_, hv⟩
    rw [← hk]
    refine kindOf_congr (fun a => ?_) tx₁
    rw [codeOf_congr hacc, Store.live_exec, codeOf_transferTables]

theorem PlainTransfers.drift {height : Int} {proposer : String} {tx : Transaction} {rest : List Transaction} {db : Db}
    (hs : c.config.Sound) (hsolvent : db.live.Solvent) (h : c.PlainTransfers (tx :: rest) db.live) :
    c.txDrift now height proposer tx db = if c.config.burnAddress = "" then -c.burnedBy tx else 0 := by
  obtain ⟨hk, hv, hg⟩ := h tx (List.mem_cons_self ..)
  have hdebited := hsolvent.applyBalanceDelta tx.fromAddr (-(tx.value.toRat + (c.charge (c.gasFee tx.gas)).fee))
  have hcredited := hdebited.applyBalanceDelta tx.toAddr tx.value.toRat
  have hpaid := hcredited.applyBalanceDelta (c.feeRecipient proposer) (c.charge (c.gasFee tx.gas)).minerFee
  have hburned : 0 ≤ (c.charge (c.gasFee tx.gas)).burned := burnedBy_nonneg hs hg
  unfold txDrift transferDrift settleDrift
  simp only [hk, hdebited.clipped _ hv, hcredited.clipped _ (minerFee_nonneg hs (gasFee_nonneg hs hg)), hpaid.clipped _ hburned, zero_add]
  by_cases ha : c.config.burnAddress = ""
  · simp only [ha, ne_eq, not_true_eq_false, and_false, if_false, if_true]
    rfl
  · by_cases hb : 0 < (c.charge (c.gasFee tx.gas)).burned
    · rw [if_pos ⟨hb, ha⟩, if_neg ha]
    · rw [if_neg fun h => hb h.1, if_neg ha, le_antisymm (not_lt.mp hb) hburned, neg_zero]

theorem PlainTransfers.run {height : Int} {proposer : String} {txs txs' : List Transaction} {db db' : Db}
    (hs : c.config.Sound) (hsolvent : db.live.Solvent) (h : c.PlainTransfers txs db.live)
    (hrun : c.applyTransactions now height proposer txs db = (.ok txs', db')) :
    db'.live.Solvent ∧ txs'.map Transaction.burned = txs.map c.burnedBy ∧
      c.txsDrift now height proposer txs db =
        if c.config.burnAddress = "" then -(txs.map c.burnedBy).sum else 0 := by
  induction txs generalizing db txs' with
  | nil =>
    cases hrun
    exact ⟨hsolvent, rfl, by simp [txsDrift]⟩
  | cons tx rest ih =>
    unfold applyTransactions at hrun
    obtain ⟨tx', db₁, h₁, hrun⟩ := bind_ok.mp hrun
    obtain ⟨rest', db₂, h₂, hrun⟩ := bind_ok.mp hrun
    cases hrun
    obtain ⟨hnext, hacc, hburned⟩ := h.step (applyTransaction_ok h₁)
    have hsolvent₁ : db₁.live.Solvent := fun a => by
      rw [Tables.balance_congr hacc]
      exact solvent_transferTables hsolvent _ _ a
    obtain ⟨hsolvent₂, hmap, hdrift⟩ := ih hsolvent₁ hnext h₂
    refine ⟨hsolvent₂, by rw [List.map_cons, List.map_cons, hburned, hmap], ?_⟩
    unfold txsDrift
    rw [h₁, hdrift, h.drift hs hsolvent, List.map_cons, List.sum_cons]
    by_cases ha : c.config.burnAddress = ""
    · simp only [if_pos ha]
      ring
    · simp only [if_neg ha, add_zero]

theorem rewardFor_nonneg (hs : c.config.Sound) (t : Tables) : 0 ≤ c.rewardFor t := by
  unfold rewardFor
  by_cases h : c.config.maxSupply < t.getTotalSupply + c.config.blockReward
  · simp only [if_pos h]
    exact le_max_left _ _
  · simp only [if_neg h]
    exact hs.reward

theorem rewardDrift_solvent (hs : c.config.Sound) {t : Tables} (h : t.Solvent) (miner : String) :
    c.rewardDrift miner t = 0 := by
  have hr := rewardFor_nonneg hs t
  unfold rewardDrift
  by_cases hp : 0 < c.rewardFor t
  · rw [if_pos hp, h.clipped _ hr]
  · rw [if_neg hp, le_antisymm (not_lt.mp hp) hr, neg_zero]

theorem solvent_rewardTables {t : Tables} (h : t.Solvent) (miner : String) : (c.rewardTables miner t).Solvent := by
  unfold rewardTables
  by_cases hp : 0 < c.rewardFor t
  · rw [if_pos hp]
    exact h.applyBalanceDelta _ _
  · rw [if_neg hp]
    exact h

theorem PlainTransfers.blockDrift (hs : c.config.Sound) (r : Accepted c now b preserve n b' n')
    (hsolvent : n.db.live.Solvent) (h : c.PlainTransfers b.transactions n.db.live) :
    c.blockDrift now b n.db =
      (if c.config.burnAddress = "" then -1 else 1) * (b.transactions.map c.burnedBy).sum := by
  have hrun := r.ran
  obtain ⟨happlied, hmap, hdrift⟩ :=
    PlainTransfers.run hs (by rw [r.live_start]; exact hsolvent) (by rw [r.live_start]; exact h) hrun
  have hsum : 0 ≤ (b.transactions.map c.burnedBy).sum := by
    refine List.sum_nonneg fun x hx => ?_
    obtain ⟨tx, htx, rfl⟩ := List.mem_map.mp hx
    exact burnedBy_nonneg hs (h tx htx).2.2
  rw [r.began] at hrun hdrift
  unfold Blockchain.blockDrift burnDrift burnedIn
  rw [← r.rewarded_eq]
  simp only [hrun, hdrift, hmap, rewardDrift_solvent hs happlied,
    (solvent_rewardTables (c := c) happlied b.miner).clipped _ hsum]
  by_cases ha : c.config.burnAddress = ""
  · simp [ha]
  · by_cases hb : 0 < (b.transactions.map c.burnedBy).sum
    · rw [if_neg ha, if_pos ⟨hb, ha⟩, if_neg ha]
      ring
    · rw [if_neg ha, if_neg fun h => hb h.1, if_neg ha, le_antisymm (not_lt.mp hb) hsum]
      ring

/-- A block conserves the supply exactly when its drift is zero; for a block of plain transfers
that is when none of them burns anything. -/
theorem addBlock_supply (h : c.addBlock now b preserve n = (.ok b', n')) :
    (n'.db.live.getTotalSupply = n.db.live.getTotalSupply + c.rewardOf now b n.db ↔ c.blockDrift now b n.db = 0) ∧
    (c.config.Sound → n.db.live.Solvent → c.PlainTransfers b.transactions n.db.live →
      (n'.db.live.getTotalSupply = n.db.live.getTotalSupply + c.rewardOf now b n.db ↔
        ∀ tx ∈ b.transactions, c.burnedBy tx = 0)) := by
  obtain ⟨r⟩ := addBlock_ok h
  have hsupply := r.supply
  have hiff : n'.db.live.getTotalSupply = n.db.live.getTotalSupply + c.rewardOf now b n.db ↔
      c.blockDrift now b n.db = 0 := by
    rw [hsupply]
    constructor
    · intro heq
      linarith
    · intro heq
      rw [heq, add_zero]
  refine ⟨hiff, fun hs hsolvent hp => ?_⟩
  have hnonneg : ∀ x ∈ b.transactions.map c.burnedBy, 0 ≤ x := by
    intro x hx
    obtain ⟨tx, htx, rfl⟩ := List.mem_map.mp hx
    exact burnedBy_nonneg hs (hp tx htx).2.2
  have hsum : (b.transactions.map c.burnedBy).sum = 0 ↔ ∀ tx ∈ b.transactions, c.burnedBy tx = 0 := by
    constructor
    · intro h₀ tx htx
      refine le_antisymm ?_ (hnonneg _ (List.mem_map_of_mem htx))
      rw [← h₀]
      exact List.single_le_sum hnonneg _ (List.mem_map_of_mem htx)
    · intro h₀
      refine List.sum_eq_zero fun x hx => ?_
      obtain ⟨tx, htx, rfl⟩ := List.mem_map.mp hx
      exact h₀ tx htx
  rw [hiff, hp.blockDrift hs r hsolvent, ← hsum]
  by_cases ha : c.config.burnAddress = ""
  · simp [ha]
  · simp [ha]

def fundedNode : Node :=
  let node := genesisNode none
  { node with db := { node.db with file := node.db.file.applyBalanceDelta "a" 100 } }

def gasFree : Transaction := { transferOf (.int 5) with gas := 0 }

theorem addBlock_supply_gasFree :
    (plain.addBlock 2 (firstBlock [gasFree]) true fundedNode).1.toOption.isSome = true ∧
    (plain.addBlock 2 (firstBlock [gasFree]) true fundedNode).2.db.live.getTotalSupply =
      fundedNode.db.live.getTotalSupply + plain.rewardOf 2 (firstBlock [gasFree]) fundedNode.db := by
  have hok : (plain.addBlock 2 (firstBlock [gasFree]) true fundedNode).1.toOption.isSome = true := by decide +kernel
  have hsolvent : fundedNode.db.live.Solvent := by
    have hempty : (genesisNode none).db.live.Solvent := fun a => le_rfl
    exact hempty.applyBalanceDelta "a" 100
  refine ⟨hok, ?_⟩
  rcases hrun : plain.addBlock 2 (firstBlock [gasFree]) true fundedNode with ⟨f | b', n'⟩
  · rw [hrun] at hok
    cases hok
  · refine ((addBlock_supply hrun).2 ⟨?_, ?_, ?_, ?_⟩ hsolvent fun tx htx => ?_).mpr fun tx htx => ?_
    · norm_num [plain]
    · norm_num [plain]
    · norm_num [plain]
    · norm_num [plain]
    · rw [List.mem_singleton.mp htx]
      decide +kernel
    · rw [List.mem_singleton.mp htx]
      decide +kernel

/-- The burned share of one fee is credited when the transfer is executed and again when the block is stored. -/
theorem addBlock_mints_burned :
    (plain.addBlock 2 (firstBlock [transferOf (.int 5)]) true fundedNode).1.toOption.isSome = true ∧
    (plain.addBlock 2 (firstBlock [transferOf (.int 5)]) true fundedNode).2.db.live.getTotalSupply ≠
      fundedNode.db.live.getTotalSupply + plain.rewardOf 2 (firstBlock [transferOf (.int 5)]) fundedNode.db := by
  decide +kernel

end Blockchain

end AbsoluteChain
