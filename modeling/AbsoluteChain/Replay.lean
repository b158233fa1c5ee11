import AbsoluteChain.Environment
import AbsoluteChain.StateRoot
import AbsoluteChain.Storing

/-!
# Replay

`reorg_to_ancestor` executes the stored blocks once more, from the allocation. Each
replayed block is matched with the accepted one: the accounts agree, and the
transaction that was read back from the store differs only where execution does not
look.
-/

namespace AbsoluteChain

open Python Actions Act Transactions KeyedTable

/-! ## Transactions read back from the store -/

/-- Transactions that execution cannot tell apart. -/
structure SameTx (tx tx' : Transaction) : Prop where
  fromAddr : tx'.fromAddr = tx.fromAddr
  toAddr : tx'.toAddr = tx.toAddr
  value : tx'.value.toRat = tx.value.toRat
  nonce : tx'.nonce = tx.nonce
  gas : tx'.gas = tx.gas
  data : tx'.data = tx.data
  signature : tx'.signature = tx.signature
  publicKey : tx'.publicKey = tx.publicKey
  hash : tx'.hash = tx.hash

theorem signingValue_congr {v w : Python.Num} (h : w.toRat = v.toRat) : signingValue w = signingValue v := by
  unfold signingValue
  simp only [h]
  by_cases hq : v.toRat = (truncate v.toRat : ℚ)
  · rw [if_pos hq, if_pos hq]
  · rw [if_neg hq, if_neg hq]
    have hfloat : ∀ {u : Python.Num}, u.toRat = v.toRat → u = .float v.toRat := by
      intro u hu
      cases u with
      | int n =>
        refine absurd ?_ hq
        rw [← hu]
        show (n : ℚ) = (truncate (n : ℚ) : ℚ)
        have htrunc : truncate (n : ℚ) = n := by simp [truncate]
        rw [htrunc]
      | float q => rw [← hu]; rfl
    rw [hfloat h, ← hfloat rfl]

theorem SameTx.payload {tx tx' : Transaction} (h : SameTx tx tx') (chainId : Int) :
    tx'.payload chainId = tx.payload chainId := by
  unfold Transaction.payload
  rw [h.fromAddr, h.toAddr, signingValue_congr h.value, h.nonce, h.gas, h.data, h.signature, h.publicKey]

theorem sameTx_fromDict {tx : Transaction} (hh : tx.hash ≠ "") (host : Host) (now : Int) :
    SameTx tx (Transaction.fromDict host now tx.toDict.asPeer) where
  fromAddr := rfl
  toAddr := rfl
  value := rfl
  nonce := rfl
  gas := rfl
  data := rfl
  signature := rfl
  publicKey := rfl
  hash := if_neg hh

namespace Blockchain

variable {c : Blockchain} {now now' height : Int} {proposer : String} {s t : Db} {tx tx' : Transaction}

/-! ## One transaction on two databases -/

/-- The contract run of a transaction does not look at the chain. -/
def Silent (c : Blockchain) (now height : Int) (db : Db) (tx : Transaction) : Prop :=
  let gasLimit := if tx.gas = 0 then c.config.evmGasLimit else tx.gas
  match c.kindOf db.live tx with
  | .transfer => True
  | .call => (c.adapter now).EntryIgnores tx.fromAddr tx.toAddr tx.data tx.value.toRat gasLimit db
  | .deploy => (c.adapter now).DeployIgnores tx.fromAddr (strip tx.data) tx.value.toRat gasLimit
      (strInt height ++ ":" ++ strInt tx.nonce ++ ":" ++ tx.hash) db

theorem precheck_congr (h : Agree s t) (hx : SameTx tx tx') : c.precheck t.live tx' = c.precheck s.live tx := by
  have hnonce : t.live.getNonce tx.fromAddr = s.live.getNonce tx.fromAddr := by
    unfold Tables.getNonce
    rw [h.getAccount]
  have hpool : ∀ a b : ℚ, c.checkPool t.live tx.fromAddr a b = c.checkPool s.live tx.fromAddr a b := by
    intro a b
    unfold checkPool outgoingRefusal Tables.lockedPools
    rw [h.poolLocks]
  have hsig : verifyTxSignature c.host c.config tx' = verifyTxSignature c.host c.config tx := by
    unfold verifyTxSignature
    rw [hx.signature, hx.publicKey, hx.payload]
  unfold precheck
  simp only [hx.fromAddr, hx.nonce, hx.value, hx.gas, hnonce, h.getBalance, hpool, hsig]

theorem kindOf_agree (h : Agree s t) (hx : SameTx tx tx') : c.kindOf t.live tx' = c.kindOf s.live tx := by
  unfold kindOf
  rw [hx.data, hx.toAddr, codeOf_accounts h.accounts]

theorem alike_runContract (h : Agree s t) (hx : SameTx tx tx') (hs : c.Silent now height s tx)
    (hk : c.kindOf s.live tx ≠ .transfer) :
    Alike Eq Agree (c.runContract now (c.kindOf s.live tx) tx height s)
      (c.runContract now' (c.kindOf s.live tx) tx' height t) := by
  have hadapter : c.adapter now' = (c.adapter now).withNow now' := rfl
  unfold Silent at hs
  generalize c.kindOf s.live tx = kind at hs hk ⊢
  by_cases hcall : kind = .call
  · subst hcall
    simp only [runContract, hx.fromAddr, hx.toAddr, hx.data, hx.value, hx.gas, hadapter]
    exact EvmAdapter.alike_callContract h hs
  · have hdeploy : kind = .deploy := by
      cases kind with
      | call => exact absurd rfl hcall
      | deploy => rfl
      | transfer => exact absurd rfl hk
    subst hdeploy
    dsimp only at hs
    simp only [runContract_deploy hcall, hx.fromAddr, hx.data, hx.value, hx.gas, hx.nonce, hx.hash, hadapter]
    exact EvmAdapter.alike_deployContract h hs

theorem alike_statement {f : Tables → Tables} (h : Agree s t)
    (hf : ∀ {t u : Tables}, u.accounts = t.accounts → (f u).accounts = (f t).accounts)
    (hp : ∀ t, (f t).poolLocks = t.poolLocks) : Alike Eq Agree (statement f s) (statement f t) :=
  .ok rfl ⟨hf h.accounts, (hp _).trans (h.poolLocks.trans (hp _).symm)⟩

theorem alike_balanceDelta (h : Agree s t) (a : String) (d : ℚ) :
    Alike Eq Agree (balanceDelta a d s) (balanceDelta a d t) :=
  alike_statement h (fun hu => accounts_applyBalanceDelta hu a d) fun _ => rfl

theorem alike_settle (h : Agree s t) (hx : SameTx tx tx') (ch : Charge) :
    Alike Eq Agree (c.settle tx proposer ch s) (c.settle tx' proposer ch t) := by
  unfold settle
  rw [hx.fromAddr]
  refine alike_bind (alike_balanceDelta h _ _) fun _ _ s₁ t₁ _ _ h₁ => ?_
  refine alike_bind (alike_when h₁ fun _ => alike_balanceDelta h₁ _ _) fun _ _ s₂ t₂ _ _ h₂ => ?_
  exact alike_statement h₂ (fun hu => by unfold Tables.incrementNonce; rw [hu]) fun _ => rfl

theorem alike_recordPoolOutgoing (h : Agree s t) (a : String) (amount : ℚ) :
    Alike Eq Agree (c.recordPoolOutgoing a amount s) (c.recordPoolOutgoing a amount t) := by
  unfold recordPoolOutgoing recordOutgoing
  refine alike_when h fun _ => alike_bind (alike_query h h.poolLocks) fun state _ s₁ t₁ _ hst h₁ => ?_
  subst hst
  cases state with
  | none => exact alike_pure rfl h₁
  | some p =>
    dsimp only
    cases p.pools.get? a with
    | none => exact alike_pure rfl h₁
    | some info => exact .ok rfl ⟨h₁.accounts, rfl⟩

theorem alike_applyTransfer (h : Agree s t) (hx : SameTx tx tx') :
    Alike (fun _ _ => True) Agree (c.applyTransfer tx height proposer s) (c.applyTransfer tx' height proposer t) := by
  unfold applyTransfer
  simp only [hx.fromAddr, hx.toAddr, hx.value, hx.gas]
  refine alike_bind (alike_balanceDelta h _ _) fun _ _ s₁ t₁ _ _ h₁ => ?_
  refine alike_bind (alike_balanceDelta h₁ _ _) fun _ _ s₂ t₂ _ _ h₂ => ?_
  refine alike_bind (alike_settle h₂ hx _) fun _ _ s₃ t₃ _ _ h₃ => ?_
  exact alike_bind (alike_recordPoolOutgoing h₃ _ _) fun _ _ s₄ t₄ _ _ h₄ => alike_pure trivial h₄

theorem alike_applyContract (h : Agree s t) (hx : SameTx tx tx') (hs : c.Silent now height s tx)
    (hk : c.kindOf s.live tx ≠ .transfer) :
    Alike (fun _ _ => True) Agree
      (c.applyContract now (c.kindOf s.live tx) tx height proposer (s.live.getBalance tx.fromAddr) s)
      (c.applyContract now' (c.kindOf s.live tx) tx' height proposer (t.live.getBalance tx'.fromAddr) t) := by
  unfold applyContract
  rw [hx.fromAddr, hx.value, hx.gas, h.getBalance]
  refine alike_bind (alike_runContract h hx hs hk) fun res _ s₁ t₁ _ hres h₁ => ?_
  subst hres
  by_cases hsuccess : ¬ res.success = true
  · rw [if_pos hsuccess, if_pos hsuccess]
    exact alike_raise h₁
  · rw [if_neg hsuccess, if_neg hsuccess]
    by_cases hfunds : s.live.getBalance tx.fromAddr <
        (c.charge (max (c.gasFee tx.gas) (c.gasFee res.gasUsed))).fee + tx.value.toRat
    · rw [if_pos hfunds, if_pos hfunds]
      exact alike_raise h₁
    · rw [if_neg hfunds, if_neg hfunds]
      refine alike_bind (alike_balanceDelta h₁ _ _) fun _ _ s₂ t₂ _ _ h₂ => ?_
      refine alike_bind (alike_settle h₂ hx _) fun _ _ s₃ t₃ _ _ h₃ => ?_
      exact alike_bind (alike_recordPoolOutgoing h₃ _ _) fun _ _ s₄ t₄ _ _ h₄ => alike_pure trivial h₄

/-- The results differ in how the amount is written; the databases agree. -/
theorem alike_applyTransaction (h : Agree s t) (hx : SameTx tx tx') (hs : c.Silent now height s tx) :
    Alike (fun _ _ => True) Agree (c.applyTransaction now tx height proposer s)
      (c.applyTransaction now' tx' height proposer t) := by
  unfold applyTransaction
  simp only [bind_run (query id), query_run, id]
  rw [precheck_congr h hx]
  cases hc : c.precheck s.live tx with
  | error e => exact .error h
  | ok u =>
    rw [kindOf_agree h hx]
    show Alike _ _ ((liftExcept (.ok u) >>= fun _ => _) s) ((liftExcept (.ok u) >>= fun _ => _) t)
    simp only [bind_run, liftExcept]
    by_cases hk : c.kindOf s.live tx = .transfer
    · rw [hk]
      exact alike_applyTransfer h hx
    · have hcontract := @alike_applyContract c now now' height (c.feeRecipient proposer) s t tx tx' h hx hs hk
      generalize c.kindOf s.live tx = kind at hk hcontract ⊢
      cases kind with
      | transfer => exact absurd rfl hk
      | call => exact hcontract
      | deploy => exact hcontract

/-! ## One block on two databases -/

theorem alike_applyTransactions {txs txs' : List Transaction} (h : Agree s t) (hx : List.Forall₂ SameTx txs txs')
    (hs : c.Along now height proposer (c.Silent now height) txs s) :
    Alike (fun _ _ => True) Agree (c.applyTransactions now height proposer txs s)
      (c.applyTransactions now' height proposer txs' t) := by
  induction hx generalizing s t with
  | nil => exact alike_pure trivial h
  | cons hx _ ih =>
    obtain ⟨hsilent, hrest⟩ := hs
    unfold applyTransactions
    refine alike_bind (alike_applyTransaction h hx hsilent) fun _ _ s₁ t₁ hrun _ h₁ => ?_
    rw [hrun] at hrest
    exact alike_bind (ih h₁ hrest) fun _ _ s₂ t₂ _ _ h₂ => alike_pure trivial h₂

theorem alike_applyBlockReward (h : Agree s t) :
    Alike Eq Agree (c.applyBlockReward proposer s) (c.applyBlockReward proposer t) := by
  have hreward : c.rewardFor t.live = c.rewardFor s.live := by
    unfold rewardFor Tables.getTotalSupply
    rw [h.accounts]
  unfold applyBlockReward
  refine alike_bind (alike_query h hreward) fun reward _ s₁ t₁ _ hr h₁ => ?_
  subst hr
  refine alike_bind (alike_when h₁ fun _ => alike_balanceDelta h₁ _ _) fun _ _ s₂ t₂ _ _ h₂ => ?_
  exact alike_pure rfl h₂

variable {b b' : Block} {preserve : Bool} {n n' : Node}

def stored (c : Blockchain) (now : Int) (d : BlockDict) : Block := Block.fromDict c.host now d.asPeer

theorem Accepted.sameTxs (r : Accepted c now b preserve n b' n') (hnamed : ∀ tx ∈ b.transactions, tx.hash ≠ "")
    (now' : Int) :
    List.Forall₂ SameTx b.transactions (c.stored now' b'.toDict).transactions := by
  have hread : (c.stored now' b'.toDict).transactions =
      r.txs.map fun tx => Transaction.fromDict c.host now' tx.toDict.asPeer := by
    show ((b'.transactions.map Transaction.toDict).map TxDict.asPeer).map (Transaction.fromDict c.host now') = _
    rw [r.transactions_eq, List.map_map, List.map_map]
    rfl
  rw [hread, List.forall₂_map_right_iff]
  refine List.Forall₂.imp ?_ ((List.forall₂_and_left _ _).mpr ⟨hnamed, r.steps.kept⟩)
  rintro tx tx' ⟨hname, hkept⟩
  have hname' : tx'.hash ≠ "" := by
    rw [hkept]
    exact hname
  have hread := sameTx_fromDict hname' c.host now'
  rw [hkept] at hread ⊢
  exact ⟨hread.fromAddr, hread.toAddr, hread.value, hread.nonce, hread.gas, hread.data, hread.signature, hread.publicKey,
    hread.hash⟩

theorem Accepted.redo (r : Accepted c now b preserve n b' n') (hnamed : ∀ tx ∈ b.transactions, tx.hash ≠ "")
    (hsilent : c.Along now b.height b.miner (c.Silent now b.height) b.transactions n.db.opened)
    (hburned : c.config.burnAddress = "" ∨ c.burnedIn now b n.db ≤ 0) {db : Db} (h : Agree n.db db) (now' : Int) :
    ∃ txs db₁ reward db₂,
      c.applyTransactions now' (c.stored now' b'.toDict).height (c.stored now' b'.toDict).miner
        (c.stored now' b'.toDict).transactions db = (.ok txs, db₁) ∧
      c.applyBlockReward (c.stored now' b'.toDict).miner db₁ = (.ok reward, db₂) ∧ Agree n'.db db₂ := by
  have hheight : (c.stored now' b'.toDict).height = b.height := r.height_eq
  have hminer : (c.stored now' b'.toDict).miner = b.miner := r.miner_eq
  have hopened : n.db.opened.live = n.db.live := by rw [← r.began, r.live_start]
  have hstart : Agree n.db.opened db := ⟨by rw [hopened]; exact h.accounts, by rw [hopened]; exact h.poolLocks⟩
  rw [hheight, hminer]
  have hrun := @alike_applyTransactions c now now' _ _ _ _ _ _ hstart (r.sameTxs hnamed now') hsilent
  rw [r.run_opened] at hrun
  obtain ⟨txs, db₁, htxs, -, h₁⟩ := hrun.returned
  have hreward := @alike_applyBlockReward c b.miner _ _ h₁
  rw [applyBlockReward_run] at hreward
  obtain ⟨reward, db₂, hrew, -, h₂⟩ := hreward.returned
  refine ⟨txs, db₁, reward, db₂, htxs, hrew, ?_⟩
  have hrewarded : (if 0 < c.rewardFor r.applied.live then
      r.applied.exec (Tables.applyBalanceDelta b.miner (c.rewardFor r.applied.live)) else r.applied).live =
        c.rewarded now b n.db := by
    rw [← r.rewarded_eq]
    unfold rewardTables
    by_cases hpos : 0 < c.rewardFor r.applied.live
    · simp only [if_pos hpos, Store.live_exec]
    · simp only [if_neg hpos]
  have hnone : ¬ (0 < b'.totalBurned ∧ c.config.burnAddress ≠ "") := by
    rintro ⟨hpos, hne⟩
    rw [r.burned_eq] at hpos
    exact hburned.elim hne fun hle => absurd hpos (not_lt.mpr hle)
  refine ⟨?_, ?_⟩
  · rw [h₂.accounts, hrewarded, r.live_eq, accounts_persisted, if_neg hnone]
  · rw [h₂.poolLocks, hrewarded, r.live_eq, poolLocks_persisted]

/-! ## The replay of a whole chain -/

theorem NoPool.congr {t u : Tables} {tx : Transaction} (h : c.NoPool t tx) (hp : u.poolLocks = t.poolLocks) :
    c.NoPool u tx := by
  intro hw
  unfold Tables.lockedPools
  rw [hp]
  exact h hw

theorem TxStep.poolLocks {tx tx' : Transaction} {db db' : Db} (h : TxStep c now height proposer tx db tx' db')
    (hp : c.NoPool db.live tx) : db'.live.poolLocks = db.live.poolLocks := by
  have hexec : ∀ {db₁ : Db} {f : Tables → Tables} {amount : ℚ}, db₁.live.poolLocks = db.live.poolLocks →
      (f db₁.live).poolLocks = db₁.live.poolLocks →
      (c.recordPool tx.fromAddr amount (db₁.exec f)).live.poolLocks = db.live.poolLocks := by
    intro db₁ f amount h₁ hf
    have hpool : (db₁.exec f).live.poolLocks = db.live.poolLocks := hf.trans h₁
    rw [recordPool_noPool (hp.congr hpool)]
    exact hpool
  cases h with
  | transfer => exact hexec rfl (poolLocks_transferTables _ _ _)
  | @contract res db₁ checks kind run =>
    have hkept : Keeps (untouched Tables.poolLocks) (c.runContract now (c.kindOf db.live tx) tx height) :=
      keeps_runContract (fun _ => keeps_callContract (accountFree_poolLocks.evmFrame _) _ _ _ _ _)
        (fun _ _ => keeps_deployContract (accountFree_poolLocks.evmFrame _) _ _ _ _ _) _ _
    have h₁ := (keeps_apply hkept run).1
    refine hexec h₁ ?_
    unfold contractTables settleTables
    by_cases hb : 0 < (c.contractCharge tx res.gasUsed).burned ∧ c.config.burnAddress ≠ ""
    · simp only [if_pos hb]
      rfl
    · simp only [if_neg hb]
      rfl

theorem TxSteps.poolLocks {txs txs' : List Transaction} {db db' : Db} (h : TxSteps c now height proposer txs db txs' db')
    (hp : ∀ tx ∈ txs, c.NoPool db.live tx) : db'.live.poolLocks = db.live.poolLocks := by
  induction h with
  | nil => rfl
  | cons step steps ih =>
    have hstep := step.poolLocks (hp _ (List.mem_cons_self ..))
    exact (ih fun tx htx => (hp tx (List.mem_cons_of_mem _ htx)).congr hstep).trans hstep

theorem Accepted.poolLocks (r : Accepted c now b preserve n b' n') (hp : ∀ tx ∈ b.transactions, c.NoPool n.db.live tx) :
    n'.db.live.poolLocks = n.db.live.poolLocks := by
  have hsteps := r.steps.poolLocks fun tx htx => by rw [r.live_start]; exact hp tx htx
  have hreward : (c.rewardTables b.miner r.applied.live).poolLocks = r.applied.live.poolLocks := by
    unfold rewardTables
    by_cases hpos : 0 < c.rewardFor r.applied.live
    · rw [if_pos hpos]
      rfl
    · rw [if_neg hpos]
  rw [r.live_eq, poolLocks_persisted, ← r.rewarded_eq, hreward, hsteps, r.live_start]

structure Growth (c : Blockchain) (len : ℕ) where
  nodes : ℕ → Node
  now : ℕ → Int
  block : ℕ → Block
  preserve : ℕ → Bool
  stored : ℕ → Block
  accepts : ∀ i, i < len → c.addBlock (now i) (block i) (preserve i) (nodes i) = (.ok (stored i), nodes (i + 1))

/-- On a block before it is added: it is stored under a new hash, its transactions have hashes and
ordinary senders and do not look at the chain, and nothing it burns is credited. -/
structure Replayable (c : Blockchain) (now : Int) (b : Block) (preserve : Bool) (n : Node) : Prop where
  fresh : ∀ b' n', c.addBlock now b preserve n = (.ok b', n') → Fresh n b'.hash
  named : ∀ tx ∈ b.transactions, tx.hash ≠ ""
  ordinary : ∀ tx ∈ b.transactions, c.NoPool n.db.live tx
  silent : c.Along now b.height b.miner (c.Silent now b.height) b.transactions n.db.opened
  unburned : c.config.burnAddress = "" ∨ c.burnedIn now b n.db ≤ 0

variable {len : ℕ}

/-- The tables after `k` blocks, as far as a replay depends on them. -/
structure Grown (g : Growth c len) (k : ℕ) : Prop where
  closed : (g.nodes k).db.pending = none
  linked : Linked (g.nodes k).db.live
  tip : (g.nodes k).db.live.getChainTip = k
  poolLocks : (g.nodes k).db.live.poolLocks = (g.nodes 0).db.live.poolLocks
  genesis : (g.nodes k).db.live.getBlock 0 = (g.nodes 0).db.live.getBlock 0
  blocks : ∀ i, i < k → (g.nodes k).db.live.getBlock (i + 1 : ℕ) = some (g.stored i).toDict

theorem growth_linked (g : Growth c len) (hgen : Linked (g.nodes 0).db.live)
    (hclosed : (g.nodes 0).db.pending = none) (htip : (g.nodes 0).db.live.getChainTip = 0)
    (hs : ∀ i, i < len → c.Replayable (g.now i) (g.block i) (g.preserve i) (g.nodes i)) {k : ℕ} (hk : k ≤ len) :
    Grown g k := by
  induction k with
  | zero => exact ⟨hclosed, hgen, htip, rfl, rfl, fun i hi => absurd hi (Nat.not_lt_zero i)⟩
  | succ k ih =>
    have hgrown := ih (Nat.le_of_succ_le hk)
    have hstep := hs k hk
    obtain ⟨r⟩ := addBlock_ok (g.accepts k hk)
    obtain ⟨hlinked, hkept⟩ := accepted_linked hgrown.linked (g.accepts k hk) (hstep.fresh _ _ (g.accepts k hk))
    obtain ⟨htip, hstored⟩ := accepted_tip hgrown.linked (g.accepts k hk) (hstep.fresh _ _ (g.accepts k hk))
    rw [hgrown.tip] at htip hstored
    have hheights : (g.nodes (k + 1)).db.live.getChainTip = (k + 1 : ℕ) := htip.trans (by push_cast; rfl)
    refine ⟨?_, hlinked, hheights, ?_, ?_, ?_⟩
    · rw [r.result]
    · rw [r.poolLocks hstep.ordinary, hgrown.poolLocks]
    · obtain ⟨d, hd⟩ := Option.isSome_iff_exists.mp
        ((hgrown.linked.heights 0).mpr ⟨le_refl _, by rw [hgrown.tip]; omega⟩)
      rw [← hgrown.genesis, hkept 0 d hd, hd]
    · intro i hi
      by_cases hik : i = k
      · subst hik
        exact hstored
      · exact hkept _ _ (hgrown.blocks i (by omega))

/-- The run lemma: the blocks after the `i`-th, replayed from a database that agrees with the node
there, end in one that agrees with the node after them. -/
theorem replayBlocks_grown (g : Growth c len)
    (hs : ∀ i, i < len → c.Replayable (g.now i) (g.block i) (g.preserve i) (g.nodes i)) (now' : Int) (k : ℕ) :
    ∀ {i : ℕ} {db : Db}, i + k ≤ len → Agree (g.nodes i).db db →
      (∀ j, i ≤ j → j < i + k → db.live.getBlock (j + 1 : ℕ) = some (g.stored j).toDict) →
      ∃ db', c.replayBlocks now' k (i + 1 : ℕ) db = (.ok (), db') ∧ Agree (g.nodes (i + k)).db db' ∧
        db'.live.blocks = db.live.blocks := by
  induction k with
  | zero => exact fun _ h _ => ⟨_, rfl, h, rfl⟩
  | succ k ih =>
    intro i db hi h hblocks
    have hlt : i < len := by omega
    have hstep := hs i hlt
    obtain ⟨r⟩ := addBlock_ok (g.accepts i hlt)
    obtain ⟨txs, db₁, reward, db₂, htxs, hreward, hagree⟩ := r.redo hstep.named hstep.silent hstep.unburned h now'
    have hkept : db₂.live.blocks = db.live.blocks :=
      (keeps_apply (keeps_applyBlockReward executionFree_blocks _) hreward).1.trans
        (keeps_apply (keeps_applyTransactions executionFree_blocks _ _ _) htxs).1
    obtain ⟨db', hrun, hend, hsame⟩ := @ih (i + 1) db₂ (by omega) hagree fun j hij hj => by
      rw [getBlock_congr hkept]
      exact hblocks j (by omega) (by omega)
    refine ⟨db', ?_, by rw [show i + (k + 1) = i + 1 + k by omega]; exact hend, hsame.trans hkept⟩
    unfold replayBlocks
    simp only [bind_run, query_run, hblocks i (le_refl _) (by omega)]
    have htxs' : c.applyTransactions now' (Block.fromDict c.host now' (g.stored i).toDict.asPeer).height
        (Block.fromDict c.host now' (g.stored i).toDict.asPeer).miner
        (Block.fromDict c.host now' (g.stored i).toDict.asPeer).transactions db = (.ok txs, db₁) := htxs
    have hreward' : c.applyBlockReward (Block.fromDict c.host now' (g.stored i).toDict.asPeer).miner db₁ =
        (.ok reward, db₂) := hreward
    simp only [htxs', hreward']
    rw [show ((i + 1 : ℕ) : ℤ) + 1 = ((i + 1 + 1 : ℕ) : ℤ) by push_cast; rfl]
    exact hrun

theorem accounts_resetAccounts (alloc : Dict String Int) (t u : Tables) :
    (t.resetAccounts alloc).accounts = (u.resetAccounts alloc).accounts := rfl

theorem blocks_resetAccounts (alloc : Dict String Int) (t : Tables) : (t.resetAccounts alloc).blocks = t.blocks := rfl

theorem poolLocks_resetAccounts (alloc : Dict String Int) (t : Tables) :
    (t.resetAccounts alloc).poolLocks = t.poolLocks := rfl

theorem replayFromGenesis_grown {g : Growth c len} (hg : Grown g len)
    (hs : ∀ i, i < len → c.Replayable (g.now i) (g.block i) (g.preserve i) (g.nodes i))
    (halloc : (g.nodes 0).db.live.accounts =
      ((g.nodes len).db.live.resetAccounts (genesisBalances c.config.founderAddress)).accounts)
    {h : ℕ} (hh : h ≤ len) (hfits : fitsInt64 h = true) (now' : ℤ) {db : Db} (hclosed : db.pending = none)
    (hrows : db.live.blocks = (g.nodes len).db.live.blocks)
    (hlocks : db.live.poolLocks = (g.nodes len).db.live.poolLocks) :
    ∃ db', c.replayFromGenesis now' h len db.opened = c.checkReplayRoot h db' ∧ Agree (g.nodes h).db db' ∧
      ∀ k : ℤ, db'.live.getBlock k = if k ≤ h then (g.nodes len).db.live.getBlock k else none := by
  unfold replayFromGenesis
  generalize genesisBalances c.config.founderAddress = alloc at halloc ⊢
  let cutting : Tables → Tables := fun t => if (h : ℤ) < len then t.deleteAbove h else t
  let start : Db := db.opened.exec fun t => (cutting t).resetAccounts alloc
  have hopened : db.opened.live = db.live := Store.live_opened hclosed
  -- the blocks that are left
  have hget : ∀ k : ℤ, start.live.getBlock k = if k ≤ h then (g.nodes len).db.live.getBlock k else none := by
    intro k
    have hcut : start.live.getBlock k = (cutting db.live).getBlock k := by
      show ((cutting db.opened.live).resetAccounts _).getBlock k = _
      rw [hopened]
      exact getBlock_congr (blocks_resetAccounts _ _) k
    rw [hcut]
    by_cases hlt : (h : ℤ) < len
    · simp only [cutting, if_pos hlt, getBlock_deleteAbove, getBlock_congr hrows]
    · simp only [cutting, if_neg hlt, getBlock_congr hrows]
      by_cases hk : k ≤ h
      · rw [if_pos hk]
      · rw [if_neg hk]
        exact hg.linked.none_above (by rw [hg.tip]; omega)
  -- the accounts are those of the genesis block
  have hagree : Agree (g.nodes 0).db start := by
    refine ⟨?_, ?_⟩
    · rw [halloc]
      exact accounts_resetAccounts _ _ _
    · have hpool : start.live.poolLocks = db.opened.live.poolLocks := by
        show ((cutting db.opened.live).resetAccounts _).poolLocks = _
        rw [poolLocks_resetAccounts]
        by_cases hlt : (h : ℤ) < len
        · simp only [cutting, if_pos hlt]
          rfl
        · simp only [cutting, if_neg hlt]
      rw [hpool, hopened, hlocks, hg.poolLocks]
  obtain ⟨db', hrun, hend, hblocks⟩ := replayBlocks_grown g hs now' h (i := 0) (by omega) hagree fun j _ hj => by
    rw [hget, if_pos (by push_cast; omega)]
    exact hg.blocks j (by omega)
  rw [Nat.zero_add] at hend hrun
  rw [Nat.cast_one] at hrun
  refine ⟨db', ?_, hend, fun k => by rw [getBlock_congr hblocks, hget]⟩
  have hbind : bindInts [(h : ℤ)] db.opened = (.ok (), db.opened) := bindInts_ok.mpr ⟨by simpa using hfits, rfl⟩
  have hdrop : (if (h : ℤ) < len then db.opened.exec (Tables.deleteAbove h) else db.opened).exec
      (Tables.resetAccounts alloc) = start := by
    by_cases hlt : (h : ℤ) < len
    · simp only [start, cutting, if_pos hlt, exec_exec]
    · simp only [start, cutting, if_neg hlt]
  refine (bind_of_ok hbind).trans ?_
  refine (bind_of_ok (when_statement _)).trans ?_
  refine (bind_of_ok (statement_run _ _)).trans ?_
  rw [Int.toNat_natCast, hdrop]
  exact bind_of_ok hrun

theorem Grown.reorg {g : Growth c len} (hg : Grown g len) {h : ℕ} (hh : h ≤ len) {floor now' : ℤ}
    (hfloor : ¬ (0 < floor ∧ (h : ℤ) < floor)) {db : Db} (hrows : db.live.blocks = (g.nodes len).db.live.blocks) :
    c.reorgToAncestor now' floor h db =
      atomically nestedTransaction Act.Part.whole (c.replayFromGenesis now' h len) db := by
  unfold reorgToAncestor
  rw [if_neg hfloor]
  simp only [bind_run, query_run]
  rw [chainTip_congr hrows, hg.tip, if_neg (by omega)]

theorem genesisBalances_founder (h : c.config.founderAddress ≠ "" ∨ c.config.minerAddress = "" ∨
    c.config.minerAddress = defaultFounderAddress) :
    genesisBalances c.genesisFounder = genesisBalances c.config.founderAddress := by
  unfold genesisFounder
  by_cases hf : c.config.founderAddress = ""
  · rcases h with h | h | h
    · exact absurd hf h
    · rw [hf, h]
      rfl
    · rw [hf, h]
      decide
  · rw [show orElse c.config.founderAddress c.config.minerAddress = c.config.founderAddress from if_neg hf]

theorem Grown.root {g : Growth c len} (hg : Grown g len)
    (hs : ∀ i, i < len → c.Replayable (g.now i) (g.block i) (g.preserve i) (g.nodes i)) {i : ℕ} (hi : i < len) :
    (g.stored i).stateRoot = c.computeStateRoot (g.nodes (i + 1)).db.live ∧ fitsInt64 (i + 1 : ℕ) = true := by
  obtain ⟨r⟩ := addBlock_ok (g.accepts i hi)
  have hnone : ¬ (0 < (g.stored i).totalBurned ∧ c.config.burnAddress ≠ "") := by
    rintro ⟨hpos, hne⟩
    rw [r.burned_eq] at hpos
    exact (hs i hi).unburned.elim hne fun hle => absurd hpos (not_lt.mpr hle)
  refine ⟨?_, ?_⟩
  · rw [r.stateRoot_eq, r.rewarded_eq]
    refine computeStateRoot_congr ?_
    rw [r.live_eq, accounts_persisted, if_neg hnone]
  · have hfits := (admitBlock_ok r.admitted).fits
    have hheight : (g.stored i).height = (i + 1 : ℕ) := hg.linked.keyed (hg.blocks i hi)
    rw [← hheight, r.height_eq]
    exact hfits

theorem Grown.genesis_refused {g : Growth c len} (hg : Grown g len)
    (hs : ∀ i, i < len → c.Replayable (g.now i) (g.block i) (g.preserve i) (g.nodes i))
    (halloc : (g.nodes 0).db.live.accounts =
      ((g.nodes len).db.live.resetAccounts (genesisBalances c.config.founderAddress)).accounts)
    {start : ℤ} (hrow : (g.nodes 0).db.live.getBlock 0 = some (c.genesisBlock start true).toDict) {floor : ℤ}
    (hfloor : ¬ (0 < floor ∧ 0 < floor)) (now' : ℤ) :
    (c.reorgToAncestor now' floor 0 (g.nodes len).db).1 = .error "reorg_state_root_mismatch" := by
  obtain ⟨db', hbody, -, hget⟩ :=
    replayFromGenesis_grown hg hs halloc (h := 0) (Nat.zero_le _) (by decide) now' hg.closed rfl rfl
  have hcheck : c.checkReplayRoot (0 : ℕ) db' = (.error "reorg_state_root_mismatch", db') := by
    have hd : (g.nodes len).db.live.getBlock ((0 : ℕ) : ℤ) = some (c.genesisBlock start true).toDict := by
      rw [show ((0 : ℕ) : ℤ) = 0 from rfl, hg.genesis, hrow]
    have hroot : (c.genesisBlock start true).toDict.stateRoot = stateEngineRoot c.engineAlloc := rfl
    unfold checkReplayRoot
    simp only [bind_run, query_run, id, hget, if_pos (le_refl ((0 : ℕ) : ℤ)), hd, hroot]
    rw [if_pos ⟨stateEngineRoot_ne_empty _, stateEngineRoot_ne _ _⟩]
    rfl
  have hreorg := @Grown.reorg c len g hg 0 (Nat.zero_le _) floor now' hfloor _ rfl
  rw [atomically_raised (P := Part.whole) nestedTransaction (Store.begin_closed hg.closed) (hbody.trans hcheck)] at hreorg
  exact congrArg Prod.fst hreorg

/-- Whatever the accounts are, a reorganisation to a height with the right root restores those of that height. -/
theorem Grown.replays {g : Growth c len} (hg : Grown g len)
    (hs : ∀ i, i < len → c.Replayable (g.now i) (g.block i) (g.preserve i) (g.nodes i))
    (halloc : (g.nodes 0).db.live.accounts =
      ((g.nodes len).db.live.resetAccounts (genesisBalances c.config.founderAddress)).accounts)
    {h : ℕ} (hh : h ≤ len) (hroot : ∀ d, (g.nodes len).db.live.getBlock h = some d → d.stateRoot = "" ∨
      d.stateRoot = c.computeStateRoot (g.nodes h).db.live) (hfits : fitsInt64 h = true)
    {floor now' : ℤ} (hfloor : ¬ (0 < floor ∧ (h : ℤ) < floor)) {db : Db} (hclosed : db.pending = none)
    (hrows : db.live.blocks = (g.nodes len).db.live.blocks)
    (hlocks : db.live.poolLocks = (g.nodes len).db.live.poolLocks) :
    ∃ db', c.reorgToAncestor now' floor h db = (.ok (), db') ∧ db'.pending = none ∧
      db'.live.accounts = (g.nodes h).db.live.accounts ∧ db'.live.getChainTip = h ∧
      ∀ k : ℤ, db'.live.getBlock k = if k ≤ h then (g.nodes len).db.live.getBlock k else none := by
  obtain ⟨db', hbody, hend, hget⟩ := replayFromGenesis_grown hg hs halloc hh hfits now' hclosed hrows hlocks
  refine ⟨db'.commit, ?_, rfl, hend.accounts, ?_, hget⟩
  · rw [hg.reorg hh hfloor hrows]
    refine atomically_returned (P := Part.whole) nestedTransaction (Store.begin_closed hclosed) (hbody.trans ?_)
    unfold checkReplayRoot
    simp only [bind_run, query_run, id, hget, if_pos (le_refl (h : ℤ))]
    cases hd : (g.nodes len).db.live.getBlock h with
    | none => rfl
    | some d =>
      have hno : ¬ (d.stateRoot ≠ "" ∧ d.stateRoot ≠ c.computeStateRoot db'.live) := by
        rintro ⟨hne, hdiff⟩
        rw [computeStateRoot_congr hend.accounts] at hdiff
        exact (hroot d hd).elim hne hdiff
      simp only [if_neg hno]
      rfl
  · refine (Linked.tip_of_heights (by omega) fun k => ?_).1
    show (db'.live.getBlock k).isSome = true ↔ _
    rw [hget]
    by_cases hk : k ≤ h
    · rw [if_pos hk, hg.linked.heights, hg.tip]
      omega
    · rw [if_neg hk]
      simp only [Option.isSome_none, Bool.false_eq_true, false_iff]
      omega

theorem grown_of_genesis (g : Growth c len) {first : Blockchain} {engine : Bool} {start : ℤ}
    (hstart : fitsInt64 start = true) {fresh : Db} (hclosed : fresh.pending = none)
    (hblocks : fresh.file.blocks = .empty) (haccounts : fresh.file.accounts = .empty)
    (hgen : first.ensureGenesis start engine fresh = (.ok (), (g.nodes 0).db))
    (hfounder : genesisBalances first.genesisFounder = genesisBalances c.config.founderAddress)
    (hs : ∀ i, i < len → c.Replayable (g.now i) (g.block i) (g.preserve i) (g.nodes i)) :
    Grown g len ∧ (g.nodes 0).db.live.accounts =
      ((g.nodes len).db.live.resetAccounts (genesisBalances c.config.founderAddress)).accounts ∧
    (g.nodes 0).db.live.getBlock 0 = some (first.genesisBlock start engine).toDict := by
  obtain ⟨db₀, hrun, hpending, hgenesis, hacc, -⟩ := ensureGenesis_run (c := first) engine hclosed hblocks haccounts hstart
  obtain rfl : db₀ = (g.nodes 0).db := congrArg Prod.snd (hrun.symm.trans hgen)
  have hlive : (g.nodes 0).db.live = (g.nodes 0).db.file := Store.live_closed hpending
  rw [← hlive] at hgenesis hacc
  have htip : (g.nodes 0).db.live.getChainTip = 0 := by
    unfold Tables.getChainTip
    rw [hgenesis]
    rfl
  refine ⟨growth_linked g (.single hgenesis rfl) hpending htip hs (le_refl len), ?_, ?_⟩
  · rw [hacc, hfounder]
    exact accounts_resetAccounts _ _ _
  · unfold Tables.getBlock
    rw [hgenesis]
    rfl

/-- On a chain grown from its genesis block by such blocks, a reorganisation to any height at or
above the floor succeeds and leaves the accounts and the tip of that height; the genesis block
itself can be reached only if it carries no root of the state engine. -/
theorem growth_replays (g : Growth c len) {engine : Bool} {start : ℤ} (hstart : fitsInt64 start = true) {fresh : Db}
    (hclosed : fresh.pending = none) (hblocks : fresh.file.blocks = .empty) (haccounts : fresh.file.accounts = .empty)
    (hgen : c.ensureGenesis start engine fresh = (.ok (), (g.nodes 0).db))
    (hfounder : c.config.founderAddress ≠ "" ∨ c.config.minerAddress = "" ∨
      c.config.minerAddress = defaultFounderAddress)
    (hs : ∀ i, i < len → c.Replayable (g.now i) (g.block i) (g.preserve i) (g.nodes i))
    {h : ℕ} (hh : h ≤ len) {floor now' : ℤ} (hfloor : ¬ (0 < floor ∧ (h : ℤ) < floor)) :
    (0 < h ∨ engine = false →
      ∃ db', c.reorgToAncestor now' floor h (g.nodes len).db = (.ok (), db') ∧ db'.pending = none ∧
        db'.live.accounts = (g.nodes h).db.live.accounts ∧ db'.live.getChainTip = h) ∧
    (h = 0 → engine = true →
      (c.reorgToAncestor now' floor h (g.nodes len).db).1 = .error "reorg_state_root_mismatch") := by
  obtain ⟨hg, halloc, hrow⟩ :=
    grown_of_genesis g hstart hclosed hblocks haccounts hgen (genesisBalances_founder hfounder) hs
  have hfits : fitsInt64 h = true := by
    cases h with
    | zero => decide
    | succ i => exact (hg.root hs hh).2
  refine ⟨fun hroot => ?_, ?_⟩
  · have hstored : ∀ d, (g.nodes len).db.live.getBlock h = some d → d.stateRoot = "" ∨
        d.stateRoot = c.computeStateRoot (g.nodes h).db.live := by
      intro d hd
      cases h with
      | zero =>
        obtain rfl := hroot.resolve_left (lt_irrefl 0)
        rw [show ((0 : ℕ) : ℤ) = 0 from rfl, hg.genesis, hrow] at hd
        cases hd
        exact .inl rfl
      | succ i =>
        rw [hg.blocks i hh] at hd
        cases hd
        exact .inr (hg.root hs hh).1
    obtain ⟨db', hrun, hend, hacc, htip, -⟩ := @Grown.replays c len g hg hs halloc h hh hstored hfits floor now' hfloor _
      hg.closed rfl rfl
    exact ⟨db', hrun, hend, hacc, htip⟩
  · rintro rfl rfl
    exact hg.genesis_refused hs halloc hrow hfloor now'

def freshNode (engine : Bool) : Node := { db := (plain.ensureGenesis 1 engine emptyDb).2, slashing := none }

theorem freshNode_run (engine : Bool) : plain.ensureGenesis 1 engine emptyDb = (.ok (), (freshNode engine).db) := by
  obtain ⟨db, hrun, -⟩ := @ensureGenesis_run plain 1 engine emptyDb rfl rfl rfl (by decide)
  unfold freshNode
  rw [hrun]

theorem freshNode_blocks (engine : Bool) :
    (freshNode engine).db.live.blocks = Table.empty.put 0 (plain.genesisBlock 1 engine).toDict ∧
    (freshNode engine).db.pending = none ∧ (freshNode engine).db.live.accounts =
      ((freshNode engine).db.live.resetAccounts (genesisBalances plain.config.founderAddress)).accounts := by
  obtain ⟨db, hrun, hpending, hblocks, hacc, -⟩ :=
    @ensureGenesis_run plain 1 engine emptyDb rfl rfl rfl (by decide)
  have hdb : (freshNode engine).db = db := by
    unfold freshNode
    rw [hrun]
  have hlive : db.live = db.file := Store.live_closed hpending
  rw [hdb, hlive]
  exact ⟨hblocks, hpending, hacc.trans (accounts_resetAccounts _ _ _)⟩

def noGrowth (engine : Bool) : Growth plain 0 where
  nodes _ := freshNode engine
  now _ := 0
  block _ := firstBlock []
  preserve _ := false
  stored _ := firstBlock []
  accepts i hi := absurd hi (Nat.not_lt_zero i)

/-- A node cannot reorganise to its own genesis block. -/
theorem fresh_not_replayed :
    (freshNode true).db.live.getChainTip = 0 ∧
    (plain.reorgToAncestor 2 0 0 (freshNode true).db).1 = .error "reorg_state_root_mismatch" := by
  obtain ⟨hblocks, hpending, hacc⟩ := freshNode_blocks true
  have htip : (freshNode true).db.live.getChainTip = 0 := by
    unfold Tables.getChainTip
    rw [hblocks]
    rfl
  have hrow : (freshNode true).db.live.getBlock 0 = some (plain.genesisBlock 1 true).toDict := by
    unfold Tables.getBlock
    rw [hblocks]
    rfl
  have hg : Grown (noGrowth true) 0 :=
    ⟨hpending, .single hblocks rfl, htip, rfl, rfl, fun i hi => absurd hi (Nat.not_lt_zero i)⟩
  exact ⟨htip, hg.genesis_refused (fun i hi => absurd hi (Nat.not_lt_zero i)) hacc hrow (by decide) 2⟩

def secondBlock : Block := { firstBlock [] with parentHash := (plain.genesisBlock 1 true).hash }

theorem secondBlock_admitted : plain.admitBlock (freshNode true) secondBlock = .ok () :=
  admitBlock_genesis (freshNode_blocks true).1 rfl rfl rfl (by decide) (by decide)

theorem secondBlock_body : ∃ b' n₁, plain.blockBody 2 secondBlock true (freshNode true) = (.ok b', n₁) ∧
    n₁.db.live.getBalance "v" = 50 ∧ n₁.db.live.getBalance defaultFounderAddress = 38454000 := by
  have hok : (plain.blockBody 2 secondBlock true (freshNode true)).1.toOption.isSome = true ∧
      (plain.blockBody 2 secondBlock true (freshNode true)).2.db.live.getBalance "v" = 50 ∧
      (plain.blockBody 2 secondBlock true (freshNode true)).2.db.live.getBalance defaultFounderAddress = 38454000 := by
    decide +kernel
  rcases hrun : plain.blockBody 2 secondBlock true (freshNode true) with ⟨f | b', n₁⟩
  · rw [hrun] at hok
    cases hok.1
  · rw [hrun] at hok
    exact ⟨b', n₁, rfl, hok.2⟩

theorem second_growth : ∃ g : Growth plain 1, g.nodes 0 = freshNode true ∧
    plain.addBlock 2 secondBlock true (freshNode true) = (.ok (g.stored 0), g.nodes 1) ∧
    (g.nodes 1).db.live.getBalance "v" = 50 ∧ (g.nodes 1).db.live.getBalance defaultFounderAddress = 38454000 ∧
    ∀ i, i < 1 → plain.Replayable (g.now i) (g.block i) (g.preserve i) (g.nodes i) := by
  obtain ⟨b', n₁, hbody, hreward, hfounder⟩ := secondBlock_body
  have hrun := addBlock_accepted secondBlock_admitted (freshNode_blocks true).2.1 hbody
  obtain ⟨r⟩ := addBlock_ok hrun
  let g : Growth plain 1 :=
    { nodes := fun i => if i = 0 then freshNode true else { n₁ with db := n₁.db.commit }
      now := fun _ => 2
      block := fun _ => secondBlock
      preserve := fun _ => true
      stored := fun _ => b'
      accepts := fun i hi => by
        obtain rfl : i = 0 := by omega
        exact hrun }
  refine ⟨g, rfl, hrun, hreward, hfounder, fun i hi => ?_⟩
  obtain rfl : i = 0 := by omega
  refine { fresh := ?_, named := fun tx htx => (by cases htx), ordinary := fun tx htx => (by cases htx),
           silent := trivial, unburned := .inr (le_of_eq rfl) }
  intro b₂ n₂ h₂ k d hd hhash
  have hsame : (Except.ok b', { n₁ with db := n₁.db.commit }) = (Except.ok b₂, n₂) := hrun.symm.trans h₂
  obtain rfl := Except.ok.inj (Prod.mk.inj hsame).1
  have hb : b'.hash = "b" := by
    rw [r.hash_eq]
    exact if_pos ⟨rfl, by decide⟩
  have hd' : (Table.empty.put 0 (plain.genesisBlock 1 true).toDict).get? k = some d := by
    rw [← (freshNode_blocks true).1]
    exact hd
  rw [Table.get_put] at hd'
  by_cases hk : k = 0
  · rw [if_pos hk] at hd'
    have hlen : (plain.genesisBlock 1 true).hash.length = 64 := by
      have hhash : (plain.genesisBlock 1 true).hash =
          { plain.genesisBlock 1 true with hash := "" }.computeHash := rfl
      rw [hhash]
      exact computeHash_length _
    obtain rfl := Option.some.inj hd'
    rw [hb] at hhash
    have hone := hlen.symm.trans (congrArg String.length hhash)
    exact absurd hone (by decide)
  · rw [if_neg hk] at hd'
    cases hd'

theorem growth_replays_second :
    ∃ b' n db', plain.addBlock 2 secondBlock true (freshNode true) = (.ok b', n) ∧ n.db.live.getBalance "v" = 50 ∧
      plain.reorgToAncestor 3 0 1 n.db = (.ok (), db') ∧ db'.live.accounts = n.db.live.accounts ∧
      db'.live.getChainTip = 1 := by
  obtain ⟨g, hstart, hrun, hreward, -, hs⟩ := second_growth
  have hgen : plain.ensureGenesis 1 true emptyDb = (.ok (), (g.nodes 0).db) := by
    rw [hstart]
    exact freshNode_run true
  have hreplay := (@growth_replays plain 1 g true 1 (by decide) emptyDb rfl rfl rfl hgen (.inr (.inl rfl))
    hs 1 (le_refl 1) 0 3 (by decide)).1 (.inl Nat.one_pos)
  obtain ⟨db', hreorg, -, hacc, htip⟩ := hreplay
  exact ⟨_, _, db', hrun, hreward, hreorg, hacc, htip⟩

end Blockchain

end AbsoluteChain
