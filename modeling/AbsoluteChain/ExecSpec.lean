import AbsoluteChain.Blockchain
import AbsoluteChain.EvmSound

/-!
# What execution does

One equation or inversion lemma for each function of the chain: what a transaction,
a reward and a stored block do to the tables, and what an accepted block went
through. Everything about acceptance is derived from these.
-/

namespace AbsoluteChain

open Python Actions Act Transactions KeyedTable

/-! ## Checks -/

theorem require_ok {ok : Bool} {e : String} : Blockchain.require ok e = .ok () ↔ ok = true := by
  unfold Blockchain.require
  cases ok <;> simp

theorem except_bind_ok {α β : Type} {r : Except String α} {k : α → Except String β} {b : β} :
    (r >>= k) = .ok b ↔ ∃ a, r = .ok a ∧ k a = .ok b := by
  cases r with
  | error e => simp [bind, Except.bind]
  | ok a => simp [bind, Except.bind]

theorem check_bind_ok {β : Type} {r : Except String Unit} {k : Except String β} {b : β} :
    (r >>= fun _ => k) = .ok b ↔ r = .ok () ∧ k = .ok b := by
  cases r with
  | error e => simp [bind, Except.bind]
  | ok u => simp [bind, Except.bind]

theorem liftExcept_ok {σ α : Type} {r : Except String α} {a : α} {s s' : σ} :
    Blockchain.liftExcept r s = (.ok a, s') ↔ r = .ok a ∧ s' = s := by
  unfold Blockchain.liftExcept
  cases r with
  | error e => simp
  | ok b => simp [eq_comm]

/-! ## Statements -/

@[simp] theorem query_run {α : Type} (f : Tables → α) (db : Db) : query f db = (.ok (f db.live), db) := rfl

@[simp] theorem statement_run (f : Tables → Tables) (db : Db) : statement f db = (.ok (), db.exec f) := rfl

@[simp] theorem committed_run (f : Tables → Tables) (db : Db) : committed f db = (.ok (), db.write f) := rfl

theorem exec_exec (f g : Tables → Tables) (db : Db) : (db.exec f).exec g = db.exec fun t => g (f t) := rfl

theorem exec_id {db : Db} (h : db.pending ≠ none) : db.exec (fun t => t) = db := by
  obtain ⟨file, pending⟩ := db
  cases pending with
  | none => exact absurd rfl h
  | some t => rfl

theorem bindInts_ok {l : List Int} {db db' : Db} : bindInts l db = (.ok (), db') ↔ l.all fitsInt64 = true ∧ db' = db := by
  unfold bindInts
  split
  · rename_i h; simp [h, eq_comm]
  · rename_i h; simp [h]

theorem when_pos {ε σ : Type} {p : Prop} [Decidable p] (h : p) (m : Act ε σ Unit) : Act.when p m = m := if_pos h

theorem when_neg {ε σ : Type} {p : Prop} [Decidable p] (h : ¬p) (m : Act ε σ Unit) : Act.when p m = pure () := if_neg h

theorem when_statement {p : Prop} [Decidable p] {f : Tables → Tables} (db : Db) :
    Act.when p (statement f) db = (.ok (), if p then db.exec f else db) := by
  by_cases h : p
  · rw [when_pos h, if_pos h]; rfl
  · rw [when_neg h, if_neg h]; rfl

/-! ## Transactions -/

namespace Blockchain

variable {c : Blockchain} {now : Int}

theorem precheck_ok {t : Tables} {tx : Transaction} :
    c.precheck t tx = .ok () ↔
      tx.nonce = t.getNonce tx.fromAddr ∧
      tx.value.toRat + c.gasFee tx.gas ≤ t.getBalance tx.fromAddr ∧
      c.checkPool t tx.fromAddr (tx.value.toRat + c.gasFee tx.gas) (t.getBalance tx.fromAddr) = .ok () ∧
      verifyTxSignature c.host c.config tx = .ok () := by
  simp only [precheck, check_bind_ok, require_ok, decide_eq_true_eq]

def settleTables (c : Blockchain) (tx : Transaction) (proposer : String) (ch : Charge) (t : Tables) : Tables :=
  let t := t.applyBalanceDelta proposer ch.minerFee
  let t := if 0 < ch.burned ∧ c.config.burnAddress ≠ "" then t.applyBalanceDelta c.config.burnAddress ch.burned else t
  t.incrementNonce tx.fromAddr

theorem settle_run (tx : Transaction) (proposer : String) (ch : Charge) (db : Db) :
    c.settle tx proposer ch db = (.ok (), db.exec (c.settleTables tx proposer ch)) := by
  unfold settle
  simp only [bind_run, balanceDelta, nonceIncrement, statement_run, when_statement]
  by_cases h : 0 < ch.burned ∧ c.config.burnAddress ≠ ""
  · simp only [if_pos h, exec_exec]
    unfold settleTables
    simp only [if_pos h]
  · simp only [if_neg h, exec_exec]
    unfold settleTables
    simp only [if_neg h]

def poolSpending (c : Blockchain) (t : Tables) (fromAddr : String) (amount : ℚ) : Option PoolLocksState :=
  if c.poolLocks then
    t.poolLocks.bind fun s => (s.pools.get? fromAddr).map fun info => s.spend fromAddr info amount
  else none

def recordPool (c : Blockchain) (fromAddr : String) (amount : ℚ) (db : Db) : Db :=
  match c.poolSpending db.live fromAddr amount with
  | none => db
  | some s => db.write (Tables.setPoolLocks s)

theorem recordPoolOutgoing_run (fromAddr : String) (amount : ℚ) (db : Db) :
    c.recordPoolOutgoing fromAddr amount db = (.ok (), c.recordPool fromAddr amount db) := by
  unfold recordPoolOutgoing recordPool poolSpending
  by_cases hp : c.poolLocks = true
  · rw [when_pos hp, if_pos hp]
    simp only [recordOutgoing, bind_run, query_run]
    cases db.live.poolLocks with
    | none => rfl
    | some s =>
      simp only [Option.bind_some]
      cases s.pools.get? fromAddr with
      | none => rfl
      | some info => rfl
  · rw [when_neg hp, if_neg hp]
    rfl

def transferTables (c : Blockchain) (tx : Transaction) (proposer : String) (t : Tables) : Tables :=
  let ch := c.charge (c.gasFee tx.gas)
  let t := t.applyBalanceDelta tx.fromAddr (-(tx.value.toRat + ch.fee))
  let t := t.applyBalanceDelta tx.toAddr tx.value.toRat
  c.settleTables tx proposer ch t

theorem applyTransfer_run (tx : Transaction) (height : Int) (proposer : String) (db : Db) :
    c.applyTransfer tx height proposer db =
      (.ok (markApplied tx height (c.charge (c.gasFee tx.gas)) tx.gas),
        c.recordPool tx.fromAddr (tx.value.toRat + c.gasFee tx.gas) (db.exec (c.transferTables tx proposer))) := by
  unfold applyTransfer
  simp only [bind_run, balanceDelta, statement_run, settle_run, recordPoolOutgoing_run, exec_exec, pure_run]
  rfl

def contractTables (c : Blockchain) (tx : Transaction) (proposer : String) (ch : Charge) (t : Tables) : Tables :=
  c.settleTables tx proposer ch (t.applyBalanceDelta tx.fromAddr (-ch.fee))

theorem runContract_deploy {kind : Kind} (hk : kind ≠ .call) (tx : Transaction) (height : Int) :
    c.runContract now kind tx height =
      (c.adapter now).deployContract tx.fromAddr (strip tx.data) tx.value.toRat
        (if tx.gas = 0 then c.config.evmGasLimit else tx.gas) (strInt height ++ ":" ++ strInt tx.nonce ++ ":" ++ tx.hash) := by
  cases kind with
  | call => exact absurd rfl hk
  | deploy => rfl
  | transfer => rfl

theorem keeps_runContract {F : Frame Db} {tx : Transaction}
    (hcall : ∀ gasLimit, Keeps F ((c.adapter now).callContract tx.fromAddr tx.toAddr tx.data tx.value.toRat gasLimit))
    (hdeploy : ∀ gasLimit salt,
      Keeps F ((c.adapter now).deployContract tx.fromAddr (strip tx.data) tx.value.toRat gasLimit salt))
    (kind : Kind) (height : Int) : Keeps F (c.runContract now kind tx height) := by
  by_cases hk : kind = .call
  · rw [hk]
    exact hcall _
  · rw [runContract_deploy hk]
    exact hdeploy _ _

def contractCharge (c : Blockchain) (tx : Transaction) (gasUsed : Int) : Charge :=
  c.charge (max (c.gasFee tx.gas) (c.gasFee gasUsed))

theorem applyContract_ok {kind : Kind} {tx tx' : Transaction} {height : Int} {proposer : String} {balance : ℚ}
    {db db' : Db} (h : c.applyContract now kind tx height proposer balance db = (.ok tx', db')) :
    ∃ res db₁, c.runContract now kind tx height db = (.ok res, db₁) ∧ res.success = true ∧
      (c.contractCharge tx res.gasUsed).fee + tx.value.toRat ≤ balance ∧
      tx' = markApplied tx height (c.contractCharge tx res.gasUsed) (if res.gasUsed = 0 then tx.gas else res.gasUsed) ∧
      db' = c.recordPool tx.fromAddr ((c.contractCharge tx res.gasUsed).fee + tx.value.toRat)
        (db₁.exec (c.contractTables tx proposer (c.contractCharge tx res.gasUsed))) := by
  unfold applyContract at h
  obtain ⟨res, db₁, hr, h⟩ := bind_ok.mp h
  refine ⟨res, db₁, hr, ?_⟩
  by_cases hs : ¬ res.success = true
  · rw [if_pos hs] at h
    cases h
  · rw [if_neg hs] at h
    by_cases hf : balance < (c.contractCharge tx res.gasUsed).fee + tx.value.toRat
    · rw [contractCharge] at hf
      simp only [if_pos hf] at h
      cases h
    · have hf' := hf
      rw [contractCharge] at hf'
      simp only [if_neg hf', bind_run, balanceDelta, statement_run, settle_run, recordPoolOutgoing_run, exec_exec,
        pure_run] at h
      obtain ⟨h₁, rfl⟩ := Prod.mk.inj h
      cases h₁
      exact ⟨not_not.mp hs, not_lt.mp hf, rfl, rfl⟩

inductive TxStep (c : Blockchain) (now height : Int) (proposer : String) : Transaction → Db → Transaction → Db → Prop
  | transfer {tx db} (checks : c.precheck db.live tx = .ok ()) (kind : c.kindOf db.live tx = .transfer) :
    TxStep c now height proposer tx db (markApplied tx height (c.charge (c.gasFee tx.gas)) tx.gas)
      (c.recordPool tx.fromAddr (tx.value.toRat + c.gasFee tx.gas)
        (db.exec (c.transferTables tx (c.feeRecipient proposer))))
  | contract {tx db res db₁} (checks : c.precheck db.live tx = .ok ()) (kind : c.kindOf db.live tx ≠ .transfer)
    (run : c.runContract now (c.kindOf db.live tx) tx height db = (.ok res, db₁)) (success : res.success = true)
    (funds : (c.contractCharge tx res.gasUsed).fee + tx.value.toRat ≤ db.live.getBalance tx.fromAddr) :
    TxStep c now height proposer tx db
      (markApplied tx height (c.contractCharge tx res.gasUsed) (if res.gasUsed = 0 then tx.gas else res.gasUsed))
      (c.recordPool tx.fromAddr ((c.contractCharge tx res.gasUsed).fee + tx.value.toRat)
        (db₁.exec (c.contractTables tx (c.feeRecipient proposer) (c.contractCharge tx res.gasUsed))))

theorem applyTransaction_ok {tx tx' : Transaction} {height : Int} {proposer : String} {db db' : Db}
    (h : c.applyTransaction now tx height proposer db = (.ok tx', db')) : TxStep c now height proposer tx db tx' db' := by
  unfold applyTransaction at h
  simp only [bind_run, query_run, id] at h
  cases hc : c.precheck db.live tx with
  | error e =>
    rw [hc] at h
    cases h
  | ok u =>
    rw [hc] at h
    simp only [liftExcept] at h
    cases hk : c.kindOf db.live tx with
    | transfer =>
      rw [hk] at h
      simp only [applyTransfer_run] at h
      cases h
      exact .transfer hc hk
    | call =>
      rw [hk] at h
      obtain ⟨res, db₁, hr, hs, hf, rfl, rfl⟩ := applyContract_ok h
      exact .contract hc (by rw [hk]; decide) (by rw [hk]; exact hr) hs hf
    | deploy =>
      rw [hk] at h
      obtain ⟨res, db₁, hr, hs, hf, rfl, rfl⟩ := applyContract_ok h
      exact .contract hc (by rw [hk]; decide) (by rw [hk]; exact hr) hs hf

theorem TxStep.checks {height : Int} {proposer : String} {tx tx' : Transaction} {db db' : Db}
    (h : TxStep c now height proposer tx db tx' db') : c.precheck db.live tx = .ok () := by
  cases h with
  | transfer checks => exact checks
  | contract checks => exact checks

theorem TxStep.kept {height : Int} {proposer : String} {tx tx' : Transaction} {db db' : Db}
    (h : TxStep c now height proposer tx db tx' db') :
    tx' = { tx with fee := tx'.fee, burned := tx'.burned, gasUsed := tx'.gasUsed, blockHeight := height } := by
  cases h <;> rfl

inductive TxSteps (c : Blockchain) (now height : Int) (proposer : String) :
    List Transaction → Db → List Transaction → Db → Prop
  | nil {db} : TxSteps c now height proposer [] db [] db
  | cons {tx tx' rest rest' db db₁ db₂} (step : TxStep c now height proposer tx db tx' db₁)
    (steps : TxSteps c now height proposer rest db₁ rest' db₂) :
    TxSteps c now height proposer (tx :: rest) db (tx' :: rest') db₂

theorem applyTransactions_ok {height : Int} {proposer : String} {txs txs' : List Transaction} {db db' : Db}
    (h : c.applyTransactions now height proposer txs db = (.ok txs', db')) :
    TxSteps c now height proposer txs db txs' db' := by
  induction txs generalizing db txs' with
  | nil =>
    cases h
    exact .nil
  | cons tx rest ih =>
    unfold applyTransactions at h
    obtain ⟨tx', db₁, h₁, h⟩ := bind_ok.mp h
    obtain ⟨rest', db₂, h₂, h⟩ := bind_ok.mp h
    cases h
    exact .cons (applyTransaction_ok h₁) (ih h₂)

def Along (c : Blockchain) (now height : Int) (proposer : String) (P : Db → Transaction → Prop) :
    List Transaction → Db → Prop
  | [], _ => True
  | tx :: rest, db => P db tx ∧ Along c now height proposer P rest (c.applyTransaction now tx height proposer db).2

/-- The rule for runs: an invariant that every executed transaction preserves, and that gives `P` at each. -/
theorem along_of_run {height : Int} {proposer : String} {P : Db → Transaction → Prop}
    {Inv : List Transaction → Db → Prop}
    (hstep : ∀ {tx rest db tx' db'}, Inv (tx :: rest) db → c.applyTransaction now tx height proposer db = (.ok tx', db') →
      P db tx ∧ Inv rest db')
    {txs txs' : List Transaction} {db db' : Db} (h : c.applyTransactions now height proposer txs db = (.ok txs', db'))
    (hi : Inv txs db) : c.Along now height proposer P txs db := by
  induction txs generalizing db txs' with
  | nil => trivial
  | cons tx rest ih =>
    unfold applyTransactions at h
    obtain ⟨tx', db₁, h₁, h⟩ := bind_ok.mp h
    obtain ⟨rest', db₂, h₂, h⟩ := bind_ok.mp h
    cases h
    obtain ⟨hp, hi₁⟩ := hstep hi h₁
    unfold Along
    rw [h₁]
    exact ⟨hp, ih h₂ hi₁⟩

/-! ## Reward and persistence -/

def rewardTables (c : Blockchain) (proposer : String) (t : Tables) : Tables :=
  if 0 < c.rewardFor t then t.applyBalanceDelta proposer (c.rewardFor t) else t

theorem applyBlockReward_run (proposer : String) (db : Db) :
    c.applyBlockReward proposer db =
      (.ok (c.rewardFor db.live),
        if 0 < c.rewardFor db.live then db.exec (Tables.applyBalanceDelta proposer (c.rewardFor db.live)) else db) := by
  unfold applyBlockReward
  simp only [bind_run, query_run, balanceDelta, when_statement, pure_run]

theorem applyBlockReward_ok {proposer : String} {r : ℚ} {db db' : Db}
    (h : c.applyBlockReward proposer db = (.ok r, db')) :
    r = c.rewardFor db.live ∧ db'.live = c.rewardTables proposer db.live := by
  rw [applyBlockReward_run] at h
  obtain ⟨h₁, rfl⟩ := Prod.mk.inj h
  cases h₁
  refine ⟨rfl, ?_⟩
  by_cases hr : 0 < c.rewardFor db.live
  · simp [rewardTables, hr]
  · simp [rewardTables, hr]

end Blockchain

def proposerAuditRow (host : Host) (now : Int) (b : BlockDict) : ProposerAudit :=
  { blockHash := b.hash, proposer := normalizeAddress host (orElse b.miner "genesis"), txCount := b.txCount,
    totalBurned := b.totalBurned, blockTs := b.timestamp, recordedAt := now }

def storeTx (host : Host) (blockHash : String) (blockHeight : Int) (tx : TxDict) (t : Tables) : Tables :=
  let t := { t with transactions := t.transactions.put tx.hash (txRow host tx) }
  if tx.hash = "" then t
  else { t with txReceipts := t.txReceipts.put tx.hash (receiptRow host tx blockHash blockHeight) }

def storeTxs (host : Host) (blockHash : String) (blockHeight : Int) (txs : List TxDict) (t : Tables) : Tables :=
  txs.foldl (fun t tx => storeTx host blockHash blockHeight tx t) t

theorem storeTxs_rows (host : Host) (blockHash : String) (blockHeight : Int) (txs : List TxDict) (t : Tables) :
    ∃ transactions receipts, storeTxs host blockHash blockHeight txs t =
      { t with transactions := transactions, txReceipts := receipts } := by
  induction txs generalizing t with
  | nil => exact ⟨t.transactions, t.txReceipts, rfl⟩
  | cons tx rest ih =>
    have hfold : storeTxs host blockHash blockHeight (tx :: rest) t =
        storeTxs host blockHash blockHeight rest (storeTx host blockHash blockHeight tx t) := rfl
    obtain ⟨transactions, receipts, hrest⟩ := ih (storeTx host blockHash blockHeight tx t)
    refine ⟨transactions, receipts, ?_⟩
    rw [hfold, hrest]
    unfold storeTx
    by_cases h : tx.hash = ""
    · simp only [if_pos h]
    · simp only [if_neg h]

def storeBlock (host : Host) (now : Int) (b : BlockDict) (t : Tables) : Tables :=
  let t := t.putBlock b
  { t with proposerAudit := t.proposerAudit.put b.height (proposerAuditRow host now b) }

def burnTables (height : Int) (burned : ℚ) (burnAddress : String) (t : Tables) : Tables :=
  if 0 < burned then
    let t := t.insertBurnRecord height burned
    if burnAddress ≠ "" then t.applyBalanceDelta burnAddress burned else t
  else t

def persistTables (host : Host) (now : Int) (b : BlockDict) (txs : List TxDict) (burned : ℚ) (burnAddress : String)
    (t : Tables) : Tables :=
  burnTables b.height burned burnAddress (storeTxs host b.hash b.height txs (storeBlock host now b t))

theorem insertBlock_ok {host : Host} {now : Int} {b : BlockDict} {db db' : Db}
    (h : insertBlock host now b db = (.ok (), db')) :
    [b.height, b.timestamp, b.txCount, b.gasUsed].all fitsInt64 = true ∧ db' = db.exec (storeBlock host now b) := by
  unfold insertBlock at h
  obtain ⟨_, db₁, h₁, h₂⟩ := bind_ok.mp h
  obtain ⟨hb, he⟩ := bindInts_ok.mp h₁
  simp only [he, bind_run, statement_run, insertProposerAudit, exec_exec] at h₂
  exact ⟨hb, (Prod.mk.inj h₂).2.symm⟩

theorem insertTransaction_ok {host : Host} {tx : TxDict} {db db' : Db}
    (h : insertTransaction host tx db = (.ok (), db')) :
    db' = db.exec fun t => { t with transactions := t.transactions.put tx.hash (txRow host tx) } := by
  unfold insertTransaction at h
  obtain ⟨_, db₁, h₁, h₂⟩ := bind_ok.mp h
  rw [(bindInts_ok.mp h₁).2] at h₂
  exact (Prod.mk.inj h₂).2.symm

theorem insertTxReceipt_ok {host : Host} {tx : TxDict} {blockHash : String} {blockHeight : Int} {db db' : Db}
    (h : insertTxReceipt host tx blockHash blockHeight db = (.ok (), db')) :
    db' = if tx.hash = "" then db
      else db.exec fun t =>
        { t with txReceipts := t.txReceipts.put tx.hash (receiptRow host tx blockHash blockHeight) } := by
  unfold insertTxReceipt at h
  by_cases he : tx.hash = ""
  · rw [if_pos he] at h
    rw [if_pos he]
    exact (Prod.mk.inj h).2.symm
  · rw [if_neg he] at h
    rw [if_neg he]
    obtain ⟨_, db₁, h₁, h₂⟩ := bind_ok.mp h
    rw [(bindInts_ok.mp h₁).2] at h₂
    exact (Prod.mk.inj h₂).2.symm

theorem insertTransactions_ok {host : Host} {blockHash : String} {blockHeight : Int} {txs : List TxDict} {db db' : Db}
    (hp : db.pending ≠ none) (h : insertTransactions host blockHash blockHeight txs db = (.ok (), db')) :
    db' = db.exec (storeTxs host blockHash blockHeight txs) := by
  induction txs generalizing db with
  | nil =>
    rw [← (Prod.mk.inj h).2]
    exact (exec_id hp).symm
  | cons tx rest ih =>
    unfold insertTransactions at h
    obtain ⟨_, db₁, h₁, h'⟩ := bind_ok.mp h
    obtain ⟨_, db₂, h₂, h₃⟩ := bind_ok.mp h'
    have step : db₂ = db.exec (storeTx host blockHash blockHeight tx) := by
      rw [insertTxReceipt_ok h₂, insertTransaction_ok h₁]
      unfold storeTx
      by_cases he : tx.hash = ""
      · simp only [if_pos he]
      · simp only [if_neg he, exec_exec]
    rw [ih (by rw [step]; exact Option.some_ne_none _) h₃, step, exec_exec]
    rfl

theorem persistBlockLocked_ok {host : Host} {now : Int} {b : BlockDict} {txs : List TxDict} {burned : ℚ}
    {burnAddress : String} {db db' : Db} (h : persistBlockLocked host now b txs burned burnAddress db = (.ok (), db')) :
    db' = db.exec (persistTables host now b txs burned burnAddress) := by
  unfold persistBlockLocked at h
  obtain ⟨_, db₁, h₁, h'⟩ := bind_ok.mp h
  obtain ⟨_, db₂, h₂, h₃⟩ := bind_ok.mp h'
  obtain ⟨-, he₁⟩ := insertBlock_ok h₁
  have he₂ := insertTransactions_ok (by rw [he₁]; exact Option.some_ne_none _) h₂
  rw [he₁, exec_exec] at he₂
  rw [he₂] at h₃
  by_cases hb : 0 < burned
  · rw [when_pos hb] at h₃
    simp only [bind_run, statement_run, when_statement, exec_exec] at h₃
    rw [← (Prod.mk.inj h₃).2]
    by_cases ha : burnAddress ≠ ""
    · rw [if_pos ha]
      unfold persistTables burnTables
      simp only [if_pos hb, if_pos ha]
    · rw [if_neg ha]
      unfold persistTables burnTables
      simp only [if_pos hb, if_neg ha]
  · rw [when_neg hb] at h₃
    rw [← (Prod.mk.inj h₃).2]
    unfold persistTables burnTables
    simp only [if_neg hb]

/-! ## Accepted blocks -/

theorem onDb_run {α : Type} (m : Act Fault Db α) (n : Node) : onDb m n = ((m n.db).1, { n with db := (m n.db).2 }) := rfl

theorem onDb_ok {α : Type} {m : Act Fault Db α} {n n' : Node} {a : α} :
    onDb m n = (.ok a, n') ↔ ∃ db, m n.db = (.ok a, db) ∧ n' = { n with db := db } := by
  rw [onDb_run]
  constructor
  · intro h
    obtain ⟨h₁, rfl⟩ := Prod.mk.inj h
    exact ⟨_, Prod.ext h₁ rfl, rfl⟩
  · rintro ⟨db, h, rfl⟩
    rw [h]

namespace Blockchain

variable {c : Blockchain} {now : Int}

theorem checkPeerRoot_node (b : Block) (preserve : Bool) (computed : String) (n : Node) :
    (c.checkPeerRoot b preserve computed n).2 = n := by
  unfold checkPeerRoot
  split
  · simp only
    split <;> rfl
  · rfl

theorem checkPeerRoot_ok {b : Block} {preserve : Bool} {computed : String} {n n' : Node}
    (h : c.checkPeerRoot b preserve computed n = (.ok (), n')) :
    n' = n ∧ (preserve = true → b.stateRoot ≠ "" → c.stateRootCheckMode b.height b.stateRoot preserve = .strict →
      strip b.stateRoot = computed) := by
  unfold checkPeerRoot at h
  by_cases hp : preserve = true ∧ b.stateRoot ≠ ""
  · rw [if_pos hp] at h
    by_cases hm : c.stateRootCheckMode b.height b.stateRoot preserve = .strict ∧ strip b.stateRoot ≠ computed
    · simp only [if_pos hm] at h
      cases h
    · simp only [if_neg hm] at h
      obtain ⟨-, rfl⟩ := Prod.mk.inj h
      exact ⟨rfl, fun _ _ hs => by_contra fun hne => hm ⟨hs, hne⟩⟩
  · rw [if_neg hp] at h
    obtain ⟨-, rfl⟩ := Prod.mk.inj h
    exact ⟨rfl, fun h₁ h₂ => absurd ⟨h₁, h₂⟩ hp⟩

/-- A recorded proposal leaves the database alone. -/
theorem checkProposal_ok {b : Block} {n n' : Node} (h : checkProposal now b n = (.ok (), n')) : n'.db = n.db := by
  unfold checkProposal at h
  simp only [bind_run, read_run] at h
  cases hs : n.slashing with
  | none =>
    rw [hs] at h
    obtain ⟨-, rfl⟩ := Prod.mk.inj h
    rfl
  | some engine =>
    rw [hs] at h
    by_cases hm : b.miner = "" ∨ b.miner = "genesis"
    · simp only [if_pos hm] at h
      obtain ⟨-, rfl⟩ := Prod.mk.inj h
      rfl
    · simp only [if_neg hm, recordProposal] at h
      by_cases h₁ : b.miner ∈ engine.slashed
      · simp only [if_pos h₁, bind_run, pure_run] at h
        cases h
      · by_cases h₂ : (b.height, b.miner) ∈ engine.proposals
        · simp only [if_neg h₁, if_pos h₂] at h
          obtain ⟨fresh, n₁, hf, h₃⟩ := bind_ok.mp h
          obtain ⟨_, n₂, -, h₄⟩ := bind_ok.mp hf
          cases h₄
          cases h₃
        · simp only [if_neg h₁, if_neg h₂, bind_run, write_run, pure_run] at h
          obtain ⟨-, rfl⟩ := Prod.mk.inj h
          rfl

def storedBlock (b : Block) (txs : List Transaction) (root : String) (preserve : Bool) : Block :=
  let b' := sealBlock b txs root preserve
  { b' with transactions := b'.transactions.map fun tx => { tx with blockHeight := b.height } }

def persisted (c : Blockchain) (now : Int) (b : Block) (t : Tables) : Tables :=
  persistTables c.host now b.toDict (b.transactions.map Transaction.toDict) b.totalBurned
    (if 0 < b.totalBurned then c.config.burnAddress else "") t

structure Accepted (c : Blockchain) (now : Int) (b : Block) (preserve : Bool) (n : Node) (b' : Block) (n' : Node) where
  start : Db
  txs : List Transaction
  applied : Db
  closed : n.db.pending = none
  began : start = n.db.opened
  admitted : c.admitBlock n b = .ok ()
  steps : TxSteps c now b.height b.miner b.transactions start txs applied
  ran : c.applyTransactions now b.height b.miner b.transactions start = (.ok txs, applied)
  rooted : preserve = true → b.stateRoot ≠ "" → c.stateRootCheckMode b.height b.stateRoot preserve = .strict →
    strip b.stateRoot = c.computeStateRoot (c.rewardTables b.miner applied.live)
  block : b' = storedBlock b txs (c.computeStateRoot (c.rewardTables b.miner applied.live)) preserve
  result : n'.db = { file := c.persisted now b' (c.rewardTables b.miner applied.live), pending := none }

theorem executeBlock_ok {b b' : Block} {preserve : Bool} {n n' : Node}
    (h : c.executeBlock now b preserve n = (.ok b', n')) :
    ∃ txs applied, c.applyTransactions now b.height b.miner b.transactions n.db = (.ok txs, applied) ∧
      (preserve = true → b.stateRoot ≠ "" → c.stateRootCheckMode b.height b.stateRoot preserve = .strict →
        strip b.stateRoot = c.computeStateRoot (c.rewardTables b.miner applied.live)) ∧
      b' = storedBlock b txs (c.computeStateRoot (c.rewardTables b.miner applied.live)) preserve ∧
      n'.db.live = c.persisted now b' (c.rewardTables b.miner applied.live) := by
  unfold executeBlock at h
  obtain ⟨txs, n₁, h₁, k₁⟩ := bind_ok.mp h
  obtain ⟨r, n₂, h₂, k₂⟩ := bind_ok.mp k₁
  obtain ⟨root, n₃, h₃, k₃⟩ := bind_ok.mp k₂
  obtain ⟨_, n₄, h₄, k₄⟩ := bind_ok.mp k₃
  obtain ⟨_, n₅, h₅, k₅⟩ := bind_ok.mp k₄
  obtain ⟨_, n₆, h₆, k₆⟩ := bind_ok.mp k₅
  obtain ⟨applied, ha, e₁⟩ := onDb_ok.mp h₁
  obtain ⟨rewarded, hr, e₂⟩ := onDb_ok.mp h₂
  obtain ⟨db₃, hq, e₃⟩ := onDb_ok.mp h₃
  obtain ⟨stored, hs, e₆⟩ := onDb_ok.mp h₆
  have hlive := (applyBlockReward_ok hr).2
  have hroot : root = c.computeStateRoot n₂.db.live ∧ n₃ = n₂ := by
    obtain ⟨hq₁, hq₂⟩ := Prod.mk.inj hq
    cases hq₁
    exact ⟨rfl, by rw [e₃, ← hq₂]⟩
  have hn₂ : n₂.db.live = c.rewardTables b.miner applied.live := by
    rw [e₂]
    simpa [e₁] using hlive
  obtain ⟨e₄, hstrict⟩ := checkPeerRoot_ok h₄
  have hn₅ : n₅.db = n₂.db := by rw [checkProposal_ok h₅, e₄, hroot.2]
  obtain ⟨hb, hn⟩ := Prod.mk.inj k₆
  cases hb
  refine ⟨txs, applied, ha, ?_, ?_, ?_⟩
  · rw [← hn₂, ← hroot.1]
    exact hstrict
  · rw [← hn₂, ← hroot.1]
    rfl
  · rw [← hn, e₆, ← hn₂, ← hn₅]
    have := persistBlockLocked_ok hs
    simp only [this, Store.live_exec]
    rfl

theorem addBlock_body {b b' : Block} {preserve : Bool} {n n' : Node} (h : c.addBlock now b preserve n = (.ok b', n')) :
    c.admitBlock n b = .ok () ∧ n.db.pending = none ∧
      ∃ n₁, c.executeBlock now b preserve { n with db := n.db.opened } = (.ok b', n₁) ∧
        n' = { n₁ with db := n₁.db.commit } := by
  unfold addBlock at h
  simp only [bind_run, read_run, id, liftExcept] at h
  cases hadm : c.admitBlock n b with
  | error e =>
    rw [hadm] at h
    cases h
  | ok u =>
    rw [hadm] at h
    simp only [attempt] at h
    cases hbegin : n.db.begin? with
    | none =>
      rw [atomically_refused (P := Node.dbPart) nestedTransaction hbegin] at h
      obtain ⟨_, n₁, -, h₁⟩ := bind_ok.mp h
      cases h₁
    | some db =>
      obtain ⟨hclosed, rfl⟩ := Store.begin_eq_some hbegin
      rcases hbody : c.executeBlock now b preserve (Node.dbPart.set n.db.opened n) with
        ⟨f | b₁, n₁⟩
      · rw [atomically_raised (P := Node.dbPart) nestedTransaction hbegin hbody] at h
        obtain ⟨_, n₂, -, h₁⟩ := bind_ok.mp h
        cases h₁
      · rw [atomically_returned (P := Node.dbPart) nestedTransaction hbegin hbody] at h
        obtain ⟨hb, rfl⟩ := Prod.mk.inj h
        cases hb
        exact ⟨rfl, hclosed, n₁, hbody, rfl⟩

theorem addBlock_ok {b b' : Block} {preserve : Bool} {n n' : Node} (h : c.addBlock now b preserve n = (.ok b', n')) :
    Nonempty (Accepted c now b preserve n b' n') := by
  obtain ⟨hadm, hclosed, n₁, hbody, rfl⟩ := addBlock_body h
  obtain ⟨txs, applied, hrun, hroot, hblock, hlive⟩ := executeBlock_ok hbody
  exact ⟨{
    start := n.db.opened
    txs, applied
    closed := hclosed
    began := rfl
    admitted := hadm
    steps := applyTransactions_ok hrun
    ran := hrun
    rooted := hroot
    block := hblock
    result := by rw [← hlive]; rfl }⟩

/-! ### What execution leaves alone -/

/-- A quantity that no write to accounts, contract logs or pool locks changes. -/
structure ExecutionFree {γ : Type} (q : Tables → γ) : Prop extends AccountFree q where
  poolLocks : ∀ t s, q (t.setPoolLocks s) = q t

theorem keeps_reward {γ : Type} {q : Tables → γ} (hq : ∀ t a, q { t with accounts := a } = q t) (miner : String) :
    Keeps (untouched q) (c.applyBlockReward miner) :=
  keeps_bind (keeps_query _) fun _ =>
    keeps_bind (keeps_when fun _ => keeps_statement fun t => hq t _) fun _ => keeps_pure _

section free
variable {γ : Type} {q : Tables → γ} (hq : ExecutionFree q)

theorem keeps_liftExcept {σ α : Type} {F : Frame σ} (r : Except String α) : Keeps F (liftExcept r) := by
  intro s
  unfold liftExcept
  cases r <;> exact F.refl s

include hq

theorem keeps_balanceDelta (a : String) (d : ℚ) : Keeps (untouched q) (balanceDelta a d) :=
  keeps_statement fun t => hq.accounts t _

theorem keeps_settle (tx : Transaction) (proposer : String) (ch : Charge) :
    Keeps (untouched q) (c.settle tx proposer ch) := by
  unfold settle
  refine keeps_bind (keeps_balanceDelta hq _ _) fun _ => ?_
  refine keeps_bind (keeps_when fun _ => keeps_balanceDelta hq _ _) fun _ => ?_
  exact keeps_statement fun t => hq.accounts t _

theorem keeps_recordPoolOutgoing (a : String) (amount : ℚ) : Keeps (untouched q) (c.recordPoolOutgoing a amount) := by
  unfold recordPoolOutgoing recordOutgoing
  refine keeps_when fun _ => keeps_bind (keeps_query _) fun state => ?_
  cases state with
  | none => exact keeps_pure _
  | some s =>
    dsimp only
    split
    · exact keeps_pure _
    · exact keeps_commit fun t => hq.poolLocks t _

theorem keeps_applyTransfer (tx : Transaction) (height : Int) (proposer : String) :
    Keeps (untouched q) (c.applyTransfer tx height proposer) := by
  unfold applyTransfer
  refine keeps_bind (keeps_balanceDelta hq _ _) fun _ => keeps_bind (keeps_balanceDelta hq _ _) fun _ => ?_
  refine keeps_bind (keeps_settle hq _ _ _) fun _ => keeps_bind (keeps_recordPoolOutgoing hq _ _) fun _ => ?_
  exact keeps_pure _

theorem keeps_applyContract (kind : Kind) (tx : Transaction) (height : Int) (proposer : String) (balance : ℚ) :
    Keeps (untouched q) (c.applyContract now kind tx height proposer balance) := by
  unfold applyContract
  refine keeps_bind (keeps_runContract (fun _ => keeps_callContract (hq.evmFrame _) _ _ _ _ _)
    (fun _ _ => keeps_deployContract (hq.evmFrame _) _ _ _ _ _) _ _) fun res => ?_
  refine keeps_ite (fun _ => keeps_raise _) fun _ => keeps_ite (fun _ => keeps_raise _) fun _ => ?_
  refine keeps_bind (keeps_balanceDelta hq _ _) fun _ => keeps_bind (keeps_settle hq _ _ _) fun _ => ?_
  exact keeps_bind (keeps_recordPoolOutgoing hq _ _) fun _ => keeps_pure _

theorem keeps_applyTransaction (tx : Transaction) (height : Int) (proposer : String) :
    Keeps (untouched q) (c.applyTransaction now tx height proposer) := by
  unfold applyTransaction
  refine keeps_bind (keeps_query _) fun t => keeps_bind (keeps_liftExcept _) fun _ => ?_
  cases c.kindOf t tx with
  | transfer => exact keeps_applyTransfer hq _ _ _
  | call => exact keeps_applyContract hq _ _ _ _ _
  | deploy => exact keeps_applyContract hq _ _ _ _ _

theorem keeps_applyTransactions (height : Int) (proposer : String) (txs : List Transaction) :
    Keeps (untouched q) (c.applyTransactions now height proposer txs) := by
  induction txs with
  | nil => exact keeps_pure _
  | cons tx rest ih =>
    exact keeps_bind (keeps_applyTransaction hq _ _ _) fun _ => keeps_bind ih fun _ => keeps_pure _

theorem keeps_applyBlockReward (miner : String) : Keeps (untouched q) (c.applyBlockReward miner) :=
  keeps_reward hq.accounts miner

end free

theorem executionFree_blocks : ExecutionFree Tables.blocks := ⟨⟨fun _ _ => rfl, fun _ _ => rfl⟩, fun _ _ => rfl⟩

/-! ### What the stored block keeps of the given one -/

theorem TxSteps.kept {height : Int} {proposer : String} {txs txs' : List Transaction} {db db' : Db}
    (h : TxSteps c now height proposer txs db txs' db') :
    List.Forall₂ (fun tx tx' =>
      tx' = { tx with fee := tx'.fee, burned := tx'.burned, gasUsed := tx'.gasUsed, blockHeight := height }) txs txs' := by
  induction h with
  | nil => exact .nil
  | cons step steps ih => exact .cons step.kept ih

theorem TxSteps.marked {height : Int} {proposer : String} {txs txs' : List Transaction} {db db' : Db}
    (h : TxSteps c now height proposer txs db txs' db') :
    txs'.map (fun tx => { tx with blockHeight := height }) = txs' := by
  induction h with
  | nil => rfl
  | cons step steps ih =>
    rw [List.map_cons, ih]
    congr 1
    rw [step.kept]

variable {b b' : Block} {preserve : Bool} {n n' : Node}

theorem Accepted.block_eq (r : Accepted c now b preserve n b' n') :
    b' = sealBlock b r.txs (c.computeStateRoot (c.rewardTables b.miner r.applied.live)) preserve := by
  refine r.block.trans ?_
  simp only [storedBlock, sealBlock, r.steps.marked]

theorem Accepted.height_eq (r : Accepted c now b preserve n b' n') : b'.height = b.height :=
  (congrArg Block.height r.block_eq).trans rfl

theorem Accepted.parentHash_eq (r : Accepted c now b preserve n b' n') : b'.parentHash = b.parentHash :=
  (congrArg Block.parentHash r.block_eq).trans rfl

theorem Accepted.miner_eq (r : Accepted c now b preserve n b' n') : b'.miner = b.miner :=
  (congrArg Block.miner r.block_eq).trans rfl

theorem Accepted.transactions_eq (r : Accepted c now b preserve n b' n') : b'.transactions = r.txs :=
  congrArg Block.transactions r.block_eq

theorem Accepted.stateRoot_eq (r : Accepted c now b preserve n b' n') :
    b'.stateRoot = c.computeStateRoot (c.rewardTables b.miner r.applied.live) :=
  congrArg Block.stateRoot r.block_eq

theorem Accepted.totalBurned_eq (r : Accepted c now b preserve n b' n') :
    b'.totalBurned = (r.txs.map Transaction.burned).sum :=
  congrArg Block.totalBurned r.block_eq

/-- A supplied hash is kept as it is; it is computed only when there is none to keep. -/
theorem Accepted.hash_eq (r : Accepted c now b preserve n b' n') :
    b'.hash = if preserve ∧ b.hash ≠ "" then b.hash else b'.computeHash := by
  have hsealed : ∀ root, (sealBlock b r.txs root preserve).hash =
      if preserve ∧ b.hash ≠ "" then b.hash else (sealBlock b r.txs root preserve).computeHash := fun _ => rfl
  have heq := r.block_eq
  exact (congrArg Block.hash heq).trans ((hsealed _).trans (by rw [← heq]))

/-- The checks of `add_block` before execution. -/
structure Admitted (c : Blockchain) (n : Node) (b : Block) : Prop where
  fits : fitsInt64 b.height = true
  free : n.db.live.getBlock b.height = none
  structured : validateBlockStructure n.db.live b = .ok ()
  proposer : c.verifyBlockProposer n.db.live n.slashing b = .ok ()
  signatures : verifyBlockTxSignatures c.host c.config b.transactions = .ok ()

theorem admitBlock_ok (h : c.admitBlock n b = .ok ()) : Admitted c n b := by
  simp only [admitBlock, check_bind_ok, require_ok, decide_eq_true_eq] at h
  obtain ⟨h₁, h₂, h₃, h₄, h₅⟩ := h
  exact ⟨by simpa using h₁, h₂, h₃, h₄, h₅⟩

theorem Accepted.live_start (r : Accepted c now b preserve n b' n') : r.start.live = n.db.live := by
  rw [r.began, Store.live, Store.live, r.closed]
  rfl

/-! ### The two ways in -/

/-- A call of `add_block` or of `import_block` that accepts: the node before, the block that
`add_block` was given, whether it was told to keep the peer's hash, the stored block, the node after. -/
inductive Acceptance (c : Blockchain) (now : Int) : Node → Block → Bool → Block → Node → Prop
  | added {n : Node} {b : Block} {preserve : Bool} {b' : Block} {n' : Node} (h : c.addBlock now b preserve n = (.ok b', n')) :
    Acceptance c now n b preserve b' n'
  | imported {n : Node} {d : PeerBlock} {b' : Block} {n' : Node} (h : c.importBlock now d n = (.ok b', n')) :
    Acceptance c now n (Block.fromDict c.host now (normalizeBlockDict d)) true b' n'

theorem liftExcept_bind_ok {σ α β : Type} {r : Except String α} {k : α → Act Fault σ β} {s s' : σ} {x : β} :
    (liftExcept r >>= k) s = (.ok x, s') ↔ ∃ a, r = .ok a ∧ k a s = (.ok x, s') := by
  rw [bind_ok]
  constructor
  · rintro ⟨a, t, h₁, h₂⟩
    obtain ⟨hr, rfl⟩ := liftExcept_ok.mp h₁
    exact ⟨a, hr, h₂⟩
  · rintro ⟨a, hr, h₂⟩
    exact ⟨a, s, liftExcept_ok.mpr ⟨hr, rfl⟩, h₂⟩

theorem importFresh_ok {d : PeerBlock} (h : c.importFresh now d n = (.ok b', n')) :
    blockValidator now d n.db.live.getLastBlock = .ok () ∧
      c.addBlock now (Block.fromDict c.host now d) true n = (.ok b', n') := by
  unfold importFresh at h
  simp only [bind_run, onDb_run, query_run] at h
  obtain ⟨u, hv, ha⟩ := liftExcept_bind_ok.mp h
  exact ⟨hv, ha⟩

/-- The node once a stored genesis block with another hash made an import drop every block. -/
def truncated (n : Node) : Node :=
  { n with db := { file := { n.db.live with blocks := .empty }, pending := none } }

theorem truncateAllBlocks_run (hclosed : n.db.pending = none) : truncateAllBlocks n.db = (.ok (), (truncated n).db) := by
  have hbegin : n.db.begin? = some n.db.opened := Store.begin_closed hclosed
  unfold truncateAllBlocks
  rw [atomically_returned (P := Part.whole) nestedTransaction hbegin (statement_run _ _)]
  simp only [truncated, Store.live, hclosed]
  rfl

theorem truncateAllBlocks_ok {u : Unit} (h : onDb truncateAllBlocks n = (.ok u, n')) :
    n.db.pending = none ∧ n' = truncated n := by
  obtain ⟨db, ht, rfl⟩ := onDb_ok.mp h
  unfold truncateAllBlocks at ht
  cases hb : n.db.begin? with
  | none =>
    rw [atomically_refused (P := Part.whole) nestedTransaction hb] at ht
    cases ht
  | some db₁ =>
    obtain ⟨hp, rfl⟩ := Store.begin_eq_some hb
    rw [atomically_returned (P := Part.whole) nestedTransaction hb (statement_run _ _)] at ht
    cases ht
    exact ⟨hp, by simp only [truncated, Store.live, hp]; rfl⟩

/-- An accepted import ran `add_block` on the node as it was, or on the node without blocks when
the peer's genesis block has another hash than the stored one. -/
theorem importBlock_ok {d : PeerBlock} (h : c.importBlock now d n = (.ok b', n')) :
    ∃ n₀, (n₀ = n ∨ (n₀ = truncated n ∧ ∃ e, n.db.live.getBlock 0 = some e ∧ (normalizeBlockDict d).hash ≠ some e.hash ∧
        field (normalizeBlockDict d).height (normalizeBlockDict d).number 0 = 0)) ∧
      blockValidator now (normalizeBlockDict d) n₀.db.live.getLastBlock = .ok () ∧
      c.addBlock now (Block.fromDict c.host now (normalizeBlockDict d)) true n₀ = (.ok b', n') := by
  unfold importBlock at h
  obtain ⟨u, -, h₁⟩ := liftExcept_bind_ok.mp h
  simp only [bind_run, onDb_run, query_run] at h₁
  cases he : n.db.live.getBlock (field (normalizeBlockDict d).height (normalizeBlockDict d).number 0) with
  | none =>
    rw [he] at h₁
    exact ⟨n, .inl rfl, importFresh_ok h₁⟩
  | some e =>
    rw [he] at h₁
    by_cases hg : field (normalizeBlockDict d).height (normalizeBlockDict d).number 0 = 0 ∧
        (normalizeBlockDict d).hash ≠ some e.hash
    · simp only [if_pos hg] at h₁
      obtain ⟨_, n₁, ht, h₂⟩ := bind_ok.mp h₁
      obtain ⟨-, rfl⟩ := truncateAllBlocks_ok ht
      refine ⟨_, .inr ⟨rfl, e, ?_, hg.2, hg.1⟩, importFresh_ok h₂⟩
      rw [← hg.1]
      exact he
    · simp only [if_neg hg] at h₁
      cases h₁

theorem Acceptance.entered (h : Acceptance c now n b preserve b' n') :
    ∃ n₀, (n₀ = n ∨ n₀ = truncated n) ∧ c.addBlock now b preserve n₀ = (.ok b', n') := by
  cases h with
  | added h => exact ⟨n, .inl rfl, h⟩
  | imported h =>
    obtain ⟨n₀, h₀, -, ha⟩ := importBlock_ok h
    exact ⟨n₀, h₀.imp_right And.left, ha⟩

theorem Acceptance.accepted (h : Acceptance c now n b preserve b' n') :
    ∃ n₀, Nonempty (Accepted c now b preserve n₀ b' n') := by
  obtain ⟨n₀, -, ha⟩ := h.entered
  exact ⟨n₀, addBlock_ok ha⟩

end Blockchain

end AbsoluteChain
