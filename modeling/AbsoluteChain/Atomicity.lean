import AbsoluteChain.ExecSpec

/-!
# Atomicity

What a rejected block and a failed reorganisation leave behind. The database
transaction of either is rolled back, but a helper that commits ends it early: the
rollback then only reaches back to that commit.
-/

namespace AbsoluteChain

open Python Actions Act Transactions KeyedTable

structure Guarded where
  accounts : Table String Account
  blocks : Table Int BlockDict
  transactions : Table String TxRow
  txReceipts : Table String TxReceipt
  burnStats : Table Int BurnRow
  validators : Table String Validator
  poolLocks : Option PoolLocksState
  deriving DecidableEq

def Tables.guarded (t : Tables) : Guarded :=
  { accounts := t.accounts, blocks := t.blocks, transactions := t.transactions, txReceipts := t.txReceipts,
    burnStats := t.burnStats, validators := t.validators, poolLocks := t.poolLocks }

/-! ## Statements that stay inside the transaction -/

theorem uncommitted_statement (f : Tables → Tables) : Keeps uncommitted (statement f) := uncommitted_exec f

theorem uncommitted_bindInts (l : List Int) : Keeps uncommitted (bindInts l) :=
  keeps_ite (fun _ => keeps_pure _) fun _ => keeps_raise _

theorem uncommitted_insertTransactions (host : Host) (blockHash : String) (blockHeight : Int) (txs : List TxDict) :
    Keeps uncommitted (insertTransactions host blockHash blockHeight txs) := by
  induction txs with
  | nil => exact keeps_pure _
  | cons tx rest ih =>
    refine keeps_bind (keeps_bind (uncommitted_bindInts _) fun _ => uncommitted_statement _) fun _ => ?_
    refine keeps_bind (keeps_ite (fun _ => keeps_pure _) fun _ => ?_) fun _ => ih
    exact keeps_bind (uncommitted_bindInts _) fun _ => uncommitted_statement _

theorem uncommitted_persist (host : Host) (now : Int) (b : BlockDict) (txs : List TxDict) (burned : ℚ)
    (burnAddress : String) : Keeps uncommitted (persistBlockLocked host now b txs burned burnAddress) := by
  unfold persistBlockLocked insertBlock insertProposerAudit
  refine keeps_bind (keeps_bind (uncommitted_bindInts _) fun _ => ?_) fun _ => ?_
  · exact keeps_bind (uncommitted_statement _) fun _ => uncommitted_statement _
  · refine keeps_bind (uncommitted_insertTransactions _ _ _ _) fun _ => ?_
    refine keeps_when fun _ => keeps_bind (uncommitted_statement _) fun _ => ?_
    exact keeps_when fun _ => uncommitted_statement _

/-! ## Transactions that stay inside -/

namespace Blockchain

variable {c : Blockchain} {now : Int}

theorem codeOf_applyBalanceDelta (t : Tables) (a b : String) (d : ℚ) :
    EvmAdapter.codeOf (t.applyBalanceDelta a d) b = EvmAdapter.codeOf t b := by
  unfold EvmAdapter.codeOf Tables.getAccount Tables.applyBalanceDelta
  simp only [Table.get_upsert]
  by_cases h : b = a
  · subst h
    cases t.accounts.get? b <;> simp
  · simp [h]

theorem codeOf_incrementNonce (t : Tables) (a b : String) :
    EvmAdapter.codeOf (t.incrementNonce a) b = EvmAdapter.codeOf t b := by
  unfold EvmAdapter.codeOf Tables.getAccount Tables.incrementNonce
  simp only [Table.get_upsert]
  by_cases h : b = a
  · subst h
    cases t.accounts.get? b <;> simp
  · simp [h]

theorem codeOf_settleTables (tx : Transaction) (proposer : String) (ch : Charge) (t : Tables) (a : String) :
    EvmAdapter.codeOf (c.settleTables tx proposer ch t) a = EvmAdapter.codeOf t a := by
  unfold settleTables
  by_cases h : 0 < ch.burned ∧ c.config.burnAddress ≠ ""
  · simp only [if_pos h, codeOf_incrementNonce, codeOf_applyBalanceDelta]
  · simp only [if_neg h, codeOf_incrementNonce, codeOf_applyBalanceDelta]

/-- Settling advances the nonce of the sender. -/
theorem nonce_settleTables (tx : Transaction) (proposer : String) (ch : Charge) (t : Tables) (a : String) :
    (c.settleTables tx proposer ch t).getNonce a =
      if a = tx.fromAddr then t.getNonce tx.fromAddr + 1 else t.getNonce a := by
  unfold settleTables
  by_cases hb : 0 < ch.burned ∧ c.config.burnAddress ≠ ""
  · simp only [if_pos hb, Tables.nonce_incrementNonce, Tables.nonce_applyBalanceDelta]
  · simp only [if_neg hb, Tables.nonce_incrementNonce, Tables.nonce_applyBalanceDelta]

theorem codeOf_transferTables (tx : Transaction) (proposer : String) (t : Tables) (a : String) :
    EvmAdapter.codeOf (c.transferTables tx proposer t) a = EvmAdapter.codeOf t a := by
  unfold transferTables
  simp only [codeOf_settleTables, codeOf_applyBalanceDelta]

theorem transferTables_eq (tx : Transaction) (proposer : String) (t : Tables) :
    c.transferTables tx proposer t = { t with accounts := (c.transferTables tx proposer t).accounts } := by
  unfold transferTables settleTables
  by_cases h : 0 < (c.charge (c.gasFee tx.gas)).burned ∧ c.config.burnAddress ≠ ""
  · simp only [if_pos h]; rfl
  · simp only [if_neg h]; rfl

theorem poolLocks_transferTables (tx : Transaction) (proposer : String) (t : Tables) :
    (c.transferTables tx proposer t).poolLocks = t.poolLocks := by
  rw [transferTables_eq]

theorem blocks_transferTables (tx : Transaction) (proposer : String) (t : Tables) :
    (c.transferTables tx proposer t).blocks = t.blocks := by
  rw [transferTables_eq]

def NoPool (c : Blockchain) (t : Tables) (tx : Transaction) : Prop :=
  c.poolLocks = true → t.lockedPools.get? tx.fromAddr = none

theorem recordPool_noPool {tx : Transaction} {amount : ℚ} {db : Db} (h : c.NoPool db.live tx) :
    c.recordPool tx.fromAddr amount db = db := by
  have hs : c.poolSpending db.live tx.fromAddr amount = none := by
    unfold poolSpending
    by_cases hp : c.poolLocks = true
    · have hn := h hp
      rw [if_pos hp]
      unfold Tables.lockedPools at hn
      cases hl : db.live.poolLocks with
      | none => rfl
      | some s =>
        rw [hl] at hn
        simp only [Option.map_some, Option.getD_some] at hn
        simp [hn]
    · rw [if_neg hp]
  unfold recordPool
  rw [hs]

/-- A plain transfer from an ordinary sender issues no commit, whether it succeeds or not. -/
theorem applyTransaction_uncommitted {tx : Transaction} {height : Int} {proposer : String} {db : Db}
    (hk : c.kindOf db.live tx = .transfer) (hp : c.NoPool db.live tx) :
    (c.applyTransaction now tx height proposer db).2 = db ∨
      (c.applyTransaction now tx height proposer db).2 =
        db.exec (c.transferTables tx (c.feeRecipient proposer)) := by
  unfold applyTransaction
  simp only [bind_run, query_run, id, hk, applyTransfer_run]
  cases c.precheck db.live tx with
  | error e => exact .inl rfl
  | ok u =>
    right
    simp only [liftExcept]
    refine recordPool_noPool fun h => ?_
    rw [Store.live_exec]
    unfold Tables.lockedPools
    rw [poolLocks_transferTables]
    exact hp h

theorem kindOf_congr {t u : Tables} (h : ∀ a, EvmAdapter.codeOf u a = EvmAdapter.codeOf t a) (tx : Transaction) :
    c.kindOf u tx = c.kindOf t tx := by
  unfold kindOf
  rw [h]

def PlainTxs (c : Blockchain) (t : Tables) (txs : List Transaction) : Prop :=
  ∀ tx ∈ txs, c.kindOf t tx = .transfer ∧ c.NoPool t tx

theorem PlainTxs.congr {t u : Tables} {txs : List Transaction} (h : c.PlainTxs t txs)
    (hc : ∀ a, EvmAdapter.codeOf u a = EvmAdapter.codeOf t a) (hp : u.poolLocks = t.poolLocks) : c.PlainTxs u txs := by
  intro tx htx
  obtain ⟨h₁, h₂⟩ := h tx htx
  refine ⟨by rw [kindOf_congr hc, h₁], fun hl => ?_⟩
  unfold Tables.lockedPools
  rw [hp]
  exact h₂ hl

def plainFrame : Frame Db where
  rel db db' := db'.file = db.file ∧ (∀ a, EvmAdapter.codeOf db'.live a = EvmAdapter.codeOf db.live a) ∧
    db'.live.poolLocks = db.live.poolLocks ∧ db'.live.blocks = db.live.blocks
  refl _ := ⟨rfl, fun _ => rfl, rfl, rfl⟩
  trans h₁ h₂ := ⟨h₂.1.trans h₁.1, fun a => (h₂.2.1 a).trans (h₁.2.1 a), h₂.2.2.1.trans h₁.2.2.1,
    h₂.2.2.2.trans h₁.2.2.2⟩

theorem PlainTxs.step {db db' : Db} {txs : List Transaction} (h : c.PlainTxs db.live txs)
    (hr : plainFrame.rel db db') : c.PlainTxs db'.live txs :=
  h.congr hr.2.1 hr.2.2.1

theorem applyTransaction_plain {tx : Transaction} {height : Int} {proposer : String} {db : Db}
    (hk : c.kindOf db.live tx = .transfer) (hp : c.NoPool db.live tx) :
    plainFrame.rel db (c.applyTransaction now tx height proposer db).2 := by
  rcases @applyTransaction_uncommitted c now tx height proposer db hk hp with h | h
  · rw [h]
    exact plainFrame.refl _
  · rw [h]
    exact ⟨rfl, fun a => codeOf_transferTables _ _ _ _, poolLocks_transferTables _ _ _, blocks_transferTables _ _ _⟩

/-- Every transaction up to the first that fails is a plain transfer from an ordinary sender. -/
def PlainRun (c : Blockchain) (now height : Int) (proposer : String) : List Transaction → Db → Prop
  | [], _ => True
  | tx :: rest, db => (c.kindOf db.live tx = .transfer ∧ c.NoPool db.live tx) ∧
      ∀ tx' db', c.applyTransaction now tx height proposer db = (.ok tx', db') → PlainRun c now height proposer rest db'

theorem PlainTxs.run {height : Int} {proposer : String} {txs : List Transaction} {db : Db} (h : c.PlainTxs db.live txs) :
    c.PlainRun now height proposer txs db := by
  induction txs generalizing db with
  | nil => trivial
  | cons tx rest ih =>
    obtain ⟨hk, hp⟩ := h tx (List.mem_cons_self ..)
    refine ⟨⟨hk, hp⟩, fun tx' db' hs => ih ?_⟩
    have hstep := @applyTransaction_plain c now tx height proposer db hk hp
    rw [hs] at hstep
    exact PlainTxs.step (fun x hx => h x (List.mem_cons_of_mem _ hx)) hstep

theorem PlainRun.frame {height : Int} {proposer : String} {txs : List Transaction} {db : Db}
    (h : c.PlainRun now height proposer txs db) : plainFrame.rel db (c.applyTransactions now height proposer txs db).2 := by
  induction txs generalizing db with
  | nil => exact plainFrame.refl _
  | cons tx rest ih =>
    obtain ⟨⟨hk, hp⟩, hrest⟩ := h
    have hstep := @applyTransaction_plain c now tx height proposer db hk hp
    unfold applyTransactions
    refine rel_bind hstep fun tx' db₁ hs => ?_
    exact rel_bind (ih (hrest tx' db₁ hs)) fun _ _ _ => plainFrame.refl _

theorem applyTransactions_plain {height : Int} {proposer : String} {txs : List Transaction} {db : Db}
    (h : c.PlainTxs db.live txs) : plainFrame.rel db (c.applyTransactions now height proposer txs db).2 :=
  h.run.frame

theorem applyBlockReward_plain (miner : String) (db : Db) : plainFrame.rel db (c.applyBlockReward miner db).2 := by
  rw [applyBlockReward_run]
  by_cases h : 0 < c.rewardFor db.live
  · rw [if_pos h]
    exact ⟨rfl, fun a => codeOf_applyBalanceDelta _ _ _ _, rfl, rfl⟩
  · rw [if_neg h]
    exact plainFrame.refl _

/-! ## Rejected blocks -/

def blockBody (c : Blockchain) (now : Int) (b : Block) (preserve : Bool) (n : Node) : Except Fault Block × Node :=
  c.executeBlock now b preserve { n with db := n.db.opened }

section view
variable {γ : Type} {q : Tables → γ} (hq : ∀ t l, q { t with stateRootMismatches := l } = q t)
include hq

theorem auditMismatch_view (b : Block) (preserve : Bool) (f : Fault) (n : Node) :
    q (c.auditMismatch now b preserve f n).2.db.live = q n.db.live := by
  unfold auditMismatch
  cases f.roots with
  | none => rfl
  | some r =>
    simp only [attempt, onDb_run, recordStateRootMismatch, bind_run, bindInts]
    by_cases h : [b.height].all fitsInt64 = true
    · simp only [if_pos h]
      exact hq _ _
    · simp only [if_neg h]
      rfl

/-- A rejected block never got as far as a transaction, or is rolled back to its last commit. -/
theorem rejected_view {b : Block} {preserve : Bool} {n n' : Node} {f : Fault}
    (h : c.addBlock now b preserve n = (.error f, n')) :
    (¬ (c.admitBlock n b = .ok () ∧ n.db.pending = none) ∧ q n'.db.live = q n.db.live) ∨
    ((c.admitBlock n b = .ok () ∧ n.db.pending = none) ∧ q n'.db.live = q (c.blockBody now b preserve n).2.db.file) := by
  unfold addBlock at h
  simp only [bind_run, read_run, id, liftExcept] at h
  cases hadm : c.admitBlock n b with
  | error e =>
    rw [hadm] at h
    cases h
    exact .inl ⟨fun hh => absurd hh.1 (by simp), rfl⟩
  | ok u =>
    rw [hadm] at h
    simp only [attempt] at h
    cases hbegin : n.db.begin? with
    | none =>
      rw [atomically_refused (P := Node.dbPart) nestedTransaction hbegin] at h
      have hp : n.db.pending ≠ none := by
        intro hn
        simp [Store.begin?, hn] at hbegin
      refine .inl ⟨fun hh => hp hh.2, ?_⟩
      have ha := @auditMismatch_view c now _ _ hq b preserve nestedTransaction n
      simp only [bind_run] at h
      rcases hr : c.auditMismatch now b preserve nestedTransaction n with ⟨e | u, n₁⟩
      · rw [hr] at h ha
        cases h
        exact ha
      · rw [hr] at h ha
        cases h
        exact ha
    | some db =>
      obtain ⟨hclosed, rfl⟩ := Store.begin_eq_some hbegin
      refine .inr ⟨⟨rfl, hclosed⟩, ?_⟩
      rcases hbody : c.blockBody now b preserve n with ⟨e | b₁, n₁⟩
      · rw [atomically_raised (P := Node.dbPart) nestedTransaction hbegin hbody] at h
        have ha := @auditMismatch_view c now _ _ hq b preserve e (Node.dbPart.set n₁.db.rollback n₁)
        simp only [bind_run] at h
        rcases hr : c.auditMismatch now b preserve e (Node.dbPart.set n₁.db.rollback n₁) with ⟨e' | u, n₂⟩
        · rw [show Node.dbPart.get n₁ = n₁.db from rfl, hr] at h
          rw [hr] at ha
          cases h
          exact ha
        · rw [show Node.dbPart.get n₁ = n₁.db from rfl, hr] at h
          rw [hr] at ha
          cases h
          exact ha
      · rw [atomically_returned (P := Node.dbPart) nestedTransaction hbegin hbody] at h
        cases h

end view

theorem addBlock_rejected {b : Block} {preserve : Bool} {n n' : Node} {f : Fault}
    (h : c.addBlock now b preserve n = (.error f, n')) :
    (¬ (c.admitBlock n b = .ok () ∧ n.db.pending = none) ∧ n'.db.live.guarded = n.db.live.guarded) ∨
    ((c.admitBlock n b = .ok () ∧ n.db.pending = none) ∧
      n'.db.live.guarded = (c.blockBody now b preserve n).2.db.file.guarded) :=
  rejected_view (fun _ _ => rfl) h

/-- No helper that commits is reached: plain transfers from ordinary senders, and no
second proposal of the miner at this height that would be written to the database. -/
structure Quiet (c : Blockchain) (now : Int) (b : Block) (n : Node) : Prop where
  plain : c.PlainRun now b.height b.miner b.transactions n.db.opened
  proposal : ∀ engine, n.slashing = some engine → engine.persists = true → (b.height, b.miner) ∉ engine.proposals

theorem checkProposal_uncommitted {b : Block} {n : Node}
    (h : ∀ engine, n.slashing = some engine → engine.persists = true → (b.height, b.miner) ∉ engine.proposals) :
    (checkProposal now b n).2.db = n.db := by
  unfold checkProposal
  simp only [bind_run, read_run]
  cases hs : n.slashing with
  | none => rfl
  | some engine =>
    have hp := h engine hs
    by_cases hm : b.miner = "" ∨ b.miner = "genesis"
    · simp only [if_pos hm]
      rfl
    · simp only [if_neg hm, recordProposal, slash]
      by_cases h₁ : b.miner ∈ engine.slashed
      · simp only [if_pos h₁]
        rfl
      · by_cases h₂ : (b.height, b.miner) ∈ engine.proposals
        · have hpers : ¬ engine.persists = true := fun hh => hp hh h₂
          simp only [if_neg h₁, if_pos h₂, if_neg hpers]
          rfl
        · simp only [if_neg h₁, if_neg h₂]
          rfl

theorem blockBody_quiet {b : Block} {preserve : Bool} {n : Node} (hq : c.Quiet now b n) :
    (c.blockBody now b preserve n).2.db.file = n.db.file := by
  unfold blockBody executeBlock
  let F : Frame Node := Frame.fixed fun n => n.db.file
  refine rel_bind (F := F) hq.plain.frame.1 fun txs n₁ h₁ => ?_
  refine rel_bind (F := F) (applyBlockReward_plain b.miner n₁.db).1 fun reward n₂ h₂ => ?_
  refine rel_bind (F := F) rfl fun root n₃ h₃ => ?_
  have hs : n₃.slashing = n.slashing := by
    obtain ⟨_, _, e₁⟩ := onDb_ok.mp h₁
    obtain ⟨_, _, e₂⟩ := onDb_ok.mp h₂
    obtain ⟨_, _, e₃⟩ := onDb_ok.mp h₃
    rw [e₃, e₂, e₁]
  have hroot : (c.checkPeerRoot b preserve root n₃).2 = n₃ := checkPeerRoot_node b preserve root n₃
  refine rel_bind (F := F) (by rw [hroot]; exact F.refl _) fun _ n₄ h₄ => ?_
  rw [h₄] at hroot
  simp only at hroot
  subst hroot
  have hp : (checkProposal now (sealBlock b txs root preserve) n₄).2.db = n₄.db :=
    checkProposal_uncommitted fun engine he hpers => hq.proposal engine (hs ▸ he) hpers
  refine rel_bind (F := F) (congrArg Store.file hp) fun _ n₅ h₅ => ?_
  exact rel_bind (F := F) (uncommitted_persist _ _ _ _ _ _ n₅.db) fun _ _ _ => rfl

theorem rejected_guarded {b : Block} {preserve : Bool} {n n' : Node} {f : Fault}
    (h : c.addBlock now b preserve n = (.error f, n')) (hq : c.Quiet now b n) : n'.db.live.guarded = n.db.live.guarded := by
  rcases addBlock_rejected h with ⟨-, hsame⟩ | ⟨⟨-, hclosed⟩, hbody⟩
  · exact hsame
  · rw [hbody, blockBody_quiet hq]
    simp [Store.live, hclosed]

/-- A rejected block leaves the guarded tables alone exactly when nothing that its
execution made durable differs from what was there; that is so whenever no helper that
commits is reached. -/
theorem addBlock_atomic {b : Block} {preserve : Bool} {n n' : Node} {f : Fault}
    (h : c.addBlock now b preserve n = (.error f, n')) :
    (n'.db.live.guarded = n.db.live.guarded ↔
      (c.admitBlock n b = .ok () → n.db.pending = none →
        (c.blockBody now b preserve n).2.db.file.guarded = n.db.file.guarded)) ∧
    (c.Quiet now b n → n'.db.live.guarded = n.db.live.guarded) := by
  have hlive : n.db.pending = none → n.db.live = n.db.file := Store.live_closed
  rcases addBlock_rejected h with ⟨hne, hsame⟩ | ⟨⟨hadm, hclosed⟩, hbody⟩
  · exact ⟨⟨fun _ ha hc => absurd ⟨ha, hc⟩ hne, fun _ => hsame⟩, rejected_guarded h⟩
  · refine ⟨?_, rejected_guarded h⟩
    rw [hbody, hlive hclosed]
    exact ⟨fun heq _ _ => heq, fun himp => himp hadm hclosed⟩

def genesisRow : BlockDict :=
  { height := 0, hash := "g", parentHash := genesisHash, miner := "genesis", timestamp := 1, txCount := 0,
    gasUsed := 0, totalBurned := 0, extraData := "", stateRoot := "", txRoot := "", transactions := [] }

def genesisNode (slashing : Option SlashingEngine) : Node :=
  { db := { file := { Tables.empty with blocks := Table.empty.put 0 genesisRow }, pending := none }, slashing := slashing }

def firstBlock (txs : List Transaction) : Block :=
  Block.init 2
    { height := 1, parentHash := "g", miner := "v", transactions := txs, timestamp := 2, blockHash := "b",
      extraData := "", stateRoot := "" }

def transferOf (value : Python.Num) : Transaction :=
  Transaction.init .plain 2
    { fromAddr := "a", toAddr := "b", value := value, nonce := 0, gas := 21000, data := "", txHash := "t",
      signature := "", publicKey := "", timestamp := 2 }

theorem addBlock_atomic_insufficient :
    (plain.addBlock 2 (firstBlock [transferOf (.int 5)]) false (genesisNode none)).1 = .error "insufficient_funds" ∧
    (plain.addBlock 2 (firstBlock [transferOf (.int 5)]) false (genesisNode none)).2.db.live.guarded =
      (genesisNode none).db.live.guarded := by
  have hrun : (plain.addBlock 2 (firstBlock [transferOf (.int 5)]) false (genesisNode none)).1 =
      .error "insufficient_funds" := by decide +kernel
  refine ⟨hrun, (addBlock_atomic (Prod.ext hrun rfl)).2 ⟨⟨⟨?_, ?_⟩, fun _ _ _ => trivial⟩, fun _ he => nomatch he⟩⟩
  · decide +kernel
  · exact fun hp => nomatch hp

/-- A miner who already proposed at this height: the slash callback commits the reward
of a block that is then rejected. -/
theorem addBlock_not_atomic :
    let engine : SlashingEngine := { proposals := [(1, "v")], slashed := [], events := [], persists := true }
    let n := genesisNode (some engine)
    (plain.addBlock 2 (firstBlock []) false n).1 = .error "double_proposal" ∧
    n.db.live.getBalance "v" = 0 ∧ (plain.addBlock 2 (firstBlock []) false n).2.db.live.getBalance "v" = 50 ∧
    (plain.addBlock 2 (firstBlock []) false n).2.db.live.guarded ≠ n.db.live.guarded := by
  decide +kernel

/-! ## Failed reorganisations -/

/-- The body of `with self.db.atomic()` in `reorg_to_ancestor`, from the transaction just opened. -/
def replayBody (c : Blockchain) (now cut : Int) (db : Db) : Except Fault Unit × Db :=
  c.replayFromGenesis now cut db.live.getChainTip db.opened

/-- The reorganisation is refused before any statement: the finality floor, or an open transaction. -/
def ReorgRefused (floor cut : Int) (db : Db) : Prop := (0 < floor ∧ cut < floor) ∨ db.pending ≠ none

theorem reorg_failed {floor cut : Int} {db db' : Db} {f : Fault}
    (h : c.reorgToAncestor now floor cut db = (.error f, db')) :
    (ReorgRefused floor cut db ∧ db' = db) ∨
    (¬ ReorgRefused floor cut db ∧ db'.live = (c.replayBody now cut db).2.file) := by
  unfold reorgToAncestor at h
  by_cases hfloor : 0 < floor ∧ cut < floor
  · rw [if_pos hfloor] at h
    cases h
    exact .inl ⟨.inl hfloor, rfl⟩
  · rw [if_neg hfloor] at h
    simp only [bind_run, query_run] at h
    by_cases htip : db.live.getChainTip < cut
    · rw [if_pos htip] at h
      cases h
    · rw [if_neg htip] at h
      cases hbegin : db.begin? with
      | none =>
        rw [atomically_refused (P := Part.whole) nestedTransaction hbegin] at h
        cases h
        refine .inl ⟨.inr fun hn => ?_, rfl⟩
        simp [Store.begin?, hn] at hbegin
      | some db₁ =>
        obtain ⟨hclosed, rfl⟩ := Store.begin_eq_some hbegin
        refine .inr ⟨fun hr => hr.elim hfloor fun hp => hp hclosed, ?_⟩
        rcases hbody : c.replayBody now cut db with ⟨e | u, db₂⟩
        · rw [atomically_raised (P := Part.whole) nestedTransaction hbegin hbody] at h
          cases h
          rfl
        · rw [atomically_returned (P := Part.whole) nestedTransaction hbegin hbody] at h
          cases h

theorem getAccount_resetAccounts {alloc : Dict String Int} {t : Tables} {a : String} {x : Account}
    (h : (t.resetAccounts alloc).getAccount a = some x) :
    x = { balance := x.balance, nonce := 0, code := none, storage := none } := by
  have key : ∀ (l : Dict String Int) (acc : Table String Account),
      (∀ y, acc.get? a = some y → y = { balance := y.balance, nonce := 0, code := none, storage := none }) →
      ∀ y, (l.foldl (fun acc e => acc.put e.1 { balance := e.2, nonce := 0, code := none, storage := none }) acc).get? a
        = some y → y = { balance := y.balance, nonce := 0, code := none, storage := none } := by
    intro l
    induction l with
    | nil => intro acc h; exact h
    | cons e l ih =>
      intro acc h
      refine ih _ fun y hy => ?_
      rw [Table.get_put] at hy
      by_cases he : a = e.1
      · rw [if_pos he] at hy
        cases hy
        rfl
      · rw [if_neg he] at hy
        exact h y hy
  exact key alloc .empty (fun y hy => nomatch hy) x h

theorem codeOf_resetAccounts (alloc : Dict String Int) (t : Tables) (a : String) :
    EvmAdapter.codeOf (t.resetAccounts alloc) a = none := by
  unfold EvmAdapter.codeOf
  cases hx : (t.resetAccounts alloc).getAccount a with
  | none => rfl
  | some x =>
    rw [getAccount_resetAccounts hx]
    rfl

theorem nonce_resetAccounts (alloc : Dict String Int) (t : Tables) (a : String) :
    (t.resetAccounts alloc).getNonce a = 0 := by
  unfold Tables.getNonce
  cases hx : (t.resetAccounts alloc).getAccount a with
  | none => rfl
  | some x =>
    rw [getAccount_resetAccounts hx]
    rfl

/-- The state a replay starts from: the blocks above `cut` dropped, the accounts reset. -/
def replayStart (c : Blockchain) (cut : Int) (t : Tables) : Tables :=
  (if cut < t.getChainTip then t.deleteAbove cut else t).resetAccounts (genesisBalances c.config.founderAddress)

def replayDb (c : Blockchain) (cut : Int) (db : Db) : Db := { db with pending := some (c.replayStart cut db.live) }

theorem replayDb_opened {db : Db} (cut : Int) (hclosed : db.pending = none) :
    (if cut < db.live.getChainTip then db.opened.exec (Tables.deleteAbove cut) else db.opened).exec
      (Tables.resetAccounts (genesisBalances c.config.founderAddress)) = c.replayDb cut db := by
  have hopened : db.opened.live = db.live := Store.live_opened hclosed
  unfold replayDb replayStart
  by_cases hcut : cut < db.live.getChainTip
  · rw [if_pos hcut, if_pos hcut, ← hopened]
    rfl
  · rw [if_neg hcut, if_neg hcut, ← hopened]
    rfl

/-- Every transaction that a replay of `n` blocks from height `h` executes is a plain transfer from an
ordinary sender. -/
def PlainReplay (c : Blockchain) (now : Int) : ℕ → Int → Db → Prop
  | 0, _, _ => True
  | n + 1, h, db => ∀ d, db.live.getBlock h = some d →
      let b := Block.fromDict c.host now d.asPeer
      c.PlainRun now b.height b.miner b.transactions db ∧
        ∀ txs db', c.applyTransactions now b.height b.miner b.transactions db = (.ok txs, db') →
          PlainReplay c now n (h + 1) (c.applyBlockReward b.miner db').2

def QuietReplay (c : Blockchain) (now cut : Int) (db : Db) : Prop := c.PlainReplay now cut.toNat 1 (c.replayDb cut db)

theorem PlainReplay.frame {n : ℕ} {h : Int} {db : Db} (hq : c.PlainReplay now n h db) :
    plainFrame.rel db (c.replayBlocks now n h db).2 := by
  induction n generalizing h db with
  | zero => exact plainFrame.refl _
  | succ n ih =>
    unfold replayBlocks
    refine rel_bind (plainFrame.refl _) fun row db₀ h₀ => ?_
    obtain ⟨hrow, rfl⟩ := Prod.mk.inj h₀
    have hd : db.live.getBlock h = row := Except.ok.inj hrow
    cases row with
    | none => exact plainFrame.refl _
    | some d =>
      obtain ⟨htxs, hrest⟩ := hq d hd
      refine rel_bind htxs.frame fun txs db₁ h₁ => ?_
      have hnext := hrest txs db₁ h₁
      refine rel_bind (applyBlockReward_plain _ db₁) fun reward db₂ h₂ => ?_
      rw [h₂] at hnext
      exact ih hnext

/-- Stored blocks of plain transfers are replayed without a commit: nothing in them deploys, and, as no
code can exist in the replayed state then, nothing in them calls. -/
theorem plainReplay_of_stored {n : ℕ} {h : Int} {db : Db}
    (hq : ∀ k d, db.live.getBlock k = some d → k < h + n → c.PlainTxs db.live (Block.fromDict c.host now d.asPeer).transactions) :
    c.PlainReplay now n h db := by
  induction n generalizing h db with
  | zero => trivial
  | succ n ih =>
    intro d hd
    have htxs := hq h d hd (by push_cast; omega)
    refine ⟨htxs.run, fun txs db₁ h₁ => ih fun k d' hd' hk => ?_⟩
    have hframe := @applyTransactions_plain c now (Block.fromDict c.host now d.asPeer).height
      (Block.fromDict c.host now d.asPeer).miner _ _ htxs
    rw [h₁] at hframe
    have hboth := plainFrame.trans hframe (applyBlockReward_plain (c := c) (Block.fromDict c.host now d.asPeer).miner db₁)
    have hsame : db.live.getBlock k = some d' := by
      unfold Tables.getBlock at hd' ⊢
      rwa [hboth.2.2.2] at hd'
    exact (hq k d' hsame (by push_cast; omega)).step hboth

/-- So is a chain whose blocks up to `cut` hold plain transfers from ordinary senders only. -/
theorem quietReplay_of_stored {cut : Int} {db : Db} (hcut : 0 ≤ cut)
    (hq : ∀ h d, h ≤ cut → db.live.getBlock h = some d → ∀ tx ∈ (Block.fromDict c.host now d.asPeer).transactions,
      c.kindOf Tables.empty tx = .transfer ∧ c.NoPool db.live tx) : c.QuietReplay now cut db := by
  have hlive : (c.replayDb cut db).live = c.replayStart cut db.live := rfl
  refine plainReplay_of_stored fun k d hd hk tx htx => ?_
  rw [hlive] at hd ⊢
  have hle : k ≤ cut := by omega
  have hget : db.live.getBlock k = some d := by
    unfold replayStart at hd
    by_cases ht : cut < db.live.getChainTip
    · rw [if_pos ht] at hd
      have hkeep : (db.live.blocks.keep fun k _ => decide (k ≤ cut)).get? k = some d := hd
      rw [Table.get_keep] at hkeep
      exact (Option.filter_eq_some_iff.mp hkeep).1
    · rw [if_neg ht] at hd
      exact hd
  obtain ⟨hkind, hp⟩ := hq k d hle hget tx htx
  refine ⟨?_, fun hl => ?_⟩
  · rw [← hkind]
    refine kindOf_congr (fun a => ?_) tx
    unfold replayStart
    rw [codeOf_resetAccounts]
    rfl
  · rw [← hp hl]
    unfold replayStart
    by_cases ht : cut < db.live.getChainTip
    · rw [if_pos ht]
      rfl
    · rw [if_neg ht]
      rfl

theorem checkReplayRoot_db (cut : Int) (db : Db) : (c.checkReplayRoot cut db).2 = db := by
  unfold checkReplayRoot
  simp only [bind_run, query_run, id]
  cases db.live.getBlock cut with
  | none => rfl
  | some d =>
    by_cases h : d.stateRoot ≠ "" ∧ d.stateRoot ≠ c.computeStateRoot db.live
    · simp only [if_pos h]; rfl
    · simp only [if_neg h]; rfl

theorem replayBody_quiet {cut : Int} {db : Db} (hclosed : db.pending = none) (hq : c.QuietReplay now cut db) :
    (c.replayBody now cut db).2.file = db.file := by
  unfold replayBody replayFromGenesis
  refine rel_bind (F := uncommitted) (uncommitted_bindInts _ _) fun _ db₀ h₀ => ?_
  obtain rfl := (bindInts_ok.mp h₀).2
  refine rel_bind (F := uncommitted) (keeps_when (fun _ => uncommitted_statement _) _) fun _ db₁ h₁ => ?_
  rw [when_statement] at h₁
  obtain ⟨-, rfl⟩ := Prod.mk.inj h₁
  refine rel_bind (F := uncommitted) rfl fun _ db₂ h₂ => ?_
  obtain ⟨-, rfl⟩ := Prod.mk.inj h₂
  rw [replayDb_opened cut hclosed]
  refine rel_bind (F := uncommitted) hq.frame.1 fun _ db₃ h₃ => ?_
  exact congrArg Store.file (checkReplayRoot_db _ _)

theorem reorg_guarded {floor cut : Int} {db db' : Db} {f : Fault}
    (h : c.reorgToAncestor now floor cut db = (.error f, db')) (hq : c.QuietReplay now cut db) :
    db'.live.guarded = db.live.guarded := by
  rcases reorg_failed h with ⟨-, rfl⟩ | ⟨hr, hbody⟩
  · rfl
  · have hclosed : db.pending = none := by_contra fun hp => hr (.inr hp)
    rw [hbody, replayBody_quiet hclosed hq]
    simp [Store.live, hclosed]

/-- A failed reorganisation leaves the guarded tables alone exactly when it was refused at
once or nothing its replay made durable differs from what was there; that is so whenever
no replayed transaction commits. -/
theorem reorg_atomic {floor cut : Int} {db db' : Db} {f : Fault}
    (h : c.reorgToAncestor now floor cut db = (.error f, db')) :
    (db'.live.guarded = db.live.guarded ↔
      (¬ ReorgRefused floor cut db → (c.replayBody now cut db).2.file.guarded = db.file.guarded)) ∧
    (c.QuietReplay now cut db → db'.live.guarded = db.live.guarded) := by
  refine ⟨?_, reorg_guarded h⟩
  rcases reorg_failed h with ⟨hr, rfl⟩ | ⟨hr, hbody⟩
  · exact ⟨fun _ hn => absurd hr hn, fun _ => rfl⟩
  · have hclosed : db.pending = none := by_contra fun hp => hr (.inr hp)
    have hlive : db.live = db.file := Store.live_closed hclosed
    rw [hbody]
    exact ⟨fun heq _ => by rw [heq, hlive], fun himp => by rw [himp hr, hlive]⟩

/-- A node whose block spends coins that no allocation brought. -/
def borrowedNode : Node :=
  let n := genesisNode none
  (plain.addBlock 2 (firstBlock [transferOf (.int 5)]) true
    { n with db := { n.db with file := n.db.file.applyBalanceDelta "a" 100 } }).2

theorem reorg_atomic_borrowed :
    (plain.reorgToAncestor 3 0 1 borrowedNode.db).1 = .error "insufficient_funds" ∧
    borrowedNode.db.live.getBalance "b" = 5 ∧
    (plain.reorgToAncestor 3 0 1 borrowedNode.db).2.live.guarded = borrowedNode.db.live.guarded := by
  have hrun : (plain.reorgToAncestor 3 0 1 borrowedNode.db).1 = .error "insufficient_funds" := by decide +kernel
  have hkinds : ∀ d ∈ (plain.replayDb 1 borrowedNode.db).live.getBlock 1,
      ∀ tx ∈ (Block.fromDict plain.host 3 d.asPeer).transactions,
        plain.kindOf (plain.replayDb 1 borrowedNode.db).live tx = .transfer := by
    decide +kernel
  refine ⟨hrun, by decide +kernel, (reorg_atomic (Prod.ext hrun rfl)).2 fun d hd => ⟨?_, fun _ _ _ => trivial⟩⟩
  exact PlainTxs.run fun tx htx => ⟨hkinds d hd tx htx, fun hp => nomatch hp⟩

def unlockedNode : Node :=
  let node := genesisNode none
  let state := initialPoolLocks ""
  let pools := state.pools.map fun e => if e.1 = ecosystemAddress then (e.1, { e.2 with daoUnlocked := true }) else e
  let t := (node.db.live.resetAccounts (genesisBalances "")).setPoolLocks { state with pools := pools }
  { node with db := { file := t, pending := none } }

def poolTransfer (nonce value : Int) (hash : String) : Transaction :=
  Transaction.init .plain 2
    { fromAddr := ecosystemAddress, toAddr := "b", value := .int value, nonce := nonce, gas := 21000, data := "",
      txHash := hash, signature := "", publicKey := "", timestamp := 2 }

def pooled : Blockchain := { plain with poolLocks := true }

def spentNode : Node :=
  (pooled.addBlock 2 (firstBlock [poolTransfer 0 5000000 "t", poolTransfer 1 10000000 "u"]) true unlockedNode).2

/-- Replaying the block spends from the pool a second time. The first transfer still fits
and is committed, the second does not, and the miner's reward is gone for good. -/
theorem reorg_not_atomic :
    (pooled.reorgToAncestor 3 0 1 spentNode.db).1.toOption = none ∧
    spentNode.db.live.getBalance "v" = 50 + 2 * (21 / 10000 * (49 / 50)) ∧
    (pooled.reorgToAncestor 3 0 1 spentNode.db).2.live.getBalance "v" = 21 / 10000 * (49 / 50) ∧
    (pooled.reorgToAncestor 3 0 1 spentNode.db).2.live.guarded ≠ spentNode.db.live.guarded := by
  have hfail : (pooled.reorgToAncestor 3 0 1 spentNode.db).1.toOption = none := by decide +kernel
  have hbefore : spentNode.db.live.getBalance "v" = 50 + 2 * (21 / 10000 * (49 / 50)) := by decide +kernel
  have hafter : (pooled.reorgToAncestor 3 0 1 spentNode.db).2.live.getBalance "v" = 21 / 10000 * (49 / 50) := by
    decide +kernel
  refine ⟨hfail, hbefore, hafter, fun heq => ?_⟩
  have hacc : (pooled.reorgToAncestor 3 0 1 spentNode.db).2.live.accounts = spentNode.db.live.accounts :=
    congrArg Guarded.accounts heq
  rw [Tables.getBalance, Tables.getAccount, hacc] at hafter
  rw [Tables.getBalance, Tables.getAccount, hafter] at hbefore
  norm_num at hbefore

end Blockchain

end AbsoluteChain
