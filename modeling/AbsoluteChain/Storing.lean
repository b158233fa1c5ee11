import AbsoluteChain.Genesis
import AbsoluteChain.Supply

/-!
# Storing a block

What `add_block` still checks once the transactions of a block have run, and how it ends:
a block is stored, or everything since the beginning of its transaction is rolled back.
-/

namespace AbsoluteChain

open Python Actions Act Transactions KeyedTable

/-! ## Rows and their integers -/

def Transaction.columns (tx : Transaction) : List Int := [tx.gas, tx.nonce, tx.timestamp] ++ numInts tx.value

def Block.columns (b : Block) : List Int := [b.height, b.timestamp, b.txCount, b.gasUsed]

theorem bind_returns {σ α β : Type} {m : Act Fault σ α} {k : α → Act Fault σ β} {s : σ} :
    (∃ x s', (m >>= k) s = (.ok x, s')) ↔ ∃ a t, m s = (.ok a, t) ∧ ∃ x s', k a t = (.ok x, s') := by
  constructor
  · rintro ⟨x, s', h⟩
    obtain ⟨a, t, hm, hk⟩ := bind_ok.mp h
    exact ⟨a, t, hm, x, s', hk⟩
  · rintro ⟨a, t, hm, x, s', hk⟩
    exact ⟨x, s', bind_ok.mpr ⟨a, t, hm, hk⟩⟩

theorem ends_of_returns {σ α : Type} {m : Act Fault σ α} (h : Act.Returns m) (s : σ) : ∃ x s', m s = (.ok x, s') := by
  obtain ⟨a, ha⟩ := h s
  exact ⟨a, (m s).2, Prod.ext ha rfl⟩

theorem bindInts_then {β : Type} {l : List Int} {k : Unit → Act Fault Db β} (hk : ∀ u, Act.Returns (k u)) (db : Db) :
    (∃ x db', (bindInts l >>= k) db = (.ok x, db')) ↔ l.all fitsInt64 = true := by
  rw [bind_returns]
  constructor
  · rintro ⟨u, db₁, h, -⟩
    exact (bindInts_ok.mp h).1
  · intro h
    exact ⟨(), db, bindInts_ok.mpr ⟨h, rfl⟩, ends_of_returns (hk ()) db⟩

/-- The integers of a transaction's row. -/
def TxDict.columns (d : TxDict) : List Int := [d.blockHeight, d.gas, d.gasUsed, d.nonce, d.timestamp] ++ numInts d.value

theorem insertTransactions_returns {host : Host} {blockHash : String} {blockHeight : Int} {txs : List TxDict} {db : Db} :
    (∃ x db', insertTransactions host blockHash blockHeight txs db = (.ok x, db')) ↔
      ∀ d ∈ txs, d.columns.all fitsInt64 = true := by
  induction txs generalizing db with
  | nil => exact iff_of_true ⟨(), db, rfl⟩ fun _ h => nomatch h
  | cons d rest ih =>
    have hreceipt : d.columns.all fitsInt64 = true → ∀ db, ∃ x db', insertTxReceipt host d blockHash blockHeight db = (.ok x, db') := by
      intro hd db
      unfold insertTxReceipt
      by_cases he : d.hash = ""
      · rw [if_pos he]
        exact ⟨(), db, rfl⟩
      · rw [if_neg he]
        refine (bindInts_then (fun _ => returns_write _) db).mpr ?_
        simp only [TxDict.columns, List.all_append, List.all_cons, List.all_nil, Bool.and_eq_true] at hd ⊢
        tauto
    unfold insertTransactions
    rw [bind_returns, List.forall_mem_cons]
    constructor
    · rintro ⟨u, db₁, h₁, h₂⟩
      obtain ⟨u₂, db₂, -, h₃⟩ := bind_returns.mp h₂
      exact ⟨(bindInts_then (fun _ => returns_write _) db).mp ⟨u, db₁, h₁⟩, ih.mp h₃⟩
    · rintro ⟨hd, hrest⟩
      obtain ⟨u, db₁, h₁⟩ := (bindInts_then (fun _ => returns_write _) db).mpr hd
      obtain ⟨u₂, db₂, h₂⟩ := hreceipt hd db₁
      exact ⟨u, db₁, h₁, bind_returns.mpr ⟨u₂, db₂, h₂, ih.mpr hrest⟩⟩

/-- Storing a block fails on integers that do not fit, and on nothing else. -/
theorem persist_returns {host : Host} {now : Int} {d : BlockDict} {txs : List TxDict} {burned : ℚ} {burnAddress : String}
    {db : Db} : (∃ x db', persistBlockLocked host now d txs burned burnAddress db = (.ok x, db')) ↔
      [d.height, d.timestamp, d.txCount, d.gasUsed].all fitsInt64 = true ∧ ∀ e ∈ txs, e.columns.all fitsInt64 = true := by
  have hrows : ∀ _ : Unit, Act.Returns (do statement (Tables.putBlock d); insertProposerAudit host now d) := fun _ =>
    returns_bind (returns_write _) fun _ => returns_write _
  have hburn : Act.Returns (Act.when (0 < burned) do
      statement (Tables.insertBurnRecord d.height burned)
      Act.when (burnAddress ≠ "") (statement (Tables.applyBalanceDelta burnAddress burned))) :=
    returns_when (returns_bind (returns_write _) fun _ => returns_when (returns_write _))
  unfold persistBlockLocked
  rw [bind_returns]
  constructor
  · rintro ⟨u, db₁, h₁, h₂⟩
    obtain ⟨u₂, db₂, h₃, -⟩ := bind_returns.mp h₂
    exact ⟨(bindInts_then hrows db).mp ⟨u, db₁, h₁⟩, insertTransactions_returns.mp ⟨u₂, db₂, h₃⟩⟩
  · rintro ⟨hd, htxs⟩
    obtain ⟨u, db₁, h₁⟩ := (bindInts_then hrows db).mpr hd
    obtain ⟨u₂, db₂, h₂⟩ := insertTransactions_returns.mpr htxs
    exact ⟨u, db₁, h₁, bind_returns.mpr ⟨u₂, db₂, h₂, ends_of_returns hburn db₂⟩⟩

namespace Blockchain

variable {c : Blockchain} {now : Int} {b : Block} {n : Node}

def Unproposed (b : Block) (n : Node) : Prop :=
  b.miner = "" ∨ b.miner = "genesis" ∨ ∀ e, n.slashing = some e → b.miner ∉ e.slashed ∧ (b.height, b.miner) ∉ e.proposals

theorem checkProposal_returns : (∃ x n', checkProposal now b n = (.ok x, n')) ↔ Unproposed b n := by
  unfold checkProposal Unproposed
  simp only [bind_run, read_run]
  cases hs : n.slashing with
  | none => exact iff_of_true ⟨(), n, rfl⟩ (.inr (.inr (by intro _ he; cases he)))
  | some e =>
    by_cases hm : b.miner = "" ∨ b.miner = "genesis"
    · simp only [if_pos hm]
      exact iff_of_true ⟨(), n, rfl⟩ (hm.imp_right .inl)
    · have hcond : (b.miner = "" ∨ b.miner = "genesis" ∨
          ∀ e', some e = some e' → b.miner ∉ e'.slashed ∧ (b.height, b.miner) ∉ e'.proposals) ↔
          b.miner ∉ e.slashed ∧ (b.height, b.miner) ∉ e.proposals := by
        rw [← or_assoc, or_iff_right hm]
        exact ⟨fun h => h e rfl, fun h e' he => Option.some.inj he ▸ h⟩
      simp only [if_neg hm, hcond, recordProposal]
      by_cases h₁ : b.miner ∈ e.slashed
      · simp only [if_pos h₁, bind_run, pure_run]
        exact iff_of_false (by intro h; obtain ⟨_, _, h⟩ := h; cases h) fun h => h.1 h₁
      · by_cases h₂ : (b.height, b.miner) ∈ e.proposals
        · simp only [if_neg h₁, if_pos h₂, bind_run]
          refine iff_of_false ?_ fun h => h.2 h₂
          rintro ⟨x, n', h⟩
          rcases hr : slash now b.miner .doubleProposal (b.height / 32) e n with ⟨f | u, n₁⟩
          · rw [hr] at h
            cases h
          · rw [hr] at h
            cases h
        · simp only [if_neg h₁, if_neg h₂]
          exact iff_of_true ⟨(), _, rfl⟩ ⟨h₁, h₂⟩

theorem onDb_returns {α : Type} {m : Act Fault Db α} : (∃ x n', onDb m n = (.ok x, n')) ↔ ∃ x db, m n.db = (.ok x, db) := by
  constructor
  · rintro ⟨x, n', h⟩
    obtain ⟨db, hm, -⟩ := onDb_ok.mp h
    exact ⟨x, db, hm⟩
  · rintro ⟨x, db, hm⟩
    exact ⟨x, _, onDb_ok.mpr ⟨db, hm, rfl⟩⟩

theorem columns_stored {preserve : Bool} {height : Int} {proposer : String} {txs : List Transaction} {db db' : Db}
    {root : String} (hb : b.height = height) (h : TxSteps c now height proposer b.transactions db txs db') :
    [(storedBlock b txs root preserve).toDict.height, (storedBlock b txs root preserve).toDict.timestamp,
      ((storedBlock b txs root preserve).toDict.txCount : Int), (storedBlock b txs root preserve).toDict.gasUsed] = b.columns ∧
    (storedBlock b txs root preserve).transactions.map Transaction.toDict = txs.map Transaction.toDict := by
  have htxs : (storedBlock b txs root preserve).transactions = txs := by
    show txs.map (fun tx => { tx with blockHeight := b.height }) = txs
    rw [hb]
    exact h.marked
  refine ⟨?_, by rw [htxs]⟩
  have hcount : (storedBlock b txs root preserve).toDict.txCount = b.txCount := by
    show (storedBlock b txs root preserve).transactions.length = b.transactions.length
    rw [htxs]
    exact h.kept.length_eq.symm
  rw [hcount]
  rfl

/-- The root that came with a peer's block is the computed one, where this is demanded. -/
def Rooted (c : Blockchain) (b : Block) (preserve : Bool) (t : Tables) : Prop :=
  preserve = true → b.stateRoot ≠ "" → c.stateRootCheckMode b.height b.stateRoot preserve = .strict →
    strip b.stateRoot = c.computeStateRoot (c.rewardTables b.miner t)

theorem checkPeerRoot_returns {preserve : Bool} {computed : String} {m : Node}
    (h : preserve = true → b.stateRoot ≠ "" → c.stateRootCheckMode b.height b.stateRoot preserve = .strict →
      strip b.stateRoot = computed) : c.checkPeerRoot b preserve computed m = (.ok (), m) := by
  unfold checkPeerRoot
  by_cases hp : preserve = true ∧ b.stateRoot ≠ ""
  · rw [if_pos hp]
    exact congrFun (if_neg fun hbad => hbad.2 (h hp.1 hp.2 hbad.1)) m
  · rw [if_neg hp]
    rfl

theorem executeBlock_returns {preserve : Bool} : (∃ b' n', c.executeBlock now b preserve n = (.ok b', n')) ↔
    ∃ txs db, c.applyTransactions now b.height b.miner b.transactions n.db = (.ok txs, db) ∧ c.Rooted b preserve db.live ∧
      Unproposed b n ∧ b.columns.all fitsInt64 = true ∧ ∀ tx ∈ txs, tx.toDict.columns.all fitsInt64 = true := by
  constructor
  · rintro ⟨b', n', h⟩
    obtain ⟨txs, db, ha, hroot, -, -⟩ := executeBlock_ok h
    unfold executeBlock at h
    obtain ⟨txs₁, n₁, h₁, k₁⟩ := bind_ok.mp h
    obtain ⟨db₁, ha₁, rfl⟩ := onDb_ok.mp h₁
    obtain ⟨rfl, rfl⟩ : txs = txs₁ ∧ db = db₁ := by
      rw [ha] at ha₁
      cases ha₁
      exact ⟨rfl, rfl⟩
    obtain ⟨_, n₂, h₂, k₂⟩ := bind_ok.mp k₁
    obtain ⟨db₂, -, rfl⟩ := onDb_ok.mp h₂
    obtain ⟨root, n₃, h₃, k₃⟩ := bind_ok.mp k₂
    obtain ⟨db₃, -, rfl⟩ := onDb_ok.mp h₃
    obtain ⟨_, n₄, h₄, k₄⟩ := bind_ok.mp k₃
    obtain ⟨rfl, -⟩ := checkPeerRoot_ok h₄
    obtain ⟨u, n₅, h₅, k₅⟩ := bind_ok.mp k₄
    obtain ⟨u₆, n₆, h₆, -⟩ := bind_ok.mp k₅
    -- what the stored block and its rows bind
    obtain ⟨hcolumns, hdicts⟩ := @columns_stored c now b preserve b.height b.miner txs n.db db root rfl (applyTransactions_ok ha)
    obtain ⟨hblock, htxs⟩ := persist_returns.mp (onDb_returns.mp ⟨u₆, n₆, h₆⟩)
    have hproposer : Unproposed (sealBlock b txs root preserve) { n with db := db₃ } := checkProposal_returns.mp ⟨u, n₅, h₅⟩
    refine ⟨txs, db, ha, hroot, hproposer, hcolumns ▸ hblock, fun tx htx => htxs _ ?_⟩
    exact hdicts ▸ List.mem_map_of_mem htx
  · rintro ⟨txs, db, ha, hroot, hproposer, hblock, htxs⟩
    unfold executeBlock
    rw [bind_returns]
    refine ⟨txs, _, onDb_ok.mpr ⟨db, ha, rfl⟩, bind_returns.mpr ?_⟩
    refine ⟨c.rewardFor db.live, _, onDb_ok.mpr ⟨_, applyBlockReward_run _ _, rfl⟩, bind_returns.mpr ?_⟩
    refine ⟨_, _, onDb_ok.mpr ⟨_, query_run _ _, rfl⟩, bind_returns.mpr ?_⟩
    have hlive := (applyBlockReward_ok (@applyBlockReward_run c b.miner db)).2
    generalize hdb : (if 0 < c.rewardFor db.live then _ else db) = db₂ at hlive ⊢
    refine ⟨(), _, checkPeerRoot_returns fun hp hr hs => ?_, bind_returns.mpr ?_⟩
    · show _ = c.computeStateRoot db₂.live
      rw [hlive]
      exact hroot hp hr hs
    · generalize hcomputed : c.computeStateRoot _ = root
      obtain ⟨u, n₅, h₅⟩ := (@checkProposal_returns now (sealBlock b txs root preserve) { n with db := db₂ }).mpr hproposer
      obtain ⟨hcolumns, hdicts⟩ := @columns_stored c now b preserve b.height b.miner txs n.db db root rfl
        (applyTransactions_ok ha)
      refine ⟨u, n₅, h₅, bind_returns.mpr ?_⟩
      have hrows : ∀ d ∈ (storedBlock b txs root preserve).transactions.map Transaction.toDict,
          d.columns.all fitsInt64 = true := by
        intro d hd
        rw [hdicts] at hd
        obtain ⟨tx, htx, rfl⟩ := List.mem_map.mp hd
        exact htxs tx htx
      obtain ⟨u₆, n₆, h₆⟩ := onDb_returns.mpr ((@persist_returns c.host now (storedBlock b txs root preserve).toDict
        ((storedBlock b txs root preserve).transactions.map Transaction.toDict) (storedBlock b txs root preserve).totalBurned
        (if 0 < (storedBlock b txs root preserve).totalBurned then c.config.burnAddress else "") n₅.db).mpr
          ⟨by rw [hcolumns]; exact hblock, hrows⟩)
      exact ⟨u₆, n₆, h₆, _, _, rfl⟩

/-! ## Entering the transaction -/

theorem addBlock_raised {preserve : Bool} {n₁ : Node} {f : Fault} (hadm : c.admitBlock n b = .ok ()) (hclosed : n.db.pending = none)
    (hbody : c.blockBody now b preserve n = (.error f, n₁)) (hroots : f.roots = none) :
    c.addBlock now b preserve n = (.error f, { n₁ with db := n₁.db.rollback }) := by
  have hbegin : (Node.dbPart.get n).begin? = some n.db.opened := Store.begin_closed hclosed
  have hrun := atomically_raised (P := Node.dbPart) nestedTransaction hbegin hbody
  have haudit : ∀ m : Node, c.auditMismatch now b preserve f m = (.ok (), m) := fun m => by
    unfold auditMismatch
    rw [hroots]
    rfl
  unfold addBlock
  refine (bind_of_ok (read_run _ _)).trans ?_
  refine (bind_of_ok (liftExcept_ok.mpr ⟨hadm, rfl⟩)).trans ?_
  unfold attempt
  rw [hrun]
  exact bind_of_ok (haudit _)

theorem addBlock_accepted {preserve : Bool} {b' : Block} {n₁ : Node} (hadm : c.admitBlock n b = .ok ()) (hclosed : n.db.pending = none)
    (hbody : c.blockBody now b preserve n = (.ok b', n₁)) :
    c.addBlock now b preserve n = (.ok b', { n₁ with db := n₁.db.commit }) := by
  have hbegin : (Node.dbPart.get n).begin? = some n.db.opened := Store.begin_closed hclosed
  have hrun := atomically_returned (P := Node.dbPart) nestedTransaction hbegin hbody
  unfold addBlock
  refine (bind_of_ok (read_run _ _)).trans ?_
  refine (bind_of_ok (liftExcept_ok.mpr ⟨hadm, rfl⟩)).trans ?_
  unfold attempt
  rw [hrun]
  rfl

theorem admitBlock_genesis {d : BlockDict} (hblocks : n.db.live.blocks = Table.empty.put 0 d) (hd : d.height = 0)
    (hheight : b.height = 1) (hparent : b.parentHash = d.hash)
    (hproposer : c.verifyBlockProposer n.db.live n.slashing b = .ok ())
    (hsigned : verifyBlockTxSignatures c.host c.config b.transactions = .ok ()) : c.admitBlock n b = .ok () := by
  have hfits : fitsInt64 b.height = true := by
    rw [hheight]
    decide
  have hfree : n.db.live.getBlock b.height = none := by
    unfold Tables.getBlock
    rw [hblocks, hheight]
    rfl
  have hlast : n.db.live.getLastBlock = some d := by
    unfold Tables.getLastBlock
    rw [hblocks]
    rfl
  have hstructure : validateBlockStructure n.db.live b = .ok () := by
    unfold validateBlockStructure
    simp only [hlast]
    rw [if_neg (not_not.mpr (by rw [hheight, hd]; rfl)), if_neg (not_not.mpr hparent)]
  simp only [admitBlock, check_bind_ok, require_ok, decide_eq_true_eq]
  exact ⟨hfits, hfree, hstructure, hproposer, hsigned⟩

end Blockchain

end AbsoluteChain
