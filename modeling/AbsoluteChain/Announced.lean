import AbsoluteChain.Mempool
import AbsoluteChain.OwnBlocks
import AbsoluteChain.SyncLoss

/-!
# Announced blocks

`_handle_new_block` of the P2P node. The transactions of an announced block leave the pool
after `validate_block`, which looks at the place of the block, its hash and its proposer
only, and before `import_block`, which may still refuse it.
-/

namespace AbsoluteChain

open Python Actions Act Transactions KeyedTable

/-! ## The pool -/

namespace Mempool

end Mempool

/-! ## Imports at a free height -/

namespace Blockchain

variable {c : Blockchain} {now : Int} {n : Node} {d : PeerBlock}

theorem fromDict_normalize (host : Host) : Block.fromDict host now (normalizeBlockDict d) = Block.fromDict host now d := by
  have hfill : ∀ {α : Type} (key other : Option α) (x : α), field (fill key other) other x = field key other x := by
    intro α key other x
    cases key with
    | none => cases other <;> rfl
    | some _ => rfl
  have htx : ∀ tx : PeerTx, Transaction.fromDict host now (normalizeTxDict tx) = Transaction.fromDict host now tx := by
    intro tx
    simp only [Transaction.fromDict, normalizeTxDict, hfill]
  have htxs : ∀ txs : List PeerTx, (txs.map normalizeTxDict).map (Transaction.fromDict host now) =
      txs.map (Transaction.fromDict host now) := by
    intro txs
    rw [List.map_map]
    exact List.map_congr_left fun tx _ => htx tx
  simp only [Block.fromDict, normalizeBlockDict, hfill, Option.getD_some, htxs]

theorem height_normalize (host : Host) :
    field (normalizeBlockDict d).height (normalizeBlockDict d).number 0 = (Block.fromDict host now d).height :=
  congrArg Block.height (@fromDict_normalize now d host)

/-- When a block at a free height is imported: the checks on its dictionary, on its place and on its
proposer hold, each of its transactions passes at its turn, its integers fit, and the root it
brings is the one its execution leads to. -/
structure Importable (c : Blockchain) (now : Int) (d : PeerBlock) (n : Node) : Prop where
  checked : blockValidator now (normalizeBlockDict d) n.db.live.getLastBlock = .ok ()
  admitted : c.admitBlock n (Block.fromDict c.host now d) = .ok ()
  closed : n.db.pending = none
  executed : c.Producible now (Block.fromDict c.host now d) n
  rooted : ∀ txs db, c.applyTransactions now (Block.fromDict c.host now d).height (Block.fromDict c.host now d).miner
    (Block.fromDict c.host now d).transactions n.db.opened = (.ok txs, db) →
      c.Rooted (Block.fromDict c.host now d) true db.live

theorem importFresh_returns : (∃ b' n', c.importFresh now (normalizeBlockDict d) n = (.ok b', n')) ↔ c.Importable now d n := by
  have hentry : (∃ b' n', c.importFresh now (normalizeBlockDict d) n = (.ok b', n')) ↔
      blockValidator now (normalizeBlockDict d) n.db.live.getLastBlock = .ok () ∧
        ∃ b' n', c.addBlock now (Block.fromDict c.host now d) true n = (.ok b', n') := by
    constructor
    · rintro ⟨b', n', h⟩
      obtain ⟨hv, ha⟩ := importFresh_ok h
      rw [fromDict_normalize] at ha
      exact ⟨hv, b', n', ha⟩
    · rintro ⟨hv, b', n', ha⟩
      refine ⟨b', n', ?_⟩
      unfold importFresh
      simp only [bind_run, onDb_run, query_run]
      rw [← @fromDict_normalize now d c.host] at ha
      exact liftExcept_bind_ok.mpr ⟨(), hv, ha⟩
  rw [hentry, addBlock_returns]
  unfold blockBody
  rw [executeBlock_returns]
  constructor
  · rintro ⟨hv, hadm, hclosed, txs, db, hrun, hroot, hproposer, hcolumns, hfits⟩
    refine ⟨hv, hadm, hclosed, ⟨hcolumns, hproposer, ?_⟩, fun txs' db' hrun' => ?_⟩
    · exact (applyTransactions_returns (admitBlock_ok hadm).fits).mp ⟨txs, db, hrun, hfits⟩
    · rw [hrun] at hrun'
      cases hrun'
      exact hroot
  · intro h
    obtain ⟨txs, db, hrun, hfits⟩ := (applyTransactions_returns (admitBlock_ok h.admitted).fits).mpr h.executed.transactions
    exact ⟨h.checked, h.admitted, h.closed, txs, db, hrun, h.rooted txs db hrun, h.executed.proposer, h.executed.columns, hfits⟩

theorem importBlock_free (hfits : fitsInt64 (Block.fromDict c.host now d).height = true)
    (hfree : n.db.live.getBlock (Block.fromDict c.host now d).height = none) :
    c.importBlock now d n = c.importFresh now (normalizeBlockDict d) n := by
  rw [← height_normalize] at hfits hfree
  unfold importBlock
  simp only [bind_run, onDb_run, query_run, liftExcept, require, if_pos hfits, hfree]

end Blockchain

/-! ## The handler -/

def Stored (b : Block) (n : Node) : Prop := (n.db.live.getBlock b.height).map BlockDict.hash = some b.hash

instance (b : Block) (n : Node) : Decidable (Stored b n) := inferInstanceAs (Decidable (_ = _))

/-- A node's synchronisation with the announcing peer, and its pool. -/
structure Listener (σ : Type) where
  sync : SyncState σ
  mempool : Mempool

variable {σ : Type}

/-- What the announcement says about its sender. -/
def SyncState.reported (d : PeerBlock) (s : SyncState σ) : SyncState σ :=
  { s with peer :=
      { height := max s.peer.height (field d.height d.number 0)
        head := orElse (d.hash.getD "") s.peer.head } }

def announced (c : Blockchain) (w : World σ) (d : PeerBlock) (l : Listener σ) : Block :=
  Block.fromDict c.host (w.now l.sync.world) d

section
variable (c : Blockchain) (w : World σ) (batchSize : Int)

end

/-- The block leads the pool and the chain to agree: it is not there yet and no reconciliation brings it
in, and where it is tried, the import takes it. -/
structure Clean (c : Blockchain) (w : World σ) (batchSize : Int) (locked : Bool) (fuel : Nat) (d : PeerBlock)
    (l : Listener σ) : Prop where
  new : ¬ Stored (announced c w d l) l.sync.node
  forked : fitsInt64 (announced c w d l).height = true → (l.sync.node.db.live.getBlock (announced c w d l).height).isSome = true →
    ∀ r s, (l.sync.reported d).reconcileForkAtPeer c w batchSize locked fuel = some (r, s) → ¬ Stored (announced c w d l) s.node
  imported : fitsInt64 (announced c w d l).height = true → l.sync.node.db.live.getBlock (announced c w d l).height = none →
    (announced c w d l).height ≤ l.sync.tip + 1 →
      c.validateBlock l.sync.node.db.live l.sync.node.slashing (announced c w d l) = .ok () →
        c.Importable (w.now l.sync.world) d l.sync.node

section
variable {c : Blockchain} {w : World σ} {batchSize : Int} {locked : Bool} {fuel : Nat} {d : PeerBlock} {l l' : Listener σ}
  {r : Except Fault Unit}

theorem hash_ne_empty {t : Tables} {slashing : Option SlashingEngine} {b : Block}
    (h : c.validateBlock t slashing b = .ok ()) : b.hash ≠ "" := by
  simp only [Blockchain.validateBlock, check_bind_ok, require_ok, decide_eq_true_eq] at h
  obtain ⟨-, hhash, -⟩ := h
  intro he
  have hlen := Blockchain.computeHash_length b
  rw [← hhash, he] at hlen
  cases hlen

end

end AbsoluteChain
