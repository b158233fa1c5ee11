import AbsoluteChain.Linkage

/-!
# Synchronisation with a peer

`_sync_with_peer` and `_reconcile_fork_at_peer` of the P2P node: blocks are asked for,
imported one by one, and a block that does not fit may first roll the own chain back.
-/

namespace AbsoluteChain

open Python Actions Act Transactions KeyedTable

def Tables.getBlockByHash (t : Tables) (hash : String) : Option BlockDict :=
  (t.blocks.rows.find? fun e => decide (e.2.hash = hash)).map Prod.snd

def Tables.head (t : Tables) : String := (t.getLastBlock.map BlockDict.hash).getD ""

def Tables.findAncestorHeight (t : Tables) (parentHash : String) : Option Int :=
  if parentHash = "" ∨ parentHash = genesisHash then some 0 else (t.getBlockByHash parentHash).map BlockDict.height

/-- What the node holds of a connected peer: the height and the head it last reported. -/
structure PeerConnection where
  height : Int
  head : String
  deriving DecidableEq

/-- What a synchronisation meets outside the node, as functions of a state `σ` of their own. An
answer is `none` when it does not come in time or has another type; an item of a list of blocks is
`none` when it is no dictionary. -/
structure World (σ : Type) where
  getBlocks : Int → Int → σ → Option (List (Option PeerBlock)) × σ
  getBlockByHash : String → σ → Option PeerBlock × σ
  /-- The status messages of the peer handled while the node waits. -/
  status : σ → PeerConnection → PeerConnection
  running : σ → Bool
  now : σ → Int
  /-- `get_finalized_floor_height()`. -/
  floor : σ → Int

structure SyncState (σ : Type) where
  node : Node
  peer : PeerConnection
  world : σ
  calls : List Blockchain.Call

namespace SyncState

variable {σ : Type} (c : Blockchain) (w : World σ)

def tip (s : SyncState σ) : Int := s.node.db.live.getChainTip

def askBlocks (first last : Int) (s : SyncState σ) : Option (List (Option PeerBlock)) × SyncState σ :=
  let r := w.getBlocks first last s.world
  (r.1, { s with world := r.2, peer := w.status r.2 s.peer })

def askBlockByHash (hash : String) (s : SyncState σ) : Option PeerBlock × SyncState σ :=
  let r := w.getBlockByHash hash s.world
  (r.1, { s with world := r.2, peer := w.status r.2 s.peer })

def importBlock (d : PeerBlock) (s : SyncState σ) : Bool × SyncState σ :=
  let now := w.now s.world
  let r := c.importBlock now d s.node
  (r.1.isOk, { s with node := r.2, calls := s.calls ++ [.importBlock now d] })

def reorgToAncestor (height : Int) (s : SyncState σ) : Bool × SyncState σ :=
  let now := w.now s.world
  let floor := w.floor s.world
  let r := onDb (c.reorgToAncestor now floor height) s.node
  (r.1.isOk, { s with node := r.2, calls := s.calls ++ [.reorgToAncestor now floor height] })

def raises (d : PeerBlock) : Bool :=
  let n := Blockchain.normalizeBlockDict d
  !fitsInt64 (field n.height n.number 0)

/-- The loop over the blocks of one answer. It leaves the next height to ask for and whether a block
was imported; `none` stands for the `return` of the handler of exceptions. -/
def importBatch : List (Option PeerBlock) → Int → Bool → SyncState σ → Option (Int × Bool) × SyncState σ
  | [], current, importedAny, s => (some (current, importedAny), s)
  | none :: _, _, _, s => (none, s)
  | some d :: rest, current, importedAny, s =>
    if raises d then (none, s)
    else
      match s.importBlock c w d with
      | (true, s₁) => importBatch rest (field d.height d.number current + 1) true s₁
      | (false, s₁) =>
        match s₁.node.db.live.findAncestorHeight (d.parentHash.getD "") with
        | none => (some (current, importedAny), s₁)
        | some ancestor =>
          if ancestor < s₁.tip then
            match s₁.reorgToAncestor c w ancestor with
            | (true, s₂) => (some (ancestor + 1, importedAny), s₂)
            | (false, s₂) => (some (current, importedAny), s₂)
          else (some (current, importedAny), s₁)

variable (batchSize : Int)

def syncLoop : Nat → Int → SyncState σ → Option (SyncState σ)
  | 0, _, _ => none
  | fuel + 1, current, s =>
    if current ≤ s.peer.height ∧ w.running s.world then
      match s.askBlocks w current (min (current + batchSize - 1) s.peer.height) with
      | (none, s₁) => some s₁
      | (some [], s₁) => some s₁
      | (some blocks, s₁) =>
        match importBatch c w blocks current false s₁ with
        | (none, s₂) => some s₂
        | (some (current', true), s₂) =>
          syncLoop fuel current' { s₂ with peer := { s₂.peer with height := max s₂.peer.height s₂.tip } }
        | (some (_, false), s₂) => some s₂
    else some s

def finishReconcile (safe : SyncState σ → Option (SyncState σ)) (peerHead : String) :
    Option PeerBlock × SyncState σ → Option (Except Fault Bool × SyncState σ)
  | (none, s) => some (.ok false, s)
  | (some d, s) =>
    let blockH := field d.height d.number s.peer.height
    match s.node.db.live.findAncestorHeight (d.parentHash.getD "") with
    | none => some (.ok false, s)
    | some ancestor =>
      match s.reorgToAncestor c w (min ancestor (blockH - 1)) with
      | (false, s₁) => some (.ok false, s₁)
      | (true, s₁) =>
        if raises d then some (.error "Python int too large to convert to SQLite INTEGER", s₁)
        else
          match s₁.importBlock c w d with
          | (false, s₂) => some (.ok false, s₂)
          | (true, s₂) =>
            let s₃ := { s₂ with peer := { height := blockH, head := d.hash.getD peerHead } }
            if s₃.tip < blockH then (safe s₃).map fun s₄ => (.ok true, s₄) else some (.ok true, s₃)

def reconcileWith (safe : SyncState σ → Option (SyncState σ)) (s : SyncState σ) :
    Option (Except Fault Bool × SyncState σ) :=
  if s.peer.head = "" ∨ s.peer.head = s.node.db.live.head then some (.ok true, s)
  else finishReconcile c w safe s.peer.head (s.askBlockByHash w s.peer.head)

/-- `_sync_with_peer`. It holds the lock of the peer, so that the synchronisation a reconciliation
asks for in turn returns at once. -/
def syncWithPeer (fuel : Nat) (s : SyncState σ) : Option (SyncState σ) :=
  let ourHeight := s.tip
  if s.peer.height < ourHeight then some s
  else if s.peer.height = ourHeight then
    if s.peer.head ≠ "" ∧ s.node.db.live.head ≠ s.peer.head then (reconcileWith c w some s).map Prod.snd
    else some s
  else syncLoop c w batchSize fuel (if ourHeight = 0 then 0 else ourHeight + 1) s

def reconcileForkAtPeer (locked : Bool) (fuel : Nat) (s : SyncState σ) : Option (Except Fault Bool × SyncState σ) :=
  reconcileWith c w (if locked then some else syncWithPeer c w batchSize fuel) s

/-! ## The calls on the chain -/

def OnPeerBlocks : Blockchain.Call → Prop
  | .addBlock .. => False
  | _ => True

def Follows (s s' : SyncState σ) : Prop :=
  ∃ log, (∀ call ∈ log, OnPeerBlocks call) ∧ s'.calls = s.calls ++ log ∧ s'.node = Blockchain.runCalls c log s.node

variable {c w batchSize}

namespace Follows

theorem refl (s : SyncState σ) : Follows c s s := ⟨[], List.forall_mem_nil _, (List.append_nil _).symm, rfl⟩

/-- What is kept besides the node does not matter. -/
theorem same {s s' : SyncState σ} (hn : s'.node = s.node) (hc : s'.calls = s.calls) : Follows c s s' :=
  ⟨[], List.forall_mem_nil _, by rw [hc, List.append_nil], hn⟩

theorem trans {s₁ s₂ s₃ : SyncState σ} (h₁ : Follows c s₁ s₂) (h₂ : Follows c s₂ s₃) : Follows c s₁ s₃ := by
  obtain ⟨l₁, hp₁, hc₁, hn₁⟩ := h₁
  obtain ⟨l₂, hp₂, hc₂, hn₂⟩ := h₂
  refine ⟨l₁ ++ l₂, List.forall_mem_append.mpr ⟨hp₁, hp₂⟩, ?_, ?_⟩
  · rw [hc₂, hc₁, List.append_assoc]
  · rw [hn₂, hn₁]
    exact (List.foldl_append ..).symm

end Follows

theorem Follows.one {s s' : SyncState σ} {call : Blockchain.Call} (hp : OnPeerBlocks call) (hc : s'.calls = s.calls ++ [call])
    (hn : s'.node = call.run c s.node) : Follows c s s' :=
  ⟨[call], fun _ h => by rwa [List.mem_singleton.mp h], hc, hn⟩

theorem follows_import (d : PeerBlock) (s : SyncState σ) : Follows c s (s.importBlock c w d).2 :=
  @Follows.one _ _ _ _ (.importBlock (w.now s.world) d) trivial rfl rfl

theorem follows_reorg (height : Int) (s : SyncState σ) : Follows c s (s.reorgToAncestor c w height).2 :=
  @Follows.one _ _ _ _ (.reorgToAncestor (w.now s.world) (w.floor s.world) height) trivial rfl rfl

theorem follows_askBlocks (first last : Int) (s : SyncState σ) : Follows c s (s.askBlocks w first last).2 := .same rfl rfl

theorem follows_askBlockByHash (hash : String) (s : SyncState σ) : Follows c s (s.askBlockByHash w hash).2 :=
  .same rfl rfl

theorem follows_importBatch (blocks : List (Option PeerBlock)) (current : Int) (importedAny : Bool) (s : SyncState σ) :
    Follows c s (importBatch c w blocks current importedAny s).2 := by
  induction blocks generalizing current importedAny s with
  | nil => exact .refl s
  | cons item rest ih =>
    cases item with
    | none => exact .refl s
    | some d =>
      unfold importBatch
      by_cases hraises : raises d = true
      · rw [if_pos hraises]
        exact .refl s
      · rw [if_neg hraises]
        have h₁ : Follows c s (s.importBlock c w d).2 := follows_import d s
        rcases hr : s.importBlock c w d with ⟨_ | _, s₁⟩
        · rw [hr] at h₁
          refine .trans h₁ ?_
          dsimp only
          cases s₁.node.db.live.findAncestorHeight (d.parentHash.getD "") with
          | none => exact .refl s₁
          | some ancestor =>
            dsimp only
            by_cases hbelow : ancestor < s₁.tip
            · rw [if_pos hbelow]
              have h₂ : Follows c s₁ (s₁.reorgToAncestor c w ancestor).2 := follows_reorg ancestor s₁
              rcases hr₂ : s₁.reorgToAncestor c w ancestor with ⟨_ | _, s₂⟩
              · rw [hr₂] at h₂
                exact h₂
              · rw [hr₂] at h₂
                exact h₂
            · rw [if_neg hbelow]
              exact .refl s₁
        · rw [hr] at h₁
          exact .trans h₁ (ih _ _ s₁)

theorem follows_syncLoop {fuel : Nat} {current : Int} {s s' : SyncState σ}
    (h : syncLoop c w batchSize fuel current s = some s') : Follows c s s' := by
  induction fuel generalizing current s with
  | zero => cases h
  | succ fuel ih =>
    unfold syncLoop at h
    by_cases hgo : current ≤ s.peer.height ∧ w.running s.world = true
    · rw [if_pos hgo] at h
      have h₁ : Follows c s (s.askBlocks w current (min (current + batchSize - 1) s.peer.height)).2 :=
        follows_askBlocks _ _ s
      rcases hr : s.askBlocks w current (min (current + batchSize - 1) s.peer.height) with ⟨_ | blocks, s₁⟩
      all_goals rw [hr] at h h₁
      · cases h
        exact h₁
      · cases blocks with
        | nil =>
          cases h
          exact h₁
        | cons item rest =>
          dsimp only at h
          have h₂ : Follows c s₁ (importBatch c w (item :: rest) current false s₁).2 := follows_importBatch _ _ _ s₁
          rcases hb : importBatch c w (item :: rest) current false s₁ with ⟨_ | ⟨current', _ | _⟩, s₂⟩
          all_goals rw [hb] at h h₂
          · cases h
            exact h₁.trans h₂
          · cases h
            exact h₁.trans h₂
          · refine Follows.trans ?_ (ih h)
            exact (h₁.trans h₂).trans (.same rfl rfl)
    · rw [if_neg hgo] at h
      cases h
      exact .refl _

theorem follows_finishReconcile {safe : SyncState σ → Option (SyncState σ)}
    (hsafe : ∀ {s s'}, safe s = some s' → Follows c s s') {peerHead : String} {answer : Option PeerBlock}
    {s s' : SyncState σ} {r : Except Fault Bool} (h : finishReconcile c w safe peerHead (answer, s) = some (r, s')) :
    Follows c s s' := by
  cases answer with
  | none =>
    cases h
    exact .refl _
  | some d =>
    unfold finishReconcile at h
    dsimp only at h
    cases ha : s.node.db.live.findAncestorHeight (d.parentHash.getD "") with
    | none =>
      rw [ha] at h
      cases h
      exact .refl _
    | some ancestor =>
      rw [ha] at h
      dsimp only at h
      have h₁ := follows_reorg (c := c) (w := w) (min ancestor (field d.height d.number s.peer.height - 1)) s
      rcases hr : s.reorgToAncestor c w (min ancestor (field d.height d.number s.peer.height - 1)) with ⟨_ | _, s₁⟩
      all_goals rw [hr] at h h₁
      · cases h
        exact h₁
      · dsimp only at h
        by_cases hraises : raises d = true
        · rw [if_pos hraises] at h
          cases h
          exact h₁
        · rw [if_neg hraises] at h
          have h₂ := follows_import (c := c) (w := w) d s₁
          rcases hi : s₁.importBlock c w d with ⟨_ | _, s₂⟩
          all_goals rw [hi] at h h₂
          · cases h
            exact h₁.trans h₂
          · dsimp only at h
            split at h
            · obtain ⟨s₄, hs₄, he⟩ := Option.map_eq_some_iff.mp h
              cases he
              refine Follows.trans ?_ (hsafe hs₄)
              exact (h₁.trans h₂).trans (.same rfl rfl)
            · cases h
              exact (h₁.trans h₂).trans (.same rfl rfl)

theorem follows_reconcileWith {safe : SyncState σ → Option (SyncState σ)}
    (hsafe : ∀ {s s'}, safe s = some s' → Follows c s s') {s s' : SyncState σ} {r : Except Fault Bool}
    (h : reconcileWith c w safe s = some (r, s')) : Follows c s s' := by
  unfold reconcileWith at h
  by_cases hsame : s.peer.head = "" ∨ s.peer.head = s.node.db.live.head
  · rw [if_pos hsame] at h
    cases h
    exact .refl _
  · rw [if_neg hsame] at h
    exact (follows_askBlockByHash _ s).trans (follows_finishReconcile hsafe h)

theorem follows_syncWithPeer {fuel : Nat} {s s' : SyncState σ} (h : syncWithPeer c w batchSize fuel s = some s') :
    Follows c s s' := by
  unfold syncWithPeer at h
  dsimp only at h
  by_cases hlow : s.peer.height < s.tip
  · rw [if_pos hlow] at h
    cases h
    exact .refl _
  · rw [if_neg hlow] at h
    by_cases hlevel : s.peer.height = s.tip
    · rw [if_pos hlevel] at h
      by_cases hfork : s.peer.head ≠ "" ∧ s.node.db.live.head ≠ s.peer.head
      · rw [if_pos hfork] at h
        obtain ⟨⟨r, s''⟩, hr, rfl⟩ := Option.map_eq_some_iff.mp h
        refine follows_reconcileWith (fun hs => ?_) hr
        cases hs
        exact .refl _
      · rw [if_neg hfork] at h
        cases h
        exact .refl _
    · rw [if_neg hlevel] at h
      exact follows_syncLoop h

theorem follows_reconcile {locked : Bool} {fuel : Nat} {s s' : SyncState σ} {r : Except Fault Bool}
    (h : reconcileForkAtPeer c w batchSize locked fuel s = some (r, s')) : Follows c s s' := by
  refine follows_reconcileWith (fun hs => ?_) h
  cases locked with
  | true =>
    cases hs
    exact .refl _
  | false => exact follows_syncWithPeer hs

end SyncState

end AbsoluteChain
