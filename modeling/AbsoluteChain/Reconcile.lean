import AbsoluteChain.CatchUp
import AbsoluteChain.Runs

/-!
# Two nodes that reconcile with each other

Both hold a chain of the same height and each asks the other for its head. What happens
between a request and its answer is split at the points where `_reconcile_fork_at_peer`
waits, and the two exchanges interleave freely.
-/

namespace AbsoluteChain

open Python Actions Act Transactions KeyedTable SyncState

inductive ReconcilePhase where
  | idle
  | asked (peerHead : String)
  | answered (peerHead : String) (block : Option PeerBlock)
  | done
  deriving DecidableEq

structure Party where
  node : Node
  peer : PeerConnection
  phase : ReconcilePhase

/-- What happens to one of the two nodes. -/
inductive Delivery (σ : Type) where
  /-- A status message of the other node is handled. -/
  | status
  | start
  /-- The other node handles the request. -/
  | answer
  /-- The answer is handled, with the clock and the finalised floor of that moment. -/
  | finish (world : σ)

abbrev Event (σ : Type) := Bool × Delivery σ

abbrev Pair := Bool → Party

namespace Party

variable {σ : Type}

def deliver (c : Blockchain) (w : World σ) (safe : SyncState σ → Option (SyncState σ)) : Delivery σ → Party → Party → Party
  | .status, own, other =>
    { own with peer := { height := other.node.db.live.getChainTip, head := other.node.db.live.head } }
  | .start, own, _ =>
    match own.phase with
    | .idle =>
      if own.peer.head = "" ∨ own.peer.head = own.node.db.live.head then { own with phase := .done }
      else { own with phase := .asked own.peer.head }
    | _ => own
  | .answer, own, other =>
    match own.phase with
    | .asked head => { own with phase := .answered head ((other.node.db.live.getBlockByHash head).map BlockDict.asPeer) }
    | _ => own
  | .finish world, own, _ =>
    match own.phase with
    | .answered head block =>
      match SyncState.finishReconcile c w safe head (block, { node := own.node, peer := own.peer, world, calls := [] }) with
      | some (_, s) => { node := s.node, peer := s.peer, phase := .done }
      | none => own
    | _ => own

/-- The answer is here and has not been handled. -/
def HoldsBlock (q : Party) : Prop := ∃ peerHead d, q.phase = .answered peerHead (some d)

end Party

namespace Pair

variable {σ : Type} (c : Bool → Blockchain) (w : Bool → World σ) (safe : Bool → SyncState σ → Option (SyncState σ))

def step (e : Event σ) (p : Pair) : Pair :=
  Function.update p e.1 ((p e.1).deliver (c e.1) (w e.1) (safe e.1) e.2 (p (!e.1)))

def run (events : List (Event σ)) (p : Pair) : Pair := Runs.run (step c w safe) events p

def head (p : Pair) (i : Bool) : String := (p i).node.db.live.head

def Crossed (p : Pair) : Prop := ∀ i, (p i).HoldsBlock

def meet (node : Bool → Node) : Pair := fun i =>
  { node := node i, peer := { height := (node (!i)).db.live.getChainTip, head := (node (!i)).db.live.head }, phase := .idle }

variable {c w safe}

theorem step_own (e : Event σ) (p : Pair) :
    step c w safe e p e.1 = (p e.1).deliver (c e.1) (w e.1) (safe e.1) e.2 (p (!e.1)) := Function.update_self ..

theorem step_other (e : Event σ) (p : Pair) : step c w safe e p (!e.1) = p (!e.1) := Function.update_of_ne (by simp) ..

theorem turn_reconciles {i : Bool} {p : Pair} {st : σ} (hidle : (p i).phase = .idle)
    (hanswer : ∀ hash, (w i).getBlockByHash hash st = (((p (!i)).node.db.live.getBlockByHash hash).map BlockDict.asPeer, st))
    (hstatus : ∀ q, (w i).status st q = q) {r : Except Fault Bool} {s : SyncState σ}
    (h : reconcileWith (c i) (w i) (safe i) ⟨(p i).node, (p i).peer, st, []⟩ = some (r, s)) :
    (run c w safe [(i, .start), (i, .answer), (i, .finish st)] p i).node = s.node := by
  let p₁ := step c w safe (i, .start) p
  let p₂ := step c w safe (i, .answer) p₁
  have h₁ : p₁ i = (p i).deliver (c i) (w i) (safe i) .start (p (!i)) := step_own (i, .start) p
  have h₂ : p₂ i = (p₁ i).deliver (c i) (w i) (safe i) .answer (p₁ (!i)) := step_own (i, .answer) p₁
  have hother : p₁ (!i) = p (!i) := step_other (i, .start) p
  have hrun : run c w safe [(i, .start), (i, .answer), (i, .finish st)] p i =
      (p₂ i).deliver (c i) (w i) (safe i) (.finish st) (p₂ (!i)) := step_own (i, .finish st) p₂
  rw [hrun, h₂, h₁, hother]
  unfold reconcileWith at h
  by_cases hsame : (p i).peer.head = "" ∨ (p i).peer.head = (p i).node.db.live.head
  · rw [if_pos hsame] at h
    cases h
    simp only [Party.deliver, hidle, if_pos hsame]
  · rw [if_neg hsame] at h
    simp only [askBlockByHash, hanswer, hstatus] at h
    simp only [Party.deliver, hidle, if_neg hsame, h]

end Pair

/-- Two chains of height `h` that parted above `base`. If they parted at the last block, each node can
replay its chain up to there and accept the other's head on top of it. -/
structure Opposed {σ : Type} (c : Bool → Blockchain) (w : Bool → World σ) (node : Bool → Node) (base h : Int) : Prop where
  closed : ∀ i, (node i).db.pending = none
  linked : ∀ i, Linked (node i).db.live
  hashed : ∀ i, Hashed (node i).db.live
  level : ∀ i, (node i).db.live.getChainTip = h
  forked : ∀ i, Forked (node i).db.live (node (!i)).db.live base
  parted : base < h
  valid : base = h - 1 → ∀ i st d, (node (!i)).db.live.getBlock h = some d →
    ∃ db b n', (c i).reorgToAncestor ((w i).now st) ((w i).floor st) base (node i).db = (.ok (), db) ∧
      (c i).importBlock ((w i).now st) d.asPeer { node i with db := db } = (.ok b, n')

theorem getBlockByHash_linked {t : Tables} (hl : Linked t) {k : Int} {d : BlockDict} (hd : t.getBlock k = some d) :
    t.getBlockByHash d.hash = some d := by
  cases he : t.getBlockByHash d.hash with
  | none =>
    unfold Tables.getBlockByHash at he
    have hnone := List.find?_eq_none.mp (Option.map_eq_none_iff.mp he)
    exact absurd (by simp) (hnone (k, d) ((Table.mem_rows_iff _ _ _).mpr hd))
  | some e =>
    obtain ⟨j, hj, hhash⟩ := getBlockByHash_some he
    have hjk := hl.distinct hj hd hhash
    rw [hjk, hd] at hj
    exact hj.symm

theorem head_linked {t : Tables} (hl : Linked t) {d : BlockDict} (hd : t.getBlock t.getChainTip = some d) : t.head = d.hash := by
  unfold Tables.head
  rw [hl.last, hd]
  rfl

namespace Opposed

variable {σ : Type} {c : Bool → Blockchain} {w : Bool → World σ} {safe : Bool → SyncState σ → Option (SyncState σ)}
  {node : Bool → Node} {base h : Int} (o : Opposed c w node base h)

include o

/-! ## One reconciliation -/

theorem heads : ∃ d : Bool → BlockDict, ∀ i, (node i).db.live.getBlock h = some (d i) := by
  refine Classical.axiomOfChoice fun i => Option.isSome_iff_exists.mp (((o.linked i).heights h).mpr ⟨?_, ?_⟩)
  · have := (o.linked i).tip_nonneg
    rw [o.level] at this
    exact this
  · exact (o.level i).ge

omit o in
structure Adopted (h : Int) (n m : Node) (e : BlockDict) : Prop where
  linked : Linked m.db.live
  tip : m.db.live.getChainTip = h
  top : (m.db.live.getBlock h).map BlockDict.hash = some e.hash
  below : ∀ k, k < h → m.db.live.getBlock k = n.db.live.getBlock k

variable {d : Bool → BlockDict} (hd : ∀ i, (node i).db.live.getBlock h = some (d i))

include hd

theorem head_original (i : Bool) : (node i).db.live.head = (d i).hash := by
  refine head_linked (o.linked i) ?_
  rw [o.level]
  exact hd i

theorem apart (i : Bool) : (d i).hash ≠ (d (!i)).hash := (o.forked i).apart h h _ _ o.parted (hd i) (hd (!i))

omit o hd in
theorem head_adopted {n m : Node} {e : BlockDict} (ha : Adopted h n m e) : m.db.live.head = e.hash := by
  obtain ⟨e', he', hhash⟩ := Option.map_eq_some_iff.mp ha.top
  rw [head_linked ha.linked (by rw [ha.tip]; exact he'), hhash]

/-- A node that has taken the other's head over no longer has its own. -/
theorem lookup_adopted {i : Bool} {m : Node} (ha : Adopted h (node i) m (d (!i))) :
    m.db.live.getBlockByHash (d i).hash = none := by
  refine getBlockByHash_none fun k e he hhash => ?_
  have hle := ((ha.linked.heights k).mp (by rw [he]; rfl)).2
  rw [ha.tip] at hle
  by_cases hk : k = h
  · have htop := ha.top
    rw [← hk, he, Option.map_some] at htop
    have he' : e.hash = (d (!i)).hash := Option.some.inj htop
    exact o.apart hd i (hhash.symm.trans he')
  · rw [ha.below k (by omega)] at he
    have := (o.linked i).distinct he (hd i) hhash
    exact hk this

theorem lookup_original (i : Bool) : (node i).db.live.getBlockByHash (d i).hash = some (d i) :=
  getBlockByHash_linked (o.linked i) (hd i)

theorem parent_below (i : Bool) : ∃ p, (node (!i)).db.live.getBlock (h - 1) = some p ∧ (d (!i)).parentHash = p.hash ∧
    p.hash ≠ "" ∧ p.hash ≠ genesisHash := by
  obtain ⟨p, hp⟩ := Option.isSome_iff_exists.mp (((o.linked (!i)).heights (h - 1)).mpr
    ⟨by have := (o.forked i).nonneg; have := o.parted; omega, by rw [o.level]; omega⟩)
  have hparent := (o.linked (!i)).parents (h := h - 1) (by rw [sub_add_cancel]; exact hd (!i)) hp
  exact ⟨p, hp, hparent, o.hashed (!i) _ _ hp⟩

theorem ancestor_found (hbase : base = h - 1) (i : Bool) :
    (node i).db.live.findAncestorHeight (d (!i)).parentHash = some base := by
  obtain ⟨p, hp, hparent, hne, hng⟩ := o.parent_below hd i
  have hcommon := (o.forked i).common base (le_refl _)
  rw [hbase, hp, Option.map_some] at hcommon
  obtain ⟨q, hq, hhash⟩ := Option.map_eq_some_iff.mp hcommon
  unfold Tables.findAncestorHeight
  rw [hparent, if_neg (not_or.mpr ⟨hne, hng⟩), ← hhash, getBlockByHash_linked (o.linked i) hq, Option.map_some,
    (o.linked i).keyed hq, hbase]

theorem ancestor_missing (hdeep : base < h - 1) (i : Bool) : (node i).db.live.findAncestorHeight (d (!i)).parentHash = none := by
  obtain ⟨p, hp, hparent, hne, hng⟩ := o.parent_below hd i
  unfold Tables.findAncestorHeight
  rw [hparent, if_neg (not_or.mpr ⟨hne, hng⟩), getBlockByHash_none fun k e he => (o.forked i).apart k _ e p hdeep he hp]
  rfl

/-- The node rolls its last block back and takes the other's head over. -/
theorem finish_adopts (hbase : base = h - 1) (i : Bool) (peerHead : String) (peer : PeerConnection) (st : σ) :
    ∃ s, SyncState.finishReconcile (c i) (w i) (safe i) peerHead
        (some (d (!i)).asPeer, { node := node i, peer := peer, world := st, calls := [] }) = some (.ok true, s) ∧
      Adopted h (node i) s.node (d (!i)) := by
  obtain ⟨db, b, n', hreorg, himport⟩ := o.valid hbase i st (d (!i)) (hd (!i))
  have hheight : (d (!i)).height = h := (o.linked (!i)).keyed (hd (!i))
  have h₀ : 0 ≤ base := (o.forked i).nonneg
  have hkept := Blockchain.reorg_kept (o.closed i) (o.linked i) hreorg
  have hl : Linked db.live := (o.linked i).cut h₀ hkept
  -- the rollback leaves the chain up to the common block
  have htip : db.live.getChainTip = base := by
    refine (Linked.tip_of_heights h₀ fun k => ?_).1
    rw [hkept]
    by_cases hk : k ≤ base
    · rw [if_pos hk, (o.linked i).heights, o.level]
      omega
    · rw [if_neg hk]
      simp only [Option.isSome_none, Bool.false_eq_true, false_iff]
      omega
  -- the other's block is none of what is left
  have hfresh : Blockchain.Fresh { node i with db := db } (d (!i)).hash := by
    intro k e he
    have hk : k ≤ base ∧ (node i).db.live.getBlock k = some e := by
      have he' : db.live.getBlock k = some e := he
      rw [hkept] at he'
      by_cases hk : k ≤ base
      · rw [if_pos hk] at he'
        exact ⟨hk, he'⟩
      · rw [if_neg hk] at he'
        cases he'
    exact (o.forked i).apart k h e _ o.parted hk.2 (hd (!i))
  obtain ⟨hlinked, htop, hsame, hhash⟩ := Blockchain.importBlock_extends (n := { node i with db := db }) hl
    (by omega) (o.hashed (!i) _ _ (hd (!i))).1 hfresh himport
  have hlevel : n'.db.live.getChainTip = h := by
    rw [htop]
    show db.live.getChainTip + 1 = h
    omega
  -- the block goes on top of it
  have ha : Adopted h (node i) n' (d (!i)) := by
    refine ⟨hlinked, hlevel, ?_, fun k hk => ?_⟩
    · rw [← hhash]
      show _ = (n'.db.live.getBlock (db.live.getChainTip + 1)).map _
      rw [htip, hbase, sub_add_cancel]
    · have hget := hkept k
      rw [if_pos (by omega)] at hget
      rw [← hget]
      cases he : db.live.getBlock k with
      | some e => exact hsame k e he
      | none =>
        refine hlinked.none_below fun hpos => ?_
        obtain ⟨e, he'⟩ := hl.exists_block hpos (by omega)
        rw [he] at he'
        cases he'
  have hmin : min base ((d (!i)).height - 1) = base := by omega
  -- the calls of `_reconcile_fork_at_peer`, in their order
  let calls : List Blockchain.Call :=
    [.reorgToAncestor ((w i).now st) ((w i).floor st) base, .importBlock ((w i).now st) (d (!i)).asPeer]
  refine ⟨⟨n', { height := (d (!i)).height, head := (d (!i)).hash }, st, calls⟩, ?_, ha⟩
  unfold SyncState.finishReconcile
  dsimp only
  rw [show (d (!i)).asPeer.parentHash.getD "" = (d (!i)).parentHash from rfl, o.ancestor_found hd hbase i]
  dsimp only
  rw [show field (d (!i)).asPeer.height (d (!i)).asPeer.number peer.height = (d (!i)).height from rfl, hmin]
  unfold SyncState.reorgToAncestor
  simp only [onDb_run, hreorg, Except.isOk, Except.toBool]
  rw [if_neg (by rw [Blockchain.importBlock_fits himport]; exact Bool.false_ne_true)]
  unfold SyncState.importBlock
  dsimp only
  have himport' : (c i).importBlock ((w i).now st) (d (!i)).asPeer ⟨db, (node i).slashing⟩ = (.ok b, n') := himport
  rw [himport']
  simp only [Except.isOk, Except.toBool]
  rw [if_neg]
  · rfl
  · show ¬ n'.db.live.getChainTip < _
    rw [hlevel, hheight]
    exact lt_irrefl _

theorem finish_gives_up (hdeep : base < h - 1) (i : Bool) (peerHead : String) (s : SyncState σ) (hs : s.node = node i) :
    SyncState.finishReconcile (c i) (w i) (safe i) peerHead (some (d (!i)).asPeer, s) = some (.ok false, s) := by
  unfold SyncState.finishReconcile
  dsimp only
  rw [show (d (!i)).asPeer.parentHash.getD "" = (d (!i)).parentHash from rfl, hs, o.ancestor_missing hd hdeep i]

/-! ## A fork of one block -/

omit o hd in
def Fits (node : Bool → Node) (h : Int) (d : Bool → BlockDict) (i : Bool) (q : Party) (m : Node) : Prop :=
  match q.phase with
  | .idle => q.node = node i ∧
      (q.peer.head = (d (!i)).hash ∨ (q.peer.head = (d i).hash ∧ Adopted h (node (!i)) m (d i)))
  | .asked head => q.node = node i ∧ head = (d (!i)).hash
  | .answered _ block => q.node = node i ∧
      (block = some (d (!i)).asPeer ∨ (block = none ∧ Adopted h (node (!i)) m (d i)))
  | .done => (q.node = node i ∧ Adopted h (node (!i)) m (d i)) ∨ Adopted h (node i) q.node (d (!i))

omit o hd in
theorem Fits.mono {i : Bool} {q : Party} {m m' : Node} (hf : Fits node h d i q m)
    (hm : Adopted h (node (!i)) m (d i) → Adopted h (node (!i)) m' (d i)) : Fits node h d i q m' := by
  unfold Fits at hf ⊢
  cases hq : q.phase with
  | idle =>
    rw [hq] at hf
    exact ⟨hf.1, hf.2.imp id fun ha => ⟨ha.1, hm ha.2⟩⟩
  | asked head =>
    rw [hq] at hf
    exact hf
  | answered head block =>
    rw [hq] at hf
    exact ⟨hf.1, hf.2.imp id fun ha => ⟨ha.1, hm ha.2⟩⟩
  | done =>
    rw [hq] at hf
    exact hf.imp (fun ha => ⟨ha.1, hm ha.2⟩) id

omit o hd in
theorem fits_node {i : Bool} {q : Party} {m : Node} (hf : Fits node h d i q m) :
    q.node = node i ∨ Adopted h (node i) q.node (d (!i)) := by
  unfold Fits at hf
  cases hq : q.phase with
  | idle =>
    rw [hq] at hf
    exact .inl hf.1
  | asked head =>
    rw [hq] at hf
    exact .inl hf.1
  | answered head block =>
    rw [hq] at hf
    exact .inl hf.1
  | done =>
    rw [hq] at hf
    exact hf.imp And.left id

theorem not_adopted {i : Bool} {m : Node} (hm : m = node i) : ¬ Adopted h (node i) m (d (!i)) := by
  intro ha
  have hhead := head_adopted ha
  rw [hm, o.head_original hd] at hhead
  exact o.apart hd i hhead

/-! ### The deliveries -/

section delivery
variable {i : Bool} {q r : Party}

omit o hd in
theorem other_node (hr : Fits node h d (!i) r q.node) :
    r.node = node (!i) ∨ Adopted h (node (!i)) r.node (d i) := by
  have hnode := fits_node hr
  rw [Bool.not_not] at hnode
  exact hnode

theorem other_head (hr : Fits node h d (!i) r q.node) :
    r.node.db.live.head = (d (!i)).hash ∨
      (r.node.db.live.head = (d i).hash ∧ Adopted h (node (!i)) r.node (d i)) := by
  rcases other_node hr with hn | ha
  · rw [hn]
    exact .inl (o.head_original hd (!i))
  · exact .inr ⟨head_adopted ha, ha⟩

theorem fits_status (hq : Fits node h d i q r.node) (hr : Fits node h d (!i) r q.node) :
    Fits node h d i (q.deliver (c i) (w i) (safe i) .status r) r.node := by
  unfold Fits at hq ⊢
  show match q.phase with | .idle => _ | .asked _ => _ | .answered _ _ => _ | .done => _
  cases hphase : q.phase with
  | idle =>
    rw [hphase] at hq
    exact ⟨hq.1, o.other_head hd hr⟩
  | asked head =>
    rw [hphase] at hq
    exact hq
  | answered head block =>
    rw [hphase] at hq
    exact hq
  | done =>
    rw [hphase] at hq
    exact hq

/-- A node that starts asks for the other's block, unless the other has already taken its own over. -/
theorem fits_start (hq : Fits node h d i q r.node) :
    Fits node h d i (q.deliver (c i) (w i) (safe i) .start r) r.node := by
  unfold Party.deliver
  dsimp only
  cases hphase : q.phase with
  | idle =>
    dsimp only
    unfold Fits at hq
    rw [hphase] at hq
    obtain ⟨hn, hp⟩ := hq
    have hown : q.node.db.live.head = (d i).hash := by
      rw [hn]
      exact o.head_original hd i
    rw [hown]
    rcases hp with hp | ⟨hp, ha⟩
    · have hne : ¬ (q.peer.head = "" ∨ q.peer.head = (d i).hash) := by
        rw [hp]
        rintro (hempty | hsame)
        · exact (o.hashed (!i) _ _ (hd (!i))).1 hempty
        · exact o.apart hd i hsame.symm
      rw [if_neg hne]
      exact ⟨hn, hp⟩
    · rw [if_pos (.inr hp)]
      exact .inl ⟨hn, ha⟩
  | asked head => exact hq
  | answered head block => exact hq
  | done => exact hq

theorem fits_answer (hq : Fits node h d i q r.node) (hr : Fits node h d (!i) r q.node) :
    Fits node h d i (q.deliver (c i) (w i) (safe i) .answer r) r.node := by
  unfold Party.deliver
  dsimp only
  cases hphase : q.phase with
  | asked head =>
    unfold Fits at hq
    rw [hphase] at hq
    obtain ⟨hn, rfl⟩ := hq
    refine ⟨hn, ?_⟩
    rcases other_node hr with hr' | ha
    · left
      rw [hr', o.lookup_original hd (!i), Option.map_some]
    · have ha' : Adopted h (node (!i)) r.node (d (!!i)) := by
        rw [Bool.not_not]
        exact ha
      right
      rw [o.lookup_adopted hd ha']
      exact ⟨rfl, ha⟩
  | idle => exact hq
  | answered head block => exact hq
  | done => exact hq

theorem fits_finish (hbase : base = h - 1) (hq : Fits node h d i q r.node) (st : σ) :
    Fits node h d i (q.deliver (c i) (w i) (safe i) (.finish st) r) r.node ∧
      (Adopted h (node i) q.node (d (!i)) →
        Adopted h (node i) (q.deliver (c i) (w i) (safe i) (.finish st) r).node (d (!i))) := by
  unfold Party.deliver
  dsimp only
  cases hphase : q.phase with
  | answered head block =>
    unfold Fits at hq
    rw [hphase] at hq
    obtain ⟨hn, hblock⟩ := hq
    dsimp only
    rcases hblock with rfl | ⟨rfl, ha⟩
    · obtain ⟨s, hs, hadopted⟩ := @Opposed.finish_adopts _ _ _ safe _ _ _ o _ hd hbase i head q.peer st
      rw [hn, hs]
      exact ⟨.inr hadopted, fun _ => hadopted⟩
    · exact ⟨.inl ⟨hn, ha⟩, fun hmine => absurd hmine (o.not_adopted hd hn)⟩
  | idle => exact ⟨hq, id⟩
  | asked head => exact ⟨hq, id⟩
  | done => exact ⟨hq, id⟩

omit o hd in
theorem node_start : (q.deliver (c i) (w i) (safe i) .start r).node = q.node := by
  unfold Party.deliver
  dsimp only
  cases q.phase with
  | idle =>
    dsimp only
    by_cases hsame : q.peer.head = "" ∨ q.peer.head = q.node.db.live.head
    · rw [if_pos hsame]
    · rw [if_neg hsame]
  | asked head => rfl
  | answered head block => rfl
  | done => rfl

omit o hd in
theorem node_answer : (q.deliver (c i) (w i) (safe i) .answer r).node = q.node := by
  unfold Party.deliver
  dsimp only
  cases q.phase with
  | idle => rfl
  | asked head => rfl
  | answered head block => rfl
  | done => rfl

theorem fits_deliver (hbase : base = h - 1) (e : Delivery σ) (hq : Fits node h d i q r.node)
    (hr : Fits node h d (!i) r q.node) :
    Fits node h d i (q.deliver (c i) (w i) (safe i) e r) r.node ∧
      (Adopted h (node i) q.node (d (!i)) → Adopted h (node i) (q.deliver (c i) (w i) (safe i) e r).node (d (!i))) := by
  cases e with
  | status => exact ⟨o.fits_status hd hq hr, id⟩
  | start => exact ⟨o.fits_start hd hq, fun ha => by rwa [node_start]⟩
  | answer => exact ⟨o.fits_answer hd hq hr, fun ha => by rwa [node_answer]⟩
  | finish st => exact o.fits_finish hd hbase hq st

end delivery

omit o hd in
def AllFit (node : Bool → Node) (h : Int) (d : Bool → BlockDict) (p : Pair) : Prop := ∀ i, Fits node h d i (p i) (p (!i)).node

theorem allFit_step (hbase : base = h - 1) (e : Event σ) {p : Pair} (hp : AllFit node h d p) :
    AllFit node h d (Pair.step c w safe e p) ∧
      ∀ i, Adopted h (node i) (p i).node (d (!i)) → Adopted h (node i) (Pair.step c w safe e p i).node (d (!i)) := by
  have hr : Fits node h d (!e.1) (p (!e.1)) (p e.1).node := by
    have hother := hp (!e.1)
    rw [Bool.not_not] at hother
    exact hother
  obtain ⟨hfits, hkept⟩ := @Opposed.fits_deliver _ _ _ safe _ _ _ o _ hd _ _ _ hbase e.2 (hp e.1) hr
  have hall : ∀ i, Adopted h (node i) (p i).node (d (!i)) → Adopted h (node i) (Pair.step c w safe e p i).node (d (!i)) := by
    intro i
    by_cases hi : i = e.1
    · rw [hi, Pair.step_own]
      exact hkept
    · rw [show i = !e.1 by cases hb : e.1 <;> cases i <;> simp_all, Pair.step_other]
      exact id
  refine ⟨fun i => ?_, hall⟩
  by_cases hi : i = e.1
  · rw [hi, Pair.step_other, Pair.step_own]
    exact hfits
  · rw [show i = !e.1 by cases hb : e.1 <;> cases i <;> simp_all, Pair.step_other, Bool.not_not]
    refine hr.mono fun ha => ?_
    rw [Bool.not_not] at ha ⊢
    have hmine := hall e.1
    exact hmine ha

theorem holds_deliver (hbase : base = h - 1) {i : Bool} {q r : Party} (e : Delivery σ) (hq : Fits node h d i q r.node)
    (hb : q.HoldsBlock) :
    (q.deliver (c i) (w i) (safe i) e r).HoldsBlock ∨ Adopted h (node i) (q.deliver (c i) (w i) (safe i) e r).node (d (!i)) := by
  obtain ⟨head, b, hphase⟩ := hb
  unfold Fits at hq
  rw [hphase] at hq
  obtain ⟨hn, hblock⟩ := hq
  cases e with
  | status => exact .inl ⟨head, b, hphase⟩
  | start =>
    unfold Party.deliver
    simp only [hphase]
    exact .inl ⟨head, b, hphase⟩
  | answer =>
    unfold Party.deliver
    simp only [hphase]
    exact .inl ⟨head, b, hphase⟩
  | finish st =>
    right
    rcases hblock with hblock | ⟨hnone, -⟩
    · obtain rfl : b = (d (!i)).asPeer := Option.some.inj hblock
      obtain ⟨s, hs, hadopted⟩ := @Opposed.finish_adopts _ _ _ safe _ _ _ o _ hd hbase i head q.peer st
      unfold Party.deliver
      simp only [hphase]
      rw [hn, hs]
      exact hadopted
    · cases hnone

omit o hd in
theorem adopted_deliver {i : Bool} {q r : Party} (e : Delivery σ)
    (ha : Adopted h (node i) (q.deliver (c i) (w i) (safe i) e r).node (d (!i))) :
    q.HoldsBlock ∨ Adopted h (node i) q.node (d (!i)) := by
  unfold Party.deliver at ha
  cases e with
  | status => exact .inr ha
  | start =>
    dsimp only at ha
    cases hphase : q.phase with
    | idle =>
      rw [hphase] at ha
      dsimp only at ha
      split at ha
      · exact .inr ha
      · exact .inr ha
    | asked head => rw [hphase] at ha; exact .inr ha
    | answered head block => rw [hphase] at ha; exact .inr ha
    | done => rw [hphase] at ha; exact .inr ha
  | answer =>
    dsimp only at ha
    cases hphase : q.phase with
    | idle => rw [hphase] at ha; exact .inr ha
    | asked head => rw [hphase] at ha; exact .inr ha
    | answered head block => rw [hphase] at ha; exact .inr ha
    | done => rw [hphase] at ha; exact .inr ha
  | finish st =>
    dsimp only at ha
    cases hphase : q.phase with
    | idle => rw [hphase] at ha; exact .inr ha
    | asked head => rw [hphase] at ha; exact .inr ha
    | done => rw [hphase] at ha; exact .inr ha
    | answered head block =>
      cases block with
      | some b => exact .inl ⟨head, b, hphase⟩
      | none =>
        rw [hphase] at ha
        exact .inr ha

theorem no_block_deliver {i : Bool} {q r : Party} (e : Delivery σ) (hq : Fits node h d i q r.node)
    (hr : Adopted h (node (!i)) r.node (d i)) (hb : (q.deliver (c i) (w i) (safe i) e r).HoldsBlock) : q.HoldsBlock := by
  have hr' : Adopted h (node (!i)) r.node (d (!!i)) := by
    rw [Bool.not_not]
    exact hr
  obtain ⟨head', b, hb⟩ := hb
  unfold Party.deliver at hb
  cases e with
  | status => exact ⟨head', b, hb⟩
  | start =>
    dsimp only at hb
    cases hphase : q.phase with
    | idle =>
      rw [hphase] at hb
      dsimp only at hb
      split at hb
      · cases hb
      · cases hb
    | asked head => rw [hphase] at hb; rw [hphase] at hb; cases hb
    | answered head block => rw [hphase] at hb; rw [hphase] at hb; exact ⟨head', b, by rw [hphase, hb]⟩
    | done => rw [hphase] at hb; rw [hphase] at hb; cases hb
  | answer =>
    dsimp only at hb
    cases hphase : q.phase with
    | idle => rw [hphase] at hb; rw [hphase] at hb; cases hb
    | asked head =>
      rw [hphase] at hb
      unfold Fits at hq
      rw [hphase] at hq
      obtain ⟨-, rfl⟩ := hq
      dsimp only at hb
      rw [o.lookup_adopted hd hr'] at hb
      cases hb
    | answered head block => rw [hphase] at hb; rw [hphase] at hb; exact ⟨head', b, by rw [hphase, hb]⟩
    | done => rw [hphase] at hb; rw [hphase] at hb; cases hb
  | finish st =>
    dsimp only at hb
    cases hphase : q.phase with
    | idle => rw [hphase] at hb; rw [hphase] at hb; cases hb
    | asked head => rw [hphase] at hb; rw [hphase] at hb; cases hb
    | done => rw [hphase] at hb; rw [hphase] at hb; cases hb
    | answered head block =>
      rw [hphase] at hb
      dsimp only at hb
      split at hb
      · cases hb
      · exact ⟨head', b, hb⟩

omit o hd in
/-- Both will take the other's head over. -/
def Swapping (node : Bool → Node) (h : Int) (d : Bool → BlockDict) (p : Pair) : Prop :=
  ∀ i, (p i).HoldsBlock ∨ Adopted h (node i) (p i).node (d (!i))

omit o hd in
/-- At most one of them will. -/
def OneSided (node : Bool → Node) (h : Int) (d : Bool → BlockDict) (p : Pair) : Prop :=
  ∀ i, Adopted h (node i) (p i).node (d (!i)) → ¬ (p (!i)).HoldsBlock ∧ ¬ Adopted h (node (!i)) (p (!i)).node (d i)

theorem swapping_step (hbase : base = h - 1) (e : Event σ) {p : Pair} (hp : AllFit node h d p) (hs : Swapping node h d p) :
    Swapping node h d (Pair.step c w safe e p) := by
  intro i
  rcases hs i with hb | ha
  · by_cases hi : i = e.1
    · rw [hi, Pair.step_own]
      rw [hi] at hb
      exact o.holds_deliver hd hbase e.2 (hp e.1) hb
    · rw [show i = !e.1 by cases he : e.1 <;> cases i <;> simp_all] at hb ⊢
      rw [Pair.step_other]
      exact .inl hb
  · exact .inr ((o.allFit_step hd hbase e hp).2 i ha)

theorem oneSided_step (e : Event σ) {p : Pair} (hp : AllFit node h d p) (ho : OneSided node h d p) (hc : ¬ p.Crossed) :
    OneSided node h d (Pair.step c w safe e p) := by
  have hnot : ¬ ((p e.1).HoldsBlock ∧ (p (!e.1)).HoldsBlock) := by
    rintro ⟨h₁, h₂⟩
    refine hc fun i => ?_
    by_cases hi : i = e.1
    · rw [hi]
      exact h₁
    · rw [show i = !e.1 by cases he : e.1 <;> cases i <;> simp_all]
      exact h₂
  have hback : Adopted h (node (!e.1)) (p (!e.1)).node (d e.1) → ¬ (p e.1).HoldsBlock ∧ ¬ Adopted h (node e.1) (p e.1).node (d (!e.1)) := by
    intro ha
    have hside := ho (!e.1)
    rw [Bool.not_not] at hside
    exact hside ha
  intro i ha
  by_cases hi : i = e.1
  · rw [hi] at ha ⊢
    rw [Pair.step_own] at ha
    rw [Pair.step_other]
    rcases adopted_deliver e.2 ha with hb | ha'
    · exact ⟨fun hb' => hnot ⟨hb, hb'⟩, fun ha' => (hback ha').1 hb⟩
    · exact ho e.1 ha'
  · rw [show i = !e.1 by cases he : e.1 <;> cases i <;> simp_all] at ha ⊢
    rw [Pair.step_other, Bool.not_not] at ha
    rw [Bool.not_not, Pair.step_own]
    obtain ⟨hb, hn⟩ := hback ha
    refine ⟨fun hb' => hb (o.no_block_deliver hd e.2 (hp e.1) ha hb'), fun ha' => ?_⟩
    rcases adopted_deliver e.2 ha' with hb' | ha''
    · exact hb hb'
    · exact hn ha''

omit o hd in
theorem run_cons (e : Event σ) (events : List (Event σ)) (p : Pair) :
    Pair.run c w safe (e :: events) p = Pair.run c w safe events (Pair.step c w safe e p) := rfl

theorem run_fits (hbase : base = h - 1) (events : List (Event σ)) {p : Pair} (hp : AllFit node h d p) :
    AllFit node h d (Pair.run c w safe events p) ∧
    (Swapping node h d p → Swapping node h d (Pair.run c w safe events p)) ∧
    (Runs.Always (Pair.step c w safe) (fun p => ¬ p.Crossed) events p ∨ Swapping node h d (Pair.run c w safe events p)) ∧
    (OneSided node h d p → Runs.Always (Pair.step c w safe) (fun p => ¬ p.Crossed) events p →
      OneSided node h d (Pair.run c w safe events p)) := by
  induction events generalizing p with
  | nil =>
    refine ⟨hp, id, ?_, fun ho _ => ho⟩
    by_cases hc : p.Crossed
    · exact .inr fun i => .inl (hc i)
    · exact .inl hc
  | cons e rest ih =>
    obtain ⟨h₁, h₂, h₃, h₄⟩ := ih (@Opposed.allFit_step _ _ _ safe _ _ _ o _ hd hbase e _ hp).1
    rw [run_cons]
    refine ⟨h₁, fun hs => h₂ (o.swapping_step hd hbase e hp hs), ?_, fun ho hn => h₄ (o.oneSided_step hd e hp ho hn.1) hn.2⟩
    by_cases hc : p.Crossed
    · exact .inr (h₂ (o.swapping_step hd hbase e hp fun i => .inl (hc i)))
    · exact h₃.imp (fun hn => ⟨hc, hn⟩) id

theorem meet_fits : AllFit node h d (Pair.meet node) := fun i => ⟨rfl, .inl (o.head_original hd (!i))⟩

theorem meet_oneSided : OneSided node h d (Pair.meet node) := fun _ ha => absurd ha (o.not_adopted hd rfl)

/-- With a fork of one block the nodes agree in the end, unless each had the other's head before
either took it over: then they swap. -/
theorem shallow_converges (hbase : base = h - 1) {events : List (Event σ)}
    (hdone : ∀ i, (Pair.run c w safe events (Pair.meet node) i).phase = .done) :
    (Pair.run c w safe events (Pair.meet node)).head false = (Pair.run c w safe events (Pair.meet node)).head true ↔
      Runs.Always (Pair.step c w safe) (fun p => ¬ p.Crossed) events (Pair.meet node) := by
  obtain ⟨hfits, -, hcrossed, hone⟩ := @Opposed.run_fits _ _ _ safe _ _ _ o _ hd hbase events _ (o.meet_fits hd)
  generalize Pair.run c w safe events (Pair.meet node) = p at hdone hfits hcrossed hone ⊢
  have hend : ∀ i, ((p i).node = node i ∧ Adopted h (node (!i)) (p (!i)).node (d i)) ∨ Adopted h (node i) (p i).node (d (!i)) := by
    intro i
    have hf := hfits i
    unfold Fits at hf
    rw [hdone i] at hf
    exact hf
  have htaken : ∀ i, Adopted h (node i) (p i).node (d (!i)) → p.head i = (d (!i)).hash := fun _ ha => head_adopted ha
  have hleft : ∀ i, (p i).node = node i → p.head i = (d i).hash := by
    intro i hn
    unfold Pair.head
    rw [hn]
    exact o.head_original hd i
  have hnot : ¬ ∀ i, Adopted h (node i) (p i).node (d (!i)) ∧ p.head false = p.head true := by
    intro hboth
    have hsame := (hboth false).2
    rw [htaken false (hboth false).1, htaken true (hboth true).1] at hsame
    exact o.apart hd true hsame
  constructor
  · intro hsame
    refine hcrossed.resolve_right fun hs => hnot fun i => ⟨?_, hsame⟩
    rcases hs i with ⟨head, b, hphase⟩ | ha
    · rw [hdone i] at hphase
      cases hphase
    · exact ha
  · intro hnever
    have ho := hone (o.meet_oneSided hd) hnever
    rcases hend false with ⟨hn, ha⟩ | ha
    · rw [hleft false hn, htaken true ha]
      rfl
    · rcases hend true with ⟨hn, ha'⟩ | ha'
      · rw [hleft true hn, htaken false ha]
        rfl
      · exact absurd ha' (ho false ha).2

/-! ## A deeper fork -/

omit o hd in
def Waiting (node : Bool → Node) (d : Bool → BlockDict) (i : Bool) (q : Party) : Prop :=
  q.node = node i ∧
    match q.phase with
    | .idle => q.peer.head = (d (!i)).hash
    | .asked head => head = (d (!i)).hash
    | .answered _ block => block = some (d (!i)).asPeer
    | .done => True

theorem waiting_deliver (hdeep : base < h - 1) {i : Bool} {q r : Party} (e : Delivery σ) (hq : Waiting node d i q)
    (hr : r.node = node (!i)) : Waiting node d i (q.deliver (c i) (w i) (safe i) e r) := by
  obtain ⟨hn, hphased⟩ := hq
  unfold Party.deliver
  cases e with
  | status =>
    refine ⟨hn, ?_⟩
    dsimp only
    cases hphase : q.phase with
    | idle =>
      dsimp only
      rw [hr]
      exact o.head_original hd (!i)
    | asked head =>
      rw [hphase] at hphased
      exact hphased
    | answered head block =>
      rw [hphase] at hphased
      exact hphased
    | done => trivial
  | start =>
    dsimp only
    cases hphase : q.phase with
    | idle =>
      rw [hphase] at hphased
      dsimp only
      split
      · exact ⟨hn, trivial⟩
      · exact ⟨hn, hphased⟩
    | asked head => exact ⟨hn, hphased⟩
    | answered head block => exact ⟨hn, hphased⟩
    | done => exact ⟨hn, hphased⟩
  | answer =>
    dsimp only
    cases hphase : q.phase with
    | asked head =>
      rw [hphase] at hphased
      refine ⟨hn, ?_⟩
      dsimp only at hphased ⊢
      rw [hphased, hr, o.lookup_original hd (!i)]
      rfl
    | idle => exact ⟨hn, hphased⟩
    | answered head block => exact ⟨hn, hphased⟩
    | done => exact ⟨hn, hphased⟩
  | finish st =>
    dsimp only
    cases hphase : q.phase with
    | answered head block =>
      rw [hphase] at hphased
      obtain rfl : block = some (d (!i)).asPeer := hphased
      dsimp only
      rw [@Opposed.finish_gives_up _ _ _ safe _ _ _ o _ hd hdeep i head ⟨q.node, q.peer, st, []⟩ hn]
      exact ⟨hn, trivial⟩
    | idle => exact ⟨hn, hphased⟩
    | asked head => exact ⟨hn, hphased⟩
    | done => exact ⟨hn, hphased⟩

theorem waiting_run (hdeep : base < h - 1) (events : List (Event σ)) {p : Pair} (hp : ∀ i, Waiting node d i (p i)) (i : Bool) :
    Waiting node d i (Pair.run c w safe events p i) := by
  induction events generalizing p with
  | nil => exact hp i
  | cons e rest ih =>
    rw [run_cons]
    refine ih fun j => ?_
    by_cases hj : j = e.1
    · rw [hj, Pair.step_own]
      exact o.waiting_deliver hd hdeep e.2 (hp e.1) (hp (!e.1)).1
    · rw [show j = !e.1 by cases he : e.1 <;> cases j <;> simp_all, Pair.step_other]
      exact hp (!e.1)

theorem deep_parted (hdeep : base < h - 1) (events : List (Event σ)) :
    (Pair.run c w safe events (Pair.meet node)).head false ≠ (Pair.run c w safe events (Pair.meet node)).head true := by
  have hwait := @Opposed.waiting_run _ _ _ safe _ _ _ o _ hd hdeep events (Pair.meet node) fun i => ⟨rfl, o.head_original hd (!i)⟩
  unfold Pair.head
  rw [(hwait false).1, (hwait true).1, o.head_original hd, o.head_original hd]
  exact o.apart hd false

omit hd in
/-- After both have reconciled with each other, the heads agree exactly when the fork is one block deep and
at no moment both nodes hold an answer that they have not handled. -/
theorem reconcile_converges {events : List (Event σ)}
    (hdone : ∀ i, (Pair.run c w safe events (Pair.meet node) i).phase = .done) :
    (Pair.run c w safe events (Pair.meet node)).head false = (Pair.run c w safe events (Pair.meet node)).head true ↔
      base = h - 1 ∧ Runs.Always (Pair.step c w safe) (fun p => ¬ p.Crossed) events (Pair.meet node) := by
  obtain ⟨d, hd⟩ := o.heads
  have hparted := o.parted
  by_cases hbase : base = h - 1
  · exact (o.shallow_converges hd hbase hdone).trans (and_iff_right hbase).symm
  · exact iff_of_false (o.deep_parted hd (by omega) events) fun hb => hbase hb.1

end Opposed

/-! ### Runs of two nodes -/

def topped (hash : String) : Node :=
  { db := { file := (Blockchain.genesisNode none).db.live.putBlock { secondRow with hash := hash }, pending := none },
    slashing := none }

def rivals (i : Bool) : Node := topped (if i then "c" else "b")

theorem topped_blocks {hash : String} (hg : hash ≠ "g") (h : Int) : (topped hash).db.live.getBlock h =
    if h = 1 then some { secondRow with hash := hash } else if h = 0 then some Blockchain.genesisRow else none := by
  refine (getBlock_putBlock { secondRow with hash := hash } (Blockchain.genesisNode none).db.live h).trans ?_
  have hgenesis : (Blockchain.genesisNode none).db.live.getBlock h = if h = 0 then some Blockchain.genesisRow else none :=
    Table.get_put Table.empty h 0 Blockchain.genesisRow
  rw [hgenesis]
  by_cases h₁ : h = 1
  · rw [if_pos h₁]
    exact if_pos h₁
  · rw [if_neg h₁]
    refine (if_neg h₁).trans ?_
    by_cases h₀ : h = 0
    · rw [if_pos h₀]
      exact Option.filter_eq_some_iff.mpr ⟨rfl, decide_eq_true hg.symm⟩
    · rw [if_neg h₀]
      rfl

theorem topped_linked {hash : String} (hg : hash ≠ "g") : Linked (topped hash).db.live := by
  refine (@Linked.put _ (Blockchain.genesisNode_linked none) _ Blockchain.genesisRow rfl rfl rfl fun h d hd => ?_).1
  have hd' : (if h = 0 then some Blockchain.genesisRow else none) = some d := by
    rw [← hd]
    exact (Table.get_put Table.empty h 0 Blockchain.genesisRow).symm
  split at hd'
  · cases hd'
    exact hg.symm
  · cases hd'

theorem rivals_ne (i : Bool) : (if i then "c" else "b") ≠ "g" := by
  cases i <;> decide

theorem topped_cases {hash : String} (hg : hash ≠ "g") {h : Int} {d : BlockDict} (hd : (topped hash).db.live.getBlock h = some d) :
    (h = 1 ∧ d = { secondRow with hash := hash }) ∨ (h = 0 ∧ d = Blockchain.genesisRow) := by
  rw [topped_blocks hg] at hd
  by_cases h₁ : h = 1
  · rw [if_pos h₁] at hd
    cases hd
    exact .inl ⟨h₁, rfl⟩
  · rw [if_neg h₁] at hd
    by_cases h₀ : h = 0
    · rw [if_pos h₀] at hd
      cases hd
      exact .inr ⟨h₀, rfl⟩
    · rw [if_neg h₀] at hd
      cases hd

theorem rivals_opposed : Opposed (fun _ => Blockchain.plain) (fun _ => SyncState.answering [] none) rivals 0 1 where
  closed _ := rfl
  linked i := topped_linked (rivals_ne i)
  hashed i h d hd := by
    have hletters : ∀ x ∈ ["g", "b", "c"], x ≠ "" ∧ x ≠ genesisHash := by decide
    rcases topped_cases (rivals_ne i) hd with ⟨-, rfl⟩ | ⟨-, rfl⟩
    · exact hletters _ (by cases i <;> decide)
    · exact hletters _ (by decide)
  level i := by cases i <;> decide
  forked i := by
    refine ⟨le_refl _, by cases i <;> decide, by cases i <;> decide, fun h hh => ?_, fun h k d e hk hd he => ?_⟩
    · have h₁ : ¬ h = 1 := by omega
      unfold rivals
      rw [topped_blocks (rivals_ne i), topped_blocks (rivals_ne (!i)), if_neg h₁, if_neg h₁]
    · rcases topped_cases (rivals_ne (!i)) he with ⟨-, rfl⟩ | ⟨rfl, -⟩
      · rcases topped_cases (rivals_ne i) hd with ⟨-, rfl⟩ | ⟨-, rfl⟩
        · cases i <;> decide
        · cases i <;> decide
      · omega
  parted := by decide
  valid _ i st d hd := by
    have hd' : d = { secondRow with hash := if !i then "c" else "b" } := by
      rcases topped_cases (rivals_ne (!i)) hd with ⟨-, rfl⟩ | ⟨h, -⟩
      · rfl
      · omega
    have hok : ∀ i, (Blockchain.plain.reorgToAncestor 2 0 0 (rivals i).db).1.isOk = true ∧
        (Blockchain.plain.importBlock 2 ({ secondRow with hash := if !i then "c" else "b" } : BlockDict).asPeer
          { rivals i with db := (Blockchain.plain.reorgToAncestor 2 0 0 (rivals i).db).2 }).1.isOk = true := by decide +kernel
    obtain ⟨h₁, h₂⟩ := hok i
    rw [← hd'] at h₂
    rcases hr : Blockchain.plain.reorgToAncestor 2 0 0 (rivals i).db with ⟨f | u, db⟩
    · rw [hr] at h₁
      cases h₁
    · rw [hr] at h₂
      rcases hi : Blockchain.plain.importBlock 2 d.asPeer { rivals i with db := db } with ⟨f | b, n'⟩
      · rw [hi] at h₂
        cases h₂
      · exact ⟨db, b, n', hr, hi⟩

def turn (i : Bool) : List (Event Unit) := [(i, .start), (i, .answer), (i, .finish ())]

/-- One after the other. -/
theorem reconcile_converges_turns :
    (0 : Int) = 1 - 1 ∧ Runs.Always (Pair.step (fun _ => Blockchain.plain) (fun _ => SyncState.answering [] none) fun _ => some)
      (fun p => ¬ p.Crossed) (turn false ++ turn true) (Pair.meet rivals) := by
  have hdone : ∀ i, (Pair.run (fun _ => Blockchain.plain) (fun _ => SyncState.answering [] none) (fun _ => some)
      (turn false ++ turn true) (Pair.meet rivals) i).phase = .done := by decide +kernel
  have hsame : (Pair.run (fun _ => Blockchain.plain) (fun _ => SyncState.answering [] none) (fun _ => some)
      (turn false ++ turn true) (Pair.meet rivals)).head false = (Pair.run (fun _ => Blockchain.plain)
      (fun _ => SyncState.answering [] none) (fun _ => some) (turn false ++ turn true) (Pair.meet rivals)).head true := by
    decide +kernel
  exact (rivals_opposed.reconcile_converges hdone).mp hsame

/-- Both ask at once: they swap heads. With a fork of two blocks both give up. -/
theorem heads_swapped :
    let run := Pair.run (fun _ => Blockchain.plain) (fun _ => SyncState.answering [] none) (fun _ => some)
    let atOnce : List (Event Unit) := [(false, .start), (true, .start), (false, .answer), (true, .answer), (false, .finish ()),
      (true, .finish ())]
    let longer (i : Bool) : Node :=
      { rivals i with db := { file := (rivals i).db.live.putBlock { SyncState.thirdRow with
          hash := if i then "y" else "x", parentHash := if i then "c" else "b" }, pending := none } }
    let swapped := run atOnce (Pair.meet rivals)
    let stuck := run (turn false ++ turn true) (Pair.meet longer)
    (∀ i, (swapped i).phase = .done ∧ (stuck i).phase = .done) ∧
    ((Pair.meet rivals).head false, (Pair.meet rivals).head true) = ("b", "c") ∧
    (swapped.head false, swapped.head true) = ("c", "b") ∧ (stuck.head false, stuck.head true) = ("x", "y") := by
  decide +kernel

end AbsoluteChain
