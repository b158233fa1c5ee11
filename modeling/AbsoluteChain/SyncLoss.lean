import AbsoluteChain.Nonces
import AbsoluteChain.Sync

/-!
# What a synchronisation may lose

A rollback takes blocks off the chain before their replacements are known to be good.
The chain a synchronisation leaves is followed call by call: up to a common ancestor
it is the original one, above it every block was imported on the way.
-/

namespace AbsoluteChain

open Python Actions Act Transactions KeyedTable

namespace Blockchain

variable {c : Blockchain}

/-! ## What a call gains and loses -/

def Call.gained (c : Blockchain) : Call → Node → Nat
  | .importBlock now d, n => if (c.importBlock now d n).1.isOk then 1 else 0
  | _, _ => 0

def Call.lost (c : Blockchain) : Call → Node → Nat
  | .reorgToAncestor now floor height, n =>
    if (onDb (c.reorgToAncestor now floor height) n).1.isOk then (n.db.live.getChainTip - height).toNat else 0
  | _, _ => 0

def gained (c : Blockchain) : List Call → Node → Nat
  | [], _ => 0
  | call :: rest, n => call.gained c n + gained c rest (call.run c n)

def lost (c : Blockchain) : List Call → Node → Nat
  | [], _ => 0
  | call :: rest, n => call.lost c n + lost c rest (call.run c n)

/-- The conditions of a linked chain, and a rollback that fails has made nothing durable. -/
def Call.Steady (c : Blockchain) (call : Call) (n : Node) : Prop :=
  call.Sound c n ∧
    match call with
    | .reorgToAncestor now floor height =>
      (onDb (c.reorgToAncestor now floor height) n).1.isOk = false → c.QuietReplay now height n.db
    | _ => True

def AllSteady (c : Blockchain) : List Call → Node → Prop
  | [], _ => True
  | call :: rest, n => call.Steady c n ∧ AllSteady c rest (call.run c n)

def ImportedBy (c : Blockchain) (n : Node) (calls : List Call) (d : BlockDict) : Prop :=
  ∃ before now block after b', calls = before ++ .importBlock now block :: after ∧
    (c.importBlock now block (runCalls c before n)).1 = .ok b' ∧ d = b'.toDict

theorem ImportedBy.append {n : Node} {calls : List Call} {d : BlockDict} (h : ImportedBy c n calls d) (more : List Call) :
    ImportedBy c n (calls ++ more) d := by
  obtain ⟨before, now, block, after, b', rfl, hok, hd⟩ := h
  exact ⟨before, now, block, after ++ more, b', by simp, hok, hd⟩

structure Rests (c : Blockchain) (n : Node) (calls : List Call) (n' : Node) (base : Int) : Prop where
  nonneg : 0 ≤ base
  reached : base ≤ n'.db.live.getChainTip
  original : base ≤ n.db.live.getChainTip
  below : ∀ h, h ≤ base → n'.db.live.getBlock h = n.db.live.getBlock h
  above : ∀ h d, base < h → n'.db.live.getBlock h = some d → ImportedBy c n calls d

/-! ## One call -/

variable {n : Node}

theorem reorg_kept {now floor cut : Int} {db db' : Db} (hclosed : db.pending = none) (hl : Linked db.live)
    (h : c.reorgToAncestor now floor cut db = (.ok (), db')) (k : Int) :
    db'.live.getBlock k = if k ≤ cut then db.live.getBlock k else none := by
  rcases reorg_returned hclosed h with ⟨htip, rfl⟩ | ⟨hle, db₀, db₁, hstart, hreplay, hend⟩
  · by_cases hk : k ≤ cut
    · rw [if_pos hk]
    · rw [if_neg hk]
      exact hl.none_above (by omega)
  · have hblocks : db₁.live.blocks = db₀.live.blocks := (keeps_apply (keeps_replayBlocks executionFree_blocks _ _) hreplay).1
    rw [hend, getBlock_congr hblocks, hstart, getBlock_replayStart hl]

/-- What a rollback leaves, whether it succeeds or not. -/
theorem reorg_lost {now floor height : Int} (hclosed : n.db.pending = none) (hl : Linked n.db.live)
    (hs : (Call.reorgToAncestor now floor height).Steady c n) :
    ∃ cut, 0 ≤ cut ∧ cut ≤ n.db.live.getChainTip ∧
      n.db.live.getChainTip = cut + (Call.reorgToAncestor now floor height).lost c n ∧
      ∀ k, ((Call.reorgToAncestor now floor height).run c n).db.live.getBlock k =
        if k ≤ cut then n.db.live.getBlock k else none := by
  obtain ⟨hheight, hquiet⟩ := hs
  have h₀ := hl.tip_nonneg
  simp only [Call.lost, Call.run]
  rcases hrun : c.reorgToAncestor now floor height n.db with ⟨f | u, db'⟩
  · have hfails : (onDb (c.reorgToAncestor now floor height) n).1.isOk = false := by
      rw [onDb_run, hrun]
      rfl
    have hsame : db'.live.blocks = n.db.live.blocks := congrArg Guarded.blocks (reorg_guarded hrun (hquiet hfails))
    refine ⟨n.db.live.getChainTip, h₀, le_refl _, ?_, fun k => ?_⟩
    · rw [hfails]
      simp
    · rw [onDb_run, hrun]
      refine (getBlock_congr hsame k).trans ?_
      by_cases hk : k ≤ n.db.live.getChainTip
      · rw [if_pos hk]
      · rw [if_neg hk]
        exact hl.none_above (by omega)
  · have hok : (onDb (c.reorgToAncestor now floor height) n).1.isOk = true := by
      rw [onDb_run, hrun]
      rfl
    have hkept := reorg_kept hclosed hl hrun
    refine ⟨min height n.db.live.getChainTip, by have : 0 ≤ height := hheight; omega, by omega, ?_, fun k => ?_⟩
    · rw [if_pos hok]
      omega
    · rw [onDb_run, hrun]
      refine (hkept k).trans ?_
      by_cases hk : k ≤ height
      · by_cases ht : k ≤ n.db.live.getChainTip
        · rw [if_pos hk, if_pos (by omega)]
        · rw [if_pos hk, if_neg (by omega)]
          exact hl.none_above (by omega)
      · rw [if_neg hk, if_neg (by omega)]

theorem rests_call {n₀ : Node} {before : List Call} {base : Int} {call : Call} (hclosed : n.db.pending = none)
    (hl : Linked n.db.live) (hn : n = runCalls c before n₀) (hr : Rests c n₀ before n base) (hp : SyncState.OnPeerBlocks call)
    (hs : call.Steady c n) :
    (call.run c n).db.live.getChainTip + call.lost c n = n.db.live.getChainTip + call.gained c n ∧
      ∃ base', Rests c n₀ (before ++ [call]) (call.run c n) base' := by
  have hlinked := (call_linked hclosed hl hs.1).1
  cases call with
  | addBlock now b preserve => exact hp.elim
  | importBlock now d =>
    rcases hrun : c.importBlock now d n with ⟨f | b', n'⟩
    -- the import is refused
    · have hsame := importBlock_rejected_blocks hs.1.1 hrun
      simp only [Call.lost, Call.gained, Call.run, hrun]
      refine ⟨by simp [chainTip_congr hsame, Except.isOk, Except.toBool], base, hr.nonneg, ?_, hr.original, ?_, ?_⟩
      · rw [chainTip_congr hsame]
        exact hr.reached
      · intro h hh
        rw [getBlock_congr hsame]
        exact hr.below h hh
      · intro h e hh he
        rw [getBlock_congr hsame] at he
        exact (hr.above h e hh he).append _
    · obtain ⟨n₁, h₁, -, hadd⟩ := importBlock_ok hrun
      rcases h₁ with rfl | ⟨-, e, he, hne, hz⟩
      -- the block goes on top
      · have hfresh := hs.1.2 b' n' hrun
        obtain ⟨htip, htop⟩ := accepted_tip hl hadd hfresh
        obtain ⟨-, hkept⟩ := accepted_linked hl hadd hfresh
        simp only [Call.lost, Call.gained, Call.run, hrun]
        refine ⟨by simp [htip, Except.isOk, Except.toBool], base, hr.nonneg, ?_, hr.original, ?_, ?_⟩
        · rw [htip]
          have := hr.reached
          omega
        · intro h hh
          rw [← hr.below h hh]
          by_cases h₀ : 0 ≤ h
          · obtain ⟨e, he⟩ := hl.exists_block h₀ (hh.trans hr.reached)
            rw [he, hkept h e he]
          · simp only [Call.run, hrun] at hlinked
            rw [hlinked.none_below h₀, hl.none_below h₀]
        · intro h e hh he
          simp only [Call.run, hrun] at hlinked
          have hle := ((hlinked.heights h).mp (by rw [he]; rfl)).2
          -- the new block is the one of this call, and those below it are as before
          by_cases hnew : h = n₁.db.live.getChainTip + 1
          · rw [hnew, htop] at he
            cases he
            refine ⟨before, now, d, [], b', rfl, ?_, rfl⟩
            rw [← hn, hrun]
          · obtain ⟨d', hd'⟩ := Option.isSome_iff_exists.mp ((hl.heights h).mpr
              ⟨by have := hr.nonneg; omega, by omega⟩ : (n₁.db.live.getBlock h).isSome = true)
            rw [hkept h d' hd'] at he
            cases he
            exact (hr.above h _ hh hd').append _
      · exact absurd ⟨hz, e, he, hne⟩ hs.1.1
  | reorgToAncestor now floor height =>
    -- what a rollback cuts off is lost, and nothing is put in its place
    obtain ⟨cut, hcut, hle, hlost, hget⟩ := reorg_lost hclosed hl hs
    have htip := (Linked.tip_of_heights hcut (hl.heights_of_cut hle hget)).1
    refine ⟨by rw [htip]; simp only [Call.gained]; omega, min base cut, le_min hr.nonneg hcut, ?_, ?_, ?_, ?_⟩
    · rw [htip]
      exact min_le_right _ _
    · exact (min_le_left _ _).trans hr.original
    · intro h hh
      rw [hget, if_pos (by omega)]
      exact hr.below h (by omega)
    · intro h e hh he
      rw [hget] at he
      by_cases hk : h ≤ cut
      · rw [if_pos hk] at he
        exact (hr.above h e (by omega) he).append _
      · rw [if_neg hk] at he
        cases he

theorem rests_calls {n₀ : Node} {before calls : List Call} {base : Int} (hclosed : n.db.pending = none)
    (hl : Linked n.db.live) (hn : n = runCalls c before n₀) (hr : Rests c n₀ before n base)
    (hp : ∀ call ∈ calls, SyncState.OnPeerBlocks call) (hs : AllSteady c calls n) :
    Linked (runCalls c calls n).db.live ∧
      (runCalls c calls n).db.live.getChainTip + lost c calls n = n.db.live.getChainTip + gained c calls n ∧
      ∃ base', Rests c n₀ (before ++ calls) (runCalls c calls n) base' := by
  induction calls generalizing n before base with
  | nil =>
    rw [List.append_nil]
    exact ⟨hl, rfl, base, hr⟩
  | cons call rest ih =>
    obtain ⟨hcall, hrest⟩ := List.forall_mem_cons.mp hp
    obtain ⟨hstep, base₁, hr₁⟩ := rests_call hclosed hl hn hr hcall hs.1
    have hn₁ : call.run c n = runCalls c (before ++ [call]) n₀ := by
      rw [hn]
      unfold runCalls
      rw [List.foldl_append]
      rfl
    obtain ⟨hlinked, hrest, base₂, hr₂⟩ := ih (idle_call call hclosed) (call_linked hclosed hl hs.1.1).1 hn₁ hr₁ hrest hs.2
    refine ⟨hlinked, ?_, base₂, ?_⟩
    · have hfold : runCalls c (call :: rest) n = runCalls c rest (call.run c n) := rfl
      rw [hfold]
      simp only [lost, gained]
      push_cast
      omega
    · rw [List.append_assoc] at hr₂
      exact hr₂

end Blockchain

namespace SyncState

variable {σ : Type} {c : Blockchain} {w : World σ} {batchSize : Int}

/-! ## A whole synchronisation -/

/-- The chain is the original one, or one at least as high that shares the blocks up to an ancestor and
holds above it blocks accepted by the calls only. -/
def ChainKept (c : Blockchain) (n : Node) (calls : List Blockchain.Call) (n' : Node) : Prop :=
  n'.db.live.blocks = n.db.live.blocks ∨
    (n.db.live.getChainTip ≤ n'.db.live.getChainTip ∧ ∃ base, Blockchain.Rests c n calls n' base)

/-- The genesis block stays, and the chain is kept exactly when the peer has made the node accept at
least as many blocks as its rollbacks took off. -/
theorem sync_keeps_chain {s s' : SyncState σ} {locked : Bool} {fuel : Nat} (hstart : s.calls = [])
    (hclosed : s.node.db.pending = none) (hl : Linked s.node.db.live)
    (hrun : syncWithPeer c w batchSize fuel s = some s' ∨
      ∃ r, reconcileForkAtPeer c w batchSize locked fuel s = some (r, s'))
    (hsteady : Blockchain.AllSteady c s'.calls s.node) :
    s'.node.db.live.getBlock 0 = s.node.db.live.getBlock 0 ∧ Linked s'.node.db.live ∧
      (ChainKept c s.node s'.calls s'.node ↔ Blockchain.lost c s'.calls s.node ≤ Blockchain.gained c s'.calls s.node) := by
  have hfollows : Follows c s s' := by
    rcases hrun with h | ⟨r, h⟩
    · exact follows_syncWithPeer h
    · exact follows_reconcile h
  obtain ⟨log, hp, hlog, hnode⟩ := hfollows
  rw [hstart, List.nil_append] at hlog
  rw [hlog] at hsteady ⊢
  have h₀ : Blockchain.Rests c s.node [] s.node s.node.db.live.getChainTip := by
    refine ⟨hl.tip_nonneg, le_refl _, le_refl _, fun _ _ => rfl, fun h d hh hd => ?_⟩
    have := ((hl.heights h).mp (by rw [hd]; rfl)).2
    omega
  obtain ⟨hlinked, htip, base, hr⟩ := Blockchain.rests_calls hclosed hl rfl h₀ hp hsteady
  rw [List.nil_append] at hr
  rw [← hnode] at hlinked htip hr
  refine ⟨hr.below 0 hr.nonneg, hlinked, ?_⟩
  constructor
  · rintro (hsame | ⟨hle, -⟩)
    · rw [chainTip_congr hsame] at htip
      omega
    · omega
  · intro hle
    exact .inr ⟨by omega, base, hr⟩

/-! ### Runs of one synchronisation -/

def secondRow : BlockDict := { Blockchain.genesisRow with height := 1, hash := "b", parentHash := "g" }

def twoBlocks : Node :=
  { db := { file := (Blockchain.genesisNode none).db.live.putBlock secondRow, pending := none }, slashing := none }

def answering (blocks : List (Option PeerBlock)) (block : Option PeerBlock) : World Unit where
  getBlocks _ _ _ := (some blocks, ())
  getBlockByHash _ _ := (block, ())
  status _ peer := peer
  running _ := true
  now _ := 2
  floor _ := 0

def meeting (height : Int) : SyncState Unit :=
  { node := twoBlocks, peer := { height := height, head := "x" }, world := (), calls := [] }

theorem twoBlocks_get {h : Int} {d : BlockDict} (hd : twoBlocks.db.live.getBlock h = some d) : d.hash = "g" ∨ d.hash = "b" := by
  have hd' : (if h = 1 then some secondRow else
      (if h = 0 then some Blockchain.genesisRow else none).filter fun r => decide (r.hash ≠ "b")) = some d := by
    rw [← hd]
    refine .trans ?_ (getBlock_putBlock secondRow (Blockchain.genesisNode none).db.live h).symm
    congr 2
  by_cases h₁ : h = 1
  · rw [if_pos h₁] at hd'
    cases hd'
    exact .inr rfl
  · by_cases h₀ : h = 0
    · rw [if_neg h₁, if_pos h₀] at hd'
      cases hd'
      exact .inl rfl
    · rw [if_neg h₁, if_neg h₀] at hd'
      cases hd'

theorem twoBlocks_linked : Linked twoBlocks.db.live := by
  refine (@Linked.put _ (Blockchain.genesisNode_linked none) _ Blockchain.genesisRow rfl rfl rfl fun h d hd => ?_).1
  have hd' : (if h = 0 then some Blockchain.genesisRow else none) = some d := by
    rw [← hd]
    exact (Table.get_put Table.empty h 0 Blockchain.genesisRow).symm
  by_cases h₀ : h = 0
  · rw [if_pos h₀] at hd'
    cases hd'
    decide
  · rw [if_neg h₀] at hd'
    cases hd'

def forkRow : BlockDict := { secondRow with height := 2, hash := "c", parentHash := "b" }

def partedNode : Node := { twoBlocks with db := { twoBlocks.db with file := twoBlocks.db.live.putBlock forkRow } }

theorem partedNode_linked : Linked partedNode.db.live := by
  have hrows : ∀ r ∈ twoBlocks.db.live.blocks.rows, r.2.hash ≠ "c" := by decide +kernel
  refine (@Linked.put _ twoBlocks_linked forkRow secondRow (by decide +kernel) (by decide +kernel) rfl fun h d hd => ?_).1
  exact hrows (h, d) ((Table.mem_rows_iff _ h d).mpr hd)

deriving instance DecidableEq for Blockchain.Call

theorem fresh_of_rows {now : Int} {d : PeerBlock} {n : Node} {hash : String}
    (haccepted : (c.importBlock now d n).1.toOption.map Block.hash = some hash)
    (hrows : ∀ r ∈ n.db.live.blocks.rows, r.2.hash ≠ hash) {b' : Block} {n' : Node}
    (hok : c.importBlock now d n = (.ok b', n')) : Blockchain.Fresh n b'.hash := by
  intro k e he
  rw [hok] at haccepted
  rw [show b'.hash = hash from Option.some.inj haccepted]
  exact hrows (k, e) ((Table.mem_rows_iff _ k e).mpr he)

/-- A peer of the same height whose last block is another one. -/
def rival : World Unit := answering [] (some (Blockchain.peerBlock 2 "b" "x"))

def parted : SyncState Unit := { meeting 2 with node := partedNode }

def rivalCalls : List Blockchain.Call := [.reorgToAncestor 2 0 1, .importBlock 2 (Blockchain.peerBlock 2 "b" "x")]

theorem rival_steady : Blockchain.AllSteady Blockchain.plain rivalCalls partedNode := by
  have hback : (onDb (Blockchain.plain.reorgToAncestor 2 0 1) partedNode).1.isOk = true := by decide +kernel
  have haccepted : (Blockchain.plain.importBlock 2 (Blockchain.peerBlock 2 "b" "x")
      ((Blockchain.Call.reorgToAncestor 2 0 1).run Blockchain.plain partedNode)).1.toOption.map Block.hash = some "x" := by
    decide +kernel
  have hrows : ∀ r ∈ ((Blockchain.Call.reorgToAncestor 2 0 1).run Blockchain.plain partedNode).db.live.blocks.rows,
      r.2.hash ≠ "x" := by decide +kernel
  refine ⟨⟨(by decide : (0 : Int) ≤ 1), fun hfails => ?_⟩, ⟨⟨fun ht => absurd ht.1 (by decide), fun b' n' hok => ?_⟩, trivial⟩, trivial⟩
  · rw [hback] at hfails
    cases hfails
  · exact fresh_of_rows haccepted hrows hok

theorem sync_keeps_chain_fork :
    ∃ s', syncWithPeer Blockchain.plain rival 100 3 parted = some s' ∧
      (s'.node.db.live.getBlock 2).map BlockDict.hash = some "x" ∧
      ChainKept Blockchain.plain partedNode s'.calls s'.node := by
  have htop : (syncWithPeer Blockchain.plain rival 100 3 parted).map (fun s =>
      (s.node.db.live.getBlock 2).map BlockDict.hash) = some (some "x") := by decide +kernel
  have hcalls : (syncWithPeer Blockchain.plain rival 100 3 parted).map SyncState.calls = some rivalCalls := by
    decide +kernel
  have hgained : Blockchain.lost Blockchain.plain rivalCalls partedNode ≤
      Blockchain.gained Blockchain.plain rivalCalls partedNode := by decide +kernel
  obtain ⟨s', hrun, hs'⟩ := Option.map_eq_some_iff.mp htop
  rw [hrun] at hcalls
  have hlog : s'.calls = rivalCalls := Option.some.inj hcalls
  refine ⟨s', hrun, hs', ?_⟩
  exact (@sync_keeps_chain _ _ _ _ parted s' false _ rfl rfl partedNode_linked (.inl hrun)
    (hlog ▸ rival_steady)).2.2.mpr (hlog ▸ hgained)

/-- A block on top of the last block but one: the chain is rolled back and the loop ends. A head
of height 0: every block goes, the genesis block with them. -/
theorem rollback_loses_chain :
    let heights (n : Node) := n.db.live.blocks.rows.map Prod.fst
    let stray := answering [some (Blockchain.peerBlock 3 "b" "x")] none
    let foreign := answering [] (some { Blockchain.peerBlock 0 "g" "x" with timestamp := some 1000 })
    heights partedNode = [0, 1, 2] ∧
    (syncWithPeer Blockchain.plain stray 100 3 { parted with peer := { height := 3, head := "x" } }).map
      (fun s => heights s.node) = some [0, 1] ∧
    heights twoBlocks = [0, 1] ∧
    (reconcileForkAtPeer Blockchain.plain foreign 100 false 3 (meeting 1)).map (fun s => heights s.2.node) = some [] := by
  decide +kernel

end SyncState

end AbsoluteChain
