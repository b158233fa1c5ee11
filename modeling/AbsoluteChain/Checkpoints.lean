import Mathlib.Data.List.Dedup
import AbsoluteChain.Irreversible

/-!
# Checkpoints and the stored chain

The checkpoints of `finality_engine.py` against the stored blocks. A checkpoint is
written when the first block of its epoch comes in and is never looked at again
when blocks are rolled back; only the proposer of that one block ever votes.
-/

namespace AbsoluteChain

open Python Actions Actions.Act Transactions Blockchain Runs

/-! ## The engine -/

namespace FinalityEngine

variable (f : FinalityEngine)

def tally (e : Int) : Option (String × Int × Nat) :=
  (f.checkpoints.get? e).map fun cp => (cp.blockHash, cp.blockNumber, cp.votes)

/-- Two engines with the same voters and the same votes at each checkpoint. -/
def SameTally (f g : FinalityEngine) : Prop := (∀ e, g.tally e = f.tally e) ∧ ∀ e, g.votesIn e = f.votesIn e

theorem SameTally.trans {f g k : FinalityEngine} (h₁ : SameTally f g) (h₂ : SameTally g k) : SameTally f k :=
  ⟨fun e => (h₂.1 e).trans (h₁.1 e), fun e => (h₂.2 e).trans (h₁.2 e)⟩

theorem SameTally.refl (f : FinalityEngine) : SameTally f f := ⟨fun _ => rfl, fun _ => rfl⟩

theorem sameTally_set {epoch : Int} {cp cp' : Checkpoint} {g : FinalityEngine} (hcp : f.checkpoints.get? epoch = some cp)
    (hg : g.checkpoints = f.checkpoints.set epoch cp') (hv : g.votes = f.votes)
    (hsame : (cp'.blockHash, cp'.blockNumber, cp'.votes) = (cp.blockHash, cp.blockNumber, cp.votes)) : SameTally f g := by
  refine ⟨fun e => ?_, fun e => by unfold votesIn; rw [hv]⟩
  unfold tally
  rw [hg, Dict.get?_set]
  by_cases he : e = epoch
  · rw [if_pos he, he, hcp]
    exact congrArg some hsame
  · rw [if_neg he]

theorem checkJustified_tally (epoch : Int) : SameTally f (f.checkJustified epoch) := by
  unfold checkJustified
  cases hcp : f.checkpoints.get? epoch with
  | none => exact .refl f
  | some cp =>
    dsimp only
    split
    · exact f.sameTally_set hcp rfl rfl rfl
    · exact .refl f

theorem finalizeCheckpoint_tally (epoch : Int) : SameTally f (f.finalizeCheckpoint epoch).2 := by
  unfold finalizeCheckpoint
  split
  · exact .refl f
  · cases hcp : f.checkpoints.get? epoch with
    | none => exact .refl f
    | some cp =>
      dsimp only
      split
      · exact .refl f
      · exact f.sameTally_set hcp rfl rfl rfl

theorem finalizeAll_tally (l : List Int) : SameTally f (l.foldl (fun f e => (f.finalizeCheckpoint e).2) f) := by
  induction l generalizing f with
  | nil => exact .refl f
  | cons e l ih => exact (f.finalizeCheckpoint_tally e).trans (ih _)

theorem processBlock_other {blockNumber : Int} {blockHash validator : String} {cp : Checkpoint}
    (hcp : f.checkpoints.get? (getEpoch blockNumber) = some cp) (hne : cp.blockHash ≠ blockHash) :
    SameTally f (f.processBlock blockNumber blockHash validator) := by
  have hcreate : f.createCheckpoint blockNumber blockHash = f := by
    have hin : f.checkpoints.contains (getEpoch blockNumber) = true := by
      unfold Dict.contains
      rw [hcp]
      rfl
    unfold createCheckpoint
    exact if_pos hin
  have hattest : (f.addAttestation validator (getEpoch blockNumber) blockHash).2 = f := by
    unfold addAttestation
    simp only [hcp, if_pos hne]
  unfold processBlock
  simp only [hcreate, hattest]
  exact f.finalizeAll_tally _

theorem processBlock_first {blockNumber : Int} {blockHash validator : String}
    (hcp : f.checkpoints.get? (getEpoch blockNumber) = none) (hv : f.votesIn (getEpoch blockNumber) = []) :
    (∀ e, (f.processBlock blockNumber blockHash validator).tally e =
      if e = getEpoch blockNumber then some (blockHash, blockNumber, 1) else f.tally e) ∧
    ∀ e, (f.processBlock blockNumber blockHash validator).votesIn e =
      if e = getEpoch blockNumber then [validator] else f.votesIn e := by
  let cp : Checkpoint := { epoch := getEpoch blockNumber, blockHash := blockHash, blockNumber := blockNumber }
  let created : FinalityEngine := { f with checkpoints := f.checkpoints.set (getEpoch blockNumber) cp }
  have hcreate : f.createCheckpoint blockNumber blockHash = created := by
    have hout : ¬ f.checkpoints.contains (getEpoch blockNumber) = true := by
      unfold Dict.contains
      rw [hcp]
      exact Bool.false_ne_true
    unfold createCheckpoint
    exact if_neg hout
  have hget : created.checkpoints.get? (getEpoch blockNumber) = some cp := Dict.get?_set_self _ _ _
  have hvotes : created.votesIn (getEpoch blockNumber) = [] := hv
  let counted := created.countVote validator (getEpoch blockNumber) cp
  have hattest : (created.addAttestation validator (getEpoch blockNumber) blockHash).2 =
      counted.checkJustified (getEpoch blockNumber) := by
    unfold addAttestation
    simp only [hget, cp, ne_eq, not_true_eq_false, if_false]
    rfl
  have hsame : SameTally counted (f.processBlock blockNumber blockHash validator) := by
    unfold processBlock
    simp only [hcreate, hattest]
    exact (counted.checkJustified_tally _).trans (finalizeAll_tally _ _)
  have hcount : counted = { created with
      votes := created.votes.set (getEpoch blockNumber) ([] ++ [validator])
      checkpoints := created.checkpoints.set (getEpoch blockNumber) { cp with votes := cp.votes + 1 } } := by
    simp only [counted, countVote, hvotes, List.not_mem_nil, if_false]
  constructor
  · intro e
    rw [hsame.1 e, hcount]
    unfold tally
    simp only [created, Dict.get?_set]
    split <;> rfl
  · intro e
    rw [hsame.2 e, hcount]
    unfold votesIn
    simp only [created, Dict.get?_set]
    split <;> rfl

end FinalityEngine

/-! ## A node and who attested what -/

/-- A node with the attestations it accepted so far: validator and block hash. -/
structure Watched where
  node : FullNode
  attested : List (String × String)

namespace FullNode

def registered (n : FullNode) : List String := n.adapter.engine.validators.map Prod.fst

def Event.accepted : Event → FullNode → Option (String × String)
  | .attest now validator blockHash, n =>
    match (FullNode.attest now validator blockHash n).1 with
    | .ok true => some (validator, blockHash)
    | _ => none
  | _, _ => none

variable {c : Blockchain} {n : FullNode}

theorem attestSlashing_board (now : Int) (validator blockHash : String) (slot : Int) (n : FullNode) :
    ∃ board, (attestSlashing now validator blockHash slot n).2.adapter = { n.adapter with board := board } := by
  unfold attestSlashing
  simp only [bind_run, read_run, slashingEngine]
  cases hs : n.node.slashing with
  | none => exact ⟨n.adapter.board, rfl⟩
  | some e =>
    simp only [Option.map_some, bind_run, write_run]
    split
    · exact ⟨_, rfl⟩
    · exact ⟨_, rfl⟩

theorem ConsensusEngine.attest_validators (s : ConsensusEngine) (validator : String) (slot : Int) :
    (s.attest validator slot).2.validators.map Prod.fst = s.validators.map Prod.fst := by
  unfold ConsensusEngine.attest
  cases hv : s.validators.get? validator with
  | none => rfl
  | some v =>
    dsimp only
    split
    · exact (Dict.keys_set _ _ _).trans (if_pos (List.mem_map_of_mem (f := Prod.fst) (Dict.mem_of_get? hv)))
    · rfl

theorem attest_adapter (now : Int) (validator blockHash : String) (n : FullNode) : ∃ board,
    (attest now validator blockHash n).2.adapter = { n.adapter with board := board } ∨
    (attest now validator blockHash n).2.adapter =
      { n.adapter with
        board := board
        engine := (n.adapter.engine.attest validator n.adapter.engine.currentSlot).2 } := by
  obtain ⟨board, hboard⟩ := attestSlashing_board now validator blockHash n.adapter.engine.currentSlot n
  refine ⟨board, ?_⟩
  unfold attest
  simp only [bind_run, read_run]
  rcases hr : attestSlashing now validator blockHash n.adapter.engine.currentSlot n with ⟨f | ok, n₁⟩
  · rw [hr] at hboard
    exact .inl hboard
  · rw [hr] at hboard
    have hadapter : n₁.adapter = { n.adapter with board := board } := hboard
    cases ok with
    | true =>
      right
      simp only [if_true, bind_run, read_run, write_run, pure_run, hadapter]
    | false =>
      left
      simp only [Bool.false_eq_true, if_false, pure_run, hadapter]

theorem attest_kept (now : Int) (validator blockHash : String) (n : FullNode) :
    (attest now validator blockHash n).2.node.db.live.blocks = n.node.db.live.blocks ∧
    (attest now validator blockHash n).2.adapter.finality = n.adapter.finality ∧
    (attest now validator blockHash n).2.registered = n.registered := by
  have hblocks := (@attestSlashing_keeps now validator blockHash n.adapter.engine.currentSlot n "").1
  rw [attest_node]
  refine ⟨hblocks, ?_⟩
  unfold registered
  obtain ⟨board, hadapter | hadapter⟩ := attest_adapter now validator blockHash n
  · rw [hadapter]
    exact ⟨rfl, rfl⟩
  · rw [hadapter]
    exact ⟨rfl, ConsensusEngine.attest_validators _ _ _⟩

theorem settled_registered (n : FullNode) (r : Except Fault Block × Node) : (n.settled r).registered = n.registered := by
  rcases r with ⟨f | b', n₁⟩ <;> rfl

theorem advanceSlot_validators (s : ConsensusEngine) : s.advanceSlot.validators = s.validators := by
  unfold ConsensusEngine.advanceSlot ConsensusEngine.finalizeCheckpoint
  dsimp only
  split
  · split <;> rfl
  · rfl

end FullNode

namespace Watched

open FullNode

def step (c : Blockchain) (ev : Event) (w : Watched) : Watched :=
  { node := ev.run c w.node, attested := (ev.accepted w.node).toList ++ w.attested }

def engine (w : Watched) : FinalityEngine := w.node.adapter.finality

def getBlock (w : Watched) (height : Int) : Option BlockDict := w.node.node.db.live.getBlock height

def voters (w : Watched) (d : BlockDict) : List String :=
  w.node.registered.dedup.filter fun v => v = d.miner ∨ (v, d.hash) ∈ w.attested

/-- Each checkpoint names a stored block, at its height, and counts its voters and nobody else. -/
def Follows (w : Watched) : Prop :=
  ∀ e cp, w.engine.checkpoints.get? e = some cp →
    ∃ d, w.getBlock cp.blockNumber = some d ∧ d.hash = cp.blockHash ∧ cp.votes = (w.voters d).length ∧
      ∀ v ∈ w.engine.votesIn e, v ∈ w.voters d

structure Anchored (w : Watched) : Prop where
  stored : ∀ e hash number votes, w.engine.tally e = some (hash, number, votes) →
    ∃ d, w.getBlock number = some d ∧ d.hash = hash ∧ votes = 1 ∧ w.engine.votesIn e = [d.miner] ∧
      d.miner ∈ w.node.registered ∧ ∀ v ∈ w.node.registered, (v, hash) ∈ w.attested → v = d.miner
  empty : ∀ e, w.engine.tally e = none → w.engine.votesIn e = []

theorem Anchored.follows {w : Watched} (h : Anchored w) : Follows w := by
  intro e cp hcp
  obtain ⟨d, hd, hhash, hvotes, hin, hreg, honly⟩ := h.stored e cp.blockHash cp.blockNumber cp.votes (by
    unfold FinalityEngine.tally
    rw [hcp]
    rfl)
  have hvoters : w.voters d = w.node.registered.dedup.filter fun v => v == d.miner := by
    unfold voters
    refine List.filter_congr fun v hv => ?_
    have hv : v ∈ w.node.registered := List.mem_dedup.mp hv
    rw [Bool.eq_iff_iff, decide_eq_true_iff, beq_iff_eq, hhash]
    exact ⟨fun h => h.elim id (honly v hv), .inl⟩
  have hone : (w.voters d).length = 1 := by
    rw [hvoters, ← List.countP_eq_length_filter]
    exact List.count_eq_one_of_mem (List.nodup_dedup _) (List.mem_dedup.mpr hreg)
  refine ⟨d, hd, hhash, hvotes.trans hone.symm, fun v hv => ?_⟩
  rw [hin, List.mem_singleton] at hv
  rw [hvoters, List.mem_filter, hv]
  exact ⟨List.mem_dedup.mpr hreg, beq_self_eq_true _⟩

/-- A checkpoint names this hash at this height. -/
def Marked (w : Watched) (hash : String) (number : Int) : Prop := ∃ e votes, w.engine.tally e = some (hash, number, votes)

theorem Anchored.keep {w w' : Watched} (h : Anchored w)
    (hstored : ∀ hash number, w.Marked hash number → ∀ d, w.getBlock number = some d → d.hash = hash →
      w'.getBlock number = some d)
    (htally : FinalityEngine.SameTally w.engine w'.engine) (hreg : w'.node.registered = w.node.registered)
    (hattested : ∀ hash number, w.Marked hash number → ∀ d, w.getBlock number = some d →
      ∀ v ∈ w.node.registered, (v, hash) ∈ w'.attested → (v, hash) ∈ w.attested ∨ v = d.miner) :
    Anchored w' where
  stored e hash number votes ht := by
    rw [htally.1] at ht
    obtain ⟨d, hd, hhash, hvotes, hin, hmem, honly⟩ := h.stored e hash number votes ht
    refine ⟨d, hstored hash number ⟨e, votes, ht⟩ d hd hhash, hhash, hvotes, ?_, ?_, ?_⟩
    · rw [htally.2, hin]
    · rw [hreg]
      exact hmem
    · intro v hv hvote
      rw [hreg] at hv
      rcases hattested hash number ⟨e, votes, ht⟩ d hd v hv hvote with hold | hnew
      · exact honly v hv hold
      · exact hnew
  empty e ht := by
    rw [htally.1] at ht
    rw [htally.2]
    exact h.empty e ht

/-- Without a checkpoint nothing is claimed of the stored blocks. -/
theorem Anchored.unmarked {w w' : Watched} (h : Anchored w) (hnone : ∀ e, w.engine.tally e = none)
    (hengine : w'.engine = w.engine) : Anchored w' where
  stored e hash number votes ht := by
    rw [hengine, hnone] at ht
    cases ht
  empty e ht := by
    rw [hengine] at ht ⊢
    exact h.empty e ht

/-! ## Blocks that come in -/

/-- The block may come in: no checkpoint has its hash, and if it opens an epoch its proposer is
registered and the only registered validator who attested it so far. -/
def Welcome (w : Watched) (b : Block) : Prop :=
  (∀ hash number, w.Marked hash number → hash ≠ b.hash) ∧
    (w.engine.tally (FinalityEngine.getEpoch b.height) = none →
      b.miner ∈ w.node.registered ∧ ∀ v ∈ w.node.registered, (v, b.hash) ∈ w.attested → v = b.miner)

theorem Anchored.settled {c : Blockchain} {now : Int} {b : Block} {preserve : Bool} {w : Watched} {n₀ : Node}
    (h : Anchored w)
    (hkept : ∀ hash number, w.Marked hash number → ∀ d, w.getBlock number = some d → n₀.db.live.getBlock number = some d)
    (hwelcome : ∀ b₀, c.handed now b preserve n₀ = some b₀ → w.Welcome b₀) :
    Anchored { w with node := w.node.settled (c.addBlock now b preserve n₀) } := by
  have hreg := settled_registered w.node (c.addBlock now b preserve n₀)
  rcases hr : c.addBlock now b preserve n₀ with ⟨f | b', n₁⟩
  -- a rejected block leaves the chain and the engine
  · rw [hr] at hreg
    refine h.keep (fun hash number hm d hd _ => ?_) (.refl _) hreg fun _ _ _ _ _ _ _ hv => .inl hv
    exact (getBlock_congr (addBlock_rejected_blocks hr) number).trans (hkept hash number hm d hd)
  · rw [hr] at hreg
    obtain ⟨b₀, hb₀, hhash, hheight, hminer⟩ := handed_of_ok hr
    obtain ⟨hfresh, hopens⟩ := hwelcome b₀ hb₀
    rw [← hhash] at hfresh
    rw [← hhash, ← hheight, ← hminer] at hopens
    obtain ⟨r⟩ := addBlock_ok hr
    -- the blocks of the checkpoints stay where they are
    have hstored : ∀ hash number, w.Marked hash number → ∀ d, w.getBlock number = some d → d.hash = hash →
        n₁.db.live.getBlock number = some d := by
      intro hash number hm d hd hdh
      have hold := hkept hash number hm d hd
      have hfree := (admitBlock_ok r.admitted).free
      rw [getBlock_congr r.blocks, getBlock_putBlock]
      by_cases hn : number = b'.toDict.height
      · have hheight' : b.height = number := r.height_eq.symm.trans hn.symm
        rw [hheight', hold] at hfree
        cases hfree
      · rw [if_neg hn, hold]
        refine Option.filter_some_pos (decide_eq_true ?_)
        rw [hdh]
        exact hfresh hash number hm
    let w' : Watched := { w with node := w.node.settled (.ok b', n₁) }
    have hengine : w'.engine = w.engine.processBlock b'.height b'.hash b'.miner := rfl
    cases hcp : w.engine.checkpoints.get? (FinalityEngine.getEpoch b'.height) with
    -- the epoch has its checkpoint, and the block's hash is not its hash
    | some cp =>
      have hm : w.Marked cp.blockHash cp.blockNumber :=
        ⟨FinalityEngine.getEpoch b'.height, cp.votes, by unfold FinalityEngine.tally; rw [hcp]; rfl⟩
      have htally := @FinalityEngine.processBlock_other w.engine b'.height b'.hash b'.miner cp hcp (hfresh _ _ hm)
      exact h.keep hstored htally hreg fun _ _ _ _ _ _ _ hv => .inl hv
    -- the block opens the checkpoint of its epoch
    | none =>
      have hnone : w.engine.tally (FinalityEngine.getEpoch b'.height) = none := by
        unfold FinalityEngine.tally
        rw [hcp]
        rfl
      obtain ⟨hmem, honly⟩ := hopens hnone
      obtain ⟨htally, hvotes⟩ := @FinalityEngine.processBlock_first w.engine b'.height b'.hash b'.miner hcp
        (h.empty _ hnone)
      constructor
      · intro e hash number votes ht
        rw [hengine, htally] at ht
        rw [hengine, hvotes]
        by_cases he : e = FinalityEngine.getEpoch b'.height
        · rw [if_pos he] at ht
          cases ht
          refine ⟨b'.toDict, ?_, rfl, rfl, if_pos he, ?_, ?_⟩
          · refine (getBlock_congr r.blocks _).trans ?_
            rw [getBlock_putBlock]
            exact if_pos rfl
          · rw [hreg]
            exact hmem
          · intro v hv
            rw [hreg] at hv
            exact honly v hv
        · rw [if_neg he] at ht
          rw [if_neg he]
          obtain ⟨d, hd, hdh, hone, hin, hd', hd''⟩ := h.stored e hash number votes ht
          refine ⟨d, hstored hash number ⟨e, votes, ht⟩ d hd hdh, hdh, hone, hin, ?_, ?_⟩
          · rw [hreg]
            exact hd'
          · intro v hv
            rw [hreg] at hv
            exact hd'' v hv
      · intro e ht
        rw [hengine, htally] at ht
        rw [hengine, hvotes]
        by_cases he : e = FinalityEngine.getEpoch b'.height
        · rw [if_pos he] at ht
          cases ht
        · rw [if_neg he] at ht ⊢
          exact h.empty e ht

/-! ## Runs -/

/-- The event leaves the blocks of the checkpoints stored, and only the proposer of a checkpoint's
block attests it. -/
def Keeping (c : Blockchain) (ev : Event) (w : Watched) : Prop :=
  (∀ b, ev.proposal c w.node.node = some b → w.Welcome b) ∧
  match ev with
  | .importBlock _ peer => Truncates peer w.node.node → ∀ e, w.engine.tally e = none
  | .attest _ _ _ => ∀ v hash number d, ev.accepted w.node = some (v, hash) → w.Marked hash number →
      w.getBlock number = some d → v = d.miner
  | .reorgToAncestor _ height =>
    (0 < w.node.adapter.getFinalizedFloorHeight ∧ height < w.node.adapter.getFinalizedFloorHeight) ∨
      ∀ hash number, w.Marked hash number → number ≤ height
  | .truncateToHeight height => ∀ hash number, w.Marked hash number → number ≤ height
  | _ => True

variable {c : Blockchain} {w : Watched}

theorem anchored_step {ev : Event} (h : Anchored w) (hs : Keeping c ev w) : Anchored (w.step c ev) := by
  obtain ⟨hwelcome, hs⟩ := hs
  cases ev with
  | addBlock now b preserve =>
    have hnode : (w.step c (.addBlock now b preserve)) =
        { w with node := w.node.settled (c.addBlock now b preserve w.node.node) } :=
      congrArg (fun m => ({ w with node := m } : Watched)) (addBlock_run c now b preserve w.node)
    rw [hnode]
    exact h.settled (fun _ _ _ d hd => hd) hwelcome
  | importBlock now peer =>
    have hnode : (w.step c (.importBlock now peer)) =
        { w with node := w.node.settled (c.importBlock now peer w.node.node) } :=
      congrArg (fun m => ({ w with node := m } : Watched)) (importBlock_run c now peer w.node)
    rw [hnode]
    rcases hr : c.importBlock now peer w.node.node with ⟨f | b', n₁⟩
    -- a refused block may still have dropped the chain
    · by_cases ht : Truncates peer w.node.node
      · exact h.unmarked (hs ht) rfl
      · refine h.keep (fun hash number _ d hd _ => ?_) (.refl _) rfl fun _ _ _ _ _ _ _ hv => .inl hv
        exact (getBlock_congr (importBlock_rejected_blocks ht hr) number).trans hd
    · obtain ⟨m, hentered, hm, hadded⟩ := importBlock_entered hr
      rw [← hadded]
      refine h.settled ?_ fun b₀ hb₀ => hwelcome b₀ ?_
      · rcases hm with rfl | ⟨-, ht⟩
        · exact fun _ _ _ d hd => hd
        · rintro hash number ⟨e, votes, hmark⟩
          rw [hs ht e] at hmark
          cases hmark
      · change (importNode now peer w.node.node).bind _ = some b₀
        rw [hentered]
        exact hb₀
  | attest now validator blockHash =>
    obtain ⟨hblocks, hfinality, hreg⟩ := attest_kept now validator blockHash w.node
    refine h.keep (fun _ number _ d hd _ => (getBlock_congr hblocks number).trans hd) ?_ hreg ?_
    · have hengine : (w.step c (.attest now validator blockHash)).engine = w.engine := hfinality
      rw [hengine]
      exact .refl _
    · intro hash number hm d hd v _ hv
      unfold step at hv
      rcases List.mem_append.mp hv with hnew | hold
      · exact .inr (hs v hash number d (Option.mem_toList.mp hnew) hm hd)
      · exact .inl hold
  | markBlockProduced =>
    refine h.keep (fun _ _ _ _ hd _ => hd) (.refl _) ?_ fun _ _ _ _ _ _ _ hv => .inl hv
    exact congrArg (List.map Prod.fst) (advanceSlot_validators w.node.adapter.engine)
  | reorgToAncestor now height =>
    -- a rollback is refused, or cuts above the checkpoints
    rcases hs with hfloor | hle
    · have hsame : w.step c (.reorgToAncestor now height) = w :=
        congrArg (fun m => ({ w with node := m } : Watched)) (reorg_refused hfloor)
      rw [hsame]
      exact h
    · refine h.keep (fun hash number hm d hd _ => ?_) (.refl _) rfl fun _ _ _ _ _ _ _ hv => .inl hv
      exact reorg_below hd (hle hash number hm)
  | truncateToHeight height =>
    refine h.keep (fun hash number hm d hd _ => ?_) (.refl _) rfl fun _ _ _ _ _ _ _ hv => .inl hv
    exact truncate_below hd (hs hash number hm)

/-- A new adapter has no checkpoints, whatever chain it is started on. -/
def launch (n : FullNode) : Watched := { node := n, attested := [] }

theorem anchored_launch {n : FullNode} (hcheckpoints : n.adapter.finality.checkpoints = [])
    (hvotes : n.adapter.finality.votes = []) : Anchored (launch n) where
  stored e hash number votes ht := by
    unfold FinalityEngine.tally engine launch at ht
    rw [hcheckpoints] at ht
    cases ht
  empty e _ := by
    unfold FinalityEngine.votesIn engine launch
    rw [hvotes]
    rfl

/-- The run theorem, from a new adapter on. -/
theorem checkpoints_follow (c : Blockchain) (events : List Event) (n : FullNode)
    (hcheckpoints : n.adapter.finality.checkpoints = []) (hvotes : n.adapter.finality.votes = [])
    (hs : Along (step c) (Keeping c) events (launch n)) : Always (step c) Follows events (launch n) :=
  (always_of_along (fun _ _ h hs => anchored_step h hs) (anchored_launch hcheckpoints hvotes) hs).imp fun _ h => h.follows

theorem checkpoints_follow_solo : Always (step plain) Follows [importOf 1 "g" "x" "v"] (launch solo) := by
  have hany : ∀ n : FullNode, n.adapter.finality.checkpoints = [] → n.adapter.finality.votes = [] →
      (((importOf 1 "g" "x" "v").proposal plain n.node).map Block.miner = some "v") → "v" ∈ n.registered →
      Always (step plain) Follows [importOf 1 "g" "x" "v"] (launch n) := by
    intro n hcheckpoints hvotes hminer hv
    have hnone : ∀ e, (launch n).engine.tally e = none := by
      intro e
      unfold FinalityEngine.tally engine launch
      rw [hcheckpoints]
      rfl
    refine checkpoints_follow plain _ n hcheckpoints hvotes ⟨⟨fun b hb => ⟨?_, fun _ => ⟨?_, ?_⟩⟩, fun _ => hnone⟩, trivial⟩
    · rintro hash number ⟨e, votes, hm⟩
      rw [hnone e] at hm
      cases hm
    · have hb' : (importOf 1 "g" "x" "v").proposal plain n.node = some b := hb
      rw [hb'] at hminer
      rw [Option.some.inj hminer]
      exact hv
    · intro v _ hvote
      cases hvote
  apply hany solo
  · decide +kernel
  · decide +kernel
  · decide +kernel
  · decide +kernel

theorem Follows.read (h : Follows w) {e : Int} {hash : String} {number : Int} {votes : Nat}
    (ht : w.engine.tally e = some (hash, number, votes)) :
    (w.getBlock number).map (fun d => (d.hash, (w.voters d).length)) = some (hash, votes) := by
  unfold FinalityEngine.tally at ht
  obtain ⟨cp, hcp, hread⟩ := Option.map_eq_some_iff.mp ht
  obtain ⟨d, hd, hhash, hvotes, -⟩ := h e cp hcp
  cases hread
  rw [hd, ← hhash, hvotes]
  rfl

def duo : FullNode :=
  let t := (genesisNode none).db.live
  let row : Validator := { stake := 100, active := true, slashed := false, joinedAt := 0 }
  FullNode.start ⟨32, epochSize_pos⟩ { file := { t with validators := (t.validators.put "v" row).put "w" row }, pending := none }

/-- Another genesis block removes the block of a checkpoint, and another block takes its height; the proposer
counts although it is not registered; and who attests the block does not count. -/
theorem checkpoints_stray :
    ¬ Follows (run (step plain) [importOf 1 "g" "x" "v", importOf 0 genesisHash "h" "genesis"] (launch solo)) ∧
    ¬ Follows (run (step plain)
      [importOf 1 "g" "x" "v", importOf 0 genesisHash "h" "genesis", importOf 1 "h" "y" "u"] (launch solo)) ∧
    ¬ Follows (run (step plain) [importOf 1 "g" "x" "u"] (launch solo)) ∧
    ¬ Follows (run (step plain) [importOf 1 "g" "x" "v", .attest 2 "w" "x"] (launch duo)) := by
  have hstray : ∀ w : Watched, w.engine.tally 0 = some ("x", 1, 1) →
      (w.getBlock 1).map (fun d => (d.hash, (w.voters d).length)) ≠ some ("x", 1) → ¬ Follows w :=
    fun w ht hne h => hne (h.read ht)
  refine ⟨hstray _ ?_ ?_, hstray _ ?_ ?_, hstray _ ?_ ?_, hstray _ ?_ ?_⟩
  all_goals decide +kernel

end Watched

end AbsoluteChain
