import AbsoluteChain.FinalitySound
import Mathlib.Logic.Relation

/-!
# Finality agreement

Whether two blocks that an engine reports as final can be in conflict. A gadget is an
engine seen as a board of blocks, justified blocks and final epochs; the three engines
are gadgets.
-/

namespace AbsoluteChain

open Python Runs

/-! ## Branches -/

structure BlockTree where
  parent : String → Option String
  number : String → Int

def BlockTree.Has (T : BlockTree) (b : ForkBlock) : Prop := b.parent = T.parent b.hash ∧ b.number = T.number b.hash

namespace ForkTree

def Edge (f : ForkTree) (parent child : String) : Prop := child ∈ f.children parent

def Ancestor (f : ForkTree) : String → String → Prop := Relation.ReflTransGen f.Edge

theorem edge_addBlock {f : ForkTree} {b : ForkBlock} {p h : String} :
    (f.addBlock b).Edge p h ↔ f.Edge p h ∨ b.link = some p ∧ h = b.hash := by
  unfold Edge children addBlock
  have hfirst : ∀ q, (((if f.tree.contains b.hash then f.tree
      else f.tree.set b.hash { parent := b.parent, children := [], number := b.number }).get? q).map
        TreeNode.children).getD [] = ((f.tree.get? q).map TreeNode.children).getD [] := by
    intro q
    by_cases hc : f.tree.contains b.hash = true
    · rw [if_pos hc]
    · rw [if_neg hc, Dict.get?_set]
      by_cases hq : q = b.hash
      · subst hq
        have hnone : f.tree.get? b.hash = none := by simpa [Dict.contains] using hc
        simp [hnone]
      · rw [if_neg hq]
  generalize (if f.tree.contains b.hash then f.tree
      else f.tree.set b.hash { parent := b.parent, children := [], number := b.number }) = tree at hfirst
  cases hp : b.link with
  | none => simp [hfirst]
  | some parent =>
    simp only [Dict.get?_set, ← hfirst p, Option.some.injEq]
    by_cases hpp : p = parent
    · subst hpp
      cases hn : tree.get? p with
      | none => simp
      | some node =>
        by_cases hm : b.hash ∈ node.children
        · simp only [if_true, Option.map_some, Option.getD_some, if_pos hm, true_and]
          constructor
          · exact .inl
          · rintro (h | rfl)
            · exact h
            · exact hm
        · simp [hm]
    · have hpp' : ¬ parent = p := fun h => hpp h.symm
      simp [hpp, hpp']

theorem Ancestor.addBlock {f : ForkTree} {a j : String} (h : f.Ancestor a j) (b : ForkBlock) :
    (f.addBlock b).Ancestor a j := by
  induction h with
  | refl => exact .refl
  | tail _ he ih => exact ih.tail (edge_addBlock.mpr (.inl he))

/-- A set that contains the children of its members contains their descendants. -/
theorem Ancestor.mem_of_closed {f : ForkTree} {S : String → Prop} (hS : ∀ p h, S p → f.Edge p h → S h) {a j : String}
    (h : f.Ancestor a j) (ha : S a) : S j := by
  induction h with
  | refl => exact ha
  | tail _ he ih => exact hS _ _ ih he

/-- Two ancestors of one block are on one branch. -/
theorem Ancestor.comparable {f : ForkTree} (hf : ∀ p q h, f.Edge p h → f.Edge q h → p = q) {a b j : String}
    (ha : f.Ancestor a j) (hb : f.Ancestor b j) : f.Ancestor a b ∨ f.Ancestor b a := by
  have hunique : Relator.RightUnique (Function.swap f.Edge) := fun h p q hp hq => hf p q h hp hq
  have ha' := Relation.reflTransGen_swap.mpr ha
  have hb' := Relation.reflTransGen_swap.mpr hb
  rcases Relation.ReflTransGen.total_of_right_unique hunique ha' hb' with h | h
  · exact .inr (Relation.reflTransGen_swap.mp h)
  · exact .inl (Relation.reflTransGen_swap.mp h)

end ForkTree

/-! ## Boards -/

/-- What an engine has to do with finality. -/
structure Board where
  fork : ForkTree
  epochs : EpochManager
  finalized : List Int
  justified : Dict Int String

namespace Board

def Final (B : Board) (h : String) : Prop :=
  ∃ x, B.fork.blocks.get? h = some x ∧ B.epochs.getEpoch x.number ∈ B.finalized

/-- No two final blocks are in conflict, and each is on the branch of the justified block of its epoch. -/
def Agreement (B : Board) : Prop :=
  (∀ a b, B.Final a → B.Final b → B.fork.Ancestor a b ∨ B.fork.Ancestor b a) ∧
    ∀ a x, B.fork.blocks.get? a = some x → B.epochs.getEpoch x.number ∈ B.finalized →
      ∃ j, B.justified.get? (B.epochs.getEpoch x.number) = some j ∧ B.fork.Ancestor a j

/-- The known blocks of the epoch are on the branch of its justified block, which does not conflict
with the justified block of another final epoch. -/
def Settled (B : Board) (epoch : Int) : Prop :=
  ∃ j, B.justified.get? epoch = some j ∧
    (∀ a x, B.fork.blocks.get? a = some x → B.epochs.getEpoch x.number = epoch → B.fork.Ancestor a j) ∧
    ∀ e ∈ B.finalized, ∀ i, B.justified.get? e = some i → B.fork.Ancestor i j ∨ B.fork.Ancestor j i

def addBlock (b : ForkBlock) (B : Board) : Board := { B with fork := B.fork.addBlock b }

/-- An attestation leaves the blocks alone, keeps the justified blocks and makes `final` final. -/
structure Moves (B : Board) (final : Option Int) (B' : Board) : Prop where
  fork : B'.fork = B.fork
  epochs : B'.epochs = B.epochs
  finalized : B'.finalized = final.toList ++ B.finalized
  justified : ∀ e j, B.justified.get? e = some j → B'.justified.get? e = some j

structure Branched (T : BlockTree) (B : Board) : Prop where
  edges : ∀ p h, B.fork.Edge p h → T.parent h = some p
  settled : ∀ e ∈ B.finalized, B.Settled e

theorem Branched.agreement {T : BlockTree} {B : Board} (h : Branched T B) : B.Agreement := by
  have hf : ∀ p q x, B.fork.Edge p x → B.fork.Edge q x → p = q := by
    intro p q x hp hq
    exact Option.some.inj ((h.edges p x hp).symm.trans (h.edges q x hq))
  refine ⟨?_, ?_⟩
  · rintro a b ⟨x, hx, hxe⟩ ⟨y, hy, hye⟩
    obtain ⟨i, hi, hall, -⟩ := h.settled _ hxe
    obtain ⟨j, -, hallj, hlinked⟩ := h.settled _ hye
    have ha := hall a x hx rfl
    have hb := hallj b y hy rfl
    rcases hlinked _ hxe i hi with hij | hji
    · exact ForkTree.Ancestor.comparable hf (ha.trans hij) hb
    · exact ForkTree.Ancestor.comparable hf ha (hb.trans hji)
  · intro a x hx hxe
    obtain ⟨j, hj, hall, -⟩ := h.settled _ hxe
    exact ⟨j, hj, hall a x hx rfl⟩

theorem Branched.addBlock {T : BlockTree} {B : Board} {b : ForkBlock} (h : Branched T B) (hb : T.Has b)
    (hnew : B.epochs.getEpoch b.number ∈ B.finalized →
      ∃ j, B.justified.get? (B.epochs.getEpoch b.number) = some j ∧ (B.fork.addBlock b).Ancestor b.hash j) :
    Branched T (B.addBlock b) := by
  refine ⟨?_, ?_⟩
  · intro p x hx
    rcases ForkTree.edge_addBlock.mp hx with hx | ⟨hp, rfl⟩
    · exact h.edges p x hx
    · rw [← hb.1, ForkBlock.parent_of_link hp]
  · intro e he
    obtain ⟨j, hj, hall, hlinked⟩ := h.settled e he
    refine ⟨j, hj, ?_, fun e' he' i hi => (hlinked e' he' i hi).imp (·.addBlock b) (·.addBlock b)⟩
    intro a x hx hxe
    have hget : (B.fork.blocks.set b.hash b).get? a = some x := hx
    rw [Dict.get?_set] at hget
    by_cases ha : a = b.hash
    · rw [if_pos ha] at hget
      cases hget
      have hxe' : B.epochs.getEpoch b.number = e := hxe
      obtain ⟨i, hi, hai⟩ := hnew (hxe' ▸ he)
      rw [hxe', hj] at hi
      cases hi
      rw [ha]
      exact hai
    · rw [if_neg ha] at hget
      exact (hall a x hget hxe).addBlock b

theorem Branched.moves {T : BlockTree} {B B' : Board} {final : Option Int} (h : Branched T B) (hm : Moves B final B')
    (hfinal : ∀ e ∈ final, B.Settled e) : Branched T B' := by
  -- each final epoch of `B'` is settled in `B`, also against the new one
  have hall : ∀ e ∈ B'.finalized, ∃ j, B.justified.get? e = some j ∧
      (∀ a x, B.fork.blocks.get? a = some x → B.epochs.getEpoch x.number = e → B.fork.Ancestor a j) ∧
      ∀ e' ∈ B'.finalized, ∀ i, B.justified.get? e' = some i → B.fork.Ancestor i j ∨ B.fork.Ancestor j i := by
    intro e he
    rw [hm.finalized] at he ⊢
    rcases List.mem_append.mp he with hnew | hold
    · obtain ⟨j, hj, hblocks, hlinked⟩ := hfinal e (by simpa using hnew)
      refine ⟨j, hj, hblocks, fun e' he' i hi => ?_⟩
      rcases List.mem_append.mp he' with hnew' | hold'
      · have hsame : e' = e := by
          have h₁ : final = some e := by simpa using hnew
          have h₂ : final = some e' := by simpa using hnew'
          exact Option.some.inj (h₂.symm.trans h₁)
        rw [hsame, hj] at hi
        cases hi
        exact .inl .refl
      · exact hlinked e' hold' i hi
    · obtain ⟨j, hj, hblocks, hlinked⟩ := h.settled e hold
      refine ⟨j, hj, hblocks, fun e' he' i hi => ?_⟩
      rcases List.mem_append.mp he' with hnew' | hold'
      · obtain ⟨i', hi', -, hlinked'⟩ := hfinal e' (by simpa using hnew')
        rw [hi] at hi'
        cases hi'
        exact (hlinked' e hold j hj).symm
      · exact hlinked e' hold' i hi
  refine ⟨?_, ?_⟩
  · intro p x hx
    rw [hm.fork] at hx
    exact h.edges p x hx
  · intro e he
    obtain ⟨j, hj, hblocks, hlinked⟩ := hall e he
    unfold Settled
    rw [hm.fork, hm.epochs]
    refine ⟨j, hm.justified e j hj, hblocks, fun e' he' i hi => ?_⟩
    obtain ⟨i', hi', -⟩ := hall e' he'
    rw [hm.justified e' i' hi'] at hi
    cases hi
    exact hlinked e' he' i hi'

end Board

/-! ## Gadgets -/

structure FinalityGadget (σ : Type) where
  feed : Feed → σ → σ
  board : σ → Board
  isFinalized : σ → String → Bool
  /-- The epoch that an attestation is about to make final. -/
  finalizes : Feed → σ → Option Int
  Sound : σ → Prop
  sound_feed : ∀ f s, Sound s → Sound (feed f s)
  isFinalized_iff : ∀ s h, isFinalized s h = true ↔ (board s).Final h
  addBlock : ∀ b s, board (feed (.addBlock b) s) = (board s).addBlock b
  attest : ∀ now v h slot s, Sound s →
    Board.Moves (board s) (finalizes (.attest now v h slot) s) (board (feed (.attest now v h slot) s))

namespace FinalityGadget

variable {σ : Type} (G : FinalityGadget σ)

/-- No two blocks reported as final are in conflict, and each is on the branch of the block recorded
as justified for its epoch. -/
def Agreement (s : σ) : Prop :=
  (∀ a b, G.isFinalized s a → G.isFinalized s b →
    (G.board s).fork.Ancestor a b ∨ (G.board s).fork.Ancestor b a) ∧
  ∀ a x, G.isFinalized s a → (G.board s).fork.blocks.get? a = some x →
    ∃ j, (G.board s).justified.get? ((G.board s).epochs.getEpoch x.number) = some j ∧ (G.board s).fork.Ancestor a j

/-- A block fed for a final epoch is on the branch of its justified block; an epoch made final by an
attestation is settled. -/
def OnBranch (f : Feed) (s : σ) : Prop :=
  match f with
  | .addBlock b =>
    (G.board s).epochs.getEpoch b.number ∈ (G.board s).finalized →
      ∃ j, (G.board s).justified.get? ((G.board s).epochs.getEpoch b.number) = some j ∧
        ((G.board s).fork.addBlock b).Ancestor b.hash j
  | .attest .. => ∀ e ∈ G.finalizes f s, (G.board s).Settled e

theorem agreement_of_branched {T : BlockTree} {s : σ} (h : Board.Branched T (G.board s)) : G.Agreement s := by
  obtain ⟨hconflict, hjustified⟩ := h.agreement
  refine ⟨?_, ?_⟩
  · intro a b ha hb
    exact hconflict a b ((G.isFinalized_iff s a).mp ha) ((G.isFinalized_iff s b).mp hb)
  · intro a x ha hx
    obtain ⟨y, hy, hye⟩ := (G.isFinalized_iff s a).mp ha
    rw [hx] at hy
    cases hy
    exact hjustified a x hx hye

theorem always_agreement {T : BlockTree} {feeds : List Feed} {s : σ} (hs : G.Sound s)
    (hedges : ∀ p h, (G.board s).fork.Edge p h → T.parent h = some p) (hstart : (G.board s).finalized = [])
    (hT : ∀ b, .addBlock b ∈ feeds → T.Has b) (h : Along G.feed G.OnBranch feeds s) :
    Always G.feed G.Agreement feeds s := by
  have hbranched : Board.Branched T (G.board s) := ⟨hedges, by rw [hstart]; simp⟩
  clear hedges hstart
  induction feeds generalizing s with
  | nil => exact G.agreement_of_branched hbranched
  | cons f rest ih =>
    obtain ⟨hon, hrest⟩ := h
    refine ⟨G.agreement_of_branched hbranched, ih (G.sound_feed f s hs) (fun b hb => hT b (List.mem_cons_of_mem _ hb))
      hrest ?_⟩
    cases f with
    | addBlock b =>
      rw [G.addBlock]
      exact hbranched.addBlock (hT b (List.mem_cons_self ..)) hon
    | attest now v h slot => exact hbranched.moves (G.attest now v h slot s hs) hon

end FinalityGadget

/-! ## The three engines -/

theorem Board.Moves.same {B B' : Board} (hf : B'.fork = B.fork) (he : B'.epochs = B.epochs)
    (hfin : B'.finalized = B.finalized) (hj : B'.justified = B.justified) : Board.Moves B none B' :=
  ⟨hf, he, by rw [hfin]; rfl, fun e j h => by rw [hj]; exact h⟩

namespace BeaconFinality

variable (f : BeaconFinality)

def board (fork : ForkTree) : Board :=
  { fork := fork, epochs := f.epochs, finalized := f.finalizedEpochs, justified := f.justifiedBlocks }

def finalizes (blockHash : String) (slot weight : Int) : Option Int :=
  let epoch := f.epochs.getEpoch slot
  if ((f.count blockHash epoch weight).decision epoch).isSome ∧ epoch - 1 ∈ f.justifiedEpochs ∧
      epoch - 1 ∉ f.finalizedEpochs then some (epoch - 1)
  else none

def Sound : Prop := ∀ e j, f.justifiedBlocks.get? e = some j → e ∈ f.justifiedEpochs

theorem sound_addVote (hs : f.Sound) (h : String) (slot w : Int) : (f.addVote h slot w).Sound := by
  unfold addVote
  rw [evaluate_eq]
  cases (f.count h (f.epochs.getEpoch slot) w).decision (f.epochs.getEpoch slot) with
  | none => exact hs
  | some best =>
    intro e j hj
    simp only [justify_justifiedBlocks, Dict.get?_set] at hj
    simp only [justify_justifiedEpochs, List.mem_cons]
    by_cases he : e = f.epochs.getEpoch slot
    · exact .inl he
    · rw [if_neg he] at hj
      exact .inr (hs e j hj)

theorem justify_finalizedEpochs (epoch : Int) (h : String) :
    (f.justify epoch h).finalizedEpochs =
      if epoch - 1 ∈ f.justifiedEpochs ∧ epoch - 1 ∉ f.finalizedEpochs then (epoch - 1) :: f.finalizedEpochs
      else f.finalizedEpochs := by
  unfold justify
  have hne : epoch - 1 ≠ epoch := by omega
  by_cases hc : epoch - 1 ∈ f.justifiedEpochs ∧ epoch - 1 ∉ f.finalizedEpochs
  · simp [hc]
  · simp only [List.mem_cons, hne, false_or, if_neg hc]

theorem addVote_moves (hs : f.Sound) (fork : ForkTree) (h : String) (slot w : Int) :
    Board.Moves (f.board fork) (f.finalizes h slot w) ((f.addVote h slot w).board fork) := by
  rcases hd : (f.count h (f.epochs.getEpoch slot) w).decision (f.epochs.getEpoch slot) with _ | best
  · have hsame : f.addVote h slot w = f.count h (f.epochs.getEpoch slot) w := by
      unfold addVote
      rw [evaluate_eq, hd]
    have hnone : f.finalizes h slot w = none := by simp [finalizes, hd]
    rw [hsame, hnone]
    exact .same rfl rfl rfl rfl
  · have hjust : f.addVote h slot w =
        (f.count h (f.epochs.getEpoch slot) w).justify (f.epochs.getEpoch slot) best.1 := by
      unfold addVote
      rw [evaluate_eq, hd]
    obtain ⟨hnew, -, -⟩ := decision_some _ hd
    refine ⟨rfl, ?_, ?_, ?_⟩
    · simp [board]
    · show (f.addVote h slot w).finalizedEpochs = (f.finalizes h slot w).toList ++ f.finalizedEpochs
      rw [hjust, justify_finalizedEpochs]
      show (if f.epochs.getEpoch slot - 1 ∈ f.justifiedEpochs ∧ f.epochs.getEpoch slot - 1 ∉ f.finalizedEpochs then
        (f.epochs.getEpoch slot - 1) :: f.finalizedEpochs else f.finalizedEpochs) = _
      by_cases hc : f.epochs.getEpoch slot - 1 ∈ f.justifiedEpochs ∧ f.epochs.getEpoch slot - 1 ∉ f.finalizedEpochs
      · simp [finalizes, hd, hc]
      · simp only [finalizes, hd, Option.isSome_some, true_and, if_neg hc]
        rfl
    · intro e j hj
      show (f.addVote h slot w).justifiedBlocks.get? e = some j
      rw [hjust, justify_justifiedBlocks]
      have he : e ≠ f.epochs.getEpoch slot := fun heq => hnew (heq ▸ hs e j hj)
      rw [Dict.get?_set_of_ne _ he]
      exact hj

theorem isFinalized_iff (fork : ForkTree) (h : String) :
    (match fork.blocks.get? h with
      | none => false
      | some b => f.isFinalized b.number) = true ↔ (f.board fork).Final h := by
  unfold Board.Final board isFinalized
  cases fork.blocks.get? h with
  | none => simp
  | some b => simp

end BeaconFinality

def beaconGadget : FinalityGadget ConsensusEngineBeacon where
  feed
    | .addBlock b, s => s.addBlock b
    | .attest _ v h slot, s => (s.onAttestation v h slot).2
  board s := s.finality.board s.fork
  isFinalized := ConsensusEngineBeacon.isFinalized
  finalizes
    | .addBlock _, _ => none
    | .attest _ v h slot, s =>
      if (s.lmd.update v h slot).1 then s.finality.finalizes h slot ((s.lmd.validatorStake.get? v).getD 0) else none
  Sound s := s.finality.Sound
  sound_feed := by
    intro f s hs
    cases f with
    | addBlock b => exact hs
    | attest now v h slot =>
      simp only [ConsensusEngineBeacon.onAttestation]
      split
      · exact s.finality.sound_addVote hs _ _ _
      · exact hs
  isFinalized_iff s h := s.finality.isFinalized_iff s.fork h
  addBlock _ _ := rfl
  attest := by
    intro now v h slot s hs
    have hstake : (s.lmd.update v h slot).2.validatorStake = s.lmd.validatorStake := by
      unfold LmdTable.update
      split
      · simp only
        split
        · rfl
        · split <;> rfl
      · rfl
    simp only [ConsensusEngineBeacon.onAttestation]
    by_cases ha : (s.lmd.update v h slot).1 = true
    · simp only [ha, if_true, hstake]
      exact s.finality.addVote_moves hs s.fork h slot _
    · simp only [ha, Bool.false_eq_true, if_false]
      exact .same rfl rfl rfl rfl

def slashingGadget : FinalityGadget ConsensusEngineSlashing where
  feed := ConsensusEngineSlashing.feed
  board s := s.board.finality.board s.board.fork
  isFinalized := ConsensusEngineSlashing.isFinalized
  finalizes f s :=
    (s.counted f).bind fun b =>
      s.board.finality.finalizes b.block b.slot ((s.slashing.stakes.get? b.validator).getD 0)
  Sound s := s.board.finality.Sound
  sound_feed := by
    intro f s hs
    rcases Poll.feed_finality s f with ⟨b, -, -, -, -, hf⟩ | ⟨-, hf | hf⟩
    · rw [hf]
      exact s.board.finality.sound_addVote hs _ _ _
    · rw [hf]
      exact hs
    · rw [hf]
      exact hs
  isFinalized_iff s h := s.board.finality.isFinalized_iff s.board.fork h
  addBlock _ _ := rfl
  attest := by
    intro now v h slot s hs
    have hfork : (s.feed (.attest now v h slot)).board.fork = s.board.fork := by
      unfold ConsensusEngineSlashing.feed ConsensusEngineSlashing.onAttestation
      simp only
      split
      · simp only [ConsensusEngineSlashing.setTotalStake, ConsensusEngineSlashing.tally]
        split <;> rfl
      · rfl
    rcases Poll.feed_finality s (.attest now v h slot) with ⟨b, hb, -, -, -, hf⟩ | ⟨hn, hf | hf⟩
    · rw [hf, hfork, hb]
      exact s.board.finality.addVote_moves hs s.board.fork b.block b.slot _
    · rw [hf, hfork, hn]
      exact .same rfl rfl rfl rfl
    · rw [hf, hfork, hn]
      exact .same rfl rfl rfl rfl

namespace CasperFinality

variable (f : CasperFinality)

def board (epochs : EpochManager) (fork : ForkTree) : Board :=
  { fork := fork, epochs := epochs, finalized := f.finalizedEpochs, justified := f.justifiedBlocks }

def finalizes (epoch : Int) (blockHash : String) (weight : Int) : Option Int :=
  match heaviest ((f.count blockHash epoch weight).votesIn epoch) with
  | none => none
  | some best =>
    if twoThirds f.totalStake ≤ best.2 ∧ epoch - 1 ∈ f.justifiedEpochs ∧ epoch - 1 ∉ f.finalizedEpochs then
      some (epoch - 1)
    else none

def Sound : Prop := ∀ e j, f.justifiedBlocks.get? e = some j → e ∈ f.justifiedEpochs

theorem justifyEpoch_finalizedEpochs (epoch : Int) (h : String) :
    (f.justifyEpoch epoch h).finalizedEpochs = f.finalizedEpochs := by
  unfold justifyEpoch
  split <;> rfl

theorem tryFinalize_justified (epoch : Int) :
    (f.tryFinalize epoch).justifiedEpochs = f.justifiedEpochs ∧
      (f.tryFinalize epoch).justifiedBlocks = f.justifiedBlocks := by
  unfold tryFinalize
  split <;> exact ⟨rfl, rfl⟩

theorem mem_justifyEpoch {epoch e : Int} (h : String) (he : e ≠ epoch) :
    e ∈ (f.justifyEpoch epoch h).justifiedEpochs ↔ e ∈ f.justifiedEpochs := by
  unfold justifyEpoch
  split
  · rfl
  · simp [he]

theorem sound_justifyEpoch (hs : f.Sound) (epoch : Int) (h : String) : (f.justifyEpoch epoch h).Sound := by
  unfold justifyEpoch
  by_cases hj : epoch ∈ f.justifiedEpochs
  · rw [if_pos hj]
    exact hs
  · rw [if_neg hj]
    intro e j he
    simp only [Dict.get?_set] at he
    simp only [List.mem_cons]
    by_cases hee : e = epoch
    · exact .inl hee
    · rw [if_neg hee] at he
      exact .inr (hs e j he)

theorem justifyEpoch_get? (hs : f.Sound) {epoch e : Int} (h : String) {j : String}
    (hj : f.justifiedBlocks.get? e = some j) : (f.justifyEpoch epoch h).justifiedBlocks.get? e = some j := by
  unfold justifyEpoch
  by_cases hm : epoch ∈ f.justifiedEpochs
  · rw [if_pos hm]
    exact hj
  · rw [if_neg hm]
    have he : e ≠ epoch := fun heq => hm (heq ▸ hs e j hj)
    simpa [Dict.get?_set_of_ne _ he] using hj

theorem sound_addVote (hs : f.Sound) (epoch : Int) (h : String) (w : Int) : (f.addVote epoch h w).Sound := by
  unfold addVote evaluate
  cases heaviest ((f.count h epoch w).votesIn epoch) with
  | none => exact hs
  | some best =>
    by_cases hw : twoThirds f.totalStake ≤ best.2
    · have hs' := (f.count h epoch w).sound_justifyEpoch hs epoch best.1
      obtain ⟨he, hb⟩ := tryFinalize_justified ((f.count h epoch w).justifyEpoch epoch best.1) epoch
      simp only [show twoThirds (f.count h epoch w).totalStake ≤ best.2 from hw, if_true]
      unfold Sound
      rw [he, hb]
      exact hs'
    · simp only [show ¬ twoThirds (f.count h epoch w).totalStake ≤ best.2 from hw, if_false]
      exact hs

theorem addVote_moves (hs : f.Sound) (epochs : EpochManager) (fork : ForkTree) (epoch : Int) (h : String) (w : Int) :
    Board.Moves (f.board epochs fork) (f.finalizes epoch h w) ((f.addVote epoch h w).board epochs fork) := by
  unfold addVote evaluate finalizes
  cases hh : heaviest ((f.count h epoch w).votesIn epoch) with
  | none => exact .same rfl rfl rfl rfl
  | some best =>
    by_cases hw : twoThirds f.totalStake ≤ best.2
    · simp only [show twoThirds (f.count h epoch w).totalStake ≤ best.2 from hw, hw, if_true, true_and]
      refine ⟨rfl, rfl, ?_, ?_⟩
      · have hne : epoch - 1 ≠ epoch := by omega
        show (((f.count h epoch w).justifyEpoch epoch best.1).tryFinalize epoch).finalizedEpochs = _
        unfold tryFinalize
        simp only [mem_justifyEpoch _ _ hne, justifyEpoch_finalizedEpochs]
        by_cases hc : epoch - 1 ∈ f.justifiedEpochs ∧ epoch - 1 ∉ f.finalizedEpochs
        · rw [if_pos hc, if_pos (show epoch - 1 ∈ (f.count h epoch w).justifiedEpochs ∧
            epoch - 1 ∉ (f.count h epoch w).finalizedEpochs from hc)]
          rfl
        · rw [if_neg hc, if_neg (show ¬ (epoch - 1 ∈ (f.count h epoch w).justifiedEpochs ∧
            epoch - 1 ∉ (f.count h epoch w).finalizedEpochs) from hc)]
          exact justifyEpoch_finalizedEpochs _ _ _
      · intro e j hj
        show (((f.count h epoch w).justifyEpoch epoch best.1).tryFinalize epoch).justifiedBlocks.get? e = some j
        rw [(tryFinalize_justified _ _).2]
        exact (f.count h epoch w).justifyEpoch_get? hs best.1 hj
    · simp only [show ¬ twoThirds (f.count h epoch w).totalStake ≤ best.2 from hw, hw, if_false, false_and]
      exact .same rfl rfl rfl rfl

end CasperFinality

/-- The weight that an attestation adds in the Casper engine: that of all the latest votes for the block. -/
def casperWeight (s : ConsensusEngineCasper) (v h : String) (slot : Int) : Int :=
  ((s.lmd.update v h slot).2.getWeights.get? h).getD 0

def casperGadget : FinalityGadget ConsensusEngineCasper where
  feed
    | .addBlock b, s => s.addBlock b
    | .attest _ v h slot, s => (s.onAttestation v h slot).2
  board s := s.finality.board s.epochs s.fork
  isFinalized := ConsensusEngineCasper.isFinalized
  finalizes
    | .addBlock _, _ => none
    | .attest _ v h slot, s =>
      (s.fork.blocks.get? h).bind fun b => s.finality.finalizes (s.epochs.getEpoch b.number) h (casperWeight s v h slot)
  Sound s := s.finality.Sound
  sound_feed := by
    intro f s hs
    cases f with
    | addBlock b => exact hs
    | attest now v h slot =>
      simp only [ConsensusEngineCasper.onAttestation]
      split
      · exact hs
      · exact s.finality.sound_addVote hs _ _ _
  isFinalized_iff s h := by
    unfold Board.Final CasperFinality.board ConsensusEngineCasper.isFinalized CasperFinality.isFinalized
    cases s.fork.blocks.get? h with
    | none => simp
    | some b => simp
  addBlock _ _ := rfl
  attest := by
    intro now v h slot s hs
    simp only [ConsensusEngineCasper.onAttestation]
    cases hb : s.fork.blocks.get? h with
    | none => exact .same rfl rfl rfl rfl
    | some b =>
      exact s.finality.addVote_moves hs s.epochs s.fork (s.epochs.getEpoch b.number) h (casperWeight s v h slot)

/-! ## Agreement -/

def ConsensusEngineBeacon.withValidators (epochs : EpochManager) (validators : List (String × Int)) :
    ConsensusEngineBeacon :=
  validators.foldl (fun s v => s.addValidator v.1 v.2) (.start epochs)

def ConsensusEngineCasper.withValidators (epochs : EpochManager) (validators : List (String × Int)) :
    ConsensusEngineCasper :=
  validators.foldl (fun s v => s.addValidator v.1 v.2) (.start epochs)

theorem foldl_induction {σ α : Type} {P : σ → Prop} {f : σ → α → σ} (hf : ∀ s a, P s → P (f s a)) (l : List α) {s : σ}
    (hs : P s) : P (l.foldl f s) := by
  induction l generalizing s with
  | nil => exact hs
  | cons a t ih => exact ih (hf s a hs)

namespace FinalityGadget

/-- No block was fed and no epoch was decided. -/
structure Fresh {σ : Type} (G : FinalityGadget σ) (s : σ) : Prop where
  sound : G.Sound s
  fork : (G.board s).fork = .empty
  finalized : (G.board s).finalized = []

theorem fresh_slashing (epochs : EpochManager) (validators : List (String × Int)) :
    slashingGadget.Fresh (.withValidators epochs validators) := by
  refine foldl_induction (fun s v hs => ?_) validators ⟨?_, rfl, rfl⟩
  · exact ⟨hs.sound, hs.fork, hs.finalized⟩
  · intro e j h
    cases h

theorem fresh_beacon (epochs : EpochManager) (validators : List (String × Int)) :
    beaconGadget.Fresh (.withValidators epochs validators) := by
  refine foldl_induction (fun s v hs => ?_) validators ⟨?_, rfl, rfl⟩
  · exact ⟨hs.sound, hs.fork, hs.finalized⟩
  · intro e j h
    cases h

theorem fresh_casper (epochs : EpochManager) (validators : List (String × Int)) :
    casperGadget.Fresh (.withValidators epochs validators) := by
  refine foldl_induction (fun s v hs => ?_) validators ⟨?_, rfl, rfl⟩
  · exact ⟨hs.sound, hs.fork, hs.finalized⟩
  · intro e j h
    cases h

theorem Fresh.always_agreement {σ : Type} {G : FinalityGadget σ} {s : σ} (hs : G.Fresh s) {T : BlockTree}
    {feeds : List Feed} (hT : ∀ b, .addBlock b ∈ feeds → T.Has b) (h : Along G.feed G.OnBranch feeds s) :
    Always G.feed G.Agreement feeds s := by
  refine G.always_agreement hs.sound ?_ hs.finalized hT h
  intro p x hx
  rw [hs.fork] at hx
  cases hx

/-- On any block tree, an engine never reports blocks in conflict as final, nor one off the branch of
the justified block of its epoch, as long as every feed is on the branch. -/
theorem finality_agreement (T : BlockTree) (epochs : EpochManager) (validators : List (String × Int))
    (feeds : List Feed) (hT : ∀ b, .addBlock b ∈ feeds → T.Has b) :
    (Along slashingGadget.feed slashingGadget.OnBranch feeds (.withValidators epochs validators) →
      Always slashingGadget.feed slashingGadget.Agreement feeds (.withValidators epochs validators)) ∧
    (Along beaconGadget.feed beaconGadget.OnBranch feeds (.withValidators epochs validators) →
      Always beaconGadget.feed beaconGadget.Agreement feeds (.withValidators epochs validators)) ∧
    (Along casperGadget.feed casperGadget.OnBranch feeds (.withValidators epochs validators) →
      Always casperGadget.feed casperGadget.Agreement feeds (.withValidators epochs validators)) :=
  ⟨(fresh_slashing epochs validators).always_agreement hT, (fresh_beacon epochs validators).always_agreement hT,
    (fresh_casper epochs validators).always_agreement hT⟩

/-! ### One branch, and two -/

def root : ForkBlock := ⟨"r", none, 0⟩
def left : ForkBlock := ⟨"a", some "r", 1⟩
def right : ForkBlock := ⟨"b", some "r", 1⟩
def next : ForkBlock := ⟨"c", some "a", 32⟩

def straight : List Feed :=
  [.addBlock root, .addBlock left, .attest 0 "v" "a" 0, .addBlock next, .attest 0 "v" "c" 32]

def forked : List Feed :=
  [.addBlock root, .addBlock left, .addBlock right, .attest 0 "v" "a" 0, .addBlock next, .attest 0 "v" "c" 32]

def straightTree : ForkTree := ((ForkTree.empty.addBlock root).addBlock left).addBlock next

def lineage : BlockTree where
  parent h := if h = "a" then some "r" else if h = "c" then some "a" else none
  number h := if h = "a" then 1 else if h = "c" then 32 else 0

theorem lineage_has (b : ForkBlock) (h : Feed.addBlock b ∈ straight) : lineage.Has b := by
  simp only [straight, List.mem_cons, Feed.addBlock.injEq, reduceCtorEq, false_or, or_false, List.not_mem_nil] at h
  rcases h with rfl | rfl | rfl <;> exact ⟨by decide, by decide⟩

theorem straight_settled {B : Board} (hfork : B.fork = straightTree) (hepochs : B.epochs.epochSize = 32)
    (hfinal : B.finalized = []) (hj : B.justified.get? 0 = some "a") : B.Settled 0 := by
  refine ⟨"a", hj, ?_, by simp [hfinal]⟩
  intro h x hx hxe
  rw [hfork] at hx ⊢
  unfold EpochManager.getEpoch at hxe
  rw [hepochs] at hxe
  have hmem := Dict.mem_of_get? hx
  have hblocks : straightTree.blocks = [("r", root), ("a", left), ("c", next)] := by decide
  rw [hblocks] at hmem
  simp only [List.mem_cons, Prod.mk.injEq, List.not_mem_nil, or_false] at hmem
  rcases hmem with ⟨rfl, rfl⟩ | ⟨rfl, rfl⟩ | ⟨rfl, rfl⟩
  · exact .single (by decide : "a" ∈ straightTree.children "r")
  · exact .refl
  · exact absurd hxe (by decide)

theorem onBranch_settled {σ : Type} {G : FinalityGadget σ} {s : σ} {now slot : Int} {v h : String}
    (hf : G.finalizes (.attest now v h slot) s = some 0) (hs : (G.board s).Settled 0) :
    G.OnBranch (.attest now v h slot) s := by
  intro e he
  rw [hf] at he
  cases he
  exact hs

theorem onBranch_quiet {σ : Type} {G : FinalityGadget σ} {s : σ} {now slot : Int} {v h : String}
    (hf : G.finalizes (.attest now v h slot) s = none) : G.OnBranch (.attest now v h slot) s := by
  intro e he
  rw [hf] at he
  cases he

theorem finality_agreement_straight :
    Always slashingGadget.feed slashingGadget.Agreement straight (.withValidators Poll.monthly [("v", 3)]) ∧
    Always beaconGadget.feed beaconGadget.Agreement straight (.withValidators Poll.monthly [("v", 3)]) ∧
    Always casperGadget.feed casperGadget.Agreement straight (.withValidators Poll.monthly [("v", 3)]) := by
  obtain ⟨hslashing, hbeacon, hcasper⟩ := finality_agreement lineage Poll.monthly [("v", 3)] straight lineage_has
  refine ⟨hslashing ⟨?_, ?_, ?_, ?_, ?_, trivial⟩, hbeacon ⟨?_, ?_, ?_, ?_, ?_, trivial⟩,
    hcasper ⟨?_, ?_, ?_, ?_, ?_, trivial⟩⟩
  · exact fun h => absurd h (by decide +kernel)
  · exact fun h => absurd h (by decide +kernel)
  · exact onBranch_quiet (by decide +kernel)
  · exact fun h => absurd h (by decide +kernel)
  · exact onBranch_settled (by decide +kernel) (straight_settled rfl (by decide +kernel) (by decide +kernel) (by decide +kernel))
  · exact fun h => absurd h (by decide +kernel)
  · exact fun h => absurd h (by decide +kernel)
  · exact onBranch_quiet (by decide +kernel)
  · exact fun h => absurd h (by decide +kernel)
  · exact onBranch_settled (by decide +kernel) (straight_settled rfl (by decide +kernel) (by decide +kernel) (by decide +kernel))
  · exact fun h => absurd h (by decide +kernel)
  · exact fun h => absurd h (by decide +kernel)
  · exact onBranch_quiet (by decide +kernel)
  · exact fun h => absurd h (by decide +kernel)
  · exact onBranch_settled (by decide +kernel) (straight_settled rfl (by decide +kernel) (by decide +kernel) (by decide +kernel))

def forkedTree : ForkTree := (((ForkTree.empty.addBlock root).addBlock left).addBlock right).addBlock next

theorem forkedTree_conflict : ¬ (forkedTree.Ancestor "a" "b" ∨ forkedTree.Ancestor "b" "a") := by
  rintro (h | h)
  · have hm := h.mem_of_closed (S := fun x => x = "a" ∨ x = "c") (fun p x hp hx => ?_) (.inl rfl)
    · exact absurd hm (by decide)
    · unfold ForkTree.Edge at hx
      rcases hp with rfl | rfl
      · have hc : forkedTree.children "a" = ["c"] := by decide
        rw [hc] at hx
        exact .inr (List.mem_singleton.mp hx)
      · have hc : forkedTree.children "c" = [] := by decide
        rw [hc] at hx
        cases hx
  · have hm := h.mem_of_closed (S := fun x => x = "b") (fun p x hp hx => ?_) rfl
    · exact absurd hm (by decide)
    · unfold ForkTree.Edge at hx
      have hc : forkedTree.children "b" = [] := by decide
      rw [hp, hc] at hx
      cases hx

/-- Each engine reports both blocks of number 1 as final. -/
theorem forked_disagreement :
    ¬ Always slashingGadget.feed slashingGadget.Agreement forked (.withValidators Poll.monthly [("v", 3)]) ∧
    ¬ Always beaconGadget.feed beaconGadget.Agreement forked (.withValidators Poll.monthly [("v", 3)]) ∧
    ¬ Always casperGadget.feed casperGadget.Agreement forked (.withValidators Poll.monthly [("v", 3)]) := by
  refine ⟨fun h => ?_, fun h => ?_, fun h => ?_⟩
  · exact forkedTree_conflict (h.last.1 "a" "b" (by decide +kernel) (by decide +kernel))
  · exact forkedTree_conflict (h.last.1 "a" "b" (by decide +kernel) (by decide +kernel))
  · exact forkedTree_conflict (h.last.1 "a" "b" (by decide +kernel) (by decide +kernel))

end FinalityGadget

end AbsoluteChain
