import AbsoluteChain.Attestations
import AbsoluteChain.FinalityAgreement

/-!
# Support in the Casper engine

Whether the stake behind a justified checkpoint is that of distinct validators.
`ConsensusEngineCasper` adds a block's whole weight on every attestation for it.
-/

namespace Python.Dict

variable {d : Dict String Int}

theorem sum_at (hd : d.Keyed) (k : String) : (d.map fun e => if e.1 = k then e.2 else 0).sum = (d.get? k).getD 0 := by
  induction d with
  | nil => rfl
  | cons e d ih =>
    obtain ⟨a, x⟩ := e
    obtain ⟨hnew, hrest⟩ := List.nodup_cons.mp (show ((a, x).1 :: d.map Prod.fst).Nodup from hd)
    rw [List.map_cons, List.sum_cons, ih hrest, get?_cons]
    by_cases hk : k = a
    · subst hk
      have hnone : get? d k = none := by
        cases hg : get? d k with
        | none => rfl
        | some v => exact absurd (List.mem_map_of_mem (mem_of_get? hg)) hnew
      rw [if_pos rfl, if_pos rfl, hnone]
      exact Int.add_zero x
    · rw [if_neg (Ne.symm hk), if_neg hk]
      exact Int.zero_add _

end Python.Dict

namespace AbsoluteChain

open Python Runs

/-! ## The heaviest block -/

theorem le_foldl_heaviest {best : String × Int} {d : Dict String Int} :
    ∀ e ∈ best :: d, e.2 ≤ (d.foldl (fun best x => if best.2 < x.2 then x else best) best).2 := by
  induction d generalizing best with
  | nil =>
    intro e he
    rw [List.mem_singleton.mp he]
    exact Int.le_refl _
  | cons x t ih =>
    intro e he
    rw [List.foldl_cons]
    by_cases hx : best.2 < x.2
    · rw [if_pos hx]
      rcases List.mem_cons.mp he with rfl | he
      · exact Int.le_trans hx.le (ih x List.mem_cons_self)
      · exact ih e he
    · rw [if_neg hx]
      have hbest := @ih best best List.mem_cons_self
      rcases List.mem_cons.mp he with rfl | he
      · exact hbest
      · rcases List.mem_cons.mp he with rfl | he
        · exact Int.le_trans (Int.not_lt.mp hx) hbest
        · exact ih e (List.mem_cons_of_mem _ he)

theorem heaviest_le {d : Dict String Int} {best : String × Int} (h : heaviest d = some best) : ∀ e ∈ d, e.2 ≤ best.2 := by
  cases d with
  | nil => cases h
  | cons a t =>
    cases h
    exact le_foldl_heaviest

/-- One entry of a dictionary below the threshold is replaced: only that one can reach it. -/
theorem heaviest_set {d : Dict String Int} {threshold : Int} (h : ∀ e ∈ d, e.2 < threshold) (k : String) (w : Int) :
    ∃ best, heaviest (d.set k w) = some best ∧ (threshold ≤ best.2 ↔ threshold ≤ w) ∧ (threshold ≤ w → best = (k, w)) := by
  have hmem : (k, w) ∈ d.set k w := Dict.mem_of_get? (by rw [Dict.get?_set, if_pos rfl])
  obtain ⟨best, hbest⟩ : ∃ best, heaviest (d.set k w) = some best := by
    cases hs : d.set k w with
    | nil =>
      rw [hs] at hmem
      cases hmem
    | cons a t => exact ⟨_, rfl⟩
  have hle := heaviest_le hbest _ hmem
  have honly : threshold ≤ best.2 → best = (k, w) := by
    intro hb
    rcases Dict.mem_set (heaviest_mem hbest) with hold | hnew
    · exact absurd (h best hold) (Int.not_lt.mpr hb)
    · exact hnew
  refine ⟨best, hbest, ⟨fun hb => ?_, fun hw => Int.le_trans hw hle⟩, fun hw => honly (Int.le_trans hw hle)⟩
  rw [honly hb] at hb
  exact hb

/-! ## One vote -/

namespace CasperFinality

variable {f : CasperFinality}

def weightOf (f : CasperFinality) (epoch : Int) (blockHash : String) : Int := ((f.votesIn epoch).get? blockHash).getD 0

def Below (f : CasperFinality) : Prop := ∀ e ∉ f.justifiedEpochs, ∀ x ∈ f.votesIn e, x.2 < twoThirds f.totalStake

theorem evaluate_votes (epoch : Int) :
    (f.evaluate epoch).epochVotes = f.epochVotes ∧ (f.evaluate epoch).totalStake = f.totalStake := by
  unfold evaluate
  cases heaviest (f.votesIn epoch) with
  | none => exact ⟨rfl, rfl⟩
  | some best =>
    by_cases hw : twoThirds f.totalStake ≤ best.2
    · simp only [if_pos hw, tryFinalize, justifyEpoch]
      constructor <;> split <;> split <;> rfl
    · simp only [if_neg hw, and_self]

theorem evaluate_justified {epoch : Int} {best : String × Int} (h : heaviest (f.votesIn epoch) = some best) :
    (f.evaluate epoch).justifiedEpochs =
        (if twoThirds f.totalStake ≤ best.2 ∧ epoch ∉ f.justifiedEpochs then epoch :: f.justifiedEpochs
          else f.justifiedEpochs) ∧
      (f.evaluate epoch).justifiedBlocks =
        (if twoThirds f.totalStake ≤ best.2 ∧ epoch ∉ f.justifiedEpochs then f.justifiedBlocks.set epoch best.1
          else f.justifiedBlocks) := by
  have hrun : f.evaluate epoch =
      if twoThirds f.totalStake ≤ best.2 then (f.justifyEpoch epoch best.1).tryFinalize epoch else f := by
    unfold evaluate
    rw [h]
  rw [hrun]
  by_cases hw : twoThirds f.totalStake ≤ best.2
  · obtain ⟨hepochs, hblocks⟩ := tryFinalize_justified (f.justifyEpoch epoch best.1) epoch
    rw [if_pos hw, hepochs, hblocks]
    unfold justifyEpoch
    by_cases he : epoch ∈ f.justifiedEpochs
    · rw [if_pos he, if_neg fun hp => hp.2 he, if_neg fun hp => hp.2 he]
      exact ⟨rfl, rfl⟩
    · rw [if_neg he, if_pos ⟨hw, he⟩, if_pos ⟨hw, he⟩]
      exact ⟨rfl, rfl⟩
  · rw [if_neg hw, if_neg fun hp => hw hp.1, if_neg fun hp => hw hp.1]
    exact ⟨rfl, rfl⟩

theorem count_votesIn (epoch : Int) (h : String) (w e : Int) : (f.count h epoch w).votesIn e =
    if e = epoch then (f.votesIn epoch).set h (f.weightOf epoch h + w) else f.votesIn e := by
  unfold count
  show ((f.epochVotes.set epoch ((f.votesIn epoch).set h (f.weightOf epoch h + w))).get? e).getD [] = _
  rw [Dict.get?_set]
  by_cases he : e = epoch
  · rw [if_pos he, if_pos he, Option.getD_some]
  · rw [if_neg he, if_neg he]
    rfl

theorem addVote_votesIn (epoch : Int) (h : String) (w e : Int) : (f.addVote epoch h w).votesIn e =
    if e = epoch then (f.votesIn epoch).set h (f.weightOf epoch h + w) else f.votesIn e := by
  rw [← count_votesIn]
  unfold votesIn addVote
  rw [(evaluate_votes epoch).1]

theorem addVote_weightOf (epoch : Int) (h : String) (w e : Int) (j : String) :
    (f.addVote epoch h w).weightOf e j = f.weightOf e j + if e = epoch ∧ j = h then w else 0 := by
  unfold weightOf
  rw [addVote_votesIn]
  by_cases he : e = epoch
  · subst he
    rw [if_pos rfl, Dict.get?_set]
    by_cases hj : j = h
    · subst hj
      rw [if_pos rfl, if_pos ⟨rfl, rfl⟩]
      rfl
    · rw [if_neg hj, if_neg fun hp => hj hp.2, Int.add_zero]
  · rw [if_neg he, if_neg fun hp => he hp.1, Int.add_zero]

theorem addVote_totalStake (epoch : Int) (h : String) (w : Int) : (f.addVote epoch h w).totalStake = f.totalStake :=
  (evaluate_votes epoch).2

theorem addVote_justified (hf : f.Below) (epoch : Int) (h : String) (w : Int) :
    (f.addVote epoch h w).justifiedEpochs =
        (if twoThirds f.totalStake ≤ f.weightOf epoch h + w ∧ epoch ∉ f.justifiedEpochs then epoch :: f.justifiedEpochs
          else f.justifiedEpochs) ∧
      (f.addVote epoch h w).justifiedBlocks =
        (if twoThirds f.totalStake ≤ f.weightOf epoch h + w ∧ epoch ∉ f.justifiedEpochs then f.justifiedBlocks.set epoch h
          else f.justifiedBlocks) := by
  have hvotes := @count_votesIn f epoch h w epoch
  rw [if_pos rfl] at hvotes
  by_cases he : epoch ∈ f.justifiedEpochs
  · have hkeep : ∀ d : Dict String Int, ∃ best, heaviest (d.set h (f.weightOf epoch h + w)) = some best := by
      intro d
      cases hd : d.set h (f.weightOf epoch h + w) with
      | nil =>
        have hmem : (h, f.weightOf epoch h + w) ∈ d.set h (f.weightOf epoch h + w) :=
          Dict.mem_of_get? (by rw [Dict.get?_set, if_pos rfl])
        rw [hd] at hmem
        cases hmem
      | cons a t => exact ⟨_, rfl⟩
    obtain ⟨best, hbest⟩ := hkeep (f.votesIn epoch)
    rw [← hvotes] at hbest
    obtain ⟨hepochs, hblocks⟩ := evaluate_justified hbest
    have hnot : ∀ p : Prop, ¬ (p ∧ epoch ∉ f.justifiedEpochs) := fun p hp => hp.2 he
    have hnot' : ¬ (twoThirds (f.count h epoch w).totalStake ≤ best.2 ∧ epoch ∉ (f.count h epoch w).justifiedEpochs) :=
      hnot _
    rw [if_neg hnot'] at hepochs hblocks
    rw [if_neg (hnot _), if_neg (hnot _)]
    exact ⟨hepochs, hblocks⟩
  · obtain ⟨best, hbest, hreach, hown⟩ := heaviest_set (hf epoch he) h (f.weightOf epoch h + w)
    rw [← hvotes] at hbest
    obtain ⟨hepochs, hblocks⟩ := evaluate_justified hbest
    by_cases hw : twoThirds f.totalStake ≤ f.weightOf epoch h + w
    · have hyes : twoThirds (f.count h epoch w).totalStake ≤ best.2 ∧ epoch ∉ (f.count h epoch w).justifiedEpochs :=
        ⟨hreach.mpr hw, he⟩
      rw [if_pos hyes] at hepochs hblocks
      rw [if_pos ⟨hw, he⟩, if_pos ⟨hw, he⟩]
      rw [hown hw] at hblocks
      exact ⟨hepochs, hblocks⟩
    · have hno : ¬ (twoThirds (f.count h epoch w).totalStake ≤ best.2 ∧ epoch ∉ (f.count h epoch w).justifiedEpochs) :=
        fun hp => hw (hreach.mp hp.1)
      rw [if_neg hno] at hepochs hblocks
      rw [if_neg fun hp => hw hp.1, if_neg fun hp => hw hp.1]
      exact ⟨hepochs, hblocks⟩

theorem addVote_below (hf : f.Below) (epoch : Int) (h : String) (w : Int) : (f.addVote epoch h w).Below := by
  intro e he x hx
  rw [addVote_totalStake]
  rw [(addVote_justified hf epoch h w).1] at he
  rw [addVote_votesIn] at hx
  by_cases hee : e = epoch
  · subst hee
    rw [if_pos rfl] at hx
    by_cases hc : twoThirds f.totalStake ≤ f.weightOf e h + w ∧ e ∉ f.justifiedEpochs
    · rw [if_pos hc] at he
      exact absurd List.mem_cons_self he
    · rw [if_neg hc] at he
      rcases Dict.mem_set hx with hold | rfl
      · exact hf e he x hold
      · by_contra hle
        exact hc ⟨Int.not_lt.mp hle, he⟩
  · rw [if_neg hee] at hx
    refine hf e (fun hin => he ?_) x hx
    split
    · exact List.mem_cons_of_mem _ hin
    · exact hin

end CasperFinality

/-! ## The stake behind a block -/

namespace ConsensusEngineCasper

def support (s : ConsensusEngineCasper) (blockHash : String) : Int :=
  (s.lmd.validatorStake.map fun e => if (s.lmd.latestVote.get? e.1).map Prod.fst = some blockHash then e.2 else 0).sum

/-- The same without one of them. -/
def supportBeside (s : ConsensusEngineCasper) (validator blockHash : String) : Int :=
  (s.lmd.validatorStake.map fun e =>
    if e.1 = validator then 0 else if (s.lmd.latestVote.get? e.1).map Prod.fst = some blockHash then e.2 else 0).sum

def stakeOf (s : ConsensusEngineCasper) (validator : String) : Int := (s.lmd.validatorStake.get? validator).getD 0

def Accepts (s : ConsensusEngineCasper) (validator blockHash : String) (slot : Int) : Prop :=
  (s.lmd.update validator blockHash slot).1 = true

instance (s : ConsensusEngineCasper) (validator blockHash : String) (slot : Int) :
    Decidable (s.Accepts validator blockHash slot) := inferInstanceAs (Decidable (_ = _))

/-- What a vote may add to the weight of its block: its sender's stake, or nothing when it is rejected. -/
def ownStake (s : ConsensusEngineCasper) (validator blockHash : String) (slot : Int) : Int :=
  if s.Accepts validator blockHash slot then s.stakeOf validator else 0

/-- An accepted vote for a known block adds the sender's stake to the block's weight in its epoch, and
nothing else adds anything. -/
def CountedOnce : Feed → ConsensusEngineCasper → Prop
  | .addBlock b, s => ∀ e j, (s.addBlock b).finality.weightOf e j = s.finality.weightOf e j
  | .attest _ v h slot, s => ∀ e j, (s.onAttestation v h slot).2.finality.weightOf e j = s.finality.weightOf e j +
      if j = h ∧ (s.fork.blocks.get? h).map (fun b => s.epochs.getEpoch b.number) = some e then s.ownStake v h slot else 0

/-- When an epoch becomes justified, the validators whose current vote is for its block hold two thirds
of a positive total. -/
def Supported (f : Feed) (s : ConsensusEngineCasper) : Prop :=
  ∀ e ∉ s.finality.justifiedEpochs, e ∈ (casperGadget.feed f s).finality.justifiedEpochs →
    ∃ j, (casperGadget.feed f s).finality.justifiedBlocks.get? e = some j ∧ 0 < s.lmd.totalStake ∧
      2 * s.lmd.totalStake ≤ 3 * (casperGadget.feed f s).support j

/-- An accepted vote for a known block comes when no other stake stands behind the block, a rejected one
when none does, and the vote that brings an epoch to the threshold is accepted and of a validator that
holds two thirds of a positive total alone. -/
def Fair : Feed → ConsensusEngineCasper → Prop
  | .addBlock _, _ => True
  | .attest _ v h slot, s => ∀ b, s.fork.blocks.get? h = some b →
    (if s.Accepts v h slot then s.supportBeside v h = 0 else s.support h = 0) ∧
    (s.epochs.getEpoch b.number ∉ s.finality.justifiedEpochs →
      twoThirds s.lmd.totalStake ≤ s.finality.weightOf (s.epochs.getEpoch b.number) h + s.ownStake v h slot →
      s.Accepts v h slot ∧ 0 < s.lmd.totalStake ∧ 2 * s.lmd.totalStake ≤ 3 * s.stakeOf v)

structure Sound (s : ConsensusEngineCasper) : Prop where
  votes : s.lmd.latestVote.Keyed
  stakes : s.lmd.validatorStake.Keyed
  total : s.finality.totalStake = s.lmd.totalStake
  below : s.finality.Below

variable {s : ConsensusEngineCasper} {v h : String} {slot : Int}

theorem update_stakes (t : LmdTable) (v h : String) (slot : Int) :
    (t.update v h slot).2.validatorStake = t.validatorStake := by
  unfold LmdTable.update
  by_cases hc : t.validatorStake.contains v = true
  · rw [if_pos hc]
    cases t.latestVote.get? v with
    | none => rfl
    | some current =>
      by_cases hs : current.2 < slot
      · simp only [if_pos hs]
      · simp only [if_neg hs]
  · rw [if_neg hc]

theorem update_votes (s : ConsensusEngineCasper) (v h : String) (slot : Int) :
    (s.lmd.update v h slot).2.latestVote =
      if s.Accepts v h slot then s.lmd.latestVote.set v (h, slot) else s.lmd.latestVote := by
  unfold Accepts LmdTable.update
  by_cases hc : s.lmd.validatorStake.contains v = true
  · simp only [if_pos hc]
    cases s.lmd.latestVote.get? v with
    | none => exact (if_pos rfl).symm
    | some current =>
      by_cases hs : current.2 < slot
      · simp only [if_pos hs, if_true]
      · simp only [if_neg hs, Bool.false_eq_true, if_false]
  · simp only [if_neg hc, Bool.false_eq_true, if_false]

theorem keyed_update (hs : s.Sound) (v h : String) (slot : Int) : (s.lmd.update v h slot).2.latestVote.Keyed := by
  rw [update_votes]
  split
  · exact hs.votes.set v (h, slot)
  · exact hs.votes

/-- The weight that a vote adds, in terms of the validators behind the block. -/
theorem casperWeight_eq (hs : s.Sound) (v h : String) (slot : Int) : casperWeight s v h slot =
    if s.Accepts v h slot then s.stakeOf v + s.supportBeside v h else s.support h := by
  unfold casperWeight
  rw [LmdTable.weight_eq_sum (keyed_update hs v h slot) (by rw [update_stakes]; exact hs.stakes), update_stakes, update_votes]
  by_cases ha : s.Accepts v h slot
  · rw [if_pos ha, if_pos ha]
    unfold stakeOf supportBeside
    rw [← Dict.sum_at hs.stakes v, ← List.sum_map_add]
    congr 1
    apply List.map_congr_left
    intro e _
    rw [Dict.get?_set]
    by_cases he : e.1 = v
    · rw [if_pos he, if_pos he, if_pos he, Int.add_zero]
      exact if_pos rfl
    · rw [if_neg he, if_neg he, if_neg he, Int.zero_add]
  · rw [if_neg ha, if_neg ha]
    rfl

theorem onAttestation_eq (s : ConsensusEngineCasper) (v h : String) (slot : Int) :
    (s.onAttestation v h slot).2 =
      { s with
        lmd := (s.lmd.update v h slot).2
        finality := (s.fork.blocks.get? h).elim s.finality fun b =>
          s.finality.addVote (s.epochs.getEpoch b.number) h (casperWeight s v h slot) } := by
  unfold onAttestation casperWeight
  cases s.fork.blocks.get? h <;> rfl

theorem totalStake_update (t : LmdTable) (v h : String) (slot : Int) :
    (t.update v h slot).2.totalStake = t.totalStake := by
  unfold LmdTable.totalStake
  rw [update_stakes]

theorem Sound.feed (hs : s.Sound) (f : Feed) : Sound (casperGadget.feed f s) := by
  cases f with
  | addBlock b => exact ⟨hs.votes, hs.stakes, hs.total, hs.below⟩
  | attest now v h slot =>
    show Sound (s.onAttestation v h slot).2
    rw [onAttestation_eq]
    refine ⟨keyed_update hs v h slot, ?_, ?_, ?_⟩
    · show (s.lmd.update v h slot).2.validatorStake.Keyed
      rw [update_stakes]
      exact hs.stakes
    · show CasperFinality.totalStake _ = (s.lmd.update v h slot).2.totalStake
      rw [totalStake_update, ← hs.total]
      cases s.fork.blocks.get? h with
      | none => rfl
      | some b => exact CasperFinality.addVote_totalStake _ _ _
    · cases s.fork.blocks.get? h with
      | none => exact hs.below
      | some b => exact CasperFinality.addVote_below hs.below _ _ _

theorem sound_withValidators (epochs : EpochManager) (validators : List (String × Int)) :
    Sound (withValidators epochs validators) := by
  have hstart : Sound (start epochs) ∧ (start epochs).finality.epochVotes = [] :=
    ⟨⟨List.nodup_nil, List.nodup_nil, rfl, fun e _ x hx => nomatch hx⟩, rfl⟩
  refine (foldl_induction (P := fun s : ConsensusEngineCasper => s.Sound ∧ s.finality.epochVotes = [])
    (fun s v hs => ?_) validators hstart).1
  · obtain ⟨hs, hempty⟩ := hs
    refine ⟨⟨hs.votes, hs.stakes.set v.1 v.2, rfl, ?_⟩, hempty⟩
    intro e _ x hx
    have hnil : (s.addValidator v.1 v.2).finality.votesIn e = [] := by
      show (s.finality.epochVotes.get? e).getD [] = []
      rw [hempty]
      rfl
    rw [hnil] at hx
    cases hx

theorem support_after (hs : s.Sound) (v h : String) (slot : Int) :
    (s.onAttestation v h slot).2.support h = casperWeight s v h slot := by
  unfold casperWeight
  rw [onAttestation_eq,
    LmdTable.weight_eq_sum (keyed_update hs v h slot) (by rw [update_stakes]; exact hs.stakes)]
  rfl

/-- The weight that a vote adds is the sender's own. -/
theorem casperWeight_own (hs : s.Sound) (v h : String) (slot : Int) : casperWeight s v h slot = s.ownStake v h slot ↔
    if s.Accepts v h slot then s.supportBeside v h = 0 else s.support h = 0 := by
  rw [casperWeight_eq hs]
  unfold ownStake
  by_cases ha : s.Accepts v h slot
  · rw [if_pos ha, if_pos ha, if_pos ha]
    omega
  · rw [if_neg ha, if_neg ha, if_neg ha]

theorem countedOnce_iff (s : ConsensusEngineCasper) (now : Int) (v h : String) (slot : Int) :
    CountedOnce (.attest now v h slot) s ↔
      ∀ b, s.fork.blocks.get? h = some b → casperWeight s v h slot = s.ownStake v h slot := by
  unfold CountedOnce
  dsimp only
  rw [onAttestation_eq]
  cases hb : s.fork.blocks.get? h with
  | none =>
    constructor
    · intro _ b hsome
      cases hsome
    · intro _ e j
      rw [if_neg fun hp => Option.some_ne_none e hp.2.symm, Int.add_zero]
      rfl
  | some b =>
    have hweight : ∀ e j, (s.finality.addVote (s.epochs.getEpoch b.number) h (casperWeight s v h slot)).weightOf e j =
        s.finality.weightOf e j + if e = s.epochs.getEpoch b.number ∧ j = h then casperWeight s v h slot else 0 :=
      fun e j => CasperFinality.addVote_weightOf _ _ _ _ _
    constructor
    · rintro hall b' hsome
      have hown := hall (s.epochs.getEpoch b.number) h
      rw [if_pos ⟨rfl, rfl⟩] at hown
      have hadd := hweight (s.epochs.getEpoch b.number) h
      rw [if_pos ⟨rfl, rfl⟩] at hadd
      exact Int.add_left_cancel (hadd.symm.trans hown)
    · intro hown e j
      refine (hweight e j).trans ?_
      rw [hown b rfl]
      by_cases hj : j = h ∧ e = s.epochs.getEpoch b.number
      · rw [if_pos ⟨hj.2, hj.1⟩, if_pos ⟨hj.1, congrArg some hj.2.symm⟩]
      · rw [if_neg fun hp => hj ⟨hp.2, hp.1⟩, if_neg fun hp => hj ⟨hp.1, (Option.some.inj hp.2).symm⟩]

theorem supported_iff (hs : s.Sound) (now : Int) (v h : String) (slot : Int) :
    Supported (.attest now v h slot) s ↔ ∀ b, s.fork.blocks.get? h = some b →
      s.epochs.getEpoch b.number ∉ s.finality.justifiedEpochs →
      twoThirds s.lmd.totalStake ≤ s.finality.weightOf (s.epochs.getEpoch b.number) h + casperWeight s v h slot →
      0 < s.lmd.totalStake ∧ 2 * s.lmd.totalStake ≤ 3 * casperWeight s v h slot := by
  have hfeed : casperGadget.feed (.attest now v h slot) s = (s.onAttestation v h slot).2 := rfl
  unfold Supported
  rw [hfeed]
  cases hb : s.fork.blocks.get? h with
  | none =>
    have hsame : (s.onAttestation v h slot).2.finality = s.finality := by
      rw [onAttestation_eq, hb]
      rfl
    constructor
    · intro _ b hsome
      cases hsome
    · intro _ e he hin
      rw [hsame] at hin
      exact absurd hin he
  | some b =>
    have hvote : (s.onAttestation v h slot).2.finality =
        s.finality.addVote (s.epochs.getEpoch b.number) h (casperWeight s v h slot) := by
      rw [onAttestation_eq, hb]
      rfl
    obtain ⟨hepochs, hblocks⟩ :=
      CasperFinality.addVote_justified hs.below (s.epochs.getEpoch b.number) h (casperWeight s v h slot)
    rw [hs.total] at hepochs hblocks
    rw [hvote, hepochs, hblocks]
    constructor
    · rintro hall b' hsome he hw
      cases hsome
      rw [if_pos ⟨hw, he⟩, if_pos ⟨hw, he⟩] at hall
      obtain ⟨j, hj, hpos, hle⟩ := hall _ he List.mem_cons_self
      rw [Dict.get?_set, if_pos rfl] at hj
      cases hj
      rw [support_after hs] at hle
      exact ⟨hpos, hle⟩
    · intro hall e he hin
      by_cases hc : twoThirds s.lmd.totalStake ≤
          s.finality.weightOf (s.epochs.getEpoch b.number) h + casperWeight s v h slot ∧
          s.epochs.getEpoch b.number ∉ s.finality.justifiedEpochs
      · rw [if_pos hc] at hin ⊢
        obtain rfl : e = s.epochs.getEpoch b.number := by
          rcases List.mem_cons.mp hin with heq | hold
          · exact heq
          · exact absurd hold he
        refine ⟨h, ?_, ?_⟩
        · rw [Dict.get?_set, if_pos rfl]
        · rw [support_after hs]
          exact hall b rfl hc.2 hc.1
      · rw [if_neg hc] at hin
        exact absurd hin he

theorem fair_iff (hs : s.Sound) (f : Feed) : CountedOnce f s ∧ Supported f s ↔ Fair f s := by
  cases f with
  | addBlock b =>
    refine iff_of_true ⟨fun e j => rfl, fun e he hin => absurd hin he⟩ trivial
  | attest now v h slot =>
    rw [countedOnce_iff, supported_iff hs]
    unfold Fair
    constructor
    · rintro ⟨hcounted, hsupported⟩ b hb
      have hown := hcounted b hb
      refine ⟨(casperWeight_own hs v h slot).mp hown, fun he hw => ?_⟩
      rw [← hown] at hw
      obtain ⟨hpos, hle⟩ := hsupported b hb he hw
      rw [hown] at hle
      by_cases ha : s.Accepts v h slot
      · rw [ownStake, if_pos ha] at hle
        exact ⟨ha, hpos, hle⟩
      · rw [ownStake, if_neg ha] at hle
        omega
    · intro hfair
      have hown : ∀ b, s.fork.blocks.get? h = some b → casperWeight s v h slot = s.ownStake v h slot :=
        fun b hb => (casperWeight_own hs v h slot).mpr (hfair b hb).1
      refine ⟨hown, fun b hb he hw => ?_⟩
      rw [hown b hb] at hw ⊢
      obtain ⟨ha, hpos, hle⟩ := (hfair b hb).2 he hw
      rw [ownStake, if_pos ha]
      exact ⟨hpos, hle⟩

/-- In a run every accepted vote counts once, no rejected one counts, and what is justified has two
thirds of the stake behind it, exactly when every feed is fair. -/
theorem weight_sound (epochs : EpochManager) (validators : List (String × Int)) (feeds : List Feed) :
    Along casperGadget.feed (fun f s => CountedOnce f s ∧ Supported f s) feeds (withValidators epochs validators) ↔
      Along casperGadget.feed Fair feeds (withValidators epochs validators) := by
  have hstart := sound_withValidators epochs validators
  constructor
  · exact along_of_along (fun f s hs _ => hs.feed f) (fun f s hs h => (fair_iff hs f).mp h) hstart
  · exact along_of_along (fun f s hs _ => hs.feed f) (fun f s hs h => (fair_iff hs f).mpr h) hstart

def repeatedVote : List Feed := [.addBlock ⟨"x", none, 0⟩, .attest 0 "a" "x" 0, .attest 0 "a" "x" 0]

theorem weight_not_sound :
    ¬ Along casperGadget.feed CountedOnce repeatedVote (withValidators Poll.monthly [("a", 1), ("b", 1), ("c", 1)]) ∧
    ¬ Along casperGadget.feed Supported repeatedVote (withValidators Poll.monthly [("a", 1), ("b", 1), ("c", 1)]) := by
  constructor
  · rintro ⟨-, -, hcounted, -⟩
    have h := hcounted 0 "x"
    exact absurd h (by decide +kernel)
  · rintro ⟨-, -, hsupported, -⟩
    obtain ⟨j, hj, -, hle⟩ := hsupported 0 (by decide +kernel) (by decide +kernel)
    have hx : some "x" = some j := (show some "x" = _ by decide +kernel).trans hj
    cases hx
    exact absurd hle (by decide +kernel)

end ConsensusEngineCasper

end AbsoluteChain
