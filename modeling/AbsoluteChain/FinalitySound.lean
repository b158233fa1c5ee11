import AbsoluteChain.Engines
import AbsoluteChain.Runs

/-!
# Finality soundness

Which validators stand behind an epoch that the slashing engine justifies. The
weight of a block in an epoch is the stake of the ballots counted for it; it is the
stake of that many different validators as long as no ballot is counted twice.
-/

namespace AbsoluteChain

open Python Runs

/-! ## Evaluating an epoch -/

theorem mem_of_foldl_heaviest {best : String × Int} {d : Dict String Int} :
    d.foldl (fun best x => if best.2 < x.2 then x else best) best ∈ best :: d := by
  induction d generalizing best with
  | nil => simp
  | cons e t ih =>
    simp only [List.foldl_cons]
    split
    · exact List.mem_cons_of_mem _ ih
    · rcases List.mem_cons.mp (@ih best) with h | h
      · exact List.mem_cons.mpr (.inl h)
      · exact List.mem_cons_of_mem _ (List.mem_cons_of_mem _ h)

theorem heaviest_mem {d : Dict String Int} {e : String × Int} (h : heaviest d = some e) : e ∈ d := by
  cases d with
  | nil => cases h
  | cons a t =>
    cases h
    exact mem_of_foldl_heaviest

namespace BeaconFinality

variable (f : BeaconFinality)

def decision (epoch : Int) : Option (String × Int) :=
  if epoch ∈ f.justifiedEpochs then none
  else (heaviest (f.votesIn epoch)).filter fun best => twoThirds f.totalStake ≤ best.2

theorem evaluate_eq (epoch : Int) :
    f.evaluate epoch = match f.decision epoch with
      | none => f
      | some best => f.justify epoch best.1 := by
  unfold evaluate decision
  by_cases he : epoch ∈ f.justifiedEpochs
  · cases heaviest (f.votesIn epoch) <;> simp [he]
  · cases hh : heaviest (f.votesIn epoch) with
    | none => simp [he]
    | some best =>
      by_cases hw : twoThirds f.totalStake ≤ best.2
      · simp [he, Option.filter, hw]
      · simp [he, Option.filter, hw]

@[simp] theorem justify_votes (epoch : Int) (h : String) : (f.justify epoch h).votes = f.votes := by
  unfold justify
  simp only
  split <;> rfl

@[simp] theorem justify_totalStake (epoch : Int) (h : String) : (f.justify epoch h).totalStake = f.totalStake := by
  unfold justify
  simp only
  split <;> rfl

@[simp] theorem justify_epochs (epoch : Int) (h : String) : (f.justify epoch h).epochs = f.epochs := by
  unfold justify
  simp only
  split <;> rfl

@[simp] theorem justify_justifiedEpochs (epoch : Int) (h : String) :
    (f.justify epoch h).justifiedEpochs = epoch :: f.justifiedEpochs := by
  unfold justify
  simp only
  split <;> rfl

@[simp] theorem justify_justifiedBlocks (epoch : Int) (h : String) :
    (f.justify epoch h).justifiedBlocks = f.justifiedBlocks.set epoch h := by
  unfold justify
  simp only
  split <;> rfl

theorem decision_some {epoch : Int} {best : String × Int} (h : f.decision epoch = some best) :
    epoch ∉ f.justifiedEpochs ∧ best ∈ f.votesIn epoch ∧ twoThirds f.totalStake ≤ best.2 := by
  unfold decision at h
  by_cases he : epoch ∈ f.justifiedEpochs
  · rw [if_pos he] at h
    cases h
  · rw [if_neg he] at h
    obtain ⟨hh, hw⟩ := Option.filter_eq_some_iff.mp h
    exact ⟨he, heaviest_mem hh, of_decide_eq_true hw⟩

@[simp] theorem evaluate_votes (epoch : Int) : (f.evaluate epoch).votes = f.votes := by
  rw [evaluate_eq]
  cases f.decision epoch <;> simp

@[simp] theorem evaluate_totalStake (epoch : Int) : (f.evaluate epoch).totalStake = f.totalStake := by
  rw [evaluate_eq]
  cases f.decision epoch <;> simp

@[simp] theorem evaluate_epochs (epoch : Int) : (f.evaluate epoch).epochs = f.epochs := by
  rw [evaluate_eq]
  cases f.decision epoch <;> simp

@[simp] theorem addVote_epochs (h : String) (slot w : Int) : (f.addVote h slot w).epochs = f.epochs := by
  simp [addVote, count]

@[simp] theorem addVote_totalStake (h : String) (slot w : Int) : (f.addVote h slot w).totalStake = f.totalStake := by
  simp [addVote, count]

def weightOf (epoch : Int) (blockHash : String) : Int := ((f.votesIn epoch).get? blockHash).getD 0

theorem count_weightOf (h : String) (epoch w e : Int) (j : String) :
    (f.count h epoch w).weightOf e j = f.weightOf e j + if e = epoch ∧ j = h then w else 0 := by
  unfold weightOf count votesIn
  by_cases he : e = epoch
  · subst he
    by_cases hj : j = h
    · subst hj
      simp
    · simp [hj, Dict.get?_set_of_ne _ hj]
  · simp [he, Dict.get?_set_of_ne _ he]

theorem addVote_weightOf (h : String) (slot w e : Int) (j : String) :
    (f.addVote h slot w).weightOf e j = f.weightOf e j + if e = f.epochs.getEpoch slot ∧ j = h then w else 0 := by
  rw [← count_weightOf]
  simp [weightOf, votesIn, addVote]

theorem addVote_keyed (h : String) (slot w : Int) (hk : ∀ e, (f.votesIn e).Keyed) (e : Int) :
    ((f.addVote h slot w).votesIn e).Keyed := by
  by_cases he : e = f.epochs.getEpoch slot
  · subst he
    simpa [votesIn, addVote, count] using (hk (f.epochs.getEpoch slot)).set h _
  · simpa [votesIn, addVote, count, Dict.get?_set_of_ne _ he] using hk e

end BeaconFinality

/-! ## Feeding an engine -/

/-- What a consensus engine is fed. -/
inductive Feed where
  | addBlock (b : ForkBlock)
  | attest (now : Int) (validator blockHash : String) (slot : Int)

structure Ballot where
  validator : String
  block : String
  slot : Int
  deriving DecidableEq

namespace ConsensusEngineSlashing

def feed (f : Feed) (s : ConsensusEngineSlashing) : ConsensusEngineSlashing :=
  match f with
  | .addBlock b => s.addBlock b
  | .attest now validator blockHash slot => (s.onAttestation now validator blockHash slot).2

def withValidators (epochs : EpochManager) (validators : List (String × Int)) : ConsensusEngineSlashing :=
  validators.foldl (fun s v => s.addValidator v.1 v.2) (start epochs)

def counted (s : ConsensusEngineSlashing) : Feed → Option Ballot
  | .addBlock _ => none
  | .attest now validator blockHash slot =>
    let r := s.slashing.addVote now validator slot blockHash
    if r.1 ∧ 0 < r.2.getStake validator ∧ s.board.fork.blocks.contains blockHash then
      some { validator := validator, block := blockHash, slot := slot }
    else none

end ConsensusEngineSlashing

/-! ## Recording a vote -/

namespace SlashingEngine

variable {e : SlashingEngine} {now slot : Int} {v h : String}

theorem mark_stakes (reason : SlashReason) (epoch : Int) : (e.mark now v reason epoch).stakes = e.stakes := by
  unfold mark
  split <;> rfl

theorem addVote_stakes : (e.addVote now v slot h).2.stakes = e.stakes := by
  unfold addVote recordVote
  split
  · rfl
  split
  · split
    · exact mark_stakes _ _
    · rfl
  · rfl

theorem addVote_accepted (ha : (e.addVote now v slot h).1 = true) :
    v ∉ e.slashed ∧ (e.addVote now v slot h).2.slashed = e.slashed := by
  unfold addVote recordVote at *
  by_cases hv : v ∈ e.slashed
  · simp [hv] at ha
  · refine ⟨hv, ?_⟩
    simp only [hv, if_false] at ha ⊢
    cases hs : (e.votesOf v).get? slot with
    | none => rfl
    | some seen =>
      simp only [hs] at ha ⊢
      by_cases hne : seen ≠ h
      · simp [hne] at ha
      · simp [hne]

theorem addVote_slashed : ∀ w ∈ e.slashed, w ∈ (e.addVote now v slot h).2.slashed := by
  intro w hw
  unfold addVote recordVote mark
  by_cases hv : v ∈ e.slashed
  · simpa [hv] using hw
  · simp only [hv, if_false]
    cases (e.votesOf v).get? slot with
    | none => exact hw
    | some seen =>
      by_cases hne : seen ≠ h
      · simp [hne, hw]
      · simpa [hne] using hw

theorem getTotalActiveStake_le {e' : SlashingEngine} (hs : e'.stakes = e.stakes) (hpos : ∀ s ∈ e.stakes, 0 ≤ s.2)
    (hsub : ∀ w ∈ e.slashed, w ∈ e'.slashed) : e'.getTotalActiveStake ≤ e.getTotalActiveStake := by
  unfold getTotalActiveStake
  rw [hs]
  clear hs
  generalize e.stakes = l at hpos ⊢
  induction l with
  | nil => simp
  | cons s t ih =>
    have hle := ih fun x hx => hpos x (List.mem_cons_of_mem _ hx)
    have hs := hpos s (List.mem_cons_self ..)
    by_cases h : s.1 ∈ e.slashed
    · have h' := hsub _ h
      simpa [List.filter_cons, h, h'] using hle
    · by_cases h' : s.1 ∈ e'.slashed
      · simp only [List.filter_cons, h, h', not_true, not_false_eq_true, decide_true, decide_false, if_true,
          Bool.false_eq_true, if_false, List.map_cons, List.sum_cons]
        omega
      · simpa [List.filter_cons, h, h'] using hle

end SlashingEngine

/-! ## The poll -/

structure Poll where
  engine : ConsensusEngineSlashing
  ballots : List Ballot

namespace Poll

def start (epochs : EpochManager) (validators : List (String × Int)) : Poll :=
  { engine := .withValidators epochs validators, ballots := [] }

def step (f : Feed) (p : Poll) : Poll :=
  { engine := p.engine.feed f, ballots := p.ballots ++ (p.engine.counted f).toList }

variable (p : Poll)

def finality : BeaconFinality := p.engine.board.finality

def epochOf (b : Ballot) : Int := p.finality.epochs.getEpoch b.slot

def voters (epoch : Int) (blockHash : String) : List String :=
  (p.ballots.filter fun b => p.epochOf b = epoch ∧ b.block = blockHash).map Ballot.validator

def stakeOf (validator : String) : Int := (p.engine.slashing.stakes.get? validator).getD 0

def decision (f : Feed) : Option (Int × String × Int) :=
  (p.engine.counted f).bind fun b =>
    ((p.finality.count b.block (p.epochOf b) (p.stakeOf b.validator)).decision (p.epochOf b)).map fun best =>
      (p.epochOf b, best.1, best.2)

/-- A counted ballot is the first of its validator for that block in the epoch; the weight that decides is not in the
gap between the rounded threshold and two thirds; and no voter for the justified block has been slashed since. -/
structure Fair (f : Feed) (p : Poll) : Prop where
  once : ∀ b ∈ p.engine.counted f, b.validator ∉ p.voters (p.epochOf b) b.block
  unrounded : ∀ d ∈ p.decision f, ¬ 3 * d.2.2 < 2 * p.finality.totalStake
  standing : ∀ d ∈ p.decision f, ∀ v ∈ p.voters d.1 d.2.1, v ∉ p.engine.slashing.slashed

/-- Whenever the feed justifies an epoch for a block, different registered validators that are not
slashed attested to it in that epoch, and hold two thirds of the active stake. -/
def Supported (f : Feed) (p : Poll) : Prop :=
  ∀ e h, e ∉ p.finality.justifiedEpochs → e ∈ (p.step f).finality.justifiedEpochs →
    (p.step f).finality.justifiedBlocks.get? e = some h →
    ∃ vs : List String, vs.Nodup ∧
      (∀ v ∈ vs, (p.step f).engine.slashing.stakes.contains v ∧ v ∉ (p.step f).engine.slashing.slashed ∧
        ∃ b ∈ (p.step f).ballots, b.validator = v ∧ b.block = h ∧ (p.step f).epochOf b = e) ∧
      2 * (p.step f).engine.slashing.getTotalActiveStake ≤ 3 * (vs.map (p.step f).engine.slashing.getStake).sum

structure Tallied : Prop where
  weight : ∀ e h, p.finality.weightOf e h = ((p.voters e h).map p.stakeOf).sum
  keyed : ∀ e, (p.finality.votesIn e).Keyed
  nodup : ∀ e h, (p.voters e h).Nodup
  positive : ∀ b ∈ p.ballots, 0 < p.stakeOf b.validator
  nonneg : ∀ s ∈ p.engine.slashing.stakes, 0 ≤ s.2
  total : p.engine.slashing.getTotalActiveStake ≤ p.finality.totalStake

theorem feed_finality (s : ConsensusEngineSlashing) (f : Feed) :
    (∃ b, s.counted f = some b ∧ b.validator ∉ s.slashing.slashed ∧
      0 < (s.slashing.stakes.get? b.validator).getD 0 ∧ (s.feed f).slashing.slashed = s.slashing.slashed ∧
      (s.feed f).board.finality =
        (s.board.finality.addVote b.block b.slot ((s.slashing.stakes.get? b.validator).getD 0)).setTotalStake
          (s.feed f).slashing.getTotalActiveStake) ∨
    (s.counted f = none ∧
      ((s.feed f).board.finality = s.board.finality ∨
        (s.feed f).board.finality = s.board.finality.setTotalStake (s.feed f).slashing.getTotalActiveStake)) := by
  cases f with
  | addBlock b => exact .inr ⟨rfl, .inl rfl⟩
  | attest now v h slot =>
    by_cases ha : (s.slashing.addVote now v slot h).1 = true
    · obtain ⟨hv, hslashed⟩ := SlashingEngine.addVote_accepted ha
      have hstake : (s.slashing.addVote now v slot h).2.getStake v = (s.slashing.stakes.get? v).getD 0 := by
        unfold SlashingEngine.getStake
        rw [hslashed, if_neg hv, SlashingEngine.addVote_stakes]
      by_cases hpos : 0 < (s.slashing.stakes.get? v).getD 0
      · by_cases hknown : s.board.fork.blocks.contains h = true
        · left
          refine ⟨{ validator := v, block := h, slot := slot }, ?_, hv, hpos, ?_, ?_⟩
          · simp [ConsensusEngineSlashing.counted, ha, hstake, hpos, hknown]
          · simp [ConsensusEngineSlashing.feed, ConsensusEngineSlashing.onAttestation, ha, hslashed,
              ConsensusEngineSlashing.setTotalStake]
          · simp [ConsensusEngineSlashing.feed, ConsensusEngineSlashing.onAttestation, ha, hstake,
              ConsensusEngineSlashing.setTotalStake, ConsensusEngineSlashing.tally, hpos, hknown]
        · right
          refine ⟨?_, .inr ?_⟩
          · simp [ConsensusEngineSlashing.counted, hknown]
          · simp [ConsensusEngineSlashing.feed, ConsensusEngineSlashing.onAttestation, ha, hstake,
              ConsensusEngineSlashing.setTotalStake, ConsensusEngineSlashing.tally, hpos, hknown]
      · right
        refine ⟨?_, .inr ?_⟩
        · simp [ConsensusEngineSlashing.counted, hstake, hpos]
        · simp [ConsensusEngineSlashing.feed, ConsensusEngineSlashing.onAttestation, ha, hstake,
            ConsensusEngineSlashing.setTotalStake, ConsensusEngineSlashing.tally, hpos]
    · right
      refine ⟨?_, .inl ?_⟩
      · simp [ConsensusEngineSlashing.counted, ha]
      · simp [ConsensusEngineSlashing.feed, ConsensusEngineSlashing.onAttestation, ha]

theorem feed_stakes (s : ConsensusEngineSlashing) (f : Feed) : (s.feed f).slashing.stakes = s.slashing.stakes := by
  cases f with
  | addBlock b => rfl
  | attest now v h slot =>
    unfold ConsensusEngineSlashing.feed ConsensusEngineSlashing.onAttestation
    by_cases ha : (s.slashing.addVote now v slot h).1 = true
    · simpa [ha, ConsensusEngineSlashing.setTotalStake] using SlashingEngine.addVote_stakes
    · simpa [ha] using SlashingEngine.addVote_stakes

theorem feed_slashed (s : ConsensusEngineSlashing) (f : Feed) :
    ∀ w ∈ s.slashing.slashed, w ∈ (s.feed f).slashing.slashed := by
  cases f with
  | addBlock b => exact fun w hw => hw
  | attest now v h slot =>
    unfold ConsensusEngineSlashing.feed ConsensusEngineSlashing.onAttestation
    by_cases ha : (s.slashing.addVote now v slot h).1 = true
    · simpa [ha, ConsensusEngineSlashing.setTotalStake] using SlashingEngine.addVote_slashed
    · simpa [ha] using SlashingEngine.addVote_slashed

variable {p : Poll} {f : Feed}

theorem step_stakeOf (v : String) : (p.step f).stakeOf v = p.stakeOf v := by
  unfold stakeOf step
  rw [feed_stakes]

theorem step_epochOf (b : Ballot) : (p.step f).epochOf b = p.epochOf b := by
  unfold epochOf finality step
  rcases feed_finality p.engine f with ⟨b', -, -, -, -, hf⟩ | ⟨-, hf | hf⟩ <;> rw [hf]
  · simp [BeaconFinality.setTotalStake]
  · rfl

theorem voters_step_none (h : p.engine.counted f = none) (e : Int) (j : String) :
    (p.step f).voters e j = p.voters e j := by
  unfold voters
  simp only [step_epochOf]
  simp [step, h]

theorem voters_step_some {b : Ballot} (h : p.engine.counted f = some b) (e : Int) (j : String) :
    (p.step f).voters e j = p.voters e j ++ if p.epochOf b = e ∧ b.block = j then [b.validator] else [] := by
  unfold voters
  simp only [step_epochOf]
  have hballots : (p.step f).ballots = p.ballots ++ [b] := by simp [step, h]
  rw [hballots, List.filter_append, List.map_append]
  by_cases hb : p.epochOf b = e ∧ b.block = j
  · simp [hb]
  · simp [hb]

theorem tallied_step (ht : Tallied p) (hf : Fair f p) : Tallied (p.step f) := by
  have hstakes : (p.step f).engine.slashing.stakes = p.engine.slashing.stakes := feed_stakes _ _
  have hnonneg : ∀ s ∈ (p.step f).engine.slashing.stakes, 0 ≤ s.2 := by
    rw [hstakes]
    exact ht.nonneg
  have hactive : (p.step f).engine.slashing.getTotalActiveStake ≤ p.engine.slashing.getTotalActiveStake :=
    SlashingEngine.getTotalActiveStake_le hstakes ht.nonneg (feed_slashed _ _)
  have hstake : (p.step f).stakeOf = p.stakeOf := funext step_stakeOf
  -- the engine counts the attestation, or leaves the votes
  rcases feed_finality p.engine f with ⟨b, hb, -, hpos, -, hfin⟩ | ⟨hn, hfin⟩
  · have hfin : (p.step f).finality = (p.finality.addVote b.block b.slot (p.stakeOf b.validator)).setTotalStake
        (p.step f).engine.slashing.getTotalActiveStake := hfin
    refine ⟨?_, ?_, ?_, ?_, hnonneg, ?_⟩
    -- the weight of the block attested grows by the stake of the voter
    · intro e h
      have hw := p.finality.addVote_weightOf b.block b.slot (p.stakeOf b.validator) e h
      have hsame : (p.step f).finality.weightOf e h =
          (p.finality.addVote b.block b.slot (p.stakeOf b.validator)).weightOf e h := by rw [hfin]; rfl
      rw [hsame, hw, ht.weight, voters_step_some hb, hstake, List.map_append, List.sum_append]
      congr 1
      by_cases hc : p.epochOf b = e ∧ b.block = h
      · rw [if_pos hc, if_pos ⟨hc.1.symm, hc.2.symm⟩]
        simp
      · rw [if_neg hc, if_neg fun hx => hc ⟨hx.1.symm, hx.2.symm⟩]
        simp
    · intro e
      have hk := p.finality.addVote_keyed b.block b.slot (p.stakeOf b.validator) ht.keyed e
      rw [hfin]
      exact hk
    -- a fair attestation is the voter's first in its epoch
    · intro e h
      rw [voters_step_some hb]
      by_cases hc : p.epochOf b = e ∧ b.block = h
      · rw [if_pos hc]
        have hnew := hf.once b hb
        rw [hc.1, hc.2] at hnew
        refine List.nodup_append.mpr ⟨ht.nodup e h, by simp, ?_⟩
        intro v hv w hw hvw
        rw [List.mem_singleton.mp hw] at hvw
        exact hnew (hvw ▸ hv)
      · simpa [hc] using ht.nodup e h
    · intro b' hb'
      rw [step_stakeOf]
      have hmem : b' ∈ p.ballots ++ [b] := by simpa [step, hb] using hb'
      rcases List.mem_append.mp hmem with h | h
      · exact ht.positive b' h
      · rw [List.mem_singleton.mp h]
        exact hpos
    · rw [hfin]
      exact le_refl _
  · have hvotes : (p.step f).finality.votes = p.finality.votes := by
      rcases hfin with h | h
      · exact congrArg BeaconFinality.votes h
      · exact (congrArg BeaconFinality.votes h).trans rfl
    refine ⟨?_, ?_, ?_, ?_, hnonneg, ?_⟩
    · intro e h
      rw [voters_step_none hn, hstake, ← ht.weight]
      unfold BeaconFinality.weightOf BeaconFinality.votesIn
      rw [hvotes]
    · intro e
      unfold BeaconFinality.votesIn
      rw [hvotes]
      exact ht.keyed e
    · intro e h
      rw [voters_step_none hn]
      exact ht.nodup e h
    · intro b hb
      rw [step_stakeOf]
      exact ht.positive b (by simpa [step, hn] using hb)
    · rcases hfin with h | h
      · have : (p.step f).finality = p.finality := h
        rw [this]
        exact hactive.trans ht.total
      · have : (p.step f).finality = p.finality.setTotalStake (p.step f).engine.slashing.getTotalActiveStake := h
        rw [this]
        exact le_refl _

def monthly : EpochManager := ⟨32, epochSize_pos⟩

end Poll

end AbsoluteChain
