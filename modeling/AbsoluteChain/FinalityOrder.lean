import AbsoluteChain.FinalitySound

/-!
# The order of finality

Which epochs are final, and whether the checkpoints can move back, when votes
reach `BeaconFinality` in any order of the epochs.
-/

namespace AbsoluteChain

open Python Runs

namespace BeaconFinality

/-! ## One vote -/

section justify
variable (f : BeaconFinality) (epoch : Int) (h : String)

theorem justify_justifiedCheckpoint : (f.justify epoch h).justifiedCheckpoint = some epoch := by
  unfold justify
  simp only
  split <;> rfl

theorem justify_previous (hp : epoch - 1 ∈ f.justifiedEpochs ∧ epoch - 1 ∉ f.finalizedEpochs) :
    (f.justify epoch h).finalizedEpochs = (epoch - 1) :: f.finalizedEpochs ∧
      (f.justify epoch h).finalizedCheckpoint = some (epoch - 1) := by
  unfold justify
  simp only [List.mem_cons, hp, or_true, not_false_eq_true, and_self, if_true]

theorem justify_alone (hp : ¬ (epoch - 1 ∈ f.justifiedEpochs ∧ epoch - 1 ∉ f.finalizedEpochs)) :
    (f.justify epoch h).finalizedEpochs = f.finalizedEpochs ∧
      (f.justify epoch h).finalizedCheckpoint = f.finalizedCheckpoint := by
  have hne : epoch - 1 ≠ epoch := by omega
  unfold justify
  simp only [List.mem_cons, hne, false_or, hp, if_false, and_self]

end justify

def verdict (f : BeaconFinality) (blockHash : String) (slot weight : Int) : Option (String × Int) :=
  (f.count blockHash (f.epochs.getEpoch slot) weight).decision (f.epochs.getEpoch slot)

structure Standing where
  justifiedCheckpoint : Option Int
  finalizedCheckpoint : Option Int
  justifiedEpochs : List Int
  finalizedEpochs : List Int
  deriving DecidableEq

def standing (f : BeaconFinality) : Standing :=
  { justifiedCheckpoint := f.justifiedCheckpoint, finalizedCheckpoint := f.finalizedCheckpoint,
    justifiedEpochs := f.justifiedEpochs, finalizedEpochs := f.finalizedEpochs }

variable {f : BeaconFinality} {blockHash : String} {slot weight : Int}

theorem addVote_undecided (h : f.verdict blockHash slot weight = none) :
    (f.addVote blockHash slot weight).standing = f.standing := by
  unfold verdict at h
  unfold addVote
  rw [evaluate_eq, h]
  rfl

theorem addVote_decided {best : String × Int} (h : f.verdict blockHash slot weight = some best) :
    f.addVote blockHash slot weight =
      (f.count blockHash (f.epochs.getEpoch slot) weight).justify (f.epochs.getEpoch slot) best.1 := by
  unfold verdict at h
  unfold addVote
  rw [evaluate_eq, h]

/-! ## Votes in any order -/

/-- What reaches the finality of an engine. -/
inductive Input where
  | vote (blockHash : String) (slot weight : Int)
  | totalStake (total : Int)

def step : Input → BeaconFinality → BeaconFinality
  | .vote blockHash slot weight, f => f.addVote blockHash slot weight
  | .totalStake total, f => f.setTotalStake total

def Late : Input → BeaconFinality → Prop
  | .vote blockHash slot weight, f =>
    f.verdict blockHash slot weight ≠ none ∧ ∃ n ∈ f.justifiedEpochs, f.epochs.getEpoch slot < n
  | .totalStake _, _ => False

/-- The final epochs are those that are justified together with the next. -/
def Paired (f : BeaconFinality) : Prop :=
  ∀ n, n ∈ f.finalizedEpochs ↔ n ∈ f.justifiedEpochs ∧ n + 1 ∈ f.justifiedEpochs

def NotBack (before after : Option Int) : Prop := ∀ a, before = some a → ∃ b, after = some b ∧ a ≤ b

def Advances (i : Input) (f : BeaconFinality) : Prop :=
  NotBack f.justifiedCheckpoint (step i f).justifiedCheckpoint ∧ NotBack f.finalizedCheckpoint (step i f).finalizedCheckpoint

structure InOrder (f : BeaconFinality) : Prop where
  newest : ∀ n ∈ f.justifiedEpochs, ∃ c, f.justifiedCheckpoint = some c ∧ n ≤ c
  justified : ∀ c, f.justifiedCheckpoint = some c → c ∈ f.justifiedEpochs
  final : ∀ c, f.finalizedCheckpoint = some c → c ∈ f.finalizedEpochs
  paired : f.Paired

theorem NotBack.refl (a : Option Int) : NotBack a a := fun x hx => ⟨x, hx, Int.le_refl x⟩

theorem InOrder.congr {g : BeaconFinality} (h : f.InOrder) (hg : g.standing = f.standing) : g.InOrder := by
  unfold standing at hg
  obtain ⟨h₁, h₂, h₃, h₄⟩ := Standing.mk.inj hg
  have hnewest := h.newest
  have hjustified := h.justified
  have hfinal := h.final
  have hpaired := h.paired
  unfold Paired at hpaired
  rw [← h₁, ← h₃] at hnewest hjustified
  rw [← h₂, ← h₄] at hfinal
  rw [← h₃, ← h₄] at hpaired
  exact ⟨hnewest, hjustified, hfinal, hpaired⟩

theorem inOrder_start (epochs : EpochManager) : (start epochs).InOrder where
  newest n hn := absurd hn List.not_mem_nil
  justified c hc := by cases hc
  final c hc := by cases hc
  paired n := iff_of_false List.not_mem_nil fun h => absurd h.1 List.not_mem_nil

theorem InOrder.justify {e : Int} (h : f.InOrder) (hnew : ∀ n ∈ f.justifiedEpochs, n < e) (block : String) :
    (f.justify e block).InOrder ∧ NotBack f.justifiedCheckpoint (f.justify e block).justifiedCheckpoint ∧
      NotBack f.finalizedCheckpoint (f.justify e block).finalizedCheckpoint := by
  have hnext : e + 1 ∉ f.justifiedEpochs := fun hm => by
    have hlt := hnew _ hm
    omega
  -- the new epoch is the newest of the justified ones
  have hnewest : ∀ n ∈ (f.justify e block).justifiedEpochs, ∃ c, (f.justify e block).justifiedCheckpoint = some c ∧ n ≤ c := by
    intro n hn
    refine ⟨e, justify_justifiedCheckpoint f e block, ?_⟩
    rw [justify_justifiedEpochs] at hn
    rcases List.mem_cons.mp hn with rfl | hn
    · exact Int.le_refl n
    · exact (hnew n hn).le
  have hjustified : ∀ c, (f.justify e block).justifiedCheckpoint = some c → c ∈ (f.justify e block).justifiedEpochs := by
    intro c hc
    rw [justify_justifiedCheckpoint] at hc
    cases hc
    rw [justify_justifiedEpochs]
    exact List.mem_cons_self
  have hforward : NotBack f.justifiedCheckpoint (f.justify e block).justifiedCheckpoint := by
    intro c hc
    exact ⟨e, justify_justifiedCheckpoint f e block, (hnew c (h.justified c hc)).le⟩
  -- it is final that becomes so when the epoch before it is justified
  by_cases hp : e - 1 ∈ f.justifiedEpochs ∧ e - 1 ∉ f.finalizedEpochs
  · obtain ⟨hset, hcheckpoint⟩ := justify_previous f e block hp
    refine ⟨⟨hnewest, hjustified, ?_, ?_⟩, hforward, ?_⟩
    · intro c hc
      rw [hcheckpoint] at hc
      cases hc
      rw [hset]
      exact List.mem_cons_self
    · intro n
      rw [hset, justify_justifiedEpochs, List.mem_cons, List.mem_cons, List.mem_cons, h.paired n]
      constructor
      · rintro (rfl | ⟨hn, hsucc⟩)
        · exact ⟨.inr hp.1, .inl (by omega)⟩
        · exact ⟨.inr hn, .inr hsucc⟩
      · rintro ⟨rfl | hn, hs | hsucc⟩
        · omega
        · exact absurd hsucc hnext
        · exact .inl (by omega)
        · exact .inr ⟨hn, hsucc⟩
    · intro c hc
      refine ⟨e - 1, hcheckpoint, ?_⟩
      have hlt := hnew c ((h.paired c).mp (h.final c hc)).1
      omega
  · obtain ⟨hset, hcheckpoint⟩ := justify_alone f e block hp
    refine ⟨⟨hnewest, hjustified, ?_, ?_⟩, hforward, ?_⟩
    · rw [hcheckpoint, hset]
      exact h.final
    · intro n
      rw [hset, justify_justifiedEpochs, List.mem_cons, List.mem_cons, h.paired n]
      constructor
      · rintro ⟨hn, hsucc⟩
        exact ⟨.inr hn, .inr hsucc⟩
      · rintro ⟨rfl | hn, hs | hsucc⟩
        · omega
        · exact absurd hsucc hnext
        · -- the epoch before `e` is justified, so it is final already
          obtain rfl : n = e - 1 := by omega
          have hfinal : e - 1 ∈ f.finalizedEpochs := by
            by_contra hnot
            exact hp ⟨hn, hnot⟩
          exact (h.paired _).mp hfinal
        · exact ⟨hn, hsucc⟩
    · rw [hcheckpoint]
      exact .refl _

theorem InOrder.step {i : Input} (h : f.InOrder) (hi : ¬ Late i f) : (step i f).InOrder ∧ Advances i f := by
  cases i with
  | totalStake total => exact ⟨h.congr rfl, .refl _, .refl _⟩
  | vote blockHash slot weight =>
    show (f.addVote blockHash slot weight).InOrder ∧ NotBack _ (f.addVote blockHash slot weight).justifiedCheckpoint ∧
      NotBack _ (f.addVote blockHash slot weight).finalizedCheckpoint
    cases hv : f.verdict blockHash slot weight with
    | none =>
      have hsame := addVote_undecided hv
      have hj := congrArg Standing.justifiedCheckpoint hsame
      have hf := congrArg Standing.finalizedCheckpoint hsame
      refine ⟨h.congr hsame, ?_, ?_⟩
      · rw [show (f.addVote blockHash slot weight).justifiedCheckpoint = f.justifiedCheckpoint from hj]
        exact .refl _
      · rw [show (f.addVote blockHash slot weight).finalizedCheckpoint = f.finalizedCheckpoint from hf]
        exact .refl _
    | some best =>
      have hfresh := (decision_some _ hv).1
      have hnew : ∀ n ∈ f.justifiedEpochs, n < f.epochs.getEpoch slot := by
        intro n hn
        by_contra hle
        have hne : n ≠ f.epochs.getEpoch slot := fun heq => hfresh (heq ▸ hn)
        apply hi
        refine ⟨?_, n, hn, by omega⟩
        rw [hv]
        exact Option.some_ne_none best
      rw [addVote_decided hv]
      exact (h.congr (g := f.count blockHash (f.epochs.getEpoch slot) weight) rfl).justify hnew best.1

theorem InOrder.late {i : Input} (h : f.InOrder) (hi : Late i f) : ¬ Advances i f := by
  cases i with
  | totalStake total => exact hi.elim
  | vote blockHash slot weight =>
    obtain ⟨hv, n, hn, hlt⟩ := hi
    obtain ⟨best, hbest⟩ := Option.ne_none_iff_exists'.mp hv
    obtain ⟨c, hc, hle⟩ := h.newest n hn
    rintro ⟨hback, -⟩
    obtain ⟨b, hb, hcb⟩ := hback c hc
    have hmoved : (BeaconFinality.step (.vote blockHash slot weight) f).justifiedCheckpoint = some (f.epochs.getEpoch slot) := by
      show (f.addVote blockHash slot weight).justifiedCheckpoint = _
      rw [addVote_decided hbest, justify_justifiedCheckpoint]
    rw [hmoved] at hb
    cases hb
    omega

/-- Along a run the final epochs are the justified ones with a justified successor and no checkpoint
moves back, exactly when no vote is late. -/
theorem finality_monotone (epochs : EpochManager) (inputs : List Input) :
    Always step Paired inputs (start epochs) ∧ Along step Advances inputs (start epochs) ↔
      Along step (fun i f => ¬ Late i f) inputs (start epochs) := by
  constructor
  · rintro ⟨-, h⟩
    have hcond : ∀ i f, InOrder f → Advances i f → ¬ Late i f := fun i f hf ha hl => hf.late hl ha
    exact along_of_along (fun i f hf ha => (hf.step (hcond i f hf ha)).1) hcond (inOrder_start epochs) h
  · intro h
    have hstep : ∀ i f, InOrder f → ¬ Late i f → InOrder (BeaconFinality.step i f) := fun i f hf hl => (hf.step hl).1
    have hall := always_of_along hstep (inOrder_start epochs) h
    refine ⟨hall.imp fun f hf => hf.paired, ?_⟩
    exact along_of_along hstep (fun i f hf hl => (hf.step hl).2) (inOrder_start epochs) h

end BeaconFinality

/-! ## A late vote -/

namespace ConsensusEngineBeacon

/-- Three validators of equal stake and four attestations: `c` votes for epoch 0 when epoch 1 is justified. -/
def lateVoter : ConsensusEngineBeacon :=
  let s := (((start ⟨3, by decide⟩).addValidator "a" 100).addValidator "b" 100).addValidator "c" 100
  let s := (s.onAttestation "a" "x" 0).2
  let s := (s.onAttestation "a" "y" 3).2
  let s := (s.onAttestation "b" "y" 3).2
  (s.onAttestation "c" "x" 0).2

end ConsensusEngineBeacon

namespace BeaconFinality

/-- The inputs that the engine gives to its finality in that run, the last vote apart. -/
def earlyInputs : List Input :=
  [.totalStake 100, .totalStake 200, .totalStake 300, .vote "x" 0 100, .vote "y" 3 100, .vote "y" 3 100]

def lateInputs : List Input := earlyInputs ++ [.vote "x" 0 100]

theorem finality_not_monotone :
    ConsensusEngineBeacon.lateVoter.finality.standing = (run step lateInputs (start ⟨3, by decide⟩)).standing ∧
    ¬ Always step Paired lateInputs (start ⟨3, by decide⟩) ∧ ¬ Along step Advances lateInputs (start ⟨3, by decide⟩) := by
  have hearly : (run step earlyInputs (start ⟨3, by decide⟩)).standing = ⟨some 1, none, [1], []⟩ := by decide +kernel
  have hlate : (run step lateInputs (start ⟨3, by decide⟩)).standing = ⟨some 0, none, [0, 1], []⟩ := by decide +kernel
  refine ⟨by decide +kernel, ?_, ?_⟩
  · intro h
    have hpaired := h.last 0
    have hjustified : (run step lateInputs (start ⟨3, by decide⟩)).justifiedEpochs = [0, 1] :=
      congrArg Standing.justifiedEpochs hlate
    have hfinal : (run step lateInputs (start ⟨3, by decide⟩)).finalizedEpochs = [] :=
      congrArg Standing.finalizedEpochs hlate
    rw [hjustified, hfinal] at hpaired
    exact absurd hpaired (by decide)
  · intro h
    obtain ⟨-, ⟨hback, -⟩, -⟩ := along_append.mp h
    obtain ⟨b, hb, hle⟩ := hback 1 (congrArg Standing.justifiedCheckpoint hearly)
    have hb' : some b = some 0 := hb.symm.trans (congrArg Standing.justifiedCheckpoint hlate)
    cases hb'
    exact absurd hle (by decide)

end BeaconFinality

end AbsoluteChain
