import AbsoluteChain.Runs
import AbsoluteChain.StakeChoice

/-!
# Slot finality

`ConsensusEngine` appends the name of each attester to a list per slot, whatever block
was attested, and at each epoch boundary finalises every slot whose list is long enough.
-/

namespace AbsoluteChain

open Python Runs

inductive SlotCall where
  | attest (validator : String) (slot : Int) (blockHash : String)
  | advanceSlot

structure SlotVote where
  validator : String
  slot : Int
  blockHash : String
  deriving DecidableEq

structure SlotPoll where
  engine : ConsensusEngine
  votes : List SlotVote

namespace SlotPoll

def step : SlotCall → SlotPoll → SlotPoll
  | .attest validator slot blockHash, p =>
    if (p.engine.attest validator slot).1 then
      { engine := (p.engine.attest validator slot).2, votes := p.votes ++ [⟨validator, slot, blockHash⟩] }
    else p
  | .advanceSlot, p => { p with engine := p.engine.advanceSlot }

def start (announcements : List (String × ℚ)) : SlotPoll := { engine := .built announcements 0 0, votes := [] }

variable (p : SlotPoll)

def calls (slot : Int) : List SlotVote := p.votes.filter fun v => v.slot = slot

def voters (slot : Int) (blockHash : String) : Finset String :=
  ((p.votes.filter fun v => v.slot = slot ∧ v.blockHash = blockHash).map SlotVote.validator).toFinset

def Supported (slot : Int) : Prop := ∃ blockHash, 2 * p.engine.validators.length < 3 * (p.voters slot blockHash).card

/-- No slot is final twice, nor without its voters. -/
structure Sound : Prop where
  once : p.engine.finalizedCheckpoints.Nodup
  supported : ∀ slot ∈ p.engine.finalizedCheckpoints, p.Supported slot

/-- At an epoch boundary, a slot that more than two thirds of the validators' number of calls attested is
not final yet, and so many validators did attest to one block. -/
def Clean : SlotCall → SlotPoll → Prop
  | .attest _ _ _, _ => True
  | .advanceSlot, p => (p.engine.currentSlot + 1) % 32 = 0 → ∀ slot,
      2 * p.engine.validators.length < 3 * (p.calls slot).length →
        slot ∉ p.engine.finalizedCheckpoints ∧ p.Supported slot

structure Tracks : Prop where
  keyed : p.engine.attestations.Keyed
  lists : ∀ slot, (p.engine.attestations.get? slot).getD [] = (p.calls slot).map SlotVote.validator
  registered : ∀ v ∈ p.votes, p.engine.validators.contains v.validator = true

variable {p}

theorem attest_accepted {s : ConsensusEngine} {validator : String} {slot : Int} (h : (s.attest validator slot).1 = true) :
    ∃ v, s.validators.get? validator = some v ∧ (s.attest validator slot).2 =
      { s with
        validators := s.validators.set validator { v with attestations := v.attestations + 1 }
        attestations := s.attestations.set slot (((s.attestations.get? slot).getD []) ++ [validator]) } := by
  unfold ConsensusEngine.attest at h ⊢
  cases hv : s.validators.get? validator with
  | none =>
    rw [hv] at h
    cases h
  | some v =>
    rw [hv] at h
    dsimp only at h ⊢
    by_cases hactive : v.isActive = true
    · rw [if_pos hactive]
      exact ⟨v, rfl, rfl⟩
    · rw [if_neg hactive] at h
      cases h

theorem mem_keys_of_get {d : Dict String PosValidator} {k : String} {v : PosValidator} (h : d.get? k = some v) :
    k ∈ d.map Prod.fst := List.mem_map_of_mem (Dict.mem_of_get? h)

theorem length_set {d : Dict String PosValidator} {k : String} {v : PosValidator} (h : d.get? k = some v) (w : PosValidator) :
    (d.set k w).length = d.length := by
  have hkeys := congrArg List.length (Dict.keys_set d k w)
  rwa [if_pos (mem_keys_of_get h), List.length_map, List.length_map] at hkeys

theorem tracks_start (announcements : List (String × ℚ)) : (start announcements).Tracks := by
  have hr := ConsensusEngine.registered_built announcements 0 0
  refine ⟨?_, fun slot => ?_, fun v hv => nomatch hv⟩
  · show Dict.Keyed (ConsensusEngine.built announcements 0 0).attestations
    rw [hr.unattested]
    exact List.nodup_nil
  · show ((ConsensusEngine.built announcements 0 0).attestations.get? slot).getD [] = []
    rw [hr.unattested]
    rfl

theorem sound_start (announcements : List (String × ℚ)) : (start announcements).Sound := by
  have hr := ConsensusEngine.registered_built announcements 0 0
  have hnone : (start announcements).engine.finalizedCheckpoints = [] := hr.unfinal
  constructor
  · rw [hnone]
    exact List.nodup_nil
  · rw [hnone]
    exact fun slot hslot => nomatch hslot

/-! ## An attestation -/

section
variable {validator blockHash : String} {slot : Int} (ha : (p.engine.attest validator slot).1 = true)
include ha

theorem step_attest : step (.attest validator slot blockHash) p =
    { engine := (p.engine.attest validator slot).2, votes := p.votes ++ [⟨validator, slot, blockHash⟩] } := if_pos ha

theorem tracks_attest (h : p.Tracks) : (step (.attest validator slot blockHash) p).Tracks := by
  obtain ⟨v, hv, he⟩ := attest_accepted ha
  rw [step_attest ha, he]
  refine ⟨h.keyed.set _ _, fun s => ?_, fun x hx => ?_⟩
  · unfold calls
    rw [Dict.get?_set, List.filter_append, List.map_append]
    by_cases hs : s = slot
    · subst hs
      rw [if_pos rfl, Option.getD_some, h.lists s]
      simp [calls]
    · rw [if_neg hs, h.lists s]
      simp [calls, Ne.symm hs]
  · unfold Dict.contains
    rw [Dict.get?_set]
    by_cases hk : x.validator = validator
    · rw [if_pos hk]
      rfl
    · rw [if_neg hk]
      rcases List.mem_append.mp hx with hx | hx
      · exact h.registered x hx
      · exact absurd (congrArg SlotVote.validator (List.mem_singleton.mp hx)) hk

theorem attest_length : (step (.attest validator slot blockHash) p).engine.validators.length = p.engine.validators.length := by
  obtain ⟨v, hv, he⟩ := attest_accepted ha
  rw [step_attest ha, he]
  exact length_set hv _

theorem supported_attest {s : Int} (h : p.Supported s) : (step (.attest validator slot blockHash) p).Supported s := by
  obtain ⟨b, hb⟩ := h
  refine ⟨b, ?_⟩
  rw [attest_length ha]
  refine hb.trans_le (Nat.mul_le_mul_left 3 (Finset.card_le_card ?_))
  intro x hx
  rw [step_attest ha]
  unfold voters at hx ⊢
  rw [List.filter_append, List.map_append, List.toFinset_append]
  exact Finset.mem_union_left _ hx

theorem sound_attest (h : p.Sound) : (step (.attest validator slot blockHash) p).Sound := by
  have hsame : (step (.attest validator slot blockHash) p).engine.finalizedCheckpoints = p.engine.finalizedCheckpoints := by
    obtain ⟨v, -, he⟩ := attest_accepted ha
    rw [step_attest ha, he]
  constructor
  · rw [hsame]
    exact h.once
  · rw [hsame]
    exact fun s hs => supported_attest ha (h.supported s hs)

end

/-! ## A boundary -/

def passed (p : SlotPoll) : List Int :=
  (p.engine.attestations.filter fun e => 2 * p.engine.validators.length < 3 * e.2.length).map Prod.fst

theorem nodup_passed (h : p.Tracks) : p.passed.Nodup := h.keyed.sublist (List.filter_sublist.map Prod.fst)

theorem mem_passed (h : p.Tracks) (slot : Int) :
    slot ∈ p.passed ↔ 2 * p.engine.validators.length < 3 * (p.calls slot).length := by
  have hlen : ((p.engine.attestations.get? slot).getD []).length = (p.calls slot).length := by
    rw [h.lists slot, List.length_map]
  constructor
  · intro hin
    obtain ⟨e, he, rfl⟩ := List.mem_map.mp hin
    obtain ⟨hmem, hlong⟩ := List.mem_filter.mp he
    rw [← hlen, h.keyed.get?_of_mem hmem]
    exact of_decide_eq_true hlong
  · intro hlong
    cases hg : p.engine.attestations.get? slot with
    | none =>
      rw [hg] at hlen
      rw [← hlen] at hlong
      exact absurd hlong (Nat.not_lt_zero _)
    | some l =>
      rw [hg] at hlen
      refine List.mem_map.mpr ⟨(slot, l), List.mem_filter.mpr ⟨Dict.mem_of_get? hg, ?_⟩, rfl⟩
      rw [← hlen] at hlong
      exact decide_eq_true hlong

theorem advance_engine (h : p.Tracks) : (step .advanceSlot p).engine.finalizedCheckpoints =
    p.engine.finalizedCheckpoints ++ if (p.engine.currentSlot + 1) % 32 = 0 then p.passed else [] := by
  unfold step ConsensusEngine.advanceSlot
  dsimp only
  by_cases hb : (p.engine.currentSlot + 1) % 32 = 0
  · rw [if_pos hb, if_pos hb]
    unfold ConsensusEngine.finalizeCheckpoint
    dsimp only
    by_cases hzero : p.engine.validators.length = 0
    · rw [if_pos hzero]
      have hempty : p.passed = [] := by
        rw [List.eq_nil_iff_forall_not_mem]
        intro slot hslot
        have hlong := (mem_passed h slot).mp hslot
        rw [hzero] at hlong
        obtain ⟨v, hv⟩ := List.exists_mem_of_length_pos (l := p.calls slot) (by omega)
        have hin := h.registered v (List.mem_of_mem_filter hv)
        rw [List.eq_nil_of_length_eq_zero hzero] at hin
        cases hin
      rw [hempty, List.append_nil]
    · rw [if_neg hzero]
      rfl
  · rw [if_neg hb, if_neg hb, List.append_nil]

theorem advance_rest (p : SlotPoll) : (step .advanceSlot p).engine.validators = p.engine.validators ∧
    (step .advanceSlot p).engine.attestations = p.engine.attestations ∧ (step .advanceSlot p).votes = p.votes := by
  unfold step ConsensusEngine.advanceSlot ConsensusEngine.finalizeCheckpoint
  dsimp only
  split
  · split
    · exact ⟨rfl, rfl, rfl⟩
    · exact ⟨rfl, rfl, rfl⟩
  · exact ⟨rfl, rfl, rfl⟩

theorem tracks_advance (h : p.Tracks) : (step .advanceSlot p).Tracks := by
  obtain ⟨hvalidators, hattestations, hvotes⟩ := advance_rest p
  refine ⟨by rw [hattestations]; exact h.keyed, fun slot => ?_, fun v hv => ?_⟩
  · unfold calls
    rw [hattestations, hvotes]
    exact h.lists slot
  · rw [hvalidators]
    exact h.registered v (hvotes ▸ hv)

theorem supported_advance (slot : Int) : (step .advanceSlot p).Supported slot ↔ p.Supported slot := by
  obtain ⟨hvalidators, -, hvotes⟩ := advance_rest p
  unfold Supported voters
  rw [hvalidators, hvotes]

theorem sound_advance (ht : p.Tracks) (hs : p.Sound) : (step .advanceSlot p).Sound ↔ Clean .advanceSlot p := by
  have hfinal := advance_engine ht
  by_cases hb : (p.engine.currentSlot + 1) % 32 = 0
  · rw [if_pos hb] at hfinal
    constructor
    · intro h _ slot hlong
      have hin := (mem_passed ht slot).mpr hlong
      have honce := h.once
      rw [hfinal] at honce
      refine ⟨fun hold => (List.nodup_append.mp honce).2.2 slot hold slot hin rfl, ?_⟩
      apply (supported_advance slot).mp
      apply h.supported
      rw [hfinal]
      exact List.mem_append_right _ hin
    · intro h
      have hclean := h hb
      constructor
      · rw [hfinal]
        refine List.nodup_append.mpr ⟨hs.once, nodup_passed ht, fun a ha b hb hab => ?_⟩
        exact (hclean b ((mem_passed ht b).mp hb)).1 (hab ▸ ha)
      · intro slot hslot
        rw [hfinal] at hslot
        apply (supported_advance slot).mpr
        rcases List.mem_append.mp hslot with hold | hnew
        · exact hs.supported slot hold
        · exact (hclean slot ((mem_passed ht slot).mp hnew)).2
  · rw [if_neg hb, List.append_nil] at hfinal
    refine iff_of_true ⟨by rw [hfinal]; exact hs.once, fun slot hslot => ?_⟩ fun h => absurd h hb
    rw [hfinal] at hslot
    exact (supported_advance slot).mpr (hs.supported slot hslot)

/-! ## Runs -/

theorem tracks_step (e : SlotCall) (h : p.Tracks) : (step e p).Tracks := by
  cases e with
  | attest validator slot blockHash =>
    by_cases ha : (p.engine.attest validator slot).1 = true
    · exact tracks_attest ha h
    · rw [step, if_neg ha]
      exact h
  | advanceSlot => exact tracks_advance h

theorem sound_step (e : SlotCall) (ht : p.Tracks) (hs : p.Sound) : (step e p).Sound ↔ Clean e p := by
  cases e with
  | attest validator slot blockHash =>
    refine iff_of_true ?_ trivial
    by_cases ha : (p.engine.attest validator slot).1 = true
    · exact sound_attest ha hs
    · rw [step, if_neg ha]
      exact hs
  | advanceSlot => exact sound_advance ht hs

/-- Slots are finalised once, and by their voters, in the runs whose boundaries find no slot that many
calls but not many validators attested, or that is final already. -/
theorem slots_final_iff_clean (announcements : List (String × ℚ)) (events : List SlotCall) :
    Always step Sound events (start announcements) ↔ Along step Clean events (start announcements) :=
  always_iff_along_of (I := fun p => p.Tracks ∧ p.Sound) (fun _ h => h.2)
    (fun e _ h hc => ⟨tracks_step e h.1, (sound_step e h.1 h.2).mpr hc⟩) (fun e _ h hs => (sound_step e h.1 h.2).mp hs)
    ⟨tracks_start announcements, sound_start announcements⟩

def attestedTwice : List SlotCall := [.attest "a" 0 "x", .attest "a" 0 "x"] ++ List.replicate 32 .advanceSlot

theorem slot_without_voters : ¬ ∀ (announcements : List (String × ℚ)) (events : List SlotCall),
    Always step Sound events (start announcements) := by
  intro h
  obtain ⟨b, hb⟩ := (h [("a", 1), ("b", 1)] attestedTwice).last.supported 0 (by decide +kernel)
  have hsize : (run step attestedTwice (start [("a", 1), ("b", 1)])).engine.validators.length = 2 := by decide +kernel
  have hvotes : (run step attestedTwice (start [("a", 1), ("b", 1)])).votes = [⟨"a", 0, "x"⟩, ⟨"a", 0, "x"⟩] := by decide +kernel
  have hone : (voters (run step attestedTwice (start [("a", 1), ("b", 1)])) 0 b).card ≤ 1 := by
    refine (Finset.card_le_card (t := {"a"}) fun v hv => ?_).trans (by decide)
    unfold voters at hv
    rw [hvotes] at hv
    obtain ⟨x, hx, rfl⟩ := List.mem_map.mp (List.mem_toFinset.mp hv)
    have hin := List.mem_of_mem_filter hx
    simp only [List.mem_cons, List.not_mem_nil, or_false, or_self] at hin
    rw [hin]
    exact Finset.mem_singleton_self _
  rw [hsize] at hb
  omega

end SlotPoll

end AbsoluteChain
