import AbsoluteChain.PrefixSums
import AbsoluteChain.Proposers
import Mathlib.Order.Interval.Finset.Defs
import Mathlib.Order.Interval.Set.Defs
import Mathlib.Data.Int.ConditionallyCompleteOrder
import Mathlib.Data.Int.Interval

/-!
# Stake-weighted choice

Both proposer choices walk the validators in the order of their addresses and add up
stakes. `ValidatorSelection` clamps the stakes and stops beyond its target;
`ConsensusEngine` takes the stakes as they were announced and stops at its target
already.
-/

namespace AbsoluteChain

open Python PrefixSums

/-! ## The order of the addresses -/

theorem sortedBy_congr {α κ : Type} [LinearOrder κ] {key : α → κ} {l l' : List α} (hp : l.Perm l')
    (hn : (l.map key).Nodup) : sortedBy key l = sortedBy key l' := by
  have hsorted : ∀ k : List α, (sortedBy key k).Pairwise fun a b => key a ≤ key b := fun k =>
    List.pairwise_insertionSort (fun a b => key a ≤ key b) k
  refine List.Perm.eq_of_pairwise (fun a b ha hb hab hba => ?_) (hsorted l) (hsorted l')
    ((Miner.sortedBy_perm key l).trans (hp.trans (Miner.sortedBy_perm key l').symm))
  have ha := (Miner.sortedBy_perm key l).mem_iff.mp ha
  have hb := hp.mem_iff.mpr ((Miner.sortedBy_perm key l').mem_iff.mp hb)
  exact List.inj_on_of_nodup_map hn ha hb (le_antisymm hab hba)

theorem sum_sortedBy {α κ M : Type} [LinearOrder κ] [AddCommMonoid M] (key : α → κ) (weight : α → M) (l : List α) :
    ((sortedBy key l).map weight).sum = (l.map weight).sum :=
  ((Miner.sortedBy_perm key l).map weight).sum_eq

theorem head_sortedBy {α κ : Type} [LinearOrder κ] {key : α → κ} {l rest : List α} {x : α} (h : sortedBy key l = x :: rest) :
    x ∈ l ∧ ∀ y ∈ l, key x ≤ key y := by
  have hmem : ∀ y, y ∈ x :: rest ↔ y ∈ l := fun y => h ▸ (Miner.sortedBy_perm key l).mem_iff
  refine ⟨(hmem x).mp List.mem_cons_self, ?_⟩
  have hsorted : (sortedBy key l).Pairwise fun a b => key a ≤ key b :=
    List.pairwise_insertionSort (fun a b => key a ≤ key b) l
  intro y hy
  rw [h] at hsorted
  rcases List.mem_cons.mp ((hmem y).mpr hy) with rfl | hy
  · exact le_refl _
  · exact (List.pairwise_cons.mp hsorted).1 y hy

/-! ## Clamped stakes -/

structure ValidatorMap where
  stakes : Dict String ℚ
  keyed : stakes.Keyed

namespace ValidatorSelection

variable {m : ValidatorMap} {slot : Int}

def clamped (stake : ℚ) : Int := max 0 (truncate stake)

def totalStake (m : ValidatorMap) : Int := (m.stakes.map fun e => clamped e.2).sum

theorem pick_search (target cumulative : Int) (l : List (String × Int)) :
    pick target cumulative l = (search (fun c => target < c) Prod.snd cumulative l).map Prod.fst := by
  induction l generalizing cumulative with
  | nil => rfl
  | cons e l ih =>
    obtain ⟨validator, stake⟩ := e
    unfold pick search
    by_cases h : target < cumulative + stake
    · simp [h]
    · simp [h, ih]

theorem canonical_keys (m : ValidatorMap) : ((canonicalValidators m.stakes).map Prod.fst).Nodup := by
  unfold canonicalValidators
  refine ((Miner.sortedBy_perm _ _).map Prod.fst).nodup_iff.mpr ?_
  rw [List.map_map]
  exact m.keyed

theorem canonical_nonneg {e : String × Int} (he : e ∈ canonicalValidators m.stakes) : 0 ≤ e.2 := by
  obtain ⟨d, -, rfl⟩ := List.mem_map.mp ((Miner.sortedBy_perm _ _).mem_iff.mp he)
  exact le_max_left _ _

theorem sum_canonical (m : ValidatorMap) : ((canonicalValidators m.stakes).map Prod.snd).sum = totalStake m := by
  unfold canonicalValidators totalStake
  rw [sum_sortedBy, List.map_map]
  rfl

theorem canonical_congr {m' : ValidatorMap} (hp : m'.stakes.Perm m.stakes) :
    canonicalValidators m'.stakes = canonicalValidators m.stakes := by
  refine sortedBy_congr (hp.map _) ?_
  rw [List.map_map]
  exact m'.keyed

theorem pick_interval {first rest : List (String × Int)} {v : String} {stake target : Int}
    (hl : canonicalValidators m.stakes = first ++ (v, stake) :: rest) (htarget : 0 ≤ target) :
    pick target 0 (canonicalValidators m.stakes) = some v ↔
      (first.map Prod.snd).sum ≤ target ∧ target < (first.map Prod.snd).sum + stake := by
  have hkeys := canonical_keys m
  rw [hl] at hkeys
  have hfound : pick target 0 (first ++ (v, stake) :: rest) = some v ↔
      search (fun c => target < c) Prod.snd 0 (first ++ (v, stake) :: rest) = some (v, stake) := by
    rw [pick_search]
    constructor
    · intro h
      obtain ⟨e, he, hv⟩ := Option.map_eq_some_iff.mp h
      have := List.inj_on_of_nodup_map hkeys (search_mem he) (List.mem_append_right _ List.mem_cons_self) hv
      rw [he, this]
    · intro h
      rw [h]
      rfl
  rw [hl, hfound, search_at (fun a b hab ha => ?_) (fun y hy => canonical_nonneg (m := m) (hl ▸ hy)) hkeys.of_map]
  · simp only [zero_add, decide_eq_false_iff_not, not_lt, decide_eq_true_eq]
    constructor
    · rintro ⟨rfl | h, hlt⟩
      · exact ⟨htarget, hlt⟩
      · exact ⟨h, hlt⟩
    · rintro ⟨h, hlt⟩
      exact ⟨.inr h, hlt⟩
  · simp only [decide_eq_true_eq] at ha ⊢
    exact lt_of_lt_of_le ha hab

theorem card_residues {e : String × ℚ} (he : e ∈ m.stakes) :
    ((Finset.Ico 0 (totalStake m)).filter fun target => pick target 0 (canonicalValidators m.stakes) = some e.1).card =
      (clamped e.2).toNat := by
  have hin : (e.1, clamped e.2) ∈ canonicalValidators m.stakes :=
    (Miner.sortedBy_perm _ _).mem_iff.mpr (List.mem_map_of_mem (f := fun e : String × ℚ => (e.1, max 0 (truncate e.2))) he)
  obtain ⟨first, rest, hl⟩ := List.append_of_mem hin
  have hnonneg : ∀ d ∈ first ++ (e.1, clamped e.2) :: rest, 0 ≤ d.2 := fun d hd => canonical_nonneg (m := m) (hl ▸ hd)
  have hsum : ∀ l : List (String × Int), (∀ d ∈ l, 0 ≤ d.2) → 0 ≤ (l.map Prod.snd).sum := by
    intro l hl
    apply List.sum_nonneg
    intro x hx
    obtain ⟨d, hd, rfl⟩ := List.mem_map.mp hx
    exact hl d hd
  have hbefore := hsum first fun d hd => hnonneg d (List.mem_append_left _ hd)
  have hafter := hsum rest fun d hd => hnonneg d (List.mem_append_right _ (List.mem_cons_of_mem _ hd))
  have htotal : totalStake m = (first.map Prod.snd).sum + (clamped e.2 + (rest.map Prod.snd).sum) := by
    rw [← sum_canonical, hl, List.map_append, List.sum_append, List.map_cons, List.sum_cons]
  have hset : (Finset.Ico 0 (totalStake m)).filter (fun target => pick target 0 (canonicalValidators m.stakes) = some e.1) =
      Finset.Ico (first.map Prod.snd).sum ((first.map Prod.snd).sum + clamped e.2) := by
    ext target
    rw [Finset.mem_filter, Finset.mem_Ico, Finset.mem_Ico]
    constructor
    · rintro ⟨⟨hlow, -⟩, hpick⟩
      exact (pick_interval hl hlow).mp hpick
    · intro h
      have hlow := hbefore.trans h.1
      exact ⟨⟨hlow, by omega⟩, (pick_interval hl hlow).mpr h⟩
  rw [hset, Int.card_Ico, add_sub_cancel_left]

theorem pick_found {target : Int} (htarget : target < totalStake m) (hlow : 0 ≤ target) :
    ∃ e ∈ m.stakes, pick target 0 (canonicalValidators m.stakes) = some e.1 ∧ 0 < clamped e.2 := by
  have hne : canonicalValidators m.stakes ≠ [] := by
    intro hnil
    have htotal := sum_canonical m
    rw [hnil] at htotal
    exact absurd (hlow.trans_lt htarget) (by rw [← htotal]; exact lt_irrefl 0)
  cases hs : search (fun c => target < c) Prod.snd 0 (canonicalValidators m.stakes) with
  | none =>
    have hfail := (search_none_iff (fun a b hab ha => by
      simp only [decide_eq_true_eq] at ha ⊢
      exact lt_of_lt_of_le ha hab) fun y hy => canonical_nonneg hy).mp hs
    rw [zero_add, sum_canonical] at hfail
    rcases hfail with hnil | hfail
    · exact absurd hnil hne
    · simp only [decide_eq_false_iff_not] at hfail
      exact absurd htarget hfail
  | some e =>
    have hin := search_mem hs
    obtain ⟨d, hd, rfl⟩ := List.mem_map.mp ((Miner.sortedBy_perm _ _).mem_iff.mp hin)
    have hpick : pick target 0 (canonicalValidators m.stakes) = some d.1 := by rw [pick_search, hs]; rfl
    obtain ⟨first, rest, hl⟩ := List.append_of_mem hin
    have hinterval := (pick_interval hl hlow).mp hpick
    exact ⟨d, hd, hpick, by unfold clamped; omega⟩

/-- The choice does not depend on the order of the map, and each validator has as many residues as its
clamped stake: with a stake in all, somebody with a stake is chosen before the loop ends. -/
theorem weighted_choice_exact (s : ValidatorSelection) (m : ValidatorMap) (slot : Int) :
    (∀ m' : ValidatorMap, m'.stakes.Perm m.stakes →
      s.selectProposerWeighted m'.stakes slot = s.selectProposerWeighted m.stakes slot) ∧
    (0 < totalStake m →
      (∀ e ∈ m.stakes, ((Finset.Ico 0 (totalStake m)).filter fun target =>
        pick target 0 (canonicalValidators m.stakes) = some e.1).card = (clamped e.2).toNat) ∧
      (∀ target ∈ Finset.Ico 0 (totalStake m), ∃ e ∈ m.stakes,
        pick target 0 (canonicalValidators m.stakes) = some e.1 ∧ 0 < clamped e.2) ∧
      ∃ e ∈ m.stakes, s.selectProposerWeighted m.stakes slot = some e.1 ∧
        pick ((s.hashInt ["weighted-proposer", strInt slot] : Int) % totalStake m) 0 (canonicalValidators m.stakes) =
          some e.1 ∧ 0 < clamped e.2) := by
  refine ⟨fun m' hp => ?_, fun hpos => ⟨fun e he => card_residues he, fun target ht => ?_, ?_⟩⟩
  · unfold selectProposerWeighted selectProposer
    rw [canonical_congr hp]
  · obtain ⟨hlow, hhigh⟩ := Finset.mem_Ico.mp ht
    exact pick_found hhigh hlow
  · have hlow := Int.emod_nonneg (s.hashInt ["weighted-proposer", strInt slot] : Int) (ne_of_gt hpos)
    have hhigh := Int.emod_lt_of_pos (s.hashInt ["weighted-proposer", strInt slot] : Int) hpos
    obtain ⟨e, he, hpick, hstake⟩ := pick_found hhigh hlow
    refine ⟨e, he, ?_, hpick, hstake⟩
    unfold selectProposerWeighted
    simp only [sum_canonical, if_neg (ne_of_gt hpos), hpick]

def oneStaked : ValidatorMap := ⟨[("c", -3), ("a", 0), ("b", 2)], by unfold Dict.Keyed; decide⟩

theorem weighted_choice_exact_staked :
    ((Finset.Ico 0 (totalStake oneStaked)).filter fun target =>
      pick target 0 (canonicalValidators oneStaked.stakes) = some "b").card = 2 ∧
    ∃ e ∈ oneStaked.stakes, start.selectProposerWeighted oneStaked.stakes 0 = some e.1 ∧ 0 < clamped e.2 := by
  have hpos : 0 < totalStake oneStaked := by decide
  obtain ⟨-, hall⟩ := weighted_choice_exact start oneStaked 0
  obtain ⟨hcount, -, e, he, hchosen, -, hstake⟩ := hall hpos
  exact ⟨hcount ("b", 2) (by decide), e, he, hchosen, hstake⟩

end ValidatorSelection

/-! ## Stakes as announced -/

theorem hexValue_lt {c : Char} {v : Nat} (h : hexValue c = some v) : v < 16 := by
  unfold hexValue at h
  dsimp only at h
  split at h
  · cases h
    omega
  · split at h
    · cases h
      omega
    · split at h
      · cases h
        omega
      · cases h

theorem hex_step (acc k : Nat) {v : Nat} (hv : v < 16) : (acc * 16 + v + 1) * 16 ^ k ≤ (acc + 1) * 16 ^ (k + 1) := by
  rw [pow_succ, mul_comm (16 ^ k) 16, ← mul_assoc]
  exact Nat.mul_le_mul_right _ (by omega)

theorem parseHexDigits_lt (acc : Nat) (l : List Char) {n : Nat} (h : parseHexDigits acc l = some n) :
    n < (acc + 1) * 16 ^ l.length := by
  fun_induction parseHexDigits acc l with
  | case1 acc =>
    cases h
    simp
  | case2 acc c t ih =>
    obtain ⟨v, hv, hn⟩ := Option.bind_eq_some_iff.mp h
    have hstep := hex_step acc t.length (hexValue_lt hv)
    have hmore : 16 ^ (t.length + 1) ≤ 16 ^ (t.length + 1 + 1) := Nat.pow_le_pow_right (by omega) (by omega)
    exact (ih v hn).trans_le (hstep.trans (Nat.mul_le_mul_left _ hmore))
  | case3 acc c t _ ih =>
    obtain ⟨v, hv, hn⟩ := Option.bind_eq_some_iff.mp h
    exact (ih v hn).trans_le (hex_step acc t.length (hexValue_lt hv))

/-- The number of a text of so many digits. -/
theorem hexNat_lt {l : List Char} {k : Nat} (hl : l.length ≤ k) : hexNat (String.ofList l) < 16 ^ k := by
  have hpow : 16 ^ l.length ≤ 16 ^ k := Nat.pow_le_pow_right (by omega) hl
  unfold hexNat
  rw [String.toList_ofList]
  cases h : parseHexDigits 0 l with
  | none => exact Nat.pow_pos (by omega)
  | some n =>
    have hn := parseHexDigits_lt 0 l h
    rw [zero_add, one_mul] at hn
    exact hn.trans_le hpow

namespace ConsensusEngine

def built (announcements : List (String × ℚ)) (slot epoch : Int) : ConsensusEngine :=
  { announcements.foldl (fun s a => (s.addValidator a.1 a.2).2) start with currentSlot := slot, currentEpoch := epoch }

def drawRatio (s : ConsensusEngine) : ℚ := s.deterministicPick 1

def FillsInterval (picks : Set ℚ) (length : ℚ) : Prop :=
  ∃ low high, low ≤ high ∧ high - low = length ∧ Set.Ioo low high ⊆ picks ∧ picks ⊆ Set.Icc low high

def picksOf (s : ConsensusEngine) (address : String) : Set ℚ :=
  {target | 0 ≤ target ∧ target < s.getTotalStake ∧ reach target 0 (sortedBy Prod.fst s.active) = some address}

/-- The choice goes by the stakes. -/
structure StakeWeighted (s : ConsensusEngine) : Prop where
  chosen : ∃ e ∈ s.validators, s.selectProposer = some e.1 ∧ e.2.isActive = true ∧ 0 < e.2.stake
  ordered : ∀ s' : ConsensusEngine, s'.validators.Perm s.validators → s'.currentSlot = s.currentSlot →
    s'.currentEpoch = s.currentEpoch → s'.selectProposer = s.selectProposer
  exact : ∀ e ∈ s.validators, FillsInterval (s.picksOf e.1) e.2.stake

/-- No stake is negative, and the first validator in the order of the addresses has one, or the slot's
draw is not zero. -/
structure Staked (s : ConsensusEngine) : Prop where
  nonneg : ∀ e ∈ s.validators, 0 ≤ e.2.stake
  first : s.drawRatio ≠ 0 ∨ ∃ e ∈ s.validators, (∀ d ∈ s.validators, e.1 ≤ d.1) ∧ 0 < e.2.stake

/-- What announcements make of the validators. -/
structure Registered (s : ConsensusEngine) : Prop where
  keyed : s.validators.Keyed
  allActive : ∀ e ∈ s.validators, e.2.isActive = true
  unattested : s.attestations = []
  unfinal : s.finalizedCheckpoints = []

theorem Registered.addValidator {s : ConsensusEngine} (hs : s.Registered) (address : String) (stake : ℚ) :
    (s.addValidator address stake).2.Registered := by
  unfold ConsensusEngine.addValidator
  by_cases hin : s.validators.contains address = true
  · rw [if_pos hin]
    exact hs
  · rw [if_neg hin]
    refine ⟨hs.keyed.set _ _, fun e he => ?_, hs.unattested, hs.unfinal⟩
    rcases Dict.mem_set he with he | rfl
    · exact hs.allActive e he
    · rfl

theorem registered_built (announcements : List (String × ℚ)) (slot epoch : Int) : (built announcements slot epoch).Registered := by
  have hfold : ∀ s : ConsensusEngine, s.Registered →
      (announcements.foldl (fun s a => (s.addValidator a.1 a.2).2) s).Registered := by
    induction announcements with
    | nil => exact fun s hs => hs
    | cons a rest ih => exact fun s hs => ih _ (hs.addValidator a.1 a.2)
  have hstart : start.Registered := ⟨List.nodup_nil, (fun e he => nomatch he), rfl, rfl⟩
  obtain ⟨hkeyed, hactive, hunattested, hunfinal⟩ := hfold start hstart
  exact ⟨hkeyed, hactive, hunattested, hunfinal⟩

section
variable {s : ConsensusEngine} (hs : s.Registered)

theorem reach_search (target current : ℚ) (l : List (String × PosValidator)) :
    reach target current l = (search (fun c => target ≤ c) (fun e => e.2.stake) current l).map Prod.fst := by
  induction l generalizing current with
  | nil => rfl
  | cons e l ih =>
    obtain ⟨address, v⟩ := e
    unfold reach search
    by_cases h : target ≤ current + v.stake
    · simp [h]
    · simp [h, ih]

include hs

theorem active_all : s.active = s.validators := List.filter_eq_self.mpr hs.allActive

theorem sorted_keys : ((sortedBy Prod.fst s.active).map Prod.fst).Nodup := by
  rw [active_all hs]
  exact ((Miner.sortedBy_perm _ _).map Prod.fst).nodup_iff.mpr hs.keyed

theorem mem_sorted (e : String × PosValidator) : e ∈ sortedBy Prod.fst s.active ↔ e ∈ s.validators := by
  rw [(Miner.sortedBy_perm _ _).mem_iff, active_all hs]

omit hs in
theorem sum_sorted : ((sortedBy Prod.fst s.active).map fun e => e.2.stake).sum = s.getTotalStake := by
  rw [sum_sortedBy]
  rfl

theorem selectProposer_congr {s' : ConsensusEngine} (hp : s'.validators.Perm s.validators)
    (hslot : s'.currentSlot = s.currentSlot) (hepoch : s'.currentEpoch = s.currentEpoch) :
    s'.selectProposer = s.selectProposer := by
  have hactive : s'.active.Perm s.active := hp.filter _
  have hsorted : sortedBy Prod.fst s'.active = sortedBy Prod.fst s.active := by
    refine sortedBy_congr hactive ((hactive.map Prod.fst).nodup_iff.mpr ?_)
    rw [active_all hs]
    exact hs.keyed
  have htotal : s'.getTotalStake = s.getTotalStake :=
    (hactive.map fun e : String × PosValidator => e.2.stake).sum_eq
  unfold selectProposer deterministicPick
  rw [hsorted, htotal, hslot, hepoch]

/-- One validator in its place among the others. -/
theorem reach_at (hnonneg : ∀ e ∈ s.validators, 0 ≤ e.2.stake) {first rest : List (String × PosValidator)}
    {e : String × PosValidator} (hl : sortedBy Prod.fst s.active = first ++ e :: rest) (target : ℚ) :
    reach target 0 (sortedBy Prod.fst s.active) = some e.1 ↔
      (first = [] ∨ (first.map fun d => d.2.stake).sum < target) ∧
        target ≤ (first.map fun d => d.2.stake).sum + e.2.stake := by
  have hkeys := sorted_keys hs
  rw [hl] at hkeys
  have hfound : reach target 0 (first ++ e :: rest) = some e.1 ↔
      search (fun c => target ≤ c) (fun e => e.2.stake) 0 (first ++ e :: rest) = some e := by
    rw [reach_search]
    constructor
    · intro h
      obtain ⟨d, hd, hv⟩ := Option.map_eq_some_iff.mp h
      rw [hd, List.inj_on_of_nodup_map hkeys (search_mem hd) (List.mem_append_right _ List.mem_cons_self) hv]
    · intro h
      rw [h]
      rfl
  rw [hl, hfound, search_at (fun a b hab ha => ?_) (fun y hy => hnonneg y ((mem_sorted hs y).mp (hl ▸ hy))) hkeys.of_map]
  · simp only [zero_add, decide_eq_false_iff_not, not_le, decide_eq_true_eq]
  · simp only [decide_eq_true_eq] at ha ⊢
    exact ha.trans hab

theorem fills_interval (hnonneg : ∀ e ∈ s.validators, 0 ≤ e.2.stake) {e : String × PosValidator} (he : e ∈ s.validators) :
    FillsInterval (s.picksOf e.1) e.2.stake := by
  obtain ⟨first, rest, hl⟩ := List.append_of_mem ((mem_sorted hs e).mpr he)
  have hsum : ∀ l : List (String × PosValidator), (∀ d ∈ l, d ∈ first ++ e :: rest) →
      0 ≤ (l.map fun d => d.2.stake).sum := by
    intro l hin
    apply List.sum_nonneg
    intro x hx
    obtain ⟨d, hd, rfl⟩ := List.mem_map.mp hx
    exact hnonneg d ((mem_sorted hs d).mp (hl ▸ hin d hd))
  have hbefore := hsum first fun d hd => List.mem_append_left _ hd
  have hafter := hsum rest fun d hd => List.mem_append_right _ (List.mem_cons_of_mem _ hd)
  have htotal : s.getTotalStake =
      (first.map fun d => d.2.stake).sum + (e.2.stake + (rest.map fun d => d.2.stake).sum) := by
    rw [← sum_sorted, hl, List.map_append, List.sum_append, List.map_cons, List.sum_cons]
  have hown := hnonneg e he
  refine ⟨(first.map fun d => d.2.stake).sum, (first.map fun d => d.2.stake).sum + e.2.stake, ?_, add_sub_cancel_left _ _, ?_, ?_⟩
  · exact le_add_of_nonneg_right hown
  · intro target ht
    obtain ⟨hlow, hhigh⟩ := Set.mem_Ioo.mp ht
    refine ⟨hbefore.trans (le_of_lt hlow), ?_, (reach_at hs hnonneg hl target).mpr ⟨.inr hlow, le_of_lt hhigh⟩⟩
    linarith
  · rintro target ⟨hpos, -, hreach⟩
    obtain ⟨hlow, hhigh⟩ := (reach_at hs hnonneg hl target).mp hreach
    refine Set.mem_Icc.mpr ⟨?_, hhigh⟩
    rcases hlow with rfl | hlow
    · exact hpos
    · exact le_of_lt hlow

omit hs in
theorem deterministicPick_range (hpos : 0 < s.getTotalStake) : 0 ≤ s.deterministicPick s.getTotalStake ∧
    s.deterministicPick s.getTotalStake < s.getTotalStake ∧
    (s.deterministicPick s.getTotalStake = 0 ↔ s.drawRatio = 0) := by
  have hlt := hexNat_lt (l := (hashData ("abs-proposer:" ++ strInt s.currentEpoch ++ ":" ++
    strInt s.currentSlot)).toList.take 16) (k := 16) (List.length_take_le _ _)
  unfold drawRatio deterministicPick
  dsimp only
  generalize hexNat _ = n at hlt
  have hn : (n : ℚ) < 16 ^ 16 := by exact_mod_cast hlt
  have hratio : (n : ℚ) / 16 ^ 16 < 1 := (div_lt_one (by norm_num)).mpr hn
  have hnonneg : (0 : ℚ) ≤ n / 16 ^ 16 := by positivity
  refine ⟨mul_nonneg hnonneg (le_of_lt hpos), ?_, ?_⟩
  · exact mul_lt_of_lt_one_left hpos hratio
  · rw [mul_eq_zero, mul_one]
    exact or_iff_left (ne_of_gt hpos)

omit hs in
theorem selectProposer_eq (hpos : 0 < s.getTotalStake) :
    s.selectProposer = reach (s.deterministicPick s.getTotalStake) 0 (sortedBy Prod.fst s.active) := by
  unfold selectProposer
  exact if_neg (ne_of_gt hpos)

theorem stakeWeighted_iff (hpos : 0 < s.getTotalStake) : s.StakeWeighted ↔ s.Staked := by
  obtain ⟨hlow, hhigh, hzero⟩ := deterministicPick_range hpos
  have hkeys := sorted_keys hs
  constructor
  · intro h
    have hnonneg : ∀ e ∈ s.validators, 0 ≤ e.2.stake := by
      intro e he
      obtain ⟨low, high, hle, hlength, -⟩ := h.exact e he
      rw [← hlength]
      exact sub_nonneg.mpr hle
    refine ⟨hnonneg, ?_⟩
    by_cases hdraw : s.drawRatio = 0
    -- a draw of zero picks the first, whatever its stake is
    · right
      obtain ⟨e, he, hchosen, -, hstake⟩ := h.chosen
      rw [selectProposer_eq hpos, hzero.mpr hdraw] at hchosen
      obtain ⟨first, rest, hl⟩ := List.append_of_mem ((mem_sorted hs e).mpr he)
      obtain ⟨hfirst, -⟩ := (reach_at hs hnonneg hl 0).mp hchosen
      rcases hfirst with rfl | hneg
      · have hhead := (head_sortedBy hl).2
        rw [active_all hs] at hhead
        exact ⟨e, he, hhead, hstake⟩
      · refine absurd hneg (not_lt.mpr ?_)
        apply List.sum_nonneg
        intro x hx
        obtain ⟨d, hd, rfl⟩ := List.mem_map.mp hx
        exact hnonneg d ((mem_sorted hs d).mp (hl ▸ List.mem_append_left _ hd))
    · exact .inl hdraw
  · intro h
    refine ⟨?_, fun s' hp hslot hepoch => selectProposer_congr hs hp hslot hepoch, fun e he => fills_interval hs h.nonneg he⟩
    rw [selectProposer_eq hpos]
    have hne : sortedBy Prod.fst s.active ≠ [] := by
      intro hnil
      have htotal := sum_sorted (s := s)
      rw [hnil] at htotal
      exact absurd hpos (by rw [← htotal]; exact lt_irrefl 0)
    -- the search cannot run past the end, since the draw is below the total
    cases hr : search (fun c => s.deterministicPick s.getTotalStake ≤ c) (fun e => e.2.stake) 0 (sortedBy Prod.fst s.active) with
    | none =>
      have hfail := (search_none_iff (fun a b hab ha => by
        simp only [decide_eq_true_eq] at ha ⊢
        exact ha.trans hab) fun y hy => h.nonneg y ((mem_sorted hs y).mp hy)).mp hr
      rw [zero_add, sum_sorted] at hfail
      rcases hfail with hnil | hfail
      · exact absurd hnil hne
      · simp only [decide_eq_false_iff_not] at hfail
        exact absurd (le_of_lt hhigh) hfail
    | some e =>
      have hin := search_mem hr
      have he := (mem_sorted hs e).mp hin
      obtain ⟨first, rest, hl⟩ := List.append_of_mem hin
      have hreach : reach (s.deterministicPick s.getTotalStake) 0 (sortedBy Prod.fst s.active) = some e.1 := by
        rw [reach_search, hr]
        rfl
      refine ⟨e, he, hreach, hs.allActive e he, ?_⟩
      obtain ⟨hfirst, hreached⟩ := (reach_at hs h.nonneg hl _).mp hreach
      rcases hfirst with rfl | hbefore
      · -- the first validator: a draw of zero would do without a stake
        rcases h.first with hdraw | ⟨d, hd, hleast, hstake⟩
        · have hpick : s.deterministicPick s.getTotalStake ≠ 0 := fun h => hdraw (hzero.mp h)
          rw [List.map_nil, List.sum_nil, zero_add] at hreached
          exact (lt_of_le_of_ne hlow hpick.symm).trans_le hreached
        · have hhead := (head_sortedBy hl).2
          rw [active_all hs] at hhead
          have hsame : e = d := List.inj_on_of_nodup_map hs.keyed he hd (le_antisymm (hhead d hd) (hleast e he))
          rw [hsame]
          exact hstake
      · linarith

end

/-- Of all that peers may announce. -/
theorem choice_by_stake (announcements : List (String × ℚ)) (slot epoch : Int)
    (hpos : 0 < (built announcements slot epoch).getTotalStake) :
    (built announcements slot epoch).StakeWeighted ↔ (built announcements slot epoch).Staked :=
  stakeWeighted_iff (registered_built announcements slot epoch) hpos

/-- Three validators, each with a stake of its own. -/
theorem choice_by_stake_three : (built [("b", 3), ("a", 1), ("c", 2)] 4 1).StakeWeighted := by
  have hpos : 0 < (built [("b", 3), ("a", 1), ("c", 2)] 4 1).getTotalStake := by decide +kernel
  have hvalidators : (built [("b", 3), ("a", 1), ("c", 2)] 4 1).validators =
      [("b", { stake := 3 }), ("a", { stake := 1 }), ("c", { stake := 2 })] := rfl
  refine (choice_by_stake [("b", 3), ("a", 1), ("c", 2)] 4 1 hpos).mpr ⟨?_, .inr ⟨("a", { stake := 1 }), ?_, ?_, ?_⟩⟩
  · rw [hvalidators]
    decide +kernel
  · rw [hvalidators]
    exact List.mem_cons_of_mem _ List.mem_cons_self
  · rw [hvalidators]
    decide +kernel
  · decide

/-- A peer announces a negative stake: it is nobody's interval, and another's gets shorter. -/
theorem choice_not_by_stake : ¬ ∀ (announcements : List (String × ℚ)) (slot epoch : Int),
    0 < (built announcements slot epoch).getTotalStake → (built announcements slot epoch).StakeWeighted := by
  intro hall
  have hvalidators : (built [("a", 10), ("b", -5)] 0 0).validators = [("a", { stake := 10 }), ("b", { stake := -5 })] := rfl
  have hin : ("b", { stake := -5 }) ∈ (built [("a", 10), ("b", -5)] 0 0).validators := by
    rw [hvalidators]
    exact List.mem_cons_of_mem _ (List.mem_singleton_self _)
  obtain ⟨low, high, hle, hlength, -⟩ := (hall [("a", 10), ("b", -5)] 0 0 (by decide +kernel)).exact _ hin
  have hneg : high - low = -5 := hlength
  linarith

end ConsensusEngine

end AbsoluteChain
