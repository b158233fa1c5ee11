import Mathlib.Algebra.Order.Group.Defs
import Mathlib.Algebra.BigOperators.Group.List.Basic
import Mathlib.Algebra.Order.BigOperators.Group.List

/-!
# Search along running sums

Each element of a list stands for an interval as long as its weight, one beside the
other. A search adds up the weights and stops at the first sum that passes a test.
-/

namespace PrefixSums

variable {α M : Type*} [AddCommGroup M] [LinearOrder M] [IsOrderedAddMonoid M]

def search (passes : M → Bool) (weight : α → M) : M → List α → Option α
  | _, [] => none
  | sum, x :: rest => if passes (sum + weight x) then some x else search passes weight (sum + weight x) rest

variable {passes : M → Bool} {weight : α → M} {sum : M} {x : α} {l first rest : List α}

omit [LinearOrder M] [IsOrderedAddMonoid M] in
theorem search_mem (h : search passes weight sum l = some x) : x ∈ l := by
  induction l generalizing sum with
  | nil => cases h
  | cons y l ih =>
    unfold search at h
    by_cases hy : passes (sum + weight y) = true
    · rw [if_pos hy] at h
      cases h
      exact List.mem_cons_self
    · rw [if_neg hy] at h
      exact List.mem_cons_of_mem _ (ih h)

omit [LinearOrder M] [IsOrderedAddMonoid M] in
theorem search_append : search passes weight sum (first ++ rest) =
    (search passes weight sum first).or (search passes weight (sum + (first.map weight).sum) rest) := by
  induction first generalizing sum with
  | nil => simp [search]
  | cons y first ih =>
    rw [List.cons_append, search, search]
    by_cases hy : passes (sum + weight y) = true
    · rw [if_pos hy, if_pos hy]
      rfl
    · rw [if_neg hy, if_neg hy, ih, List.map_cons, List.sum_cons, add_assoc]

section
variable (hup : ∀ a b, a ≤ b → passes a = true → passes b = true) (hl : ∀ y ∈ l, 0 ≤ weight y)
include hup hl

theorem search_none_iff : search passes weight sum l = none ↔ l = [] ∨ passes (sum + (l.map weight).sum) = false := by
  induction l generalizing sum with
  | nil => simp [search]
  | cons y l ih =>
    have hrest : ∀ z ∈ l, 0 ≤ weight z := fun z hz => hl z (List.mem_cons_of_mem _ hz)
    have hsum : 0 ≤ (l.map weight).sum := by
      apply List.sum_nonneg
      intro w hw
      obtain ⟨z, hz, rfl⟩ := List.mem_map.mp hw
      exact hrest z hz
    rw [search, List.map_cons, List.sum_cons, ← add_assoc]
    by_cases hy : passes (sum + weight y) = true
    · have hend := hup _ (sum + weight y + (l.map weight).sum) (le_add_of_nonneg_right hsum) hy
      simp [hy, hend]
    · rw [if_neg hy, ih hrest]
      simp only [reduceCtorEq, false_or]
      constructor
      · rintro (rfl | h)
        · simpa using hy
        · exact h
      · exact Or.inr

end

theorem search_at (hup : ∀ a b, a ≤ b → passes a = true → passes b = true) (hl : ∀ y ∈ first ++ x :: rest, 0 ≤ weight y)
    (hnodup : (first ++ x :: rest).Nodup) :
    search passes weight sum (first ++ x :: rest) = some x ↔
      (first = [] ∨ passes (sum + (first.map weight).sum) = false) ∧
        passes (sum + (first.map weight).sum + weight x) = true := by
  obtain ⟨hfirst, hrest, hdisjoint⟩ := List.nodup_append.mp hnodup
  have hnone : search passes weight sum first = none ↔ first = [] ∨ passes (sum + (first.map weight).sum) = false :=
    search_none_iff hup fun y hy => hl y (List.mem_append_left _ hy)
  rw [search_append, search]
  cases hs : search passes weight sum first with
  | some y =>
    have hy := search_mem hs
    have hne : y ≠ x := fun h => hdisjoint y hy x List.mem_cons_self h
    have hnot : ¬ (first = [] ∨ passes (sum + (first.map weight).sum) = false) := fun h => by
      rw [hnone.mpr h] at hs
      cases hs
    simp [hne, hnot]
  | none =>
    have hbefore := hnone.mp hs
    rw [Option.none_or]
    by_cases hx : passes (sum + (first.map weight).sum + weight x) = true
    · simp [hx, hbefore]
    · rw [if_neg hx]
      constructor
      · intro h
        exact absurd (search_mem h) (List.nodup_cons.mp hrest).1
      · exact fun h => absurd h.2 hx

end PrefixSums
