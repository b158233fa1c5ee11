import Mathlib.Data.List.Sort
import Mathlib.Order.Basic

/-!
# The newest rows

A query that orders its rows by time, newest first, and keeps the first few of them.
The order of rows of one time is not determined.
-/

namespace Newest

variable {α : Type} (time : α → Int)

def Scan (rows scan : List α) : Prop := scan.Perm rows ∧ scan.Pairwise fun x y => time y ≤ time x

def ahead (t : Int) (rows : List α) : Nat := rows.countP fun x => t ≤ time x

variable {time} {rows scan : List α} {a : α} {n : Nat}

theorem mem_take_of_ahead (h : Scan time rows scan) (ha : a ∈ rows) (hn : ahead time (time a) rows ≤ n) : a ∈ scan.take n := by
  by_contra hout
  have hin : a ∈ scan.take n ++ scan.drop n := by
    rw [List.take_append_drop]
    exact h.1.mem_iff.mpr ha
  have hdrop := (List.mem_append.mp hin).resolve_left hout
  have hsorted := h.2
  rw [← List.take_append_drop n scan, List.pairwise_append] at hsorted
  have hall : (scan.take n).countP (fun x => time a ≤ time x) = (scan.take n).length := by
    rw [List.countP_eq_length]
    intro x hx
    exact decide_eq_true (hsorted.2.2 x hx a hdrop)
  have hpos : 0 < (scan.drop n).countP fun x => time a ≤ time x := by
    rw [List.countP_pos_iff]
    exact ⟨a, hdrop, decide_eq_true (le_refl _)⟩
  have hlength : (scan.take n).length = n := by
    have := List.length_pos_of_mem hdrop
    rw [List.length_drop] at this
    rw [List.length_take]
    omega
  have htotal : ahead time (time a) rows =
      (scan.take n).countP (fun x => time a ≤ time x) + (scan.drop n).countP fun x => time a ≤ time x := by
    rw [ahead, ← h.1.countP_eq, ← List.countP_append, List.take_append_drop]
  omega

theorem exists_scan_last (rows : List α) (a : α) : ∃ scan, Scan time rows scan ∧
    scan.Pairwise fun x y => x = a → time y = time a → y = a := by
  classical
  let le : α → α → Bool := fun x y => time y < time x ∨ time y = time x ∧ (x = a → y = a)
  have htrans : ∀ x y z, le x y = true → le y z = true → le x z = true := by
    intro x y z hxy hyz
    simp only [le, decide_eq_true_eq] at hxy hyz ⊢
    rcases hxy with hxy | ⟨hxy, hx⟩
    · left
      rcases hyz with hyz | ⟨hyz, -⟩ <;> omega
    · rcases hyz with hyz | ⟨hyz, hy⟩
      · left
        omega
      · exact .inr ⟨by omega, fun h => hy (hx h)⟩
  have htotal : ∀ x y, (le x y || le y x) = true := by
    intro x y
    simp only [le, Bool.or_eq_true, decide_eq_true_eq]
    rcases lt_trichotomy (time x) (time y) with h | h | h
    · exact .inr (.inl h)
    · by_cases hx : x = a
      · exact .inr (.inr ⟨h, fun _ => hx⟩)
      · exact .inl (.inr ⟨h.symm, fun h => absurd h hx⟩)
    · exact .inl (.inl h)
  have hsorted := List.pairwise_mergeSort htrans htotal rows
  refine ⟨rows.mergeSort le, ⟨List.mergeSort_perm rows le, ?_⟩, ?_⟩
  · refine hsorted.imp ?_
    intro x y hxy
    simp only [le, decide_eq_true_eq] at hxy
    rcases hxy with h | h <;> omega
  · refine hsorted.imp ?_
    intro x y hxy hx htime
    simp only [le, decide_eq_true_eq] at hxy
    rcases hxy with h | h
    · subst hx
      omega
    · exact h.2 hx

theorem mem_take_iff (hrows : rows.Nodup) (ha : a ∈ rows) :
    (∀ scan, Scan time rows scan → a ∈ scan.take n) ↔ ahead time (time a) rows ≤ n := by
  constructor
  · intro hall
    obtain ⟨scan, hscan, hlast⟩ : ∃ scan, Scan time rows scan ∧ _ := exists_scan_last rows a
    have hin := hall scan hscan
    have hnodup : (scan.take n ++ scan.drop n).Nodup := by
      rw [List.take_append_drop]
      exact hscan.1.nodup_iff.mpr hrows
    have hsorted := hscan.2
    rw [← List.take_append_drop n scan, List.pairwise_append] at hsorted hlast
    have hnone : (scan.drop n).countP (fun x => time a ≤ time x) = 0 := by
      rw [List.countP_eq_zero]
      intro y hy hle
      have hle := of_decide_eq_true hle
      have htime : time y = time a := le_antisymm (hsorted.2.2 a hin y hy) hle
      have hya := hlast.2.2 a hin y hy rfl htime
      rw [hya] at hy
      exact (List.nodup_append.mp hnodup).2.2 a hin a hy rfl
    rw [ahead, ← hscan.1.countP_eq, ← List.take_append_drop n scan, List.countP_append, hnone, Nat.add_zero]
    exact le_trans List.countP_le_length (List.length_take_le n scan)
  · exact fun hn scan hscan => mem_take_of_ahead hscan ha hn

end Newest
