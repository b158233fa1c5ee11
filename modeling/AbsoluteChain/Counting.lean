import Mathlib.Data.Int.Init
import Mathlib.Data.List.Basic
import Mathlib.Data.List.Range
import Mathlib.Tactic.Common

/-!
# Numbered events

Events of several sources, each with the number of the earlier events of its own
source. The counts after a list of such events determine the numbers in it.
-/

namespace Counting

variable {σ : Type} [DecidableEq σ] {f g k : σ → ℕ} {l m : List (σ × ℤ)}

/-- One more event of `a`. -/
def advance (f : σ → ℕ) (a : σ) : σ → ℕ := fun b => if b = a then f b + 1 else f b

theorem advance_same (f : σ → ℕ) (a : σ) : advance f a a = f a + 1 := if_pos rfl

theorem advance_ne (f : σ → ℕ) {a b : σ} (h : b ≠ a) : advance f a b = f b := if_neg h

/-- From the counts `f`, the events lead to the counts `g`, and each carries the count of its source. -/
inductive Numbered : (σ → ℕ) → List (σ × ℤ) → (σ → ℕ) → Prop
  | nil (f : σ → ℕ) : Numbered f [] f
  | cons {f g : σ → ℕ} {l : List (σ × ℤ)} (a : σ) (rest : Numbered (advance f a) l g) : Numbered f ((a, (f a : ℤ)) :: l) g

namespace Numbered

theorem append (h : Numbered f l g) (h' : Numbered g m k) : Numbered f (l ++ m) k := by
  induction h with
  | nil => exact h'
  | cons a rest ih => exact .cons a (ih h')

theorem unused (h : Numbered f l g) {a : σ} (ha : ∀ e ∈ l, e.1 ≠ a) : g a = f a := by
  induction h with
  | nil => rfl
  | cons b rest ih =>
    have hb : b ≠ a := ha _ (List.mem_cons_self ..)
    rw [ih fun e he => ha e (List.mem_cons_of_mem _ he), advance_ne _ hb.symm]

/-- The numbers of one source are the counts passed through. -/
theorem numbers (h : Numbered f l g) (a : σ) :
    ∃ n, g a = f a + n ∧ (l.filter fun e => e.1 = a).map Prod.snd = (List.range' (f a) n).map Int.ofNat := by
  induction h with
  | nil => exact ⟨0, rfl, rfl⟩
  | @cons f g l b rest ih =>
    obtain ⟨n, hg, hl⟩ := ih
    by_cases hb : b = a
    · subst hb
      rw [advance_same] at hg hl
      refine ⟨n + 1, by omega, ?_⟩
      rw [List.filter_cons_of_pos (by simp), List.map_cons, hl, List.range'_succ, List.map_cons]
      rfl
    · rw [advance_ne _ (Ne.symm hb)] at hg hl
      refine ⟨n, hg, ?_⟩
      rw [List.filter_cons_of_neg (by simpa using hb), hl]

/-- Counted from the start, the numbers of a source are `0, 1, ..` up to its count. -/
theorem all_numbers (h : Numbered (fun _ => 0) l g) (a : σ) :
    (l.filter fun e => e.1 = a).map Prod.snd = (List.range (g a)).map Int.ofNat := by
  obtain ⟨n, hg, hl⟩ := h.numbers a
  rw [hl, List.range_eq_range', show g a = n by omega]

theorem le_of_mem (h : Numbered f l g) {a : σ} {i : ℤ} (hi : (a, i) ∈ l) : (f a : ℤ) ≤ i := by
  induction h with
  | nil => cases hi
  | @cons f g l b rest ih =>
    rcases List.mem_cons.mp hi with heq | hin
    · cases heq
      exact Int.le_refl _
    · have hle := ih hin
      by_cases hb : a = b
      · rw [hb, advance_same] at hle
        rw [hb]
        omega
      · rwa [advance_ne _ hb] at hle

/-- No event occurs twice. -/
theorem nodup (h : Numbered f l g) : l.Nodup := by
  induction h with
  | nil => exact List.nodup_nil
  | @cons f g l a rest ih =>
    refine List.nodup_cons.mpr ⟨fun hin => ?_, ih⟩
    have hle := rest.le_of_mem hin
    rw [advance_same] at hle
    omega

end Numbered

end Counting
