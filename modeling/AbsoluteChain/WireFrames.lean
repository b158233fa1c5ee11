import Mathlib.Data.List.Infix

/-!
# Frames in a stream

Frames are written as one stream, each with a separator behind it that none of them contains. However much of the
stream has arrived, its first separator ends the first frame.
-/

namespace Frames

variable {α : Type} [DecidableEq α] (sep : α)

/-- What stands before the first separator, and what stands behind it. -/
def cut : List α → Option (List α × List α)
  | [] => none
  | x :: t => if x = sep then some ([], t) else (cut t).map fun p => (x :: p.1, p.2)

def stream (frames : List (List α)) : List α := frames.flatMap fun f => f ++ [sep]

variable {sep} {f b rest : List α} {frames : List (List α)}

theorem cut_none (h : sep ∉ b) : cut sep b = none := by
  induction b with
  | nil => rfl
  | cons x t ih =>
    simp only [List.mem_cons, not_or] at h
    rw [cut, if_neg fun he => h.1 he.symm, ih h.2]
    rfl

theorem cut_append (h : sep ∉ f) (r : List α) : cut sep (f ++ sep :: r) = some (f, r) := by
  induction f with
  | nil => simp [cut]
  | cons x t ih =>
    simp only [List.mem_cons, not_or] at h
    rw [List.cons_append, cut, if_neg fun he => h.1 he.symm, ih h.2]
    rfl

omit [DecidableEq α] in
theorem stream_cons : stream sep (f :: frames) = f ++ sep :: stream sep frames := by
  simp [stream]

omit [DecidableEq α] in
theorem stream_append (more : List (List α)) : stream sep (frames ++ more) = stream sep frames ++ stream sep more :=
  List.flatMap_append

/-- A buffer with the beginning of a stream holds a beginning of its first frame, or all of it. -/
theorem cut_stream (hf : sep ∉ f) (h : b ++ rest = stream sep (f :: frames)) :
    (b <+: f ∧ cut sep b = none) ∨ ∃ b', cut sep b = some (f, b') ∧ b' ++ rest = stream sep frames := by
  rw [stream_cons] at h
  rcases List.append_eq_append_iff.mp h with hcase | hcase
  · obtain ⟨a, ha, -⟩ := hcase
    exact .inl ⟨⟨a, ha.symm⟩, cut_none fun hs => hf (ha ▸ List.mem_append_left a hs)⟩
  · obtain ⟨c, hb, hc⟩ := hcase
    cases c with
    | nil =>
      rw [List.append_nil] at hb
      subst hb
      exact .inl ⟨List.prefix_rfl, cut_none hf⟩
    | cons x c =>
      obtain ⟨rfl, hrest⟩ := List.cons.inj hc
      exact .inr ⟨c, by rw [hb, cut_append hf], hrest.symm⟩

end Frames
