import Mathlib.Data.List.Basic

/-!
# Results at their positions

A list is processed in two passes: the items with something to process are collected with
their positions, and each result is written at its position into a list of defaults.
-/

namespace Positions

variable {α β : Type}

/-- The items there are, each with its position, counted from `i`. -/
def collect : Nat → List (Option α) → List (Nat × α)
  | _, [] => []
  | i, none :: rest => collect (i + 1) rest
  | i, some a :: rest => (i, a) :: collect (i + 1) rest

def scatter (results : List (Nat × β)) (into : List β) : List β :=
  results.foldl (fun into r => into.set r.1 r.2) into

theorem scatter_cons (r : Nat × β) (results : List (Nat × β)) (into : List β) :
    scatter (r :: results) into = scatter results (into.set r.1 r.2) := rfl

theorem scatter_collect_from (f : α → β) (default : β) (items : List (Option α)) (done : List β) :
    scatter ((collect done.length items).map fun e => (e.1, f e.2)) (done ++ List.replicate items.length default) =
      done ++ items.map fun item => item.elim default f := by
  induction items generalizing done with
  | nil => rfl
  | cons item rest ih =>
    cases item with
    | none =>
      have h := ih (done ++ [default])
      rw [List.length_append, List.length_singleton, List.append_assoc, List.append_assoc] at h
      exact h
    | some a =>
      have hset : (done ++ default :: List.replicate rest.length default).set done.length (f a) =
          done ++ f a :: List.replicate rest.length default := by
        rw [List.set_append_right _ _ (Nat.le_refl _), Nat.sub_self, List.set_cons_zero]
      have h := ih (done ++ [f a])
      rw [List.length_append, List.length_singleton, List.append_assoc, List.append_assoc] at h
      unfold collect
      rw [List.map_cons, scatter_cons, List.length_cons, List.replicate_succ, hset]
      exact h

/-- Two passes do what one pass does. -/
theorem scatter_collect (f : α → β) (default : β) (items : List (Option α)) :
    scatter ((collect 0 items).map fun e => (e.1, f e.2)) (List.replicate items.length default) =
      items.map fun item => item.elim default f :=
  scatter_collect_from f default items []

end Positions
