import AbsoluteChain.Runs
import Mathlib.Logic.Function.Basic

/-!
# Accesses to a shared memory

Reads and writes in the order they are made, and what it means that they are those of
one memory: each read returns what the last write to its key left.
-/

namespace SharedMemory

open Runs

inductive Access (κ ν : Type) where
  | load (key : κ) (value : ν)
  | store (key : κ) (value : ν)
  deriving DecidableEq

section
variable {κ ν : Type} [DecidableEq κ]

def Access.apply (σ : κ → ν) : Access κ ν → κ → ν
  | .load _ _ => σ
  | .store key value => Function.update σ key value

/-- The memory after some accesses: at each key the last value stored there. -/
def after (σ : κ → ν) (l : List (Access κ ν)) : κ → ν := l.foldl Access.apply σ

def Access.Reads (σ : κ → ν) : Access κ ν → Prop
  | .load key value => value = σ key
  | .store _ _ => True

def Consistent : (κ → ν) → List (Access κ ν) → Prop
  | _, [] => True
  | σ, a :: rest => a.Reads σ ∧ Consistent (a.apply σ) rest

variable {σ : κ → ν} {l k : List (Access κ ν)}

theorem after_append : after σ (l ++ k) = after (after σ l) k := List.foldl_append

theorem consistent_append (h : Consistent σ l) (hk : Consistent (after σ l) k) : Consistent σ (l ++ k) := by
  induction l generalizing σ with
  | nil => exact hk
  | cons a l ih => exact ⟨h.1, ih h.2 hk⟩

/-- Accesses that are those of one memory, which ends as `τ`. -/
def Replays (σ : κ → ν) (l : List (Access κ ν)) (τ : κ → ν) : Prop := Consistent σ l ∧ τ = after σ l

theorem Replays.nil : Replays σ [] σ := ⟨trivial, rfl⟩

theorem Replays.append {τ ρ : κ → ν} (h : Replays σ l τ) (hk : Replays τ k ρ) : Replays σ (l ++ k) ρ := by
  obtain ⟨hl, rfl⟩ := h
  obtain ⟨hk, rfl⟩ := hk
  exact ⟨consistent_append hl hk, after_append.symm⟩

theorem path_replays {S α : Type} {pre post : α → S} (view : S → κ → ν) {g : α → List (Access κ ν)} {s t : S} {p : List α}
    (h : Path pre post s p t) (hp : ∀ a ∈ p, Replays (view (pre a)) (g a) (view (post a))) :
    Replays (view s) (p.flatMap g) (view t) := by
  induction p generalizing s with
  | nil =>
    cases h
    exact .nil
  | cons a p ih =>
    obtain ⟨rfl, hrest⟩ := h
    rw [List.flatMap_cons]
    exact (hp a List.mem_cons_self).append (ih hrest fun b hb => hp b (List.mem_cons_of_mem _ hb))

end

end SharedMemory
