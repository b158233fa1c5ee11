import Mathlib.Logic.Function.Iterate

/-!
# Step machines

A deterministic machine whose step gives either the next state or a result. A
machine with a measure that every step lowers comes to a result, and two
machines whose steps keep a relation are related for ever.
-/

namespace StepMachine

inductive Status (μ ρ : Type) where
  | running (m : μ)
  | ended (r : ρ)
  deriving DecidableEq

variable {μ ρ : Type} (step : μ → Status μ ρ)

/-- A result stays. -/
def advance : Status μ ρ → Status μ ρ
  | .running m => step m
  | .ended r => .ended r

def after (n : Nat) (s : Status μ ρ) : Status μ ρ := (advance step)^[n] s

@[simp] theorem after_zero (s : Status μ ρ) : after step 0 s = s := rfl

theorem after_succ (n : Nat) (s : Status μ ρ) : after step (n + 1) s = advance step (after step n s) :=
  Function.iterate_succ_apply' _ _ _

theorem after_step (n : Nat) (m : μ) : after step (n + 1) (.running m) = after step n (step m) :=
  Function.iterate_succ_apply _ _ _

theorem after_add (n k : Nat) (s : Status μ ρ) : after step (n + k) s = after step k (after step n s) := by
  rw [Nat.add_comm]
  exact Function.iterate_add_apply _ _ _ _

@[simp] theorem after_ended (n : Nat) (r : ρ) : after step n (.ended r) = .ended r := by
  induction n with
  | zero => rfl
  | succ n ih => rw [after_succ, ih]; rfl

variable {step}

theorem after_running_succ {n : Nat} {s : Status μ ρ} {m : μ} (h : after step n s = .running m) :
    after step (n + 1) s = step m := by
  rw [after_succ, h]
  rfl

theorem after_ended_add {n : Nat} {s : Status μ ρ} {r : ρ} (h : after step n s = .ended r) (k : Nat) :
    after step (n + k) s = .ended r := by
  rw [after_add, h, after_ended]

theorem ended_unique {n k : Nat} {s : Status μ ρ} {r r' : ρ} (h : after step n s = .ended r)
    (h' : after step k s = .ended r') : r = r' := by
  have hr := after_ended_add h k
  have hr' := after_ended_add h' n
  rw [Nat.add_comm, hr] at hr'
  exact Status.ended.inj hr'

/-! ## Rules -/

/-- The invariant rule. -/
theorem after_inv {I : Status μ ρ → Prop} {s : Status μ ρ} (hs : I s) (hstep : ∀ m, I (.running m) → I (step m))
    (n : Nat) : I (after step n s) := by
  induction n with
  | zero => exact hs
  | succ n ih =>
    rw [after_succ]
    cases h : after step n s with
    | running m =>
      rw [h] at ih
      exact hstep m ih
    | ended r =>
      rw [h] at ih
      exact ih

/-- The simulation rule, in lock step. -/
theorem after_related {μ' ρ' : Type} {step' : μ' → Status μ' ρ'} {R : Status μ ρ → Status μ' ρ' → Prop}
    (hstep : ∀ s t, R s t → R (advance step s) (advance step' t)) {s : Status μ ρ} {t : Status μ' ρ'} (h : R s t)
    (n : Nat) : R (after step n s) (after step' n t) := by
  induction n with
  | zero => exact h
  | succ n ih =>
    rw [after_succ, after_succ]
    exact hstep _ _ ih

/-! ## Machines that come to a result -/

def finish (step : μ → Status μ ρ) (f : μ → Nat) (hf : ∀ m m', step m = .running m' → f m' < f m) (m : μ) : ρ :=
  match _h : step m with
  | .running m' => finish step f hf m'
  | .ended r => r
termination_by f m
decreasing_by exact hf m m' _h

section
variable (step) (f : μ → Nat) (hf : ∀ m m', step m = .running m' → f m' < f m)

theorem after_finish (m : μ) : ∃ n, after step n (.running m) = .ended (finish step f hf m) := by
  induction hm : f m using Nat.strongRecOn generalizing m with
  | _ k ih =>
    rw [finish]
    split
    · rename_i m' h
      obtain ⟨n, hn⟩ := ih (f m') (hm ▸ hf m m' h) m' rfl
      exact ⟨n + 1, by rw [after_step, h, hn]⟩
    · rename_i r h
      exact ⟨1, h⟩

theorem finish_eq_iff (m : μ) (r : ρ) : finish step f hf m = r ↔ ∃ n, after step n (.running m) = .ended r := by
  obtain ⟨k, hk⟩ := after_finish step f hf m
  constructor
  · intro h
    exact ⟨k, h ▸ hk⟩
  · intro ⟨n, hn⟩
    exact ended_unique hk hn

end

end StepMachine
