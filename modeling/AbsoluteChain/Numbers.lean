import AbsoluteChain.Binary64
import AbsoluteChain.Json

/-!
# Numbers of the interpreter

An `int` or a `float`. Floats are doubles: their sums are rounded, and `NaN` and the infinities
are among them.
-/

namespace AbsoluteChain

open Python JsonText

/-- A float. JSON texts written by Python may contain all three kinds. -/
inductive Double where
  | finite (q : ℚ)
  | infinite (negative : Bool)
  | nan
  deriving DecidableEq

namespace Double

def text (repr : ℚ → List Char) : Double → List Char
  | finite q => repr q
  | infinite false => ['I', 'n', 'f', 'i', 'n', 'i', 't', 'y']
  | infinite true => ['-', 'I', 'n', 'f', 'i', 'n', 'i', 't', 'y']
  | nan => ['N', 'a', 'N']

def round12 : Double → Double
  | finite q => finite (roundTo 12 q)
  | d => d

/-- `p + q`. -/
def add : Double → Double → Double
  | finite p, finite q => finite (Binary64.round (p + q))
  | finite _, infinite s => infinite s
  | infinite s, finite _ => infinite s
  | infinite s, infinite t => if s = t then infinite s else nan
  | nan, _ => nan
  | _, nan => nan

def neg : Double → Double
  | finite q => finite (-q)
  | infinite s => infinite (!s)
  | nan => nan

theorem finite_of_add {d e : Double} {q : ℚ} (h : d.add e = finite q) : (∃ p, d = finite p) ∧ ∃ p, e = finite p := by
  cases d with
  | finite p =>
    cases e with
    | finite r => exact ⟨⟨p, rfl⟩, r, rfl⟩
    | infinite => cases h
    | nan => cases h
  | infinite s =>
    cases e with
    | finite => cases h
    | infinite t =>
      change (if s = t then infinite s else nan) = finite q at h
      by_cases hst : s = t
      · rw [if_pos hst] at h
        cases h
      · rw [if_neg hst] at h
        cases h
    | nan => cases h
  | nan => cases h

theorem finite_of_neg {d : Double} {q : ℚ} (h : d.neg = finite q) : ∃ p, d = finite p := by
  cases d with
  | finite p => exact ⟨p, rfl⟩
  | infinite => cases h
  | nan => cases h

end Double

inductive Number where
  | int (n : Int)
  | float (d : Double)
  deriving DecidableEq

namespace Number

def real : Number → Option ℚ
  | int n => some n
  | float (.finite q) => some q
  | float _ => none

def value (x : Number) : ℚ := x.real.getD 0

def toDouble : Number → Double
  | int n => .finite (Binary64.round n)
  -- a double is its own rounding
  | float (.finite q) => .finite (Binary64.round q)
  | float d => d

def add : Number → Number → Number
  | int m, int n => int (m + n)
  | x, y => float (x.toDouble.add y.toDouble)

def sub : Number → Number → Number
  | int m, int n => int (m - n)
  | x, y => float (x.toDouble.add y.toDouble.neg)

def below : Number → Number → Bool
  | float .nan, _ => false
  | _, float .nan => false
  | float (.infinite s), float (.infinite t) => s && !t
  | float (.infinite s), _ => s
  | _, float (.infinite t) => !t
  | x, y => x.value < y.value

def json : Number → Json Double
  | int n => .int n
  | float d => .float d

/-- A number that is finite and not negative. -/
def Solvent (x : Number) : Prop := ∃ q, x.real = some q ∧ 0 ≤ q

theorem value_eq {x : Number} {q : ℚ} (h : x.real = some q) : x.value = q := by
  unfold value
  rw [h]
  rfl

theorem toDouble_finite {x : Number} {q : ℚ} (h : x.real = some q) : x.toDouble = .finite (Binary64.round q) := by
  cases x with
  | int n =>
    cases h
    rfl
  | float d =>
    cases d with
    | finite p =>
      cases h
      rfl
    | infinite => cases h
    | nan => cases h

theorem isSome_real {x : Number} {q : ℚ} (h : x.toDouble = .finite q) : x.real.isSome = true := by
  cases x with
  | int n => rfl
  | float d =>
    cases d with
    | finite p => rfl
    | infinite => cases h
    | nan => cases h

theorem finite_of_double {x y : Number} {e : Double} (h : (Number.float (x.toDouble.add e)).real.isSome = true)
    (hy : ∀ q, e = .finite q → y.real.isSome = true) : x.real.isSome = true ∧ y.real.isSome = true := by
  obtain ⟨q, hq⟩ := Option.isSome_iff_exists.mp h
  have hsum : x.toDouble.add e = .finite q := by
    generalize x.toDouble.add e = d at hq
    cases d with
    | finite p =>
      cases hq
      rfl
    | infinite => cases hq
    | nan => cases hq
  obtain ⟨⟨p, hp⟩, r, hr⟩ := Double.finite_of_add hsum
  exact ⟨isSome_real hp, hy r hr⟩

theorem finite_of_add {x y : Number} (h : (x.add y).real.isSome = true) : x.real.isSome = true ∧ y.real.isSome = true := by
  have hdouble := fun h => @finite_of_double x y y.toDouble h fun q hq => isSome_real hq
  cases x with
  | float => exact hdouble h
  | int m =>
    cases y with
    | float => exact hdouble h
    | int n => exact ⟨rfl, rfl⟩

theorem finite_of_sub {x y : Number} (h : (x.sub y).real.isSome = true) : x.real.isSome = true ∧ y.real.isSome = true := by
  have hdouble := fun h => @finite_of_double x y y.toDouble.neg h fun q hq => (Double.finite_of_neg hq).elim fun p hp => isSome_real hp
  cases x with
  | float => exact hdouble h
  | int m =>
    cases y with
    | float => exact hdouble h
    | int n => exact ⟨rfl, rfl⟩

variable {x y : Number} {p q : ℚ}

theorem real_add (hx : x.real = some p) (hy : y.real = some q) :
    (x.add y).real = some (p + q) ∨
      (x.add y).real = some (Binary64.round (Binary64.round p + Binary64.round q)) := by
  have hfloat : (Number.float (x.toDouble.add y.toDouble)).real =
      some (Binary64.round (Binary64.round p + Binary64.round q)) := by
    rw [toDouble_finite hx, toDouble_finite hy]
    rfl
  cases x with
  | float => exact .inr hfloat
  | int m =>
    cases y with
    | float => exact .inr hfloat
    | int n =>
      cases hx
      cases hy
      exact .inl (congrArg some (Int.cast_add m n))

theorem real_sub (hx : x.real = some p) (hy : y.real = some q) :
    (x.sub y).real = some (p - q) ∨
      (x.sub y).real = some (Binary64.round (Binary64.round p - Binary64.round q)) := by
  have hfloat : (Number.float (x.toDouble.add y.toDouble.neg)).real =
      some (Binary64.round (Binary64.round p - Binary64.round q)) := by
    rw [toDouble_finite hx, toDouble_finite hy, sub_eq_add_neg]
    rfl
  cases x with
  | float => exact .inr hfloat
  | int m =>
    cases y with
    | float => exact .inr hfloat
    | int n =>
      cases hx
      cases hy
      exact .inl (congrArg some (Int.cast_sub m n))

theorem add_int {x y : Number} {m n : Int} (hx : x = .int m) (hy : y = .int n) : x.add y = .int (m + n) := by
  subst hx hy
  rfl

theorem sub_int {x y : Number} {m n : Int} (hx : x = .int m) (hy : y = .int n) : x.sub y = .int (m - n) := by
  subst hx hy
  rfl

/-- On a grid whose units fit into 53 bits sums are exact. -/
theorem real_add_gridded {e : ℤ} (he : -1074 ≤ e) (hx : x.real = some p) (hy : y.real = some q)
    (hp : Binary64.Multiple e p) (hq : Binary64.Multiple e q) (hsmall : |p| < 2 ^ (e + 53)) (hsmall' : |q| < 2 ^ (e + 53))
    (hsum : |p + q| < 2 ^ (e + 53)) : (x.add y).real = some (p + q) := by
  rcases real_add hx hy with h | h
  · exact h
  · rw [h, Binary64.round_multiple hp he hsmall, Binary64.round_multiple hq he hsmall',
      Binary64.round_multiple (hp.add hq) he hsum]

theorem real_sub_gridded {e : ℤ} (he : -1074 ≤ e) (hx : x.real = some p) (hy : y.real = some q)
    (hp : Binary64.Multiple e p) (hq : Binary64.Multiple e q) (hsmall : |p| < 2 ^ (e + 53)) (hsmall' : |q| < 2 ^ (e + 53))
    (hsum : |p - q| < 2 ^ (e + 53)) : (x.sub y).real = some (p - q) := by
  rcases real_sub hx hy with h | h
  · exact h
  · have hdiff : Binary64.Multiple e (p - q) := by
      rw [sub_eq_add_neg]
      exact hp.add hq.neg
    rw [h, Binary64.round_multiple hp he hsmall, Binary64.round_multiple hq he hsmall',
      Binary64.round_multiple hdiff he hsum]

theorem below_finite (hx : x.real = some p) (hy : y.real = some q) : x.below y = decide (p < q) := by
  rcases x with m | (r | s | _) <;> rcases y with n | (t | u | _) <;> cases hx <;> cases hy <;> rfl

theorem Solvent.add (h : x.Solvent) (hy : y.real = some q) (hq : 0 ≤ q) : (x.add y).Solvent := by
  obtain ⟨p, hx, hp⟩ := h
  rcases real_add hx hy with hsum | hsum
  · exact ⟨_, hsum, add_nonneg hp hq⟩
  · exact ⟨_, hsum, Binary64.round_nonneg (add_nonneg (Binary64.round_nonneg hp) (Binary64.round_nonneg hq))⟩

/-- Rounding keeps the order, so a balance that is not below a sum can pay it. -/
theorem Solvent.sub (h : x.Solvent) (hy : y.real = some q) (hfits : x.below y = false) : (x.sub y).Solvent := by
  obtain ⟨p, hx, -⟩ := h
  rw [below_finite hx hy] at hfits
  have hle : q ≤ p := not_lt.mp (of_decide_eq_false hfits)
  rcases real_sub hx hy with hsum | hsum
  · exact ⟨_, hsum, sub_nonneg.mpr hle⟩
  · exact ⟨_, hsum, Binary64.round_nonneg (sub_nonneg.mpr (Binary64.round_mono hle))⟩

end Number

end AbsoluteChain
