import Mathlib.Data.Nat.Log
import Mathlib.Data.List.Prime
import Mathlib.FieldTheory.Finite.Basic
import Mathlib.NumberTheory.LucasPrimality

/-!
# Powers modulo a number

Square-and-multiply, powers with integer exponents, and Lucas's test in a form the kernel
evaluates.
-/

namespace ModularPower

/-! ## Square-and-multiply -/

def powBits (m : Nat) : Nat → Nat → Nat → Nat
  | 0, _, _ => 1 % m
  | bits + 1, b, e =>
    if e % 2 = 1 then powBits m bits (b * b % m) (e / 2) * b % m else powBits m bits (b * b % m) (e / 2)

def powMod (m b e : Nat) : Nat := powBits m (e.log2 + 1) b e

theorem powBits_eq (m : Nat) : ∀ {bits b e : Nat}, e < 2 ^ bits → powBits m bits b e = b ^ e % m := by
  intro bits
  induction bits with
  | zero =>
    intro b e he
    have he0 : e = 0 := by simpa using he
    simp [powBits, he0]
  | succ bits ih =>
    intro b e he
    have hhalf : e / 2 < 2 ^ bits := by
      rw [pow_succ] at he
      omega
    have hsquare : powBits m bits (b * b % m) (e / 2) = b ^ (2 * (e / 2)) % m := by
      rw [ih hhalf, ← Nat.pow_mod, ← sq, ← pow_mul]
    have hsplit := Nat.div_add_mod e 2
    simp only [powBits, hsquare]
    by_cases hodd : e % 2 = 1
    · rw [if_pos hodd, Nat.mod_mul_mod, ← pow_succ, show 2 * (e / 2) + 1 = e by omega]
    · rw [if_neg hodd, show 2 * (e / 2) = e by omega]

theorem powMod_eq (m b e : Nat) : powMod m b e = b ^ e % m := powBits_eq m Nat.lt_log2_self

theorem powMod_lt {m : Nat} (hm : 0 < m) (b e : Nat) : powMod m b e < m := by
  rw [powMod_eq]
  exact Nat.mod_lt _ hm

theorem cast_powMod (m b e : Nat) : ((powMod m b e : Nat) : ZMod m) = (b : ZMod m) ^ e := by
  rw [powMod_eq, ZMod.natCast_mod, Nat.cast_pow]

/-! ## Integer exponents -/

def inverse (m b : Nat) : Option Nat := if b.gcd m = 1 then some (b.gcdA m % m).toNat else none

def powInt (m : Nat) (b e : Int) : Option Nat :=
  if 0 ≤ e then some (powMod m (b % m).toNat e.toNat)
  else (inverse m (b % m).toNat).map fun i => powMod m i (-e).toNat

theorem cast_residue {m : Nat} (hm : 0 < m) (b : Int) : (((b % m).toNat : Nat) : ZMod m) = (b : ZMod m) := by
  have hnonneg : 0 ≤ b % m := Int.emod_nonneg b (by omega)
  rw [← Int.cast_natCast (b % m).toNat, Int.toNat_of_nonneg hnonneg, ZMod.intCast_mod]

theorem inverse_mul {m b i : Nat} (hm : 0 < m) (h : inverse m b = some i) : (b : ZMod m) * i = 1 := by
  unfold inverse at h
  split at h
  · rename_i hg
    have hi := Option.some.inj h
    have hbezout := congrArg (fun z : Int => (z : ZMod m)) (Nat.gcd_eq_gcd_ab b m)
    rw [hg] at hbezout
    simp only [Nat.cast_one, Int.cast_one, Int.cast_add, Int.cast_mul, Int.cast_natCast, ZMod.natCast_self, zero_mul,
      add_zero] at hbezout
    rw [← hi, cast_residue hm]
    exact hbezout.symm
  · cases h

section Field
variable {p : Nat} [hp : Fact p.Prime]

theorem inverse_eq {b : Nat} (hb : (b : ZMod p) ≠ 0) : ∃ i, inverse p b = some i ∧ (i : ZMod p) = (b : ZMod p)⁻¹ := by
  have hcoprime : b.gcd p = 1 := by
    have hdvd : ¬ p ∣ b := fun h => hb ((ZMod.natCast_eq_zero_iff b p).mpr h)
    exact Nat.coprime_comm.mp ((Nat.Prime.coprime_iff_not_dvd hp.out).mpr hdvd)
  have hinv : inverse p b = some (b.gcdA p % p).toNat := by simp [inverse, hcoprime]
  exact ⟨_, hinv, (eq_inv_of_mul_eq_one_right (inverse_mul hp.out.pos hinv))⟩

/-- Modulo a prime, the power of a number that is not a multiple of it is the power of the field. -/
theorem powInt_eq {b : Int} (hb : (b : ZMod p) ≠ 0) (e : Int) :
    ∃ v, powInt p b e = some v ∧ v < p ∧ (v : ZMod p) = (b : ZMod p) ^ e := by
  have hpos := hp.out.pos
  have hres := cast_residue hpos b
  unfold powInt
  by_cases he : 0 ≤ e
  · refine ⟨_, if_pos he, powMod_lt hpos _ _, ?_⟩
    rw [cast_powMod, hres, ← zpow_natCast, Int.toNat_of_nonneg he]
  · obtain ⟨i, hi, hcast⟩ := inverse_eq (p := p) (b := (b % p).toNat) (by rwa [hres])
    refine ⟨_, by rw [if_neg he, hi]; rfl, powMod_lt hpos _ _, ?_⟩
    rw [cast_powMod, hcast, hres, ← zpow_natCast, Int.toNat_of_nonneg (by omega), inv_zpow', neg_neg]

/-- Exponents count modulo `p - 1`. -/
theorem zpow_mod {x : ZMod p} (hx : x ≠ 0) (e : Int) : x ^ (e % (p - 1 : Int)) = x ^ e := by
  have hone : x ^ ((p : Int) - 1) = 1 := by
    rw [← Nat.cast_one, ← Nat.cast_sub hp.out.one_le, zpow_natCast]
    exact ZMod.pow_card_sub_one_eq_one hx
  have hsplit := Int.emod_add_mul_ediv e (p - 1 : Int)
  calc x ^ (e % (p - 1 : Int)) = x ^ (e % (p - 1 : Int)) * (x ^ ((p : Int) - 1)) ^ (e / (p - 1 : Int)) := by
        rw [hone, one_zpow, mul_one]
    _ = x ^ (e % (p - 1 : Int) + (p - 1 : Int) * (e / (p - 1 : Int))) := by rw [zpow_add₀ hx, zpow_mul]
    _ = x ^ e := by rw [hsplit]

end Field

/-! ## Lucas's test -/

def lucasTest (p base : Nat) (factors : List Nat) : Bool :=
  decide (1 < p) && decide (factors.prod = p - 1) && decide (powMod p base (p - 1) = 1) &&
    factors.all fun q => decide (powMod p base ((p - 1) / q) ≠ 1)

theorem cast_pow_eq_one {p : Nat} (hp : 1 < p) (b e : Nat) : (b : ZMod p) ^ e = 1 ↔ powMod p b e = 1 := by
  rw [← cast_powMod, ← Nat.cast_one, ZMod.natCast_eq_natCast_iff', Nat.mod_eq_of_lt (powMod_lt (by omega) b e),
    Nat.mod_eq_of_lt hp]

theorem prime_of_lucasTest (p base : Nat) (factors : List Nat) (hprime : ∀ q ∈ factors, q.Prime)
    (h : lucasTest p base factors = true) : p.Prime := by
  simp only [lucasTest, Bool.and_eq_true, decide_eq_true_eq, List.all_eq_true] at h
  obtain ⟨⟨⟨hp, hprod⟩, hone⟩, hne⟩ := h
  apply lucas_primality p (base : ZMod p)
  · exact (cast_pow_eq_one hp base _).mpr hone
  · intro q hq hdvd
    have hmem : q ∈ factors := by
      rw [← hprod] at hdvd
      obtain ⟨f, hf, hqf⟩ := (Prime.dvd_prod_iff hq.prime).mp hdvd
      rwa [(Nat.prime_dvd_prime_iff_eq hq (hprime f hf)).mp hqf]
    rw [ne_eq, cast_pow_eq_one hp]
    exact hne q hmem

end ModularPower
