import AbsoluteChain.Python
import Mathlib.Algebra.Order.Field.Power
import Mathlib.Algebra.Order.Floor.Ring
import Mathlib.Tactic.FieldSimp
import Mathlib.Tactic.Linarith
import Mathlib.Tactic.Positivity
import Mathlib.Tactic.Ring

/-!
# Double precision

The numbers of binary64 among the rationals have 53 bits and nothing below `2 ^ (-1074)`. An
operation on two of them returns the one that is nearest to the exact result, and of two the one
whose last bit is even. The largest of them is left out.
-/

namespace Binary64

open Python

/-! ## Rounding -/

def leadingBit (n d : ℕ) : ℤ :=
  let k : ℤ := n.log2 - d.log2
  if d * 2 ^ k.toNat ≤ n * 2 ^ (-k).toNat then k else k - 1

def lastBit (q : ℚ) : ℤ := max (leadingBit q.num.natAbs q.den - 52) (-1074)

def pow2 (e : ℤ) : ℚ := mkRat (2 ^ e.toNat) (2 ^ (-e).toNat)

/-- The double nearest to an exact result. -/
def round (q : ℚ) : ℚ := roundHalfEven (q / pow2 (lastBit q)) * pow2 (lastBit q)

theorem pow2_eq (e : ℤ) : pow2 e = 2 ^ e := by
  unfold pow2
  rw [Rat.mkRat_eq_div]
  push_cast
  rcases le_total 0 e with he | he
  · rw [Int.toNat_of_nonpos (neg_nonpos.mpr he), pow_zero, div_one, ← zpow_natCast, Int.toNat_of_nonneg he]
  · rw [Int.toNat_of_nonpos he, pow_zero, one_div, ← zpow_natCast, Int.toNat_of_nonneg (by omega), zpow_neg, inv_inv]

theorem pow2_pos (e : ℤ) : 0 < pow2 e := by
  rw [pow2_eq]
  positivity

theorem le_leadingBit {n d : ℕ} (hn : n ≠ 0) (hd : d ≠ 0) : (2 : ℚ) ^ leadingBit n d ≤ n / d := by
  have hd' : (0 : ℚ) < d := by exact_mod_cast Nat.pos_of_ne_zero hd
  rw [le_div_iff₀ hd']
  unfold leadingBit
  simp only
  split
  · rename_i hle
    generalize (n.log2 : ℤ) - d.log2 = k at hle ⊢
    have hle' : (d : ℚ) * 2 ^ k.toNat ≤ n * 2 ^ (-k).toNat := by exact_mod_cast hle
    rcases le_total 0 k with hk | hk
    · rw [Int.toNat_of_nonpos (neg_nonpos.mpr hk), pow_zero, mul_one, ← zpow_natCast, Int.toNat_of_nonneg hk] at hle'
      rw [mul_comm]
      exact hle'
    · rw [Int.toNat_of_nonpos hk, pow_zero, mul_one, ← zpow_natCast, Int.toNat_of_nonneg (by omega), zpow_neg] at hle'
      rw [mul_comm, ← le_div_iff₀ (by positivity)]
      exact hle'.trans (le_of_eq (div_eq_mul_inv _ _).symm)
  · -- one bit less is always there
    have hlow : (2 : ℚ) ^ n.log2 ≤ n := by exact_mod_cast Nat.log2_self_le hn
    have hhigh : (d : ℚ) ≤ 2 ^ (d.log2 + 1) := by exact_mod_cast (Nat.lt_log2_self (n := d)).le
    calc (2 : ℚ) ^ ((n.log2 : ℤ) - d.log2 - 1) * d
        ≤ 2 ^ ((n.log2 : ℤ) - d.log2 - 1) * 2 ^ (d.log2 + 1) := by gcongr
      _ = 2 ^ n.log2 := by
        rw [← zpow_natCast, ← zpow_natCast, ← zpow_add₀ (by norm_num : (2 : ℚ) ≠ 0)]
        congr 1
        push_cast
        ring
      _ ≤ n := hlow

theorem leadingBit_le_abs {q : ℚ} (hq : q ≠ 0) : (2 : ℚ) ^ leadingBit q.num.natAbs q.den ≤ |q| := by
  have h := le_leadingBit (Int.natAbs_ne_zero.mpr (Rat.num_ne_zero.mpr hq)) q.den_nz
  rwa [Nat.cast_natAbs, Int.cast_abs, ← abs_of_pos (show (0 : ℚ) < q.den by exact_mod_cast q.den_pos), ← abs_div,
    Rat.num_div_den] at h

theorem roundHalfEven_int (k : ℤ) : roundHalfEven k = k := by
  unfold roundHalfEven
  simp

theorem round_eq_self {q : ℚ} {k : ℤ} (h : q = k * pow2 (lastBit q)) : round q = q := by
  have hk : q / pow2 (lastBit q) = k := by
    rw [div_eq_iff (pow2_pos _).ne']
    exact h
  unfold round
  rw [hk, roundHalfEven_int]
  exact h.symm

/-! ## Multiples of a power of two -/

/-- A whole number of `2 ^ e`. -/
def Multiple (e : ℤ) (q : ℚ) : Prop := ∃ k : ℤ, q = k * 2 ^ e

section
variable {e : ℤ} {p q : ℚ}

theorem Multiple.zero : Multiple e 0 := ⟨0, by simp⟩

theorem Multiple.add (hp : Multiple e p) (hq : Multiple e q) : Multiple e (p + q) := by
  obtain ⟨k, rfl⟩ := hp
  obtain ⟨l, rfl⟩ := hq
  exact ⟨k + l, by push_cast; ring⟩

theorem Multiple.neg (hq : Multiple e q) : Multiple e (-q) := by
  obtain ⟨k, rfl⟩ := hq
  exact ⟨-k, by push_cast; ring⟩

theorem Multiple.int (he : e ≤ 0) (n : ℤ) : Multiple e n := by
  refine ⟨n * 2 ^ (-e).toNat, ?_⟩
  have hunit : (2 : ℚ) ^ (-e).toNat * 2 ^ e = 1 := by
    rw [← zpow_natCast, Int.toNat_of_nonneg (by omega), ← zpow_add₀ (by norm_num : (2 : ℚ) ≠ 0), neg_add_cancel, zpow_zero]
  push_cast
  rw [mul_assoc, hunit, mul_one]

theorem Multiple.max_zero (hq : Multiple e q) : Multiple e (max 0 q) := by
  rcases max_choice 0 q with h | h
  · rw [h]
    exact .zero
  · rw [h]
    exact hq

theorem round_multiple (h : Multiple e q) (he : -1074 ≤ e) (hsmall : |q| < 2 ^ (e + 53)) : round q = q := by
  obtain ⟨k, hk⟩ := h
  have hlast : q ≠ 0 → lastBit q ≤ e := by
    intro hq
    have hlead := (leadingBit_le_abs hq).trans_lt hsmall
    rw [zpow_lt_zpow_iff_right₀ (by norm_num : (1 : ℚ) < 2)] at hlead
    exact max_le (by omega) he
  by_cases hq : q = 0
  · exact @round_eq_self q 0 (by rw [hq]; simp)
  · refine @round_eq_self q (k * 2 ^ (e - lastBit q).toNat) ?_
    have hpow : (2 : ℚ) ^ (e - lastBit q).toNat * pow2 (lastBit q) = 2 ^ e := by
      rw [pow2_eq, ← zpow_natCast, Int.toNat_of_nonneg (by have := hlast hq; omega),
        ← zpow_add₀ (by norm_num : (2 : ℚ) ≠ 0), sub_add_cancel]
    push_cast
    rw [mul_assoc, hpow]
    exact hk

theorem Multiple.sum {xs : List ℚ} (h : ∀ x ∈ xs, Multiple e x) : Multiple e xs.sum := by
  induction xs with
  | nil => exact .zero
  | cons x rest ih =>
    rw [List.sum_cons]
    exact (h x List.mem_cons_self).add (ih fun y hy => h y (List.mem_cons_of_mem _ hy))

/-- Nor is a sum taken in any order, when all of it is small. -/
theorem foldl_round_multiple {xs : List ℚ} (hp : Multiple e p) (h : ∀ x ∈ xs, Multiple e x) (he : -1074 ≤ e)
    (hsmall : |p| + (xs.map fun x => |x|).sum < 2 ^ (e + 53)) :
    xs.foldl (fun balance x => round (balance + x)) p = p + xs.sum := by
  induction xs generalizing p with
  | nil => exact (add_zero p).symm
  | cons x rest ih =>
    rw [List.map_cons, List.sum_cons] at hsmall
    have hsum : |p + x| ≤ |p| + |x| := abs_add_le p x
    have hrest : 0 ≤ (rest.map fun x => |x|).sum := by
      apply List.sum_nonneg
      intro y hy
      obtain ⟨x, -, rfl⟩ := List.mem_map.mp hy
      exact abs_nonneg x
    have hnext : Multiple e (p + x) := hp.add (h x List.mem_cons_self)
    have hexact : round (p + x) = p + x := round_multiple hnext he (by linarith)
    rw [List.foldl_cons, hexact, ih hnext (fun y hy => h y (List.mem_cons_of_mem _ hy)) (by linarith), List.sum_cons,
      add_assoc]

end

/-! ## Order -/

theorem roundHalfEven_mono {p q : ℚ} (h : p ≤ q) : roundHalfEven p ≤ roundHalfEven q := by
  have hfloor : ⌊p⌋ ≤ ⌊q⌋ := Int.floor_le_floor h
  rcases lt_or_eq_of_le hfloor with hlt | heq
  · have hp : roundHalfEven p ≤ ⌊p⌋ + 1 := by
      unfold roundHalfEven
      simp only
      split
      · omega
      · split
        · omega
        · split <;> omega
    have hq : ⌊q⌋ ≤ roundHalfEven q := by
      unfold roundHalfEven
      simp only
      split
      · omega
      · split
        · omega
        · split <;> omega
    omega
  · -- on one side of an integer the fractions decide
    unfold roundHalfEven
    simp only [heq]
    have hfrac : p - ⌊q⌋ ≤ q - ⌊q⌋ := by linarith
    by_cases h₁ : p - ⌊q⌋ < 1 / 2
    · rw [if_pos h₁]
      split
      · exact le_refl _
      · split
        · omega
        · split <;> omega
    · rw [if_neg h₁, if_neg fun h₂ => h₁ (hfrac.trans_lt h₂)]
      by_cases h₃ : 1 / 2 < p - ⌊q⌋
      · rw [if_pos h₃, if_pos (h₃.trans_le hfrac)]
      · rw [if_neg h₃]
        by_cases h₄ : 1 / 2 < q - ⌊q⌋
        · rw [if_pos h₄]
          split <;> omega
        · rw [if_neg h₄]

theorem le_roundHalfEven {k : ℤ} {q : ℚ} (h : k ≤ q) : k ≤ roundHalfEven q := by
  have hmono := roundHalfEven_mono h
  rwa [roundHalfEven_int] at hmono

theorem roundHalfEven_le {k : ℤ} {q : ℚ} (h : q ≤ k) : roundHalfEven q ≤ k := by
  have hmono := roundHalfEven_mono h
  rwa [roundHalfEven_int] at hmono

theorem round_nonneg {q : ℚ} (h : 0 ≤ q) : 0 ≤ round q := by
  have hint : (0 : ℤ) ≤ roundHalfEven (q / pow2 (lastBit q)) :=
    le_roundHalfEven (by simpa using div_nonneg h (pow2_pos _).le)
  exact mul_nonneg (by exact_mod_cast hint) (pow2_pos _).le

theorem roundHalfEven_neg (q : ℚ) : roundHalfEven (-q) = -roundHalfEven q := by
  have hfloor := Int.floor_le q
  have hlt := Int.lt_floor_add_one q
  by_cases hint : q = ⌊q⌋
  · have hneg : -q = ((-⌊q⌋ : ℤ) : ℚ) := by
      push_cast
      rw [← hint]
    rw [hneg, roundHalfEven_int, hint, roundHalfEven_int, Int.floor_intCast]
  · have hpos : (⌊q⌋ : ℚ) < q := lt_of_le_of_ne hfloor (Ne.symm hint)
    have hneg : ⌊-q⌋ = -⌊q⌋ - 1 := by
      rw [Int.floor_eq_iff]
      push_cast
      exact ⟨by linarith, by linarith⟩
    have hfrac : -q - ((-⌊q⌋ - 1 : ℤ) : ℚ) = 1 - (q - ⌊q⌋) := by
      push_cast
      ring
    unfold roundHalfEven
    simp only [hneg, hfrac]
    generalize q - ⌊q⌋ = f
    rcases lt_trichotomy f (1 / 2) with hhalf | hhalf | hhalf
    · rw [if_pos hhalf, if_neg (by linarith), if_pos (by linarith)]
      ring
    · have hsame : (1 : ℚ) - 1 / 2 = 1 / 2 := by norm_num
      simp only [hhalf, hsame, lt_self_iff_false, if_false]
      split <;> split <;> omega
    · rw [if_pos (show 1 - f < 1 / 2 by linarith), if_neg (show ¬ f < 1 / 2 by linarith), if_pos hhalf]
      ring

theorem round_neg (q : ℚ) : round (-q) = -round q := by
  have hbit : lastBit (-q) = lastBit q := by
    unfold lastBit
    rw [Rat.neg_num, Int.natAbs_neg, Rat.neg_den]
  unfold round
  rw [hbit, neg_div, roundHalfEven_neg]
  push_cast
  ring

theorem lt_leadingBit {n d : ℕ} (hd : d ≠ 0) : (n / d : ℚ) < 2 ^ (leadingBit n d + 1) := by
  have hd' : (0 : ℚ) < d := by exact_mod_cast Nat.pos_of_ne_zero hd
  rw [div_lt_iff₀ hd']
  unfold leadingBit
  simp only
  split
  · have hhigh : (n : ℚ) < 2 ^ (n.log2 + 1) := by exact_mod_cast Nat.lt_log2_self
    have hlow : (2 : ℚ) ^ d.log2 ≤ d := by exact_mod_cast Nat.log2_self_le hd
    calc (n : ℚ) < 2 ^ (n.log2 + 1) := hhigh
      _ = 2 ^ ((n.log2 : ℤ) - d.log2 + 1) * 2 ^ d.log2 := by
        rw [← zpow_natCast, ← zpow_natCast, ← zpow_add₀ (by norm_num : (2 : ℚ) ≠ 0)]
        congr 1
        push_cast
        ring
      _ ≤ 2 ^ ((n.log2 : ℤ) - d.log2 + 1) * d := mul_le_mul_of_nonneg_left hlow (zpow_pos (by norm_num) _).le
  · rename_i hlt
    rw [sub_add_cancel]
    generalize (n.log2 : ℤ) - d.log2 = k at hlt ⊢
    have hlt' : (n : ℚ) * 2 ^ (-k).toNat < d * 2 ^ k.toNat := by exact_mod_cast not_le.mp hlt
    rcases le_total 0 k with hk | hk
    · rw [Int.toNat_of_nonpos (neg_nonpos.mpr hk), pow_zero, mul_one, ← zpow_natCast, Int.toNat_of_nonneg hk] at hlt'
      rw [mul_comm]
      exact hlt'
    · rw [Int.toNat_of_nonpos hk, pow_zero, mul_one, ← zpow_natCast, Int.toNat_of_nonneg (by omega), zpow_neg] at hlt'
      rw [mul_comm, ← div_lt_iff₀ (zpow_pos (by norm_num) _)]
      exact (le_of_eq (div_eq_mul_inv _ _)).trans_lt (by simpa using hlt')

theorem abs_lt_leadingBit (q : ℚ) : |q| < (2 : ℚ) ^ (leadingBit q.num.natAbs q.den + 1) := by
  have h := @lt_leadingBit q.num.natAbs q.den q.den_nz
  rwa [Nat.cast_natAbs, Int.cast_abs, ← abs_of_pos (show (0 : ℚ) < q.den by exact_mod_cast q.den_pos), ← abs_div,
    Rat.num_div_den] at h

theorem round_mono_pos {p q : ℚ} (hp : 0 < p) (h : p ≤ q) : round p ≤ round q := by
  have hq : 0 < q := hp.trans_le h
  have hp₁ := leadingBit_le_abs hp.ne'
  have hp₂ := abs_lt_leadingBit p
  have hq₁ := leadingBit_le_abs hq.ne'
  have hq₂ := abs_lt_leadingBit q
  rw [abs_of_pos hp] at hp₁ hp₂
  rw [abs_of_pos hq] at hq₁ hq₂
  have hlead : leadingBit p.num.natAbs p.den < leadingBit q.num.natAbs q.den + 1 := by
    rw [← zpow_lt_zpow_iff_right₀ (by norm_num : (1 : ℚ) < 2)]
    exact (hp₁.trans h).trans_lt hq₂
  by_cases hbit : lastBit p = lastBit q
  · unfold round
    rw [hbit]
    have hmono := roundHalfEven_mono (div_le_div_of_nonneg_right h (pow2_pos (lastBit q)).le)
    exact mul_le_mul_of_nonneg_right (by exact_mod_cast hmono) (pow2_pos _).le
  · -- the leading power of two of the larger number lies between
    unfold lastBit at hbit
    have hbelow : leadingBit p.num.natAbs p.den + 1 ≤ leadingBit q.num.natAbs q.den := by omega
    have hlast : lastBit q = leadingBit q.num.natAbs q.den - 52 := by
      unfold lastBit
      omega
    have hunit : lastBit p ≤ leadingBit q.num.natAbs q.den := by
      unfold lastBit
      omega
    generalize leadingBit q.num.natAbs q.den = l at *
    have hpow : ∀ k : ℤ, k ≤ l → (2 : ℚ) ^ l = ((2 ^ (l - k).toNat : ℤ) : ℚ) * pow2 k := by
      intro k hk
      push_cast
      rw [pow2_eq, ← zpow_natCast, Int.toNat_of_nonneg (by omega), ← zpow_add₀ (by norm_num : (2 : ℚ) ≠ 0), sub_add_cancel]
    have hle : p ≤ 2 ^ l := hp₂.le.trans (zpow_le_zpow_right₀ (by norm_num) hbelow)
    calc round p ≤ 2 ^ l := by
          rw [hpow _ hunit] at hle ⊢
          have hint := roundHalfEven_le ((div_le_iff₀ (pow2_pos _)).mpr hle)
          exact mul_le_mul_of_nonneg_right (by exact_mod_cast hint) (pow2_pos _).le
      _ ≤ round q := by
          rw [hpow (lastBit q) (by omega)] at hq₁ ⊢
          have hint := le_roundHalfEven ((le_div_iff₀ (pow2_pos _)).mpr hq₁)
          exact mul_le_mul_of_nonneg_right (by exact_mod_cast hint) (pow2_pos _).le

theorem round_mono {p q : ℚ} (h : p ≤ q) : round p ≤ round q := by
  by_cases hp : 0 < p
  · exact round_mono_pos hp h
  · by_cases hq : q < 0
    · have hneg := round_mono_pos (neg_pos.mpr hq) (neg_le_neg h)
      rw [round_neg, round_neg] at hneg
      exact neg_le_neg_iff.mp hneg
    · have hp' := round_nonneg (neg_nonneg.mpr (not_lt.mp hp))
      rw [round_neg] at hp'
      exact (neg_nonneg.mp hp').trans (round_nonneg (not_lt.mp hq))

/-- What is not below the least double does not vanish. -/
theorem round_pos {q : ℚ} (h : pow2 (-1074) ≤ q) : 0 < round q := by
  have hq : 0 < q := (pow2_pos _).trans_le h
  have hbit : pow2 (lastBit q) ≤ q := by
    unfold lastBit
    rcases max_choice (leadingBit q.num.natAbs q.den - 52) (-1074) with hmax | hmax
    · rw [hmax, pow2_eq]
      have hlead := leadingBit_le_abs hq.ne'
      rw [abs_of_pos hq] at hlead
      exact (zpow_le_zpow_right₀ (by norm_num) (by omega)).trans hlead
    · rw [hmax]
      exact h
  have hone : ((1 : ℤ) : ℚ) ≤ q / pow2 (lastBit q) := by
    rw [Int.cast_one]
    exact (one_le_div (pow2_pos _)).mpr hbit
  have hcast : (1 : ℚ) ≤ roundHalfEven (q / pow2 (lastBit q)) := by exact_mod_cast le_roundHalfEven hone
  exact mul_pos (by linarith) (pow2_pos _)

/-- Doubles do not add exactly. -/
example : round (round (1 / 10) + round (2 / 10)) ≠ round (3 / 10) := by decide +kernel

end Binary64
