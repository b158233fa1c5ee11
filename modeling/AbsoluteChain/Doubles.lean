import AbsoluteChain.Binary64
import AbsoluteChain.Supply

/-!
# Balances in double precision

The balance column is a `REAL`: the database adds two doubles and keeps the double nearest to
their sum. `real` is that rounding, and the identity where sums are exact.
-/

namespace AbsoluteChain.Tables

open KeyedTable

variable (real : ℚ → ℚ)

def applyRealDelta (address : String) (delta : ℚ) (t : Tables) : Tables :=
  { t with accounts := t.accounts.upsert address fun
      | none => { balance := max 0 delta, nonce := 0, code := none, storage := none }
      | some a => { a with balance := max 0 (real (a.balance + delta)) } }

def gained (address : String) (delta : ℚ) (t : Tables) : ℚ :=
  match t.accounts.get? address with
  | none => max 0 delta
  | some a => max 0 (real (a.balance + delta)) - a.balance

/-- The balance and the delta add up to a double that is not negative: the row takes the delta as it is. -/
def Takes (address : String) (delta : ℚ) (t : Tables) : Prop := t.gained real address delta = delta

section
variable {real} {address : String} {delta : ℚ} {t : Tables}

theorem supply_applyRealDelta (address : String) (delta : ℚ) (t : Tables) :
    (t.applyRealDelta real address delta).getTotalSupply = t.getTotalSupply + t.gained real address delta := by
  unfold getTotalSupply applyRealDelta Table.upsert gained
  simp only [Table.sum_put]
  cases t.accounts.get? address with
  | none => simp
  | some a =>
    simp only [Option.elim_some]
    ring

theorem balance_applyRealDelta (a b : String) (delta : ℚ) (t : Tables) :
    (t.applyRealDelta real a delta).getBalance b =
      t.getBalance b + if b = a then t.gained real a delta else 0 := by
  unfold getBalance getAccount applyRealDelta gained
  simp only [Table.get_upsert]
  by_cases h : b = a
  · subst h
    cases t.accounts.get? b with
    | none => simp
    | some x => simp
  · simp [h]

theorem get_applyRealDelta {a b : String} (h : b ≠ a) (delta : ℚ) (t : Tables) :
    (t.applyRealDelta real a delta).accounts.get? b = t.accounts.get? b := by
  unfold applyRealDelta
  rw [Table.get_upsert, if_neg h]

theorem gained_congr {t u : Tables} (h : u.accounts.get? address = t.accounts.get? address) (delta : ℚ) :
    u.gained real address delta = t.gained real address delta := by
  unfold gained
  rw [h]

theorem Solvent.applyRealDelta (h : t.Solvent) (a : String) (delta : ℚ) : (t.applyRealDelta real a delta).Solvent := by
  intro b
  by_cases hb : b = a
  · subst hb
    unfold getBalance getAccount Tables.applyRealDelta
    simp only [Table.get_upsert]
    cases t.accounts.get? b with
    | none => simp
    | some x => simp
  · unfold getBalance getAccount
    rw [get_applyRealDelta hb]
    exact h b

/-- A write whose sum needs no rounding. -/
theorem gained_unrounded (hexact : real (t.getBalance address + delta) = t.getBalance address + delta) :
    t.gained real address delta = max 0 (t.getBalance address + delta) - t.getBalance address := by
  unfold gained
  unfold getBalance getAccount at hexact ⊢
  cases hrow : t.accounts.get? address with
  | none => simp
  | some row =>
    rw [hrow] at hexact
    simp only [Option.map_some, Option.getD_some] at hexact ⊢
    rw [hexact]

/-- A write that keeps the balance out of debt and needs no rounding is exact. -/
theorem gained_exact (hfits : 0 ≤ t.getBalance address + delta)
    (hexact : real (t.getBalance address + delta) = t.getBalance address + delta) :
    t.gained real address delta = delta := by
  rw [gained_unrounded hexact, max_eq_right hfits, add_sub_cancel_left]

theorem codeOf_applyRealDelta (address b : String) (delta : ℚ) (t : Tables) :
    EvmAdapter.codeOf (t.applyRealDelta real address delta) b = EvmAdapter.codeOf t b := by
  unfold EvmAdapter.codeOf getAccount applyRealDelta
  simp only [Table.get_upsert]
  by_cases h : b = address
  · subst h
    cases t.accounts.get? b with
    | none => simp
    | some a => simp
  · simp [h]

end

/-! ## Balances on a grid -/

/-- Every balance is a whole number of `2 ^ e`. -/
def Gridded (e : ℤ) (t : Tables) : Prop := ∀ a, Binary64.Multiple e (t.getBalance a)

section
variable {e : ℤ} {a : String} {delta : ℚ} {t : Tables}

theorem balance_row {row : String × Account} (h : row ∈ t.accounts.rows) : t.getBalance row.1 = row.2.balance := by
  unfold getBalance getAccount
  rw [(Table.mem_rows_iff t.accounts row.1 row.2).mp h]
  rfl

theorem Solvent.balance_le (h : t.Solvent) (a : String) : t.getBalance a ≤ t.getTotalSupply := by
  have hrows : ∀ x ∈ t.accounts.rows.map fun e => e.2.balance, 0 ≤ x := by
    intro x hx
    obtain ⟨row, hrow, rfl⟩ := List.mem_map.mp hx
    exact balance_row hrow ▸ h row.1
  unfold getBalance getAccount
  cases hget : t.accounts.get? a with
  | none => exact List.sum_nonneg hrows
  | some row =>
    exact List.single_le_sum hrows _ (List.mem_map_of_mem (f := fun e => e.2.balance)
      ((Table.mem_rows_iff t.accounts a row).mpr hget))

theorem Gridded.congr {u : Tables} (h : t.Gridded e) (ha : u.accounts = t.accounts) : u.Gridded e :=
  fun a => (balance_congr ha a).symm ▸ h a

theorem Gridded.supply (h : t.Gridded e) : Binary64.Multiple e t.getTotalSupply := by
  apply Binary64.Multiple.sum
  intro x hx
  obtain ⟨row, hrow, rfl⟩ := List.mem_map.mp hx
  exact balance_row hrow ▸ h row.1

theorem Gridded.applyBalanceDelta (h : t.Gridded e) (a : String) (hd : Binary64.Multiple e delta) :
    (t.applyBalanceDelta a delta).Gridded e := by
  intro b
  rw [balance_applyBalanceDelta]
  by_cases hb : b = a
  · rw [if_pos hb]
    exact ((h a).add hd).max_zero
  · rw [if_neg hb]
    exact h b

theorem gained_cut (h : t.Gridded e) (he : -1074 ≤ e) (hd : Binary64.Multiple e delta)
    (hsmall : |t.getBalance a + delta| < 2 ^ (e + 53)) :
    t.gained Binary64.round a delta = max 0 (t.getBalance a + delta) - t.getBalance a :=
  gained_unrounded (Binary64.round_multiple ((h a).add hd) he hsmall)

theorem gained_gridded (h : t.Gridded e) (he : -1074 ≤ e) (hd : Binary64.Multiple e delta)
    (hfits : 0 ≤ t.getBalance a + delta) (hsmall : t.getBalance a + delta < 2 ^ (e + 53)) :
    t.gained Binary64.round a delta = delta := by
  rw [gained_cut h he hd (by rwa [abs_of_nonneg hfits]), max_eq_right hfits, add_sub_cancel_left]

theorem Gridded.cut (h : t.Gridded e) (he : -1074 ≤ e) (hd : Binary64.Multiple e delta)
    (hsmall : |t.getBalance a + delta| < 2 ^ (e + 53)) : (t.applyRealDelta Binary64.round a delta).Gridded e := by
  intro b
  rw [balance_applyRealDelta, gained_cut h he hd hsmall]
  by_cases hb : b = a
  · rw [if_pos hb, hb, add_sub_cancel]
    exact ((h a).add hd).max_zero
  · rw [if_neg hb, add_zero]
    exact h b

theorem Gridded.applyRealDelta {real : ℚ → ℚ} (h : t.Gridded e) (hd : Binary64.Multiple e delta)
    (hexact : t.gained real a delta = delta) : (t.applyRealDelta real a delta).Gridded e := by
  intro b
  rw [balance_applyRealDelta, hexact]
  by_cases hb : b = a
  · rw [if_pos hb]
    exact (h b).add hd
  · rw [if_neg hb, add_zero]
    exact h b

end

end AbsoluteChain.Tables
