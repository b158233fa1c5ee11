import AbsoluteChain.Python
import Mathlib.Tactic.IntervalCases

/-!
# Hexadecimal text

Bytes and integers that are written in hexadecimal are read back, and the last digits of a
number are those of its remainder.
-/

namespace Python

/-! ## Bytes -/

theorem hexValue_hexDigit {n : Nat} (h : n < 16) : hexValue (hexDigit n) = some n := by
  interval_cases n <;> decide

theorem hexDigit_plain {n : Nat} (h : n < 16) : isAsciiSpace (hexDigit n) = false ∧ hexDigit n ≠ 'x' := by
  interval_cases n <;> decide

/-- Bytes written in hexadecimal are read back. -/
theorem bytesFromHexChars_hex (bs : Bytes) : bytesFromHexChars (bs.flatMap hexOfByte) = some bs := by
  induction bs with
  | nil => rfl
  | cons b bs ih =>
    have hb := b.toNat_lt
    have hhigh : b.toNat / 16 < 16 := by omega
    have hlow : b.toNat % 16 < 16 := by omega
    have hsum : UInt8.ofNat (b.toNat / 16 * 16 + b.toNat % 16) = b := by
      rw [Nat.div_add_mod']
      exact UInt8.ofNat_toNat
    rw [List.flatMap_cons]
    simp only [hexOfByte, List.cons_append, List.nil_append, bytesFromHexChars, (hexDigit_plain hhigh).1,
      Bool.false_eq_true, if_false, hexValue_hexDigit hhigh, hexValue_hexDigit hlow, ih, hsum]

theorem dropHexPrefixes_plain (l : List Char) (h : 'x' ∉ l) : dropHexPrefixes l = l := by
  induction l with
  | nil => rfl
  | cons c t ih =>
    have ht := ih fun hx => h (List.mem_cons_of_mem _ hx)
    cases t with
    | nil =>
      unfold dropHexPrefixes
      split
      · rename_i heq
        cases heq
      · rename_i heq
        cases heq
        rw [dropHexPrefixes]
      · rename_i heq
        cases heq
    | cons d t =>
      have hd : d ≠ 'x' := fun hx => h (hx ▸ List.mem_cons_of_mem _ List.mem_cons_self)
      unfold dropHexPrefixes
      split
      · rename_i heq
        cases heq
        exact absurd rfl hd
      · rename_i heq
        cases heq
        rw [ht]
      · rename_i heq
        cases heq

theorem bytesFromHex_hexOfBytes (bs : Bytes) : bytesFromHex (removeHexPrefixes (hexOfBytes bs)) = some bs := by
  have hplain : 'x' ∉ bs.flatMap hexOfByte := by
    intro hx
    obtain ⟨b, -, hb⟩ := List.mem_flatMap.mp hx
    have hlt := b.toNat_lt
    simp only [hexOfByte, List.mem_cons, List.not_mem_nil, or_false] at hb
    rcases hb with hb | hb
    · exact (hexDigit_plain (by omega)).2 hb.symm
    · exact (hexDigit_plain (by omega)).2 hb.symm
  unfold bytesFromHex removeHexPrefixes hexOfBytes
  rw [String.toList_ofList, String.toList_ofList, dropHexPrefixes_plain _ hplain]
  exact bytesFromHexChars_hex bs

/-! ## Digits -/

def lastHexDigits (k n : Nat) : List Char := (rjust k '0' (hexChars n)).drop ((rjust k '0' (hexChars n)).length - k)

theorem length_rjust (k : Nat) (c : Char) (l : List Char) : (rjust k c l).length = max k l.length := by
  unfold rjust
  rw [List.length_append, List.length_replicate]
  omega

theorem lastHexDigits_zero (k : Nat) : lastHexDigits k 0 = List.replicate k '0' := by
  unfold lastHexDigits hexChars
  rw [Nat.toDigits_zero, length_rjust]
  unfold rjust
  cases k with
  | zero => rfl
  | succ k =>
    have hsame : List.replicate k '0' ++ ['0'] = List.replicate (k + 1) '0' := List.replicate_succ'.symm
    simp only [List.length_singleton, Nat.add_sub_cancel, hsame]
    rw [show max (k + 1) 1 - (k + 1) = 0 by omega]
    rfl

theorem lastHexDigits_succ (k n : Nat) :
    lastHexDigits (k + 1) n = lastHexDigits k (n / 16) ++ [(n % 16).digitChar] := by
  by_cases hn : n < 16
  · rw [Nat.div_eq_of_lt hn, Nat.mod_eq_of_lt hn, lastHexDigits_zero]
    unfold lastHexDigits hexChars
    rw [Nat.toDigits_of_lt_base hn, length_rjust]
    unfold rjust
    rw [List.length_singleton, Nat.add_sub_cancel, show max (k + 1) 1 - (k + 1) = 0 by omega, List.drop_zero]
  · have hdigits : hexChars n = hexChars (n / 16) ++ [(n % 16).digitChar] :=
      Nat.toDigits_of_base_le (by omega) (not_lt.mp hn)
    have hjust : rjust (k + 1) '0' (hexChars n) = rjust k '0' (hexChars (n / 16)) ++ [(n % 16).digitChar] := by
      unfold rjust
      rw [hdigits, List.length_append, List.length_singleton, Nat.add_sub_add_right, List.append_assoc]
    unfold lastHexDigits
    rw [hjust, List.length_append, List.length_singleton, Nat.add_sub_add_right,
      List.drop_append_of_le_length (Nat.sub_le _ _)]

theorem lastHexDigits_mod (k n : Nat) : lastHexDigits k (n % 16 ^ k) = lastHexDigits k n := by
  induction k generalizing n with
  | zero =>
    unfold lastHexDigits
    rw [Nat.sub_zero, Nat.sub_zero, List.drop_length, List.drop_length]
  | succ k ih =>
    have hhigh : n % 16 ^ (k + 1) / 16 = n / 16 % 16 ^ k := by
      rw [pow_succ, mul_comm, Nat.mod_mul_right_div_self]
    have hlow : n % 16 ^ (k + 1) % 16 = n % 16 := Nat.mod_mod_of_dvd n (dvd_pow_self 16 (Nat.succ_ne_zero k))
    rw [lastHexDigits_succ, lastHexDigits_succ, hhigh, hlow, ih]

theorem lastHexDigits_of_lt {k n : Nat} (hk : 0 < k) (h : n < 16 ^ k) : lastHexDigits k n = rjust k '0' (hexChars n) := by
  have hlength : (hexChars n).length ≤ k := (Nat.length_toDigits_le_iff (by omega) hk).mpr h
  unfold lastHexDigits
  rw [length_rjust, max_eq_left hlength, Nat.sub_self, List.drop_zero]

/-! ## Integers -/

theorem hexValue_digitChar {n : Nat} (h : n < 16) : hexValue n.digitChar = some n := by
  interval_cases n <;> decide

def hexFold (acc : Nat) (l : List Char) : Nat := l.foldl (fun n c => n * 16 + (hexValue c).getD 0) acc

theorem hexFold_hexChars (n : Nat) : hexFold 0 (hexChars n) = n := by
  induction n using Nat.strongRecOn with
  | ind n ih =>
    by_cases hn : n < 16
    · simp [hexFold, hexChars, Nat.toDigits_of_lt_base hn, hexValue_digitChar hn]
    · have hdigits : hexChars n = hexChars (n / 16) ++ [(n % 16).digitChar] :=
        Nat.toDigits_of_base_le (by omega) (not_lt.mp hn)
      have hhigh : hexFold 0 (hexChars (n / 16)) = n / 16 := ih (n / 16) (by omega)
      unfold hexFold at hhigh ⊢
      rw [hdigits, List.foldl_append, hhigh]
      simp only [List.foldl_cons, List.foldl_nil, hexValue_digitChar (Nat.mod_lt n (by omega : 16 > 0)), Option.getD_some]
      omega

theorem hexChars_ne_nil (n : Nat) : hexChars n ≠ [] := Nat.toDigits_ne_nil

theorem hexChars_digits (n : Nat) : ∀ c ∈ hexChars n, (hexValue c).isSome := by
  induction n using Nat.strongRecOn with
  | ind n ih =>
    intro c hc
    by_cases hn : n < 16
    · rw [hexChars, Nat.toDigits_of_lt_base hn, List.mem_singleton] at hc
      rw [hc, hexValue_digitChar hn]
      rfl
    · rw [hexChars, Nat.toDigits_of_base_le (by omega) (not_lt.mp hn), List.mem_append, List.mem_singleton] at hc
      rcases hc with hc | rfl
      · exact ih (n / 16) (by omega) c hc
      · rw [hexValue_digitChar (Nat.mod_lt n (by omega))]
        rfl

theorem hexValue_plain {c : Char} (h : (hexValue c).isSome) : c ∉ ['_', 'x', 'X', '-', '+'] := by
  intro hc
  simp only [List.mem_cons, List.not_mem_nil, or_false] at hc
  rcases hc with rfl | rfl | rfl | rfl | rfl <;> revert h <;> decide

theorem isSpace_of_hexValue {c : Char} (h : (hexValue c).isSome) : isSpace c = false := by
  unfold hexValue at h
  unfold isSpace
  dsimp only at h ⊢
  simp only [Bool.or_eq_false_iff, Bool.and_eq_false_iff, decide_eq_false_iff_not, beq_eq_false_iff_ne]
  split at h
  · omega
  · split at h
    · omega
    · split at h
      · omega
      · cases h

theorem parseHexDigits_eq : ∀ {l : List Char} (acc : Nat), (∀ c ∈ l, (hexValue c).isSome) →
    parseHexDigits acc l = some (hexFold acc l) := by
  intro l
  induction l with
  | nil =>
    intro acc _
    rfl
  | cons c t ih =>
    intro acc h
    have hc := h c List.mem_cons_self
    obtain ⟨v, hv⟩ := Option.isSome_iff_exists.mp hc
    have hne : c ≠ '_' := fun he => hexValue_plain hc (he ▸ List.mem_cons_self)
    have hstep : parseHexDigits acc (c :: t) = (hexValue c).bind fun v => parseHexDigits (acc * 16 + v) t := by
      cases t with
      | nil => rw [parseHexDigits]; intro _ _ _ ht; cases ht
      | cons d t => rw [parseHexDigits]; intro _ _ he _; exact hne he
    rw [hstep, hv, Option.bind_some, ih _ fun d hd => h d (List.mem_cons_of_mem c hd)]
    simp [hexFold, hv]

theorem stripChars_plain {l : List Char} (h : ∀ c ∈ l, isSpace c = false) : stripChars l = l := by
  have hdrop : ∀ {t : List Char}, (∀ c ∈ t, isSpace c = false) → t.dropWhile isSpace = t := by
    intro t ht
    cases t with
    | nil => rfl
    | cons c t => simp [ht c List.mem_cons_self]
  unfold stripChars
  rw [hdrop h, hdrop fun c hc => h c (List.mem_reverse.mp hc), List.reverse_reverse]

theorem stripChars_closed {c d : Char} {t u l ws : List Char} (hl : l = c :: t) (hr : l = u ++ [d])
    (hc : isSpace c = false) (hd : isSpace d = false) (hws : ∀ x ∈ ws, isSpace x = true) :
    stripChars (l ++ ws) = l := by
  unfold stripChars
  have hleft : (l ++ ws).dropWhile isSpace = l ++ ws := by
    rw [hl, List.cons_append]
    exact List.dropWhile_cons_of_neg (by simp [hc])
  have hright : ((l ++ ws).reverse.dropWhile isSpace) = l.reverse := by
    rw [List.reverse_append, List.dropWhile_append_of_pos (by simpa using hws), hr, List.reverse_append]
    exact List.dropWhile_cons_of_neg (by simp [hd])
  rw [hleft, hright, List.reverse_reverse]

theorem stripChars_prefix {q : List Char} (h : ∀ c ∈ q.head?, isSpace c = false) : stripChars q <+: q := by
  have hleft : q.dropWhile isSpace = q := by
    cases q with
    | nil => rfl
    | cons c t => exact List.dropWhile_cons_of_neg (by simp [h c rfl])
  unfold stripChars
  rw [hleft]
  have := List.reverse_prefix.mpr (List.dropWhile_suffix (l := q.reverse) isSpace)
  rwa [List.reverse_reverse] at this

theorem parseHexInt_digits {l : List Char} (hne : l ≠ []) (h : ∀ c ∈ l, (hexValue c).isSome) :
    parseHexInt l = some (hexFold 0 l : Int) := by
  have hplain : ∀ c ∈ l, c ∉ ['_', 'x', 'X', '-', '+'] := fun c hc => hexValue_plain (h c hc)
  have hparse := parseHexDigits_eq 0 h
  unfold parseHexInt
  rw [stripChars_plain fun c hc => isSpace_of_hexValue (h c hc)]
  split
  · exact absurd (by simp) (hplain '-' List.mem_cons_self)
  · exact absurd (by simp) (hplain '+' List.mem_cons_self)
  · dsimp only
    split
    · exact absurd (by simp) (hplain 'x' (by simp))
    · exact absurd (by simp) (hplain 'x' (by simp))
    · exact absurd (by simp) (hplain 'X' (by simp))
    · exact absurd (by simp) (hplain '_' List.mem_cons_self)
    · exact absurd rfl hne
    · rw [hparse]
      rfl

theorem parseHexInt_prefixed {l : List Char} (hne : l ≠ []) (h : ∀ c ∈ l, (hexValue c).isSome) :
    parseHexInt ('0' :: 'x' :: l) = some (hexFold 0 l : Int) := by
  have hspace : ∀ c ∈ '0' :: 'x' :: l, isSpace c = false := by
    intro c hc
    simp only [List.mem_cons] at hc
    rcases hc with rfl | rfl | hc
    · decide
    · decide
    · exact isSpace_of_hexValue (h c hc)
  obtain ⟨c, t, rfl⟩ := List.exists_cons_of_ne_nil hne
  have hc : c ≠ '_' := fun he => hexValue_plain (h c List.mem_cons_self) (he ▸ List.mem_cons_self)
  have hparse := parseHexDigits_eq 0 h
  unfold parseHexInt
  rw [stripChars_plain hspace]
  split
  · rename_i heq
    simp at heq
  · rename_i heq
    simp at heq
  · dsimp only
    split
    · rename_i heq
      simp only [List.cons.injEq, true_and] at heq
      exact absurd heq.1 hc
    · rename_i heq
      simp only [List.cons.injEq, true_and] at heq
      rw [← heq.1, ← heq.2, hparse]
      rfl
    · rename_i heq
      simp at heq
    · rename_i heq
      simp at heq
    · rename_i heq
      cases heq
    · rename_i hx _ _ heq
      obtain ⟨hzero, htail⟩ := List.cons.inj heq
      exact absurd htail.symm (hx c t hzero.symm)
end Python
