import Mathlib.Data.Rat.Floor
import Mathlib.Data.List.Sort

/-!
# Python built-ins

Numbers, dictionaries, text and bytes as Python computes with them, on exact
rationals where Python has floats.
-/

namespace Python

/-! ## Numbers -/

inductive Num where
  | int (n : Int)
  | float (q : ℚ)
  deriving DecidableEq

def Num.toRat : Num → ℚ
  | .int n => n
  | .float q => q

def truncate (q : ℚ) : Int := q.num.tdiv q.den

def roundHalfEven (q : ℚ) : Int :=
  let f := ⌊q⌋
  let r := q - f
  if r < 1 / 2 then f else if 1 / 2 < r then f + 1 else if f % 2 = 0 then f else f + 1

def roundTo (digits : Nat) (q : ℚ) : ℚ := roundHalfEven (q * 10 ^ digits) / 10 ^ digits

/-! ## Dictionaries: keys in insertion order -/

abbrev Dict (κ β : Type) := List (κ × β)

instance lawfulIntString : LawfulBEq (Int × String) := Prod.instLawfulBEq
instance lawfulStringRat : LawfulBEq (String × ℚ) := Prod.instLawfulBEq

namespace Dict
variable {κ β : Type} [DecidableEq κ]

def get? (d : Dict κ β) (k : κ) : Option β := d.lookup k

def contains (d : Dict κ β) (k : κ) : Bool := (d.get? k).isSome

/-- `d[k] = v` keeps the place of an existing key and appends a new one. -/
def set : Dict κ β → κ → β → Dict κ β
  | [], k, v => [(k, v)]
  | (a, x) :: t, k, v => if a = k then (k, v) :: t else (a, x) :: set t k v

def erase (d : Dict κ β) (k : κ) : Dict κ β := d.filter fun e => e.1 ≠ k

@[simp] theorem get?_nil (k : κ) : get? ([] : Dict κ β) k = none := rfl

theorem get?_cons (a k : κ) (x : β) (d : Dict κ β) : get? ((a, x) :: d) k = if k = a then some x else d.get? k := by
  by_cases h : k = a
  · simp [get?, h]
  · simp [get?, List.lookup_cons, h, beq_eq_false_iff_ne.mpr h]

theorem get?_set (d : Dict κ β) (k j : κ) (v : β) : (d.set k v).get? j = if j = k then some v else d.get? j := by
  induction d with
  | nil => simp [set, get?_cons]
  | cons e t ih =>
    obtain ⟨a, x⟩ := e
    by_cases ha : a = k
    · subst ha
      simp only [set, if_true, get?_cons]
      by_cases hj : j = a
      · simp [hj]
      · simp [hj]
    · simp only [set, if_neg ha, get?_cons, ih]
      by_cases hj : j = a
      · simp [hj, ha]
      · simp [hj]

@[simp] theorem get?_set_self (d : Dict κ β) (k : κ) (v : β) : (d.set k v).get? k = some v := by simp [get?_set]

theorem get?_set_of_ne (d : Dict κ β) {k j : κ} (h : j ≠ k) (v : β) : (d.set k v).get? j = d.get? j := by
  simp [get?_set, h]

theorem get?_erase (d : Dict κ β) (k j : κ) : (d.erase k).get? j = if j = k then none else d.get? j := by
  induction d with
  | nil => simp [erase]
  | cons p d ih =>
    obtain ⟨a, v⟩ := p
    unfold erase at ih ⊢
    by_cases hak : a = k
    · subst hak
      rw [List.filter_cons_of_neg (by simp), ih, get?_cons]
      by_cases hj : j = a
      · rw [if_pos hj, if_pos hj]
      · rw [if_neg hj, if_neg hj, if_neg hj]
    · rw [List.filter_cons_of_pos (by simpa using hak), get?_cons, get?_cons, ih]
      by_cases hja : j = a
      · rw [if_pos hja, if_pos hja, if_neg (hja ▸ hak)]
      · rw [if_neg hja, if_neg hja]

theorem keys_set (d : Dict κ β) (k : κ) (v : β) :
    (d.set k v).map Prod.fst = if k ∈ d.map Prod.fst then d.map Prod.fst else d.map Prod.fst ++ [k] := by
  induction d with
  | nil => simp [set]
  | cons e t ih =>
    obtain ⟨a, x⟩ := e
    by_cases ha : a = k
    · simp [set, ha]
    · simp only [set, if_neg ha, List.map_cons, ih, List.mem_cons]
      have hk : ¬ k = a := fun h => ha h.symm
      by_cases ht : k ∈ t.map Prod.fst
      · simp [hk, ht]
      · simp [hk, ht]

theorem set_of_not_mem {d : Dict κ β} {k : κ} (h : k ∉ d.map Prod.fst) (v : β) : d.set k v = d ++ [(k, v)] := by
  induction d with
  | nil => rfl
  | cons e t ih =>
    obtain ⟨a, x⟩ := e
    have hne : a ≠ k := fun hak => h (hak ▸ List.mem_cons_self)
    rw [set, if_neg hne, ih fun ht => h (List.mem_cons_of_mem _ ht)]
    rfl

theorem mem_set {d : Dict κ β} {k : κ} {v : β} {e : κ × β} (h : e ∈ d.set k v) : e ∈ d ∨ e = (k, v) := by
  induction d with
  | nil => exact .inr (by simpa [set] using h)
  | cons a t ih =>
    obtain ⟨a, x⟩ := a
    by_cases ha : a = k
    · simp only [set, if_pos ha, List.mem_cons] at h ⊢
      tauto
    · simp only [set, if_neg ha, List.mem_cons] at h ⊢
      tauto

/-- No key stands twice. -/
def Keyed (d : Dict κ β) : Prop := (d.map Prod.fst).Nodup

theorem Keyed.set {d : Dict κ β} (h : d.Keyed) (k : κ) (v : β) : (d.set k v).Keyed := by
  unfold Keyed at *
  rw [keys_set]
  split
  · exact h
  · rename_i hk
    rw [List.nodup_append]
    refine ⟨h, by simp, ?_⟩
    intro a ha b hb hab
    rw [List.mem_singleton] at hb
    exact hk (hb ▸ hab ▸ ha)

theorem Keyed.get?_of_mem {d : Dict κ β} (h : d.Keyed) {k : κ} {v : β} (hm : (k, v) ∈ d) : d.get? k = some v := by
  induction d with
  | nil => cases hm
  | cons e t ih =>
    obtain ⟨a, x⟩ := e
    unfold Keyed at *
    simp only [List.map_cons, List.nodup_cons] at h
    rw [get?_cons]
    rcases List.mem_cons.mp hm with he | ht
    · cases he
      simp
    · have hk : k ≠ a := fun hka => h.1 (hka ▸ List.mem_map_of_mem ht)
      rw [if_neg hk]
      exact ih h.2 ht

theorem mem_of_get? {d : Dict κ β} {k : κ} {v : β} (h : d.get? k = some v) : (k, v) ∈ d := by
  induction d with
  | nil => simp at h
  | cons e t ih =>
    obtain ⟨a, x⟩ := e
    rw [get?_cons] at h
    by_cases hk : k = a
    · simp_all
    · simp only [if_neg hk] at h
      exact List.mem_cons_of_mem _ (ih h)

def sum {M : Type} [AddCommMonoid M] (d : Dict κ β) (f : β → M) : M := (d.map fun e => f e.2).sum

theorem sum_set {M : Type} [AddCommGroup M] (d : Dict κ β) (k : κ) (v : β) (f : β → M) :
    (d.set k v).sum f = d.sum f + f v - (d.get? k).elim 0 f := by
  unfold sum
  induction d with
  | nil => simp [set]
  | cons e t ih =>
    obtain ⟨a, x⟩ := e
    rw [set, get?_cons]
    by_cases ha : a = k
    · rw [if_pos ha, if_pos ha.symm]
      simp only [List.map_cons, List.sum_cons, Option.elim_some]
      abel
    · rw [if_neg ha, if_neg (Ne.symm ha)]
      simp only [List.map_cons, List.sum_cons, ih]
      abel

end Dict

/-! ## Text -/

/-- The characters for which `str.isspace` holds. -/
def isSpace (c : Char) : Bool :=
  let n := c.toNat
  (9 ≤ n && n ≤ 13) || (28 ≤ n && n ≤ 32) || n == 0x85 || n == 0xa0 || n == 0x1680 ||
    (0x2000 ≤ n && n ≤ 0x200a) || n == 0x2028 || n == 0x2029 || n == 0x202f || n == 0x205f || n == 0x3000

def stripChars (l : List Char) : List Char := ((l.dropWhile isSpace).reverse.dropWhile isSpace).reverse

def strip (s : String) : String := String.ofList (stripChars s.toList)

def dropHexPrefixes : List Char → List Char
  | '0' :: 'x' :: t => dropHexPrefixes t
  | c :: t => c :: dropHexPrefixes t
  | [] => []

/-- `s.replace("0x", "")`. -/
def removeHexPrefixes (s : String) : String := String.ofList (dropHexPrefixes s.toList)

def hexValue (c : Char) : Option Nat :=
  let n := c.toNat
  if 48 ≤ n ∧ n ≤ 57 then some (n - 48)
  else if 97 ≤ n ∧ n ≤ 102 then some (n - 87)
  else if 65 ≤ n ∧ n ≤ 70 then some (n - 55)
  else none

def hexDigit (n : Nat) : Char := Char.ofNat (if n < 10 then 48 + n else 87 + n)

def rjust (width : Nat) (fill : Char) (l : List Char) : List Char :=
  List.replicate (width - l.length) fill ++ l

def hexChars (n : Nat) : List Char := Nat.toDigits 16 n

def parseHexDigits : Nat → List Char → Option Nat
  | acc, [] => some acc
  | acc, '_' :: c :: t => (hexValue c).bind fun v => parseHexDigits (acc * 16 + v) t
  | acc, c :: t => (hexValue c).bind fun v => parseHexDigits (acc * 16 + v) t

/-- `int(s, 16)`: blanks around, a sign, a `0x` prefix and single underscores
between digits are accepted. -/
def parseHexInt (s : List Char) : Option Int :=
  let unsigned : List Char → Option Nat := fun l =>
    match l with
    | '0' :: 'x' :: '_' :: c :: t => parseHexDigits 0 (c :: t)
    | '0' :: 'x' :: c :: t => parseHexDigits 0 (c :: t)
    | '0' :: 'X' :: c :: t => parseHexDigits 0 (c :: t)
    | '_' :: _ => none
    | [] => none
    | c :: t => parseHexDigits 0 (c :: t)
  match stripChars s with
  | '-' :: t => (unsigned t).map fun n => -(n : Int)
  | '+' :: t => (unsigned t).map fun n => (n : Int)
  | t => (unsigned t).map fun n => (n : Int)

/-! ## Bytes -/

abbrev Bytes := List UInt8

def encode (s : String) : Bytes := s.toList.flatMap String.utf8EncodeChar

theorem encode_inj {s t : String} (h : encode s = encode t) : s = t := by
  have hb : s.toList.utf8Encode = t.toList.utf8Encode := congrArg List.toByteArray h
  rwa [String.utf8Encode_toList, String.utf8Encode_toList, String.toByteArray_inj] at hb

theorem encode_ofList (l : List Char) : encode (String.ofList l) = l.flatMap String.utf8EncodeChar := by
  unfold encode
  rw [String.toList_ofList]

/-- The blanks that `bytes.fromhex` skips between byte pairs. -/
def isAsciiSpace (c : Char) : Bool := c.toNat == 32 || (9 ≤ c.toNat && c.toNat ≤ 13)

def bytesFromHexChars : List Char → Option Bytes
  | [] => some []
  | [c] => if isAsciiSpace c then some [] else none
  | c :: d :: t =>
    if isAsciiSpace c then bytesFromHexChars (d :: t)
    else
      match hexValue c, hexValue d, bytesFromHexChars t with
      | some h, some l, some bs => some (UInt8.ofNat (h * 16 + l) :: bs)
      | _, _, _ => none

def bytesFromHex (s : String) : Option Bytes := bytesFromHexChars s.toList

def hexOfByte (b : UInt8) : List Char := [hexDigit (b.toNat / 16), hexDigit (b.toNat % 16)]

def hexOfBytes (bs : Bytes) : String := String.ofList (bs.flatMap hexOfByte)

def natOfBytes (bs : Bytes) : Nat := bs.foldl (fun n b => n * 256 + b.toNat) 0

def bytesOfNat : Nat → Nat → Bytes
  | 0, _ => []
  | width + 1, n => bytesOfNat width (n / 256) ++ [UInt8.ofNat (n % 256)]

def slice (bs : Bytes) (offset size : Nat) : Bytes := (bs.drop offset).take size

def padRight (bs : Bytes) (size : Nat) : Bytes := bs ++ List.replicate (size - bs.length) 0

/-! ## Sorting -/

def sortedBy {α κ : Type} [LinearOrder κ] (key : α → κ) (l : List α) : List α :=
  l.insertionSort fun a b => key a ≤ key b

end Python
