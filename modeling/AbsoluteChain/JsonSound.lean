import AbsoluteChain.Json
import Mathlib.Tactic.IntervalCases

/-!
# JSON text determines the value

`render_split`: from a text that starts with a rendered value and goes on with a
delimiter, the value and the rest can be read off. So `render` is injective, in
every style whose escapes and number tokens can be told apart.
-/

namespace JsonText

open Python

variable {φ : Type}

/-! ## Escapes -/

theorem hexValue_hexDigit {n : Nat} (h : n < 16) : hexValue (hexDigit n) = some n := by
  interval_cases n <;> decide

def hexValue4 (a b c d : Char) : Nat :=
  (hexValue a).getD 0 * 4096 + (hexValue b).getD 0 * 256 + (hexValue c).getD 0 * 16 + (hexValue d).getD 0

/-- Reads one escaped character off the front of a text, as its code point. -/
def unescape : List Char → Option (Nat × List Char)
  | '\\' :: 'u' :: a :: b :: c :: d :: t =>
    let hi := hexValue4 a b c d
    if 0xd800 ≤ hi ∧ hi < 0xdc00 then
      match t with
      | '\\' :: 'u' :: a :: b :: c :: d :: t => some ((hi - 0xd800) * 1024 + (hexValue4 a b c d - 0xdc00) + 65536, t)
      | _ => none
    else some (hi, t)
  | '\\' :: x :: t =>
    (match x with
      | '"' => some 34 | '\\' => some 92 | 'n' => some 10 | 'r' => some 13
      | 't' => some 9 | 'f' => some 12 | 'b' => some 8 | _ => none).map fun n => (n, t)
  | c :: t => some (c.toNat, t)
  | [] => none

theorem hexValue4_hex4 {n : Nat} (h : n < 65536) :
    hexValue4 (hexDigit (n / 4096 % 16)) (hexDigit (n / 256 % 16)) (hexDigit (n / 16 % 16)) (hexDigit (n % 16)) = n := by
  unfold hexValue4
  rw [hexValue_hexDigit (by omega), hexValue_hexDigit (by omega), hexValue_hexDigit (by omega),
    hexValue_hexDigit (by omega)]
  simp only [Option.getD_some]
  omega

theorem unescape_short {n : Nat} {x : Char} (h : shortEscape n = some x) (r : List Char) :
    unescape ('\\' :: x :: r) = some (n, r) := by
  unfold shortEscape at h
  split at h
  · rename_i hn; cases h; subst hn; rfl
  split at h
  · rename_i hn; cases h; subst hn; rfl
  split at h
  · rename_i hn; cases h; subst hn; rfl
  split at h
  · rename_i hn; cases h; subst hn; rfl
  split at h
  · rename_i hn; cases h; subst hn; rfl
  split at h
  · rename_i hn; cases h; subst hn; rfl
  split at h
  · rename_i hn; cases h; subst hn; rfl
  cases h

theorem unescape_plain {c : Char} (h : shortEscape c.toNat = none) (r : List Char) :
    unescape (c :: r) = some (c.toNat, r) := by
  have hc : c ≠ '\\' := by rintro rfl; revert h; decide
  unfold unescape
  split
  · rename_i he; cases he; exact absurd rfl hc
  · rename_i he; cases he; exact absurd rfl hc
  · rename_i he; cases he; rfl
  · rename_i he; cases he

theorem unescape_unicode {n : Nat} (h : n < 65536) (hs : ¬ (0xd800 ≤ n ∧ n < 0xdc00)) (r : List Char) :
    unescape (unicodeEscape n ++ r) = some (n, r) := by
  simp only [unicodeEscape, hex4, List.cons_append, List.nil_append, unescape, hexValue4_hex4 h, if_neg hs]

theorem unescape_pair {m : Nat} (h : m < 1048576) (r : List Char) :
    unescape (unicodeEscape (0xd800 + m / 1024) ++ unicodeEscape (0xdc00 + m % 1024) ++ r) =
      some (m + 65536, r) := by
  have h₁ : 0xd800 + m / 1024 < 65536 := by omega
  have h₂ : 0xdc00 + m % 1024 < 65536 := by omega
  have hs : 0xd800 ≤ 0xd800 + m / 1024 ∧ 0xd800 + m / 1024 < 0xdc00 := by omega
  have hm : (0xd800 + m / 1024 - 0xd800) * 1024 + (0xdc00 + m % 1024 - 0xdc00) + 65536 = m + 65536 := by omega
  simp only [unicodeEscape, hex4, List.cons_append, List.nil_append, unescape, hexValue4_hex4 h₁,
    hexValue4_hex4 h₂, if_pos hs, hm]

theorem char_not_surrogate (c : Char) : ¬ (0xd800 ≤ c.toNat ∧ c.toNat < 0xdc00) := by
  have := c.valid
  rw [UInt32.isValidChar, Nat.isValidChar] at this
  unfold Char.toNat
  omega

theorem char_lt (c : Char) : c.toNat < 1114112 := by
  have := c.valid
  rw [UInt32.isValidChar, Nat.isValidChar] at this
  unfold Char.toNat
  omega

theorem unescape_escapeAscii (c : Char) (r : List Char) : unescape (escapeAscii c ++ r) = some (c.toNat, r) := by
  cases hs : shortEscape c.toNat with
  | some x =>
    simp only [escapeAscii, hs]
    exact unescape_short hs r
  | none =>
    simp only [escapeAscii, hs]
    split
    · exact unescape_plain hs r
    · split
      · rename_i h; exact unescape_unicode h (char_not_surrogate c) r
      · have hc := char_lt c
        rw [unescape_pair (m := c.toNat - 65536) (by omega), show c.toNat - 65536 + 65536 = c.toNat by omega]

theorem unescape_escapeUnicode (c : Char) (r : List Char) :
    unescape (escapeUnicode c ++ r) = some (c.toNat, r) := by
  cases hs : shortEscape c.toNat with
  | some x =>
    simp only [escapeUnicode, hs]
    exact unescape_short hs r
  | none =>
    simp only [escapeUnicode, hs]
    split
    · exact unescape_unicode (by omega) (char_not_surrogate c) r
    · exact unescape_plain hs r

/-- Escapes that can be read back, and that never start like the closing quote. -/
structure Escapes (escape : Char → List Char) : Prop where
  split : ∀ {c d : Char} {r s : List Char}, escape c ++ r = escape d ++ s → c = d ∧ r = s
  open_ : ∀ {c : Char} {r s : List Char}, escape c ++ r ≠ '"' :: s

theorem escapes_of_unescape {escape : Char → List Char}
    (h : ∀ c r, unescape (escape c ++ r) = some (c.toNat, r))
    (hq : ∀ c, ∃ x t, escape c = x :: t ∧ x ≠ '"') : Escapes escape where
  split := by
    intro c d r s he
    have := h c r
    rw [he, h d s, Option.some.injEq, Prod.mk.injEq] at this
    exact ⟨Char.toNat_inj.mp this.1.symm, this.2.symm⟩
  open_ := by
    intro c r s he
    obtain ⟨x, t, hx, hn⟩ := hq c
    rw [hx, List.cons_append, List.cons.injEq] at he
    exact hn he.1

theorem plain_not_quote {c : Char} (h : shortEscape c.toNat = none) : c ≠ '"' := by
  rintro rfl; revert h; decide

theorem escapes_ascii : Escapes escapeAscii := by
  refine escapes_of_unescape unescape_escapeAscii fun c => ?_
  cases hs : shortEscape c.toNat with
  | some x =>
    simp only [escapeAscii, hs]
    exact ⟨_, _, rfl, by decide⟩
  | none =>
    simp only [escapeAscii, hs]
    split
    · exact ⟨_, _, rfl, plain_not_quote hs⟩
    · split <;> exact ⟨_, _, rfl, by decide⟩

theorem escapes_unicode : Escapes escapeUnicode := by
  refine escapes_of_unescape unescape_escapeUnicode fun c => ?_
  cases hs : shortEscape c.toNat with
  | some x =>
    simp only [escapeUnicode, hs]
    exact ⟨_, _, rfl, by decide⟩
  | none =>
    simp only [escapeUnicode, hs]
    split
    · exact ⟨_, _, rfl, by decide⟩
    · exact ⟨_, _, rfl, plain_not_quote hs⟩

/-! ## Numbers -/

/-- The characters of a number token. -/
def isNumChar (c : Char) : Bool := c.isDigit || c == '-' || c == '+' || c == '.' || c == 'e'

/-- What is assumed of the text of a float: Python's `repr` gives different texts
for different floats and never the text of an `int`. -/
structure FloatText (repr : φ → List Char) : Prop where
  inj : ∀ {x y}, repr x = repr y → x = y
  chars : ∀ x, ∀ c ∈ repr x, isNumChar c = true
  ne_nil : ∀ x, repr x ≠ []
  ne_int : ∀ x n, repr x ≠ intChars n

theorem floatText_empty (repr : Empty → List Char) : FloatText repr where
  inj := fun {x} => x.elim
  chars := fun x => x.elim
  ne_nil := fun x => x.elim
  ne_int := fun x => x.elim

theorem digitChar_inj {a b : Nat} (ha : a < 10) (hb : b < 10) (h : Nat.digitChar a = Nat.digitChar b) : a = b := by
  revert h
  interval_cases a <;> interval_cases b <;> decide

theorem toDigits_ne_nil (n : Nat) : Nat.toDigits 10 n ≠ [] := by
  rw [Nat.toDigits_eq_if (by decide)]
  split <;> simp

theorem toDigits_inj : ∀ (a b : Nat), Nat.toDigits 10 a = Nat.toDigits 10 b → a = b := by
  intro a
  induction a using Nat.strongRecOn with
  | ind a ih =>
    intro b h
    rw [Nat.toDigits_eq_if (by decide), Nat.toDigits_eq_if (n := b) (by decide)] at h
    split at h
    · rename_i ha
      split at h
      · rename_i hb
        exact digitChar_inj ha hb (List.singleton_inj.mp h)
      · have := congrArg List.length h
        have := List.length_pos_of_ne_nil (toDigits_ne_nil (b / 10))
        simp at *
    · rename_i ha
      split at h
      · have := congrArg List.length h
        have := List.length_pos_of_ne_nil (toDigits_ne_nil (a / 10))
        simp at *
      · obtain ⟨hq, hr⟩ := List.append_inj' h rfl
        have hq := ih (a / 10) (by omega) _ hq
        have hr := digitChar_inj (Nat.mod_lt _ (by decide)) (Nat.mod_lt _ (by decide)) (List.singleton_inj.mp hr)
        omega

theorem toDigits_isDigit {n : Nat} {c : Char} (h : c ∈ Nat.toDigits 10 n) : c.isDigit = true :=
  Nat.isDigit_of_mem_toDigits (by decide) (by decide) h

theorem toDigits_ne_minus (n : Nat) (t : List Char) : Nat.toDigits 10 n ≠ '-' :: t := by
  intro h
  have : ('-' : Char) ∈ Nat.toDigits 10 n := h ▸ List.mem_cons_self ..
  exact absurd (toDigits_isDigit this) (by decide)

theorem intChars_inj {a b : Int} (h : intChars a = intChars b) : a = b := by
  cases a with
  | ofNat m =>
    cases b with
    | ofNat n => rw [toDigits_inj m n h]
    | negSucc n => exact absurd h (toDigits_ne_minus m _)
  | negSucc m =>
    cases b with
    | ofNat n => exact absurd h.symm (toDigits_ne_minus n _)
    | negSucc n =>
      have := toDigits_inj _ _ (List.cons.inj h).2
      rw [Nat.succ.inj this]

theorem intChars_chars (n : Int) : ∀ c ∈ intChars n, isNumChar c = true := by
  intro c hc
  unfold isNumChar
  cases n with
  | ofNat n => simp [toDigits_isDigit hc]
  | negSucc n =>
    rcases List.mem_cons.mp hc with rfl | hc
    · decide
    · simp [toDigits_isDigit hc]

theorem intChars_ne_nil (n : Int) : intChars n ≠ [] := by
  cases n with
  | ofNat n => exact toDigits_ne_nil n
  | negSucc n => exact List.cons_ne_nil _ _

/-! ## Splitting a text -/

def Delim (r : List Char) : Prop := ∀ c ∈ r.head?, isNumChar c = false

/-- A token ends where the first character outside its alphabet stands. -/
theorem token_split {x y r s : List Char} (hx : ∀ c ∈ x, isNumChar c = true) (hy : ∀ c ∈ y, isNumChar c = true)
    (hr : Delim r) (hs : Delim s) (h : x ++ r = y ++ s) : x = y ∧ r = s := by
  have take : ∀ {z t : List Char}, (∀ c ∈ z, isNumChar c = true) → Delim t → (z ++ t).takeWhile isNumChar = z := by
    intro z t hz ht
    rw [List.takeWhile_append_of_pos hz]
    cases t with
    | nil => simp
    | cons c t => simp [ht c rfl]
  have hxy : x = y := by rw [← take hx hr, h, take hy hs]
  subst hxy
  exact ⟨rfl, List.append_cancel_left h⟩

/-- What follows a value inside a text. -/
def Closed (r : List Char) : Prop := ∀ c ∈ r.head?, c = ',' ∨ c = ']' ∨ c = '}'

theorem Closed.delim {r : List Char} (h : Closed r) : Delim r := by
  intro c hc
  rcases h c hc with rfl | rfl | rfl <;> decide

theorem closed_nil : Closed [] := by
  intro c hc
  cases hc

theorem closed_cons {c : Char} (hc : c = ',' ∨ c = ']' ∨ c = '}') (r : List Char) : Closed (c :: r) := by
  intro d hd
  obtain rfl := Option.some.inj hd
  exact hc

theorem quoteTail_split {st : Style φ} (hE : Escapes st.escape) :
    ∀ {a b r s : List Char}, quoteTail st a ++ r = quoteTail st b ++ s → a = b ∧ r = s
  | [], [], r, s, h => ⟨rfl, (List.cons.inj h).2⟩
  | [], d :: b, r, s, h => by
    simp only [quoteTail, List.append_assoc] at h
    exact absurd h.symm hE.open_
  | c :: a, [], r, s, h => by
    simp only [quoteTail, List.append_assoc] at h
    exact absurd h hE.open_
  | c :: a, d :: b, r, s, h => by
    simp only [quoteTail, List.append_assoc] at h
    obtain ⟨rfl, h'⟩ := hE.split h
    obtain ⟨rfl, hr⟩ := quoteTail_split hE h'
    exact ⟨rfl, hr⟩

theorem quote_split {st : Style φ} (hE : Escapes st.escape) {a b : String} {r s : List Char}
    (h : quote st a ++ r = quote st b ++ s) : a = b ∧ r = s := by
  obtain ⟨ha, hr⟩ := quoteTail_split hE (List.cons.inj h).2
  exact ⟨String.toList_inj.mp ha, hr⟩

/-- What separates values must not look like part of a number. -/
structure Lawful (st : Style φ) : Prop where
  escapes : Escapes st.escape
  floats : FloatText st.repr
  itemSep : ∃ t, st.itemSep = ',' :: t

theorem lawful_compact {escape : Char → List Char} {repr : φ → List Char} (hE : Escapes escape)
    (hF : FloatText repr) : Lawful (compact escape repr) :=
  ⟨hE, hF, [], rfl⟩

def Json.kind : Json φ → Nat
  | .null => 0
  | .bool true => 1
  | .bool false => 2
  | .int _ => 3
  | .float _ => 3
  | .str _ => 4
  | .arr _ => 5
  | .obj _ => 6

def kindOf (c : Char) : Nat :=
  if isNumChar c then 3
  else if c = 'n' then 0
  else if c = 't' then 1
  else if c = 'f' then 2
  else if c = '"' then 4
  else if c = '[' then 5
  else if c = '{' then 6
  else 7

/-- How floats may be written: as numbers, or as words that no other value starts like. -/
structure Leaves (repr : φ → List Char) : Prop where
  head : ∀ x, ∃ c t, repr x = c :: t ∧ (kindOf c = 3 ∨ kindOf c = 7 ∧ c ≠ ']' ∧ c ≠ '}')
  split : ∀ {x y : φ} {r s : List Char}, Closed r → Closed s → repr x ++ r = repr y ++ s → x = y ∧ r = s
  ne_int : ∀ {x : φ} {n : Int} {r s : List Char}, Closed r → Closed s → repr x ++ r ≠ intChars n ++ s

theorem number_head {l : List Char} (hne : l ≠ []) (hnum : ∀ c ∈ l, isNumChar c = true) :
    ∃ c t, l = c :: t ∧ kindOf c = 3 := by
  cases l with
  | nil => exact absurd rfl hne
  | cons c t => exact ⟨c, t, rfl, by simp [kindOf, hnum c List.mem_cons_self]⟩

theorem FloatText.leaves {repr : φ → List Char} (hF : FloatText repr) : Leaves repr where
  head x := by
    obtain ⟨c, t, hx, hc⟩ := number_head (hF.ne_nil x) (hF.chars x)
    exact ⟨c, t, hx, .inl hc⟩
  split := by
    intro x y r s hr hs h
    obtain ⟨he, hrs⟩ := token_split (hF.chars x) (hF.chars y) hr.delim hs.delim h
    exact ⟨hF.inj he, hrs⟩
  ne_int := by
    intro x n r s hr hs h
    exact hF.ne_int x n (token_split (hF.chars x) (intChars_chars n) hr.delim hs.delim h).1

/-- A style in which the text of a value can be read back. -/
structure Readable (st : Style φ) : Prop where
  escapes : Escapes st.escape
  leaves : Leaves st.repr
  itemSep : ∃ t, st.itemSep = ',' :: t

theorem Lawful.readable {st : Style φ} (hL : Lawful st) : Readable st := ⟨hL.escapes, hL.floats.leaves, hL.itemSep⟩

section
variable {st : Style φ} (hL : Readable st)
include hL

/-- The first character of a value announces its kind, unless it is a float written as a word. -/
theorem render_head (v : Json φ) : ∃ c t, render st v = c :: t ∧
    (kindOf c = v.kind ∨ v.kind = 3 ∧ kindOf c = 7 ∧ c ≠ ']' ∧ c ≠ '}') := by
  cases v with
  | null => exact ⟨_, _, rfl, .inl rfl⟩
  | bool b => cases b <;> exact ⟨_, _, rfl, .inl rfl⟩
  | int n =>
    obtain ⟨c, t, hn, hc⟩ := number_head (intChars_ne_nil n) (intChars_chars n)
    exact ⟨c, t, hn, .inl hc⟩
  | float x =>
    obtain ⟨c, t, hx, hc⟩ := hL.leaves.head x
    exact ⟨c, t, hx, hc.imp id fun h => ⟨rfl, h⟩⟩
  | str s => exact ⟨_, _, rfl, .inl rfl⟩
  | arr l => cases l <;> exact ⟨_, _, rfl, .inl rfl⟩
  | obj l => cases l <;> exact ⟨_, _, rfl, .inl rfl⟩

theorem closed_items (t : Items φ) (r : List Char) : Closed (renderItems st t ++ r) := by
  cases t with
  | nil => exact closed_cons (by decide) _
  | cons v t =>
    obtain ⟨w, hw⟩ := hL.itemSep
    simp only [renderItems, hw, List.cons_append]
    exact closed_cons (by decide) _

theorem closed_fields (t : Fields φ) (r : List Char) : Closed (renderFields st t ++ r) := by
  cases t with
  | nil => exact closed_cons (by decide) _
  | cons k v t =>
    obtain ⟨w, hw⟩ := hL.itemSep
    simp only [renderFields, hw, List.cons_append]
    exact closed_cons (by decide) _

omit hL in
theorem kind_lt (v : Json φ) : v.kind < 7 := by
  rcases v with _ | (_ | _) | _ | _ | _ | _ | _ <;> simp [Json.kind]

theorem render_not_close (v : Json φ) {c : Char} (hc : c = ']' ∨ c = '}') {r s : List Char} :
    render st v ++ r ≠ c :: s := by
  intro h
  obtain ⟨d, t, hv, hd⟩ := render_head hL v
  rw [hv, List.cons_append, List.cons.injEq] at h
  obtain rfl := h.1
  rcases hd with hd | hd
  · have hkind : kindOf d = 7 := by rcases hc with rfl | rfl <;> decide
    have hlt := kind_lt v
    omega
  · rcases hc with hc | hc
    · exact hd.2.2.1 hc
    · exact hd.2.2.2 hc

theorem kind_eq {v w : Json φ} {r s : List Char} (h : render st v ++ r = render st w ++ s) : v.kind = w.kind := by
  obtain ⟨c, t, hv, hc⟩ := render_head hL v
  obtain ⟨d, u, hw, hd⟩ := render_head hL w
  rw [hv, hw, List.cons_append, List.cons_append, List.cons.injEq] at h
  have hcd : kindOf c = kindOf d := congrArg kindOf h.1
  have hvlt := kind_lt v
  have hwlt := kind_lt w
  omega

mutual
theorem render_split (v w : Json φ) {r s : List Char} (hr : Closed r) (hs : Closed s)
    (h : render st v ++ r = render st w ++ s) : v = w ∧ r = s := by
  have hk : v.kind = w.kind := kind_eq hL h
  match v, w with
  | .null, .null => exact ⟨rfl, List.append_cancel_left h⟩
  | .bool true, .bool true => exact ⟨rfl, List.append_cancel_left h⟩
  | .bool false, .bool false => exact ⟨rfl, List.append_cancel_left h⟩
  | .bool true, .bool false => cases hk
  | .bool false, .bool true => cases hk
  | .int m, .int n =>
    obtain ⟨he, hrs⟩ := token_split (intChars_chars m) (intChars_chars n) hr.delim hs.delim h
    exact ⟨by rw [intChars_inj he], hrs⟩
  | .float x, .float y =>
    obtain ⟨hxy, hrs⟩ := hL.leaves.split hr hs h
    exact ⟨by rw [hxy], hrs⟩
  | .int m, .float y => exact absurd h.symm (hL.leaves.ne_int hs hr)
  | .float x, .int n => exact absurd h (hL.leaves.ne_int hr hs)
  | .str a, .str b =>
    obtain ⟨hab, hrs⟩ := quote_split hL.escapes h
    exact ⟨by rw [hab], hrs⟩
  | .arr .nil, .arr .nil => exact ⟨rfl, List.append_cancel_left h⟩
  | .arr (.cons v t), .arr (.cons w u) =>
    simp only [render, List.cons_append, List.append_assoc, List.cons.injEq, true_and] at h
    obtain ⟨hvw, h₁⟩ := render_split v w (closed_items hL t r) (closed_items hL u s) h
    obtain ⟨htu, hrs⟩ := renderItems_split t u hr hs h₁
    exact ⟨by rw [hvw, htu], hrs⟩
  | .arr .nil, .arr (.cons w u) =>
    simp only [render, List.cons_append, List.nil_append, List.append_assoc, List.cons.injEq, true_and] at h
    exact absurd h.symm (render_not_close hL w (by decide))
  | .arr (.cons v t), .arr .nil =>
    simp only [render, List.cons_append, List.nil_append, List.append_assoc, List.cons.injEq, true_and] at h
    exact absurd h (render_not_close hL v (by decide))
  | .obj .nil, .obj .nil => exact ⟨rfl, List.append_cancel_left h⟩
  | .obj (.cons k v t), .obj (.cons l w u) =>
    simp only [render, List.cons_append, List.append_assoc, List.cons.injEq, true_and] at h
    obtain ⟨hkl, h₁⟩ := quote_split hL.escapes h
    obtain ⟨hvw, h₂⟩ := render_split v w (closed_fields hL t r) (closed_fields hL u s) (List.append_cancel_left h₁)
    obtain ⟨htu, hrs⟩ := renderFields_split t u hr hs h₂
    exact ⟨by rw [hkl, hvw, htu], hrs⟩
  | .obj .nil, .obj (.cons l w u) => simp [render, quote] at h
  | .obj (.cons k v t), .obj .nil => simp [render, quote] at h
theorem renderItems_split (t u : Items φ) {r s : List Char} (hr : Closed r) (hs : Closed s)
    (h : renderItems st t ++ r = renderItems st u ++ s) : t = u ∧ r = s := by
  obtain ⟨sep, hsep⟩ := hL.itemSep
  match t, u with
  | .nil, .nil => exact ⟨rfl, List.append_cancel_left h⟩
  | .cons v t, .cons w u =>
    simp only [renderItems, List.append_assoc] at h
    obtain ⟨hvw, h₁⟩ := render_split v w (closed_items hL t r) (closed_items hL u s) (List.append_cancel_left h)
    obtain ⟨htu, hrs⟩ := renderItems_split t u hr hs h₁
    exact ⟨by rw [hvw, htu], hrs⟩
  | .nil, .cons w u => simp [renderItems, hsep] at h
  | .cons v t, .nil => simp [renderItems, hsep] at h
theorem renderFields_split (t u : Fields φ) {r s : List Char} (hr : Closed r) (hs : Closed s)
    (h : renderFields st t ++ r = renderFields st u ++ s) : t = u ∧ r = s := by
  obtain ⟨sep, hsep⟩ := hL.itemSep
  match t, u with
  | .nil, .nil => exact ⟨rfl, List.append_cancel_left h⟩
  | .cons k v t, .cons l w u =>
    simp only [renderFields, List.append_assoc] at h
    obtain ⟨hkl, h₁⟩ := quote_split hL.escapes (List.append_cancel_left h)
    obtain ⟨hvw, h₂⟩ := render_split v w (closed_fields hL t r) (closed_fields hL u s) (List.append_cancel_left h₁)
    obtain ⟨htu, hrs⟩ := renderFields_split t u hr hs h₂
    exact ⟨by rw [hkl, hvw, htu], hrs⟩
  | .nil, .cons l w u => simp [renderFields, hsep] at h
  | .cons k v t, .nil => simp [renderFields, hsep] at h
end

theorem render_inj {v w : Json φ} (h : render st v = render st w) : v = w :=
  (render_split hL v w closed_nil closed_nil (congrArg (· ++ []) h)).1

theorem dumps_inj_of_readable {v w : Json φ} (h : dumps st v = dumps st w) : v.sortKeys = w.sortKeys :=
  render_inj hL (String.ofList_inj.mp h)

end

theorem dumps_inj {st : Style φ} (hL : Lawful st) {v w : Json φ} (h : dumps st v = dumps st w) : v.sortKeys = w.sortKeys :=
  dumps_inj_of_readable hL.readable h

/-! ## Sorted keys -/

def Fields.keys : Fields φ → List String
  | .nil => []
  | .cons k _ t => k :: t.keys

theorem keys_insert_congr {k : String} {v w : Json φ} :
    ∀ {f g : Fields φ}, f.keys = g.keys → (f.insert k v).keys = (g.insert k w).keys
  | .nil, .nil, _ => rfl
  | .cons a x t, .cons b y u, h => by
    obtain ⟨rfl, ht⟩ := List.cons.inj h
    unfold Fields.insert
    by_cases hk : k ≤ a
    · simp only [if_pos hk, Fields.keys, ht]
    · have ih : (t.insert k v).keys = (u.insert k w).keys := keys_insert_congr ht
      simp only [if_neg hk, Fields.keys, ih]
  | .nil, .cons _ _ _, h => nomatch h
  | .cons _ _ _, .nil, h => nomatch h

/-- Insertion looks at keys only, so it can be undone when both sides have the same ones. -/
theorem insert_inj {k : String} {v w : Json φ} :
    ∀ {f g : Fields φ}, f.keys = g.keys → f.insert k v = g.insert k w → v = w ∧ f = g
  | .nil, .nil, _, h => by
    cases h
    exact ⟨rfl, rfl⟩
  | .cons a x t, .cons b y u, hk, h => by
    obtain ⟨rfl, ht⟩ := List.cons.inj hk
    unfold Fields.insert at h
    by_cases hle : k ≤ a
    · simp only [if_pos hle] at h
      cases h
      exact ⟨rfl, rfl⟩
    · simp only [if_neg hle, Fields.cons.injEq, true_and] at h
      obtain ⟨hv, htu⟩ := insert_inj ht h.2
      exact ⟨hv, by rw [h.1, htu]⟩
  | .nil, .cons _ _ _, hk, _ => nomatch hk
  | .cons _ _ _, .nil, hk, _ => nomatch hk

theorem keys_sortKeys_congr {l m : List (String × Json φ)} (h : l.map Prod.fst = m.map Prod.fst) :
    (Fields.ofList l).sortKeys.keys = (Fields.ofList m).sortKeys.keys := by
  induction l generalizing m with
  | nil =>
    cases m with
    | nil => rfl
    | cons e m => cases h
  | cons e l ih =>
    cases m with
    | nil => cases h
    | cons e' m =>
      obtain ⟨k, v⟩ := e
      obtain ⟨k', v'⟩ := e'
      obtain ⟨rfl, ht⟩ := List.cons.inj h
      exact keys_insert_congr (ih ht)

/-- Two dictionaries with the same keys in the same order that sort alike have like values. -/
theorem sortKeys_dict {l m : List (String × Json φ)} (hk : l.map Prod.fst = m.map Prod.fst)
    (h : (dict l).sortKeys = (dict m).sortKeys) : l.map (fun e => e.2.sortKeys) = m.map fun e => e.2.sortKeys := by
  have hf : (Fields.ofList l).sortKeys = (Fields.ofList m).sortKeys := by
    simpa only [dict, Json.sortKeys, Json.obj.injEq] using h
  clear h
  induction l generalizing m with
  | nil =>
    cases m with
    | nil => rfl
    | cons e m => cases hk
  | cons e l ih =>
    cases m with
    | nil => cases hk
    | cons e' m =>
      obtain ⟨k, v⟩ := e
      obtain ⟨k', v'⟩ := e'
      obtain ⟨rfl, ht⟩ := List.cons.inj hk
      obtain ⟨hv, hlm⟩ := insert_inj (keys_sortKeys_congr ht) hf
      simp only [List.map_cons, hv, ih ht hlm]

theorem sortKeys_list {l m : List (Json φ)} (h : (list l).sortKeys = (list m).sortKeys) :
    l.map Json.sortKeys = m.map Json.sortKeys := by
  have hi : (Items.ofList l).sortKeys = (Items.ofList m).sortKeys := by
    simpa only [list, Json.sortKeys, Json.arr.injEq] using h
  clear h
  induction l generalizing m with
  | nil =>
    cases m with
    | nil => rfl
    | cons v m => cases hi
  | cons v l ih =>
    cases m with
    | nil => cases hi
    | cons w m =>
      simp only [Items.ofList, Items.sortKeys, Items.cons.injEq] at hi
      simp only [List.map_cons, hi.1, ih hi.2]

theorem map_eq_of_sortKeys {α β : Type} {row : α → Json φ} {g : α → β}
    (hg : ∀ x y, (row x).sortKeys = (row y).sortKeys → g x = g y) {l m : List α}
    (h : (l.map row).map Json.sortKeys = (m.map row).map Json.sortKeys) : l.map g = m.map g := by
  induction l generalizing m with
  | nil =>
    cases m with
    | nil => rfl
    | cons y m => cases h
  | cons x l ih =>
    cases m with
    | nil => cases h
    | cons y m =>
      obtain ⟨hx, hl⟩ := List.cons.inj h
      rw [List.map_cons, List.map_cons, hg x y hx, ih hl]

end JsonText
