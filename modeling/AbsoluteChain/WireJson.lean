import AbsoluteChain.JsonSound

/-!
# Reading JSON text

`json.loads`. `loads_render`: the text of a value is read back as that value, in every style whose separators are a
comma and a colon with blanks behind them. `loads_prefix`: an object's text that breaks off anywhere is not read.
-/

namespace JsonText

open Python

variable {φ : Type}

/-! ## Tokens -/

def isBlank (c : Char) : Bool := c == ' ' || c == '\t' || c == '\n' || c == '\r'

def skipBlanks (l : List Char) : List Char := l.dropWhile isBlank

def shortChar : Char → Option Char
  | '"' => some '"'
  | '\\' => some '\\'
  | '/' => some '/'
  | 'n' => some '\n'
  | 'r' => some '\r'
  | 't' => some '\t'
  | 'f' => some (Char.ofNat 12)
  | 'b' => some (Char.ofNat 8)
  | _ => none

/-- The four digits of an escape. -/
def scanHex4 : List Char → Option (Nat × List Char)
  | a :: b :: c :: d :: t =>
    match hexValue a, hexValue b, hexValue c, hexValue d with
    | some a, some b, some c, some d => some (a * 4096 + b * 256 + c * 16 + d, t)
    | _, _, _, _ => none
  | _ => none

/-- The rest of an escape after its `u`. A surrogate that is not one of a pair is no character. -/
def scanUnicode (l : List Char) : Option (Char × List Char) :=
  match scanHex4 l with
  | none => none
  | some (hi, t) =>
    if 0xd800 ≤ hi ∧ hi < 0xdc00 then
      match t with
      | '\\' :: 'u' :: t =>
        match scanHex4 t with
        | none => none
        | some (lo, t) =>
          if 0xdc00 ≤ lo ∧ lo < 0xe000 then some (Char.ofNat (0x10000 + (hi - 0xd800) * 1024 + (lo - 0xdc00)), t)
          else none
      | _ => none
    else if 0xdc00 ≤ hi ∧ hi < 0xe000 then none
    else some (Char.ofNat hi, t)

/-- A character of a string literal. -/
def scanChar : List Char → Option (Char × List Char)
  | [] => none
  | c :: t =>
    if c = '\\' then
      match t with
      | [] => none
      | x :: t => if x = 'u' then scanUnicode t else (shortChar x).map fun d => (d, t)
    else if c.toNat < 32 then none
    else some (c, t)

def scanString : Nat → List Char → Option (List Char × List Char)
  | 0, _ => none
  | _ + 1, [] => none
  | n + 1, c :: t =>
    if c = '"' then some ([], t)
    else
      match scanChar (c :: t) with
      | none => none
      | some (d, r) => (scanString n r).map fun p => (d :: p.1, p.2)

def natOfDigits (l : List Char) : Nat := l.foldl (fun n c => n * 10 + (c.toNat - 48)) 0

/-- The optional part of a number that starts with `mark`: `none` where no digit follows. -/
def scanDigits (l : List Char) : List Char := l.takeWhile Char.isDigit

def scanFraction : List Char → List Char
  | '.' :: t => if scanDigits t = [] then [] else '.' :: scanDigits t
  | _ => []

def scanExponent : List Char → List Char
  | [] => []
  | e :: t =>
    if e = 'e' ∨ e = 'E' then
      match t with
      | [] => []
      | s :: u =>
        if s = '-' ∨ s = '+' then if scanDigits u = [] then [] else e :: s :: scanDigits u
        else if scanDigits t = [] then [] else e :: scanDigits t
    else []

def scanInteger : List Char → List Char
  | '0' :: _ => ['0']
  | l => scanDigits l

def scanWord (read : List Char → φ) : List Char → Option (Json φ × List Char)
  | 'N' :: 'a' :: 'N' :: t => some (.float (read ['N', 'a', 'N']), t)
  | 'I' :: 'n' :: 'f' :: 'i' :: 'n' :: 'i' :: 't' :: 'y' :: t =>
    some (.float (read ['I', 'n', 'f', 'i', 'n', 'i', 't', 'y']), t)
  | '-' :: 'I' :: 'n' :: 'f' :: 'i' :: 'n' :: 'i' :: 't' :: 'y' :: t =>
    some (.float (read ['-', 'I', 'n', 'f', 'i', 'n', 'i', 't', 'y']), t)
  | _ => none

def signOf : List Char → List Char
  | '-' :: _ => ['-']
  | _ => []

def scanNumber (read : List Char → φ) (l : List Char) : Option (Json φ × List Char) :=
  let sign := signOf l
  let digits := scanInteger (l.drop sign.length)
  if digits = [] then scanWord read l
  else
    let rest := l.drop (sign.length + digits.length)
    let fraction := scanFraction rest
    let exponent := scanExponent (rest.drop fraction.length)
    if fraction = [] ∧ exponent = [] then
      some (.int (if sign = [] then natOfDigits digits else -natOfDigits digits), rest)
    else some (.float (read (sign ++ digits ++ fraction ++ exponent)), rest.drop (fraction.length + exponent.length))

/-! ## Values -/

def Fields.assign (k : String) (v : Json φ) : Fields φ → Fields φ
  | .nil => .cons k v .nil
  | .cons j w t => if j = k then .cons j v t else .cons j w (Fields.assign k v t)

/-- The dictionary of a list of pairs: of two pairs with one key the later gives the value. -/
def Fields.assignAll : Fields φ → Fields φ → Fields φ
  | acc, .nil => acc
  | acc, .cons k v t => Fields.assignAll (acc.assign k v) t

mutual
def parseValue (read : List Char → φ) : Nat → List Char → Option (Json φ × List Char)
  | 0, _ => none
  | n + 1, l =>
    match l with
    | '"' :: t => (scanString (t.length + 1) t).map fun p => (.str (String.ofList p.1), p.2)
    | '[' :: t =>
      match skipBlanks t with
      | ']' :: r => some (.arr .nil, r)
      | r => (parseItems read n r).map fun p => (.arr p.1, p.2)
    | '{' :: t =>
      match skipBlanks t with
      | '}' :: r => some (.obj .nil, r)
      | r => (parseFields read n r).map fun p => (.obj (Fields.assignAll .nil p.1), p.2)
    | 'n' :: 'u' :: 'l' :: 'l' :: t => some (.null, t)
    | 't' :: 'r' :: 'u' :: 'e' :: t => some (.bool true, t)
    | 'f' :: 'a' :: 'l' :: 's' :: 'e' :: t => some (.bool false, t)
    | l => scanNumber read l
def parseItems (read : List Char → φ) : Nat → List Char → Option (Items φ × List Char)
  | 0, _ => none
  | n + 1, l =>
    match parseValue read n l with
    | none => none
    | some (v, r) =>
      match skipBlanks r with
      | ']' :: r => some (.cons v .nil, r)
      | ',' :: r => (parseItems read n (skipBlanks r)).map fun p => (.cons v p.1, p.2)
      | _ => none
/-- The members of an object from its first on, and the closing brace. -/
def parseFields (read : List Char → φ) : Nat → List Char → Option (Fields φ × List Char)
  | 0, _ => none
  | n + 1, l =>
    match l with
    | '"' :: t =>
      match scanString (t.length + 1) t with
      | none => none
      | some (k, r) =>
        match skipBlanks r with
        | ':' :: r =>
          match parseValue read n (skipBlanks r) with
          | none => none
          | some (v, r) =>
            match skipBlanks r with
            | '}' :: r => some (.cons (String.ofList k) v .nil, r)
            | ',' :: r => (parseFields read n (skipBlanks r)).map fun p => (.cons (String.ofList k) v p.1, p.2)
            | _ => none
        | _ => none
    | _ => none
end

def loads (read : List Char → φ) (l : List Char) : Option (Json φ) :=
  match parseValue read (l.length + 1) (skipBlanks l) with
  | some (v, r) => if skipBlanks r = [] then some v else none
  | none => none

/-! ## Reading a string back -/

theorem scanHex4_hex4 {n : Nat} (h : n < 65536) (r : List Char) : scanHex4 (hex4 n ++ r) = some (n, r) := by
  simp only [hex4, List.cons_append, List.nil_append, scanHex4]
  rw [hexValue_hexDigit (by omega), hexValue_hexDigit (by omega), hexValue_hexDigit (by omega),
    hexValue_hexDigit (by omega)]
  simp only [Option.some.injEq, Prod.mk.injEq, and_true]
  omega

theorem scanChar_short {c x : Char} (h : shortEscape c.toNat = some x) (r : List Char) :
    scanChar ('\\' :: x :: r) = some (c, r) := by
  have hkey : x ≠ 'u' ∧ shortChar x = some c := by
    unfold shortEscape at h
    split at h
    · rename_i hn; cases h; rw [Char.toNat_inj.mp (hn.trans (by rfl : 34 = Char.toNat '"'))]; decide
    split at h
    · rename_i hn; cases h; rw [Char.toNat_inj.mp (hn.trans (by rfl : 92 = Char.toNat '\\'))]; decide
    split at h
    · rename_i hn; cases h; rw [Char.toNat_inj.mp (hn.trans (by rfl : 10 = Char.toNat '\n'))]; decide
    split at h
    · rename_i hn; cases h; rw [Char.toNat_inj.mp (hn.trans (by rfl : 13 = Char.toNat '\r'))]; decide
    split at h
    · rename_i hn; cases h; rw [Char.toNat_inj.mp (hn.trans (by rfl : 9 = Char.toNat '\t'))]; decide
    split at h
    · rename_i hn; cases h; rw [Char.toNat_inj.mp (hn.trans (by rfl : 12 = Char.toNat (Char.ofNat 12)))]; decide
    split at h
    · rename_i hn; cases h; rw [Char.toNat_inj.mp (hn.trans (by rfl : 8 = Char.toNat (Char.ofNat 8)))]; decide
    cases h
  simp only [scanChar, if_neg hkey.1, hkey.2, Option.map_some, if_true]

theorem scanChar_plain {c : Char} (h : shortEscape c.toNat = none) (hc : ¬ c.toNat < 32) (r : List Char) :
    scanChar (c :: r) = some (c, r) := by
  have hne : c ≠ '\\' := by rintro rfl; revert h; decide
  simp only [scanChar, if_neg hne, if_neg hc]

theorem char_not_low (c : Char) : ¬ (0xdc00 ≤ c.toNat ∧ c.toNat < 0xe000) := by
  have := c.valid
  rw [UInt32.isValidChar, Nat.isValidChar] at this
  unfold Char.toNat
  omega

theorem scanChar_unicode {c : Char} (h : c.toNat < 65536) (r : List Char) :
    scanChar (unicodeEscape c.toNat ++ r) = some (c, r) := by
  have hs := char_not_surrogate c
  have hlow : ¬ (0xdc00 ≤ c.toNat ∧ c.toNat < 0xe000) := char_not_low c
  simp only [unicodeEscape, List.cons_append, scanChar, if_true, scanUnicode, scanHex4_hex4 h, if_neg hs, if_neg hlow,
    Char.ofNat_toNat]

theorem scanUnicode_pair {hi lo : Nat} (hhi : 0xd800 ≤ hi ∧ hi < 0xdc00) (hlo : 0xdc00 ≤ lo ∧ lo < 0xe000)
    (r : List Char) : scanUnicode (hex4 hi ++ '\\' :: 'u' :: (hex4 lo ++ r)) =
      some (Char.ofNat (0x10000 + (hi - 0xd800) * 1024 + (lo - 0xdc00)), r) := by
  unfold scanUnicode
  rw [scanHex4_hex4 (by omega)]
  simp only [if_pos hhi]
  rw [scanHex4_hex4 (by omega)]
  simp only [if_pos hlo]

theorem scanChar_pair {c : Char} (h : 65536 ≤ c.toNat) (r : List Char) :
    scanChar (unicodeEscape (0xd800 + (c.toNat - 65536) / 1024) ++
      unicodeEscape (0xdc00 + (c.toNat - 65536) % 1024) ++ r) = some (c, r) := by
  have hc := char_lt c
  obtain ⟨hi, hhi⟩ : ∃ hi, hi = 0xd800 + (c.toNat - 65536) / 1024 := ⟨_, rfl⟩
  obtain ⟨lo, hlo⟩ : ∃ lo, lo = 0xdc00 + (c.toNat - 65536) % 1024 := ⟨_, rfl⟩
  have hsum : 0x10000 + (hi - 0xd800) * 1024 + (lo - 0xdc00) = c.toNat := by omega
  rw [← hhi, ← hlo]
  simp only [unicodeEscape, List.cons_append, List.append_assoc, scanChar, if_true]
  rw [scanUnicode_pair (by omega) (by omega), hsum, Char.ofNat_toNat]

/-- Escapes that are read back. -/
structure Scans (escape : Char → List Char) : Prop where
  escapes : Escapes escape
  scan : ∀ c r, scanChar (escape c ++ r) = some (c, r)

theorem Scans.ne_nil {escape : Char → List Char} (h : Scans escape) (c : Char) : escape c ≠ [] := by
  intro hc
  have hscan := h.scan c []
  rw [hc] at hscan
  cases hscan

theorem scans_ascii : Scans escapeAscii where
  escapes := escapes_ascii
  scan c r := by
    cases hs : shortEscape c.toNat with
    | some x =>
      simp only [escapeAscii, hs]
      exact scanChar_short hs r
    | none =>
      simp only [escapeAscii, hs]
      split
      · exact scanChar_plain hs (by omega) r
      · split
        · rename_i h; exact scanChar_unicode h r
        · exact scanChar_pair (by omega) r

theorem quoteTail_pos {st : Style φ} (hE : Scans st.escape) (l : List Char) : 0 < (quoteTail st l).length := by
  cases l with
  | nil => exact Nat.succ_pos _
  | cons c l =>
    rw [quoteTail, List.length_append]
    have := List.length_pos_iff.mpr (hE.ne_nil c)
    omega

theorem scanString_quoteTail {st : Style φ} (hE : Scans st.escape) : ∀ (l : List Char) {n : Nat} (r : List Char),
    (quoteTail st l).length ≤ n → scanString n (quoteTail st l ++ r) = some (l, r) := by
  intro l
  induction l with
  | nil =>
    intro n r hn
    cases n with
    | zero => simp [quoteTail] at hn
    | succ n => simp [quoteTail, scanString]
  | cons c l ih =>
    intro n r hn
    have hscan := hE.scan c (quoteTail st l ++ r)
    have hquote : ∀ s, st.escape c ++ (quoteTail st l ++ r) ≠ '"' :: s := fun s => hE.escapes.open_
    cases n with
    | zero => exact absurd (quoteTail_pos hE (c :: l)) (by omega)
    | succ n =>
      simp only [quoteTail, List.append_assoc, List.length_append] at hn ⊢
      cases he : st.escape c with
      | nil => exact absurd he (hE.ne_nil c)
      | cons x t =>
        rw [he, List.cons_append] at hscan hquote
        have hx : x ≠ '"' := fun h => hquote _ (by rw [h])
        rw [he, List.length_cons] at hn
        rw [List.cons_append]
        simp only [scanString, if_neg hx, hscan, ih (n := n) r (by omega), Option.map_some]

/-! ## Reading a number back -/

theorem natOfDigits_toDigits (n : Nat) : natOfDigits (Nat.toDigits 10 n) = n := by
  induction n using Nat.strongRecOn with
  | ind n ih =>
    rw [Nat.toDigits_eq_if (by decide)]
    split
    · rename_i h
      interval_cases n <;> rfl
    · have hrec := ih (n / 10) (by omega)
      unfold natOfDigits at hrec ⊢
      have hdigit : (Nat.digitChar (n % 10)).toNat - 48 = n % 10 := by
        have hlt : n % 10 < 10 := Nat.mod_lt _ (by decide)
        interval_cases n % 10 <;> rfl
      rw [List.foldl_append, hrec]
      simp only [List.foldl_cons, List.foldl_nil, hdigit]
      omega

theorem toDigits_head {n : Nat} (h : 0 < n) (t : List Char) : Nat.toDigits 10 n ≠ '0' :: t := by
  induction n using Nat.strongRecOn generalizing t with
  | ind n ih =>
    rw [Nat.toDigits_eq_if (by decide)]
    split
    · interval_cases n <;> simp [Nat.digitChar]
    · intro he
      cases hq : Nat.toDigits 10 (n / 10) with
      | nil => exact toDigits_ne_nil _ hq
      | cons c u =>
        rw [hq, List.cons_append, List.cons.injEq] at he
        exact ih (n / 10) (by omega) (by omega) u (by rw [hq, he.1])

theorem scanDigits_append {l r : List Char} (hl : ∀ c ∈ l, c.isDigit = true) (hr : ∀ c ∈ r.head?, c.isDigit = false) :
    scanDigits (l ++ r) = l := by
  unfold scanDigits
  rw [List.takeWhile_append_of_pos hl]
  cases r with
  | nil => simp
  | cons c t => simp [hr c rfl]

theorem Closed.notDigit {r : List Char} (h : Closed r) : ∀ c ∈ r.head?, c.isDigit = false := by
  intro c hc
  rcases h c hc with rfl | rfl | rfl <;> decide

theorem scanInteger_toDigits (n : Nat) {r : List Char} (hr : Closed r) :
    scanInteger (Nat.toDigits 10 n ++ r) = Nat.toDigits 10 n := by
  have hdigits := scanDigits_append (fun c hc => toDigits_isDigit (n := n) hc) hr.notDigit
  rcases Nat.eq_zero_or_pos n with rfl | hn
  · rfl
  · cases hl : Nat.toDigits 10 n with
    | nil => exact absurd hl (toDigits_ne_nil n)
    | cons c t =>
      have hc : c ≠ '0' := fun h => toDigits_head hn t (by rw [hl, h])
      rw [hl, List.cons_append] at hdigits
      rw [List.cons_append]
      unfold scanInteger
      split
      · rename_i he
        exact absurd (List.cons.inj he).1 hc
      · exact hdigits

theorem scanFraction_closed {r : List Char} (hr : Closed r) : scanFraction r = [] := by
  unfold scanFraction
  split
  · rename_i t
    exact absurd (hr '.' rfl) (by decide)
  · rfl

theorem scanExponent_closed {r : List Char} (hr : Closed r) : scanExponent r = [] := by
  cases r with
  | nil => rfl
  | cons c t =>
    have hc : ¬ (c = 'e' ∨ c = 'E') := by
      rcases hr c rfl with rfl | rfl | rfl <;> decide
    simp only [scanExponent, if_neg hc]

theorem scanNumber_int (read : List Char → φ) (n : Int) {r : List Char} (hr : Closed r) :
    scanNumber read (intChars n ++ r) = some (.int n, r) := by
  cases n with
  | ofNat m =>
    have hsign : signOf (intChars (.ofNat m) ++ r) = [] := by
      cases hl : Nat.toDigits 10 m with
      | nil => exact absurd hl (toDigits_ne_nil m)
      | cons c t =>
        have hc : c ≠ '-' := fun h => toDigits_ne_minus m t (by rw [hl, h])
        simp only [intChars, hl, List.cons_append]
        unfold signOf
        split
        · rename_i he
          exact absurd (List.cons.inj he).1 hc
        · rfl
    simp only [scanNumber, hsign, List.length_nil, List.drop_zero, Nat.zero_add]
    simp only [intChars, scanInteger_toDigits m hr, if_neg (toDigits_ne_nil m), List.drop_left, scanFraction_closed hr,
      List.length_nil, List.drop_zero, scanExponent_closed hr, and_self, if_true, natOfDigits_toDigits]
    rfl
  | negSucc m =>
    simp only [scanNumber, intChars, List.cons_append, signOf, List.length_singleton,
      scanInteger_toDigits (m + 1) hr, if_neg (toDigits_ne_nil (m + 1)), Nat.add_comm 1, List.drop_succ_cons,
      List.drop_left, scanFraction_closed hr, List.length_nil, List.drop_zero, scanExponent_closed hr, and_self, if_true,
      natOfDigits_toDigits, List.cons_ne_nil, if_false]
    rfl

/-- The characters a number can start with. -/
def NumberHead (c : Char) : Prop := c = '-' ∨ c.isDigit = true ∨ c = 'N' ∨ c = 'I'

theorem scanNumber_head {read : List Char → φ} {l : List Char} {p : Json φ × List Char}
    (h : scanNumber read l = some p) : ∃ c t, l = c :: t ∧ NumberHead c := by
  cases l with
  | nil => cases h
  | cons c t =>
    refine ⟨c, t, rfl, ?_⟩
    by_cases hc : c = '-'
    · exact .inl hc
    have hsign : signOf (c :: t) = [] := by
      unfold signOf
      split
      · rename_i he
        exact absurd (List.cons.inj he).1 hc
      · rfl
    simp only [scanNumber, hsign, List.length_nil, List.drop_zero] at h
    split at h
    · unfold scanWord at h
      split at h
      · rename_i he; exact .inr (.inr (.inl (List.cons.inj he).1))
      · rename_i he; exact .inr (.inr (.inr (List.cons.inj he).1))
      · rename_i he; exact absurd (List.cons.inj he).1 hc
      · cases h
    · rename_i hdigits
      refine .inr (.inl ?_)
      by_cases hd : c.isDigit = true
      · exact hd
      · refine absurd ?_ hdigits
        unfold scanInteger
        split
        · rename_i he
          exact absurd (by rw [(List.cons.inj he).1]; decide) hd
        · simp [scanDigits, hd]

theorem parseValue_number {read : List Char → φ} {c : Char} (hc : NumberHead c) (n : Nat) (t : List Char) :
    parseValue read (n + 1) (c :: t) = scanNumber read (c :: t) := by
  have hne : c ≠ '"' ∧ c ≠ '[' ∧ c ≠ '{' ∧ c ≠ 'n' ∧ c ≠ 't' ∧ c ≠ 'f' := by
    rcases hc with rfl | hc | rfl | rfl
    · decide
    · refine ⟨?_, ?_, ?_, ?_, ?_, ?_⟩ <;> (rintro rfl; revert hc; decide)
    · decide
    · decide
  obtain ⟨h₁, h₂, h₃, h₄, h₅, h₆⟩ := hne
  rw [parseValue] <;> intro t he
  · exact h₁ (List.cons.inj he).1
  · exact h₂ (List.cons.inj he).1
  · exact h₃ (List.cons.inj he).1
  · exact h₄ (List.cons.inj he).1
  · exact h₅ (List.cons.inj he).1
  · exact h₆ (List.cons.inj he).1

/-! ## Blanks -/

theorem skipBlanks_of_head {c : Char} (hc : isBlank c = false) (t : List Char) : skipBlanks (c :: t) = c :: t := by
  simp [skipBlanks, hc]

theorem skipBlanks_append {ws : List Char} (h : ∀ c ∈ ws, isBlank c = true) (l : List Char) :
    skipBlanks (ws ++ l) = skipBlanks l := by
  unfold skipBlanks
  induction ws with
  | nil => rfl
  | cons c ws ih =>
    rw [List.cons_append, List.dropWhile_cons_of_pos (h c List.mem_cons_self)]
    exact ih fun d hd => h d (List.mem_cons_of_mem _ hd)

theorem Closed.skipBlanks {r : List Char} (h : Closed r) : skipBlanks r = r := by
  cases r with
  | nil => rfl
  | cons c t =>
    refine skipBlanks_of_head ?_ t
    rcases h c rfl with rfl | rfl | rfl <;> decide

/-! ## Dictionaries -/

def Fields.append : Fields φ → Fields φ → Fields φ
  | .nil, f => f
  | .cons k v t, f => .cons k v (t.append f)

theorem Fields.assign_of_not_mem {k : String} {v : Json φ} : ∀ {f : Fields φ}, k ∉ f.keys →
    f.assign k v = f.append (.cons k v .nil)
  | .nil, _ => rfl
  | .cons j w t, h => by
    simp only [Fields.keys, List.mem_cons, not_or] at h
    rw [Fields.assign, if_neg fun hj => h.1 hj.symm, Fields.assign_of_not_mem h.2]
    rfl

theorem Fields.append_assoc : ∀ (f g h : Fields φ), (f.append g).append h = f.append (g.append h)
  | .nil, _, _ => rfl
  | .cons k v t, g, h => by simp only [Fields.append, Fields.append_assoc t g h]

theorem Fields.keys_append : ∀ (f g : Fields φ), (f.append g).keys = f.keys ++ g.keys
  | .nil, _ => rfl
  | .cons k v t, g => by simp only [Fields.append, Fields.keys, Fields.keys_append t g, List.cons_append]

theorem Fields.append_nil (f : Fields φ) : f.append .nil = f := by
  cases f with
  | nil => rfl
  | cons k v t => simp only [Fields.append, Fields.append_nil t]

theorem Fields.assignAll_eq : ∀ (f acc : Fields φ), (acc.keys ++ f.keys).Nodup → Fields.assignAll acc f = acc.append f
  | .nil, acc, _ => (Fields.append_nil acc).symm
  | .cons k v t, acc, h => by
    have hk : k ∉ acc.keys := fun hk => (List.nodup_append.mp h).2.2 k hk k List.mem_cons_self rfl
    have hnext : ((acc.assign k v).keys ++ t.keys).Nodup := by
      rw [Fields.assign_of_not_mem hk, Fields.keys_append, List.append_assoc]
      exact h
    rw [Fields.assignAll, Fields.assignAll_eq t _ hnext, Fields.assign_of_not_mem hk, Fields.append_assoc]
    rfl

mutual
def Json.Distinct : Json φ → Prop
  | .arr items => items.Distinct
  | .obj fields => fields.keys.Nodup ∧ fields.Distinct
  | _ => True
def Items.Distinct : Items φ → Prop
  | .nil => True
  | .cons v t => v.Distinct ∧ t.Distinct
def Fields.Distinct : Fields φ → Prop
  | .nil => True
  | .cons _ v t => v.Distinct ∧ t.Distinct
end

/-! ## Reading a value back -/

structure ReadsBack (read : List Char → φ) (st : Style φ) : Prop where
  scans : Scans st.escape
  floats : ∀ x {r}, Closed r → scanNumber read (st.repr x ++ r) = some (.float x, r)
  itemSep : ∃ ws, st.itemSep = ',' :: ws ∧ ∀ c ∈ ws, isBlank c = true
  keySep : ∃ ws, st.keySep = ':' :: ws ∧ ∀ c ∈ ws, isBlank c = true

section
variable {read : List Char → φ} {st : Style φ} (hR : ReadsBack read st)
include hR

theorem ReadsBack.repr_head (x : φ) : ∃ c t, st.repr x = c :: t ∧ NumberHead c := by
  have h := hR.floats x closed_nil
  rw [List.append_nil] at h
  exact scanNumber_head h

theorem render_start (v : Json φ) : ∃ c t, render st v = c :: t ∧ isBlank c = false ∧ c ≠ ']' ∧ c ≠ '}' := by
  cases v with
  | null => exact ⟨_, _, rfl, by decide⟩
  | bool b => cases b <;> exact ⟨_, _, rfl, by decide⟩
  | int n =>
    obtain ⟨c, t, hn⟩ := List.exists_cons_of_ne_nil (intChars_ne_nil n)
    have hc := intChars_chars n c (by rw [hn]; exact List.mem_cons_self)
    refine ⟨c, t, hn, ?_, ?_, ?_⟩
    · by_contra h
      simp only [Bool.not_eq_false, isBlank, Bool.or_eq_true, beq_iff_eq] at h
      rcases h with ((rfl | rfl) | rfl) | rfl <;> exact absurd hc (by decide)
    · rintro rfl; exact absurd hc (by decide)
    · rintro rfl; exact absurd hc (by decide)
  | float x =>
    obtain ⟨c, t, hx, hc⟩ := hR.repr_head x
    refine ⟨c, t, hx, ?_, ?_, ?_⟩
    · by_contra h
      simp only [Bool.not_eq_false, isBlank, Bool.or_eq_true, beq_iff_eq] at h
      rcases h with ((rfl | rfl) | rfl) | rfl <;> exact absurd hc (by unfold NumberHead; decide)
    · rintro rfl; exact absurd hc (by unfold NumberHead; decide)
    · rintro rfl; exact absurd hc (by unfold NumberHead; decide)
  | str s => exact ⟨_, _, rfl, by decide⟩
  | arr l => cases l <;> exact ⟨_, _, rfl, by decide⟩
  | obj l => cases l <;> exact ⟨_, _, rfl, by decide⟩

theorem skipBlanks_render (v : Json φ) (r : List Char) : skipBlanks (render st v ++ r) = render st v ++ r := by
  obtain ⟨c, t, hv, hc, -⟩ := render_start hR v
  rw [hv, List.cons_append, skipBlanks_of_head hc]

theorem closed_renderItems (t : Items φ) (r : List Char) : Closed (renderItems st t ++ r) := by
  cases t with
  | nil => exact closed_cons (by decide) _
  | cons v t =>
    obtain ⟨ws, hw, -⟩ := hR.itemSep
    simp only [renderItems, hw, List.cons_append]
    exact closed_cons (by decide) _

theorem closed_renderFields (t : Fields φ) (r : List Char) : Closed (renderFields st t ++ r) := by
  cases t with
  | nil => exact closed_cons (by decide) _
  | cons k v t =>
    obtain ⟨ws, hw, -⟩ := hR.itemSep
    simp only [renderFields, hw, List.cons_append]
    exact closed_cons (by decide) _

theorem render_pos (v : Json φ) : 0 < (render st v).length := by
  obtain ⟨c, t, hv, -⟩ := render_start hR v
  rw [hv]
  exact Nat.succ_pos _

omit hR in
theorem renderItems_pos (hsep : ∃ ws, st.itemSep = ',' :: ws) (t : Items φ) : 0 < (renderItems st t).length := by
  cases t with
  | nil => exact Nat.succ_pos _
  | cons v t =>
    obtain ⟨ws, hws⟩ := hsep
    simp only [renderItems, hws, List.cons_append, List.length_cons]
    exact Nat.succ_pos _

omit hR in
/-- What is proved of the three readers at once, by induction on the fuel. -/
structure ReadsAt (read : List Char → φ) (st : Style φ) (n : Nat) : Prop where
  value : ∀ v : Json φ, v.Distinct → (render st v).length ≤ n → ∀ {r}, Closed r →
    parseValue read n (render st v ++ r) = some (v, r)
  items : ∀ (w : Json φ) (t : Items φ), w.Distinct → t.Distinct → (render st w).length + (renderItems st t).length ≤ n →
    ∀ {r}, Closed r → parseItems read n (render st w ++ (renderItems st t ++ r)) = some (.cons w t, r)
  fields : ∀ (k : String) (w : Json φ) (t : Fields φ), w.Distinct → t.Distinct →
    (quote st k).length + (st.keySep.length + ((render st w).length + (renderFields st t).length)) ≤ n →
    ∀ {r}, Closed r → parseFields read n (quote st k ++ (st.keySep ++ (render st w ++ (renderFields st t ++ r)))) =
      some (.cons k w t, r)

theorem readsValue_succ {n : Nat} (ih : ReadsAt read st n) (v : Json φ) (hd : v.Distinct)
    (hn : (render st v).length ≤ n + 1) {r : List Char} (hr : Closed r) :
    parseValue read (n + 1) (render st v ++ r) = some (v, r) := by
  cases v with
  | null => simp [render, parseValue]
  | bool b => cases b <;> simp [render, parseValue]
  | int m =>
    obtain ⟨c, t, hm, hc⟩ := scanNumber_head (scanNumber_int read m hr)
    simp only [render, hm]
    rw [parseValue_number hc, ← hm, scanNumber_int read m hr]
  | float x =>
    obtain ⟨c, t, hx, hc⟩ := scanNumber_head (hR.floats x hr)
    simp only [render, hx]
    rw [parseValue_number hc, ← hx, hR.floats x hr]
  | str s =>
    simp only [render, quote, List.cons_append, parseValue]
    rw [scanString_quoteTail hR.scans s.toList r (by simp only [List.length_append]; omega)]
    simp
  | arr items =>
    cases items with
    | nil => simp [render, parseValue, skipBlanks, isBlank]
    | cons w t =>
      simp only [render, List.length_cons, List.length_append] at hn
      have hitems := ih.items w t hd.1 hd.2 (by omega) hr
      obtain ⟨c, u, hc, -, hclose, -⟩ := render_start hR w
      simp only [render, List.cons_append, List.append_assoc, parseValue]
      rw [skipBlanks_render hR]
      rw [hc, List.cons_append] at hitems ⊢
      split
      · rename_i he
        exact absurd (List.cons.inj he).1 hclose
      · rw [hitems]
        rfl
  | obj fields =>
    cases fields with
    | nil => simp [render, parseValue, skipBlanks, isBlank]
    | cons k w t =>
      simp only [render, List.length_cons, List.length_append] at hn
      have hfields := ih.fields k w t hd.2.1 hd.2.2 (by omega) hr
      have hdict : Fields.assignAll .nil (.cons k w t) = .cons k w t := Fields.assignAll_eq _ .nil hd.1
      simp only [render, List.cons_append, List.append_assoc, parseValue]
      simp only [quote, List.cons_append] at hfields ⊢
      rw [skipBlanks_of_head (by decide)]
      split
      · rename_i he
        exact absurd (List.cons.inj he).1 (by decide)
      · rw [hfields, Option.map_some, hdict]

theorem readsItems_succ {n : Nat} (ih : ReadsAt read st n) (w : Json φ) (t : Items φ) (hw : w.Distinct)
    (ht : t.Distinct) (hn : (render st w).length + (renderItems st t).length ≤ n + 1) {r : List Char}
    (hr : Closed r) : parseItems read (n + 1) (render st w ++ (renderItems st t ++ r)) = some (.cons w t, r) := by
  have hpos : 0 < (renderItems st t).length := renderItems_pos (hR.itemSep.imp fun _ h => h.1) t
  have hwpos := render_pos hR w
  have hv := ih.value w hw (by omega) (closed_renderItems hR t r)
  simp only [parseItems, hv]
  rw [(closed_renderItems hR t r).skipBlanks]
  cases t with
  | nil => simp [renderItems]
  | cons x u =>
    obtain ⟨ws, hws, hblanks⟩ := hR.itemSep
    simp only [renderItems, hws, List.cons_append, List.length_cons, List.length_append, List.append_assoc] at hn ⊢
    rw [skipBlanks_append hblanks, skipBlanks_render hR, ih.items x u ht.1 ht.2 (by omega) hr]
    rfl

theorem readsFields_succ {n : Nat} (ih : ReadsAt read st n) (k : String) (w : Json φ) (t : Fields φ)
    (hw : w.Distinct) (ht : t.Distinct)
    (hn : (quote st k).length + (st.keySep.length + ((render st w).length + (renderFields st t).length)) ≤ n + 1)
    {r : List Char} (hr : Closed r) :
    parseFields read (n + 1) (quote st k ++ (st.keySep ++ (render st w ++ (renderFields st t ++ r)))) =
      some (.cons k w t, r) := by
  obtain ⟨ks, hks, hkblanks⟩ := hR.keySep
  simp only [quote, List.length_cons] at hn
  have hv := ih.value w hw (by omega) (closed_renderFields hR t r)
  simp only [quote, List.cons_append, parseFields]
  rw [scanString_quoteTail hR.scans k.toList _ (by simp only [List.length_append]; omega)]
  simp only [hks, List.cons_append]
  rw [skipBlanks_of_head (by decide)]
  simp only
  rw [skipBlanks_append hkblanks, skipBlanks_render hR, hv]
  simp only
  rw [(closed_renderFields hR t r).skipBlanks]
  cases t with
  | nil => simp [renderFields]
  | cons j x u =>
    obtain ⟨ws, hws, hblanks⟩ := hR.itemSep
    simp only [renderFields, hws, List.cons_append, List.length_cons, List.length_append, List.append_assoc] at hn ⊢
    rw [skipBlanks_append hblanks]
    have hnext := ih.fields j x u ht.1 ht.2 (by omega) hr
    simp only [quote, List.cons_append] at hnext ⊢
    rw [skipBlanks_of_head (by decide), hnext]
    simp

theorem reads_at (n : Nat) : ReadsAt read st n := by
  induction n with
  | zero =>
    refine ⟨fun v _ hn => ?_, fun w t _ _ hn => ?_, fun k w t _ _ hn => ?_⟩
    · exact absurd (render_pos hR v) (by omega)
    · exact absurd (render_pos hR w) (by omega)
    · exact absurd (render_pos hR w) (by omega)
  | succ n ih => exact ⟨readsValue_succ hR ih, readsItems_succ hR ih, readsFields_succ hR ih⟩

theorem parseValue_render (v : Json φ) (hd : v.Distinct) {n : Nat} (hn : (render st v).length ≤ n) {r : List Char}
    (hr : Closed r) : parseValue read n (render st v ++ r) = some (v, r) :=
  (reads_at hR n).value v hd hn hr

theorem loads_render (v : Json φ) (hd : v.Distinct) : loads read (render st v) = some v := by
  have hv := parseValue_render hR v hd (Nat.le_succ _) closed_nil
  rw [List.append_nil] at hv
  have hskip := skipBlanks_render hR v []
  rw [List.append_nil] at hskip
  unfold loads
  rw [hskip, hv]
  rfl

end

/-! ## The usual text -/

structure Floats (φ : Type) where
  repr : φ → List Char
  read : List Char → φ
  reads : ∀ x {r}, Closed r → scanNumber read (repr x ++ r) = some (.float x, r)
  plain : ∀ x, ∀ c ∈ repr x, 32 < c.toNat ∧ c.toNat < 127 ∧ c ≠ ',' ∧ c ≠ ']' ∧ c ≠ '}'

def Floats.style (F : Floats φ) : Style φ := spaced escapeAscii F.repr

theorem Floats.readsBack (F : Floats φ) : ReadsBack F.read F.style where
  scans := scans_ascii
  floats := F.reads
  itemSep := ⟨[' '], rfl, by simp [isBlank]⟩
  keySep := ⟨[' '], rfl, by simp [isBlank]⟩

/-! ## Texts that break off -/

theorem prefix_append_cases {α : Type} {q a b : List α} (h : q <+: a ++ b) :
    (q <+: a ∧ q ≠ a) ∨ ∃ q', q = a ++ q' ∧ q' <+: b := by
  obtain ⟨t, ht⟩ := h
  rcases List.append_eq_append_iff.mp ht with ⟨c, hc, -⟩ | ⟨c, hq, hb⟩
  · by_cases hnil : c = []
    · exact .inr ⟨[], by rw [hc, hnil, List.append_nil, List.append_nil], List.nil_prefix⟩
    · refine .inl ⟨⟨c, hc.symm⟩, fun he => hnil ?_⟩
      rw [he] at hc
      exact List.self_eq_append_right.mp hc
  · exact .inr ⟨c, hq, ⟨t, hb.symm⟩⟩

theorem Closed.of_prefix {r q : List Char} (h : Closed r) (hq : q <+: r) : Closed q := by
  obtain ⟨t, rfl⟩ := hq
  cases q with
  | nil => exact closed_nil
  | cons c q => exact fun d hd => h d hd

theorem skipBlanks_subset (l : List Char) : ∀ c ∈ skipBlanks l, c ∈ l :=
  fun _ hc => (List.dropWhile_sublist _).mem hc

section
variable {read : List Char → φ}

theorem parseValue_nil (n : Nat) : parseValue read n [] = none := by
  cases n with
  | zero => rfl
  | succ n => simp [parseValue, scanNumber, signOf, scanInteger, scanDigits, scanWord]

theorem parseItems_nil (n : Nat) : parseItems read n [] = none := by
  cases n with
  | zero => rfl
  | succ n => simp only [parseItems, parseValue_nil]

theorem parseFields_nil (n : Nat) : parseFields read n [] = none := by
  cases n <;> rfl

section fuel
variable {n : Nat}

theorem parseValue_more (hitems : ∀ l p, parseItems read n l = some p → parseItems read (n + 1) l = some p)
    (hfields : ∀ l p, parseFields read n l = some p → parseFields read (n + 1) l = some p)
    {l : List Char} {p : Json φ × List Char} (h : parseValue read (n + 1) l = some p) :
    parseValue read (n + 1 + 1) l = some p := by
  unfold parseValue at h ⊢
  split at h
  · exact h
  -- a list
  · revert h
    split
    · exact id
    · intro h
      obtain ⟨q, hq, hp⟩ := Option.map_eq_some_iff.mp h
      rw [hitems _ q hq, ← hp]
      rfl
  -- an object
  · revert h
    split
    · exact id
    · intro h
      obtain ⟨q, hq, hp⟩ := Option.map_eq_some_iff.mp h
      rw [hfields _ q hq, ← hp]
      rfl
  · exact h
  · exact h
  · exact h
  · exact h

theorem parseItems_more (hvalue : ∀ l p, parseValue read n l = some p → parseValue read (n + 1) l = some p)
    (hitems : ∀ l p, parseItems read n l = some p → parseItems read (n + 1) l = some p)
    {l : List Char} {p : Items φ × List Char} (h : parseItems read (n + 1) l = some p) :
    parseItems read (n + 1 + 1) l = some p := by
  unfold parseItems at h ⊢
  cases hv : parseValue read n l with
  | none =>
    rw [hv] at h
    cases h
  | some q =>
    rw [hv] at h
    rw [hvalue l q hv]
    revert h
    simp only
    split
    · exact id
    · intro h
      obtain ⟨q', hq, hp⟩ := Option.map_eq_some_iff.mp h
      rw [hitems _ q' hq, ← hp]
      rfl
    · exact id

theorem parseFields_more (hvalue : ∀ l p, parseValue read n l = some p → parseValue read (n + 1) l = some p)
    (hfields : ∀ l p, parseFields read n l = some p → parseFields read (n + 1) l = some p)
    {l : List Char} {p : Fields φ × List Char} (h : parseFields read (n + 1) l = some p) :
    parseFields read (n + 1 + 1) l = some p := by
  unfold parseFields at h ⊢
  revert h
  split
  · split
    · exact id
    · split
      -- after the colon
      · rename_i r _
        cases hv : parseValue read n (skipBlanks r) with
        | none =>
          intro h
          cases h
        | some q =>
          rw [hvalue _ q hv]
          simp only
          split
          · exact id
          · intro h
            obtain ⟨q', hq, hp⟩ := Option.map_eq_some_iff.mp h
            rw [hfields _ q' hq, ← hp]
            rfl
          · exact id
      · exact id
  · exact id

end fuel

/-- More fuel changes nothing about what is read. -/
theorem parse_succ : ∀ n : Nat,
    (∀ l p, parseValue read n l = some p → parseValue read (n + 1) l = some p) ∧
    (∀ l p, parseItems read n l = some p → parseItems read (n + 1) l = some p) ∧
    (∀ l p, parseFields read n l = some p → parseFields read (n + 1) l = some p) := by
  intro n
  induction n with
  | zero =>
    refine ⟨?_, ?_, ?_⟩
    · intro l p h; cases h
    · intro l p h; cases h
    · intro l p h; cases h
  | succ n ih =>
    obtain ⟨hvalue, hitems, hfields⟩ := ih
    exact ⟨fun l p h => parseValue_more hitems hfields h, fun l p h => parseItems_more hvalue hitems h,
      fun l p h => parseFields_more hvalue hfields h⟩

theorem parseValue_mono {n m : Nat} (hnm : n ≤ m) {l : List Char} {p : Json φ × List Char}
    (h : parseValue read n l = some p) : parseValue read m l = some p := by
  induction hnm with
  | refl => exact h
  | step _ ih => exact (parse_succ _).1 l p ih

theorem scanNumber_subset {l : List Char} {p : Json φ × List Char} (h : scanNumber read l = some p) :
    ∀ c ∈ p.2, c ∈ l := by
  intro c hc
  simp only [scanNumber] at h
  split at h
  · unfold scanWord at h
    split at h <;> cases h <;> simp_all
  · split at h
    · cases h
      exact List.mem_of_mem_drop hc
    · cases h
      exact List.mem_of_mem_drop (List.mem_of_mem_drop hc)

end

theorem scanHex4_append {l : List Char} {n : Nat} {r : List Char} (h : scanHex4 l = some (n, r)) (s : List Char) :
    scanHex4 (l ++ s) = some (n, r ++ s) := by
  unfold scanHex4 at h
  split at h
  · simp only [List.cons_append, scanHex4]
    split at h
    · cases h
      rfl
    · cases h
  · cases h

theorem scanUnicode_append {l : List Char} {c : Char} {r : List Char} (h : scanUnicode l = some (c, r))
    (s : List Char) : scanUnicode (l ++ s) = some (c, r ++ s) := by
  unfold scanUnicode at h ⊢
  cases hx : scanHex4 l with
  | none =>
    rw [hx] at h
    cases h
  | some p =>
    rw [hx] at h
    rw [scanHex4_append hx]
    simp only at h ⊢
    split at h
    · rename_i hhi
      rw [if_pos hhi]
      split at h
      · rename_i t ht
        rw [ht]
        simp only [List.cons_append]
        cases hy : scanHex4 t with
        | none =>
          rw [hy] at h
          cases h
        | some p' =>
          rw [hy] at h
          rw [scanHex4_append hy]
          simp only at h ⊢
          split at h
          · rename_i hlo
            obtain ⟨hc, hr⟩ := Prod.mk.inj (Option.some.inj h)
            rw [if_pos hlo, hc, hr]
          · cases h
      · cases h
    · rename_i hhi
      rw [if_neg hhi]
      split at h
      · cases h
      · rename_i hlo
        cases h
        rw [if_neg hlo]

theorem scanChar_append {l : List Char} {c : Char} {r : List Char} (h : scanChar l = some (c, r)) (s : List Char) :
    scanChar (l ++ s) = some (c, r ++ s) := by
  cases l with
  | nil => cases h
  | cons x t =>
    simp only [scanChar, List.cons_append] at h ⊢
    split at h
    · rename_i hx
      rw [if_pos hx]
      cases t with
      | nil => cases h
      | cons y u =>
        simp only [List.cons_append] at h ⊢
        split at h
        · rename_i hy
          rw [if_pos hy, scanUnicode_append h]
        · rename_i hy
          obtain ⟨d, hd, he⟩ := Option.map_eq_some_iff.mp h
          cases he
          rw [if_neg hy, hd]
          rfl
    · rename_i hx
      rw [if_neg hx]
      split at h
      · cases h
      · rename_i hctl
        cases h
        rw [if_neg hctl]

theorem scanString_append : ∀ {n : Nat} {l cs r : List Char}, scanString n l = some (cs, r) → ∀ {m : Nat}, n ≤ m →
    ∀ s, scanString m (l ++ s) = some (cs, r ++ s) := by
  intro n
  induction n with
  | zero =>
    intro l cs r h
    cases h
  | succ n ih =>
    intro l cs r h m hm s
    obtain ⟨m, rfl⟩ : ∃ k, m = k + 1 := ⟨m - 1, by omega⟩
    cases l with
    | nil => cases h
    | cons x t =>
      rw [List.cons_append]
      simp only [scanString] at h ⊢
      split at h
      · rename_i hx
        cases h
        rw [if_pos hx]
      · rename_i hx
        rw [if_neg hx, ← List.cons_append]
        cases hc : scanChar (x :: t) with
        | none =>
          rw [hc] at h
          cases h
        | some p =>
          rw [hc] at h
          obtain ⟨q, hq, he⟩ := Option.map_eq_some_iff.mp h
          cases he
          rw [scanChar_append hc]
          simp only
          rw [ih hq (by omega) s]
          rfl

theorem prefix_cons_cases {α : Type} {q t : List α} {c : α} (h : q <+: c :: t) :
    q = [] ∨ ∃ q', q = c :: q' ∧ q' <+: t := by
  cases q with
  | nil => exact .inl rfl
  | cons d q' =>
    obtain ⟨hd, ht⟩ := List.cons_prefix_cons.mp h
    exact .inr ⟨q', by rw [hd], ht⟩

/-- A string literal that breaks off is not read, and one that does not is read whatever follows. -/
theorem scanString_prefix {st : Style φ} (hE : Scans st.escape) {l q rest : List Char}
    (hq : q <+: quoteTail st l ++ rest) :
    scanString (q.length + 1) q = none ∨
      ∃ q', q = quoteTail st l ++ q' ∧ q' <+: rest ∧ scanString (q.length + 1) q = some (l, q') := by
  rcases prefix_append_cases hq with ⟨⟨t, ht⟩, hne⟩ | ⟨q', hq', hrest⟩
  · left
    cases hs : scanString (q.length + 1) q with
    | none => rfl
    | some p =>
      have hwhole := scanString_append hs (m := (quoteTail st l).length + 1)
        (by rw [← ht, List.length_append]; omega) t
      have hread := scanString_quoteTail hE l (n := (quoteTail st l).length + 1) [] (Nat.le_succ _)
      rw [List.append_nil] at hread
      rw [ht, hread] at hwhole
      have hread := hwhole.symm
      obtain ⟨-, hnil⟩ := Prod.mk.inj (Option.some.inj hread)
      have htnil := (List.append_eq_nil_iff.mp hnil).2
      exact absurd (by rw [← ht, htnil, List.append_nil]) hne
  · right
    refine ⟨q', hq', hrest, ?_⟩
    rw [hq']
    exact scanString_quoteTail hE l q' (by rw [List.length_append]; omega)

/-- None of the characters that go on after a value. -/
def Open (r : List Char) : Prop := ∀ c ∈ r, c ≠ ',' ∧ c ≠ ']' ∧ c ≠ '}'

theorem Open.skipBlanks {r : List Char} (h : Open r) : Open (skipBlanks r) :=
  fun c hc => h c (skipBlanks_subset r c hc)

theorem open_intChars (n : Int) : Open (intChars n) := by
  intro c hc
  have hnum := intChars_chars n c hc
  refine ⟨?_, ?_, ?_⟩ <;> (rintro rfl; exact absurd hnum (by decide))

theorem skipBlanks_blanks {ws : List Char} (h : ∀ c ∈ ws, isBlank c = true) : skipBlanks ws = [] := by
  have := skipBlanks_append h []
  rw [List.append_nil] at this
  exact this

theorem skipBlanks_prefix {ws b q : List Char} (hws : ∀ c ∈ ws, isBlank c = true)
    (hb : ∃ c t, b = c :: t ∧ isBlank c = false) (hq : q <+: ws ++ b) (hne : q ≠ ws ++ b) :
    skipBlanks q <+: b ∧ skipBlanks q ≠ b := by
  obtain ⟨c, t, rfl, hc⟩ := hb
  rcases prefix_append_cases hq with ⟨hq, -⟩ | ⟨q', rfl, hq'⟩
  · rw [skipBlanks_blanks fun d hd => hws d (hq.subset hd)]
    exact ⟨List.nil_prefix, fun h => by cases h⟩
  · rw [skipBlanks_append hws]
    rcases prefix_cons_cases hq' with rfl | ⟨u, rfl, hu⟩
    · exact ⟨List.nil_prefix, fun h => by cases h⟩
    · rw [skipBlanks_of_head hc]
      exact ⟨hq', fun h => hne (by rw [h])⟩

section
variable {read : List Char → φ} {st : Style φ} (hR : ReadsBack read st) (hplain : ∀ x, Open (st.repr x))
include hR

theorem parseValue_prefix {v : Json φ} (hd : v.Distinct) {n : Nat} {q' : List Char} (hq : Closed q')
    {p : Json φ × List Char} (h : parseValue read n (render st v ++ q') = some p) : p = (v, q') := by
  have hbig := parseValue_mono (Nat.le_max_left n (render st v).length) h
  rw [parseValue_render hR v hd (Nat.le_max_right n _) hq] at hbig
  exact (Option.some.inj hbig).symm

/-- What is proved of the three readers at once about texts that break off: a list or an object is not read, and what
is read of a number goes on with no comma and no bracket. -/
structure BreaksAt (read : List Char → φ) (st : Style φ) (n : Nat) : Prop where
  value : ∀ v : Json φ, v.Distinct → ∀ q, q <+: render st v → q ≠ render st v → ∀ p, parseValue read n q = some p →
    Open p.2 ∧ ∀ f, v ≠ .obj f
  items : ∀ (w : Json φ) (t : Items φ), w.Distinct → t.Distinct → ∀ q, q <+: render st w ++ renderItems st t →
    q ≠ render st w ++ renderItems st t → parseItems read n q = none
  fields : ∀ (k : String) (w : Json φ) (t : Fields φ), w.Distinct → t.Distinct →
    ∀ q, q <+: quote st k ++ (st.keySep ++ (render st w ++ renderFields st t)) →
    q ≠ quote st k ++ (st.keySep ++ (render st w ++ renderFields st t)) → parseFields read n q = none

theorem value_rest {n : Nat} (ih : BreaksAt read st n) {w : Json φ} (hw : w.Distinct) {tail q : List Char}
    (htail : Closed tail) (hq : q <+: render st w ++ tail) {p : Json φ × List Char}
    (h : parseValue read n q = some p) : Open p.2 ∨ ∃ q', q = render st w ++ q' ∧ q' <+: tail ∧ p = (w, q') := by
  rcases prefix_append_cases hq with ⟨hpre, hne⟩ | ⟨q', rfl, hq'⟩
  · exact .inl (ih.value w hw q hpre hne p h).1
  · exact .inr ⟨q', rfl, hq', parseValue_prefix hR hw (htail.of_prefix hq') h⟩

omit hR in
theorem open_cases {r : List Char} (h : Open r) : skipBlanks r = [] ∨
    ∃ c t, skipBlanks r = c :: t ∧ c ≠ ',' ∧ c ≠ ']' ∧ c ≠ '}' := by
  cases hs : skipBlanks r with
  | nil => exact .inl rfl
  | cons c t => exact .inr ⟨c, t, rfl, h.skipBlanks c (by rw [hs]; exact List.mem_cons_self)⟩

theorem breaksItems_succ {n : Nat} (ih : BreaksAt read st n) (w : Json φ) (t : Items φ) (hw : w.Distinct)
    (ht : t.Distinct) (q : List Char) (hq : q <+: render st w ++ renderItems st t)
    (hne : q ≠ render st w ++ renderItems st t) : parseItems read (n + 1) q = none := by
  have hclosed := closed_renderItems hR t []
  rw [List.append_nil] at hclosed
  unfold parseItems
  cases hv : parseValue read n q with
  | none => rfl
  | some p =>
    simp only
    rcases value_rest hR ih hw hclosed hq hv with hopen | ⟨q', rfl, hq', rfl⟩
    · rcases open_cases hopen with hs | ⟨c, u, hs, h₁, h₂, -⟩
      · rw [hs]
      · rw [hs]
        split
        · rename_i he
          exact absurd (List.cons.inj he).1 h₂
        · rename_i he
          exact absurd (List.cons.inj he).1 h₁
        · rfl
    · have hne' : q' ≠ renderItems st t := fun h => hne (by rw [h])
      simp only [(hclosed.of_prefix hq').skipBlanks]
      cases t with
      | nil =>
        rcases prefix_cons_cases hq' with rfl | ⟨u, rfl, hu⟩
        · rfl
        · exact absurd (by rw [List.prefix_nil.mp hu]; rfl) hne'
      | cons x u =>
        obtain ⟨ws, hws, hblanks⟩ := hR.itemSep
        simp only [renderItems, hws, List.cons_append] at hq' hne'
        rcases prefix_cons_cases hq' with rfl | ⟨q'', rfl, hq''⟩
        · rfl
        · have hstart : ∃ c l, render st x ++ renderItems st u = c :: l ∧ isBlank c = false := by
            obtain ⟨c, l, hx, hc, -⟩ := render_start hR x
            exact ⟨c, l ++ renderItems st u, by rw [hx]; rfl, hc⟩
          obtain ⟨hpre, hneq⟩ := skipBlanks_prefix hblanks hstart hq'' fun h => hne' (by rw [h])
          simp only [ih.items x u ht.1 ht.2 _ hpre hneq]
          rfl

theorem breaksFields_succ {n : Nat} (ih : BreaksAt read st n) (k : String) (w : Json φ) (t : Fields φ)
    (hw : w.Distinct) (ht : t.Distinct) (q : List Char)
    (hq : q <+: quote st k ++ (st.keySep ++ (render st w ++ renderFields st t)))
    (hne : q ≠ quote st k ++ (st.keySep ++ (render st w ++ renderFields st t))) :
    parseFields read (n + 1) q = none := by
  have hclosed := closed_renderFields hR t []
  rw [List.append_nil] at hclosed
  obtain ⟨ks, hks, hkblanks⟩ := hR.keySep
  simp only [quote, List.cons_append, hks] at hq hne
  rcases prefix_cons_cases hq with rfl | ⟨q₁, rfl, hq₁⟩
  · exact parseFields_nil _
  unfold parseFields
  simp only
  rcases scanString_prefix hR.scans hq₁ with hs | ⟨q₂, rfl, hq₂, hs⟩
  · rw [hs]
  rw [hs]
  simp only
  rcases prefix_cons_cases hq₂ with rfl | ⟨q₃, rfl, hq₃⟩
  · rfl
  have hstart : ∃ c l, render st w ++ renderFields st t = c :: l ∧ isBlank c = false := by
    obtain ⟨c, l, hx, hc, -⟩ := render_start hR w
    exact ⟨c, l ++ renderFields st t, by rw [hx]; rfl, hc⟩
  obtain ⟨hpre, hneq⟩ := skipBlanks_prefix hkblanks hstart hq₃ fun h => hne (by rw [h])
  rw [skipBlanks_of_head (by decide)]
  simp only
  cases hv : parseValue read n (skipBlanks q₃) with
  | none => rfl
  | some p =>
    simp only
    rcases value_rest hR ih hw hclosed hpre hv with hopen | ⟨q', hq', htail, rfl⟩
    · rcases open_cases hopen with hs | ⟨c, u, hs, h₁, -, h₃⟩
      · rw [hs]
      · rw [hs]
        split
        · rename_i he
          exact absurd (List.cons.inj he).1 h₃
        · rename_i he
          exact absurd (List.cons.inj he).1 h₁
        · rfl
    · have hne' : q' ≠ renderFields st t := fun h => hneq (by rw [hq', h])
      simp only [(hclosed.of_prefix htail).skipBlanks]
      cases t with
      | nil =>
        rcases prefix_cons_cases htail with rfl | ⟨u, rfl, hu⟩
        · rfl
        · exact absurd (by rw [List.prefix_nil.mp hu]; rfl) hne'
      | cons j x u =>
        obtain ⟨ws, hws, hblanks⟩ := hR.itemSep
        simp only [renderFields, hws, List.cons_append] at htail hne'
        rcases prefix_cons_cases htail with rfl | ⟨q'', rfl, hq''⟩
        · rfl
        · have hquote : ∃ c l, quote st j ++ (st.keySep ++ (render st x ++ renderFields st u)) = c :: l ∧
              isBlank c = false := ⟨_, _, rfl, by decide⟩
          obtain ⟨hpre', hneq'⟩ := skipBlanks_prefix hblanks hquote hq'' fun h => hne' (by rw [h])
          simp only [ih.fields j x u ht.1 ht.2 _ hpre' hneq']
          rfl

omit hR in
theorem breaks_number {l q : List Char} {c : Char} {t : List Char} (hl : l = c :: t) (hc : NumberHead c)
    (hopen : Open l) (hq : q <+: l) {n : Nat} {p : Json φ × List Char} (h : parseValue read (n + 1) q = some p) :
    Open p.2 := by
  subst hl
  rcases prefix_cons_cases hq with rfl | ⟨u, rfl, -⟩
  · rw [parseValue_nil] at h
    cases h
  · rw [parseValue_number hc] at h
    exact fun d hd => hopen d (hq.subset (scanNumber_subset h d hd))

omit hR in
theorem breaks_word {c : Char} {t q : List Char} (hq : q <+: c :: t) (hne : q ≠ c :: t) (n : Nat)
    (hword : ∀ k < t.length, parseValue read (n + 1) (c :: t.take k) = none) : parseValue read (n + 1) q = none := by
  rcases prefix_cons_cases hq with rfl | ⟨u, rfl, hu⟩
  · exact parseValue_nil _
  · have hlen : u.length < t.length := by
      rcases Nat.lt_or_ge u.length t.length with h | h
      · exact h
      · exact absurd (by rw [hu.eq_of_length (Nat.le_antisymm hu.length_le h)]) hne
    rw [List.prefix_iff_eq_take.mp hu]
    exact hword _ hlen

omit hR in
theorem breaks_null {n : Nat} {q : List Char} (hq : q <+: render st .null) (hne : q ≠ render st .null) :
    parseValue read (n + 1) q = none := by
  refine breaks_word hq hne n fun k hk => ?_
  simp only [List.length_cons, List.length_nil] at hk
  interval_cases k <;> simp [parseValue, scanNumber, signOf, scanInteger, scanDigits, scanWord]

omit hR in
theorem breaks_bool {n : Nat} {b : Bool} {q : List Char} (hq : q <+: render st (.bool b))
    (hne : q ≠ render st (.bool b)) : parseValue read (n + 1) q = none := by
  cases b with
  | true =>
    refine breaks_word hq hne n fun k hk => ?_
    simp only [List.length_cons, List.length_nil] at hk
    interval_cases k <;> simp [parseValue, scanNumber, signOf, scanInteger, scanDigits, scanWord]
  | false =>
    refine breaks_word hq hne n fun k hk => ?_
    simp only [List.length_cons, List.length_nil] at hk
    interval_cases k <;> simp [parseValue, scanNumber, signOf, scanInteger, scanDigits, scanWord]

theorem breaks_str {n : Nat} {s : String} {q : List Char} (hq : q <+: render st (.str s))
    (hne : q ≠ render st (.str s)) : parseValue read (n + 1) q = none := by
  rcases prefix_cons_cases hq with rfl | ⟨u, rfl, hu⟩
  · exact parseValue_nil _
  · simp only [parseValue]
    rw [← List.append_nil (quoteTail st _)] at hu
    rcases scanString_prefix hR.scans hu with hs | ⟨q', rfl, hq', -⟩
    · rw [hs]
      rfl
    · rw [List.prefix_nil.mp hq', List.append_nil] at hne
      exact absurd rfl hne

theorem breaks_arr {n : Nat} (ih : BreaksAt read st n) {items : Items φ} (hd : (Json.arr items).Distinct)
    {q : List Char} (hq : q <+: render st (.arr items)) (hne : q ≠ render st (.arr items)) :
    parseValue read (n + 1) q = none := by
  cases items with
  | nil =>
    rcases prefix_cons_cases hq with rfl | ⟨u, rfl, hu⟩
    · exact parseValue_nil _
    · rcases prefix_cons_cases hu with rfl | ⟨u', rfl, hu'⟩
      · simp [parseValue, skipBlanks, parseItems_nil]
      · rw [List.prefix_nil.mp hu'] at hne
        exact absurd rfl hne
  | cons w t =>
    rcases prefix_cons_cases hq with rfl | ⟨u, rfl, hu⟩
    · exact parseValue_nil _
    · have hitems := ih.items w t hd.1 hd.2 u hu fun he => hne (by rw [he]; rfl)
      obtain ⟨c, l, hw, hc, hclose, -⟩ := render_start hR w
      rw [hw, List.cons_append] at hu
      rcases prefix_cons_cases hu with rfl | ⟨u', rfl, -⟩
      · simp [parseValue, skipBlanks, parseItems_nil]
      · simp only [parseValue, skipBlanks_of_head hc]
        split
        · rename_i he
          exact absurd (List.cons.inj he).1 hclose
        · rw [hitems]
          rfl

omit hR in
theorem breaks_obj {n : Nat} (ih : BreaksAt read st n) {fields : Fields φ} (hd : (Json.obj fields).Distinct)
    {q : List Char} (hq : q <+: render st (.obj fields)) (hne : q ≠ render st (.obj fields)) :
    parseValue read (n + 1) q = none := by
  cases fields with
  | nil =>
    rcases prefix_cons_cases hq with rfl | ⟨u, rfl, hu⟩
    · exact parseValue_nil _
    · rcases prefix_cons_cases hu with rfl | ⟨u', rfl, hu'⟩
      · simp [parseValue, skipBlanks, parseFields_nil]
      · rw [List.prefix_nil.mp hu'] at hne
        exact absurd rfl hne
  | cons k w t =>
    rcases prefix_cons_cases hq with rfl | ⟨u, rfl, hu⟩
    · exact parseValue_nil _
    · have hfields := ih.fields k w t hd.2.1 hd.2.2 u hu fun he => hne (by rw [he]; rfl)
      simp only [quote, List.cons_append] at hu
      rcases prefix_cons_cases hu with rfl | ⟨u', rfl, -⟩
      · simp [parseValue, skipBlanks, parseFields_nil]
      · simp only [parseValue]
        rw [skipBlanks_of_head (by decide)]
        split
        · rename_i he
          exact absurd (List.cons.inj he).1 (by decide)
        · rw [hfields]
          rfl

include hplain

theorem breaksValue_succ {n : Nat} (ih : BreaksAt read st n) (v : Json φ) (hd : v.Distinct) (q : List Char)
    (hq : q <+: render st v) (hne : q ≠ render st v) (p : Json φ × List Char)
    (h : parseValue read (n + 1) q = some p) : Open p.2 ∧ ∀ f, v ≠ .obj f := by
  cases v with
  | null => exact absurd (h.symm.trans (breaks_null hq hne)) (Option.some_ne_none p)
  | bool b => exact absurd (h.symm.trans (breaks_bool hq hne)) (Option.some_ne_none p)
  | int m =>
    have hm := scanNumber_int read m closed_nil
    rw [List.append_nil] at hm
    obtain ⟨c, t, hl, hc⟩ := scanNumber_head hm
    exact ⟨breaks_number hl hc (open_intChars m) hq h, fun f hf => by cases hf⟩
  | float x =>
    obtain ⟨c, t, hl, hc⟩ := hR.repr_head x
    exact ⟨breaks_number hl hc (hplain x) hq h, fun f hf => by cases hf⟩
  | str s => exact absurd (h.symm.trans (breaks_str hR hq hne)) (Option.some_ne_none p)
  | arr items => exact absurd (h.symm.trans (breaks_arr hR ih hd hq hne)) (Option.some_ne_none p)
  | obj fields => exact absurd (h.symm.trans (breaks_obj ih hd hq hne)) (Option.some_ne_none p)

theorem breaks_at (n : Nat) : BreaksAt read st n := by
  induction n with
  | zero =>
    refine ⟨fun v _ q _ _ p h => ?_, fun w t _ _ q _ _ => rfl, fun k w t _ _ q _ _ => rfl⟩
    cases h
  | succ n ih => exact ⟨breaksValue_succ hR hplain ih, breaksItems_succ hR ih, breaksFields_succ hR ih⟩

/-- An object's text that breaks off is not read. -/
theorem loads_prefix {f : Fields φ} (hd : (Json.obj f).Distinct) {q : List Char} (hq : q <+: render st (.obj f))
    (hne : q ≠ render st (.obj f)) : loads read q = none := by
  obtain ⟨t, ht⟩ : ∃ t, render st (.obj f) = '{' :: t := by
    cases f <;> exact ⟨_, rfl⟩
  have hskip : skipBlanks q = q := by
    rw [ht] at hq
    rcases prefix_cons_cases hq with rfl | ⟨u, rfl, -⟩
    · rfl
    · exact skipBlanks_of_head (by decide) u
  unfold loads
  rw [hskip]
  cases hv : parseValue read (q.length + 1) q with
  | none => rfl
  | some p => exact absurd rfl (((breaks_at hR hplain _).value _ hd q hq hne p hv).2 f)

end

end JsonText
