import AbsoluteChain.JsonFields
import AbsoluteChain.Merkle
import AbsoluteChain.Numbers
import AbsoluteChain.StateRoot

/-!
# State roots of the two implementations

`crypto/native.py` computes a state root from the JSON text of the account rows, in the
extension when it is installed and in Python otherwise.
-/

namespace JsonText

variable {φ : Type}

/-! ## Two ways to escape -/

/-- The escapes of both styles can be read back in one way. -/
structure SameText (escape escape' : Char → List Char) : Prop where
  split : ∀ {c d : Char} {r s : List Char}, escape c ++ r = escape' d ++ s → c = d ∧ r = s
  left : ∀ {c : Char} {r s : List Char}, escape c ++ r ≠ '"' :: s
  right : ∀ {c : Char} {r s : List Char}, escape' c ++ r ≠ '"' :: s

theorem sameText : SameText escapeAscii escapeUnicode where
  split := by
    intro c d r s h
    have hread := unescape_escapeAscii c r
    rw [h, unescape_escapeUnicode d s, Option.some.injEq, Prod.mk.injEq] at hread
    exact ⟨Char.toNat_inj.mp hread.1.symm, hread.2.symm⟩
  left := escapes_ascii.open_
  right := escapes_unicode.open_

/-- Both styles write the text alike. -/
def Uniform (s : String) : Prop := ∀ c ∈ s.toList, c.toNat < 127

theorem shortEscape_none {n : Nat} (h : 93 ≤ n) : shortEscape n = none := by
  unfold shortEscape
  repeat rw [if_neg (by omega)]

theorem escapeAscii_eq (c : Char) : escapeAscii c = escapeUnicode c ↔ c.toNat < 127 := by
  unfold escapeAscii escapeUnicode
  dsimp only
  constructor
  · intro h
    by_contra hc
    rw [shortEscape_none (by omega)] at h
    have hlow : ¬ c.toNat < 32 := by omega
    have hascii : ¬ (32 ≤ c.toNat ∧ c.toNat ≤ 126) := by omega
    dsimp only at h
    rw [if_neg hascii, if_neg hlow] at h
    have hlen := congrArg List.length h
    by_cases hbasic : c.toNat < 65536
    · rw [if_pos hbasic] at hlen
      cases hlen
    · rw [if_neg hbasic, List.length_append] at hlen
      cases hlen
  · intro hc
    cases shortEscape c.toNat with
    | some x => rfl
    | none =>
      dsimp only
      by_cases hlow : c.toNat < 32
      · rw [if_neg (by omega), if_pos (by omega), if_pos hlow]
      · rw [if_pos (by omega), if_neg hlow]

section
variable {st st' : Style φ} (hE : SameText st.escape st'.escape)
include hE

theorem quoteTail_mixed : ∀ {a b r s : List Char}, quoteTail st a ++ r = quoteTail st' b ++ s →
    a = b ∧ r = s ∧ ∀ c ∈ a, st.escape c = st'.escape c
  | [], [], r, s, h => ⟨rfl, (List.cons.inj h).2, fun _ hc => nomatch hc⟩
  | [], d :: b, r, s, h => by
    simp only [quoteTail, List.append_assoc] at h
    exact absurd h.symm hE.right
  | c :: a, [], r, s, h => by
    simp only [quoteTail, List.append_assoc] at h
    exact absurd h hE.left
  | c :: a, d :: b, r, s, h => by
    simp only [quoteTail, List.append_assoc] at h
    obtain ⟨rfl, htail⟩ := hE.split h
    obtain ⟨rfl, hrest, hall⟩ := quoteTail_mixed htail
    refine ⟨rfl, hrest, fun e he => ?_⟩
    rcases List.mem_cons.mp he with rfl | he
    · rw [htail] at h
      exact List.append_cancel_right h
    · exact hall e he

theorem quote_mixed {a b : String} {r s : List Char} (h : quote st a ++ r = quote st' b ++ s) :
    a = b ∧ r = s ∧ ∀ c ∈ a.toList, st.escape c = st'.escape c := by
  obtain ⟨hab, hrest, hall⟩ := quoteTail_mixed hE (List.cons.inj h).2
  exact ⟨String.toList_inj.mp hab, hrest, hall⟩

end

theorem quote_congr {st st' : Style φ} {s : String} (h : ∀ c ∈ s.toList, st.escape c = st'.escape c) :
    quote st s = quote st' s := by
  have htail : ∀ l : List Char, (∀ c ∈ l, st.escape c = st'.escape c) → quoteTail st l = quoteTail st' l := by
    intro l hl
    induction l with
    | nil => rfl
    | cons c t ih =>
      unfold quoteTail
      rw [hl c List.mem_cons_self, ih fun d hd => hl d (List.mem_cons_of_mem _ hd)]
  unfold quote
  rw [htail _ h]

end JsonText

namespace AbsoluteChain

open Python JsonText HashTree

/-! ## Rows -/

abbrev Row := Fields Double

/-- How the two languages write a finite float and read numbers from text. -/
structure Numerals where
  repr : ℚ → List Char
  pyFloat : String → Option Double
  pyInt : String → Option Int
  rustFloat : String → Option Double
  rustInt : String → Option Int

/-- What is hashed of a row. -/
structure Payload where
  a : Json Double
  b : Double
  n : Int
  c : String
  s : String

def Payload.json (p : Payload) : Json Double :=
  dict [("a", p.a), ("b", .float p.b), ("n", .int p.n), ("c", .str p.c), ("s", .str p.s)]

def hashOrEmpty (s : String) : String := if s = "" then "" else hashData s

namespace Numerals

variable (r : Numerals)

/-- `json.dumps(.., sort_keys=True, separators=(",", ":"))`. -/
def python : Style Double := compact escapeAscii (Double.text r.repr)

def serde : Style Double := compact escapeUnicode (Double.text r.repr)

/-! ## Python -/

def truthy : Json Double → Bool
  | .null => false
  | .bool b => b
  | .int n => n ≠ 0
  | .float d => d ≠ .finite 0
  | .str s => s ≠ ""
  | .arr l => match l with
    | .nil => false
    | .cons _ _ => true
  | .obj f => match f with
    | .nil => false
    | .cons _ _ _ => true

def textOr (v : Option (Json Double)) (default : String) : Option String :=
  match v with
  | none => some default
  | some v =>
    if truthy v then
      match v with
      | .str s => some s
      | _ => none
    else some default

def toFloat : Json Double → Option Double
  | .int n => some (.finite n)
  | .float d => some d
  | .bool b => some (.finite (if b then 1 else 0))
  | .str s => r.pyFloat s
  | _ => none

def toInt : Json Double → Option Int
  | .int n => some n
  | .float (.finite q) => some (truncate q)
  | .bool b => some (if b then 1 else 0)
  | .str s => r.pyInt s
  | _ => none

def pythonRow (row : Row) : Option Payload := do
  let code ← textOr (row.get? "code") ""
  let storage ← textOr (row.get? "storage") "{}"
  let address ← row.get? "address"
  let balance ← (row.get? "balance").bind r.toFloat
  let nonce ← (row.get? "nonce").bind r.toInt
  some { a := address, b := balance.round12, n := nonce, c := hashOrEmpty code, s := hashOrEmpty storage }

def pythonText (payload : List Payload) : String := dumps r.python (list (payload.map Payload.json))

/-- `_python_state_root_from_accounts(json.loads(accounts_json))`. -/
def pythonStateRoot (rows : List Row) : Option String := (rows.mapM r.pythonRow).map fun p => hashData (r.pythonText p)

/-! ## Rust -/

def valueText (v : Json Double) : String := String.ofList (render r.serde v.sortKeys)

def valueToString (v : Option (Json Double)) (default : String) : String :=
  match v with
  | some (.str s) => s
  | some .null => default
  | none => default
  | some v => r.valueText v

/-- Integers from `2 ^ 63` on wrap around, from `2 ^ 64` on they were read as floats. -/
def valueToI64 : Option (Json Double) → Int
  | some (.int n) => if fitsInt64 n then n else if 0 ≤ n ∧ n < 2 ^ 64 then n - 2 ^ 64 else 0
  | some (.str s) => (r.rustInt s).getD 0
  | _ => 0

def valueToF64 : Option (Json Double) → Double
  | some (.int n) => .finite n
  | some (.float d) => d
  | some (.str s) => (r.rustFloat s).getD (.finite 0)
  | _ => .finite 0

def accountPayloadRow (row : Row) : Option Payload :=
  let storage := r.valueToString (row.get? "storage") "{}"
  match (r.valueToF64 (row.get? "balance")).round12 with
  | .finite q =>
    some
      { a := .str (r.valueToString (row.get? "address") ""), b := .finite q, n := r.valueToI64 (row.get? "nonce"),
        c := hashOrEmpty (r.valueToString (row.get? "code") ""), s := hashOrEmpty (if storage = "" then "{}" else storage) }
  | _ => none

mutual
def readable : Json Double → Bool
  | .float (.finite _) => true
  | .float _ => false
  | .arr l => readableItems l
  | .obj f => readableFields f
  | _ => true
def readableItems : Items Double → Bool
  | .nil => true
  | .cons v t => readable v && readableItems t
def readableFields : Fields Double → Bool
  | .nil => true
  | .cons _ v t => readable v && readableFields t
end

def rustText (payload : List Payload) : String := dumps r.serde (list (payload.map Payload.json))

def rustStateRoot (rows : List Row) : Option String :=
  if rows.all readableFields then (rows.mapM r.accountPayloadRow).map fun p => hashData (r.rustText p) else none

/-! ## Rows on which the two agree -/

/-- Text that is missing or malformed counts as the default. -/
def SameCode : Option (Json Double) → Prop
  | none | some .null | some (.str _) => True
  | _ => False

def SameStorage : Option (Json Double) → Prop
  | none | some .null | some (.str _) | some (.obj .nil) => True
  | _ => False

def SameAddress : Option (Json Double) → Prop
  | some (.str s) => Uniform s
  | _ => False

def SameBalance : Option (Json Double) → Prop
  | some (.int _) | some (.float (.finite _)) => True
  | some (.bool b) => b = false
  | some (.str s) =>
    ∃ q, (r.pyFloat s).map Double.round12 = some (.finite q) ∧ ((r.rustFloat s).getD (.finite 0)).round12 = .finite q
  | _ => False

def SameNonce : Option (Json Double) → Prop
  | some (.int n) => fitsInt64 n = true
  | some (.float (.finite q)) => truncate q = 0
  | some (.bool b) => b = false
  | some (.str s) => r.pyInt s = some ((r.rustInt s).getD 0)
  | _ => False

/-- Both read the same values, and the address is ASCII text. -/
structure SameRow (row : Row) : Prop where
  address : SameAddress (row.get? "address")
  balance : r.SameBalance (row.get? "balance")
  nonce : r.SameNonce (row.get? "nonce")
  code : SameCode (row.get? "code")
  storage : SameStorage (row.get? "storage")

/-! ### Text fields -/

theorem text_ne_nil (hF : FloatText r.repr) : ∀ d : Double, d.text r.repr ≠ []
  | .finite q => hF.ne_nil q
  | .infinite false => List.cons_ne_nil _ _
  | .infinite true => List.cons_ne_nil _ _
  | .nan => List.cons_ne_nil _ _

theorem valueText_ne_empty (hF : FloatText r.repr) (v : Json Double) : r.valueText v ≠ "" := by
  intro h
  have hnil := congrArg String.toList h
  unfold valueText at hnil
  rw [String.toList_ofList] at hnil
  cases hv : v.sortKeys with
  | null => rw [hv] at hnil; cases hnil
  | bool b => rw [hv] at hnil; cases b <;> cases hnil
  | int n => rw [hv] at hnil; exact intChars_ne_nil n hnil
  | float d => rw [hv] at hnil; exact r.text_ne_nil hF d hnil
  | str s => rw [hv] at hnil; cases hnil
  | arr l => rw [hv] at hnil; cases l <;> cases hnil
  | obj f => rw [hv] at hnil; cases f <;> cases hnil

theorem hashOrEmpty_ne {s : String} (h : s ≠ "") : hashOrEmpty s ≠ "" := by
  intro he
  unfold hashOrEmpty at he
  rw [if_neg h] at he
  have hlen := congrArg String.length he
  rw [hashData_length] at hlen
  cases hlen

theorem textOr_str (s default : String) : textOr (some (.str s)) default = some (if s = "" then default else s) := by
  unfold textOr truthy
  by_cases h : s = "" <;> simp [h]

theorem textOr_other {v : Json Double} (hv : ∀ s, v ≠ .str s) {default t : String} (h : textOr (some v) default = some t) :
    t = default ∧ truthy v = false := by
  unfold textOr at h
  cases htruthy : truthy v with
  | false =>
    simp only [htruthy, Bool.false_eq_true, if_false] at h
    exact ⟨(Option.some.inj h).symm, rfl⟩
  | true =>
    simp only [htruthy, if_true] at h
    cases v with
    | str s => exact absurd rfl (hv s)
    | _ => cases h

theorem sameCode_iff (hF : FloatText r.repr) (v : Option (Json Double)) :
    (∃ t, textOr v "" = some t ∧ hashOrEmpty t = hashOrEmpty (r.valueToString v "")) ↔ SameCode v := by
  have hother : ∀ w : Json Double, (∀ s, w ≠ .str s) →
      ¬ ∃ t, textOr (some w) "" = some t ∧ hashOrEmpty t = hashOrEmpty (r.valueText w) := by
    rintro w hw ⟨t, ht, he⟩
    obtain ⟨rfl, -⟩ := textOr_other hw ht
    exact hashOrEmpty_ne (r.valueText_ne_empty hF w) he.symm
  cases v with
  | none => exact iff_of_true ⟨_, rfl, rfl⟩ trivial
  | some v =>
    cases v with
    | null => exact iff_of_true ⟨_, rfl, rfl⟩ trivial
    | str s =>
      refine iff_of_true ⟨_, textOr_str s "", ?_⟩ trivial
      by_cases hs : s = ""
      · rw [if_pos hs, hs]
        rfl
      · rw [if_neg hs]
        rfl
    | bool b => exact iff_of_false (hother _ fun _ h => nomatch h) id
    | int n => exact iff_of_false (hother _ fun _ h => nomatch h) id
    | float d => exact iff_of_false (hother _ fun _ h => nomatch h) id
    | arr l => exact iff_of_false (hother _ fun _ h => nomatch h) id
    | obj f => exact iff_of_false (hother _ fun _ h => nomatch h) id

def rustStorage (v : Option (Json Double)) : String :=
  if r.valueToString v "{}" = "" then "{}" else r.valueToString v "{}"

/-- Of the values that Python takes for nothing only an empty object has the text of the default. -/
theorem valueText_braces (hF : FloatText r.repr) {v : Json Double} (hv : truthy v = false) (h : "{}" = r.valueText v) :
    v = .obj .nil ∨ v = .null ∨ ∃ s, v = .str s := by
  have htext := congrArg String.toList h
  unfold valueText at htext
  simp only [String.toList_ofList] at htext
  have hopen : '{' ∈ render r.serde v.sortKeys := by
    rw [← htext]
    exact List.mem_cons_self
  have hnum : isNumChar '{' = false := by decide
  cases v with
  | null => exact .inr (.inl rfl)
  | str s => exact .inr (.inr ⟨s, rfl⟩)
  | bool b =>
    obtain rfl : b = false := hv
    exact absurd hopen (by simp [Json.sortKeys, render])
  | int n =>
    have hmem : '{' ∈ intChars n := by simpa [Json.sortKeys, render] using hopen
    rw [intChars_chars n _ hmem] at hnum
    cases hnum
  | float d =>
    have hmem : '{' ∈ d.text r.repr := by
      simp only [Json.sortKeys, render] at hopen
      exact hopen
    cases d with
    | finite q =>
      rw [hF.chars q _ hmem] at hnum
      cases hnum
    | infinite negative => cases negative <;> simp [Double.text] at hmem
    | nan => simp [Double.text] at hmem
  | arr l =>
    cases l with
    | nil => exact absurd hopen (by simp [Json.sortKeys, Items.sortKeys, render])
    | cons v t => cases hv
  | obj f =>
    cases f with
    | nil => exact .inl rfl
    | cons k v t => cases hv

theorem rustStorage_other (hF : FloatText r.repr) {w : Json Double} (hw : ∀ s, w ≠ .str s) (hnull : w ≠ .null) :
    r.rustStorage (some w) = r.valueText w := by
  unfold rustStorage
  cases w with
  | null => exact absurd rfl hnull
  | str s => exact absurd rfl (hw s)
  | _ => exact if_neg (r.valueText_ne_empty hF _)

theorem sameStorage_iff (hF : FloatText r.repr) (v : Option (Json Double))
    (hs : ∀ w, v = some w → hashData "{}" = hashData (r.valueText w) → "{}" = r.valueText w) :
    (∃ t, textOr v "{}" = some t ∧ hashOrEmpty t = hashOrEmpty (r.rustStorage v)) ↔ SameStorage v := by
  have hother : ∀ w : Json Double, (∀ s, w ≠ .str s) → w ≠ .null → w ≠ .obj .nil → v = some w →
      ¬ ∃ t, textOr v "{}" = some t ∧ hashOrEmpty t = hashOrEmpty (r.rustStorage v) := by
    rintro w hw hnull hobj rfl ⟨t, ht, he⟩
    obtain ⟨rfl, hfalsy⟩ := textOr_other hw ht
    rw [r.rustStorage_other hF hw hnull] at he
    unfold hashOrEmpty at he
    rw [if_neg (by decide), if_neg (r.valueText_ne_empty hF w)] at he
    rcases r.valueText_braces hF hfalsy (hs w rfl he) with h | h | ⟨s, h⟩
    · exact hobj h
    · exact hnull h
    · exact hw s h
  cases v with
  | none => exact iff_of_true ⟨_, rfl, rfl⟩ trivial
  | some v =>
    cases v with
    | null => exact iff_of_true ⟨_, rfl, rfl⟩ trivial
    | str s => exact iff_of_true ⟨_, textOr_str s "{}", rfl⟩ trivial
    | bool b => exact iff_of_false (hother (.bool b) (by simp) (by simp) (by simp) rfl) id
    | int n => exact iff_of_false (hother (.int n) (by simp) (by simp) (by simp) rfl) id
    | float d => exact iff_of_false (hother (.float d) (by simp) (by simp) (by simp) rfl) id
    | arr l => exact iff_of_false (hother (.arr l) (by simp) (by simp) (by simp) rfl) id
    | obj f =>
      cases f with
      | nil =>
        refine iff_of_true ⟨_, rfl, ?_⟩ trivial
        rw [r.rustStorage_other hF (by simp) (by simp)]
        rfl
      | cons k w t => exact iff_of_false (hother (.obj (.cons k w t)) (by simp) (by simp) (by simp) rfl) id

/-! ### Numbers -/

theorem round12_finite {d : Double} {q : ℚ} (h : d.round12 = .finite q) : ∃ p, d = .finite p ∧ roundTo 12 p = q := by
  cases d with
  | finite p => exact ⟨p, rfl, Double.finite.inj h⟩
  | infinite negative => cases h
  | nan => cases h

theorem sameBalance_iff (v : Option (Json Double)) :
    (∃ d q, v.bind r.toFloat = some d ∧ d.round12 = .finite q ∧ (r.valueToF64 v).round12 = .finite q) ↔ r.SameBalance v := by
  cases v with
  | none => exact iff_of_false (fun ⟨_, _, h, _⟩ => nomatch h) id
  | some v =>
    cases v with
    | null => exact iff_of_false (fun ⟨_, _, h, _⟩ => nomatch h) id
    | arr l => exact iff_of_false (fun ⟨_, _, h, _⟩ => nomatch h) id
    | obj f => exact iff_of_false (fun ⟨_, _, h, _⟩ => nomatch h) id
    | int n => exact iff_of_true ⟨_, _, rfl, rfl, rfl⟩ trivial
    | float d =>
      cases d with
      | finite q => exact iff_of_true ⟨_, _, rfl, rfl, rfl⟩ trivial
      | infinite negative => exact iff_of_false (fun ⟨_, _, _, _, h⟩ => nomatch h) id
      | nan => exact iff_of_false (fun ⟨_, _, _, _, h⟩ => nomatch h) id
    | bool b =>
      cases b with
      | false => exact iff_of_true ⟨_, _, rfl, rfl, rfl⟩ rfl
      | true =>
        refine iff_of_false ?_ Bool.noConfusion
        rintro ⟨d, q, hd, hq, hr⟩
        obtain rfl := Option.some.inj hd
        have hone : roundTo 12 1 = q := Double.finite.inj hq
        have hzero : roundTo 12 0 = q := Double.finite.inj hr
        have hne : roundTo 12 1 ≠ roundTo 12 0 := by decide +kernel
        exact hne (hone.trans hzero.symm)
    | str s =>
      constructor
      · rintro ⟨d, q, hd, hq, hr⟩
        have hread : r.pyFloat s = some d := hd
        exact ⟨q, by rw [hread, Option.map_some, hq], hr⟩
      · rintro ⟨q, hq, hr⟩
        obtain ⟨d, hd, hround⟩ := Option.map_eq_some_iff.mp hq
        exact ⟨d, q, hd, hround, hr⟩

theorem sameNonce_iff (v : Option (Json Double)) : v.bind r.toInt = some (r.valueToI64 v) ↔ r.SameNonce v := by
  cases v with
  | none => exact iff_of_false (fun h => nomatch h) id
  | some v =>
    cases v with
    | null => exact iff_of_false (fun h => nomatch h) id
    | arr l => exact iff_of_false (fun h => nomatch h) id
    | obj f => exact iff_of_false (fun h => nomatch h) id
    | str s => exact Iff.rfl
    | bool b => cases b <;> simp [toInt, valueToI64, SameNonce]
    | float d =>
      cases d with
      | finite q => simp [toInt, valueToI64, SameNonce]
      | infinite negative => exact iff_of_false (fun h => nomatch h) id
      | nan => exact iff_of_false (fun h => nomatch h) id
    | int n =>
      show some n = some (if fitsInt64 n then n else if 0 ≤ n ∧ n < 2 ^ 64 then n - 2 ^ 64 else 0) ↔ fitsInt64 n = true
      rw [Option.some.injEq]
      by_cases hfits : fitsInt64 n = true
      · simp [hfits]
      · rw [if_neg hfits]
        refine iff_of_false (fun h => ?_) hfits
        by_cases hlow : 0 ≤ n ∧ n < 2 ^ 64
        · rw [if_pos hlow] at h
          omega
        · rw [if_neg hlow] at h
          subst h
          exact hfits rfl

/-! ### Rows -/

theorem pythonRow_some {row : Row} {p : Payload} : r.pythonRow row = some p ↔
    ∃ code storage a d n, textOr (row.get? "code") "" = some code ∧ textOr (row.get? "storage") "{}" = some storage ∧
      row.get? "address" = some a ∧ (row.get? "balance").bind r.toFloat = some d ∧ (row.get? "nonce").bind r.toInt = some n ∧
      p = { a := a, b := d.round12, n := n, c := hashOrEmpty code, s := hashOrEmpty storage } := by
  unfold pythonRow
  simp only [Option.bind_eq_bind, Option.bind_eq_some_iff, Option.some.injEq]
  constructor
  · rintro ⟨code, hcode, storage, hstorage, a, ha, d, hd, n, hn, rfl⟩
    exact ⟨code, storage, a, d, n, hcode, hstorage, ha, hd, hn, rfl⟩
  · rintro ⟨code, storage, a, d, n, hcode, hstorage, ha, hd, hn, rfl⟩
    exact ⟨code, hcode, storage, hstorage, a, ha, d, hd, n, hn, rfl⟩

theorem accountPayloadRow_some {row : Row} {p : Payload} : r.accountPayloadRow row = some p ↔
    ∃ q, (r.valueToF64 (row.get? "balance")).round12 = .finite q ∧
      p = { a := .str (r.valueToString (row.get? "address") ""), b := .finite q, n := r.valueToI64 (row.get? "nonce"),
            c := hashOrEmpty (r.valueToString (row.get? "code") ""), s := hashOrEmpty (r.rustStorage (row.get? "storage")) } := by
  unfold accountPayloadRow rustStorage
  cases (r.valueToF64 (row.get? "balance")).round12 with
  | finite q =>
    simp only [Option.some.injEq, Double.finite.injEq]
    exact ⟨fun h => ⟨q, rfl, h.symm⟩, by rintro ⟨q', rfl, rfl⟩; rfl⟩
  | infinite negative => exact iff_of_false (fun h => nomatch h) fun ⟨_, h, _⟩ => nomatch h
  | nan => exact iff_of_false (fun h => nomatch h) fun ⟨_, h, _⟩ => nomatch h

/-- Both make the same of the row, and both write it alike. -/
def Shared (row : Row) : Prop :=
  ∃ p s, r.pythonRow row = some p ∧ r.accountPayloadRow row = some p ∧ p.a = .str s ∧ Uniform s

theorem sameRow_iff (hF : FloatText r.repr) {row : Row}
    (hs : ∀ w, row.get? "storage" = some w → hashData "{}" = hashData (r.valueText w) → "{}" = r.valueText w) :
    r.Shared row ↔ r.SameRow row := by
  constructor
  · rintro ⟨p, s, hpython, hrust, hstr, huniform⟩
    obtain ⟨code, storage, a, d, n, hcode, hstorage, ha, hd, hn, rfl⟩ := r.pythonRow_some.mp hpython
    obtain ⟨q, hq, hp⟩ := r.accountPayloadRow_some.mp hrust
    simp only [Payload.mk.injEq] at hp hstr
    obtain ⟨-, hb, hnonce, hc, hst⟩ := hp
    subst hstr
    exact {
      address := by rw [ha]; exact huniform
      balance := (r.sameBalance_iff _).mp ⟨d, q, hd, hb, hq⟩
      nonce := (r.sameNonce_iff _).mp (by rw [hn, hnonce])
      code := (r.sameCode_iff hF _).mp ⟨code, hcode, hc⟩
      storage := (r.sameStorage_iff hF _ hs).mp ⟨storage, hstorage, hst⟩ }
  · intro h
    obtain ⟨d, q, hd, hb, hq⟩ := (r.sameBalance_iff _).mpr h.balance
    obtain ⟨code, hcode, hc⟩ := (r.sameCode_iff hF _).mpr h.code
    obtain ⟨storage, hstorage, hst⟩ := (r.sameStorage_iff hF _ hs).mpr h.storage
    have hn := (r.sameNonce_iff _).mpr h.nonce
    have haddress := h.address
    cases ha : row.get? "address" with
    | none => rw [ha] at haddress; exact haddress.elim
    | some a =>
      rw [ha] at haddress
      cases a with
      | str s =>
        refine ⟨_, s, r.pythonRow_some.mpr ⟨code, storage, _, d, _, hcode, hstorage, ha, hd, hn, rfl⟩,
          r.accountPayloadRow_some.mpr ⟨q, hq, ?_⟩, rfl, haddress⟩
        rw [ha, hb, hc, hst]
        rfl
      | _ => exact haddress.elim

/-! ### The texts -/

theorem sortKeys_payload (p : Payload) : p.json.sortKeys =
    dict [("a", p.a.sortKeys), ("b", .float p.b), ("c", .str p.c), ("n", .int p.n), ("s", .str p.s)] := by
  unfold Payload.json dict
  simp only [Fields.ofList, Json.sortKeys, Fields.sortKeys, Fields.insert]
  rfl

def rowText (st : Style Double) (p : Payload) (rest : List Char) : List Char :=
  '{' :: '"' :: 'a' :: '"' :: ':' :: (render st p.a.sortKeys ++ (',' :: '"' :: 'b' :: '"' :: ':' :: (st.repr p.b ++
    (',' :: '"' :: 'c' :: '"' :: ':' :: (quote st p.c ++ (',' :: '"' :: 'n' :: '"' :: ':' :: (intChars p.n ++
      (',' :: '"' :: 's' :: '"' :: ':' :: (quote st p.s ++ '}' :: rest)))))))))

theorem render_python (p : Payload) (rest : List Char) : render r.python p.json.sortKeys ++ rest = rowText r.python p rest := by
  rw [sortKeys_payload]
  unfold rowText dict
  simp only [Fields.ofList, render, renderFields, List.append_assoc, List.cons_append, List.nil_append]
  rfl

theorem render_serde (p : Payload) (rest : List Char) : render r.serde p.json.sortKeys ++ rest = rowText r.serde p rest := by
  rw [sortKeys_payload]
  unfold rowText dict
  simp only [Fields.ofList, render, renderFields, List.append_assoc, List.cons_append, List.nil_append]
  rfl

theorem head_number {l rest t : List Char} (hne : l ≠ []) (hnum : ∀ c ∈ l, isNumChar c = true) : l ++ rest ≠ '"' :: t := by
  intro h
  cases l with
  | nil => exact hne rfl
  | cons c l =>
    obtain rfl : c = '"' := (List.cons.inj h).1
    exact absurd (hnum _ List.mem_cons_self) (by decide)

theorem head_quote (hF : FloatText r.repr) {v : Json Double} {rest t : List Char}
    (h : render r.python v.sortKeys ++ rest = '"' :: t) : ∃ s, v = .str s := by
  cases v with
  | str s => exact ⟨s, rfl⟩
  | null => cases h
  | bool b => cases b <;> cases h
  | int n => exact absurd h (head_number (intChars_ne_nil n) (intChars_chars n))
  | float d =>
    cases d with
    | finite q => exact absurd h (head_number (hF.ne_nil q) (hF.chars q))
    | infinite negative => cases negative <;> cases h
    | nan => cases h
  | arr l =>
    cases l with
    | nil => cases h
    | cons w t => cases h
  | obj f =>
    unfold Json.sortKeys at h
    cases hf : f.sortKeys with
    | nil => rw [hf] at h; cases h
    | cons k w t => rw [hf] at h; cases h

theorem delim_comma (rest : List Char) : Delim (',' :: rest) := by
  intro c hc
  obtain rfl := Option.some.inj hc
  decide

theorem text_split (hF : FloatText r.repr) {d : Double} {q : ℚ} {x y : List Char}
    (h : d.text r.repr ++ (',' :: x) = r.repr q ++ (',' :: y)) : d = .finite q ∧ x = y := by
  have hword : ∀ {w : List Char} {c : Char} {t z : List Char}, isNumChar c = false → c ≠ ',' →
      (∀ e ∈ w, isNumChar e = true) → w ++ (c :: t) ≠ r.repr q ++ (',' :: z) := by
    intro w c t z hnum hcomma hw he
    have hdelim : Delim (c :: t) := by
      intro e hmem
      obtain rfl := Option.some.inj hmem
      exact hnum
    obtain ⟨-, hrest⟩ := token_split hw (hF.chars q) hdelim (delim_comma z) he
    exact hcomma (List.cons.inj hrest).1
  cases d with
  | finite p =>
    obtain ⟨hpq, hrest⟩ := token_split (hF.chars p) (hF.chars q) (delim_comma x) (delim_comma y) h
    exact ⟨by rw [hF.inj hpq], (List.cons.inj hrest).2⟩
  | infinite negative =>
    cases negative with
    | false => exact absurd h (hword (w := []) (by decide) (by decide) fun _ he => nomatch he)
    | true =>
      refine absurd h (hword (w := ['-']) (by decide) (by decide) fun e he => ?_)
      obtain rfl := List.mem_singleton.mp he
      decide
  | nan => exact absurd h (hword (w := []) (by decide) (by decide) fun _ he => nomatch he)

theorem payload_split (hF : FloatText r.repr) {p o : Payload} {s : String} {q : ℚ} (hs : o.a = .str s) (hq : o.b = .finite q)
    {x y : List Char} (h : render r.python p.json.sortKeys ++ x = render r.serde o.json.sortKeys ++ y) :
    p = o ∧ Uniform s ∧ x = y := by
  rw [render_python, render_serde] at h
  unfold rowText at h
  simp only [List.cons.injEq, true_and, hs, hq] at h
  obtain ⟨t, ht⟩ := r.head_quote hF h
  rw [ht] at h
  obtain ⟨rfl, hbalance, hchars⟩ := @quote_mixed _ r.python r.serde sameText _ _ _ _ h
  simp only [List.cons.injEq, true_and] at hbalance
  obtain ⟨hb, hcode⟩ := r.text_split hF hbalance
  simp only [List.cons.injEq, true_and] at hcode
  obtain ⟨hc, hnonce, -⟩ := @quote_mixed _ r.python r.serde sameText _ _ _ _ hcode
  simp only [List.cons.injEq, true_and] at hnonce
  obtain ⟨hn, hstorage⟩ := token_split (intChars_chars p.n) (intChars_chars o.n) (delim_comma _) (delim_comma _) hnonce
  simp only [List.cons.injEq, true_and] at hstorage
  obtain ⟨hst, hrest, -⟩ := @quote_mixed _ r.python r.serde sameText _ _ _ _ hstorage
  refine ⟨?_, fun c hc => (escapeAscii_eq c).mp (hchars c hc), (List.cons.inj hrest).2⟩
  obtain ⟨pa, pb, pn, pc, ps⟩ := p
  obtain ⟨oa, ob, on, oc, os⟩ := o
  simp only at hs hq ht hb hc hn hst
  rw [ht, hs, hb, hq, hc, intChars_inj hn, hst]

theorem uniform_hashOrEmpty (s : String) : Uniform (hashOrEmpty s) := by
  unfold hashOrEmpty
  by_cases h : s = ""
  · rw [if_pos h]
    exact fun c hc => nomatch hc
  · rw [if_neg h]
    intro c hc
    unfold hashData sha256Hex Digest.sha256Hex at hc
    rw [String.toList_ofList] at hc
    obtain ⟨w, -, hw⟩ := List.mem_flatMap.mp hc
    obtain ⟨i, -, rfl⟩ := List.mem_map.mp hw
    have hk : Nat.shiftRight w (28 - 4 * i) % 16 < 16 := Nat.mod_lt _ (by decide)
    interval_cases Nat.shiftRight w (28 - 4 * i) % 16 <;> decide

theorem quote_uniform {s : String} (h : Uniform s) : quote r.python s = quote r.serde s :=
  quote_congr fun c hc => (escapeAscii_eq c).mpr (h c hc)

theorem rowText_uniform {p : Payload} {s : String} (hs : p.a = .str s) (ha : Uniform s) (hc : Uniform p.c) (hst : Uniform p.s)
    (rest : List Char) : rowText r.python p rest = rowText r.serde p rest := by
  unfold rowText
  rw [hs]
  simp only [Json.sortKeys, render]
  rw [r.quote_uniform ha, r.quote_uniform hc, r.quote_uniform hst]
  rfl

variable {rows : List Row} {ps os : List Payload}

theorem sortKeys_listOf (l : List (Json Double)) : (list l).sortKeys = list (l.map Json.sortKeys) := by
  have hitems : ∀ l : List (Json Double), (Items.ofList l).sortKeys = .ofList (l.map Json.sortKeys) := by
    intro l
    induction l with
    | nil => rfl
    | cons v l ih =>
      unfold Items.ofList Items.sortKeys
      rw [ih]
      rfl
  unfold list
  rw [Json.sortKeys, hitems]

theorem items_eq (hF : FloatText r.repr) (hp : List.Forall₂ (fun row p => r.pythonRow row = some p) rows ps)
    (ho : List.Forall₂ (fun row o => r.accountPayloadRow row = some o) rows os) :
    renderItems r.python (.ofList (ps.map fun p => p.json.sortKeys)) =
      renderItems r.serde (.ofList (os.map fun o => o.json.sortKeys)) ↔ ∀ row ∈ rows, r.Shared row := by
  induction hp generalizing os with
  | nil =>
    cases ho
    exact iff_of_true rfl fun _ h => nomatch h
  | @cons row p rows ps hrow hrows ih =>
    cases ho with
    | @cons _ o _ os horow horows =>
      rw [List.forall_mem_cons, ← ih horows]
      simp only [List.map_cons, Items.ofList, renderItems]
      obtain ⟨q, hq, hform⟩ := r.accountPayloadRow_some.mp horow
      constructor
      · intro h
        have hcomma := @List.append_cancel_left _ [','] _ _ h
        obtain ⟨hpo, huniform, hrest⟩ := r.payload_split hF (by rw [hform]) (by rw [hform]) hcomma
        exact ⟨⟨p, _, hrow, by rw [horow, hpo], by rw [hpo, hform], huniform⟩, hrest⟩
      · rintro ⟨⟨p', s, hp', ho', hstr, huniform⟩, hrest⟩
        obtain rfl := Option.some.inj (hrow.symm.trans hp')
        obtain rfl := Option.some.inj (horow.symm.trans ho')
        obtain ⟨code, storage, a, d, n, -, -, -, -, -, hfields⟩ := r.pythonRow_some.mp hrow
        refine congrArg (List.append [',']) ?_
        rw [hrest, render_python, render_serde]
        exact r.rowText_uniform hstr huniform (by rw [hfields]; exact uniform_hashOrEmpty _)
          (by rw [hfields]; exact uniform_hashOrEmpty _) _

theorem texts_eq (hF : FloatText r.repr) (hp : List.Forall₂ (fun row p => r.pythonRow row = some p) rows ps)
    (ho : List.Forall₂ (fun row o => r.accountPayloadRow row = some o) rows os) :
    r.pythonText ps = r.rustText os ↔ ∀ row ∈ rows, r.Shared row := by
  rw [← r.items_eq hF hp ho]
  unfold pythonText rustText dumps
  rw [sortKeys_listOf, sortKeys_listOf, List.map_map, List.map_map]
  have htext : ∀ {l m : List Char}, String.ofList l = String.ofList m ↔ l = m := by
    intro l m
    rw [← String.toList_inj, String.toList_ofList, String.toList_ofList]
  rw [htext]
  cases hp with
  | nil =>
    cases ho
    exact iff_of_true rfl rfl
  | @cons row p rows ps hrow hrows =>
    cases ho with
    | @cons _ o _ os horow horows =>
      have hcancel : ∀ {a b : Char} {l m : List Char}, a :: l = a :: m ↔ b :: l = b :: m := by simp
      exact hcancel

/-! ## Whole lists -/

theorem mapM_some {α β : Type} {f : α → Option β} {l : List α} {k : List β} :
    l.mapM f = some k ↔ List.Forall₂ (fun a b => f a = some b) l k := by
  induction l generalizing k with
  | nil =>
    rw [List.mapM_nil, List.forall₂_nil_left_iff]
    exact ⟨fun h => (Option.some.inj h).symm, fun h => by rw [h]; rfl⟩
  | cons a l ih =>
    rw [List.mapM_cons]
    simp only [Option.bind_eq_bind, Option.bind_eq_some_iff, Option.pure_def, Option.some.injEq]
    constructor
    · rintro ⟨b, hb, t, ht, rfl⟩
      exact .cons hb (ih.mp ht)
    · intro h
      cases h with
      | cons hb ht => exact ⟨_, hb, _, ih.mpr ht, rfl⟩

theorem mapM_none {α β : Type} {f : α → Option β} {l : List α} : l.mapM f = none ↔ ∃ a ∈ l, f a = none := by
  induction l with
  | nil => exact iff_of_false (fun h => nomatch h) fun ⟨_, h, _⟩ => nomatch h
  | cons a l ih =>
    rw [List.mapM_cons, List.exists_mem_cons_iff, ← ih]
    cases f a with
    | none => exact iff_of_true rfl (.inl rfl)
    | some b =>
      cases l.mapM f with
      | none => exact iff_of_true rfl (.inr rfl)
      | some t => exact iff_of_false (fun h => nomatch h) fun h => h.elim (fun h => nomatch h) fun h => nomatch h

/-- Python raises on the row. -/
def Malformed (row : Row) : Prop :=
  textOr (row.get? "code") "" = none ∨ textOr (row.get? "storage") "{}" = none ∨ row.get? "address" = none ∨
    (row.get? "balance").bind r.toFloat = none ∨ (row.get? "nonce").bind r.toInt = none

theorem malformed_iff {row : Row} : r.Malformed row ↔ r.pythonRow row = none := by
  unfold Malformed pythonRow
  cases textOr (row.get? "code") "" <;> cases textOr (row.get? "storage") "{}" <;> cases row.get? "address" <;>
    cases (row.get? "balance").bind r.toFloat <;> cases (row.get? "nonce").bind r.toInt <;> simp

/-- The extension raises on the row: a number that JSON does not have, or a balance whose text is read as one. -/
def Refused (row : Row) : Prop := readableFields row = false ∨ ∀ q, r.valueToF64 (row.get? "balance") ≠ .finite q

theorem refused_iff {row : Row} : r.Refused row ↔ readableFields row = false ∨ r.accountPayloadRow row = none := by
  refine or_congr_right ⟨fun h => ?_, fun h q hq => ?_⟩
  · refine Option.eq_none_iff_forall_ne_some.mpr fun p hp => ?_
    obtain ⟨q, hq, -⟩ := r.accountPayloadRow_some.mp hp
    obtain ⟨x, hx, -⟩ := round12_finite hq
    exact h x hx
  · have hsome := r.accountPayloadRow_some.mpr ⟨roundTo 12 q, by rw [hq]; rfl, rfl⟩
    rw [h] at hsome
    cases hsome

theorem rustStateRoot_none : r.rustStateRoot rows = none ↔ ∃ row ∈ rows, r.Refused row := by
  unfold rustStateRoot
  by_cases hall : rows.all readableFields = true
  · rw [if_pos hall, Option.map_eq_none_iff, mapM_none]
    refine exists_congr fun row => and_congr_right fun hrow => ?_
    rw [refused_iff, List.all_eq_true.mp hall row hrow]
    simp
  · rw [if_neg hall]
    refine iff_of_true rfl ?_
    rw [List.all_eq_true, not_forall] at hall
    obtain ⟨row, hrow⟩ := hall
    rw [Classical.not_imp, Bool.not_eq_true] at hrow
    exact ⟨row, hrow.1, .inl hrow.2⟩

def hashed (rows : List Row) : List String :=
  "{}" :: (rows.filterMap fun row => (row.get? "storage").map r.valueText) ++ (rows.mapM r.pythonRow).toList.map r.pythonText ++
    (rows.mapM r.accountPayloadRow).toList.map r.rustText

variable {r}

/-- Without a collision among the texts that are hashed the two roots agree exactly when both read
the same values in every row and all addresses are ASCII text, or both raise. -/
theorem state_roots_agree (hF : FloatText r.repr) (hs : HashTree.Apart sha (r.hashed rows)) :
    r.pythonStateRoot rows = r.rustStateRoot rows ↔
      (∀ row ∈ rows, r.SameRow row ∧ readableFields row = true) ∨
      ((∃ row ∈ rows, r.Malformed row) ∧ ∃ row ∈ rows, r.Refused row) := by
  have hstorage : ∀ row ∈ rows, ∀ w, row.get? "storage" = some w → hashData "{}" = hashData (r.valueText w) → "{}" = r.valueText w := by
    intro row hrow w hw
    refine hs _ (by simp [hashed]) _ ?_
    refine List.mem_append_left _ (List.mem_append_left _ (List.mem_cons_of_mem _ ?_))
    exact List.mem_filterMap.mpr ⟨row, hrow, by rw [hw]; rfl⟩
  have hrows : ∀ row ∈ rows, (r.Shared row ↔ r.SameRow row) := fun row hrow => r.sameRow_iff hF (hstorage row hrow)
  have hpython : r.pythonStateRoot rows = none ↔ ∃ row ∈ rows, r.Malformed row := by
    unfold pythonStateRoot
    rw [Option.map_eq_none_iff, mapM_none]
    exact exists_congr fun row => and_congr_right fun _ => r.malformed_iff.symm
  -- the native kernel refuses a row, or returns a root
  by_cases hrefused : ∃ row ∈ rows, r.Refused row
  · rw [r.rustStateRoot_none.mpr hrefused, hpython]
    constructor
    · exact fun h => .inr ⟨h, hrefused⟩
    · rintro (h | h)
      · obtain ⟨row, hrow, href⟩ := hrefused
        obtain ⟨p, s, -, hrust, -⟩ := (hrows row hrow).mpr (h row hrow).1
        rcases r.refused_iff.mp href with hread | hnone
        · rw [(h row hrow).2] at hread
          cases hread
        · rw [hrust] at hnone
          cases hnone
      · exact h.1
  · rw [or_iff_left fun h => hrefused h.2]
    have hread : ∀ row ∈ rows, readableFields row = true := by
      intro row hrow
      by_contra hne
      exact hrefused ⟨row, hrow, .inl (Bool.not_eq_true _ ▸ hne)⟩
    obtain ⟨os, hos⟩ : ∃ os, rows.mapM r.accountPayloadRow = some os := by
      refine Option.ne_none_iff_exists'.mp fun hnone => ?_
      obtain ⟨row, hrow, h⟩ := mapM_none.mp hnone
      exact hrefused ⟨row, hrow, r.refused_iff.mpr (.inr h)⟩
    have hrust : r.rustStateRoot rows = some (hashData (r.rustText os)) := by
      unfold rustStateRoot
      rw [if_pos (List.all_eq_true.mpr hread), hos]
      rfl
    rw [hrust]
    -- so does Python
    cases hps : rows.mapM r.pythonRow with
    | none =>
      have hnone : r.pythonStateRoot rows = none := by
        unfold pythonStateRoot
        rw [hps]
        rfl
      rw [hnone]
      refine iff_of_false (fun h => nomatch h) fun h => ?_
      obtain ⟨row, hrow, hraise⟩ := mapM_none.mp hps
      obtain ⟨p, s, hsome, -⟩ := (hrows row hrow).mpr (h row hrow).1
      rw [hraise] at hsome
      cases hsome
    | some ps =>
      have hsome : r.pythonStateRoot rows = some (hashData (r.pythonText ps)) := by
        unfold pythonStateRoot
        rw [hps]
        rfl
      have htexts : hashData (r.pythonText ps) = hashData (r.rustText os) ↔ r.pythonText ps = r.rustText os := by
        refine ⟨hs _ ?_ _ ?_, congrArg hashData⟩
        · exact List.mem_append_left _ (List.mem_append_right _ (by rw [hps]; exact List.mem_singleton_self _))
        · exact List.mem_append_right _ (by rw [hos]; exact List.mem_singleton_self _)
      rw [hsome, Option.some.injEq, htexts, r.texts_eq hF (mapM_some.mp hps) (mapM_some.mp hos)]
      exact forall₂_congr fun row hrow => by rw [hrows row hrow, and_iff_left (hread row hrow)]

def plain : Numerals :=
  { repr := Host.plain.floatRepr, pyFloat := fun _ => none, pyInt := fun _ => none, rustFloat := fun _ => none,
    rustInt := fun _ => none }

def rowOf (address : String) : Row := .ofList [("address", .str address), ("balance", .int 5), ("nonce", .int 0)]

theorem state_roots_agree_ascii : plain.pythonStateRoot [rowOf "a"] = plain.rustStateRoot [rowOf "a"] := by
  have hround : roundTo 12 ((5 : ℤ) : ℚ) = 5 := by decide +kernel
  have huniform : Uniform "a" := by
    intro c hc
    obtain rfl := List.mem_singleton.mp hc
    decide
  have hpython : plain.pythonRow (rowOf "a") = some ⟨.str "a", .finite 5, 0, "", hashData "{}"⟩ :=
    plain.pythonRow_some.mpr ⟨"", "{}", _, _, _, rfl, rfl, rfl, rfl, rfl, by rw [Double.round12, hround]; rfl⟩
  have hrust : plain.accountPayloadRow (rowOf "a") = some ⟨.str "a", .finite 5, 0, "", hashData "{}"⟩ :=
    plain.accountPayloadRow_some.mpr ⟨5, congrArg Double.finite hround, rfl⟩
  have hsame : plain.rustText [⟨.str "a", .finite 5, 0, "", hashData "{}"⟩] =
      plain.pythonText [⟨.str "a", .finite 5, 0, "", hashData "{}"⟩] := by
    refine ((plain.texts_eq Blockchain.floatText_plain (.cons hpython .nil) (.cons hrust .nil)).mpr fun row hrow => ?_).symm
    obtain rfl := List.mem_singleton.mp hrow
    exact ⟨_, "a", hpython, hrust, rfl, huniform⟩
  have hne : hashData "{}" ≠ hashData (plain.pythonText [⟨.str "a", .finite 5, 0, "", hashData "{}"⟩]) := by
    decide +kernel
  obtain ⟨t, htexts⟩ : ∃ t, plain.hashed [rowOf "a"] = ["{}", t, t] ∧ hashData "{}" ≠ hashData t := by
    refine ⟨_, ?_, hne⟩
    unfold hashed
    rw [mapM_some.mpr (.cons hpython .nil), mapM_some.mpr (.cons hrust .nil)]
    simp only [Option.toList_some, List.map_cons, List.map_nil, hsame]
    rfl
  obtain ⟨htexts, hne⟩ := htexts
  have hs : HashTree.Apart sha (plain.hashed [rowOf "a"]) := by
    rw [htexts]
    intro x hx y hy hxy
    have hhash : hashData x = hashData y := hxy
    simp only [List.mem_cons, List.not_mem_nil, or_false, or_self] at hx hy
    rcases hx with rfl | rfl <;> rcases hy with rfl | rfl
    · rfl
    · exact absurd hhash hne
    · exact absurd hhash.symm hne
    · rfl
  refine (state_roots_agree Blockchain.floatText_plain hs).mpr (.inl fun row hrow => ?_)
  obtain rfl := List.mem_singleton.mp hrow
  exact ⟨{ address := huniform, balance := trivial, nonce := rfl, code := trivial, storage := trivial }, rfl⟩

/-- The same balance under an address with an accent. -/
theorem state_roots_differ : plain.pythonStateRoot [rowOf "é"] ≠ plain.rustStateRoot [rowOf "é"] := by
  decide +kernel

end Numerals

end AbsoluteChain
