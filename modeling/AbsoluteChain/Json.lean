import AbsoluteChain.Python

/-!
# JSON text

Values as `json.dumps` accepts them and the text it produces. The type `φ` of
float leaves is a parameter: a value over `Empty` holds no floats at all.
-/

namespace JsonText

open Python

mutual
inductive Json (φ : Type) where
  | null
  | bool (b : Bool)
  | int (n : Int)
  | float (x : φ)
  | str (s : String)
  | arr (items : Items φ)
  | obj (fields : Fields φ)
inductive Items (φ : Type) where
  | nil
  | cons (v : Json φ) (t : Items φ)
inductive Fields (φ : Type) where
  | nil
  | cons (k : String) (v : Json φ) (t : Fields φ)
end

variable {φ : Type}

def Items.ofList : List (Json φ) → Items φ
  | [] => .nil
  | v :: t => .cons v (ofList t)

def Fields.ofList : List (String × Json φ) → Fields φ
  | [] => .nil
  | (k, v) :: t => .cons k v (ofList t)

def list (l : List (Json φ)) : Json φ := .arr (.ofList l)

def dict (l : List (String × Json φ)) : Json φ := .obj (.ofList l)

def Fields.insert (k : String) (v : Json φ) : Fields φ → Fields φ
  | .nil => .cons k v .nil
  | .cons k' v' t => if k ≤ k' then .cons k v (.cons k' v' t) else .cons k' v' (Fields.insert k v t)

mutual
def Json.sortKeys : Json φ → Json φ
  | .arr items => .arr items.sortKeys
  | .obj fields => .obj fields.sortKeys
  | v => v
def Items.sortKeys : Items φ → Items φ
  | .nil => .nil
  | .cons v t => .cons v.sortKeys t.sortKeys
def Fields.sortKeys : Fields φ → Fields φ
  | .nil => .nil
  | .cons k v t => Fields.insert k v.sortKeys t.sortKeys
end

/-! ## Strings -/

def hex4 (n : Nat) : List Char :=
  [hexDigit (n / 4096 % 16), hexDigit (n / 256 % 16), hexDigit (n / 16 % 16), hexDigit (n % 16)]

def unicodeEscape (n : Nat) : List Char := '\\' :: 'u' :: hex4 n

/-- The escapes both modes of `json.dumps` share. -/
def shortEscape (n : Nat) : Option Char :=
  if n = 34 then some '"'
  else if n = 92 then some '\\'
  else if n = 10 then some 'n'
  else if n = 13 then some 'r'
  else if n = 9 then some 't'
  else if n = 12 then some 'f'
  else if n = 8 then some 'b'
  else none

/-- `ensure_ascii=True`: everything outside the printable ASCII range is escaped,
with surrogate pairs above the basic plane. -/
def escapeAscii (c : Char) : List Char :=
  let n := c.toNat
  match shortEscape n with
  | some x => ['\\', x]
  | none =>
    if 32 ≤ n ∧ n ≤ 126 then [c]
    else if n < 65536 then unicodeEscape n
    else unicodeEscape (0xd800 + (n - 65536) / 1024) ++ unicodeEscape (0xdc00 + (n - 65536) % 1024)

/-- `ensure_ascii=False`: only the quote, the backslash and control characters. -/
def escapeUnicode (c : Char) : List Char :=
  let n := c.toNat
  match shortEscape n with
  | some x => ['\\', x]
  | none => if n < 32 then unicodeEscape n else [c]

/-! ## Rendering -/

structure Style (φ : Type) where
  escape : Char → List Char
  itemSep : List Char
  keySep : List Char
  repr : φ → List Char

/-- `separators=(",", ":")`. -/
def compact (escape : Char → List Char) (repr : φ → List Char) : Style φ :=
  { escape, itemSep := [','], keySep := [':'], repr }

/-- The default separators of `json.dumps`. -/
def spaced (escape : Char → List Char) (repr : φ → List Char) : Style φ :=
  { escape, itemSep := [',', ' '], keySep := [':', ' '], repr }

/-- `str(n)`. -/
def intChars : Int → List Char
  | .ofNat n => Nat.toDigits 10 n
  | .negSucc n => '-' :: Nat.toDigits 10 (n + 1)

def quoteTail (st : Style φ) : List Char → List Char
  | [] => ['"']
  | c :: t => st.escape c ++ quoteTail st t

def quote (st : Style φ) (s : String) : List Char := '"' :: quoteTail st s.toList

mutual
def render (st : Style φ) : Json φ → List Char
  | .null => ['n', 'u', 'l', 'l']
  | .bool true => ['t', 'r', 'u', 'e']
  | .bool false => ['f', 'a', 'l', 's', 'e']
  | .int n => intChars n
  | .float x => st.repr x
  | .str s => quote st s
  | .arr .nil => ['[', ']']
  | .arr (.cons v t) => '[' :: (render st v ++ renderItems st t)
  | .obj .nil => ['{', '}']
  | .obj (.cons k v t) => '{' :: (quote st k ++ (st.keySep ++ (render st v ++ renderFields st t)))
def renderItems (st : Style φ) : Items φ → List Char
  | .nil => [']']
  | .cons v t => st.itemSep ++ (render st v ++ renderItems st t)
def renderFields (st : Style φ) : Fields φ → List Char
  | .nil => ['}']
  | .cons k v t => st.itemSep ++ (quote st k ++ (st.keySep ++ (render st v ++ renderFields st t)))
end

def dumps (st : Style φ) (v : Json φ) : String := String.ofList (render st v.sortKeys)

end JsonText
