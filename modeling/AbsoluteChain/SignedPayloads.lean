import AbsoluteChain.NativeRoot
import AbsoluteChain.Positions
import AbsoluteChain.Wallet

/-!
# Signed dictionaries

`crypto/wallet.py` signs and verifies dictionaries of JSON values, in which any field may be
missing and hold anything. Fields with a default are left out of the text that is signed.
-/

namespace AbsoluteChain

open Python JsonText

/-! ## Floats -/

theorem Double.lettered {repr : ℚ → List Char} {d : Double} (hd : ∀ q, d ≠ .finite q) :
    Lettered (d.text repr) := by
  have hinf : Lettered ['I', 'n', 'f', 'i', 'n', 'i', 't', 'y'] := ⟨by simp, 'I', by simp, by decide⟩
  have hneg : Lettered ['-', 'I', 'n', 'f', 'i', 'n', 'i', 't', 'y'] := ⟨by simp, 'I', by simp, by decide⟩
  have hnan : Lettered ['N', 'a', 'N'] := ⟨by simp, 'N', by simp, by decide⟩
  cases d with
  | finite q => exact absurd rfl (hd q)
  | infinite negative =>
    cases negative with
    | false => exact hinf
    | true => exact hneg
  | nan => exact hnan

theorem Double.lettered_split {repr : ℚ → List Char} {d d' : Double} {r s : List Char} (hd : ∀ q, d ≠ .finite q)
    (hd' : ∀ q, d' ≠ .finite q) (h : d.text repr ++ r = d'.text repr ++ s) : d = d' ∧ r = s := by
  rcases d with q | (_ | _) | _
  · exact absurd rfl (hd q)
  all_goals
    rcases d' with q' | (_ | _) | _
    · exact absurd rfl (hd' q')
    all_goals simp [Double.text] at h
    all_goals exact ⟨rfl, h⟩

theorem Double.leaves {repr : ℚ → List Char} (hF : FloatText repr) : Leaves (Double.text repr) where
  head d := by
    rcases d with q | (_ | _) | _
    · obtain ⟨c, t, hq, hc⟩ := number_head (hF.ne_nil q) (hF.chars q)
      exact ⟨c, t, hq, .inl hc⟩
    · exact ⟨_, _, rfl, .inr (by decide)⟩
    · exact ⟨_, _, rfl, .inl (by decide)⟩
    · exact ⟨_, _, rfl, .inr (by decide)⟩
  split := by
    intro x y r s hr hs h
    by_cases hx : ∃ p, x = .finite p
    · obtain ⟨p, rfl⟩ := hx
      by_cases hy : ∃ q, y = .finite q
      · obtain ⟨q, rfl⟩ := hy
        obtain ⟨hpq, hrest⟩ := token_split (hF.chars p) (hF.chars q) hr.delim hs.delim h
        exact ⟨by rw [hF.inj hpq], hrest⟩
      · exact absurd h ((Double.lettered (not_exists.mp hy)).ne_token (hF.chars p) hr)
    · by_cases hy : ∃ q, y = .finite q
      · obtain ⟨q, rfl⟩ := hy
        exact absurd h.symm ((Double.lettered (not_exists.mp hx)).ne_token (hF.chars q) hs)
      · exact Double.lettered_split (not_exists.mp hx) (not_exists.mp hy) h
  ne_int := by
    intro x n r s hr hs h
    by_cases hx : ∃ q, x = .finite q
    · obtain ⟨q, rfl⟩ := hx
      exact hF.ne_int q n (token_split (hF.chars q) (intChars_chars n) hr.delim hs.delim h).1
    · exact (Double.lettered (not_exists.mp hx)).ne_token (intChars_chars n) hs h.symm

theorem Numerals.readable_python {r : Numerals} (hF : FloatText r.repr) : Readable r.python :=
  ⟨escapes_ascii, Double.leaves hF, [], rfl⟩

namespace SignedPayloads

open Numerals

/-! ## The text that is signed -/

/-- What a call may raise. -/
inductive Fault where
  | keyError (key : String)
  | badGas
  | unwritable
  deriving DecidableEq

/-- What the wallet runs on. Not every value is `writable`: `json.dumps` raises on integers that are too long and on
nesting that is too deep. -/
structure Backend where
  numerals : Numerals
  writable : Json Double → Bool
  ecdsaAvailable : Bool
  native : Option (Bytes → Bytes → Bytes → Bool)
  openssl : Bytes → Bytes → Bytes → Bool

def item (tx : Row) (key : String) : Except Fault (Json Double) :=
  match tx.get? key with
  | some v => .ok v
  | none => .error (.keyError key)

def chainIdOf (tx : Row) : Json Double := (tx.get? "chain_id").getD (.int 1)

def rawData (tx : Row) : Json Double := (tx.get? "data").getD (.str "")

def dataOf (tx : Row) : Json Double := if truthy (rawData tx) then rawData tx else .str ""

def gasOf (tx : Row) : Json Double :=
  let gasLimit := (tx.get? "gas_limit").getD .null
  if truthy gasLimit then gasLimit else (tx.get? "gas").getD .null

def gasFields (r : Numerals) (tx : Row) : Except Fault (List (String × Json Double)) :=
  match gasOf tx with
  | .null => .ok []
  | gas =>
    match r.toInt gas with
    | none => .error .badGas
    | some n => .ok (if n = 21000 then [] else [("gas_limit", .int n)])

/-- The items of the payload. -/
def fieldsOf (fromAddr toAddr value nonce : Json Double) (tx : Row) (gas : List (String × Json Double)) :
    List (String × Json Double) :=
  [("from", fromAddr), ("to", toAddr), ("value", value), ("nonce", nonce), ("chain_id", chainIdOf tx)] ++
    (if truthy (dataOf tx) then [("data", dataOf tx)] else []) ++ gas

def canonicalTxForHash (r : Numerals) (tx : Row) : Except Fault (Json Double) := do
  let fromAddr ← item tx "from"
  let toAddr ← item tx "to"
  let value ← item tx "value"
  let nonce ← item tx "nonce"
  let gas ← gasFields r tx
  pure (dict (fieldsOf fromAddr toAddr value nonce tx gas))

/-- The dictionary that `_transaction_signature_material` makes of a transaction. -/
def rebuilt (tx : Row) : Except Fault Row := do
  let fromAddr ← item tx "from"
  let toAddr ← item tx "to"
  let value ← item tx "value"
  let nonce ← item tx "nonce"
  pure (.ofList [("from", fromAddr), ("to", toAddr), ("value", value), ("nonce", nonce), ("chain_id", chainIdOf tx),
    ("data", rawData tx), ("gas_limit", gasOf tx)])

def fromHex : Json Double → Option Bytes
  | .str s => bytesFromHex s
  | _ => none

namespace Backend

variable (b : Backend)

def signingText (tx : Row) : Except Fault String := do
  let payload ← canonicalTxForHash b.numerals tx
  if b.writable payload then pure (dumps b.numerals.python payload) else throw .unwritable

def hashTransaction (tx : Row) : Except Fault String := (b.signingText tx).map fun text => sha256Hex (encode text)

def transactionSignatureMaterial (tx : Row) : Except Fault (Option (Bytes × Bytes × Bytes)) :=
  match tx.get? "signature", tx.get? "public_key" with
  | some signature, some publicKey => do
    let hash ← rebuilt tx >>= b.hashTransaction
    match fromHex signature, fromHex publicKey with
    | some signature, some publicKey => pure (some (encode hash, signature, publicKey))
    | _, _ => pure none
  | _, _ => pure none

/-! ## Verification -/

def verify (m : Bytes × Bytes × Bytes) : Bool :=
  if ¬ b.ecdsaAvailable then false
  else
    match b.native with
    | some check => check m.1 m.2.1 m.2.2
    | none => b.openssl m.1 m.2.1 m.2.2

def verifyBatchSha256 (batch : List (Bytes × Bytes × Bytes)) : List Bool :=
  if ¬ b.ecdsaAvailable then batch.map fun _ => false
  else
    match b.native with
    | some check => batch.map fun m => check m.1 m.2.1 m.2.2
    | none => batch.map b.verify

def verifyTransactionSignature (tx : Row) : Except Fault Bool := do
  match ← b.transactionSignatureMaterial tx with
  | none => pure false
  | some material => if ¬ b.ecdsaAvailable then pure false else pure (b.verify material)

def collectBatch : Nat → List Row → Except Fault (List (Nat × Bytes × Bytes × Bytes))
  | _, [] => pure []
  | i, tx :: rest => do
    match ← b.transactionSignatureMaterial tx with
    | none => collectBatch (i + 1) rest
    | some material =>
      let batch ← collectBatch (i + 1) rest
      pure ((i, material) :: batch)

def verifyTransactionSignaturesBatch (txs : List Row) : Except Fault (List Bool) :=
  if ¬ b.ecdsaAvailable then pure (txs.map fun _ => false)
  else do
    let results := List.replicate txs.length false
    let batch ← b.collectBatch 0 txs
    if batch = [] then pure results
    else
      let verified := b.verifyBatchSha256 (batch.map Prod.snd)
      pure (Positions.scatter ((batch.map Prod.fst).zip verified) results)

end Backend

/-! ## What the text determines -/

def effectiveGas (r : Numerals) (tx : Row) : Option Int :=
  match gasOf tx with
  | .null => some 21000
  | gas => r.toInt gas

/-- The same value, as dictionaries are the same in any order of their keys. -/
def Same (v w : Option (Json Double)) : Prop := v.map Json.sortKeys = w.map Json.sortKeys

/-- Two transactions with the same fields. A missing chain id is 1, and data that is missing or counts as false is
the empty text. -/
structure Agree (r : Numerals) (tx tx' : Row) : Prop where
  fromAddr : Same (tx.get? "from") (tx'.get? "from")
  toAddr : Same (tx.get? "to") (tx'.get? "to")
  value : Same (tx.get? "value") (tx'.get? "value")
  nonce : Same (tx.get? "nonce") (tx'.get? "nonce")
  chainId : Same (some (chainIdOf tx)) (some (chainIdOf tx'))
  data : Same (some (dataOf tx)) (some (dataOf tx'))
  gas : effectiveGas r tx = effectiveGas r tx'

section
variable {b : Backend} {r : Numerals} {tx tx' : Row}

theorem bind_ok {α β : Type} {x : Except Fault α} {k : α → Except Fault β} {y : β} :
    (x >>= k) = .ok y ↔ ∃ a, x = .ok a ∧ k a = .ok y := by
  cases x with
  | error e => simp [bind, Except.bind]
  | ok a => simp [bind, Except.bind]

theorem item_ok {key : String} {v : Json Double} : item tx key = .ok v ↔ tx.get? key = some v := by
  unfold item
  cases tx.get? key with
  | none => simp
  | some w => simp

theorem gasFields_ok {g : List (String × Json Double)} (h : gasFields r tx = .ok g) :
    ∃ n, effectiveGas r tx = some n ∧ g = if n = 21000 then [] else [("gas_limit", .int n)] := by
  unfold gasFields at h
  unfold effectiveGas
  split at h
  · exact ⟨21000, rfl, (Except.ok.inj h).symm⟩
  · split at h
    · cases h
    · rename_i n hn
      exact ⟨n, hn, (Except.ok.inj h).symm⟩

/-- A payload has the fields of its transaction, without those that have their defaults. -/
theorem canonicalTxForHash_ok {p : Json Double} (h : canonicalTxForHash r tx = .ok p) :
    ∃ f t v m n, tx.get? "from" = some f ∧ tx.get? "to" = some t ∧ tx.get? "value" = some v ∧
      tx.get? "nonce" = some m ∧ effectiveGas r tx = some n ∧
      p = dict (fieldsOf f t v m tx (if n = 21000 then [] else [("gas_limit", .int n)])) := by
  unfold canonicalTxForHash at h
  simp only [bind_ok, item_ok] at h
  obtain ⟨f, hf, t, ht, v, hv, m, hm, g, hg, hp⟩ := h
  obtain ⟨n, hn, rfl⟩ := gasFields_ok hg
  exact ⟨f, t, v, m, n, hf, ht, hv, hm, hn, (Except.ok.inj hp).symm⟩

theorem get?_fieldsOf (f t v m : Json Double) (tx : Row) (n : Int) :
    let fields := Fields.ofList (fieldsOf f t v m tx (if n = 21000 then [] else [("gas_limit", .int n)]))
    fields.get? "from" = some f ∧ fields.get? "to" = some t ∧ fields.get? "value" = some v ∧
      fields.get? "nonce" = some m ∧ fields.get? "chain_id" = some (chainIdOf tx) ∧
      fields.get? "data" = (if truthy (dataOf tx) then some (dataOf tx) else none) ∧
      fields.get? "gas_limit" = if n = 21000 then none else some (.int n) := by
  unfold fieldsOf
  by_cases hdata : truthy (dataOf tx) = true
  · by_cases hgas : n = 21000
    · simp [hdata, hgas, Fields.ofList, Fields.get?]
    · simp [hdata, hgas, Fields.ofList, Fields.get?]
  · by_cases hgas : n = 21000
    · simp [hdata, hgas, Fields.ofList, Fields.get?]
    · simp [hdata, hgas, Fields.ofList, Fields.get?]

theorem dataOf_false (h : ¬ truthy (dataOf tx) = true) : dataOf tx = .str "" := by
  unfold dataOf at h ⊢
  by_cases hraw : truthy (rawData tx) = true
  · rw [if_pos hraw] at h
    exact absurd hraw h
  · rw [if_neg hraw]

/-- What is left out of a payload is what has its default. -/
theorem data_same {tx tx' : Row}
    (h : Same (if truthy (dataOf tx) then some (dataOf tx) else none)
      (if truthy (dataOf tx') then some (dataOf tx') else none)) : Same (some (dataOf tx)) (some (dataOf tx')) := by
  by_cases hx : truthy (dataOf tx) = true
  · by_cases hy : truthy (dataOf tx') = true
    · rw [if_pos hx, if_pos hy] at h
      exact h
    · rw [if_pos hx, if_neg hy] at h
      cases h
  · by_cases hy : truthy (dataOf tx') = true
    · rw [if_neg hx, if_pos hy] at h
      cases h
    · rw [dataOf_false hx, dataOf_false hy]
      rfl

theorem gas_same {m n : Int}
    (h : Same (if m = 21000 then none else some (.int m)) (if n = 21000 then none else some (.int n))) : m = n := by
  unfold Same at h
  by_cases hm : m = 21000
  · by_cases hn : n = 21000
    · rw [hm, hn]
    · simp [hm, hn] at h
  · by_cases hn : n = 21000
    · simp [hm, hn] at h
    · simpa [hm, hn, Json.sortKeys] using h

theorem agree_of_sortKeys {p p' : Json Double} (hp : canonicalTxForHash r tx = .ok p)
    (hp' : canonicalTxForHash r tx' = .ok p') (h : p.sortKeys = p'.sortKeys) : Agree r tx tx' := by
  obtain ⟨f, t, v, m, n, hf, ht, hv, hm, hn, rfl⟩ := canonicalTxForHash_ok hp
  obtain ⟨f', t', v', m', n', hf', ht', hv', hm', hn', rfl⟩ := canonicalTxForHash_ok hp'
  obtain ⟨gf, gt, gv, gm, gc, gd, gg⟩ := get?_fieldsOf f t v m tx n
  obtain ⟨gf', gt', gv', gm', gc', gd', gg'⟩ := get?_fieldsOf f' t' v' m' tx' n'
  have hkey := get?_of_sortKeys h
  refine ⟨?_, ?_, ?_, ?_, ?_, ?_, ?_⟩
  · rw [hf, hf', ← gf, ← gf']
    exact hkey "from"
  · rw [ht, ht', ← gt, ← gt']
    exact hkey "to"
  · rw [hv, hv', ← gv, ← gv']
    exact hkey "value"
  · rw [hm, hm', ← gm, ← gm']
    exact hkey "nonce"
  · rw [← gc, ← gc']
    exact hkey "chain_id"
  · apply data_same
    rw [← gd, ← gd']
    exact hkey "data"
  · rw [hn, hn']
    refine congrArg some (gas_same ?_)
    rw [← gg, ← gg']
    exact hkey "gas_limit"

/-- The text of a payload determines the transaction. -/
theorem agree_of_text (hF : FloatText b.numerals.repr) {text : String} (h : b.signingText tx = .ok text)
    (h' : b.signingText tx' = .ok text) : Agree b.numerals tx tx' := by
  have hpayload : ∀ {tx : Row}, b.signingText tx = .ok text →
      ∃ p, canonicalTxForHash b.numerals tx = .ok p ∧ dumps b.numerals.python p = text := by
    intro tx h
    unfold Backend.signingText at h
    obtain ⟨p, hp, hrest⟩ := bind_ok.mp h
    split at hrest
    · exact ⟨p, hp, Except.ok.inj hrest⟩
    · cases hrest
  obtain ⟨p, hp, htext⟩ := hpayload h
  obtain ⟨p', hp', htext'⟩ := hpayload h'
  exact agree_of_sortKeys hp hp' (dumps_inj_of_readable (readable_python hF) (htext.trans htext'.symm))

/-! ## The batch -/

theorem collectBatch_eq (i : Nat) (txs : List Row) : b.collectBatch i txs =
    (txs.mapM b.transactionSignatureMaterial).map (Positions.collect i) := by
  induction txs generalizing i with
  | nil => rfl
  | cons tx rest ih =>
    unfold Backend.collectBatch
    rw [List.mapM_cons]
    cases b.transactionSignatureMaterial tx with
    | error e => rfl
    | ok material =>
      cases material with
      | none =>
        change b.collectBatch (i + 1) rest = _
        rw [ih]
        cases rest.mapM b.transactionSignatureMaterial with
        | error e => rfl
        | ok materials => rfl
      | some material =>
        change (b.collectBatch (i + 1) rest >>= _) = _
        rw [ih]
        cases rest.mapM b.transactionSignatureMaterial with
        | error e => rfl
        | ok materials => rfl

theorem verifyTransactionSignature_eq (h : b.ecdsaAvailable = true) (tx : Row) : b.verifyTransactionSignature tx =
    (b.transactionSignatureMaterial tx).map fun material => material.elim false b.verify := by
  unfold Backend.verifyTransactionSignature
  cases b.transactionSignatureMaterial tx with
  | error e => rfl
  | ok material =>
    cases material with
    | none => rfl
    | some material =>
      change (if ¬ b.ecdsaAvailable = true then _ else _) = _
      rw [if_neg (not_not.mpr h)]
      rfl

theorem verifyBatchSha256_eq (h : b.ecdsaAvailable = true) (batch : List (Bytes × Bytes × Bytes)) :
    b.verifyBatchSha256 batch = batch.map b.verify := by
  unfold Backend.verifyBatchSha256
  rw [if_neg (not_not.mpr h)]
  cases hnative : b.native with
  | none => rfl
  | some check =>
    refine List.map_congr_left fun m _ => ?_
    unfold Backend.verify
    rw [if_neg (not_not.mpr h), hnative]

theorem mapM_map_ok {α β γ : Type} (f : α → Except Fault β) (g : β → γ) (l : List α) :
    l.mapM (fun a => (f a).map g) = (l.mapM f).map (List.map g) := by
  induction l with
  | nil => rfl
  | cons a rest ih =>
    rw [List.mapM_cons, List.mapM_cons, ih]
    cases f a with
    | error e => rfl
    | ok x =>
      cases rest.mapM f with
      | error e => rfl
      | ok xs => rfl

theorem mapM_length {α β : Type} {f : α → Except Fault β} {l : List α} {m : List β} (h : l.mapM f = .ok m) :
    m.length = l.length := by
  induction l generalizing m with
  | nil =>
    cases h
    rfl
  | cons a rest ih =>
    rw [List.mapM_cons, bind_ok] at h
    obtain ⟨x, -, h⟩ := h
    obtain ⟨xs, hxs, h⟩ := bind_ok.mp h
    rw [← Except.ok.inj h, List.length_cons, ih hxs, List.length_cons]

theorem batch_eq (h : b.ecdsaAvailable = true) (txs : List Row) :
    b.verifyTransactionSignaturesBatch txs = txs.mapM b.verifyTransactionSignature := by
  have hsingle : b.verifyTransactionSignature =
      fun tx => (b.transactionSignatureMaterial tx).map fun material => material.elim false b.verify :=
    funext (verifyTransactionSignature_eq h)
  unfold Backend.verifyTransactionSignaturesBatch
  rw [if_neg (not_not.mpr h), hsingle, mapM_map_ok, collectBatch_eq]
  cases hm : txs.mapM b.transactionSignatureMaterial with
  | error e => rfl
  | ok materials =>
    have hscatter := Positions.scatter_collect b.verify false materials
    rw [mapM_length hm] at hscatter
    have hzip : ∀ batch : List (Nat × Bytes × Bytes × Bytes),
        (batch.map Prod.fst).zip (b.verifyBatchSha256 (batch.map Prod.snd)) = batch.map fun e => (e.1, b.verify e.2) := by
      intro batch
      rw [verifyBatchSha256_eq h, List.map_map, ← List.zip_map']
      rfl
    change (if Positions.collect 0 materials = [] then _ else _) = Except.ok _
    rw [hzip, hscatter]
    split
    · rename_i hnil
      rw [hnil] at hscatter
      rw [← hscatter]
      rfl
    · rfl

/-! ## The transactions of the chain -/

def payloadRow (p : SignedPayload) : Row :=
  .ofList [("from", .str p.fromAddr), ("to", .str p.toAddr), ("value", (jsonNum p.value).map .finite),
    ("nonce", .int p.nonce), ("chain_id", .int p.chainId), ("signature", .str p.signature),
    ("public_key", .str p.publicKey), ("data", .str p.data), ("gas_limit", .int p.gasLimit)]

def rebuiltRow (p : SignedPayload) : Row :=
  .ofList [("from", .str p.fromAddr), ("to", .str p.toAddr), ("value", (jsonNum p.value).map .finite),
    ("nonce", .int p.nonce), ("chain_id", .int p.chainId), ("data", .str p.data),
    ("gas_limit", if p.gasLimit = 0 then .null else .int p.gasLimit)]

theorem rebuilt_payloadRow (p : SignedPayload) : rebuilt (payloadRow p) = .ok (rebuiltRow p) := by
  have hgas : gasOf (payloadRow p) = if p.gasLimit = 0 then .null else .int p.gasLimit := by
    simp [gasOf, payloadRow, Fields.ofList, Fields.get?, truthy]
  unfold rebuilt
  rw [hgas]
  rfl

theorem gasFields_rebuiltRow (r : Numerals) (p : SignedPayload) : gasFields r (rebuiltRow p) =
    .ok (if p.gasLimit = 0 ∨ p.gasLimit = 21000 then [] else [("gas_limit", .int p.gasLimit)]) := by
  by_cases hzero : p.gasLimit = 0
  · simp [gasFields, gasOf, rebuiltRow, Fields.ofList, Fields.get?, truthy, hzero]
  · simp [gasFields, gasOf, rebuiltRow, Fields.ofList, Fields.get?, truthy, toInt, hzero]

theorem dataOf_rebuiltRow (p : SignedPayload) : dataOf (rebuiltRow p) = .str p.data := by
  have hraw : rawData (rebuiltRow p) = .str p.data := rfl
  unfold dataOf
  rw [hraw]
  by_cases hdata : p.data = ""
  · simp [truthy, hdata]
  · simp [truthy, hdata]

theorem canonical_rebuiltRow (r : Numerals) (p : SignedPayload) : canonicalTxForHash r (rebuiltRow p) =
    .ok ((AbsoluteChain.canonicalTxForHash p).map .finite) := by
  have hfields : canonicalTxForHash r (rebuiltRow p) = gasFields r (rebuiltRow p) >>= fun gas =>
      .ok (dict (fieldsOf (.str p.fromAddr) (.str p.toAddr) ((jsonNum p.value).map .finite) (.int p.nonce)
        (rebuiltRow p) gas)) :=
    rfl
  rw [hfields, gasFields_rebuiltRow]
  change Except.ok (dict (fieldsOf _ _ _ _ _ _)) = _
  unfold fieldsOf AbsoluteChain.canonicalTxForHash
  rw [dataOf_rebuiltRow, map_dict, List.map_append, List.map_append]
  have hdata : (if truthy (.str p.data) = true then [("data", Json.str p.data)] else []) =
      (if p.data = "" then [] else [("data", Json.str p.data)]).map fun e => (e.1, e.2.map Double.finite) := by
    by_cases h : p.data = ""
    · simp [truthy, h]
    · simp [truthy, h, Json.map]
  have hgas : (if p.gasLimit = 0 ∨ p.gasLimit = 21000 then [] else [("gas_limit", Json.int p.gasLimit)]) =
      (if p.gasLimit = 0 ∨ p.gasLimit = 21000 then [] else [("gas_limit", Json.int p.gasLimit)]).map
        fun e => (e.1, e.2.map Double.finite) := by
    by_cases h : p.gasLimit = 0 ∨ p.gasLimit = 21000
    · rw [if_pos h, if_pos h]
      rfl
    · rw [if_neg h, if_neg h]
      rfl
  rw [hdata, hgas]
  rfl

theorem verifyTransactionSignature_payloadRow {b : Backend} {host : Host} (hrepr : b.numerals.repr = host.floatRepr)
    (hwritable : ∀ v, b.writable v = true) (havailable : b.ecdsaAvailable = true)
    (hverify : ∀ message signature publicKey,
      b.verify (message, signature, publicKey) = host.verify message signature publicKey)
    (p : SignedPayload) :
    b.verifyTransactionSignature (payloadRow p) = .ok (AbsoluteChain.verifyTransactionSignature host p) := by
  have hstyle : SameStyle Double.finite (compact escapeAscii host.floatRepr) b.numerals.python :=
    ⟨rfl, rfl, rfl, fun q => congrFun hrepr q⟩
  have hhash : rebuilt (payloadRow p) >>= b.hashTransaction =
      .ok (sha256Hex (encode (host.compactJson (AbsoluteChain.canonicalTxForHash p)))) := by
    rw [rebuilt_payloadRow]
    change b.hashTransaction (rebuiltRow p) = _
    unfold Backend.hashTransaction Backend.signingText
    rw [canonical_rebuiltRow]
    change (if b.writable _ = true then _ else _ : Except Fault String).map _ = _
    rw [if_pos (hwritable _), hstyle.dumps]
    rfl
  have hmaterial : b.transactionSignatureMaterial (payloadRow p) = .ok (signatureMaterial host p) := by
    change (rebuilt (payloadRow p) >>= b.hashTransaction >>= _) = _
    rw [hhash]
    change (match bytesFromHex p.signature, bytesFromHex p.publicKey with
      | some signature, some publicKey => _
      | _, _ => _) = _
    unfold signatureMaterial
    cases bytesFromHex p.signature with
    | none => rfl
    | some signature =>
      cases bytesFromHex p.publicKey with
      | none => rfl
      | some publicKey => rfl
  rw [verifyTransactionSignature_eq havailable, hmaterial]
  unfold AbsoluteChain.verifyTransactionSignature
  cases signatureMaterial host p with
  | none => rfl
  | some material => exact congrArg Except.ok (hverify _ _ _)

end

/-- The text that is signed determines the transaction. With the cryptography library the batch is the single checks
one after the other, with what they raise; without it the batch accepts nothing and raises nothing. -/
theorem signatures_agree (b : Backend) (hF : FloatText b.numerals.repr) :
    (∀ tx tx' text, b.signingText tx = .ok text → b.signingText tx' = .ok text → Agree b.numerals tx tx') ∧
    ∀ txs, b.verifyTransactionSignaturesBatch txs =
      if b.ecdsaAvailable then txs.mapM b.verifyTransactionSignature else .ok (txs.map fun _ => false) := by
  constructor
  · intro tx tx' text h h'
    exact agree_of_text hF h h'
  · intro txs
    by_cases h : b.ecdsaAvailable = true
    · rw [if_pos h, batch_eq h]
    · rw [if_neg h]
      unfold Backend.verifyTransactionSignaturesBatch
      rw [if_pos h]
      rfl

/-- A wallet with or without the library, which accepts no signature. -/
def Backend.plain (ecdsaAvailable : Bool) : Backend :=
  { numerals := .plain, writable := fun _ => true, ecdsaAvailable := ecdsaAvailable, native := none,
    openssl := fun _ _ _ => false }

def bare : Row := .ofList [("from", .str "a"), ("to", .str "b"), ("value", .int 1), ("nonce", .int 0)]

def spelled : Row :=
  .ofList [("from", .str "a"), ("to", .str "b"), ("value", .int 1), ("nonce", .int 0), ("chain_id", .int 1),
    ("data", .int 0), ("gas", .int 21000)]

def signed : Row :=
  .ofList [("from", .str "a"), ("to", .str "b"), ("value", .int 1), ("nonce", .int 0), ("signature", .str ""),
    ("public_key", .str "")]

def unaddressed : Row := .ofList [("signature", .str ""), ("public_key", .str "")]

theorem signatures_agree_bare : Agree .plain bare spelled ∧
    (Backend.plain true).verifyTransactionSignaturesBatch [bare, signed] = .ok [false, false] := by
  obtain ⟨htext, hbatch⟩ := signatures_agree (.plain true) Blockchain.floatText_plain
  constructor
  · exact htext bare spelled (dumps Numerals.plain.python
      (dict [("from", .str "a"), ("to", .str "b"), ("value", .int 1), ("nonce", .int 0), ("chain_id", .int 1)])) rfl rfl
  · rw [hbatch]
    rfl

/-- The text is the same whether the chain id is left out or given, and whether data is missing or is 0; and without
the library the batch rejects what a single check raises on. -/
theorem defaults_and_guard :
    (Backend.plain true).signingText bare = (Backend.plain true).signingText spelled ∧
    bare.get? "chain_id" ≠ spelled.get? "chain_id" ∧ rawData bare ≠ rawData spelled ∧
    (Backend.plain false).verifyTransactionSignaturesBatch [unaddressed] = .ok [false] ∧
    [unaddressed].mapM (Backend.plain false).verifyTransactionSignature = .error (.keyError "from") := by
  refine ⟨rfl, ?_, ?_, rfl, rfl⟩
  · intro h
    cases h
  · intro h
    cases h

end SignedPayloads

end AbsoluteChain
