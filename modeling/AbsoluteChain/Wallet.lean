import AbsoluteChain.Tokenomics

/-!
# Signatures

What a signature of a transaction covers and how `crypto/wallet.py` checks it, one
at a time or in a batch, with the address a public key stands for.
-/

namespace AbsoluteChain

open Python JsonText

def deriveAddress (publicKey : Bytes) : String := "0x" ++ String.ofList ((sha256Hex publicKey).toList.drop 24)

structure SignedPayload where
  fromAddr : String
  toAddr : String
  value : Python.Num
  nonce : Int
  chainId : Int
  signature : String
  publicKey : String
  data : String
  gasLimit : Int

def signingValue (v : Python.Num) : Python.Num :=
  let q := v.toRat
  if q = truncate q then .int (truncate q) else v

def Transaction.payload (chainId : Int) (tx : Transaction) : SignedPayload :=
  { fromAddr := tx.fromAddr, toAddr := tx.toAddr, value := signingValue tx.value, nonce := tx.nonce, chainId := chainId,
    signature := tx.signature, publicKey := tx.publicKey, data := tx.data, gasLimit := tx.gas }

def jsonNum : Python.Num → Json ℚ
  | .int n => .int n
  | .float q => .float q

def canonicalTxForHash (p : SignedPayload) : Json ℚ :=
  dict ([("from", .str p.fromAddr), ("to", .str p.toAddr), ("value", jsonNum p.value), ("nonce", .int p.nonce),
    ("chain_id", .int p.chainId)] ++
    (if p.data = "" then [] else [("data", .str p.data)]) ++
    (if p.gasLimit = 0 ∨ p.gasLimit = 21000 then [] else [("gas_limit", .int p.gasLimit)]))

def Host.compactJson (host : Host) (v : Json ℚ) : String := dumps (compact escapeAscii host.floatRepr) v

def signatureMaterial (host : Host) (p : SignedPayload) : Option (Bytes × Bytes × Bytes) :=
  let message := encode (sha256Hex (encode (host.compactJson (canonicalTxForHash p))))
  match bytesFromHex p.signature, bytesFromHex p.publicKey with
  | some signature, some publicKey => some (message, signature, publicKey)
  | _, _ => none

def verifyTransactionSignature (host : Host) (p : SignedPayload) : Bool :=
  match signatureMaterial host p with
  | none => false
  | some (message, signature, publicKey) => host.verify message signature publicKey

def collectBatch (host : Host) : Nat → List SignedPayload → List (Nat × Bytes × Bytes × Bytes)
  | _, [] => []
  | i, p :: t =>
    match signatureMaterial host p with
    | none => collectBatch host (i + 1) t
    | some m => (i, m) :: collectBatch host (i + 1) t

def verifyBatch (host : Host) (batch : List (Bytes × Bytes × Bytes)) : List Bool :=
  batch.map fun m => host.verify m.1 m.2.1 m.2.2

def verifyTransactionSignaturesBatch (host : Host) (ps : List SignedPayload) : List Bool :=
  let batch := collectBatch host 0 ps
  let verified := verifyBatch host (batch.map Prod.snd)
  ((batch.map Prod.fst).zip verified).foldl (fun results r => results.set r.1 r.2) (List.replicate ps.length false)

def verifyTxSignature (host : Host) (config : Config) (tx : Transaction) : Except String Unit :=
  if tx.signature = "" then
    if config.requireSignatures then .error "missing_signature" else .ok ()
  else if tx.publicKey = "" then .error "missing_public_key"
  else if verifyTransactionSignature host (tx.payload config.chainId) then .ok ()
  else .error "invalid_signature"

def collectSigned (config : Config) : List Transaction → Except String (List Transaction)
  | [] => .ok []
  | tx :: t =>
    if tx.signature = "" then
      if config.requireSignatures then .error ("missing_signature:" ++ tx.hash) else collectSigned config t
    else if tx.publicKey = "" then .error ("missing_public_key:" ++ tx.hash)
    else do
      let signed ← collectSigned config t
      pure (tx :: signed)

def firstInvalid : List (Transaction × Bool) → Except String Unit
  | [] => .ok ()
  | (_, true) :: t => firstInvalid t
  | (tx, false) :: _ => .error ("invalid_signature:" ++ tx.hash)

def verifyBlockTxSignatures (host : Host) (config : Config) (txs : List Transaction) : Except String Unit := do
  let signed ← collectSigned config txs
  let results := verifyTransactionSignaturesBatch host (signed.map (Transaction.payload config.chainId))
  firstInvalid (signed.zip results)

end AbsoluteChain
