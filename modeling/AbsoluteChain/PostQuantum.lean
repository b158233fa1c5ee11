import AbsoluteChain.Chain
import AbsoluteChain.HexText
import AbsoluteChain.Sponge

/-!
# Post-quantum signatures

`PostQuantumManager` of `features/postquantum.py` and the one algorithm of it that signs,
`Dilithium`: the text signatures of the API, and what a signature that verifies is made of.
-/

namespace AbsoluteChain.PostQuantum

open Python Digest

inductive PQAlgorithm where
  | sphincsPlus
  | kyber
  | dilithium
  | falcon
  | classicMceliece
  deriving DecidableEq

def PQAlgorithm.value : PQAlgorithm → String
  | .sphincsPlus => "sphincs_plus"
  | .kyber => "kyber"
  | .dilithium => "dilithium"
  | .falcon => "falcon"
  | .classicMceliece => "classic_mceliece"

def PQAlgorithm.all : List PQAlgorithm := [.sphincsPlus, .kyber, .dilithium, .falcon, .classicMceliece]

inductive SecurityLevel where
  | level1
  | level3
  | level5
  deriving DecidableEq

structure PQKeyPair where
  algorithm : PQAlgorithm
  securityLevel : SecurityLevel
  publicKey : Bytes
  privateKey : Bytes
  keyId : String
  deriving DecidableEq

structure PQSignature where
  id : String
  algorithm : PQAlgorithm
  signature : Bytes
  publicKeyHash : String
  messageHash : String
  deriving DecidableEq

inductive PQError where
  | value (text : String)
  | notImplemented (text : String)
  | attribute (text : String)
  /-- The `ValueError` of `bytes.fromhex`. -/
  | fromhex
  deriving DecidableEq

/-! ## Dilithium -/

namespace Dilithium

def keySize : SecurityLevel → Nat
  | .level1 => 1312
  | .level3 => 1952
  | .level5 => 2592

def sigSize : SecurityLevel → Nat
  | .level1 => 2420
  | .level3 => 3293
  | .level5 => 4595

structure Draw where
  seed : Bytes
  rest : Bytes
  keyId : String

def generateKeypair (level : SecurityLevel) (draw : Draw) : PQKeyPair :=
  { algorithm := .dilithium, securityLevel := level, publicKey := shake256 draw.seed (keySize level),
    privateKey := draw.seed ++ draw.rest, keyId := draw.keyId }

def coreOf (message privateKey : Bytes) : Bytes := shake256 (encode (sha3_512Hex message) ++ privateKey) 32

def tailOf (messageHash : String) (publicKey core : Bytes) (size : Nat) : Bytes :=
  shake256 (encode messageHash ++ publicKey ++ core) size

def sign (level : SecurityLevel) (message : Bytes) (keypair : PQKeyPair) : PQSignature :=
  let messageHash := sha3_512Hex message
  let core := coreOf message keypair.privateKey
  let tail := tailOf messageHash keypair.publicKey core (sigSize level - 32)
  { id := String.ofList ((hexOfBytes core).toList.take 16), algorithm := .dilithium, signature := core ++ tail,
    publicKeyHash := sha256Hex keypair.publicKey, messageHash := messageHash }

def verify (signature : PQSignature) (message publicKey : Bytes) : Bool :=
  let expectedHash := sha3_512Hex message
  if expectedHash ≠ signature.messageHash then false
  else if signature.signature.length < 33 then false
  else
    let core := signature.signature.take 32
    let tail := signature.signature.drop 32
    tail = tailOf expectedHash publicKey core tail.length

end Dilithium

/-! ## The manager -/

structure PostQuantumManager where
  keypairs : Dict String PQKeyPair := []
  signatures : Dict String PQSignature := []

structure SignedText where
  algorithm : String
  keyId : String
  publicKey : String
  signature : String
  signatureId : String
  messageHash : String
  deriving DecidableEq

def SignedText.of (algo : PQAlgorithm) (keypair : PQKeyPair) (sig : PQSignature) : SignedText :=
  { algorithm := algo.value, keyId := keypair.keyId, publicKey := hexOfBytes keypair.publicKey,
    signature := hexOfBytes sig.signature, signatureId := sig.id, messageHash := sig.messageHash }

inductive SignaturePayload where
  | dict (signature publicKey signatureId id : Option String)
  | text (s : String)

def SignedText.payload (t : SignedText) : SignaturePayload := .dict t.signature t.publicKey t.signatureId none

/-- `s.replace("-", "_")`. -/
def underscored (s : String) : String := String.ofList (s.toList.map fun c => if c = '-' then '_' else c)

def parseAlgorithm (host : Host) (name : String) : Except PQError PQAlgorithm :=
  let raw := underscored (host.lower (strip (orElse name "dilithium")))
  match PQAlgorithm.all.find? fun algo => algo.value = raw with
  | some algo => .ok algo
  | none => .error (.value ("Unsupported algorithm: " ++ name))

namespace PostQuantumManager

def generateKeypair (m : PostQuantumManager) (algorithm : PQAlgorithm) (draw : Dilithium.Draw) :
    Except PQError (PQKeyPair × PostQuantumManager) :=
  match algorithm with
  | .dilithium =>
    let keypair := Dilithium.generateKeypair .level5 draw
    .ok (keypair, { m with keypairs := m.keypairs.set keypair.keyId keypair })
  | .sphincsPlus => .error (.notImplemented "SPHINCS+ key generation backend not available")
  | .kyber => .error (.notImplemented "Kyber key generation backend not available")
  | .falcon => .error (.notImplemented "Falcon key generation backend not available")
  | .classicMceliece => .error (.value "Unsupported algorithm: PQAlgorithm.CLASSIC_MCELIECE")

def sign (m : PostQuantumManager) (message : Bytes) (keypair : PQKeyPair) (algorithm : PQAlgorithm) :
    Except PQError (PQSignature × PostQuantumManager) :=
  match algorithm with
  | .dilithium =>
    let signature := Dilithium.sign .level5 message keypair
    .ok (signature, { m with signatures := m.signatures.set signature.id signature })
  | .sphincsPlus => .error (.notImplemented "SPHINCS+ signing backend not available")
  | .kyber => .error (.attribute "'Kyber' object has no attribute 'sign'")
  | .falcon => .error (.notImplemented "Falcon signing backend not available")
  | .classicMceliece => .error (.value "Unsupported algorithm: PQAlgorithm.CLASSIC_MCELIECE")

def verify (signature : PQSignature) (message publicKey : Bytes) : Except PQError Bool :=
  match signature.algorithm with
  | .dilithium => .ok (Dilithium.verify signature message publicKey)
  | .sphincsPlus => .ok false
  | .kyber => .error (.attribute "'Kyber' object has no attribute 'verify'")
  | .falcon => .ok false
  | .classicMceliece => .ok false

def keypairOf (m : PostQuantumManager) (keyId : Option String) : Option PQKeyPair :=
  keyId.bind fun k => if k = "" then none else m.keypairs.get? k

def signText (m : PostQuantumManager) (host : Host) (message algorithm : String) (keyId : Option String)
    (draw : Dilithium.Draw) : Except PQError (SignedText × PostQuantumManager) := do
  let algo ← parseAlgorithm host algorithm
  let (keypair, m) ← (match m.keypairOf keyId with
    | some keypair => .ok (keypair, m)
    | none => m.generateKeypair algo draw)
  let (sig, m) ← m.sign (encode message) keypair algo
  return (SignedText.of algo keypair sig, m)

end PostQuantumManager

namespace SignaturePayload

def sigHex : SignaturePayload → String
  | .dict signature _ _ _ => signature.getD ""
  | .text s => s

def pubHex (publicKeyHex : String) : SignaturePayload → String
  | .dict _ publicKey _ _ => orElse publicKeyHex (publicKey.getD "")
  | .text _ => publicKeyHex

def sigId : SignaturePayload → String
  | .dict _ _ signatureId id => signatureId.getD (id.getD "api")
  | .text _ => "api"

end SignaturePayload

def verifyText (host : Host) (message : String) (payload : SignaturePayload) (algorithm publicKeyHex : String) :
    Except PQError Bool := do
  let algo ← parseAlgorithm host algorithm
  if payload.sigHex = "" ∨ payload.pubHex publicKeyHex = "" then return false
  else
    match bytesFromHex (removeHexPrefixes payload.sigHex), bytesFromHex (removeHexPrefixes (payload.pubHex publicKeyHex)) with
    | some signature, some pubBytes =>
      let pqSig : PQSignature :=
        { id := payload.sigId, algorithm := algo, signature := signature,
          publicKeyHash := sha256Hex (encode (payload.pubHex publicKeyHex)), messageHash := sha256Hex (encode message) }
      PostQuantumManager.verify pqSig (encode message) pubBytes
    | _, _ => .error .fromhex

/-! ## The message hash of a text -/

theorem sha3_512Hex_ne_sha256Hex (message other : Bytes) : sha3_512Hex message ≠ sha256Hex other := by
  intro h
  have hlength : (sha256Hex other).length = 64 := Digest.sha256Hex_length other
  rw [← h, sha3_512Hex_length] at hlength
  cases hlength

theorem dilithium_rejects {signature : PQSignature} {other : Bytes} (h : signature.messageHash = sha256Hex other)
    (message publicKey : Bytes) : Dilithium.verify signature message publicKey = false := by
  unfold Dilithium.verify
  exact if_pos (h ▸ sha3_512Hex_ne_sha256Hex message other)

theorem verify_eq_false {signature : PQSignature} {other : Bytes} (halgo : signature.algorithm = .dilithium)
    (h : signature.messageHash = sha256Hex other) (message publicKey : Bytes) :
    PostQuantumManager.verify signature message publicKey = .ok false := by
  unfold PostQuantumManager.verify
  rw [halgo]
  exact congrArg Except.ok (dilithium_rejects h message publicKey)

theorem verify_ne_true {signature : PQSignature} {other : Bytes} (h : signature.messageHash = sha256Hex other)
    (message publicKey : Bytes) : PostQuantumManager.verify signature message publicKey ≠ .ok true := by
  intro hv
  unfold PostQuantumManager.verify at hv
  cases halgo : signature.algorithm <;> rw [halgo] at hv
  case dilithium => simp only [dilithium_rejects h, Except.ok.injEq, Bool.false_eq_true] at hv
  all_goals simp at hv

theorem verifyText_ne_true (host : Host) (message : String) (payload : SignaturePayload) (algorithm publicKeyHex : String) :
    verifyText host message payload algorithm publicKeyHex ≠ .ok true := by
  intro h
  unfold verifyText at h
  cases halgo : parseAlgorithm host algorithm with
  | error e => simp [halgo, bind, Except.bind] at h
  | ok algo =>
    simp only [halgo, bind, Except.bind] at h
    split at h
    · simp [pure, Except.pure] at h
    · split at h
      · exact verify_ne_true rfl _ _ h
      · cases h

theorem verifyText_signText {host : Host} {algorithm : String} (halgo : parseAlgorithm host algorithm = .ok .dilithium)
    (m : PostQuantumManager) (message : String) (keyId : Option String) (draw : Dilithium.Draw) :
    ∃ signed m', m.signText host message algorithm keyId draw = .ok (signed, m') ∧
      verifyText host message signed.payload algorithm "" = .ok false := by
  have hrefused : ∀ (keypair : PQKeyPair) (sig : PQSignature),
      verifyText host message (SignedText.of .dilithium keypair sig).payload algorithm "" = .ok false := by
    intro keypair sig
    simp only [verifyText, halgo, bind, Except.bind, SignedText.payload, SignedText.of, SignaturePayload.sigHex,
      SignaturePayload.pubHex, orElse, if_true, Option.getD_some]
    split
    · rfl
    · rw [bytesFromHex_hexOfBytes, bytesFromHex_hexOfBytes]
      exact verify_eq_false rfl rfl _ _
  have hsigned : ∀ (m : PostQuantumManager) (keypair : PQKeyPair), ∃ m',
      m.sign (encode message) keypair .dilithium = .ok (Dilithium.sign .level5 (encode message) keypair, m') :=
    fun m keypair => ⟨_, rfl⟩
  cases hkey : m.keypairOf keyId with
  | some keypair =>
    obtain ⟨m', hsign⟩ := hsigned m keypair
    refine ⟨SignedText.of .dilithium keypair (Dilithium.sign .level5 (encode message) keypair), m', ?_, hrefused _ _⟩
    simp only [PostQuantumManager.signText, halgo, hkey, bind, Except.bind, hsign]
    rfl
  | none =>
    let keypair := Dilithium.generateKeypair .level5 draw
    obtain ⟨m', hsign⟩ := hsigned { m with keypairs := m.keypairs.set keypair.keyId keypair } keypair
    refine ⟨SignedText.of .dilithium keypair (Dilithium.sign .level5 (encode message) keypair), m', ?_, hrefused _ _⟩
    simp only [PostQuantumManager.signText, halgo, hkey, bind, Except.bind, PostQuantumManager.generateKeypair]
    rw [hsign]
    rfl

/-! ## Signatures made without the private key -/

def forgery (message publicKey core : Bytes) : PQSignature :=
  { id := String.ofList ((hexOfBytes core).toList.take 16), algorithm := .dilithium,
    signature := core ++ Dilithium.tailOf (sha3_512Hex message) publicKey core (Dilithium.sigSize .level5 - 32),
    publicKeyHash := sha256Hex publicKey, messageHash := sha3_512Hex message }

/-- The private key has no part in the verification. -/
theorem Dilithium.verify_iff (signature : PQSignature) (message publicKey : Bytes) :
    Dilithium.verify signature message publicKey = true ↔
      signature.messageHash = sha3_512Hex message ∧ 33 ≤ signature.signature.length ∧
        signature.signature.drop 32 = Dilithium.tailOf (sha3_512Hex message) publicKey (signature.signature.take 32)
          (signature.signature.length - 32) := by
  unfold Dilithium.verify
  by_cases hhash : sha3_512Hex message = signature.messageHash
  · rw [if_neg (not_not.mpr hhash)]
    by_cases hlength : signature.signature.length < 33
    · rw [if_pos hlength]
      simp
      omega
    · rw [if_neg hlength]
      simp only [decide_eq_true_eq, List.length_drop, hhash, true_and]
      constructor
      · exact fun h => ⟨by omega, h⟩
      · exact fun h => h.2
  · rw [if_pos hhash]
    simp [Ne.symm hhash]

theorem forgery_core {core : Bytes} (hcore : core.length = 32) (message publicKey : Bytes) :
    (forgery message publicKey core).signature.take 32 = core := by
  simp [forgery, ← hcore]

theorem verify_forgery {core : Bytes} (hcore : core.length = 32) (message publicKey : Bytes) :
    Dilithium.verify (forgery message publicKey core) message publicKey = true := by
  have htail : (forgery message publicKey core).signature.length = 4595 := by
    simp only [forgery, Dilithium.tailOf, List.length_append, hcore, shake256_length]
    rfl
  rw [Dilithium.verify_iff, forgery_core hcore, htail]
  refine ⟨rfl, by decide, ?_⟩
  simp only [forgery, ← hcore, List.drop_left]
  rw [hcore]
  rfl

/-- Whatever the private key is, one of two cores is not the one it gives. -/
theorem exists_other_core (core : Bytes) : ∃ other : Bytes, other.length = 32 ∧ other ≠ core := by
  by_cases h : List.replicate 32 0 = core
  · refine ⟨List.replicate 32 1, List.length_replicate, ?_⟩
    rw [← h]
    decide
  · exact ⟨List.replicate 32 0, List.length_replicate, h⟩

/-- No text signature verifies, and for every public key there are accepted signatures with any
core at all, so the core of an accepted one need not come from the private key. -/
theorem text_never_verified (host : Host) (m : PostQuantumManager) (message algorithm publicKeyHex : String)
    (keyId : Option String) (draw : Dilithium.Draw) (publicKey privateKey : Bytes) :
    (∀ signed m', m.signText host message algorithm keyId draw = .ok (signed, m') →
      verifyText host message signed.payload algorithm publicKeyHex ≠ .ok true) ∧
      (∀ core : Fin 32 → UInt8,
        Dilithium.verify (forgery (encode message) publicKey (List.ofFn core)) (encode message) publicKey = true) ∧
      ¬ ∀ signature, Dilithium.verify signature (encode message) publicKey = true →
        signature.signature.take 32 = Dilithium.coreOf (encode message) privateKey := by
  refine ⟨fun signed _ _ => verifyText_ne_true host message signed.payload algorithm publicKeyHex,
    fun core => verify_forgery List.length_ofFn _ _, fun h => ?_⟩
  obtain ⟨other, hlength, hother⟩ := exists_other_core (Dilithium.coreOf (encode message) privateKey)
  have hcore := h _ (verify_forgery hlength (encode message) publicKey)
  rw [forgery_core hlength] at hcore
  exact hother hcore

theorem hello_not_verified :
    (∃ signed m', PostQuantumManager.signText
        { keypairs := [("key", { algorithm := .dilithium, securityLevel := .level5, publicKey := [1], privateKey := [2],
                                 keyId := "key" })] }
        Host.plain "hello" "dilithium" (some "key") ⟨[], [], ""⟩ = .ok (signed, m') ∧
      verifyText Host.plain "hello" signed.payload "dilithium" "" = .ok false) ∧
      ¬ ((∀ (m : PostQuantumManager) message keyId draw signed m',
          m.signText Host.plain message "dilithium" keyId draw = .ok (signed, m') →
          verifyText Host.plain message signed.payload "dilithium" "" = .ok true) ∧
        ∀ signature message (keypair : PQKeyPair), Dilithium.verify signature message keypair.publicKey = true →
          signature.signature.take 32 = Dilithium.coreOf message keypair.privateKey) := by
  have halgo : parseAlgorithm Host.plain "dilithium" = .ok .dilithium := by rfl
  have hhello := verifyText_signText halgo
    { keypairs := [("key", { algorithm := .dilithium, securityLevel := .level5, publicKey := [1], privateKey := [2],
                             keyId := "key" })] } "hello" (some "key") ⟨[], [], ""⟩
  refine ⟨hhello, fun h => ?_⟩
  obtain ⟨signed, m', hsigned, hrefused⟩ := hhello
  rw [h.1 _ _ _ _ _ _ hsigned] at hrefused
  cases hrefused

end AbsoluteChain.PostQuantum
