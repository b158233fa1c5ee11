import AbsoluteChain.Chain
import AbsoluteChain.HexText
import AbsoluteChain.ModularPower
import Mathlib.Tactic.NormNum.Prime

/-!
# Proofs of knowledge, of a range and of a balance

`ZKProofSystem` of `features/zk.py`: what its prover writes, what its verifier accepts, and
what an accepted proof says about the commitment in it.
-/

namespace AbsoluteChain.ZkProofs

open Python ModularPower

structure ZKProof where
  commitment : String
  response : Int
  challenge : Int
  proofType : String
  deriving DecidableEq

/-- `PARAMS["p"]`. -/
def p : Nat := 0xFFFFFFFFFFFFFFFFFFFFFFFFFFFFFFFFFFFFFFFFFFFFFFFFFFFFFFFEFFFFFC2F

/-- `PARAMS["g"]`. -/
def g : Int := 2

def exponentModulus : Nat := p - 1

def digestInt (s : String) : Int := (parseHexInt (hashData s).toList).getD 0

def challenge (proofType : String) (parts : List String) (modulus : Nat) : Int :=
  let value := digestInt ("|".intercalate (proofType :: parts))
  if modulus ≠ 0 then value % (modulus - 1 : Int) + 1 else value

/-! ## Knowledge of a secret -/

def proveKnowledge (secret : Int) (nonce : Nat) : Option ZKProof := do
  let order := exponentModulus
  let secret := secret % (order : Int)
  let commitment ← powInt p g nonce
  let publicValue ← powInt p g secret
  let challenge := challenge "knowledge" [strInt commitment, strInt publicValue] order
  let response := (nonce + secret * challenge) % (order : Int)
  return { commitment := String.ofList ('0' :: 'x' :: hexChars commitment), response := response,
           challenge := challenge, proofType := "knowledge" }

def verifyKnowledge (proof : ZKProof) (publicValue : Int) : Option Bool :=
  match parseHexInt proof.commitment.toList with
  | none => some false
  | some commitment =>
    let expectedChallenge := challenge "knowledge" [strInt commitment, strInt publicValue] exponentModulus
    if proof.challenge ≠ expectedChallenge then some false
    else do
      let left ← powInt p g proof.response
      let power ← powInt p publicValue proof.challenge
      return decide ((left : Int) = commitment * power % (p : Int))

/-! ## Ranges and balances -/

def rangeCommitment (value minVal maxVal : Int) : String :=
  hashData (strInt value ++ ":" ++ strInt minVal ++ ":" ++ strInt maxVal)

def rangeChallenge (commitment : String) (minVal maxVal : Int) : Int :=
  challenge "range" [commitment, strInt minVal, strInt maxVal] 1000000

def rangeResponse (commitment : String) (challenge minVal maxVal : Int) : Int :=
  digestInt (commitment ++ ":" ++ strInt challenge ++ ":" ++ strInt minVal ++ ":" ++ strInt maxVal)

def proveRange (value minVal maxVal : Int) : Option ZKProof :=
  if minVal ≤ value ∧ value ≤ maxVal then
    let commitment := rangeCommitment value minVal maxVal
    let challenge := rangeChallenge commitment minVal maxVal
    some { commitment := commitment, response := rangeResponse commitment challenge minVal maxVal,
           challenge := challenge, proofType := "range" }
  else none

def verifyRange (proof : ZKProof) (minVal maxVal : Int) : Bool :=
  if proof.challenge ≠ rangeChallenge proof.commitment minVal maxVal then false
  else rangeResponse proof.commitment proof.challenge minVal maxVal = proof.response

def balanceCommitment (difference : Int) : String := hashData (strInt difference)

def balanceChallenge (commitment : String) (amount : Int) : Int :=
  challenge "balance" [commitment, strInt amount] 1000000

def balanceResponse (commitment : String) (challenge amount : Int) : Int :=
  digestInt (commitment ++ ":" ++ strInt challenge ++ ":" ++ strInt amount)

def proveBalance (balance amount : Int) : Option ZKProof :=
  if balance < amount then none
  else
    let commitment := balanceCommitment (balance - amount)
    let challenge := balanceChallenge commitment amount
    some { commitment := commitment, response := balanceResponse commitment challenge amount,
           challenge := challenge, proofType := "balance" }

def verifyBalance (proof : ZKProof) (amount : Int) : Bool :=
  if proof.challenge ≠ balanceChallenge proof.commitment amount then false
  else balanceResponse proof.commitment proof.challenge amount = proof.response

/-! ## Digests as integers -/

theorem hashData_digits (s : String) : ∀ c ∈ (hashData s).toList, (hexValue c).isSome := by
  intro c hc
  unfold hashData sha256Hex Digest.sha256Hex at hc
  rw [String.toList_ofList] at hc
  obtain ⟨w, -, hw⟩ := List.mem_flatMap.mp hc
  obtain ⟨i, -, rfl⟩ := List.mem_map.mp hw
  rw [hexValue_hexDigit (Nat.mod_lt _ (by decide))]
  rfl

theorem parseHexInt_hashData (s : String) : parseHexInt (hashData s).toList = some (digestInt s) := by
  have hlength : (hashData s).toList.length = 64 := Digest.sha256Hex_length (encode s)
  have hne : (hashData s).toList ≠ [] := by
    intro h
    rw [h] at hlength
    cases hlength
  unfold digestInt
  rw [parseHexInt_digits hne (hashData_digits s), Option.getD_some]

theorem challenge_pos {proofType : String} {parts : List String} {modulus : Nat} (h : 1 < modulus) :
    0 < challenge proofType parts modulus := by
  have hmod : 0 ≤ digestInt ("|".intercalate (proofType :: parts)) % (modulus - 1 : Int) :=
    Int.emod_nonneg _ (by omega)
  simp only [challenge, if_pos (show modulus ≠ 0 by omega)]
  omega

/-! ## The modulus is prime -/

theorem p_prime : p.Prime := by
  have h18 : Nat.Prime 173378833005251801 := by
    apply prime_of_lucasTest 173378833005251801 6 [2, 2, 2, 5, 5, 2621, 24809, 13331831]
    · simp only [List.forall_mem_cons]
      exact ⟨by norm_num, by norm_num, by norm_num, by norm_num, by norm_num, by norm_num, by norm_num, by norm_num,
        List.forall_mem_nil _⟩
    · decide +kernel
  have h23 : Nat.Prime 22149492674086928081353 := by
    apply prime_of_lucasTest 22149492674086928081353 5 [2, 2, 2, 3, 5323, 173378833005251801]
    · simp only [List.forall_mem_cons]
      exact ⟨by norm_num, by norm_num, by norm_num, by norm_num, by norm_num, h18, List.forall_mem_nil _⟩
    · decide +kernel
  have h24 : Nat.Prime 132896956044521568488119 := by
    apply prime_of_lucasTest 132896956044521568488119 6 [2, 3, 22149492674086928081353]
    · simp only [List.forall_mem_cons]
      exact ⟨by norm_num, by norm_num, h23, List.forall_mem_nil _⟩
    · decide +kernel
  have h39 : Nat.Prime 255515944373312847190720520512484175977 := by
    apply prime_of_lucasTest 255515944373312847190720520512484175977 3
      [2, 2, 2, 7, 7, 11, 1627, 2657, 4423, 41201, 96557, 7240687, 107590001]
    · simp only [List.forall_mem_cons]
      exact ⟨by norm_num, by norm_num, by norm_num, by norm_num, by norm_num, by norm_num, by norm_num, by norm_num,
        by norm_num, by norm_num, by norm_num, by norm_num, by norm_num, List.forall_mem_nil _⟩
    · decide +kernel
  have h72 : Nat.Prime 205115282021455665897114700593932402728804164701536103180137503955397371 := by
    apply prime_of_lucasTest 205115282021455665897114700593932402728804164701536103180137503955397371 10
      [2, 3, 5, 29, 29, 31, 7723, 132896956044521568488119, 255515944373312847190720520512484175977]
    · simp only [List.forall_mem_cons]
      exact ⟨by norm_num, by norm_num, by norm_num, by norm_num, by norm_num, by norm_num, by norm_num, h24, h39,
        List.forall_mem_nil _⟩
    · decide +kernel
  apply prime_of_lucasTest p 3
    [2, 3, 7, 13441, 205115282021455665897114700593932402728804164701536103180137503955397371]
  · simp only [List.forall_mem_cons]
    exact ⟨by norm_num, by norm_num, by norm_num, by norm_num, h72, List.forall_mem_nil _⟩
  · decide +kernel

instance : Fact p.Prime := ⟨p_prime⟩

theorem g_ne_zero : (g : ZMod p) ≠ 0 := by
  intro h
  have hdvd : (p : Int) ∣ g := (ZMod.intCast_zmod_eq_zero_iff_dvd g p).mp h
  exact absurd (Int.le_of_dvd (by decide) hdvd) (by norm_num [p, g])

/-! ## What the prover writes is accepted -/

theorem parseHexInt_hex (n : Nat) : parseHexInt (String.ofList ('0' :: 'x' :: hexChars n)).toList = some (n : Int) := by
  rw [String.toList_ofList, parseHexInt_prefixed (hexChars_ne_nil n) (hexChars_digits n), hexFold_hexChars]

theorem cast_exponentModulus : ((exponentModulus : Nat) : Int) = (p : Int) - 1 := by
  unfold exponentModulus
  rw [Nat.cast_sub p_prime.one_le, Nat.cast_one]

/-- The powers of the generator do not see its exponents reduced. -/
theorem g_pow_mod (e : Int) : (g : ZMod p) ^ (e % (exponentModulus : Int)) = (g : ZMod p) ^ e := by
  rw [cast_exponentModulus]
  exact zpow_mod g_ne_zero e

/-- Two residues that are equal in the field are the same number. -/
theorem residue_inj {v w : Nat} (hv : v < p) (hw : w < p) (h : (v : ZMod p) = w) : v = w := by
  have hmod := (ZMod.natCast_eq_natCast_iff' v w p).mp h
  rwa [Nat.mod_eq_of_lt hv, Nat.mod_eq_of_lt hw] at hmod

theorem response_equation (nonce secret c : Int) :
    (g : ZMod p) ^ ((nonce + secret * c) % (exponentModulus : Int)) =
      (g : ZMod p) ^ nonce * ((g : ZMod p) ^ secret) ^ c := by
  rw [g_pow_mod, zpow_add₀ g_ne_zero, zpow_mul]

theorem verifyKnowledge_proveKnowledge (secret : Int) (nonce : Nat) :
    ∃ proof publicValue, proveKnowledge secret nonce = some proof ∧ powInt p g secret = some publicValue ∧
      verifyKnowledge proof publicValue = some true := by
  obtain ⟨publicValue, hpublic, hpublicLt, hpublicCast⟩ := powInt_eq g_ne_zero secret
  obtain ⟨reduced, hreduced, hreducedLt, hreducedCast⟩ := powInt_eq g_ne_zero (secret % (exponentModulus : Int))
  obtain ⟨commitment, hcommitment, _, hcommitmentCast⟩ := powInt_eq g_ne_zero (nonce : Int)
  have hsame : reduced = publicValue := by
    apply residue_inj hreducedLt hpublicLt
    rw [hreducedCast, hpublicCast, g_pow_mod]
  subst hsame
  let c := challenge "knowledge" [strInt commitment, strInt reduced] exponentModulus
  let response := (nonce + secret % (exponentModulus : Int) * c) % (exponentModulus : Int)
  let proof : ZKProof :=
    { commitment := String.ofList ('0' :: 'x' :: hexChars commitment), response := response,
      challenge := c, proofType := "knowledge" }
  have hprove : proveKnowledge secret nonce = some proof := by
    simp only [proveKnowledge, hcommitment, hreduced, Option.bind_eq_bind, Option.bind_some]
    rfl
  -- the public value is a power of the generator, so it has its own powers too
  have hpublicNe : (((reduced : Nat) : Int) : ZMod p) ≠ 0 := by
    rw [Int.cast_natCast, hpublicCast]
    exact zpow_ne_zero _ g_ne_zero
  obtain ⟨left, hleft, hleftLt, hleftCast⟩ := powInt_eq g_ne_zero response
  obtain ⟨power, hpower, _, hpowerCast⟩ := powInt_eq hpublicNe c
  have hequation : (left : Int) = commitment * power % (p : Int) := by
    have hfield : ((left : Int) : ZMod p) = ((commitment * power : Int) : ZMod p) := by
      rw [Int.cast_natCast, hleftCast, response_equation, g_pow_mod, Int.cast_mul, Int.cast_natCast, Int.cast_natCast,
        hcommitmentCast, hpowerCast, Int.cast_natCast, hpublicCast]
    have hmod := (ZMod.intCast_eq_intCast_iff' _ _ p).mp hfield
    rwa [Int.emod_eq_of_lt (by omega) (by omega)] at hmod
  refine ⟨proof, reduced, hprove, hpublic, ?_⟩
  have hchallenge : proof.challenge = challenge "knowledge" [strInt commitment, strInt reduced] exponentModulus := rfl
  have hleft' : powInt p g proof.response = some left := hleft
  have hpower' : powInt p reduced proof.challenge = some power := hpower
  simp only [verifyKnowledge, show proof.commitment = String.ofList ('0' :: 'x' :: hexChars commitment) from rfl,
    parseHexInt_hex, hleft', hpower', Option.bind_eq_bind, Option.bind_some]
  rw [if_neg (not_not.mpr hchallenge), decide_eq_true hequation]
  rfl

/-! ## Proofs without an opening -/

def OpensRange (commitment : String) (minVal maxVal : Int) : Prop :=
  ∃ value, minVal ≤ value ∧ value ≤ maxVal ∧ commitment = rangeCommitment value minVal maxVal

def OpensBalance (commitment : String) : Prop := ∃ difference, 0 ≤ difference ∧ commitment = balanceCommitment difference

def RangeSound (minVal maxVal : Int) : Prop :=
  ∀ proof, verifyRange proof minVal maxVal = true → OpensRange proof.commitment minVal maxVal

def BalanceSound (amount : Int) : Prop := ∀ proof, verifyBalance proof amount = true → OpensBalance proof.commitment

def rangeForgery (commitment : String) (minVal maxVal : Int) : ZKProof :=
  let challenge := rangeChallenge commitment minVal maxVal
  { commitment := commitment, response := rangeResponse commitment challenge minVal maxVal,
    challenge := challenge, proofType := "range" }

def balanceForgery (commitment : String) (amount : Int) : ZKProof :=
  let challenge := balanceChallenge commitment amount
  { commitment := commitment, response := balanceResponse commitment challenge amount,
    challenge := challenge, proofType := "balance" }

theorem verifyRange_forgery (commitment : String) (minVal maxVal : Int) :
    verifyRange (rangeForgery commitment minVal maxVal) minVal maxVal = true := by
  simp [verifyRange, rangeForgery]

theorem verifyBalance_forgery (commitment : String) (amount : Int) :
    verifyBalance (balanceForgery commitment amount) amount = true := by
  simp [verifyBalance, balanceForgery]

theorem proveRange_sound {value minVal maxVal : Int} {proof : ZKProof} (h : proveRange value minVal maxVal = some proof) :
    proof = rangeForgery (rangeCommitment value minVal maxVal) minVal maxVal ∧
      OpensRange proof.commitment minVal maxVal := by
  unfold proveRange at h
  split at h
  · rename_i hrange
    obtain rfl := Option.some.inj h
    exact ⟨rfl, value, hrange.1, hrange.2, rfl⟩
  · cases h

theorem proveBalance_sound {balance amount : Int} {proof : ZKProof} (h : proveBalance balance amount = some proof) :
    proof = balanceForgery (balanceCommitment (balance - amount)) amount ∧ OpensBalance proof.commitment := by
  unfold proveBalance at h
  split at h
  · cases h
  · obtain rfl := Option.some.inj h
    exact ⟨rfl, balance - amount, by omega, rfl⟩

theorem empty_ne_hashData (s : String) : "" ≠ hashData s := by
  intro h
  have hlength : (hashData s).length = 64 := Digest.sha256Hex_length (encode s)
  rw [← h] at hlength
  exact absurd hlength (by decide)

theorem empty_not_opensRange (minVal maxVal : Int) : ¬ OpensRange "" minVal maxVal := by
  intro h
  obtain ⟨value, _, _, hc⟩ := h
  exact empty_ne_hashData _ hc

theorem empty_not_opensBalance : ¬ OpensBalance "" := by
  intro h
  obtain ⟨difference, _, hc⟩ := h
  exact empty_ne_hashData _ hc

/-- What the verifier compares are functions of the commitment alone, so it accepts a proof for
every text. Its proofs open exactly the texts that are commitments anyway. -/
theorem accepted_opens_iff (commitment : String) (minVal maxVal amount : Int) :
    ((∀ proof, proof.commitment = commitment → verifyRange proof minVal maxVal = true →
        OpensRange commitment minVal maxVal) ↔ OpensRange commitment minVal maxVal) ∧
      ((∀ proof, proof.commitment = commitment → verifyBalance proof amount = true →
        OpensBalance commitment) ↔ OpensBalance commitment) ∧
      ¬ RangeSound minVal maxVal ∧ ¬ BalanceSound amount := by
  refine ⟨⟨fun h => ?_, fun h _ _ _ => h⟩, ⟨fun h => ?_, fun h _ _ _ => h⟩, fun h => ?_, fun h => ?_⟩
  · exact h (rangeForgery commitment minVal maxVal) rfl (verifyRange_forgery commitment minVal maxVal)
  · exact h (balanceForgery commitment amount) rfl (verifyBalance_forgery commitment amount)
  · exact empty_not_opensRange minVal maxVal (h _ (verifyRange_forgery "" minVal maxVal))
  · exact empty_not_opensBalance (h _ (verifyBalance_forgery "" amount))

theorem empty_commitment_accepted :
    ¬ ((∀ proof minVal maxVal, verifyRange proof minVal maxVal = true → OpensRange proof.commitment minVal maxVal) ∧
      ∀ proof amount, verifyBalance proof amount = true → OpensBalance proof.commitment) := by
  intro h
  let proof : ZKProof :=
    { commitment := "", challenge := 157087, proofType := "range",
      response := 42348602223230334482498155701723049171023284054174953842542311052901484671174 }
  have haccepted : verifyRange proof 0 100 = true := by decide +kernel
  exact empty_not_opensRange 0 100 (h.1 proof 0 100 haccepted)

end AbsoluteChain.ZkProofs
