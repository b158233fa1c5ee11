import AbsoluteChain.Python

/-!
# SHA-256 and SHA3-256

The two digests `hashlib` is asked for. Words are natural numbers below `2 ^ 32`
(SHA-256) and `2 ^ 64` (Keccak), messages are lists of bytes.
-/

namespace Digest

open Python

/-! ## SHA-256 -/

def mask32 : Nat := 4294967295

def add32 (a b : Nat) : Nat := Nat.land (Nat.add a b) mask32

def rotr32 (x n : Nat) : Nat := Nat.land (Nat.lor (Nat.shiftRight x n) (Nat.shiftLeft x (32 - n))) mask32

def smallSigma0 (x : Nat) : Nat := Nat.xor (Nat.xor (rotr32 x 7) (rotr32 x 18)) (Nat.shiftRight x 3)
def smallSigma1 (x : Nat) : Nat := Nat.xor (Nat.xor (rotr32 x 17) (rotr32 x 19)) (Nat.shiftRight x 10)
def bigSigma0 (x : Nat) : Nat := Nat.xor (Nat.xor (rotr32 x 2) (rotr32 x 13)) (rotr32 x 22)
def bigSigma1 (x : Nat) : Nat := Nat.xor (Nat.xor (rotr32 x 6) (rotr32 x 11)) (rotr32 x 25)
def choose (x y z : Nat) : Nat := Nat.xor (Nat.land x y) (Nat.land (Nat.xor x mask32) z)
def majority (x y z : Nat) : Nat := Nat.xor (Nat.xor (Nat.land x y) (Nat.land x z)) (Nat.land y z)

def roundConstants : List Nat := [
  0x428a2f98, 0x71374491, 0xb5c0fbcf, 0xe9b5dba5, 0x3956c25b, 0x59f111f1, 0x923f82a4, 0xab1c5ed5,
  0xd807aa98, 0x12835b01, 0x243185be, 0x550c7dc3, 0x72be5d74, 0x80deb1fe, 0x9bdc06a7, 0xc19bf174,
  0xe49b69c1, 0xefbe4786, 0x0fc19dc6, 0x240ca1cc, 0x2de92c6f, 0x4a7484aa, 0x5cb0a9dc, 0x76f988da,
  0x983e5152, 0xa831c66d, 0xb00327c8, 0xbf597fc7, 0xc6e00bf3, 0xd5a79147, 0x06ca6351, 0x14292967,
  0x27b70a85, 0x2e1b2138, 0x4d2c6dfc, 0x53380d13, 0x650a7354, 0x766a0abb, 0x81c2c92e, 0x92722c85,
  0xa2bfe8a1, 0xa81a664b, 0xc24b8b70, 0xc76c51a3, 0xd192e819, 0xd6990624, 0xf40e3585, 0x106aa070,
  0x19a4c116, 0x1e376c08, 0x2748774c, 0x34b0bcb5, 0x391c0cb3, 0x4ed8aa4a, 0x5b9cca4f, 0x682e6ff3,
  0x748f82ee, 0x78a5636f, 0x84c87814, 0x8cc70208, 0x90befffa, 0xa4506ceb, 0xbef9a3f7, 0xc67178f2]

structure Working where
  a : Nat
  b : Nat
  c : Nat
  d : Nat
  e : Nat
  f : Nat
  g : Nat
  h : Nat

def round (r : Working) (k w : Nat) : Working :=
  let t₁ := add32 (add32 (add32 (add32 r.h (bigSigma1 r.e)) (choose r.e r.f r.g)) k) w
  let t₂ := add32 (bigSigma0 r.a) (majority r.a r.b r.c)
  ⟨add32 t₁ t₂, r.a, r.b, r.c, add32 r.d t₁, r.e, r.f, r.g⟩

/-- The message schedule is a window of sixteen words that moves along with the rounds. -/
def rounds : List Nat → List Nat → Working → Working
  | k :: ks, w₀ :: w₁ :: w₂ :: w₃ :: w₄ :: w₅ :: w₆ :: w₇ :: w₈ :: w₉ :: w₁₀ :: w₁₁ :: w₁₂ :: w₁₃ :: w₁₄ :: w₁₅ :: _, r =>
    rounds ks [w₁, w₂, w₃, w₄, w₅, w₆, w₇, w₈, w₉, w₁₀, w₁₁, w₁₂, w₁₃, w₁₄, w₁₅,
      add32 (add32 (smallSigma1 w₁₄) w₉) (add32 (smallSigma0 w₁) w₀)] (round r k w₀)
  | _, _, r => r

def compress (r : Working) (ws : List Nat) : Working :=
  let q := rounds roundConstants ws r
  ⟨add32 r.a q.a, add32 r.b q.b, add32 r.c q.c, add32 r.d q.d,
    add32 r.e q.e, add32 r.f q.f, add32 r.g q.g, add32 r.h q.h⟩

def initialHash : Working :=
  ⟨0x6a09e667, 0xbb67ae85, 0x3c6ef372, 0xa54ff53a, 0x510e527f, 0x9b05688c, 0x1f83d9ab, 0x5be0cd19⟩

def bigEndianWords : List Nat → List Nat
  | a :: b :: c :: d :: t => (((a * 256 + b) * 256 + c) * 256 + d) :: bigEndianWords t
  | _ => []

def compressAll : Nat → List Nat → Working → Working
  | 0, _, r => r
  | n + 1, ws, r => compressAll n (ws.drop 16) (compress r (ws.take 16))

def pad (bs : List Nat) : List Nat :=
  let n := bs.length
  bs ++ [0x80] ++ List.replicate ((119 - n % 64) % 64) 0 ++ (List.range 8).map fun i => n * 8 / 256 ^ (7 - i) % 256

def sha256Words (bs : Bytes) : List Nat :=
  let p := pad (bs.map UInt8.toNat)
  let r := compressAll (p.length / 64) (bigEndianWords p) initialHash
  [r.a, r.b, r.c, r.d, r.e, r.f, r.g, r.h]

def wordHex (w : Nat) : List Char := (List.range 8).map fun i => hexDigit (Nat.shiftRight w (28 - 4 * i) % 16)

def sha256Hex (bs : Bytes) : String := String.ofList ((sha256Words bs).flatMap wordHex)

theorem sha256Hex_length (bs : Bytes) : (sha256Hex bs).length = 64 := by
  simp [sha256Hex, sha256Words, wordHex]

/-! ## SHA3-256 -/

def mask64 : Nat := 18446744073709551615

def rotl64 (x n : Nat) : Nat := Nat.land (Nat.lor (Nat.shiftLeft x n) (Nat.shiftRight x (64 - n))) mask64

abbrev Lanes := List Nat

def lane (a : Lanes) (x y : Nat) : Nat := a.getD (x % 5 + 5 * (y % 5)) 0

def mapLanes (f : Nat → Nat → Nat) : Lanes := (List.range 25).map fun i => f (i % 5) (i / 5)

def rotations : List Nat :=
  [0, 1, 62, 28, 27, 36, 44, 6, 55, 20, 3, 10, 43, 25, 39, 41, 45, 15, 21, 8, 18, 2, 61, 56, 14]

def theta (a : Lanes) : Lanes :=
  let c := (List.range 5).map fun x => (List.range 5).foldl (fun s y => Nat.xor s (lane a x y)) 0
  let d := (List.range 5).map fun x => Nat.xor (c.getD ((x + 4) % 5) 0) (rotl64 (c.getD ((x + 1) % 5) 0) 1)
  mapLanes fun x y => Nat.xor (lane a x y) (d.getD x 0)

def rhoPi (a : Lanes) : Lanes :=
  mapLanes fun x y => let x' := x + 3 * y; rotl64 (lane a x' x) (rotations.getD (x' % 5 + 5 * x) 0)

def chi (a : Lanes) : Lanes :=
  mapLanes fun x y => Nat.xor (lane a x y) (Nat.land (Nat.xor (lane a (x + 1) y) mask64) (lane a (x + 2) y))

def iotaConstants : List Nat := [
  0x0000000000000001, 0x0000000000008082, 0x800000000000808a, 0x8000000080008000,
  0x000000000000808b, 0x0000000080000001, 0x8000000080008081, 0x8000000000008009,
  0x000000000000008a, 0x0000000000000088, 0x0000000080008009, 0x000000008000000a,
  0x000000008000808b, 0x800000000000008b, 0x8000000000008089, 0x8000000000008003,
  0x8000000000008002, 0x8000000000000080, 0x000000000000800a, 0x800000008000000a,
  0x8000000080008081, 0x8000000000008080, 0x0000000080000001, 0x8000000080008008]

def iota (k : Nat) : Lanes → Lanes
  | [] => []
  | x :: t => Nat.xor x k :: t

def keccak (a : Lanes) : Lanes := iotaConstants.foldl (fun a k => iota k (chi (rhoPi (theta a)))) a

def littleEndian (bs : List Nat) : Nat := bs.foldr (fun b n => n * 256 + b) 0

def absorb (a : Lanes) (chunk : List Nat) : Lanes :=
  keccak (mapLanes fun x y =>
    let i := x + 5 * y
    if i < 17 then Nat.xor (lane a x y) (littleEndian ((chunk.drop (8 * i)).take 8)) else lane a x y)

def absorbAll : Nat → List Nat → Lanes → Lanes
  | 0, _, a => a
  | n + 1, bs, a => absorbAll n (bs.drop 136) (absorb a (bs.take 136))

def sha3Pad (bs : List Nat) : List Nat :=
  let k := 136 - bs.length % 136
  if k = 1 then bs ++ [0x86] else bs ++ [0x06] ++ List.replicate (k - 2) 0 ++ [0x80]

def sha3_256 (bs : Bytes) : Nat :=
  let p := sha3Pad (bs.map UInt8.toNat)
  let a := absorbAll (p.length / 136) p (List.replicate 25 0)
  let digest := (a.take 4).flatMap fun w => (List.range 8).map fun i => Nat.shiftRight w (8 * i) % 256
  digest.foldl (fun n b => n * 256 + b) 0

end Digest
