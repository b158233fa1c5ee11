import AbsoluteChain.Digest

/-!
# SHA3-512 and SHAKE256

The Keccak sponge at any rate, with an output of any length.
-/

namespace Digest

open Python

/-! ## The sponge -/

def absorbAt (rate : Nat) (a : Lanes) (chunk : List Nat) : Lanes :=
  keccak (mapLanes fun x y =>
    let i := x + 5 * y
    if i < rate / 8 then Nat.xor (lane a x y) (littleEndian ((chunk.drop (8 * i)).take 8)) else lane a x y)

def absorbChunks (rate : Nat) : Nat → List Nat → Lanes → Lanes
  | 0, _, a => a
  | n + 1, bs, a => absorbChunks rate n (bs.drop rate) (absorbAt rate a (bs.take rate))

/-- The domain `suffix` and the last bit share a byte where only one is left. -/
def spongePad (rate suffix : Nat) (bs : List Nat) : List Nat :=
  let k := rate - bs.length % rate
  if k = 1 then bs ++ [suffix + 0x80] else bs ++ [suffix] ++ List.replicate (k - 2) 0 ++ [0x80]

def laneBytes (a : Lanes) : List Nat := a.flatMap fun w => (List.range 8).map fun i => Nat.shiftRight w (8 * i) % 256

def squeeze (rate : Nat) : Nat → Lanes → List Nat
  | 0, _ => []
  | n + 1, a => (laneBytes a).take rate ++ squeeze rate n (keccak a)

def sponge (rate suffix size : Nat) (bs : Bytes) : Bytes :=
  let p := spongePad rate suffix (bs.map UInt8.toNat)
  let a := absorbChunks rate (p.length / rate) p (List.replicate 25 0)
  ((squeeze rate (size / rate + 1) a).take size).map UInt8.ofNat

def sha3_512Hex (bs : Bytes) : String := hexOfBytes (sponge 72 0x06 64 bs)

def shake256 (bs : Bytes) (size : Nat) : Bytes := sponge 136 0x1f size bs

/-! ## The length of the output -/

theorem mapLanes_length (f : Nat → Nat → Nat) : (mapLanes f).length = 25 := by
  simp [mapLanes]

theorem iota_length (k : Nat) (a : Lanes) : (iota k a).length = a.length := by
  cases a with
  | nil => rfl
  | cons x t => rfl

theorem keccak_length {a : Lanes} (h : a.length = 25) : (keccak a).length = 25 := by
  unfold keccak
  apply List.foldlRecOn (motive := fun b : Lanes => b.length = 25) iotaConstants _ h
  intro b _ k _
  rw [iota_length, chi, mapLanes_length]

theorem absorbChunks_length (rate : Nat) : ∀ {n : Nat} {bs : List Nat} {a : Lanes}, a.length = 25 →
    (absorbChunks rate n bs a).length = 25 := by
  intro n
  induction n with
  | zero => exact fun h => h
  | succ n ih => exact fun _ => ih (keccak_length (mapLanes_length _))

theorem laneBytes_length (a : Lanes) : (laneBytes a).length = 8 * a.length := by
  induction a with
  | nil => rfl
  | cons w a ih =>
    unfold laneBytes at ih ⊢
    simp only [List.flatMap_cons, List.length_append, List.length_map, List.length_range, ih, List.length_cons]
    omega

theorem squeeze_length {rate : Nat} (hrate : rate ≤ 200) : ∀ {n : Nat} {a : Lanes}, a.length = 25 →
    (squeeze rate n a).length = n * rate := by
  intro n
  induction n with
  | zero =>
    intro a _
    simp [squeeze]
  | succ n ih =>
    intro a h
    rw [squeeze, List.length_append, List.length_take, laneBytes_length, h, ih (keccak_length h),
      Nat.min_eq_left (by omega), Nat.succ_mul, Nat.add_comm]

theorem sponge_length {rate : Nat} (hpos : 0 < rate) (hrate : rate ≤ 200) (suffix size : Nat) (bs : Bytes) :
    (sponge rate suffix size bs).length = size := by
  have hsize : size ≤ (size / rate + 1) * rate := by
    have := Nat.div_add_mod' size rate
    have := Nat.mod_lt size hpos
    rw [Nat.add_mul]
    omega
  unfold sponge
  rw [List.length_map, List.length_take,
    squeeze_length hrate (absorbChunks_length rate List.length_replicate), Nat.min_eq_left hsize]

theorem shake256_length (bs : Bytes) (size : Nat) : (shake256 bs size).length = size :=
  sponge_length (by decide) (by decide) 0x1f size bs

theorem hexOfBytes_length (bs : Bytes) : (hexOfBytes bs).length = 2 * bs.length := by
  unfold hexOfBytes
  rw [String.length_ofList, List.length_flatMap]
  induction bs with
  | nil => rfl
  | cons b bs ih =>
    rw [List.map_cons, List.sum_cons, ih, List.length_cons, hexOfByte]
    simp only [List.length_cons, List.length_nil]
    omega

theorem sha3_512Hex_length (bs : Bytes) : (sha3_512Hex bs).length = 128 := by
  unfold sha3_512Hex
  rw [hexOfBytes_length, sponge_length (by decide) (by decide)]

end Digest
