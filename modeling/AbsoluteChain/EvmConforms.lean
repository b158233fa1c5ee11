import AbsoluteChain.EvmStep
import AbsoluteChain.Reverts

/-!
# The interpreter against the specification

For each byte that the scan accepts, what a round hands on is compared with what the
Ethereum specification asks for. They agree but for the bytes `0x10` to `0x12`, `0x16` and
`0x17`, which run another operation, the operand orders of `EXTCODECOPY`, `LOG`, `CREATE`
and `CREATE2`, and the faults that one of them has and the other has not.
-/

namespace AbsoluteChain

open Python Actions Act
open EvmSpec (Word Address Effect Request Source CallKind addressOf truth wordOf bytesAt isDestination stackLimit)

/-! ## Words -/

section words
variable (a b : Word)

theorem ofInt_toNat : BitVec.ofInt 256 (a.toNat : Int) = a := by
  rw [BitVec.ofInt_natCast, BitVec.ofNat_toNat, BitVec.setWidth_eq]

theorem ofInt_cast {n : Nat} {w : Word} (h : n % 2 ^ 256 = w.toNat) : BitVec.ofInt 256 (n : Int) = w := by
  apply BitVec.eq_of_toNat_eq
  rw [BitVec.ofInt_natCast, BitVec.toNat_ofNat, h]

theorem ofInt_word {n : Nat} {w : Word} (h : n = w.toNat) : BitVec.ofInt 256 (n : Int) = w := by
  rw [h, ofInt_toNat]

theorem word_add : BitVec.ofInt 256 (a.toNat + b.toNat) = a + b := by
  rw [BitVec.ofInt_add, ofInt_toNat, ofInt_toNat]

theorem word_mul : BitVec.ofInt 256 (a.toNat * b.toNat) = a * b := by
  rw [BitVec.ofInt_mul, ofInt_toNat, ofInt_toNat]

theorem word_sub : BitVec.ofInt 256 (a.toNat - b.toNat) = a - b := by
  rw [sub_eq_add_neg, BitVec.ofInt_add, BitVec.ofInt_neg, ofInt_toNat, ofInt_toNat, BitVec.sub_eq_add_neg]

theorem toNat_eq_zero : a.toNat = 0 ↔ a = 0 := by
  rw [BitVec.toNat_eq]
  rfl

theorem word_div : BitVec.ofInt 256 (if b.toNat = 0 then 0 else (a.toNat / b.toNat : Nat)) = if b = 0 then 0 else a / b := by
  by_cases hb : b = 0
  · rw [if_pos hb, if_pos ((toNat_eq_zero b).mpr hb)]
    rfl
  · rw [if_neg hb, if_neg fun h => hb ((toNat_eq_zero b).mp h)]
    exact ofInt_word BitVec.toNat_udiv.symm

theorem word_mod : BitVec.ofInt 256 (if b.toNat = 0 then 0 else (a.toNat % b.toNat : Nat)) = if b = 0 then 0 else a % b := by
  by_cases hb : b = 0
  · rw [if_pos hb, if_pos ((toNat_eq_zero b).mpr hb)]
    rfl
  · rw [if_neg hb, if_neg fun h => hb ((toNat_eq_zero b).mp h)]
    exact ofInt_word BitVec.toNat_umod.symm

theorem word_truth {p q : Prop} [Decidable p] [Decidable q] (h : p ↔ q) : BitVec.ofInt 256 (if p then 1 else 0) = truth q := by
  unfold truth
  by_cases hp : p
  · rw [if_pos hp, if_pos (h.mp hp)]
    rfl
  · rw [if_neg hp, if_neg fun hq => hp (h.mpr hq)]
    rfl

theorem word_not : BitVec.ofInt 256 (wordModulus - 1 - a.toNat : Nat) = ~~~a := ofInt_word BitVec.toNat_not.symm

theorem word_byte :
    BitVec.ofInt 256 (if 32 ≤ a.toNat then 0 else (b.toNat / 2 ^ (8 * (31 - a.toNat)) % 256 : Nat)) =
      if a < 32 then (b >>> (8 * (31 - a.toNat))) % 256 else 0 := by
  have hlt : a < 32 ↔ ¬ 32 ≤ a.toNat := by
    rw [BitVec.lt_def, not_le]
    rfl
  by_cases ha : a < 32
  · rw [if_pos ha, if_neg (hlt.mp ha)]
    apply ofInt_word
    rw [BitVec.toNat_umod, BitVec.toNat_ushiftRight, Nat.shiftRight_eq_div_pow]
    rfl
  · rw [if_neg ha, if_pos (not_not.mp fun h => ha (hlt.mpr h))]
    rfl

theorem word_shl :
    BitVec.ofInt 256 (if 256 ≤ a.toNat then 0 else (b.toNat * 2 ^ a.toNat : Nat)) = b <<< a.toNat := by
  by_cases ha : 256 ≤ a.toNat
  · rw [if_pos ha, BitVec.shiftLeft_eq_zero ha]
    rfl
  · rw [if_neg ha]
    apply ofInt_cast
    rw [BitVec.toNat_shiftLeft, Nat.shiftLeft_eq]

theorem word_shr :
    BitVec.ofInt 256 (if 256 ≤ a.toNat then 0 else (b.toNat / 2 ^ a.toNat : Nat)) = b >>> a.toNat := by
  by_cases ha : 256 ≤ a.toNat
  · rw [if_pos ha, BitVec.ushiftRight_eq_zero ha]
    rfl
  · rw [if_neg ha]
    apply ofInt_word
    rw [BitVec.toNat_ushiftRight, Nat.shiftRight_eq_div_pow]

theorem word_bytes (data : Bytes) (offset size : Nat) :
    BitVec.ofInt 256 (natOfBytes (padRight (slice data offset size) size)) = wordOf (bytesAt data offset size) := by
  rw [EvmSpec.wordOf_eq, EvmSpec.bytesAt_eq, BitVec.ofInt_natCast]
  rfl

/-- Where the disjunction is the comparison. -/
theorem or_eq_truth : a ||| b = truth (b < a) ↔ b = 0 ∧ (a = 0 ∨ a = 1) := by
  constructor
  · intro h
    have hnat := congrArg BitVec.toNat h
    rw [BitVec.toNat_or] at hnat
    have ha : a.toNat ≤ a.toNat ||| b.toNat := Nat.left_le_or
    have hb : b.toNat ≤ a.toNat ||| b.toNat := Nat.right_le_or
    unfold truth at hnat
    by_cases hlt : b < a
    · rw [if_pos hlt] at hnat
      rw [BitVec.lt_def] at hlt
      have hone : (1 : Word).toNat = 1 := rfl
      exact ⟨(toNat_eq_zero b).mp (by omega), .inr (BitVec.eq_of_toNat_eq (by omega))⟩
    · rw [if_neg hlt] at hnat
      have hzero : (0 : Word).toNat = 0 := rfl
      exact ⟨(toNat_eq_zero b).mp (by omega), .inl ((toNat_eq_zero a).mp (by omega))⟩
  · intro h
    obtain ⟨rfl, rfl | rfl⟩ := h
    · rfl
    · rfl

theorem xor_eq_truth : a ^^^ b = truth (a.slt b = true) ↔ a = b ∨ (a ^^^ b = 1 ∧ a.slt b = true) := by
  unfold truth
  by_cases hlt : a.slt b = true
  · rw [if_pos hlt]
    constructor
    · intro h
      exact .inr ⟨h, hlt⟩
    · intro h
      rcases h with rfl | h
      · rw [BitVec.slt_eq_decide] at hlt
        exact absurd (of_decide_eq_true hlt) (lt_irrefl _)
      · exact h.1
  · rw [if_neg hlt, or_iff_left fun h => hlt h.2]
    exact BitVec.xor_eq_zero_iff

end words

/-! ## Bytes -/

/-- The instruction that the specification has for the byte of this one. -/
def instrOf : Op → EvmSpec.Instr
  | .stop => .stop
  | .push n => .push n
  | .add => .add
  | .mul => .mul
  | .sub => .sub
  | .div => .div
  | .mod => .mod
  | .and => .lt
  | .or => .gt
  | .xor => .slt
  | .eq => .eq
  | .isZero => .isZero
  | .lt => .and
  | .gt => .or
  | .not => .not
  | .byte => .byte
  | .shl => .shl
  | .shr => .shr
  | .sha3 => .keccak256
  | .address => .address
  | .balance => .balance
  | .origin => .origin
  | .caller => .caller
  | .callValue => .callValue
  | .callDataLoad => .callDataLoad
  | .callDataSize => .callDataSize
  | .callDataCopy => .callDataCopy
  | .codeSize => .codeSize
  | .codeCopy => .codeCopy
  | .returnDataSize => .returnDataSize
  | .returnDataCopy => .returnDataCopy
  | .extCodeSize => .extCodeSize
  | .extCodeCopy => .extCodeCopy
  | .log n => .log n
  | .blockHash => .blockHash
  | .pop => .pop
  | .mload => .mload
  | .mstore => .mstore
  | .mstore8 => .mstore8
  | .sload => .sload
  | .sstore => .sstore
  | .jump => .jump
  | .jumpi => .jumpi
  | .gas => .gas
  | .jumpDest => .jumpDest
  | .push0 => .push 0
  | .dup n => .dup n
  | .swap n => .swap n
  | .create => .create
  | .create2 => .create2
  | .callCode => .callCode
  | .call => .call
  | .delegateCall => .delegateCall
  | .staticCall => .staticCall
  | .return => .return
  | .revert => .revert
  | .invalid => .invalid
  | .selfDestruct => .selfDestruct
  | .timestamp | .number | .gasLimit | .chainId | .unsupported _ => .unlisted

theorem decode_instrOf {b : UInt8} (h : isSupportedOpcode b = true) :
    EvmSpec.decode b = instrOf (decode b) ∧ instrOf (decode b) ≠ .unlisted ∧ decode b ≠ .dup 0 := by
  have hall : ∀ n < 256, isSupportedOpcode (UInt8.ofNat n) = true →
      EvmSpec.decode (UInt8.ofNat n) = instrOf (decode (UInt8.ofNat n)) ∧
        instrOf (decode (UInt8.ofNat n)) ≠ .unlisted ∧ decode (UInt8.ofNat n) ≠ .dup 0 := by
    decide +kernel
  have hb := hall b.toNat b.toNat_lt
  rw [UInt8.ofNat_toNat] at hb
  exact hb h

/-! ## Where they agree -/

section conforming
variable (host : Host) (ctx : EvmContext) (code : Bytes) (m : Machine)

def specState (ws : List Word) : EvmSpec.State where
  stack := ws
  storage := slots m.storage
  pc := m.pc
  code := code
  calldata := ctx.calldata
  returnData := m.returnData
  address := BitVec.ofInt 256 (addrInt host ctx.address)
  origin := BitVec.ofInt 256 (addrInt host ctx.origin)
  caller := BitVec.ofInt 256 (addrInt host ctx.caller)
  callValue := BitVec.ofInt 256 ctx.value
  gas := BitVec.ofInt 256 (remainingGas m)

def Lawful (dest : Word) : Prop := isJumpDest code dest.toNat = true → isDestination 0 code dest.toNat = true

def Concurs : Op → List Word → Prop
  | .and, a :: b :: _ | .lt, a :: b :: _ => a &&& b = truth (a < b)
  | .or, a :: b :: _ | .gt, a :: b :: _ => b = 0 ∧ (a = 0 ∨ a = 1)
  | .xor, a :: b :: _ => a = b ∨ (a ^^^ b = 1 ∧ a.slt b = true)
  | .shl, shift :: v :: _ => v = 0 ∨ shift.toNat ≤ 8 * host.memoryLimit
  | .jump, dest :: _ => Lawful code dest
  | .jumpi, dest :: cond :: _ => cond = 0 ∨ Lawful code dest
  | .returnDataCopy, _ :: offset :: size :: _ => offset.toNat + size.toNat ≤ m.returnData.length
  | .extCodeCopy, a :: _ :: c :: d :: _ => a = c ∧ c = d
  | .log n, ws => (ws.take (n + 2)).reverse = ws.take (n + 2)
  | .create, a :: _ :: c :: _ => a = c
  | .create2, a :: b :: c :: d :: _ => a = d ∧ b = c
  | _, _ => True

def Faulting : Op → List Word → Prop
  | .invalid, _ => True
  | .shl, shift :: v :: _ => ¬ (v = 0 ∨ shift.toNat ≤ 8 * host.memoryLimit)
  | .jump, dest :: _ => isJumpDest code dest.toNat = false
  | .jumpi, dest :: cond :: _ => cond ≠ 0 ∧ isJumpDest code dest.toNat = false
  | _, _ => False

/-- Within the limit of the stack the instruction is the same; beyond it, where the specification always faults,
the code faults too. -/
def Conforming (op : Op) (ws : List Word) : Prop :=
  if ws.length - (instrOf op).arity.1 + (instrOf op).arity.2 ≤ stackLimit then Concurs host code m op ws
  else Faulting host code op ws

end conforming

section conforming
variable {host : Host} {ctx : EvmContext} {code : Bytes} {m : Machine} {ws r : List Word}

theorem goOn_eq_iff {v : Int} {w : Word} :
    goOn m v r = (specState host ctx code m ws).goOn (w :: r) ↔ BitVec.ofInt 256 v = w := by
  unfold goOn EvmSpec.State.goOn
  simp only [Effect.next.injEq, List.cons.injEq, and_true]
  exact and_iff_left ⟨rfl, rfl⟩

theorem goOn_eq {v : Int} {w : Word} (h : BitVec.ofInt 256 v = w) :
    goOn m v r = (specState host ctx code m ws).goOn (w :: r) := goOn_eq_iff.mpr h

theorem slots_storeSlot (storage : Storage) (key value : Word) :
    slots (storeSlot storage key.toNat value.toNat) = Function.update (slots storage) key value := by
  funext k
  have hsame : k.toNat = key.toNat ↔ k = key := BitVec.toNat_eq.symm
  rw [Function.update_apply]
  unfold slots storeSlot
  by_cases hzero : value.toNat = 0 ∧ storage.contains key.toNat
  · rw [if_pos hzero, Dict.get?_erase]
    by_cases hk : k = key
    · rw [if_pos (hsame.mpr hk), if_pos hk, (toNat_eq_zero value).mp hzero.1]
      rfl
    · rw [if_neg fun h => hk (hsame.mp h), if_neg hk]
  · rw [if_neg hzero, Dict.get?_set]
    by_cases hk : k = key
    · rw [if_pos (hsame.mpr hk), if_pos hk, Option.getD_some, BitVec.ofNat_toNat, BitVec.setWidth_eq]
    · rw [if_neg fun h => hk (hsame.mp h), if_neg hk]

theorem isJumpDest_of_isDestination {dest : Word} (h : isDestination 0 code dest.toNat = true) :
    isJumpDest code dest.toNat = true := by
  unfold isJumpDest
  rw [EvmSpec.getElem_of_isDestination h]
  rfl

theorem jumps_eq_iff {dest : Word} :
    jumps code m dest r = (specState host ctx code m ws).jumpTo dest r ↔ Lawful code dest := by
  unfold jumps EvmSpec.State.jumpTo Lawful
  by_cases hvalid : isDestination 0 code dest.toNat = true
  · rw [if_pos (isJumpDest_of_isDestination hvalid)]
    exact iff_of_true (if_pos hvalid).symm fun _ => hvalid
  · have hspec : (if isDestination 0 (specState host ctx code m ws).code dest.toNat = true then
        Effect.next r (specState host ctx code m ws).storage dest.toNat else .fault) = .fault := if_neg hvalid
    rw [hspec]
    by_cases hbyte : isJumpDest code dest.toNat = true
    · rw [if_pos hbyte]
      exact iff_of_false (fun h => nomatch h) fun h => hvalid (h hbyte)
    · rw [if_neg hbyte]
      exact iff_of_true rfl fun h => absurd h hbyte

theorem exists_one (h : 1 ≤ ws.length) : ∃ a r, ws = a :: r := by
  cases ws with
  | nil => cases h
  | cons a r => exact ⟨a, r, rfl⟩

theorem exists_two (h : 2 ≤ ws.length) : ∃ a b r, ws = a :: b :: r := by
  obtain ⟨a, r, rfl⟩ := exists_one (le_trans (by omega) h)
  obtain ⟨b, r, rfl⟩ := exists_one (Nat.le_of_succ_le_succ h)
  exact ⟨a, b, r, rfl⟩

theorem exists_three (h : 3 ≤ ws.length) : ∃ a b c r, ws = a :: b :: c :: r := by
  obtain ⟨a, r, rfl⟩ := exists_one (le_trans (by omega) h)
  obtain ⟨b, c, r, rfl⟩ := exists_two (Nat.le_of_succ_le_succ h)
  exact ⟨a, b, c, r, rfl⟩

theorem exists_four (h : 4 ≤ ws.length) : ∃ a b c d r, ws = a :: b :: c :: d :: r := by
  obtain ⟨a, r, rfl⟩ := exists_one (le_trans (by omega) h)
  obtain ⟨b, c, d, r, rfl⟩ := exists_three (Nat.le_of_succ_le_succ h)
  exact ⟨a, b, c, d, r, rfl⟩

theorem exists_six (h : 6 ≤ ws.length) : ∃ a b c d e f r, ws = a :: b :: c :: d :: e :: f :: r := by
  obtain ⟨a, b, r, rfl⟩ := exists_two (le_trans (by omega) h)
  obtain ⟨c, d, e, f, r, rfl⟩ := exists_four (Nat.le_of_succ_le_succ (Nat.le_of_succ_le_succ h))
  exact ⟨a, b, c, d, e, f, r, rfl⟩

theorem exists_seven (h : 7 ≤ ws.length) : ∃ a b c d e f g r, ws = a :: b :: c :: d :: e :: f :: g :: r := by
  obtain ⟨a, r, rfl⟩ := exists_one (le_trans (by omega) h)
  obtain ⟨b, c, d, e, f, g, r, rfl⟩ := exists_six (Nat.le_of_succ_le_succ h)
  exact ⟨a, b, c, d, e, f, g, r, rfl⟩

theorem perform_dup (s : EvmSpec.State) (n : Nat) (r : List Word) : s.perform (.dup n) r =
    match r[n - 1]? with
    | some v => s.goOn (v :: r)
    | none => .fault := rfl

theorem perform_swap (s : EvmSpec.State) (n : Nat) (r : List Word) : s.perform (.swap n) r =
    match r[0]?, r[n]? with
    | some a, some b => s.goOn ((r.set 0 b).set n a)
    | _, _ => .fault := rfl

theorem and_eq_perform (a b : Word) :
    handed host ctx code m .and (a :: b :: r) =
        (specState host ctx code m (a :: b :: r)).perform (instrOf .and) (a :: b :: r) ↔
      Concurs host code m .and (a :: b :: r) := by
  refine goOn_eq_iff.trans ?_
  rw [ofInt_word (BitVec.toNat_and a b).symm]
  rfl

theorem lt_eq_perform (a b : Word) :
    handed host ctx code m .lt (a :: b :: r) =
        (specState host ctx code m (a :: b :: r)).perform (instrOf .lt) (a :: b :: r) ↔
      Concurs host code m .lt (a :: b :: r) := by
  refine goOn_eq_iff.trans ?_
  rw [word_truth (BitVec.lt_def (x := a) (y := b)).symm]
  exact eq_comm

theorem or_eq_perform (a b : Word) :
    handed host ctx code m .or (a :: b :: r) =
        (specState host ctx code m (a :: b :: r)).perform (instrOf .or) (a :: b :: r) ↔
      Concurs host code m .or (a :: b :: r) := by
  refine goOn_eq_iff.trans ?_
  rw [ofInt_word (BitVec.toNat_or a b).symm]
  exact or_eq_truth a b

theorem gt_eq_perform (a b : Word) :
    handed host ctx code m .gt (a :: b :: r) =
        (specState host ctx code m (a :: b :: r)).perform (instrOf .gt) (a :: b :: r) ↔
      Concurs host code m .gt (a :: b :: r) := by
  refine goOn_eq_iff.trans ?_
  rw [word_truth (BitVec.lt_def (x := b) (y := a)).symm, eq_comm]
  exact or_eq_truth a b

theorem xor_eq_perform (a b : Word) :
    handed host ctx code m .xor (a :: b :: r) =
        (specState host ctx code m (a :: b :: r)).perform (instrOf .xor) (a :: b :: r) ↔
      Concurs host code m .xor (a :: b :: r) := by
  refine goOn_eq_iff.trans ?_
  rw [ofInt_word (BitVec.toNat_xor a b).symm]
  exact xor_eq_truth a b

theorem shl_eq_perform (shift v : Word) :
    handed host ctx code m .shl (shift :: v :: r) =
        (specState host ctx code m (shift :: v :: r)).perform (instrOf .shl) (shift :: v :: r) ↔
      Concurs host code m .shl (shift :: v :: r) := by
  change (if v.toNat ≠ 0 ∧ 8 * host.memoryLimit < shift.toNat then Effect.fault
    else goOn m (if 256 ≤ shift.toNat then 0 else (v.toNat * 2 ^ shift.toNat : Nat)) r) =
      (specState host ctx code m (shift :: v :: r)).goOn (v <<< shift.toNat :: r) ↔
        (v = 0 ∨ shift.toNat ≤ 8 * host.memoryLimit)
  by_cases hbig : v.toNat ≠ 0 ∧ 8 * host.memoryLimit < shift.toNat
  · rw [if_pos hbig]
    refine iff_of_false (by intro h; cases h) ?_
    rw [not_or, not_le, ← toNat_eq_zero]
    exact hbig
  · rw [if_neg hbig]
    refine iff_of_true (goOn_eq (word_shl shift v)) ?_
    rw [← toNat_eq_zero, ← not_lt]
    tauto

theorem returnDataCopy_eq_perform (dest offset size : Word) :
    handed host ctx code m .returnDataCopy (dest :: offset :: size :: r) =
        (specState host ctx code m (dest :: offset :: size :: r)).perform (instrOf .returnDataCopy) (dest :: offset :: size :: r) ↔
      Concurs host code m .returnDataCopy (dest :: offset :: size :: r) := by
  change Effect.ask (.copy .returnData dest offset size) r =
    (if offset.toNat + size.toNat ≤ m.returnData.length then .ask (.copy .returnData dest offset size) r else .fault) ↔
      offset.toNat + size.toNat ≤ m.returnData.length
  by_cases hfits : offset.toNat + size.toNat ≤ m.returnData.length
  · rw [if_pos hfits]
    exact iff_of_true rfl hfits
  · rw [if_neg hfits]
    exact iff_of_false (by intro h; cases h) hfits

theorem extCodeCopy_eq_perform (a b c d : Word) :
    handed host ctx code m .extCodeCopy (a :: b :: c :: d :: r) =
        (specState host ctx code m (a :: b :: c :: d :: r)).perform (instrOf .extCodeCopy) (a :: b :: c :: d :: r) ↔
      Concurs host code m .extCodeCopy (a :: b :: c :: d :: r) := by
  change Effect.ask (.copy (.account (addressOf d)) b a c) r = .ask (.copy (.account (addressOf a)) b c d) r ↔ a = c ∧ c = d
  simp only [Effect.ask.injEq, Request.copy.injEq, Source.account.injEq, and_true, true_and]
  constructor
  · intro h
    exact h.2
  · intro h
    obtain ⟨rfl, rfl⟩ := h
    exact ⟨rfl, rfl, rfl⟩

theorem create_eq_perform (a b c : Word) :
    handed host ctx code m .create (a :: b :: c :: r) =
        (specState host ctx code m (a :: b :: c :: r)).perform (instrOf .create) (a :: b :: c :: r) ↔
      Concurs host code m .create (a :: b :: c :: r) := by
  change Effect.ask (.create c b a none) r = .ask (.create a b c none) r ↔ a = c
  simp only [Effect.ask.injEq, Request.create.injEq, and_true, true_and]
  exact ⟨fun h => h.2, fun h => ⟨h.symm, h⟩⟩

theorem create2_eq_perform (a b c d : Word) :
    handed host ctx code m .create2 (a :: b :: c :: d :: r) =
        (specState host ctx code m (a :: b :: c :: d :: r)).perform (instrOf .create2) (a :: b :: c :: d :: r) ↔
      Concurs host code m .create2 (a :: b :: c :: d :: r) := by
  change Effect.ask (.create d c b (some a)) r = .ask (.create a b c (some d)) r ↔ a = d ∧ b = c
  simp only [Effect.ask.injEq, Request.create.injEq, Option.some.injEq, and_true]
  exact ⟨fun h => ⟨h.2.2.2, h.2.2.1⟩, fun h => ⟨h.1.symm, h.2.symm, h.2, h.1⟩⟩

theorem jumpi_eq_perform (dest cond : Word) :
    handed host ctx code m .jumpi (dest :: cond :: r) =
        (specState host ctx code m (dest :: cond :: r)).perform (instrOf .jumpi) (dest :: cond :: r) ↔
      Concurs host code m .jumpi (dest :: cond :: r) := by
  change (if cond.toNat ≠ 0 then jumps code m dest r else .next r (slots m.storage) (m.pc + 1)) =
    (if cond = 0 then (specState host ctx code m (dest :: cond :: r)).goOn r
      else (specState host ctx code m (dest :: cond :: r)).jumpTo dest r) ↔ (cond = 0 ∨ Lawful code dest)
  by_cases hcond : cond = 0
  · rw [if_neg (not_not.mpr ((toNat_eq_zero cond).mpr hcond)), if_pos hcond]
    exact iff_of_true rfl (.inl hcond)
  · rw [if_pos fun h => hcond ((toNat_eq_zero cond).mp h), if_neg hcond, or_iff_right hcond]
    exact jumps_eq_iff

theorem dup_eq_perform (n : Nat) :
    handed host ctx code m (.dup n) ws =
        (specState host ctx code m ws).perform (.dup n) ws ↔
      Concurs host code m (.dup n) ws := by
  change handed host ctx code m (.dup n) ws = (specState host ctx code m ws).perform (.dup n) ws ↔ True
  rw [handed_dup, perform_dup]
  cases ws[n - 1]? with
  | none => exact iff_of_true rfl trivial
  | some v => exact iff_of_true (goOn_eq (ofInt_toNat v)) trivial

theorem swap_eq_perform (n : Nat) :
    handed host ctx code m (.swap n) ws =
        (specState host ctx code m ws).perform (.swap n) ws ↔
      Concurs host code m (.swap n) ws := by
  refine iff_of_true ?_ trivial
  rw [handed_swap, perform_swap]
  rfl

theorem log_eq_perform {n : Nat} (hlength : n + 2 ≤ ws.length) :
    handed host ctx code m (.log n) ws =
        (specState host ctx code m ws).perform (.log n) ws ↔
      Concurs host code m (.log n) ws := by
  obtain ⟨a, b, r, hws⟩ := exists_two (le_trans (by omega) hlength)
  obtain ⟨size, offset, t, hdrop⟩ : ∃ x y t, ws.drop n = x :: y :: t :=
    exists_two (by rw [List.length_drop]; omega)
  have hrest : r.drop n = t := by
    have hskip : (ws.drop n).drop 2 = (ws.drop 2).drop n := by
      rw [List.drop_drop, List.drop_drop, Nat.add_comm]
    rw [hdrop, hws] at hskip
    exact hskip.symm
  have htake : ws.take (n + 2) = ws.take n ++ [size, offset] := by
    rw [List.take_add, hdrop]
    rfl
  have hfirst : ws.take (n + 2) = a :: b :: r.take n := by
    rw [hws]
    rfl
  change handed host ctx code m (.log n) ws = (specState host ctx code m ws).perform (.log n) ws ↔
    (ws.take (n + 2)).reverse = ws.take (n + 2)
  rw [handed_log, hdrop]
  have hspec : (specState host ctx code m ws).perform (.log n) ws = .ask (.log (r.take n) a b) t := by
    rw [← hrest]
    conv_lhs => rw [hws]
    rfl
  have hreverse : (ws.take (n + 2)).reverse = offset :: size :: (ws.take n).reverse := by
    rw [htake, List.reverse_append]
    rfl
  rw [hspec, hreverse, hfirst]
  simp only [Effect.ask.injEq, Request.log.injEq, List.cons.injEq, and_true]
  tauto

theorem handed_eq_perform {op : Op} (hlisted : instrOf op ≠ .unlisted) (henough : (instrOf op).arity.1 ≤ ws.length) :
    handed host ctx code m op ws =
        (specState host ctx code m ws).perform (instrOf op) ws ↔
      Concurs host code m op ws := by
  cases op with
  | timestamp | number | gasLimit | chainId | unsupported b => exact absurd rfl hlisted
  | stop | invalid | jumpDest => exact iff_of_true rfl trivial
  | push n => exact iff_of_true (congrArg (fun w : Word => Effect.next (w :: ws) _ _) (word_bytes code (m.pc + 1) n)) trivial
  | push0 => exact iff_of_true (goOn_eq rfl) trivial
  | address | origin | caller | callValue | gas => exact iff_of_true (goOn_eq rfl) trivial
  | callDataSize | codeSize | returnDataSize => exact iff_of_true (goOn_eq (BitVec.ofInt_natCast _ _)) trivial
  | isZero =>
    obtain ⟨a, r, rfl⟩ := exists_one henough
    exact iff_of_true (goOn_eq (word_truth (toNat_eq_zero a))) trivial
  | not =>
    obtain ⟨a, r, rfl⟩ := exists_one henough
    exact iff_of_true (goOn_eq (word_not a)) trivial
  | callDataLoad =>
    obtain ⟨i, r, rfl⟩ := exists_one henough
    exact iff_of_true (goOn_eq (word_bytes ctx.calldata i.toNat 32)) trivial
  | sload =>
    obtain ⟨key, r, rfl⟩ := exists_one henough
    exact iff_of_true (goOn_eq (BitVec.ofInt_natCast _ _)) trivial
  | add =>
    obtain ⟨a, b, r, rfl⟩ := exists_two henough
    exact iff_of_true (goOn_eq (word_add a b)) trivial
  | mul =>
    obtain ⟨a, b, r, rfl⟩ := exists_two henough
    exact iff_of_true (goOn_eq (word_mul a b)) trivial
  | sub =>
    obtain ⟨a, b, r, rfl⟩ := exists_two henough
    exact iff_of_true (goOn_eq (word_sub a b)) trivial
  | div =>
    obtain ⟨a, b, r, rfl⟩ := exists_two henough
    exact iff_of_true (goOn_eq (word_div a b)) trivial
  | mod =>
    obtain ⟨a, b, r, rfl⟩ := exists_two henough
    exact iff_of_true (goOn_eq (word_mod a b)) trivial
  | eq =>
    obtain ⟨a, b, r, rfl⟩ := exists_two henough
    exact iff_of_true (goOn_eq (word_truth BitVec.toNat_eq.symm)) trivial
  | byte =>
    obtain ⟨a, b, r, rfl⟩ := exists_two henough
    exact iff_of_true (goOn_eq (word_byte a b)) trivial
  | shr =>
    obtain ⟨a, b, r, rfl⟩ := exists_two henough
    exact iff_of_true (goOn_eq (word_shr a b)) trivial
  -- the instructions whose branch computes, or pops, something else
  | and =>
    obtain ⟨a, b, r, rfl⟩ := exists_two henough
    exact and_eq_perform a b
  | lt =>
    obtain ⟨a, b, r, rfl⟩ := exists_two henough
    exact lt_eq_perform a b
  | or =>
    obtain ⟨a, b, r, rfl⟩ := exists_two henough
    exact or_eq_perform a b
  | gt =>
    obtain ⟨a, b, r, rfl⟩ := exists_two henough
    exact gt_eq_perform a b
  | xor =>
    obtain ⟨a, b, r, rfl⟩ := exists_two henough
    exact xor_eq_perform a b
  | shl =>
    obtain ⟨shift, v, r, rfl⟩ := exists_two henough
    exact shl_eq_perform shift v
  | returnDataCopy =>
    obtain ⟨dest, offset, size, r, rfl⟩ := exists_three henough
    exact returnDataCopy_eq_perform dest offset size
  | extCodeCopy =>
    obtain ⟨a, b, c, d, r, rfl⟩ := exists_four henough
    exact extCodeCopy_eq_perform a b c d
  | create =>
    obtain ⟨a, b, c, r, rfl⟩ := exists_three henough
    exact create_eq_perform a b c
  | create2 =>
    obtain ⟨a, b, c, d, r, rfl⟩ := exists_four henough
    exact create2_eq_perform a b c d
  | log n => exact log_eq_perform henough
  | jump =>
    obtain ⟨dest, r, rfl⟩ := exists_one henough
    exact jumps_eq_iff
  | jumpi =>
    obtain ⟨dest, cond, r, rfl⟩ := exists_two henough
    exact jumpi_eq_perform dest cond
  | dup n => exact dup_eq_perform n
  | swap n => exact swap_eq_perform n
  | sha3 | mstore | mstore8 | «return» | revert =>
    obtain ⟨a, b, r, rfl⟩ := exists_two henough
    exact iff_of_true rfl trivial
  | balance | extCodeSize | blockHash | mload | pop | selfDestruct =>
    obtain ⟨a, r, rfl⟩ := exists_one henough
    exact iff_of_true rfl trivial
  | callDataCopy | codeCopy =>
    obtain ⟨a, b, c, r, rfl⟩ := exists_three henough
    exact iff_of_true rfl trivial
  | call | callCode =>
    obtain ⟨a, b, c, d, e, f, g, r, rfl⟩ := exists_seven henough
    exact iff_of_true rfl trivial
  | delegateCall | staticCall =>
    obtain ⟨a, b, c, d, e, f, r, rfl⟩ := exists_six henough
    exact iff_of_true rfl trivial
  | sstore =>
    obtain ⟨key, value, r, rfl⟩ := exists_two henough
    exact iff_of_true (congrArg (fun storage => Effect.next r storage (m.pc + 1)) (slots_storeSlot m.storage key value)) trivial

theorem jumps_fault_iff {dest : Word} : jumps code m dest r = .fault ↔ isJumpDest code dest.toNat = false := by
  unfold jumps
  by_cases hdest : isJumpDest code dest.toNat = true
  · rw [if_pos hdest]
    exact iff_of_false (by intro h; cases h) (by rw [hdest]; exact Bool.noConfusion)
  · rw [if_neg hdest]
    exact iff_of_true rfl (Bool.eq_false_iff.mpr hdest)

theorem shl_fault_iff (shift v : Word) :
    handed host ctx code m .shl (shift :: v :: r) = .fault ↔ Faulting host code .shl (shift :: v :: r) := by
  change (if v.toNat ≠ 0 ∧ 8 * host.memoryLimit < shift.toNat then Effect.fault
    else goOn m (if 256 ≤ shift.toNat then 0 else (v.toNat * 2 ^ shift.toNat : Nat)) r) = .fault ↔
      ¬ (v = 0 ∨ shift.toNat ≤ 8 * host.memoryLimit)
  rw [not_or, not_le, ← toNat_eq_zero]
  by_cases hbig : v.toNat ≠ 0 ∧ 8 * host.memoryLimit < shift.toNat
  · rw [if_pos hbig]
    exact iff_of_true rfl hbig
  · rw [if_neg hbig]
    exact iff_of_false (by intro h; cases h) hbig

theorem jumpi_fault_iff (dest cond : Word) :
    handed host ctx code m .jumpi (dest :: cond :: r) = .fault ↔ Faulting host code .jumpi (dest :: cond :: r) := by
  change (if cond.toNat ≠ 0 then jumps code m dest r else .next r (slots m.storage) (m.pc + 1)) = .fault ↔
    cond ≠ 0 ∧ isJumpDest code dest.toNat = false
  by_cases hcond : cond = 0
  · rw [if_neg (not_not.mpr ((toNat_eq_zero cond).mpr hcond))]
    exact iff_of_false (by intro h; cases h) fun h => h.1 hcond
  · rw [if_pos fun h => hcond ((toNat_eq_zero cond).mp h), and_iff_right hcond]
    exact jumps_fault_iff

theorem dup_fault_iff {n : Nat} (hpos : n ≠ 0) (hlength : n ≤ ws.length) :
    handed host ctx code m (.dup n) ws = .fault ↔ Faulting host code (.dup n) ws := by
  have hlt : n - 1 < ws.length := by omega
  change handed host ctx code m (.dup n) ws = .fault ↔ False
  rw [handed_dup, List.getElem?_eq_getElem hlt]
  exact iff_of_false (by intro h; cases h) id

theorem swap_fault_iff {n : Nat} (hlength : n + 1 ≤ ws.length) :
    handed host ctx code m (.swap n) ws = .fault ↔ Faulting host code (.swap n) ws := by
  have hfirst : 0 < ws.length := by omega
  have hlast : n < ws.length := by omega
  change handed host ctx code m (.swap n) ws = .fault ↔ False
  rw [handed_swap, List.getElem?_eq_getElem hfirst, List.getElem?_eq_getElem hlast]
  exact iff_of_false (by intro h; cases h) id

theorem log_fault_iff {n : Nat} (hlength : n + 2 ≤ ws.length) :
    handed host ctx code m (.log n) ws = .fault ↔ Faulting host code (.log n) ws := by
  obtain ⟨size, offset, t, hdrop⟩ : ∃ x y t, ws.drop n = x :: y :: t :=
    exists_two (by rw [List.length_drop]; omega)
  change handed host ctx code m (.log n) ws = .fault ↔ False
  rw [handed_log, hdrop]
  exact iff_of_false (by intro h; cases h) id

theorem handed_fault_iff {op : Op} (hlisted : instrOf op ≠ .unlisted) (hdup : op ≠ .dup 0)
    (henough : (instrOf op).arity.1 ≤ ws.length) :
    handed host ctx code m op ws = .fault ↔ Faulting host code op ws := by
  cases op with
  | timestamp | number | gasLimit | chainId | unsupported b => exact absurd rfl hlisted
  | invalid => exact iff_of_true rfl trivial
  | stop | jumpDest | push n | address | origin | caller | callValue | gas | callDataSize | codeSize | returnDataSize
  | push0 => exact iff_of_false (by intro h; cases h) id
  | isZero | not | callDataLoad | sload | balance | extCodeSize | blockHash | mload | pop | selfDestruct =>
    obtain ⟨a, r, rfl⟩ := exists_one henough
    exact iff_of_false (by intro h; cases h) id
  | add | mul | sub | div | mod | eq | and | or | xor | lt | gt | byte | shr | sha3 | mstore | mstore8 | sstore | «return»
  | revert =>
    obtain ⟨a, b, r, rfl⟩ := exists_two henough
    exact iff_of_false (by intro h; cases h) id
  | callDataCopy | codeCopy | returnDataCopy | create =>
    obtain ⟨a, b, c, r, rfl⟩ := exists_three henough
    exact iff_of_false (by intro h; cases h) id
  | extCodeCopy | create2 =>
    obtain ⟨a, b, c, d, r, rfl⟩ := exists_four henough
    exact iff_of_false (by intro h; cases h) id
  | delegateCall | staticCall =>
    obtain ⟨a, b, c, d, e, f, r, rfl⟩ := exists_six henough
    exact iff_of_false (by intro h; cases h) id
  | call | callCode =>
    obtain ⟨a, b, c, d, e, f, g, r, rfl⟩ := exists_seven henough
    exact iff_of_false (by intro h; cases h) id
  | shl =>
    obtain ⟨shift, v, r, rfl⟩ := exists_two henough
    exact shl_fault_iff shift v
  | jump =>
    obtain ⟨dest, r, rfl⟩ := exists_one henough
    exact jumps_fault_iff
  | jumpi =>
    obtain ⟨dest, cond, r, rfl⟩ := exists_two henough
    exact jumpi_fault_iff dest cond
  | dup n => exact dup_fault_iff (fun h => hdup (by rw [h])) henough
  | swap n => exact swap_fault_iff henough
  | log n => exact log_fault_iff henough

/-- The loop does a round, the round does what is handed on, and that is what the specification asks for in the
conforming states only. -/
theorem step_conforms_iff (host : Host) (view : Tables → Callbacks) (hooks : Hooks) (ctx : EvmContext) (code : Bytes)
    (b : UInt8) (m m₁ : Machine) (ws : List Word) (db : Db) (hbyte : code[m.pc]? = some b)
    (haccepted : isSupportedOpcode b = true) (henough : (EvmSpec.decode b).arity.1 ≤ ws.length)
    (hgas : chargeOp (decode b) m = (.ok (), m₁)) :
    (∀ fuel, runLoop host view hooks ctx code (fuel + 1) { machine := m.holding ws, db := db } =
        afterRound host view hooks ctx code fuel
          (round host view hooks ctx code (decode b) { machine := m.holding ws, db := db })) ∧
      Shows host view hooks ctx code { machine := m₁, db := db } (handed host ctx code m₁ (decode b) ws)
        (round host view hooks ctx code (decode b) { machine := m.holding ws, db := db }) ∧
      (handed host ctx code m₁ (decode b) ws = (specState host ctx code m₁ ws).step (EvmSpec.decode b) ↔
        Conforming host code m₁ (decode b) ws) := by
  refine ⟨runLoop_round hbyte, round_shows hgas ws db, ?_⟩
  obtain ⟨hinstr, hlisted, hdup⟩ := decode_instrOf haccepted
  rw [hinstr] at henough ⊢
  unfold EvmSpec.State.step Conforming
  by_cases hroom : ws.length - (instrOf (decode b)).arity.1 + (instrOf (decode b)).arity.2 ≤ stackLimit
  · rw [if_pos ⟨henough, hroom⟩, if_pos hroom]
    exact handed_eq_perform hlisted henough
  · rw [if_neg fun h => hroom h.2, if_neg hroom]
    exact handed_fault_iff hlisted hdup henough

end conforming

/-- An interpreter outside of any contract. -/
def bare : EvmContext :=
  { caller := "", origin := "", address := "", calldata := [], value := 0, blockNumber := 0, timestamp := 0, chainId := 0 }

def silentHooks : Hooks where
  call _ _ := Act.raise ""
  create _ _ _ _ := Act.raise ""
  selfDestruct _ _ := Act.raise ""

/-- `SUB` at the boundary of the words. -/
theorem step_conforms_sub :
    handed Host.plain bare [0x03] { Machine.start 100 [] with gasUsed := 3 } .sub [0, 1] =
      (specState Host.plain bare [0x03] { Machine.start 100 [] with gasUsed := 3 } [0, 1]).step .sub :=
  (step_conforms_iff Host.plain EvmAdapter.plain.callbacks silentHooks bare [0x03] 0x03 (Machine.start 100 [])
    { Machine.start 100 [] with gasUsed := 3 } [0, 1] (EvmAdapter.contracts []) rfl (by decide) (by decide)
      rfl).2.2.mpr (by trivial)

/-- The byte of `LT` runs the conjunction. -/
theorem step_diverges :
    ¬ ∀ (host : Host) (view : Tables → Callbacks) (hooks : Hooks) (ctx : EvmContext) (code : Bytes) (b : UInt8)
      (m m₁ : Machine) (ws : List Word) (db : Db), code[m.pc]? = some b → isSupportedOpcode b = true →
      (EvmSpec.decode b).arity.1 ≤ ws.length → chargeOp (decode b) m = (.ok (), m₁) →
      Shows host view hooks ctx code { machine := m₁, db := db } ((specState host ctx code m₁ ws).step (EvmSpec.decode b))
        (round host view hooks ctx code (decode b) { machine := m.holding ws, db := db }) := by
  intro hall
  have hgas : chargeOp (decode 0x10) (Machine.start 100 []) = (.ok (), { Machine.start 100 [] with gasUsed := 3 }) := rfl
  have hspec := hall Host.plain EvmAdapter.plain.callbacks silentHooks bare [0x10] 0x10 (Machine.start 100 [])
    { Machine.start 100 [] with gasUsed := 3 } [1, 2] (EvmAdapter.contracts []) rfl (by decide) (by decide) hgas
  have hcode : Shows Host.plain EvmAdapter.plain.callbacks silentHooks bare [0x10]
      { machine := { Machine.start 100 [] with gasUsed := 3 }, db := EvmAdapter.contracts [] }
      (handed Host.plain bare [0x10] { Machine.start 100 [] with gasUsed := 3 } .and [1, 2])
      (round Host.plain EvmAdapter.plain.callbacks silentHooks bare [0x10] .and
        { machine := (Machine.start 100 []).holding [1, 2], db := EvmAdapter.contracts [] }) :=
    round_shows hgas [1, 2] (EvmAdapter.contracts [])
  obtain ⟨st, -, hone⟩ := hspec
  obtain ⟨st', -, hzero⟩ := hcode
  have hstacks : [1] = [0] := congrArg (fun r : Except Fault Bool × Vm => r.2.machine.stack) (hone.symm.trans hzero)
  exact absurd hstacks (by decide)

end AbsoluteChain
