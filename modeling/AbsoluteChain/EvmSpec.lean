import Mathlib.Data.BitVec
import Mathlib.Data.List.GetD
import Mathlib.Logic.Function.Basic

/-!
# The Ethereum virtual machine

What the Ethereum specification says a byte of code does: which instruction it is, what one
step makes of the stack, the storage and the counter, and what it asks of the memory, of
other accounts and of the log. Words are bit vectors, so that arithmetic is modulo `2 ^ 256`.
Gas is left out.
-/

namespace EvmSpec

abbrev Word := BitVec 256

abbrev Address := BitVec 160

/-! ## Instructions -/

inductive Instr where
  | stop | add | mul | sub | div | mod | lt | gt | slt | eq | isZero | and | or | not | byte | shl | shr | keccak256 | address
  | balance | origin | caller | callValue | callDataLoad | callDataSize | callDataCopy | codeSize | codeCopy
  | extCodeSize | extCodeCopy | returnDataSize | returnDataCopy | blockHash | pop | mload | mstore | mstore8 | sload
  | sstore | jump | jumpi | gas | jumpDest | push (n : Nat) | dup (n : Nat) | swap (n : Nat) | log (topics : Nat)
  | create | call | callCode | «return» | delegateCall | create2 | staticCall | revert | invalid | selfDestruct
  | unlisted
  deriving DecidableEq

def decode (b : UInt8) : Instr :=
  match b.toNat with
  | 0x00 => .stop
  | 0x01 => .add
  | 0x02 => .mul
  | 0x03 => .sub
  | 0x04 => .div
  | 0x06 => .mod
  | 0x10 => .lt
  | 0x11 => .gt
  | 0x12 => .slt
  | 0x14 => .eq
  | 0x15 => .isZero
  | 0x16 => .and
  | 0x17 => .or
  | 0x19 => .not
  | 0x1a => .byte
  | 0x1b => .shl
  | 0x1c => .shr
  | 0x20 => .keccak256
  | 0x30 => .address
  | 0x31 => .balance
  | 0x32 => .origin
  | 0x33 => .caller
  | 0x34 => .callValue
  | 0x35 => .callDataLoad
  | 0x36 => .callDataSize
  | 0x37 => .callDataCopy
  | 0x38 => .codeSize
  | 0x39 => .codeCopy
  | 0x3b => .extCodeSize
  | 0x3c => .extCodeCopy
  | 0x3d => .returnDataSize
  | 0x3e => .returnDataCopy
  | 0x40 => .blockHash
  | 0x50 => .pop
  | 0x51 => .mload
  | 0x52 => .mstore
  | 0x53 => .mstore8
  | 0x54 => .sload
  | 0x55 => .sstore
  | 0x56 => .jump
  | 0x57 => .jumpi
  | 0x5a => .gas
  | 0x5b => .jumpDest
  | 0xf0 => .create
  | 0xf1 => .call
  | 0xf2 => .callCode
  | 0xf3 => .return
  | 0xf4 => .delegateCall
  | 0xf5 => .create2
  | 0xfa => .staticCall
  | 0xfd => .revert
  | 0xfe => .invalid
  | 0xff => .selfDestruct
  | n =>
    if 0x5f ≤ n ∧ n ≤ 0x7f then .push (n - 0x5f)
    else if 0x80 ≤ n ∧ n ≤ 0x8f then .dup (n - 0x7f)
    else if 0x90 ≤ n ∧ n ≤ 0x9f then .swap (n - 0x8f)
    else if 0xa0 ≤ n ∧ n ≤ 0xa4 then .log (n - 0xa0)
    else .unlisted

/-- How many words an instruction takes from the stack, and how many it puts there. -/
def Instr.arity : Instr → Nat × Nat
  | .stop | .jumpDest | .invalid | .unlisted => (0, 0)
  | .add | .mul | .sub | .div | .mod | .lt | .gt | .slt | .eq | .and | .or | .byte | .shl | .shr | .keccak256 => (2, 1)
  | .isZero | .not | .balance | .callDataLoad | .extCodeSize | .blockHash | .mload | .sload => (1, 1)
  | .address | .origin | .caller | .callValue | .callDataSize | .codeSize | .returnDataSize | .gas | .push _ => (0, 1)
  | .callDataCopy | .codeCopy | .returnDataCopy => (3, 0)
  | .extCodeCopy => (4, 0)
  | .pop | .jump | .selfDestruct => (1, 0)
  | .mstore | .mstore8 | .sstore | .jumpi | .return | .revert => (2, 0)
  | .dup n => (n, n + 1)
  | .swap n => (n + 1, n + 1)
  | .log n => (n + 2, 0)
  | .create => (3, 1)
  | .create2 => (4, 1)
  | .call | .callCode => (7, 1)
  | .delegateCall | .staticCall => (6, 1)

/-! ## Steps -/

structure State where
  stack : List Word
  storage : Word → Word
  pc : Nat
  code : List UInt8
  calldata : List UInt8
  returnData : List UInt8
  address : Word
  origin : Word
  caller : Word
  callValue : Word
  gas : Word

/-- Where a copy reads. -/
inductive Source where
  | callData | code | returnData | account (who : Address)
  deriving DecidableEq

inductive CallKind where
  | call | callCode | delegateCall | staticCall
  deriving DecidableEq

/-- What an instruction asks of the memory, of other accounts or of the log, its operands in their places. -/
inductive Request where
  | hash (offset size : Word)
  | balance (who : Address)
  | codeSize (who : Address)
  | blockHash (height : Word)
  | load (offset : Word)
  | store (offset value : Word)
  | storeByte (offset : Word) (value : BitVec 8)
  | copy (source : Source) (dest offset size : Word)
  | log (topics : List Word) (offset size : Word)
  | call (kind : CallKind) (gas : Word) (callee : Address) (value argsOffset argsSize retOffset retSize : Word)
  | create (value offset size : Word) (salt : Option Word)
  | «return» (offset size : Word)
  | revert (offset size : Word)
  | selfDestruct (beneficiary : Address)
  deriving DecidableEq

/-- What one step does: fault, halt, leave a stack, a storage and a counter, or ask for something above the
stack that is left. -/
inductive Effect where
  | fault
  | stop (stack : List Word)
  | next (stack : List Word) (storage : Word → Word) (pc : Nat)
  | ask (request : Request) (stack : List Word)

def truth (p : Prop) [Decidable p] : Word := if p then 1 else 0

def bytesAt (data : List UInt8) (offset size : Nat) : List UInt8 :=
  (List.range size).map fun i => data.getD (offset + i) 0

def wordOf (bytes : List UInt8) : Word := bytes.foldl (fun w b => w * 256 + BitVec.ofNat 256 b.toNat) 0

def addressOf (w : Word) : Address := w.setWidth 160

def dataSize (b : UInt8) : Nat :=
  match decode b with
  | .push n => n
  | _ => 0

/-- A `JUMPDEST` at the position, outside of push data; the first `skip` bytes are push data. -/
def isDestination : Nat → List UInt8 → Nat → Bool
  | _, [], _ => false
  | skip + 1, _ :: code, pos + 1 => isDestination skip code pos
  | 0, b :: code, pos + 1 => isDestination (dataSize b) code pos
  | 0, b :: _, 0 => b = 0x5b
  | _ + 1, _ :: _, 0 => false

def stackLimit : Nat := 1024

namespace State

variable (s : State)

def goOn (stack : List Word) : Effect := .next stack s.storage (s.pc + 1)

def jumpTo (dest : Word) (rest : List Word) : Effect :=
  if isDestination 0 s.code dest.toNat then .next rest s.storage dest.toNat else .fault

/-- What an instruction does that has its operands and room for its results. -/
def perform : Instr → List Word → Effect
  | .stop, r => .stop r
  | .add, a :: b :: r => s.goOn ((a + b) :: r)
  | .mul, a :: b :: r => s.goOn ((a * b) :: r)
  | .sub, a :: b :: r => s.goOn ((a - b) :: r)
  | .div, a :: b :: r => s.goOn ((if b = 0 then 0 else a / b) :: r)
  | .mod, a :: b :: r => s.goOn ((if b = 0 then 0 else a % b) :: r)
  | .lt, a :: b :: r => s.goOn (truth (a < b) :: r)
  | .gt, a :: b :: r => s.goOn (truth (b < a) :: r)
  | .slt, a :: b :: r => s.goOn (truth (a.slt b = true) :: r)
  | .eq, a :: b :: r => s.goOn (truth (a = b) :: r)
  | .isZero, a :: r => s.goOn (truth (a = 0) :: r)
  | .and, a :: b :: r => s.goOn ((a &&& b) :: r)
  | .or, a :: b :: r => s.goOn ((a ||| b) :: r)
  | .not, a :: r => s.goOn (~~~a :: r)
  | .byte, i :: x :: r => s.goOn ((if i < 32 then (x >>> (8 * (31 - i.toNat))) % 256 else 0) :: r)
  | .shl, shift :: v :: r => s.goOn ((v <<< shift.toNat) :: r)
  | .shr, shift :: v :: r => s.goOn ((v >>> shift.toNat) :: r)
  | .keccak256, offset :: size :: r => .ask (.hash offset size) r
  | .address, r => s.goOn (s.address :: r)
  | .balance, who :: r => .ask (.balance (addressOf who)) r
  | .origin, r => s.goOn (s.origin :: r)
  | .caller, r => s.goOn (s.caller :: r)
  | .callValue, r => s.goOn (s.callValue :: r)
  | .callDataLoad, i :: r => s.goOn (wordOf (bytesAt s.calldata i.toNat 32) :: r)
  | .callDataSize, r => s.goOn (BitVec.ofNat 256 s.calldata.length :: r)
  | .callDataCopy, dest :: offset :: size :: r => .ask (.copy .callData dest offset size) r
  | .codeSize, r => s.goOn (BitVec.ofNat 256 s.code.length :: r)
  | .codeCopy, dest :: offset :: size :: r => .ask (.copy .code dest offset size) r
  | .extCodeSize, who :: r => .ask (.codeSize (addressOf who)) r
  | .extCodeCopy, who :: dest :: offset :: size :: r => .ask (.copy (.account (addressOf who)) dest offset size) r
  | .returnDataSize, r => s.goOn (BitVec.ofNat 256 s.returnData.length :: r)
  | .returnDataCopy, dest :: offset :: size :: r =>
    if offset.toNat + size.toNat ≤ s.returnData.length then .ask (.copy .returnData dest offset size) r else .fault
  | .blockHash, height :: r => .ask (.blockHash height) r
  | .pop, _ :: r => s.goOn r
  | .mload, offset :: r => .ask (.load offset) r
  | .mstore, offset :: value :: r => .ask (.store offset value) r
  | .mstore8, offset :: value :: r => .ask (.storeByte offset (value.setWidth 8)) r
  | .sload, key :: r => s.goOn (s.storage key :: r)
  | .sstore, key :: value :: r => .next r (Function.update s.storage key value) (s.pc + 1)
  | .jump, dest :: r => s.jumpTo dest r
  | .jumpi, dest :: cond :: r => if cond = 0 then s.goOn r else s.jumpTo dest r
  | .gas, r => s.goOn (s.gas :: r)
  | .jumpDest, r => s.goOn r
  | .push n, r => .next (wordOf (bytesAt s.code (s.pc + 1) n) :: r) s.storage (s.pc + n + 1)
  | .dup n, r =>
    match r[n - 1]? with
    | some v => s.goOn (v :: r)
    | none => .fault
  | .swap n, r =>
    match r[0]?, r[n]? with
    | some a, some b => s.goOn ((r.set 0 b).set n a)
    | _, _ => .fault
  | .log n, offset :: size :: r => .ask (.log (r.take n) offset size) (r.drop n)
  | .create, value :: offset :: size :: r => .ask (.create value offset size none) r
  | .create2, value :: offset :: size :: salt :: r => .ask (.create value offset size (some salt)) r
  | .call, gas :: callee :: value :: argsOffset :: argsSize :: retOffset :: retSize :: r =>
    .ask (.call .call gas (addressOf callee) value argsOffset argsSize retOffset retSize) r
  | .callCode, gas :: callee :: value :: argsOffset :: argsSize :: retOffset :: retSize :: r =>
    .ask (.call .callCode gas (addressOf callee) value argsOffset argsSize retOffset retSize) r
  | .delegateCall, gas :: callee :: argsOffset :: argsSize :: retOffset :: retSize :: r =>
    .ask (.call .delegateCall gas (addressOf callee) 0 argsOffset argsSize retOffset retSize) r
  | .staticCall, gas :: callee :: argsOffset :: argsSize :: retOffset :: retSize :: r =>
    .ask (.call .staticCall gas (addressOf callee) 0 argsOffset argsSize retOffset retSize) r
  | .return, offset :: size :: r => .ask (.return offset size) r
  | .revert, offset :: size :: r => .ask (.revert offset size) r
  | .selfDestruct, beneficiary :: r => .ask (.selfDestruct (addressOf beneficiary)) r
  | _, _ => .fault

def Room (i : Instr) : Prop := s.stack.length - i.arity.1 + i.arity.2 ≤ stackLimit

instance (i : Instr) : Decidable (s.Room i) := inferInstanceAs (Decidable (_ ≤ _))

def step (i : Instr) : Effect :=
  if i.arity.1 ≤ s.stack.length ∧ s.Room i then s.perform i s.stack else .fault

end State

/-! ## Bytes and words -/

theorem bytesAt_eq (data : List UInt8) (offset size : Nat) :
    bytesAt data offset size =
      (data.drop offset).take size ++ List.replicate (size - ((data.drop offset).take size).length) 0 := by
  apply List.ext_getElem
  · simp only [bytesAt, List.length_map, List.length_range, List.length_append, List.length_replicate,
      List.length_take, List.length_drop]
    omega
  · intro i h₁ h₂
    simp only [bytesAt, List.length_map, List.length_range] at h₁
    simp only [bytesAt, List.getElem_map, List.getElem_range, List.getElem_append, List.length_take, List.length_drop,
      List.getElem_take, List.getElem_drop, List.getElem_replicate]
    by_cases hi : offset + i < data.length
    · rw [dif_pos (by omega), List.getD_eq_getElem _ _ hi]
    · rw [dif_neg (by omega), List.getD_eq_default _ _ (by omega)]

theorem wordOf_eq (bytes : List UInt8) :
    wordOf bytes = BitVec.ofNat 256 (bytes.foldl (fun n b => n * 256 + b.toNat) 0) := by
  have hfrom : ∀ (l : List UInt8) (w : Word) (n : Nat), w = BitVec.ofNat 256 n →
      l.foldl (fun w b => w * 256 + BitVec.ofNat 256 b.toNat) w =
        BitVec.ofNat 256 (l.foldl (fun n b => n * 256 + b.toNat) n) := by
    intro l
    induction l with
    | nil => exact fun _ _ h => h
    | cons b l ih =>
      intro w n h
      apply ih
      rw [h, BitVec.ofNat_add, BitVec.ofNat_mul]
      rfl
  exact hfrom bytes 0 0 rfl

theorem getElem_of_isDestination {skip : Nat} {code : List UInt8} {pos : Nat} (h : isDestination skip code pos = true) :
    code[pos]? = some 0x5b := by
  induction code generalizing skip pos with
  | nil =>
    unfold isDestination at h
    cases h
  | cons b code ih =>
    cases pos with
    | zero =>
      cases skip with
      | zero => simpa [isDestination] using h
      | succ skip => cases h
    | succ pos =>
      cases skip with
      | zero => exact ih h
      | succ skip => exact ih h

end EvmSpec
