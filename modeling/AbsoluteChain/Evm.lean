import AbsoluteChain.Database

/-!
# The EVM interpreter

`evm_interpreter.py`: the stack machine, its instructions and the loop. What a
contract may do to other accounts goes through the hooks of the context, which the
adapter supplies.
-/

namespace AbsoluteChain

open Python Actions

/-! ## Instructions -/

inductive Op where
  | stop | push (n : Nat) | add | mul | sub | div | mod | and | or | xor | eq | isZero | lt | gt | not | byte | shl
  | shr | sha3 | address | balance | origin | caller | callValue | callDataLoad | callDataSize | callDataCopy | codeSize
  | codeCopy | returnDataSize | returnDataCopy | extCodeSize | extCodeCopy | log (topics : Nat) | blockHash | timestamp
  | number | gasLimit | chainId | pop | mload | mstore | mstore8 | sload | sstore | jump | jumpi | gas | jumpDest | push0
  | dup (n : Nat) | swap (n : Nat) | create | create2 | callCode | call | delegateCall | staticCall | return | revert
  | invalid | selfDestruct | unsupported (b : UInt8)
  deriving DecidableEq

def decode (b : UInt8) : Op :=
  match b.toNat with
  | 0x00 => .stop
  | 0x01 => .add
  | 0x02 => .mul
  | 0x03 => .sub
  | 0x04 => .div
  | 0x06 => .mod
  | 0x10 => .and
  | 0x11 => .or
  | 0x12 => .xor
  | 0x14 => .eq
  | 0x15 => .isZero
  | 0x16 => .lt
  | 0x17 => .gt
  | 0x19 => .not
  | 0x1a => .byte
  | 0x1b => .shl
  | 0x1c => .shr
  | 0x20 => .sha3
  | 0x30 => .address
  | 0x31 => .balance
  | 0x32 => .origin
  | 0x33 => .caller
  | 0x34 => .callValue
  | 0x35 => .callDataLoad
  | 0x36 => .callDataSize
  | 0x37 => .callDataCopy
  | 0x38 => .codeSize
  | 0x39 => .codeCopy
  | 0x3b => .extCodeSize
  | 0x3c => .extCodeCopy
  | 0x3d => .returnDataSize
  | 0x3e => .returnDataCopy
  | 0x40 => .blockHash
  | 0x42 => .timestamp
  | 0x43 => .number
  | 0x45 => .gasLimit
  | 0x46 => .chainId
  | 0x50 => .pop
  | 0x51 => .mload
  | 0x52 => .mstore
  | 0x53 => .mstore8
  | 0x54 => .sload
  | 0x55 => .sstore
  | 0x56 => .jump
  | 0x57 => .jumpi
  | 0x5a => .gas
  | 0x5b => .jumpDest
  | 0x5f => .push0
  | 0xf0 => .create
  | 0xf1 => .call
  | 0xf2 => .callCode
  | 0xf3 => .return
  | 0xf4 => .delegateCall
  | 0xf5 => .create2
  | 0xfa => .staticCall
  | 0xfd => .revert
  | 0xfe => .invalid
  | 0xff => .selfDestruct
  | n =>
    if 0x60 ≤ n ∧ n ≤ 0x7f then .push (n - 0x5f)
    else if 0x80 ≤ n ∧ n ≤ 0x8f then .dup (n - 0x7f)
    else if 0x90 ≤ n ∧ n ≤ 0x9f then .swap (n - 0x8f)
    else if 0xa0 ≤ n ∧ n ≤ 0xa4 then .log (n - 0xa0)
    else .unsupported b

def gasCost : Op → Int
  | .stop | .return | .revert => 0
  | .jumpDest => 1
  | .pop | .caller | .origin | .address | .timestamp | .number | .callValue | .callDataSize | .returnDataSize | .codeSize
  | .chainId | .gasLimit | .gas | .push0 => 2
  | .mul | .div | .mod => 5
  | .jump => 8
  | .jumpi => 10
  | .blockHash => 20
  | .sha3 => 30
  | .sload => 200
  | .log _ => 375
  | .balance => 400
  | .call | .callCode | .delegateCall | .staticCall | .extCodeSize | .extCodeCopy => 700
  | .sstore | .selfDestruct => 5000
  | .create | .create2 => 32000
  | _ => 3

def callStipend : Int := 2300

/-! ## State -/

/-- `EVMContext` without its callbacks. -/
structure EvmContext where
  caller : String
  origin : String
  address : String
  calldata : Bytes
  value : Int
  blockNumber : Int
  timestamp : Int
  chainId : Int

structure Callbacks where
  balanceOf : String → Int
  codeSizeOf : String → Nat
  codeCopyOf : String → Nat → Nat → Bytes
  blockHashOf : Nat → Except Fault Nat

structure Machine where
  stack : List Nat
  memory : Bytes
  storage : Storage
  gasUsed : Int
  gasLimit : Int
  pc : Nat
  running : Bool
  reverted : Bool
  returnData : Bytes
  logs : List EvmLog

def Machine.start (gasLimit : Int) (storage : Storage) : Machine :=
  { stack := [], memory := [], storage := storage, gasUsed := 0, gasLimit := gasLimit, pc := 0, running := true,
    reverted := false, returnData := [], logs := [] }

/-- An interpreter at work on the node's database. -/
structure Vm where
  machine : Machine
  db : Db

def Vm.machinePart : Act.Part Vm Machine where
  get s := s.machine
  set m s := { s with machine := m }
  get_set _ _ := rfl
  set_get _ := rfl
  set_set _ _ _ := rfl

def Vm.dbPart : Act.Part Vm Db where
  get s := s.db
  set db s := { s with db := db }
  get_set _ _ := rfl
  set_get _ := rfl
  set_set _ _ _ := rfl

/-! ## Machine primitives -/

abbrev MachineM := Act Fault Machine

def wordModulus : Nat := 2 ^ 256

def push (v : Int) : MachineM Unit := Act.write fun m => { m with stack := (v % wordModulus).toNat :: m.stack }

def pop : MachineM Nat := fun m =>
  match m.stack with
  | [] => (.error "stack underflow", m)
  | v :: t => (.ok v, { m with stack := t })

def consumeGas (cost : Int) : MachineM Unit := fun m =>
  if m.gasLimit < m.gasUsed + cost then
    (.error ("out_of_gas (used=" ++ strInt m.gasUsed ++ ", need=" ++ strInt cost ++ ")"), m)
  else (.ok (), { m with gasUsed := m.gasUsed + cost })

def memExtend (host : Host) (offset size : Nat) : MachineM Unit := fun m =>
  if host.memoryLimit < offset + size then (.error "", m)
  else (.ok (), { m with memory := padRight m.memory (offset + size) })

def memSlice (host : Host) (offset size : Nat) : MachineM Bytes := do
  memExtend host offset size
  Act.read fun m => slice m.memory offset size

def memAssign (offset size : Nat) (chunk : Bytes) : MachineM Unit :=
  Act.write fun m => { m with memory := m.memory.take offset ++ chunk ++ m.memory.drop (offset + size) }

def memCopy (host : Host) (source : Bytes) : MachineM Unit := do
  let dest ← pop
  let offset ← pop
  let size ← pop
  memExtend host dest size
  memAssign dest size (slice source offset size)

def remainingGas (m : Machine) : Int := max 0 (m.gasLimit - m.gasUsed)

def callGasCap (m : Machine) (requested : Int) : Int :=
  let cap := remainingGas m * 63 / 64
  if requested ≤ 0 then cap else min requested cap

def chargeSubcallGas (subGas : Int) : MachineM Unit := fun m =>
  if 0 < subGas then
    let m' := { m with gasUsed := m.gasUsed + subGas }
    if m'.gasLimit < m'.gasUsed then
      (.error ("out_of_gas (used=" ++ strInt m'.gasUsed ++ ", limit=" ++ strInt m'.gasLimit ++ ")"), m')
    else (.ok (), m')
  else (.ok (), m)

def wordToAddr (w : Nat) : String := "0x" ++ String.ofList (rjust 40 '0' (hexChars (w % 2 ^ 160)))

def addrInt (host : Host) (who : String) : Int :=
  let raw := (host.lower (removeHexPrefixes who)).toList
  if raw = [] then 0
  else
    match parseHexInt (raw.take 40) with
    | some n => n
    | none => (parseHexInt ((hashData who).toList.take 16)).getD 0

def isJumpDest (code : Bytes) (dest : Nat) : Bool := code[dest]? == some 0x5b

/-! ## Instructions on the machine alone -/

inductive Flow where
  | next | jump (dest : Nat) | halt

def binary (f : Nat → Nat → Int) : MachineM Flow := do
  let a ← pop
  let b ← pop
  push (f a b)
  pure .next

def pushFlow (v : Int) : MachineM Flow := do
  push v
  pure .next

def popTopics : Nat → MachineM (List Nat)
  | 0 => pure []
  | n + 1 => do
    let t ← pop
    let ts ← popTopics n
    pure (t :: ts)

def jumpTo (code : Bytes) (dest : Nat) : MachineM Flow :=
  if isJumpDest code dest then pure (.jump dest)
  else Act.raise ("invalid jump destination: " ++ strInt dest)

def haltWith (host : Host) (reverted : Bool) : MachineM Flow := do
  let offset ← pop
  let size ← pop
  let data ← memSlice host offset size
  Act.write fun m => { m with returnData := data, reverted := reverted }
  pure .halt

def storeSlot (storage : Storage) (key value : Nat) : Storage :=
  if value = 0 ∧ storage.contains key then storage.erase key else storage.set key value

def machineOp (host : Host) (cb : Callbacks) (ctx : EvmContext) (code : Bytes) : Op → MachineM Flow
  | .stop => pure .halt
  | .push n => do
    let m ← Act.read id
    push (natOfBytes (padRight (slice code (m.pc + 1) n) n))
    Act.write fun m => { m with pc := m.pc + n }
    pure .next
  | .add => binary fun a b => a + b
  | .mul => binary fun a b => a * b
  | .sub => binary fun a b => a - b
  | .div => binary fun a b => if b = 0 then 0 else (a / b : Nat)
  | .mod => binary fun a b => if b = 0 then 0 else (a % b : Nat)
  | .and => binary fun a b => (a &&& b : Nat)
  | .or => binary fun a b => (a ||| b : Nat)
  | .xor => binary fun a b => (a ^^^ b : Nat)
  | .eq => binary fun a b => if a = b then 1 else 0
  | .lt => binary fun a b => if a < b then 1 else 0
  | .gt => binary fun a b => if b < a then 1 else 0
  | .isZero => do
    let a ← pop
    pushFlow (if a = 0 then 1 else 0)
  | .not => do
    let a ← pop
    pushFlow (wordModulus - 1 - a : Nat)
  | .byte => binary fun i x => if 32 ≤ i then 0 else (x / 2 ^ (8 * (31 - i)) % 256 : Nat)
  | .shl => do
    let shift ← pop
    let v ← pop
    if v ≠ 0 ∧ 8 * host.memoryLimit < shift then Act.raise ""
    else pushFlow (if 256 ≤ shift then 0 else (v * 2 ^ shift : Nat))
  | .shr => binary fun shift v => if 256 ≤ shift then 0 else (v / 2 ^ shift : Nat)
  | .sha3 => do
    let offset ← pop
    let size ← pop
    let data ← memSlice host offset size
    pushFlow (Digest.sha3_256 data)
  | .address => pushFlow (addrInt host ctx.address)
  | .balance => do
    let who ← pop
    let digits := rjust 40 '0' (hexChars who)
    pushFlow (cb.balanceOf ("0x" ++ String.ofList (digits.drop (digits.length - 40))))
  | .origin => pushFlow (addrInt host ctx.origin)
  | .caller => pushFlow (addrInt host ctx.caller)
  | .callValue => pushFlow ctx.value
  | .callDataLoad => do
    let i ← pop
    pushFlow (natOfBytes (padRight (slice ctx.calldata i 32) 32))
  | .callDataSize => pushFlow ctx.calldata.length
  | .callDataCopy => do
    memCopy host ctx.calldata
    pure .next
  | .codeSize => pushFlow code.length
  | .codeCopy => do
    memCopy host code
    pure .next
  | .returnDataSize => do
    let m ← Act.read id
    pushFlow m.returnData.length
  | .returnDataCopy => do
    let m ← Act.read id
    memCopy host m.returnData
    pure .next
  | .extCodeSize => do
    let who ← pop
    pushFlow (cb.codeSizeOf (wordToAddr who))
  | .extCodeCopy => do
    let codeOffset ← pop
    let memOffset ← pop
    let size ← pop
    let who ← pop
    let chunk := cb.codeCopyOf (wordToAddr who) codeOffset size
    memExtend host memOffset chunk.length
    memAssign memOffset chunk.length chunk
    pure .next
  | .log n => do
    let topics ← popTopics n
    let size ← pop
    let offset ← pop
    consumeGas (375 + n * 375 + size)
    let data ← memSlice host offset size
    Act.write fun m => { m with logs := m.logs ++ [{ topics := topics.reverse, data := data }] }
    pure .next
  | .blockHash => do
    let height ← pop
    match cb.blockHashOf height with
    | .ok h => pushFlow h
    | .error e => Act.raise e
  | .timestamp => pushFlow ctx.timestamp
  | .number => pushFlow ctx.blockNumber
  | .gasLimit => do
    let m ← Act.read id
    pushFlow m.gasLimit
  | .chainId => pushFlow ctx.chainId
  | .pop => do
    let _ ← pop
    pure .next
  | .mload => do
    let offset ← pop
    let word ← memSlice host offset 32
    pushFlow (natOfBytes word)
  | .mstore => do
    let offset ← pop
    let value ← pop
    memExtend host offset 32
    memAssign offset 32 (bytesOfNat 32 value)
    pure .next
  | .mstore8 => do
    let offset ← pop
    let value ← pop
    memExtend host offset 1
    memAssign offset 1 [UInt8.ofNat (value % 256)]
    pure .next
  | .sload => do
    let key ← pop
    let m ← Act.read id
    pushFlow ((m.storage.get? key).getD 0)
  | .sstore => do
    let key ← pop
    let value ← pop
    Act.write fun m => { m with storage := storeSlot m.storage key value }
    pure .next
  | .jump => do
    let dest ← pop
    jumpTo code dest
  | .jumpi => do
    let dest ← pop
    let cond ← pop
    if cond ≠ 0 then jumpTo code dest else pure .next
  | .gas => do
    let m ← Act.read id
    pushFlow (remainingGas m)
  | .jumpDest => pure .next
  | .push0 => pushFlow 0
  | .dup n => do
    let m ← Act.read id
    match m.stack[n - 1]? with
    | some v => pushFlow v
    | none => Act.raise "stack underflow"
  | .swap n => do
    let m ← Act.read id
    match m.stack[0]?, m.stack[n]? with
    | some a, some b =>
      Act.write fun m => { m with stack := (m.stack.set 0 b).set n a }
      pure .next
    | _, _ => Act.raise "stack underflow"
  | .return => haltWith host false
  | .revert => haltWith host true
  | .invalid => Act.raise "invalid opcode"
  | .unsupported b => Act.raise ("unsupported opcode 0x" ++ String.ofList (rjust 2 '0' (hexChars b.toNat)))
  -- these six reach other accounts and are executed by `effectOp`
  | .create | .create2 | .callCode | .call | .delegateCall | .staticCall | .selfDestruct => Act.raise ""

/-! ## Instructions that reach other accounts -/

structure CallArgs where
  target : String
  calldata : Bytes
  value : Int
  gas : Int
  delegate : Bool
  static : Bool
  callcode : Bool

structure CallOut where
  success : Bool
  reverted : Bool
  returnData : Bytes
  gasUsed : Int
  storage : Option Storage

structure CreateOut where
  success : Bool
  reverted : Bool
  gasUsed : Int
  address : String

/-- The callbacks of a context that write: `contract_call`, `contract_create` and `selfdestruct`. -/
structure Hooks where
  call : EvmContext → CallArgs → Act Fault Db CallOut
  create : EvmContext → Bytes → Nat → Option Nat → Act Fault Db CreateOut
  selfDestruct : EvmContext → String → Act Fault Db Unit

def onMachine {α : Type} (m : MachineM α) : Act Fault Vm α := Act.on Vm.machinePart m

def onVmDb {α : Type} (m : Act Fault Db α) : Act Fault Vm α := Act.on Vm.dbPart m

structure CallOperands where
  gas : Nat
  toWord : Nat
  value : Nat
  argsOffset : Nat
  argsSize : Nat
  retOffset : Nat
  retSize : Nat

def popCall (withValue : Bool) : MachineM CallOperands := do
  let gas ← pop
  let toWord ← pop
  let value ← if withValue then pop else pure 0
  let argsOffset ← pop
  let argsSize ← pop
  let retOffset ← pop
  let retSize ← pop
  pure { gas, toWord, value, argsOffset, argsSize, retOffset, retSize }

def callGas (m : Machine) (a : CallOperands) (delegate static : Bool) : Int :=
  let cap := callGasCap m a.gas
  if 0 < a.value ∧ ¬ static ∧ ¬ delegate then min (remainingGas m) (cap + callStipend) else cap

def finishCall (host : Host) (a : CallOperands) (gas : Int) (adopt : Bool) (out : CallOut) : MachineM Flow := do
  chargeSubcallGas (min out.gasUsed gas)
  Act.write fun m =>
    { m with returnData := out.returnData, storage := if adopt then out.storage.getD m.storage else m.storage }
  memExtend host a.retOffset a.retSize
  let chunk := out.returnData.take a.retSize
  memAssign a.retOffset chunk.length chunk
  pushFlow (if out.success ∧ ¬ out.reverted then 1 else 0)

structure CallMode where
  withValue : Bool
  delegate : Bool
  static : Bool
  callcode : Bool

def callMode : Op → Option CallMode
  | .callCode => some { withValue := true, delegate := false, static := false, callcode := true }
  | .call => some { withValue := true, delegate := false, static := false, callcode := false }
  | .delegateCall => some { withValue := false, delegate := true, static := false, callcode := false }
  | .staticCall => some { withValue := false, delegate := false, static := true, callcode := false }
  | _ => none

def prepareCall (host : Host) (mode : CallMode) : MachineM (CallOperands × CallArgs) := do
  let a ← popCall mode.withValue
  let data ← memSlice host a.argsOffset a.argsSize
  let gas ← Act.read fun m => callGas m a mode.delegate mode.static
  pure (a, { target := wordToAddr a.toWord, calldata := data, value := a.value, gas, delegate := mode.delegate,
             static := mode.static, callcode := mode.callcode })

def executeCall (host : Host) (hooks : Hooks) (ctx : EvmContext) (mode : CallMode) : Act Fault Vm Flow := do
  let p ← onMachine (prepareCall host mode)
  let out ← onVmDb (hooks.call ctx p.2)
  onMachine (finishCall host p.1 p.2.gas (mode.delegate || mode.callcode) out)

structure CreateArgs where
  initCode : Bytes
  value : Nat
  salt : Option Nat

def prepareCreate (host : Host) (salted : Bool) : MachineM CreateArgs := do
  let salt ← if salted then (do let s ← pop; pure (some s)) else pure none
  let size ← pop
  let offset ← pop
  let value ← pop
  let initCode ← memSlice host offset size
  pure { initCode, value, salt }

def executeCreate (host : Host) (hooks : Hooks) (ctx : EvmContext) (salted : Bool) : Act Fault Vm Flow := do
  let a ← onMachine (prepareCreate host salted)
  let out ← onVmDb (hooks.create ctx a.initCode a.value a.salt)
  onMachine do
    chargeSubcallGas out.gasUsed
    pushFlow (if ¬ out.success ∨ out.reverted ∨ out.address = "" then 0 else addrInt host out.address)

/-- An instruction that may write to the database, `none` for all others. -/
def effectOp (host : Host) (hooks : Hooks) (ctx : EvmContext) : Op → Option (Act Fault Vm Flow)
  | .create => some (executeCreate host hooks ctx false)
  | .create2 => some (executeCreate host hooks ctx true)
  | .selfDestruct => some do
    let beneficiary ← onMachine pop
    onVmDb (hooks.selfDestruct ctx (wordToAddr beneficiary))
    pure .halt
  | op => (callMode op).map (executeCall host hooks ctx)

def execOp (host : Host) (view : Tables → Callbacks) (hooks : Hooks) (ctx : EvmContext) (code : Bytes) (op : Op) :
    Act Fault Vm Flow :=
  match effectOp host hooks ctx op with
  | some m => m
  | none => do
    let t ← onVmDb (query id)
    onMachine (machineOp host (view t) ctx code op)

/-! ## The loop -/

def chargeOp (op : Op) : MachineM Unit :=
  match op with
  | .log _ => pure ()
  | op => consumeGas (gasCost op)

/-- `execute_bytecode`. Every instruction that does not halt costs gas, so one more
round than there is gas is enough. -/
def runLoop (host : Host) (view : Tables → Callbacks) (hooks : Hooks) (ctx : EvmContext) (code : Bytes) :
    Nat → Act Fault Vm Unit
  | 0 => Act.raise ""
  | fuel + 1 => do
    let m ← onMachine (Act.read id)
    match code[m.pc]? with
    | none => pure ()
    | some b => do
      onMachine (chargeOp (decode b))
      let flow ← execOp host view hooks ctx code (decode b)
      match flow with
      | .next => do
        onMachine (Act.write fun m => { m with pc := m.pc + 1 })
        runLoop host view hooks ctx code fuel
      | .jump dest => do
        onMachine (Act.write fun m => { m with pc := dest })
        runLoop host view hooks ctx code fuel
      | .halt => onMachine (Act.write fun m => { m with running := false })

def executeBytecode (host : Host) (view : Tables → Callbacks) (hooks : Hooks) (ctx : EvmContext) (gasLimit : Int)
    (storage : Storage) (code : Bytes) : Act Fault Db Machine := fun db =>
  match runLoop host view hooks ctx code (gasLimit.toNat + 1) { machine := Machine.start gasLimit storage, db := db } with
  | (.ok _, s) => (.ok s.machine, s.db)
  | (.error e, s) => (.error e, s.db)

end AbsoluteChain
