import AbsoluteChain.Evm
import AbsoluteChain.Tokenomics

/-!
# The EVM adapter

`execution/evm_adapter.py`: the hooks that tie the interpreter to the accounts
table, and the two entry points a transaction reaches. Every write below commits.
The module also holds the static bytecode check made before a deploy.
-/

namespace AbsoluteChain

open Python Actions

/-! ## Static check of the bytecode -/

def isSupportedOpcode (b : UInt8) : Bool :=
  let n := b.toNat
  (0x60 ≤ n && n ≤ 0x7f) || (0x80 ≤ n && n ≤ 0x8f) || (0x90 ≤ n && n ≤ 0x9f) ||
    n ∈ [0x00, 0x01, 0x02, 0x03, 0x04, 0x06, 0x10, 0x11, 0x12, 0x14, 0x15, 0x16, 0x17, 0x19, 0x1a, 0x1b, 0x1c, 0x20,
      0x30, 0x31, 0x32, 0x33, 0x34, 0x35, 0x36, 0x37, 0x38, 0x39, 0x3b, 0x3c, 0x3d, 0x3e, 0x40, 0xa0, 0xa1, 0xa2, 0xa3,
      0xa4, 0x50, 0x51, 0x52, 0x53, 0x54, 0x55, 0x56, 0x57, 0x5a, 0x5b, 0x5f, 0xf0, 0xf1, 0xf2, 0xf3, 0xf4, 0xf5, 0xfa,
      0xfd, 0xfe, 0xff]

def issueName (b : UInt8) : String :=
  "0x" ++ String.ofList ((rjust 2 '0' (hexChars b.toNat)).map Char.toUpper)

def scanBytecode : Nat → Bytes → List UInt8
  | _, [] => []
  | skip + 1, _ :: t => scanBytecode skip t
  | 0, b :: t =>
    let pushed := if 0x60 ≤ b.toNat ∧ b.toNat ≤ 0x7f then b.toNat - 0x5f else 0
    if isSupportedOpcode b then scanBytecode pushed t else b :: scanBytecode pushed t

def parseBytecode (raw : String) : Except String Bytes :=
  let s := stripChars raw.toList
  let s := match s with
    | '0' :: 'x' :: t => t
    | '0' :: 'X' :: t => t
    | s => s
  let s := s.filter fun c => c ≠ ' '
  if s.length % 2 = 1 then .error "invalid_hex_length"
  else
    match bytesFromHexChars s with
    | some bs => .ok bs
    | none => .error "non-hexadecimal number found in fromhex() arg"

def validateBytecodeHex (raw : String) : Except String Unit :=
  match parseBytecode raw with
  | .error e => .error e
  | .ok code =>
    if code = [] then .error "empty_bytecode"
    else
      match scanBytecode 0 code with
      | [] => .ok ()
      | b :: _ => .error (issueName b)

/-! ## Looking up accounts -/

structure EvmAdapter where
  host : Host
  config : Config
  now : Int

def isHexChar (c : Char) : Bool := ('0' ≤ c && c ≤ '9') || ('a' ≤ c && c ≤ 'f')

namespace EvmAdapter

variable (e : EvmAdapter)

def normalizeAddr (address : String) : String :=
  let raw := (e.host.lower (removeHexPrefixes address)).toList
  if raw.length ≤ 40 ∧ raw.all isHexChar then "0x" ++ String.ofList (rjust 40 '0' raw) else address

def codeOf (t : Tables) (address : String) : Option String :=
  match (t.getAccount address).bind Account.code with
  | some c => if c = "" then none else some c
  | none => none

def codeBytes (t : Tables) (address : String) : Bytes :=
  match codeOf t (e.normalizeAddr address) with
  | some c => (bytesFromHex (removeHexPrefixes c)).getD []
  | none => []

def storageOf (t : Tables) (address : String) : Storage := ((t.getAccount address).bind Account.storage).getD []

def blockHashWord (t : Tables) (height : Nat) : Except Fault Nat :=
  let current := t.getChainTip
  if current ≤ height ∨ (height : Int) < current - 256 then .ok 0
  else
    match t.getBlock height with
    | none => .ok 0
    | some b =>
      let raw := (removeHexPrefixes b.hash).toList
      let padded := raw ++ List.replicate (64 - raw.length) '0'
      match bytesFromHexChars (padded.take 64) with
      | some bs => .ok (natOfBytes bs)
      | none => .error { text := "non-hexadecimal number found in fromhex() arg" }

def callbacks (t : Tables) : Callbacks where
  balanceOf address := truncate (Binary64.round (t.getBalance address * 10 ^ 18))
  codeSizeOf address := (e.codeBytes t address).length
  codeCopyOf address offset size := slice (e.codeBytes t address) offset size
  blockHashOf := blockHashWord t

def makeContext (t : Tables) (caller contractAddr : String) (calldata : Bytes) (value : Int) : EvmContext where
  caller := caller
  origin := caller
  address := contractAddr
  calldata := calldata
  value := value
  blockNumber := t.getChainTip
  timestamp := match t.getLastBlock with
    | some last => last.timestamp
    | none => e.now
  chainId := e.config.chainId

/-! ## Hooks -/

/-- The quotient of two integers is the nearest double. -/
def weiToAbs (value : Int) : ℚ := Binary64.round (value / 10 ^ 18)

def gasOr (gas : Int) : Int := if gas = 0 then e.config.evmGasLimit else gas

def moveValue (source target : String) (value : ℚ) : Act Fault Db Unit :=
  Act.when (0 < value) do
    updateBalance source (-value)
    updateBalance target value

def selfDestructContract (contractAddr beneficiary : String) : Act Fault Db Unit := do
  let contractAddr := e.normalizeAddr contractAddr
  let beneficiary := e.normalizeAddr beneficiary
  let account ← query fun t => t.getAccount contractAddr
  let balance := (account.map Account.balance).getD 0
  Act.when (0 < balance) do
    updateBalance beneficiary balance
    updateBalance contractAddr (-balance)
  saveAccount contractAddr
    { balance := 0, nonce := (account.map Account.nonce).getD 0, code := some "", storage := some [] }

def persistLogs (contractAddr : String) (logs : List EvmLog) : Act Fault Db Unit := do
  let tip ← query Tables.getChainTip
  saveEvmLogs e.now contractAddr logs tip ""

def runEvm (hooks : Hooks) (code : Bytes) (storage : Storage) (gasLimit : Int) (caller contractAddr : String)
    (calldata : Bytes) (value : Int) : Act Fault Db Machine := do
  let ctx ← query fun t => e.makeContext t caller contractAddr calldata value
  executeBytecode e.host e.callbacks hooks ctx gasLimit storage code

def failedCall : CallOut := { success := false, reverted := true, returnData := [], gasUsed := 0, storage := none }

def contractCallHook (hooks : Hooks) (callerCtx : EvmContext) (a : CallArgs) : Act Fault Db CallOut := do
  let target := e.normalizeAddr a.target
  let code ← query fun t => codeOf t target
  match code.bind fun c => bytesFromHex (removeHexPrefixes c) with
  | none => pure failedCall
  | some bytecode => do
    let inCaller := a.delegate || a.callcode
    let execAddr := if inCaller then callerCtx.address else target
    let callValue := if a.delegate then 0 else a.value
    let caller := if a.delegate then callerCtx.caller else callerCtx.address
    let storage ← query fun t => storageOf t execAddr
    let m ← e.runEvm hooks bytecode storage (e.gasOr a.gas) caller execAddr a.calldata callValue
    let out : CallOut :=
      { success := !m.reverted, reverted := m.reverted, returnData := m.returnData, gasUsed := m.gasUsed,
        storage := some m.storage }
    if a.static then pure { out with storage := none }
    else if inCaller then do
      updateAccountStorage callerCtx.address m.storage
      Act.when (a.callcode ∧ ¬ m.reverted) (moveValue callerCtx.address target (weiToAbs callValue))
      e.persistLogs callerCtx.address m.logs
      pure out
    else if m.reverted then pure out
    else do
      updateAccountStorage target m.storage
      moveValue caller target (weiToAbs callValue)
      pure out

def createdAddress (seed : String) : String := "0x" ++ String.ofList ((hashData seed).toList.take 40)

def failedCreate (gasUsed : Int) : CreateOut := { success := false, reverted := true, gasUsed := gasUsed, address := "" }

def contractCreateHook (hooks : Hooks) (callerCtx : EvmContext) (initCode : Bytes) (value : Nat) (salt : Option Nat) :
    Act Fault Db CreateOut := do
  let deployer := orElse callerCtx.address callerCtx.caller
  if deployer = "" then pure (failedCreate 0)
  else do
    let seed := match salt with
      | some s => "create2:" ++ deployer ++ ":" ++ strInt s ++ ":" ++ hexOfBytes initCode
      | none => deployer ++ strInt callerCtx.blockNumber ++ strInt initCode.length
    let contractAddr := createdAddress seed
    let run : Act Fault Db (Option Machine) := do
      let m ← e.runEvm hooks initCode [] e.config.evmGasLimit deployer contractAddr [] value
      pure (some m)
    let result ← Act.attempt run fun _ => pure none
    match result with
    | none => pure (failedCreate 0)
    | some m =>
      if m.reverted then pure (failedCreate m.gasUsed)
      else do
        let code := if m.returnData = [] then hexOfBytes initCode else hexOfBytes m.returnData
        saveAccount contractAddr
          { balance := weiToAbs value, nonce := 0, code := some code, storage := some m.storage }
        moveValue deployer contractAddr (weiToAbs value)
        pure { success := true, reverted := false, gasUsed := m.gasUsed, address := contractAddr }

/-- The hooks of an interpreter that may nest `depth` deeper before Python's own stack is used up. -/
def hooks : Nat → Hooks
  | 0 =>
    { call := fun _ _ => Act.raise "maximum recursion depth exceeded"
      create := fun _ _ _ _ => Act.raise "maximum recursion depth exceeded"
      selfDestruct := fun _ _ => Act.raise "maximum recursion depth exceeded" }
  | depth + 1 =>
    { call := e.contractCallHook (hooks depth)
      create := e.contractCreateHook (hooks depth)
      selfDestruct := fun ctx beneficiary => e.selfDestructContract ctx.address beneficiary }

/-! ## Entry points -/

inductive ReturnValue where
  | none
  | word (w : Nat)
  | address (a : String)
  deriving DecidableEq

structure EvmResult where
  success : Bool
  returnValue : ReturnValue := .none
  gasUsed : Int := 0
  error : String := ""
  logs : List EvmLog := []
  storageChanges : Storage := []

def weiOf (value : ℚ) : Int := truncate (value * 10 ^ 18)

def tryRunEvm (code : Bytes) (storage : Storage) (gasLimit : Int) (caller contractAddr : String) (calldata : Bytes)
    (value : ℚ) : Act Fault Db (Except String Machine) :=
  Act.attempt
    (do
      let m ← e.runEvm (e.hooks e.host.recursionLimit) code storage gasLimit caller contractAddr calldata (weiOf value)
      pure (.ok m))
    fun err => pure (.error err.text)

/-- `deploy_contract`. The saved account already holds `value`; `moveValue` adds it a second time. -/
def deployContract (deployer bytecodeHex : String) (value : ℚ) (gasLimit : Int) (salt : String) : Act Fault Db EvmResult := do
  match bytesFromHex (removeHexPrefixes bytecodeHex) with
  | none => pure { success := false, error := "invalid_bytecode: non-hexadecimal number found in fromhex() arg" }
  | some code =>
    if code = [] then pure { success := false, error := "empty_bytecode" }
    else
      match validateBytecodeHex bytecodeHex with
      | .error detail => pure { success := false, error := "bytecode_invalid:" ++ detail }
      | .ok _ => do
        let contractAddr := createdAddress (deployer ++ salt)
        let result ← e.tryRunEvm code [] (e.gasOr gasLimit) deployer contractAddr [] value
        match result with
        | .error err => pure { success := false, error := err }
        | .ok m =>
          if m.reverted then pure { success := false, error := "constructor_reverted", gasUsed := m.gasUsed }
          else do
            saveAccount contractAddr
              { balance := value, nonce := 0, code := some bytecodeHex, storage := some m.storage }
            e.persistLogs contractAddr m.logs
            moveValue deployer contractAddr value
            pure { success := true, returnValue := .address contractAddr, gasUsed := m.gasUsed,
                   storageChanges := m.storage, logs := m.logs }

def returnValueOf (m : Machine) : ReturnValue :=
  if m.returnData = [] then
    match m.stack with
    | [] => .none
    | v :: _ => .word v
  else .word (natOfBytes (padRight (m.returnData.take 32) 32))

def callContract (caller contractAddr calldataHex : String) (value : ℚ) (gasLimit : Int) : Act Fault Db EvmResult := do
  let code ← query fun t => codeOf t contractAddr
  match code with
  | none => pure { success := false, error := "not_a_contract" }
  | some codeHex =>
    match bytesFromHex (removeHexPrefixes codeHex) with
    | none => pure { success := false, error := "invalid_stored_bytecode: non-hexadecimal number found in fromhex() arg" }
    | some code => do
      let storage ← query fun t => storageOf t contractAddr
      let calldata := (bytesFromHex (removeHexPrefixes calldataHex)).getD []
      let result ← e.tryRunEvm code storage (e.gasOr gasLimit) caller contractAddr calldata value
      match result with
      | .error err => pure { success := false, error := err }
      | .ok m =>
        if m.reverted then pure { success := false, error := "execution_reverted", gasUsed := m.gasUsed }
        else do
          updateAccountStorage contractAddr m.storage
          e.persistLogs contractAddr m.logs
          moveValue caller contractAddr value
          pure { success := true, returnValue := returnValueOf m, gasUsed := m.gasUsed, storageChanges := m.storage,
                 logs := m.logs }

/-- `static_call`: nothing is saved here, but the hooks below are those of any other call. -/
def staticCall (contractAddr calldataHex : String) (gasLimit : Int) : Act Fault Db EvmResult := do
  let code ← query fun t => codeOf t contractAddr
  match code with
  | none => pure { success := false, error := "not_a_contract" }
  | some codeHex =>
    match bytesFromHex (removeHexPrefixes codeHex) with
    | none => pure { success := false, error := "invalid_bytecode: non-hexadecimal number found in fromhex() arg" }
    | some code => do
      let storage ← query fun t => storageOf t contractAddr
      let calldata := (bytesFromHex (removeHexPrefixes calldataHex)).getD []
      let result ← e.tryRunEvm code storage (e.gasOr gasLimit) "" contractAddr calldata 0
      match result with
      | .error err => pure { success := false, error := err }
      | .ok m => pure { success := !m.reverted, returnValue := returnValueOf m, gasUsed := m.gasUsed }

def estimateGas (contractAddr calldataHex : String) : Act Fault Db Int := do
  let result ← e.staticCall contractAddr calldataHex e.config.evmGasLimit
  pure (if result.success then truncate (result.gasUsed * (12 / 10)) else e.config.evmGasLimit)

end EvmAdapter

end AbsoluteChain
