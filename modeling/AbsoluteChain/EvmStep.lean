import AbsoluteChain.EvmSpec
import AbsoluteChain.HexText
import AbsoluteChain.Instructions

/-!
# One round of the interpreter

What a round does once the words that it takes are in their places: it faults, stops, goes
on with another stack, storage and counter, or hands words to the memory, the log or a hook.
`handed` says which, in the order in which each branch of `execute_bytecode` pops its
operands, and `round_shows` that the round does just that.
-/

namespace AbsoluteChain

open Python Actions Act
open EvmSpec (Word Address Effect Request Source CallKind addressOf)

/-! ## Rounds -/

/-- Where the loop is after an instruction, and whether it goes on. -/
def settle (flow : Flow) : Act Fault Vm Bool := fun s =>
  match flow with
  | .next => (.ok true, s.goto (s.machine.pc + 1))
  | .jump dest => (.ok true, s.goto dest)
  | .halt => (.ok false, { s with machine := { s.machine with running := false } })

section round
variable (host : Host) (view : Tables → Callbacks) (hooks : Hooks) (ctx : EvmContext) (code : Bytes)

def round (op : Op) : Act Fault Vm Bool := do
  onMachine (chargeOp op)
  let flow ← execOp host view hooks ctx code op
  settle flow

def afterRound (fuel : Nat) : Except Fault Bool × Vm → Except Fault Unit × Vm
  | (.error f, s) => (.error f, s)
  | (.ok true, s) => runLoop host view hooks ctx code fuel s
  | (.ok false, s) => (.ok (), s)

variable {host view hooks ctx code}

theorem runLoop_round {s : Vm} {b : UInt8} (hb : code[s.machine.pc]? = some b) (fuel : Nat) :
    runLoop host view hooks ctx code (fuel + 1) s =
      afterRound host view hooks ctx code fuel (round host view hooks ctx code (decode b) s) := by
  rw [runLoop_succ, hb]
  simp only [round, bind_run]
  rcases onMachine (chargeOp (decode b)) s with ⟨f | u, s₁⟩
  · rfl
  · dsimp only
    rcases execOp host view hooks ctx code (decode b) s₁ with ⟨f | flow, s₂⟩
    · rfl
    · cases flow <;> rfl

end round

/-! ## What the code hands on -/

def Machine.holding (m : Machine) (ws : List Word) : Machine := { m with stack := ws.map BitVec.toNat }

def slots (storage : Storage) (key : Word) : Word := BitVec.ofNat 256 ((storage.get? key.toNat).getD 0)

section handed
variable (host : Host) (ctx : EvmContext) (code : Bytes) (m : Machine)

def goOn (v : Int) (rest : List Word) : Effect := .next (BitVec.ofInt 256 v :: rest) (slots m.storage) (m.pc + 1)

def jumps (dest : Word) (rest : List Word) : Effect :=
  if isJumpDest code dest.toNat then .next rest (slots m.storage) dest.toNat else .fault

/-- The operands in the order in which they are popped, and where each of them goes. -/
def handed : Op → List Word → Effect
  | .stop, r => .stop r
  | .push n, r =>
    .next (BitVec.ofInt 256 (natOfBytes (padRight (slice code (m.pc + 1) n) n)) :: r) (slots m.storage) (m.pc + n + 1)
  | .add, a :: b :: r => goOn m (a.toNat + b.toNat) r
  | .mul, a :: b :: r => goOn m (a.toNat * b.toNat) r
  | .sub, a :: b :: r => goOn m (a.toNat - b.toNat) r
  | .div, a :: b :: r => goOn m (if b.toNat = 0 then 0 else (a.toNat / b.toNat : Nat)) r
  | .mod, a :: b :: r => goOn m (if b.toNat = 0 then 0 else (a.toNat % b.toNat : Nat)) r
  | .and, a :: b :: r => goOn m (a.toNat &&& b.toNat : Nat) r
  | .or, a :: b :: r => goOn m (a.toNat ||| b.toNat : Nat) r
  | .xor, a :: b :: r => goOn m (a.toNat ^^^ b.toNat : Nat) r
  | .eq, a :: b :: r => goOn m (if a.toNat = b.toNat then 1 else 0) r
  | .lt, a :: b :: r => goOn m (if a.toNat < b.toNat then 1 else 0) r
  | .gt, a :: b :: r => goOn m (if b.toNat < a.toNat then 1 else 0) r
  | .isZero, a :: r => goOn m (if a.toNat = 0 then 1 else 0) r
  | .not, a :: r => goOn m (wordModulus - 1 - a.toNat : Nat) r
  | .byte, i :: x :: r => goOn m (if 32 ≤ i.toNat then 0 else (x.toNat / 2 ^ (8 * (31 - i.toNat)) % 256 : Nat)) r
  | .shl, shift :: v :: r =>
    if v.toNat ≠ 0 ∧ 8 * host.memoryLimit < shift.toNat then .fault
    else goOn m (if 256 ≤ shift.toNat then 0 else (v.toNat * 2 ^ shift.toNat : Nat)) r
  | .shr, shift :: v :: r => goOn m (if 256 ≤ shift.toNat then 0 else (v.toNat / 2 ^ shift.toNat : Nat)) r
  | .sha3, offset :: size :: r => .ask (.hash offset size) r
  | .address, r => goOn m (addrInt host ctx.address) r
  | .balance, who :: r => .ask (.balance (addressOf who)) r
  | .origin, r => goOn m (addrInt host ctx.origin) r
  | .caller, r => goOn m (addrInt host ctx.caller) r
  | .callValue, r => goOn m ctx.value r
  | .callDataLoad, i :: r => goOn m (natOfBytes (padRight (slice ctx.calldata i.toNat 32) 32)) r
  | .callDataSize, r => goOn m ctx.calldata.length r
  | .callDataCopy, dest :: offset :: size :: r => .ask (.copy .callData dest offset size) r
  | .codeSize, r => goOn m code.length r
  | .codeCopy, dest :: offset :: size :: r => .ask (.copy .code dest offset size) r
  | .returnDataSize, r => goOn m m.returnData.length r
  | .returnDataCopy, dest :: offset :: size :: r => .ask (.copy .returnData dest offset size) r
  | .extCodeSize, who :: r => .ask (.codeSize (addressOf who)) r
  | .extCodeCopy, codeOffset :: memOffset :: size :: who :: r =>
    .ask (.copy (.account (addressOf who)) memOffset codeOffset size) r
  | .log n, ws =>
    match ws.drop n with
    | size :: offset :: r => .ask (.log (ws.take n).reverse offset size) r
    | _ => .fault
  | .blockHash, height :: r => .ask (.blockHash height) r
  | .timestamp, r => goOn m ctx.timestamp r
  | .number, r => goOn m ctx.blockNumber r
  | .gasLimit, r => goOn m m.gasLimit r
  | .chainId, r => goOn m ctx.chainId r
  | .pop, _ :: r => .next r (slots m.storage) (m.pc + 1)
  | .mload, offset :: r => .ask (.load offset) r
  | .mstore, offset :: value :: r => .ask (.store offset value) r
  | .mstore8, offset :: value :: r => .ask (.storeByte offset (value.setWidth 8)) r
  | .sload, key :: r => goOn m ((m.storage.get? key.toNat).getD 0) r
  | .sstore, key :: value :: r => .next r (slots (storeSlot m.storage key.toNat value.toNat)) (m.pc + 1)
  | .jump, dest :: r => jumps code m dest r
  | .jumpi, dest :: cond :: r => if cond.toNat ≠ 0 then jumps code m dest r else .next r (slots m.storage) (m.pc + 1)
  | .gas, r => goOn m (remainingGas m) r
  | .jumpDest, r => .next r (slots m.storage) (m.pc + 1)
  | .push0, r => goOn m 0 r
  | .dup n, r =>
    match r[n - 1]? with
    | some v => goOn m v.toNat r
    | none => .fault
  | .swap n, r =>
    match r[0]?, r[n]? with
    | some a, some b => .next ((r.set 0 b).set n a) (slots m.storage) (m.pc + 1)
    | _, _ => .fault
  | .create, size :: offset :: value :: r => .ask (.create value offset size none) r
  | .create2, salt :: size :: offset :: value :: r => .ask (.create value offset size (some salt)) r
  | .callCode, gas :: callee :: value :: argsOffset :: argsSize :: retOffset :: retSize :: r =>
    .ask (.call .callCode gas (addressOf callee) value argsOffset argsSize retOffset retSize) r
  | .call, gas :: callee :: value :: argsOffset :: argsSize :: retOffset :: retSize :: r =>
    .ask (.call .call gas (addressOf callee) value argsOffset argsSize retOffset retSize) r
  | .delegateCall, gas :: callee :: argsOffset :: argsSize :: retOffset :: retSize :: r =>
    .ask (.call .delegateCall gas (addressOf callee) 0 argsOffset argsSize retOffset retSize) r
  | .staticCall, gas :: callee :: argsOffset :: argsSize :: retOffset :: retSize :: r =>
    .ask (.call .staticCall gas (addressOf callee) 0 argsOffset argsSize retOffset retSize) r
  | .return, offset :: size :: r => .ask (.return offset size) r
  | .revert, offset :: size :: r => .ask (.revert offset size) r
  | .selfDestruct, beneficiary :: r => .ask (.selfDestruct (addressOf beneficiary)) r
  | _, _ => .fault

theorem handed_log (n : Nat) (ws : List Word) : handed host ctx code m (.log n) ws =
    match ws.drop n with
    | size :: offset :: r => .ask (.log (ws.take n).reverse offset size) r
    | _ => .fault := rfl

theorem handed_dup (n : Nat) (ws : List Word) : handed host ctx code m (.dup n) ws =
    match ws[n - 1]? with
    | some v => goOn m v.toNat ws
    | none => .fault := rfl

theorem handed_swap (n : Nat) (ws : List Word) : handed host ctx code m (.swap n) ws =
    match ws[0]?, ws[n]? with
    | some a, some b => .next ((ws.set 0 b).set n a) (slots m.storage) (m.pc + 1)
    | _, _ => .fault := rfl

end handed

/-! ## What is done with it -/

def addressText (who : Address) : String := wordToAddr who.toNat

section answer
variable (host : Host) (cb : Callbacks) (ctx : EvmContext) (code : Bytes)

def copyFrom (source : Bytes) (dest offset size : Word) : MachineM Flow := do
  memExtend host dest.toNat size.toNat
  memAssign dest.toNat size.toNat (slice source offset.toNat size.toNat)
  pure .next

def endWith (offset size : Word) (reverted : Bool) : MachineM Flow := do
  let data ← memSlice host offset.toNat size.toNat
  Act.write fun m => { m with returnData := data, reverted := reverted }
  pure .halt

def answerOnMachine : Request → MachineM Flow
  | .hash offset size => do
    let data ← memSlice host offset.toNat size.toNat
    pushFlow (Digest.sha3_256 data)
  | .balance who => pushFlow (cb.balanceOf (addressText who))
  | .codeSize who => pushFlow (cb.codeSizeOf (addressText who))
  | .blockHash height =>
    match cb.blockHashOf height.toNat with
    | .ok h => pushFlow h
    | .error e => Act.raise e
  | .load offset => do
    let word ← memSlice host offset.toNat 32
    pushFlow (natOfBytes word)
  | .store offset value => do
    memExtend host offset.toNat 32
    memAssign offset.toNat 32 (bytesOfNat 32 value.toNat)
    pure .next
  | .storeByte offset value => do
    memExtend host offset.toNat 1
    memAssign offset.toNat 1 [UInt8.ofNat value.toNat]
    pure .next
  | .copy (.account who) dest offset size => do
    let chunk := cb.codeCopyOf (addressText who) offset.toNat size.toNat
    memExtend host dest.toNat chunk.length
    memAssign dest.toNat chunk.length chunk
    pure .next
  | .copy .callData dest offset size => copyFrom host ctx.calldata dest offset size
  | .copy .code dest offset size => copyFrom host code dest offset size
  | .copy .returnData dest offset size => do
    let m ← Act.read id
    copyFrom host m.returnData dest offset size
  | .log topics offset size => do
    consumeGas (375 + topics.length * 375 + size.toNat)
    let data ← memSlice host offset.toNat size.toNat
    Act.write fun m => { m with logs := m.logs ++ [{ topics := topics.map BitVec.toNat, data := data }] }
    pure .next
  | .return offset size => endWith host offset size false
  | .revert offset size => endWith host offset size true
  | .call .. | .create .. | .selfDestruct .. => Act.raise ""

end answer

def modeOf : CallKind → CallMode
  | .callCode => { withValue := true, delegate := false, static := false, callcode := true }
  | .call => { withValue := true, delegate := false, static := false, callcode := false }
  | .delegateCall => { withValue := false, delegate := true, static := false, callcode := false }
  | .staticCall => { withValue := false, delegate := false, static := true, callcode := false }

section answer
variable (host : Host) (view : Tables → Callbacks) (hooks : Hooks) (ctx : EvmContext) (code : Bytes)

def answerCall (mode : CallMode) (a : CallOperands) : Act Fault Vm Flow := do
  let p ← onMachine do
    let data ← memSlice host a.argsOffset a.argsSize
    let gas ← Act.read fun m => callGas m a mode.delegate mode.static
    pure ({ target := wordToAddr a.toWord, calldata := data, value := a.value, gas, delegate := mode.delegate,
            static := mode.static, callcode := mode.callcode } : CallArgs)
  let out ← onVmDb (hooks.call ctx p)
  onMachine (finishCall host a p.gas (mode.delegate || mode.callcode) out)

def answerCreate (value offset size : Word) (salt : Option Word) : Act Fault Vm Flow := do
  let initCode ← onMachine (memSlice host offset.toNat size.toNat)
  let out ← onVmDb (hooks.create ctx initCode value.toNat (salt.map BitVec.toNat))
  onMachine do
    chargeSubcallGas out.gasUsed
    pushFlow (if ¬ out.success ∨ out.reverted ∨ out.address = "" then 0 else addrInt host out.address)

def answer : Request → Act Fault Vm Flow
  | .call kind gas callee value argsOffset argsSize retOffset retSize =>
    answerCall host hooks ctx (modeOf kind)
      { gas := gas.toNat, toWord := callee.toNat, value := value.toNat, argsOffset := argsOffset.toNat
        argsSize := argsSize.toNat, retOffset := retOffset.toNat, retSize := retSize.toNat }
  | .create value offset size salt => answerCreate host hooks ctx value offset size salt
  | .selfDestruct who => do
    onVmDb (hooks.selfDestruct ctx (addressText who))
    pure .halt
  | request => do
    let t ← onVmDb (query id)
    onMachine (answerOnMachine host (view t) ctx code request)

def Shows (s : Vm) : Effect → Except Fault Bool × Vm → Prop
  | .fault, r => ∃ f s', r = (.error f, s')
  | .stop stack, r => r = (.ok false, { s with machine := { s.machine.holding stack with running := false } })
  | .next stack storage pc, r =>
    ∃ st, slots st = storage ∧ r = (.ok true, { s with machine := { s.machine.holding stack with storage := st, pc := pc } })
  | .ask request stack, r =>
    r = (answer host view hooks ctx code request >>= settle) { s with machine := s.machine.holding stack }

end answer

/-! ## A round does what it hands on -/

theorem push_holding (m : Machine) (ws : List Word) (v : Int) :
    push v (m.holding ws) = (.ok (), m.holding (BitVec.ofInt 256 v :: ws)) := by
  have hword : (BitVec.ofInt 256 v).toNat = (v % wordModulus).toNat := BitVec.toNat_ofInt v
  unfold Machine.holding
  rw [List.map_cons, hword]
  rfl

theorem pushFlow_holding (m : Machine) (ws : List Word) (v : Int) :
    pushFlow v (m.holding ws) = (.ok .next, m.holding (BitVec.ofInt 256 v :: ws)) := by
  unfold pushFlow
  rw [bind_of_ok (push_holding m ws v)]
  rfl

theorem binary_holding (f : Nat → Nat → Int) (m : Machine) (a b : Word) (ws : List Word) :
    binary f (m.holding (a :: b :: ws)) = (.ok .next, m.holding (BitVec.ofInt 256 (f a.toNat b.toNat) :: ws)) :=
  pushFlow_holding m ws _

theorem popTopics_holding (m : Machine) (n : Nat) (ws : List Word) (h : n ≤ ws.length) :
    popTopics n (m.holding ws) = (.ok ((ws.take n).map BitVec.toNat), m.holding (ws.drop n)) := by
  induction n generalizing ws with
  | zero => rfl
  | succ n ih =>
    cases ws with
    | nil => cases h
    | cons w ws =>
      have hrest := ih ws (Nat.le_of_succ_le_succ h)
      change (popTopics n >>= fun ts => pure (w.toNat :: ts)) (m.holding ws) = _
      rw [bind_of_ok hrest]
      rfl

theorem memCopy_holding (host : Host) (source : Bytes) (m : Machine) (dest offset size : Word) (ws : List Word) :
    (memCopy host source >>= fun _ => pure Flow.next) (m.holding (dest :: offset :: size :: ws)) =
      copyFrom host source dest offset size (m.holding ws) := by
  have hrun : memCopy host source (m.holding (dest :: offset :: size :: ws)) =
      (memExtend host dest.toNat size.toNat >>= fun _ =>
        memAssign dest.toNat size.toNat (slice source offset.toNat size.toNat)) (m.holding ws) := rfl
  unfold copyFrom
  rw [bind_run, hrun, bind_run, bind_run]
  rcases memExtend host dest.toNat size.toNat (m.holding ws) with ⟨f | u, m'⟩ <;> rfl

theorem popTopics_short (m : Machine) (n : Nat) (ws : List Word) (h : ws.length < n) :
    ∃ f m', popTopics n (m.holding ws) = (.error f, m') := by
  induction n generalizing ws with
  | zero => cases h
  | succ n ih =>
    cases ws with
    | nil => exact ⟨_, _, rfl⟩
    | cons w ws =>
      obtain ⟨f, m', hrest⟩ := ih ws (Nat.lt_of_succ_lt_succ h)
      refine ⟨f, m', ?_⟩
      change (popTopics n >>= fun ts => pure (w.toNat :: ts)) (m.holding ws) = _
      rw [bind_run, hrest]

def emit (host : Host) (n : Nat) (topics : List Nat) (size offset : Nat) : MachineM Flow := do
  consumeGas (375 + n * 375 + size)
  let data ← memSlice host offset size
  Act.write fun m => { m with logs := m.logs ++ [{ topics := topics.reverse, data := data }] }
  pure .next

theorem lastDigits_eq (w : Nat) :
    "0x" ++ String.ofList ((rjust 40 '0' (hexChars w)).drop ((rjust 40 '0' (hexChars w)).length - 40)) = wordToAddr w := by
  have hpow : 2 ^ 160 = 16 ^ 40 := by norm_num
  have hlt : w % 16 ^ 40 < 16 ^ 40 := Nat.mod_lt _ (by norm_num)
  have hdigits : lastHexDigits 40 w = rjust 40 '0' (hexChars (w % 16 ^ 40)) := by
    rw [← lastHexDigits_of_lt (by omega) hlt, lastHexDigits_mod]
  unfold wordToAddr
  rw [hpow, ← hdigits]
  rfl

theorem wordToAddr_addressOf (w : Word) : addressText (addressOf w) = wordToAddr w.toNat := by
  unfold addressText addressOf wordToAddr
  rw [BitVec.toNat_setWidth, Nat.mod_mod]

section shows
variable {host : Host} {view : Tables → Callbacks} {hooks : Hooks} {ctx : EvmContext} {code : Bytes} {m : Machine}
  {s : Vm} {op : Op} {ws rest : List Word}

theorem execOp_machine (hop : effectOp host hooks ctx op = none) :
    execOp host view hooks ctx code op s = onMachine (machineOp host (view s.db.live) ctx code op) s := by
  unfold execOp
  rw [hop]
  rfl

/-- An instruction that only pushes a value. -/
theorem shows_goOn (hop : effectOp host hooks ctx op = none) {v : Int}
    (h : machineOp host (view s.db.live) ctx code op (s.machine.holding ws) =
      (.ok .next, s.machine.holding (BitVec.ofInt 256 v :: rest))) :
    Shows host view hooks ctx code s (goOn s.machine v rest)
      ((execOp host view hooks ctx code op >>= settle) { s with machine := s.machine.holding ws }) := by
  rw [bind_run, execOp_machine hop, onMachine_run, h]
  exact ⟨s.machine.storage, rfl, rfl⟩

theorem shows_ask (hop : effectOp host hooks ctx op = none) {request : Request}
    (hrequest : answer host view hooks ctx code request { s with machine := s.machine.holding rest } =
      onMachine (answerOnMachine host (view s.db.live) ctx code request) { s with machine := s.machine.holding rest })
    (h : machineOp host (view s.db.live) ctx code op (s.machine.holding ws) =
      answerOnMachine host (view s.db.live) ctx code request (s.machine.holding rest)) :
    Shows host view hooks ctx code s (.ask request rest)
      ((execOp host view hooks ctx code op >>= settle) { s with machine := s.machine.holding ws }) := by
  change _ = _
  rw [bind_run, bind_run, execOp_machine hop, hrequest, onMachine_run, onMachine_run, h]

theorem shows_jumps (hop : effectOp host hooks ctx op = none) {dest : Word}
    (h : machineOp host (view s.db.live) ctx code op (s.machine.holding ws) =
      jumpTo code dest.toNat (s.machine.holding rest)) :
    Shows host view hooks ctx code s (jumps code s.machine dest rest)
      ((execOp host view hooks ctx code op >>= settle) { s with machine := s.machine.holding ws }) := by
  rw [bind_run, execOp_machine hop, onMachine_run, h]
  unfold jumps jumpTo
  by_cases hdest : isJumpDest code dest.toNat = true
  · rw [if_pos hdest, if_pos hdest]
    exact ⟨s.machine.storage, rfl, rfl⟩
  · rw [if_neg hdest, if_neg hdest]
    exact ⟨_, _, rfl⟩

theorem executeCall_popped {mode : CallMode} {a : CallOperands} {m m' : Machine}
    (hpop : popCall mode.withValue m = (.ok a, m')) :
    executeCall host hooks ctx mode { s with machine := m } = answerCall host hooks ctx mode a { s with machine := m' } := by
  have hprepare : prepareCall host mode m =
      (match memSlice host a.argsOffset a.argsSize m' with
        | (.ok data, m₁) => (.ok (a, { target := wordToAddr a.toWord, calldata := data, value := a.value
                                       gas := callGas m₁ a mode.delegate mode.static, delegate := mode.delegate
                                       static := mode.static, callcode := mode.callcode }), m₁)
        | (.error f, m₁) => (.error f, m₁)) := by
    unfold prepareCall
    rw [bind_of_ok hpop, bind_run]
    rcases memSlice host a.argsOffset a.argsSize m' with ⟨f | data, m₁⟩ <;> rfl
  unfold executeCall answerCall
  rw [bind_run, onMachine_run, hprepare, bind_run, onMachine_run, bind_run]
  rcases memSlice host a.argsOffset a.argsSize m' with ⟨f | data, m₁⟩ <;> rfl

theorem answerCall_address (mode : CallMode) (a : CallOperands) (callee : Word) :
    answerCall host hooks ctx mode { a with toWord := (addressOf callee).toNat } =
      answerCall host hooks ctx mode { a with toWord := callee.toNat } := by
  have htarget : wordToAddr (addressOf callee).toNat = wordToAddr callee.toNat := wordToAddr_addressOf callee
  unfold answerCall
  rw [htarget]
  rfl

theorem shows_effect {act : Act Fault Vm Flow} (hop : effectOp host hooks ctx op = some act) {request : Request}
    (h : act { s with machine := s.machine.holding ws } =
      answer host view hooks ctx code request { s with machine := s.machine.holding rest }) :
    Shows host view hooks ctx code s (.ask request rest)
      ((execOp host view hooks ctx code op >>= settle) { s with machine := s.machine.holding ws }) := by
  have hexec : execOp host view hooks ctx code op = act := by
    unfold execOp
    rw [hop]
  change _ = _
  rw [hexec, bind_run, bind_run, h]

theorem shows_call (kind : CallKind) (hop : effectOp host hooks ctx op = some (executeCall host hooks ctx (modeOf kind)))
    {gas callee value argsOffset argsSize retOffset retSize : Word}
    (hpop : popCall (modeOf kind).withValue (s.machine.holding ws) =
      (.ok { gas := gas.toNat, toWord := callee.toNat, value := value.toNat, argsOffset := argsOffset.toNat
             argsSize := argsSize.toNat, retOffset := retOffset.toNat, retSize := retSize.toNat },
        s.machine.holding rest)) :
    Shows host view hooks ctx code s
      (.ask (.call kind gas (addressOf callee) value argsOffset argsSize retOffset retSize) rest)
      ((execOp host view hooks ctx code op >>= settle) { s with machine := s.machine.holding ws }) := by
  apply shows_effect hop
  rw [executeCall_popped hpop]
  exact congrFun (answerCall_address (modeOf kind)
    { gas := gas.toNat, toWord := 0, value := value.toNat, argsOffset := argsOffset.toNat
      argsSize := argsSize.toNat, retOffset := retOffset.toNat, retSize := retSize.toNat } callee).symm _

theorem executeCreate_popped {salted : Bool} {value offset size : Word} {salt : Option Word} {m m' : Machine}
    (hpop : prepareCreate host salted m = (memSlice host offset.toNat size.toNat >>= fun initCode =>
      pure { initCode, value := value.toNat, salt := salt.map BitVec.toNat }) m') :
    executeCreate host hooks ctx salted { s with machine := m } =
      answerCreate host hooks ctx value offset size salt { s with machine := m' } := by
  unfold executeCreate answerCreate
  rw [bind_run, onMachine_run, hpop, bind_run, bind_run, onMachine_run]
  rcases memSlice host offset.toNat size.toNat m' with ⟨f | data, m₁⟩ <;> rfl

theorem execOp_shows_log (n : Nat) (ws : List Word) (s : Vm) :
    Shows host view hooks ctx code s (handed host ctx code s.machine (.log n) ws)
      ((execOp host view hooks ctx code (.log n) >>= settle) { s with machine := s.machine.holding ws }) := by
  have hrun : machineOp host (view s.db.live) ctx code (.log n) (s.machine.holding ws) =
      (popTopics n >>= fun topics => pop >>= fun size => pop >>= fun offset => emit host n topics size offset)
        (s.machine.holding ws) := rfl
  have hfault : ∀ {f : Fault} {m' : Machine}, machineOp host (view s.db.live) ctx code (.log n) (s.machine.holding ws) =
      (.error f, m') → Shows host view hooks ctx code s .fault
        ((execOp host view hooks ctx code (.log n) >>= settle) { s with machine := s.machine.holding ws }) := by
    intro f m' h
    rw [bind_run, execOp_machine rfl, onMachine_run, h]
    exact ⟨_, _, rfl⟩
  rw [handed_log]
  by_cases hn : n ≤ ws.length
  · rw [bind_of_ok (popTopics_holding s.machine n ws hn)] at hrun
    rcases hrest : ws.drop n with _ | ⟨size, _ | ⟨offset, r⟩⟩
    · rw [hrest] at hrun
      exact hfault hrun
    · rw [hrest] at hrun
      exact hfault hrun
    · rw [hrest] at hrun
      refine shows_ask rfl rfl (hrun.trans ?_)
      have htopics : ((ws.take n).reverse.map BitVec.toNat) = ((ws.take n).map BitVec.toNat).reverse :=
        List.map_reverse
      have hcount : (ws.take n).reverse.length = n := by
        rw [List.length_reverse, List.length_take, Nat.min_eq_left hn]
      unfold answerOnMachine
      dsimp only
      rw [htopics, hcount]
      rfl
  · have hrest : ws.drop n = [] := List.drop_eq_nil_of_le (not_le.mp hn).le
    obtain ⟨f, m', hshort⟩ := popTopics_short s.machine n ws (not_le.mp hn)
    rw [hrest]
    rw [bind_run, hshort] at hrun
    exact hfault hrun

theorem machineOp_dup (cb : Callbacks) (n : Nat) (ws : List Word) (m : Machine) :
    machineOp host cb ctx code (.dup n) (m.holding ws) =
      (match (ws.map BitVec.toNat)[n - 1]? with
        | some v => pushFlow v
        | none => Act.raise "stack underflow") (m.holding ws) := rfl

theorem machineOp_swap (cb : Callbacks) (n : Nat) (ws : List Word) (m : Machine) :
    machineOp host cb ctx code (.swap n) (m.holding ws) =
      (match (ws.map BitVec.toNat)[0]?, (ws.map BitVec.toNat)[n]? with
        | some a, some b =>
          Act.write (fun m : Machine => { m with stack := (m.stack.set 0 b).set n a }) >>= fun _ => pure Flow.next
        | _, _ => (Act.raise "stack underflow" : MachineM Flow)) (m.holding ws) := rfl

theorem execOp_shows_push (n : Nat) (ws : List Word) (s : Vm) :
    Shows host view hooks ctx code s (handed host ctx code s.machine (.push n) ws)
      ((execOp host view hooks ctx code (.push n) >>= settle) { s with machine := s.machine.holding ws }) := by
  have hpush := push_holding s.machine ws (natOfBytes (padRight (slice code (s.machine.pc + 1) n) n))
  refine ⟨s.machine.storage, rfl, ?_⟩
  have hrun : machineOp host (view s.db.live) ctx code (.push n) (s.machine.holding ws) =
      (push (natOfBytes (padRight (slice code (s.machine.pc + 1) n) n)) >>= fun _ =>
        Act.write (fun m => { m with pc := m.pc + n }) >>= fun _ => pure .next) (s.machine.holding ws) := rfl
  rw [bind_run, execOp_machine rfl, onMachine_run, hrun, bind_of_ok hpush]
  rfl

theorem execOp_shows_shl (ws : List Word) (s : Vm) :
    Shows host view hooks ctx code s (handed host ctx code s.machine .shl ws)
      ((execOp host view hooks ctx code .shl >>= settle) { s with machine := s.machine.holding ws }) := by
  rcases ws with _ | ⟨shift, _ | ⟨v, r⟩⟩
  · exact ⟨_, _, rfl⟩
  · exact ⟨_, _, rfl⟩
  · have hrun : machineOp host (view s.db.live) ctx code .shl (s.machine.holding (shift :: v :: r)) =
        (if v.toNat ≠ 0 ∧ 8 * host.memoryLimit < shift.toNat then (Act.raise "" : MachineM Flow)
          else pushFlow (if 256 ≤ shift.toNat then 0 else (v.toNat * 2 ^ shift.toNat : Nat))) (s.machine.holding r) := rfl
    change Shows host view hooks ctx code s
      (if v.toNat ≠ 0 ∧ 8 * host.memoryLimit < shift.toNat then .fault
        else goOn s.machine (if 256 ≤ shift.toNat then 0 else (v.toNat * 2 ^ shift.toNat : Nat)) r) _
    by_cases hbig : v.toNat ≠ 0 ∧ 8 * host.memoryLimit < shift.toNat
    · rw [if_pos hbig] at hrun
      rw [if_pos hbig, bind_run, execOp_machine rfl, onMachine_run, hrun]
      exact ⟨_, _, rfl⟩
    · rw [if_neg hbig, pushFlow_holding] at hrun
      rw [if_neg hbig]
      exact shows_goOn rfl hrun

theorem execOp_shows_mstore8 (ws : List Word) (s : Vm) :
    Shows host view hooks ctx code s (handed host ctx code s.machine .mstore8 ws)
      ((execOp host view hooks ctx code .mstore8 >>= settle) { s with machine := s.machine.holding ws }) := by
  rcases ws with _ | ⟨offset, _ | ⟨value, r⟩⟩
  · exact ⟨_, _, rfl⟩
  · exact ⟨_, _, rfl⟩
  · have hbyte : (value.setWidth 8).toNat = value.toNat % 256 := BitVec.toNat_setWidth 8 value
    have hanswer : answerOnMachine host (view s.db.live) ctx code (.storeByte offset (value.setWidth 8)) =
        (memExtend host offset.toNat 1 >>= fun _ =>
          memAssign offset.toNat 1 [UInt8.ofNat (value.setWidth 8).toNat] >>= fun _ => pure .next) := rfl
    rw [hbyte] at hanswer
    exact shows_ask rfl rfl (hanswer ▸ rfl)

theorem execOp_shows_balance (ws : List Word) (s : Vm) :
    Shows host view hooks ctx code s (handed host ctx code s.machine .balance ws)
      ((execOp host view hooks ctx code .balance >>= settle) { s with machine := s.machine.holding ws }) := by
  rcases ws with _ | ⟨who, r⟩
  · exact ⟨_, _, rfl⟩
  · have hanswer : answerOnMachine host (view s.db.live) ctx code (.balance (addressOf who)) =
        pushFlow ((view s.db.live).balanceOf (addressText (addressOf who))) := rfl
    rw [wordToAddr_addressOf, ← lastDigits_eq] at hanswer
    exact shows_ask rfl rfl (hanswer ▸ rfl)

theorem execOp_shows_extCodeSize (ws : List Word) (s : Vm) :
    Shows host view hooks ctx code s (handed host ctx code s.machine .extCodeSize ws)
      ((execOp host view hooks ctx code .extCodeSize >>= settle) { s with machine := s.machine.holding ws }) := by
  rcases ws with _ | ⟨who, r⟩
  · exact ⟨_, _, rfl⟩
  · have hanswer : answerOnMachine host (view s.db.live) ctx code (.codeSize (addressOf who)) =
        pushFlow ((view s.db.live).codeSizeOf (addressText (addressOf who))) := rfl
    rw [wordToAddr_addressOf] at hanswer
    exact shows_ask rfl rfl (hanswer ▸ rfl)

theorem execOp_shows_extCodeCopy (ws : List Word) (s : Vm) :
    Shows host view hooks ctx code s (handed host ctx code s.machine .extCodeCopy ws)
      ((execOp host view hooks ctx code .extCodeCopy >>= settle) { s with machine := s.machine.holding ws }) := by
  rcases ws with _ | ⟨a, _ | ⟨b, _ | ⟨c, _ | ⟨who, r⟩⟩⟩⟩
  · exact ⟨_, _, rfl⟩
  · exact ⟨_, _, rfl⟩
  · exact ⟨_, _, rfl⟩
  · exact ⟨_, _, rfl⟩
  · have hanswer : answerOnMachine host (view s.db.live) ctx code (.copy (.account (addressOf who)) b a c) =
        (let chunk := (view s.db.live).codeCopyOf (addressText (addressOf who)) a.toNat c.toNat
        memExtend host b.toNat chunk.length >>= fun _ =>
          memAssign b.toNat chunk.length chunk >>= fun _ => pure .next) := rfl
    rw [wordToAddr_addressOf] at hanswer
    exact shows_ask rfl rfl (hanswer ▸ rfl)

theorem execOp_shows_jumpi (ws : List Word) (s : Vm) :
    Shows host view hooks ctx code s (handed host ctx code s.machine .jumpi ws)
      ((execOp host view hooks ctx code .jumpi >>= settle) { s with machine := s.machine.holding ws }) := by
  rcases ws with _ | ⟨dest, _ | ⟨cond, r⟩⟩
  · exact ⟨_, _, rfl⟩
  · exact ⟨_, _, rfl⟩
  · have hrun : machineOp host (view s.db.live) ctx code .jumpi (s.machine.holding (dest :: cond :: r)) =
        (if cond.toNat ≠ 0 then jumpTo code dest.toNat else pure .next) (s.machine.holding r) := rfl
    change Shows host view hooks ctx code s
      (if cond.toNat ≠ 0 then jumps code s.machine dest r else .next r (slots s.machine.storage) (s.machine.pc + 1)) _
    by_cases hcond : cond.toNat ≠ 0
    · rw [if_pos hcond] at hrun
      rw [if_pos hcond]
      exact shows_jumps rfl hrun
    · rw [if_neg hcond] at hrun
      rw [if_neg hcond, bind_run, execOp_machine rfl, onMachine_run, hrun]
      exact ⟨s.machine.storage, rfl, rfl⟩

theorem execOp_shows_dup (n : Nat) (ws : List Word) (s : Vm) :
    Shows host view hooks ctx code s (handed host ctx code s.machine (.dup n) ws)
      ((execOp host view hooks ctx code (.dup n) >>= settle) { s with machine := s.machine.holding ws }) := by
  have hrun : machineOp host (view s.db.live) ctx code (.dup n) (s.machine.holding ws) = _ :=
    machineOp_dup (view s.db.live) n ws s.machine
  rw [List.getElem?_map] at hrun
  rw [handed_dup]
  cases hv : ws[n - 1]? with
  | none =>
    rw [hv] at hrun
    rw [bind_run, execOp_machine rfl, onMachine_run, hrun]
    exact ⟨_, _, rfl⟩
  | some v =>
    rw [hv] at hrun
    exact shows_goOn rfl (hrun.trans (pushFlow_holding _ _ _))

theorem execOp_shows_swap (n : Nat) (ws : List Word) (s : Vm) :
    Shows host view hooks ctx code s (handed host ctx code s.machine (.swap n) ws)
      ((execOp host view hooks ctx code (.swap n) >>= settle) { s with machine := s.machine.holding ws }) := by
  have hrun : machineOp host (view s.db.live) ctx code (.swap n) (s.machine.holding ws) = _ :=
    machineOp_swap (view s.db.live) n ws s.machine
  rw [List.getElem?_map, List.getElem?_map] at hrun
  rw [handed_swap]
  cases ha : ws[0]? with
  | none =>
    rw [ha] at hrun
    rw [bind_run, execOp_machine rfl, onMachine_run, hrun]
    exact ⟨_, _, rfl⟩
  | some a =>
    cases hb : ws[n]? with
    | none =>
      rw [ha, hb] at hrun
      rw [bind_run, execOp_machine rfl, onMachine_run, hrun]
      exact ⟨_, _, rfl⟩
    | some b =>
      rw [ha, hb] at hrun
      rw [bind_run, execOp_machine rfl, onMachine_run, hrun]
      refine ⟨s.machine.storage, rfl, ?_⟩
      unfold Machine.holding
      rw [List.map_set, List.map_set]
      rfl

theorem execOp_shows_hook (hop : effectOp host hooks ctx op ≠ none) (ws : List Word) (s : Vm) :
    Shows host view hooks ctx code s (handed host ctx code s.machine op ws)
      ((execOp host view hooks ctx code op >>= settle) { s with machine := s.machine.holding ws }) := by
  cases op with
  | create =>
    rcases ws with _ | ⟨a, _ | ⟨b, _ | ⟨c, r⟩⟩⟩
    · exact ⟨_, _, rfl⟩
    · exact ⟨_, _, rfl⟩
    · exact ⟨_, _, rfl⟩
    · exact shows_effect rfl (executeCreate_popped rfl)
  | create2 =>
    rcases ws with _ | ⟨a, _ | ⟨b, _ | ⟨c, _ | ⟨d, r⟩⟩⟩⟩
    · exact ⟨_, _, rfl⟩
    · exact ⟨_, _, rfl⟩
    · exact ⟨_, _, rfl⟩
    · exact ⟨_, _, rfl⟩
    · exact shows_effect rfl (executeCreate_popped rfl)
  | selfDestruct =>
    rcases ws with _ | ⟨beneficiary, r⟩
    · exact ⟨_, _, rfl⟩
    · refine shows_effect rfl ?_
      change _ = (onVmDb (hooks.selfDestruct ctx (addressText (addressOf beneficiary))) >>= fun _ => pure Flow.halt) _
      rw [wordToAddr_addressOf]
      rfl
  | call | callCode =>
    rcases ws with _ | ⟨a, _ | ⟨callee, _ | ⟨c, _ | ⟨d, _ | ⟨e, _ | ⟨f, _ | ⟨g, r⟩⟩⟩⟩⟩⟩⟩
    · exact ⟨_, _, rfl⟩
    · exact ⟨_, _, rfl⟩
    · exact ⟨_, _, rfl⟩
    · exact ⟨_, _, rfl⟩
    · exact ⟨_, _, rfl⟩
    · exact ⟨_, _, rfl⟩
    · exact ⟨_, _, rfl⟩
    · exact shows_call _ rfl rfl
  | delegateCall | staticCall =>
    rcases ws with _ | ⟨a, _ | ⟨callee, _ | ⟨c, _ | ⟨d, _ | ⟨e, _ | ⟨f, r⟩⟩⟩⟩⟩⟩
    · exact ⟨_, _, rfl⟩
    · exact ⟨_, _, rfl⟩
    · exact ⟨_, _, rfl⟩
    · exact ⟨_, _, rfl⟩
    · exact ⟨_, _, rfl⟩
    · exact ⟨_, _, rfl⟩
    · exact shows_call _ rfl rfl
  | _ => exact absurd rfl hop

theorem execOp_shows (op : Op) (ws : List Word) (s : Vm) :
    Shows host view hooks ctx code s (handed host ctx code s.machine op ws)
      ((execOp host view hooks ctx code op >>= settle) { s with machine := s.machine.holding ws }) := by
  cases op with
  | stop => rfl
  | invalid | unsupported b => exact ⟨_, _, rfl⟩
  | jumpDest => exact ⟨s.machine.storage, rfl, rfl⟩
  -- one, two or no words are taken, and one is pushed
  | address | origin | caller | callValue | callDataSize | codeSize | timestamp | number | chainId | push0
  | returnDataSize | gasLimit | gas => exact shows_goOn rfl (pushFlow_holding _ ws _)
  | isZero | not | callDataLoad | sload =>
    rcases ws with _ | ⟨a, r⟩
    · exact ⟨_, _, rfl⟩
    · exact shows_goOn rfl (pushFlow_holding _ r _)
  | add | mul | sub | div | mod | and | or | xor | eq | lt | gt | byte | shr =>
    rcases ws with _ | ⟨a, _ | ⟨b, r⟩⟩
    · exact ⟨_, _, rfl⟩
    · exact ⟨_, _, rfl⟩
    · exact shows_goOn rfl (binary_holding _ _ a b r)
  | shl => exact execOp_shows_shl ws s
  | push n => exact execOp_shows_push n ws s
  | dup n => exact execOp_shows_dup n ws s
  | swap n => exact execOp_shows_swap n ws s
  | pop =>
    rcases ws with _ | ⟨a, r⟩
    · exact ⟨_, _, rfl⟩
    · exact ⟨s.machine.storage, rfl, rfl⟩
  | sstore =>
    rcases ws with _ | ⟨key, _ | ⟨value, r⟩⟩
    · exact ⟨_, _, rfl⟩
    · exact ⟨_, _, rfl⟩
    · exact ⟨storeSlot s.machine.storage key.toNat value.toNat, rfl, rfl⟩
  | jump =>
    rcases ws with _ | ⟨dest, r⟩
    · exact ⟨_, _, rfl⟩
    · exact shows_jumps rfl rfl
  | jumpi => exact execOp_shows_jumpi ws s
  -- the words are handed to the memory, the log or the callbacks
  | mload | blockHash =>
    rcases ws with _ | ⟨a, r⟩
    · exact ⟨_, _, rfl⟩
    · exact shows_ask rfl rfl rfl
  | sha3 | mstore | «return» | revert =>
    rcases ws with _ | ⟨a, _ | ⟨b, r⟩⟩
    · exact ⟨_, _, rfl⟩
    · exact ⟨_, _, rfl⟩
    · exact shows_ask rfl rfl rfl
  | callDataCopy | codeCopy | returnDataCopy =>
    rcases ws with _ | ⟨a, _ | ⟨b, _ | ⟨c, r⟩⟩⟩
    · exact ⟨_, _, rfl⟩
    · exact ⟨_, _, rfl⟩
    · exact ⟨_, _, rfl⟩
    · exact shows_ask rfl rfl (memCopy_holding _ _ _ a b c r)
  | mstore8 => exact execOp_shows_mstore8 ws s
  | balance => exact execOp_shows_balance ws s
  | extCodeSize => exact execOp_shows_extCodeSize ws s
  | extCodeCopy => exact execOp_shows_extCodeCopy ws s
  | log n => exact execOp_shows_log n ws s
  | create | create2 | selfDestruct | call | callCode | delegateCall | staticCall =>
    exact execOp_shows_hook (by exact Option.some_ne_none _) ws s

end shows

theorem chargeOp_holding {op : Op} {m m₁ : Machine} (h : chargeOp op m = (.ok (), m₁)) (ws : List Word) :
    chargeOp op (m.holding ws) = (.ok (), m₁.holding ws) := by
  have hconsume : ∀ cost : Int, consumeGas cost m = (.ok (), m₁) →
      consumeGas cost (m.holding ws) = (.ok (), m₁.holding ws) := by
    intro cost h
    unfold consumeGas at h ⊢
    by_cases hlimit : m.gasLimit < m.gasUsed + cost
    · rw [if_pos hlimit] at h
      cases h
    · rw [if_neg hlimit] at h
      cases h
      exact if_neg hlimit
  cases op with
  | log n =>
    cases h
    rfl
  | _ => exact hconsume _ h

theorem round_shows {host : Host} {view : Tables → Callbacks} {hooks : Hooks} {ctx : EvmContext} {code : Bytes} {op : Op}
    {m m₁ : Machine} (hgas : chargeOp op m = (.ok (), m₁)) (ws : List Word) (db : Db) :
    Shows host view hooks ctx code { machine := m₁, db := db } (handed host ctx code m₁ op ws)
      (round host view hooks ctx code op { machine := m.holding ws, db := db }) := by
  have hround : round host view hooks ctx code op { machine := m.holding ws, db := db } =
      (execOp host view hooks ctx code op >>= settle) { machine := m₁.holding ws, db := db } := by
    unfold round
    rw [bind_run, onMachine_run, chargeOp_holding hgas ws]
  rw [hround]
  exact execOp_shows op ws { machine := m₁, db := db }

end AbsoluteChain
