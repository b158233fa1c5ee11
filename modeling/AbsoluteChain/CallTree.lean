import AbsoluteChain.Instructions
import AbsoluteChain.Runs

/-!
# Call trees

What an execution of contract code consists of: the instructions of each interpreter
in order, the hooks they reach, and below each hook the interpreter that it starts.
The database goes through the own writes of the hooks, from the innermost out, and
through nothing else; every later result about nested calls is a rule on that path.
-/

namespace AbsoluteChain

open Python Actions Act Transactions Runs

/-! ## The instructions of one interpreter -/

inductive HookCall where
  | call (ctx : EvmContext) (args : CallArgs)
  | create (ctx : EvmContext) (initCode : Bytes) (value : Nat) (salt : Option Nat)
  | selfDestruct (ctx : EvmContext) (beneficiary : String)

def HookCall.after (hooks : Hooks) (db : Db) : HookCall → Db
  | .call ctx args => (hooks.call ctx args db).2
  | .create ctx initCode value salt => (hooks.create ctx initCode value salt db).2
  | .selfDestruct ctx beneficiary => (hooks.selfDestruct ctx beneficiary db).2

def hookOf (host : Host) (ctx : EvmContext) (op : Op) (m : Machine) : Option HookCall :=
  match op with
  | .create => (prepareCreate host false m).1.toOption.map fun a => .create ctx a.initCode a.value a.salt
  | .create2 => (prepareCreate host true m).1.toOption.map fun a => .create ctx a.initCode a.value a.salt
  | .selfDestruct => (pop m).1.toOption.map fun b => .selfDestruct ctx (wordToAddr b)
  | op => (callMode op).bind fun mode => (prepareCall host mode m).1.toOption.map fun p => .call ctx p.2

def HookCall.ctx : HookCall → EvmContext
  | .call ctx _ => ctx
  | .create ctx _ _ _ => ctx
  | .selfDestruct ctx _ => ctx

theorem hookOf_ctx {host : Host} {ctx : EvmContext} {op : Op} {m : Machine} {h : HookCall}
    (hh : hookOf host ctx op m = some h) : h.ctx = ctx := by
  cases op with
  | create | create2 | selfDestruct | call | callCode | delegateCall | staticCall =>
    obtain ⟨_, -, rfl⟩ := Option.map_eq_some_iff.mp hh
    rfl
  | _ => cases hh

section interpreter
variable (host : Host) (view : Tables → Callbacks) (hooks : Hooks) (ctx : EvmContext) (code : Bytes)

/-- The instructions that `runLoop` executes, each with the state it finds. -/
def steps : Nat → Vm → List (Op × Vm)
  | 0, _ => []
  | fuel + 1, s =>
    match code[s.machine.pc]? with
    | none => []
    | some b =>
      match onMachine (chargeOp (decode b)) s with
      | (.error _, _) => []
      | (.ok _, s₁) =>
        (decode b, s₁) ::
          match execOp host view hooks ctx code (decode b) s₁ with
          | (.ok .next, s₂) => steps fuel (s₂.goto (s₂.machine.pc + 1))
          | (.ok (.jump dest), s₂) => steps fuel (s₂.goto dest)
          | _ => []

variable {host view hooks ctx code}

theorem execOp_db (op : Op) (s : Vm) :
    (execOp host view hooks ctx code op s).2.db =
      match hookOf host ctx op s.machine with
      | none => s.db
      | some h => h.after hooks s.db := by
  have hcreate : ∀ salted, (executeCreate host hooks ctx salted s).2.db =
      match (prepareCreate host salted s.machine).1.toOption.map fun a =>
        HookCall.create ctx a.initCode a.value a.salt with
      | none => s.db
      | some h => h.after hooks s.db := by
    intro salted
    unfold executeCreate
    rw [bind_run, onMachine_run]
    rcases prepareCreate host salted s.machine with ⟨f | a, m⟩
    · rfl
    · simp only [bind_run, onVmDb_run]
      rcases hr : hooks.create ctx a.initCode a.value a.salt s.db with ⟨f | out, db⟩
      · exact (congrArg Prod.snd hr).symm
      · exact (congrArg Prod.snd hr).symm
  have hcall : ∀ mode, (executeCall host hooks ctx mode s).2.db =
      match (prepareCall host mode s.machine).1.toOption.map fun p => HookCall.call ctx p.2 with
      | none => s.db
      | some h => h.after hooks s.db := by
    intro mode
    unfold executeCall
    rw [bind_run, onMachine_run]
    rcases prepareCall host mode s.machine with ⟨f | p, m⟩
    · rfl
    · simp only [bind_run, onVmDb_run]
      rcases hr : hooks.call ctx p.2 s.db with ⟨f | out, db⟩
      · exact (congrArg Prod.snd hr).symm
      · exact (congrArg Prod.snd hr).symm
  cases op with
  | create => exact hcreate false
  | create2 => exact hcreate true
  | call => exact hcall _
  | callCode => exact hcall _
  | delegateCall => exact hcall _
  | staticCall => exact hcall _
  | selfDestruct =>
    change ((onMachine pop >>= fun b => onVmDb (hooks.selfDestruct ctx (wordToAddr b)) >>= fun _ => pure Flow.halt) s).2.db =
      match (pop s.machine).1.toOption.map fun b => HookCall.selfDestruct ctx (wordToAddr b) with
      | none => s.db
      | some h => h.after hooks s.db
    rw [bind_run, onMachine_run]
    rcases pop s.machine with ⟨f | b, m⟩
    · rfl
    · simp only [bind_run, onVmDb_run]
      rcases hr : hooks.selfDestruct ctx (wordToAddr b) s.db with ⟨f | u, db⟩
      · exact (congrArg Prod.snd hr).symm
      · exact (congrArg Prod.snd hr).symm
  | _ => rfl

def Vm.data (s : Vm) : Storage × Db := (s.machine.storage, s.db)

theorem charge_data (op : Op) (s : Vm) : (onMachine (chargeOp op) s).2.data = s.data := by
  have hkept : ((chargeOp op) s.machine).2.storage = s.machine.storage := keeps_chargeOp machineFrame_storage op s.machine
  exact Prod.ext hkept rfl

/-- Between two instructions neither the storage map nor the database changes. -/
theorem steps_path (fuel : Nat) (s : Vm) :
    Path (fun p : Op × Vm => p.2.data) (fun p => (execOp host view hooks ctx code p.1 p.2).2.data) s.data
      (steps host view hooks ctx code fuel s) (runLoop host view hooks ctx code fuel s).2.data := by
  induction fuel generalizing s with
  | zero => rfl
  | succ fuel ih =>
    unfold steps
    rw [runLoop_succ]
    cases hb : code[s.machine.pc]? with
    | none => rfl
    | some b =>
      dsimp only
      have hcharged := charge_data (decode b) s
      rcases hc : onMachine (chargeOp (decode b)) s with ⟨f | u, s₁⟩
      · rw [hc] at hcharged
        exact hcharged.symm
      · rw [hc] at hcharged
        refine ⟨hcharged, ?_⟩
        dsimp only
        rcases execOp host view hooks ctx code (decode b) s₁ with ⟨f | flow, s₂⟩
        · rfl
        · cases flow with
          | next => exact ih (s₂.goto (s₂.machine.pc + 1))
          | jump dest => exact ih (s₂.goto dest)
          | halt => rfl

structure Site where
  hook : HookCall
  db : Db

def sites (host : Host) (view : Tables → Callbacks) (hooks : Hooks) (ctx : EvmContext) (code : Bytes) (fuel : Nat)
    (s : Vm) : List Site :=
  (steps host view hooks ctx code fuel s).filterMap fun p => (hookOf host ctx p.1 p.2.machine).map fun h => ⟨h, p.2.db⟩

theorem sites_path (fuel : Nat) (s : Vm) :
    Path Site.db (fun x : Site => x.hook.after hooks x.db) s.db (sites host view hooks ctx code fuel s)
      (runLoop host view hooks ctx code fuel s).2.db := by
  apply path_filterMap (path_image Prod.snd (steps_path fuel s))
  · intro p _ hp
    change (execOp host view hooks ctx code p.1 p.2).2.db = p.2.db
    rw [execOp_db, Option.map_eq_none_iff.mp hp]
  · intro p _ x hx
    obtain ⟨h, hh, rfl⟩ := Option.map_eq_some_iff.mp hx
    refine ⟨rfl, ?_⟩
    change h.after hooks p.2.db = (execOp host view hooks ctx code p.1 p.2).2.db
    rw [execOp_db, hh]

end interpreter

/-! ## The interpreter below a hook -/

/-- An interpreter to be started. -/
structure SubFrame where
  ctx : EvmContext
  code : Bytes
  gas : Int
  storage : Storage

namespace EvmAdapter

variable (e : EvmAdapter)

def runFrame (hooks : Hooks) (fr : SubFrame) : Act Fault Db Machine :=
  executeBytecode e.host e.callbacks hooks fr.ctx fr.gas fr.storage fr.code

def execAddr (ctx : EvmContext) (a : CallArgs) : String :=
  if a.delegate || a.callcode then ctx.address else e.normalizeAddr a.target

def callValue (a : CallArgs) : Int := if a.delegate then 0 else a.value

def callFrame (t : Tables) (ctx : EvmContext) (a : CallArgs) : Option SubFrame :=
  ((codeOf t (e.normalizeAddr a.target)).bind fun c => bytesFromHex (removeHexPrefixes c)).map fun bytecode =>
    { ctx := e.makeContext t (if a.delegate then ctx.caller else ctx.address) (e.execAddr ctx a) a.calldata (callValue a)
      code := bytecode
      gas := e.gasOr a.gas
      storage := storageOf t (e.execAddr ctx a) }

def callOut (a : CallArgs) (m : Machine) : CallOut :=
  { success := !m.reverted, reverted := m.reverted, returnData := m.returnData, gasUsed := m.gasUsed,
    storage := if a.static then none else some m.storage }

def concludeCall (ctx : EvmContext) (a : CallArgs) (m : Machine) : Act Fault Db Unit :=
  if a.static then pure ()
  else if a.delegate || a.callcode then do
    updateAccountStorage ctx.address m.storage
    Act.when (a.callcode ∧ ¬ m.reverted) (moveValue ctx.address (e.normalizeAddr a.target) (weiToAbs (callValue a)))
    e.persistLogs ctx.address m.logs
  else if m.reverted then pure ()
  else do
    updateAccountStorage (e.normalizeAddr a.target) m.storage
    moveValue (if a.delegate then ctx.caller else ctx.address) (e.normalizeAddr a.target) (weiToAbs (callValue a))

variable {e}

theorem returns_updateAccountStorage (a : String) (s : Storage) : Returns (updateAccountStorage a s) := returns_write _

theorem returns_saveAccount (a : String) (x : Account) : Returns (saveAccount a x) := returns_write _

theorem returns_moveValue (source target : String) (value : ℚ) : Returns (moveValue source target value) :=
  returns_when (returns_bind (returns_write _) fun _ => returns_write _)

theorem returns_persistLogs (a : String) (logs : List EvmLog) : Returns (e.persistLogs a logs) :=
  returns_bind (returns_read _) fun _ => returns_ite (returns_pure _) (returns_write _)

theorem returns_concludeCall (ctx : EvmContext) (a : CallArgs) (m : Machine) : Returns (e.concludeCall ctx a m) := by
  unfold concludeCall
  refine returns_ite (returns_pure _) (returns_ite ?_ (returns_ite (returns_pure _) ?_))
  · refine returns_bind (returns_write _) fun _ => returns_bind (returns_when (returns_moveValue _ _ _)) fun _ => ?_
    exact returns_persistLogs _ _
  · exact returns_bind (returns_write _) fun _ => returns_moveValue _ _ _

/-- The call hook is its callee followed by its own writes; an exception of the callee goes through. -/
theorem contractCallHook_run (hooks : Hooks) (ctx : EvmContext) (a : CallArgs) (db : Db) :
    e.contractCallHook hooks ctx a db =
      match e.callFrame db.live ctx a with
      | none => (.ok failedCall, db)
      | some fr =>
        match e.runFrame hooks fr db with
        | (.error f, db₁) => (.error f, db₁)
        | (.ok m, db₁) => (.ok (callOut a m), (e.concludeCall ctx a m db₁).2) := by
  have hconclude : ∀ m db₁, (.ok (callOut a m), (e.concludeCall ctx a m db₁).2) =
      (e.concludeCall ctx a m >>= fun _ => pure (callOut a m)) db₁ :=
    fun m db₁ => ((returns_concludeCall (e := e) ctx a m).run (fun _ => pure (callOut a m)) db₁).symm
  unfold contractCallHook callFrame
  simp only [bind_run, query, read_run]
  cases (codeOf db.live (e.normalizeAddr a.target)).bind fun c => bytesFromHex (removeHexPrefixes c) with
  | none => rfl
  | some bytecode =>
    simp only [Option.map_some, bind_run, read_run, runEvm, query, runFrame, execAddr, callValue]
    rcases executeBytecode e.host e.callbacks hooks _ _ _ bytecode db with ⟨f | m, db₁⟩
    · rfl
    · dsimp only
      rw [hconclude]
      unfold concludeCall callOut
      by_cases hs : a.static = true
      · simp only [if_pos hs]
        rfl
      · simp only [if_neg hs]
        by_cases hc : (a.delegate || a.callcode) = true
        · simp only [if_pos hc, bind_assoc]
          rfl
        · simp only [if_neg hc]
          by_cases hr : m.reverted = true
          · simp only [if_pos hr]
            rfl
          · simp only [if_neg hr, bind_assoc]
            rfl

/-! ### Contract creation -/

variable (e)

def createDeployer (ctx : EvmContext) : String := orElse ctx.address ctx.caller

def createdAt (ctx : EvmContext) (initCode : Bytes) (salt : Option Nat) : String :=
  createdAddress (match salt with
    | some s => "create2:" ++ createDeployer ctx ++ ":" ++ strInt s ++ ":" ++ hexOfBytes initCode
    | none => createDeployer ctx ++ strInt ctx.blockNumber ++ strInt initCode.length)

/-- The interpreter of a constructor. -/
def createFrame (t : Tables) (ctx : EvmContext) (initCode : Bytes) (value : Nat) (salt : Option Nat) : Option SubFrame :=
  if createDeployer ctx = "" then none
  else some
    { ctx := e.makeContext t (createDeployer ctx) (createdAt ctx initCode salt) [] value
      code := initCode
      gas := e.config.evmGasLimit
      storage := [] }

def createOut (ctx : EvmContext) (initCode : Bytes) (salt : Option Nat) (m : Machine) : CreateOut :=
  if m.reverted then failedCreate m.gasUsed
  else { success := true, reverted := false, gasUsed := m.gasUsed, address := createdAt ctx initCode salt }

/-- What a creation writes itself once the constructor has run. -/
def concludeCreate (ctx : EvmContext) (initCode : Bytes) (value : Nat) (salt : Option Nat) (m : Machine) : Act Fault Db Unit :=
  if m.reverted then pure ()
  else do
    let code := if m.returnData = [] then hexOfBytes initCode else hexOfBytes m.returnData
    saveAccount (createdAt ctx initCode salt)
      { balance := weiToAbs value, nonce := 0, code := some code, storage := some m.storage }
    moveValue (createDeployer ctx) (createdAt ctx initCode salt) (weiToAbs value)

variable {e}

theorem returns_concludeCreate (ctx : EvmContext) (initCode : Bytes) (value : Nat) (salt : Option Nat) (m : Machine) :
    Returns (concludeCreate ctx initCode value salt m) :=
  returns_ite (returns_pure _) (returns_bind (returns_write _) fun _ => returns_moveValue _ _ _)

/-- The create hook is its constructor followed by its own writes; an exception is caught. -/
theorem contractCreateHook_run (hooks : Hooks) (ctx : EvmContext) (initCode : Bytes) (value : Nat) (salt : Option Nat)
    (db : Db) :
    e.contractCreateHook hooks ctx initCode value salt db =
      match e.createFrame db.live ctx initCode value salt with
      | none => (.ok (failedCreate 0), db)
      | some fr =>
        match e.runFrame hooks fr db with
        | (.error _, db₁) => (.ok (failedCreate 0), db₁)
        | (.ok m, db₁) => (.ok (createOut ctx initCode salt m), (concludeCreate ctx initCode value salt m db₁).2) := by
  have hconclude : ∀ m db₁,
      (.ok (createOut ctx initCode salt m), (concludeCreate ctx initCode value salt m db₁).2) =
      (concludeCreate ctx initCode value salt m >>= fun _ => pure (createOut ctx initCode salt m)) db₁ :=
    fun m db₁ => ((returns_concludeCreate ctx initCode value salt m).run (fun _ => pure (createOut ctx initCode salt m)) db₁).symm
  unfold contractCreateHook createFrame
  by_cases hd : createDeployer ctx = ""
  · rw [if_pos hd]
    unfold createDeployer at hd
    rw [if_pos hd]
    rfl
  · rw [if_neg hd]
    have hd' := hd
    unfold createDeployer at hd'
    rw [if_neg hd']
    simp only [bind_run, attempt, runEvm, query, read_run, runFrame, createDeployer, createdAt]
    rcases executeBytecode e.host e.callbacks hooks _ _ _ initCode db with ⟨f | m, db₁⟩
    · rfl
    · dsimp only
      rw [hconclude]
      unfold concludeCreate createOut createdAt createDeployer
      by_cases hr : m.reverted = true
      · rw [if_pos hr, if_pos hr]
        exact congrArg (fun k : Act Fault Db CreateOut => k db₁) (if_pos hr)
      · rw [if_neg hr, if_neg hr]
        refine congrArg (fun k : Act Fault Db CreateOut => k db₁) ((if_neg hr).trans ?_)
        exact (bind_assoc _ _ _).symm

/-! ## The tree below a hook -/

variable (e)

def frameSites (hooks : Hooks) (fr : SubFrame) (db : Db) : List Site :=
  sites e.host e.callbacks hooks fr.ctx fr.code (fr.gas.toNat + 1) { machine := Machine.start fr.gas fr.storage, db := db }

def siteFrame (x : Site) : Option SubFrame :=
  match x.hook with
  | .call ctx a => e.callFrame x.db.live ctx a
  | .create ctx initCode value salt => e.createFrame x.db.live ctx initCode value salt
  | .selfDestruct _ _ => none

structure Node where
  depth : Nat
  site : Site

def calleeResult (x : Node) : Option (Except Fault Machine) :=
  (e.siteFrame x.site).map fun fr => (e.runFrame (e.hooks x.depth) fr x.site.db).1

def inner (x : Node) : Db :=
  match e.siteFrame x.site with
  | none => x.site.db
  | some fr => (e.runFrame (e.hooks x.depth) fr x.site.db).2

def outer (x : Node) : Db := x.site.hook.after (e.hooks (x.depth + 1)) x.site.db

def ownWrites (x : Node) : Act Fault Db Unit :=
  match x.site.hook, e.calleeResult x with
  | .call ctx a, some (.ok m) => e.concludeCall ctx a m
  | .create ctx initCode value salt, some (.ok m) => concludeCreate ctx initCode value salt m
  | .selfDestruct ctx beneficiary, _ => e.selfDestructContract ctx.address beneficiary
  | _, _ => pure ()

theorem outer_eq (x : Node) : e.outer x = (e.ownWrites x (e.inner x)).2 := by
  obtain ⟨depth, ⟨hook, db⟩⟩ := x
  cases hook with
  | call ctx a =>
    have hrun := contractCallHook_run (e := e) (e.hooks depth) ctx a db
    refine (congrArg Prod.snd hrun).trans ?_
    unfold ownWrites calleeResult inner siteFrame
    dsimp only
    cases e.callFrame db.live ctx a with
    | none => rfl
    | some fr =>
      dsimp only [Option.map_some]
      rcases e.runFrame (e.hooks depth) fr db with ⟨f | m, db₁⟩ <;> rfl
  | create ctx initCode value salt =>
    have hrun := contractCreateHook_run (e := e) (e.hooks depth) ctx initCode value salt db
    refine (congrArg Prod.snd hrun).trans ?_
    unfold ownWrites calleeResult inner siteFrame
    dsimp only
    cases e.createFrame db.live ctx initCode value salt with
    | none => rfl
    | some fr =>
      dsimp only [Option.map_some]
      rcases e.runFrame (e.hooks depth) fr db with ⟨f | m, db₁⟩ <;> rfl
  | selfDestruct ctx beneficiary => rfl

def Node.Quiet (x : Node) : Bool :=
  match x.site.hook, e.calleeResult x with
  | .call _ a, some (.ok m) => a.static || (!(a.delegate || a.callcode) && m.reverted)
  | .create _ _ _ _, some (.ok m) => m.reverted
  | .selfDestruct _ _, _ => false
  | _, _ => true

theorem concludeCall_quiet {ctx : EvmContext} {a : CallArgs} {m : Machine}
    (h : (a.static || (!(a.delegate || a.callcode) && m.reverted)) = true) : e.concludeCall ctx a m = pure () := by
  unfold concludeCall
  by_cases hs : a.static = true
  · rw [if_pos hs]
  · obtain ⟨hplain, hm⟩ : (a.delegate || a.callcode) = false ∧ m.reverted = true := by simpa [hs] using h
    rw [if_neg hs, if_neg (by rw [hplain]; exact Bool.false_ne_true), if_pos hm]

theorem ownWrites_of_quiet {x : Node} (h : x.Quiet e = true) : e.ownWrites x = pure () := by
  unfold Node.Quiet at h
  unfold ownWrites
  cases hx : x.site.hook with
  | selfDestruct ctx beneficiary =>
    rw [hx] at h
    cases h
  | create ctx initCode value salt =>
    rw [hx] at h
    rcases hr : e.calleeResult x with _ | f | m
    · rfl
    · rfl
    · rw [hr] at h
      exact if_pos h
  | call ctx a =>
    rw [hx] at h
    rcases hr : e.calleeResult x with _ | f | m
    · rfl
    · rfl
    · rw [hr] at h
      exact concludeCall_quiet e h

theorem outer_of_quiet {x : Node} (h : x.Quiet e = true) : e.outer x = e.inner x := by
  rw [outer_eq, ownWrites_of_quiet e h]
  rfl

def tree : Nat → Site → List Node
  | 0, _ => []
  | depth + 1, x =>
    (match e.siteFrame x with
      | none => []
      | some fr => (e.frameSites (e.hooks depth) fr x.db).flatMap (tree depth)) ++ [⟨depth, x⟩]

def forest (depth : Nat) (fr : SubFrame) (db : Db) : List Node :=
  (e.frameSites (e.hooks depth) fr db).flatMap (e.tree depth)

theorem runFrame_path (hooks : Hooks) (fr : SubFrame) (db : Db) :
    Path Site.db (fun x : Site => x.hook.after hooks x.db) db (e.frameSites hooks fr db) (e.runFrame hooks fr db).2 := by
  have hpath := @sites_path e.host e.callbacks hooks fr.ctx fr.code (fr.gas.toNat + 1)
    { machine := Machine.start fr.gas fr.storage, db := db }
  unfold runFrame executeBytecode
  rcases hr : runLoop e.host e.callbacks hooks fr.ctx fr.code (fr.gas.toNat + 1)
    { machine := Machine.start fr.gas fr.storage, db := db } with ⟨f | u, s⟩
  · rw [hr] at hpath
    exact hpath
  · rw [hr] at hpath
    exact hpath

theorem tree_path (depth : Nat) (x : Site) :
    Path e.inner e.outer x.db (e.tree depth x) (x.hook.after (e.hooks depth) x.db) := by
  induction depth generalizing x with
  | zero =>
    obtain ⟨hook, db⟩ := x
    cases hook <;> rfl
  | succ depth ih =>
    have hchildren : Path e.inner e.outer x.db
        (match e.siteFrame x with
          | none => []
          | some fr => (e.frameSites (e.hooks depth) fr x.db).flatMap (e.tree depth)) (e.inner ⟨depth, x⟩) := by
      unfold inner
      dsimp only
      cases e.siteFrame x with
      | none => rfl
      | some fr => exact path_flatMap (e.runFrame_path (e.hooks depth) fr x.db) fun y _ => ih y
    exact path_append hchildren ⟨rfl, rfl⟩

theorem forest_path (depth : Nat) (fr : SubFrame) (db : Db) :
    Path e.inner e.outer db (e.forest depth fr db) (e.runFrame (e.hooks depth) fr db).2 :=
  path_flatMap (e.runFrame_path (e.hooks depth) fr db) fun y _ => e.tree_path depth y

/-! ## Entry points -/

inductive Entry where
  | call (caller contractAddr calldataHex : String) (value : ℚ) (gasLimit : Int)
  | deploy (deployer bytecodeHex : String) (value : ℚ) (gasLimit : Int) (salt : String)

def Entry.run : Entry → Act Fault Db EvmResult
  | .call caller contractAddr calldataHex value gasLimit => e.callContract caller contractAddr calldataHex value gasLimit
  | .deploy deployer bytecodeHex value gasLimit salt => e.deployContract deployer bytecodeHex value gasLimit salt

def entryFrame (t : Tables) (code : Bytes) (storage : Storage) (gasLimit : Int) (caller contractAddr : String)
    (calldata : Bytes) (value : ℚ) : SubFrame :=
  { ctx := e.makeContext t caller contractAddr calldata (weiOf value), code := code, gas := gasLimit, storage := storage }

def Entry.frame (t : Tables) : Entry → Except String SubFrame
  | .call caller contractAddr calldataHex value gasLimit =>
    match codeOf t contractAddr with
    | none => .error "not_a_contract"
    | some codeHex =>
      match bytesFromHex (removeHexPrefixes codeHex) with
      | none => .error "invalid_stored_bytecode: non-hexadecimal number found in fromhex() arg"
      | some code =>
        .ok (e.entryFrame t code (storageOf t contractAddr) (e.gasOr gasLimit) caller contractAddr
          ((bytesFromHex (removeHexPrefixes calldataHex)).getD []) value)
  | .deploy deployer bytecodeHex value gasLimit salt =>
    match bytesFromHex (removeHexPrefixes bytecodeHex) with
    | none => .error "invalid_bytecode: non-hexadecimal number found in fromhex() arg"
    | some code =>
      if code = [] then .error "empty_bytecode"
      else
        match validateBytecodeHex bytecodeHex with
        | .error detail => .error ("bytecode_invalid:" ++ detail)
        | .ok _ => .ok (e.entryFrame t code [] (e.gasOr gasLimit) deployer (createdAddress (deployer ++ salt)) [] value)

def Entry.result (m : Machine) : Entry → EvmResult
  | .call _ _ _ _ _ =>
    if m.reverted then { success := false, error := "execution_reverted", gasUsed := m.gasUsed }
    else { success := true, returnValue := returnValueOf m, gasUsed := m.gasUsed, storageChanges := m.storage,
           logs := m.logs }
  | .deploy deployer _ _ _ salt =>
    if m.reverted then { success := false, error := "constructor_reverted", gasUsed := m.gasUsed }
    else { success := true, returnValue := .address (createdAddress (deployer ++ salt)), gasUsed := m.gasUsed,
           storageChanges := m.storage, logs := m.logs }

def Entry.conclude (m : Machine) : Entry → Act Fault Db Unit
  | .call caller contractAddr _ value _ =>
    if m.reverted then pure ()
    else do
      updateAccountStorage contractAddr m.storage
      e.persistLogs contractAddr m.logs
      moveValue caller contractAddr value
  | .deploy deployer bytecodeHex value _ salt =>
    if m.reverted then pure ()
    else do
      saveAccount (createdAddress (deployer ++ salt))
        { balance := value, nonce := 0, code := some bytecodeHex, storage := some m.storage }
      e.persistLogs (createdAddress (deployer ++ salt)) m.logs
      moveValue deployer (createdAddress (deployer ++ salt)) value

def Entry.ran (db : Db) (fr : SubFrame) : Except Fault Machine × Db := e.runFrame (e.hooks e.host.recursionLimit) fr db

def Entry.forest (db : Db) (entry : Entry) : List Node :=
  match entry.frame e db.live with
  | .error _ => []
  | .ok fr => e.forest e.host.recursionLimit fr db

variable {e}

theorem tryRunEvm_run (code : Bytes) (storage : Storage) (gasLimit : Int) (caller contractAddr : String) (calldata : Bytes)
    (value : ℚ) (db : Db) :
    e.tryRunEvm code storage gasLimit caller contractAddr calldata value db =
      match Entry.ran e db (e.entryFrame db.live code storage gasLimit caller contractAddr calldata value) with
      | (.error f, db₁) => (.ok (.error f.text), db₁)
      | (.ok m, db₁) => (.ok (.ok m), db₁) := by
  unfold tryRunEvm runEvm Entry.ran runFrame entryFrame
  simp only [bind_run, attempt, query, read_run]
  rcases executeBytecode e.host e.callbacks _ _ _ _ code db with ⟨f | m, db₁⟩ <;> rfl

theorem returns_conclude (entry : Entry) (m : Machine) : Returns (entry.conclude e m) := by
  cases entry with
  | call caller contractAddr calldataHex value gasLimit =>
    refine returns_ite (returns_pure _) (returns_bind (returns_write _) fun _ => ?_)
    exact returns_bind (returns_persistLogs _ _) fun _ => returns_moveValue _ _ _
  | deploy deployer bytecodeHex value gasLimit salt =>
    refine returns_ite (returns_pure _) (returns_bind (returns_write _) fun _ => ?_)
    exact returns_bind (returns_persistLogs _ _) fun _ => returns_moveValue _ _ _

/-- An entry point never raises: it is its interpreter followed by its own writes. -/
theorem Entry.run_eq (entry : Entry) (db : Db) :
    entry.run e db =
      match entry.frame e db.live with
      | .error err => (.ok { success := false, error := err }, db)
      | .ok fr =>
        match Entry.ran e db fr with
        | (.error f, db₁) => (.ok { success := false, error := f.text }, db₁)
        | (.ok m, db₁) => (.ok (entry.result m), (entry.conclude e m db₁).2) := by
  -- the last step never raises
  have hconclude : ∀ m db₁, (.ok (entry.result m), (entry.conclude e m db₁).2) =
      (entry.conclude e m >>= fun _ => pure (entry.result m)) db₁ :=
    fun m db₁ => ((returns_conclude (e := e) entry m).run (fun _ => pure (entry.result m)) db₁).symm
  cases entry with
  | call caller contractAddr calldataHex value gasLimit =>
    unfold Entry.run Entry.frame callContract
    simp only [bind_run, query, read_run]
    cases codeOf db.live contractAddr with
    | none => rfl
    | some codeHex =>
      dsimp only
      cases bytesFromHex (removeHexPrefixes codeHex) with
      | none => rfl
      | some code =>
        simp only [bind_run, read_run, tryRunEvm_run]
        rcases Entry.ran e db _ with ⟨f | m, db₁⟩
        · rfl
        · dsimp only
          rw [hconclude]
          unfold Entry.conclude Entry.result
          -- a reverted run writes nothing more
          by_cases hr : m.reverted = true
          · simp only [if_pos hr]
            rfl
          · simp only [if_neg hr, bind_assoc]
  | deploy deployer bytecodeHex value gasLimit salt =>
    simp only [Entry.run, Entry.frame, deployContract]
    cases bytesFromHex (removeHexPrefixes bytecodeHex) with
    | none => rfl
    | some code =>
      dsimp only
      by_cases hc : code = []
      · simp only [if_pos hc]
        rfl
      · simp only [if_neg hc]
        cases validateBytecodeHex bytecodeHex with
        | error detail => rfl
        | ok u =>
          simp only [bind_run, tryRunEvm_run]
          rcases Entry.ran e db _ with ⟨f | m, db₁⟩
          · rfl
          · dsimp only
            rw [hconclude]
            unfold Entry.conclude Entry.result
            by_cases hr : m.reverted = true
            · simp only [if_pos hr]
              rfl
            · simp only [if_neg hr, bind_assoc]

theorem Entry.result_success (entry : Entry) (m : Machine) : (entry.result m).success = !m.reverted := by
  cases entry <;> unfold Entry.result <;> cases m.reverted <;> rfl

def Entry.inner (e : EvmAdapter) (db : Db) (entry : Entry) : Db :=
  match entry.frame e db.live with
  | .error _ => db
  | .ok fr => (Entry.ran e db fr).2

theorem Entry.forest_path (entry : Entry) (db : Db) :
    Path e.inner e.outer db (entry.forest e db) (entry.inner e db) := by
  unfold Entry.forest Entry.inner
  cases entry.frame e db.live with
  | error err => rfl
  | ok fr => exact e.forest_path _ fr db

/-- An entry point that reports a failure has written nothing itself. -/
theorem Entry.failed {entry : Entry} {db db' : Db} {res : EvmResult} (h : entry.run e db = (.ok res, db'))
    (hf : res.success = false) : db' = entry.inner e db := by
  rw [Entry.run_eq] at h
  unfold Entry.inner
  cases hfr : entry.frame e db.live with
  | error err =>
    rw [hfr] at h
    exact (Prod.mk.inj h).2.symm
  | ok fr =>
    rw [hfr] at h
    dsimp only at h ⊢
    rcases hr : Entry.ran e db fr with ⟨f | m, db₁⟩
    · rw [hr] at h
      exact (Prod.mk.inj h).2.symm
    · rw [hr] at h
      obtain ⟨hres, hdb⟩ := Prod.mk.inj h
      have hreverted : m.reverted = true := by
        have hs := congrArg (fun r : Except Fault EvmResult => r.toOption.map EvmResult.success) hres
        simpa [Except.toOption, Entry.result_success, hf] using hs
      rw [← hdb]
      cases entry with
      | call => exact congrArg (fun a : Act Fault Db Unit => (a db₁).2) (if_pos hreverted)
      | deploy => exact congrArg (fun a : Act Fault Db Unit => (a db₁).2) (if_pos hreverted)

end EvmAdapter

end AbsoluteChain
