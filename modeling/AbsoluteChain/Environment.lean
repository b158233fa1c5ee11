import AbsoluteChain.ExecSpec

/-!
# What a contract reads of the chain

Four instructions let a contract see the blocks stored before it: `BLOCKHASH`,
`TIMESTAMP`, `NUMBER`, and `CREATE`, whose address is made of the block number. A
run that executes none of them ends the same way on every two databases with the
same accounts.
-/

namespace AbsoluteChain

open Python Actions Act Transactions

/-- Databases that agree on all that execution reads besides the stored blocks. -/
structure Agree (s t : Db) : Prop where
  accounts : t.live.accounts = s.live.accounts
  poolLocks : t.live.poolLocks = s.live.poolLocks

/-- Contexts that agree on all but the block number and the time. -/
structure SameCall (ctx ctx' : EvmContext) : Prop where
  caller : ctx'.caller = ctx.caller
  origin : ctx'.origin = ctx.origin
  address : ctx'.address = ctx.address
  calldata : ctx'.calldata = ctx.calldata
  value : ctx'.value = ctx.value
  chainId : ctx'.chainId = ctx.chainId

def Op.readsChain : Op → Bool
  | .blockHash | .timestamp | .number | .create => true
  | _ => false

/-! ## Runs that execute none of the four -/

/-- What is asked of the runs that the hooks of an interpreter start. -/
structure Below where
  call : EvmContext → CallArgs → Db → Prop
  create : EvmContext → CreateArgs → Db → Prop

section interpreter
variable (host : Host) (view : Tables → Callbacks) (hooks : Hooks) (ctx : EvmContext) (code : Bytes) (below : Below)

/-- The instruction is none of the four, and what it starts below executes none of them either. -/
structure OpIgnores (op : Op) (s : Vm) : Prop where
  silent : op.readsChain = false
  call : ∀ mode a m, callMode op = some mode → prepareCall host mode s.machine = (.ok a, m) → below.call ctx a.2 s.db
  create : ∀ a m, op = .create2 → prepareCreate host true s.machine = (.ok a, m) → below.create ctx a s.db

def LoopIgnores : Nat → Vm → Prop
  | 0, _ => True
  | fuel + 1, s =>
    ∀ b s₁, code[s.machine.pc]? = some b → onMachine (chargeOp (decode b)) s = (.ok (), s₁) →
      OpIgnores host ctx below (decode b) s₁ ∧
      ∀ flow s₂, execOp host view hooks ctx code (decode b) s₁ = (.ok flow, s₂) →
        match flow with
        | .next => LoopIgnores fuel { s₂ with machine := { s₂.machine with pc := s₂.machine.pc + 1 } }
        | .jump dest => LoopIgnores fuel { s₂ with machine := { s₂.machine with pc := dest } }
        | .halt => True

end interpreter

namespace EvmAdapter

variable (e : EvmAdapter)

def RunIgnores (hooks : Hooks) (below : Below) (code : Bytes) (storage : Storage) (gasLimit : Int)
    (caller contractAddr : String) (calldata : Bytes) (value : Int) (db : Db) : Prop :=
  LoopIgnores e.host e.callbacks hooks (e.makeContext db.live caller contractAddr calldata value) code below
    (gasLimit.toNat + 1) { machine := Machine.start gasLimit storage, db := db }

def CallIgnores (hooks : Hooks) (below : Below) (callerCtx : EvmContext) (a : CallArgs) (db : Db) : Prop :=
  let target := e.normalizeAddr a.target
  let execAddr := if a.delegate || a.callcode then callerCtx.address else target
  ∀ code, ((codeOf db.live target).bind fun c => bytesFromHex (removeHexPrefixes c)) = some code →
    e.RunIgnores hooks below code (storageOf db.live execAddr) (e.gasOr a.gas)
      (if a.delegate then callerCtx.caller else callerCtx.address) execAddr a.calldata
      (if a.delegate then 0 else a.value) db

def CreateIgnores (hooks : Hooks) (below : Below) (callerCtx : EvmContext) (a : CreateArgs) (db : Db) : Prop :=
  let deployer := orElse callerCtx.address callerCtx.caller
  ∀ salt, a.salt = some salt →
    e.RunIgnores hooks below a.initCode [] e.config.evmGasLimit deployer
      (createdAddress ("create2:" ++ deployer ++ ":" ++ strInt salt ++ ":" ++ hexOfBytes a.initCode)) [] a.value db

def below : Nat → Below
  | 0 => { call := fun _ _ _ => True, create := fun _ _ _ => True }
  | depth + 1 =>
    { call := e.CallIgnores (e.hooks depth) (below depth), create := e.CreateIgnores (e.hooks depth) (below depth) }

/-- The whole run of a transaction, with all that it starts. -/
def Ignores (code : Bytes) (storage : Storage) (gasLimit : Int) (caller contractAddr : String) (calldata : Bytes)
    (value : Int) (db : Db) : Prop :=
  e.RunIgnores (e.hooks e.host.recursionLimit) (e.below e.host.recursionLimit) code storage gasLimit caller contractAddr
    calldata value db

end EvmAdapter

/-! ## Two runs of the machine -/

/-- Interpreters at work on databases that agree, in the same state. -/
structure VmAgree (s t : Vm) : Prop where
  machine : t.machine = s.machine
  db : Agree s.db t.db

theorem machineOp_congr (host : Host) {cb cb' : Callbacks} {ctx ctx' : EvmContext} (code : Bytes)
    (hbalance : cb'.balanceOf = cb.balanceOf) (hsize : cb'.codeSizeOf = cb.codeSizeOf)
    (hcopy : cb'.codeCopyOf = cb.codeCopyOf) (hctx : SameCall ctx ctx') {op : Op} (h : op.readsChain = false) :
    machineOp host cb' ctx' code op = machineOp host cb ctx code op := by
  cases op with
  | balance => simp only [machineOp, hbalance]
  | extCodeSize => simp only [machineOp, hsize]
  | extCodeCopy => simp only [machineOp, hcopy]
  | address => simp only [machineOp, hctx.address]
  | origin => simp only [machineOp, hctx.origin]
  | caller => simp only [machineOp, hctx.caller]
  | callValue => simp only [machineOp, hctx.value]
  | callDataLoad => simp only [machineOp, hctx.calldata]
  | callDataSize => simp only [machineOp, hctx.calldata]
  | callDataCopy => simp only [machineOp, hctx.calldata]
  | chainId => simp only [machineOp, hctx.chainId]
  | blockHash => cases h
  | timestamp => cases h
  | number => cases h
  | _ => rfl

theorem alike_onMachine {α : Type} (m : MachineM α) {s t : Vm} (h : VmAgree s t) :
    Alike Eq VmAgree (onMachine m s) (onMachine m t) := by
  have hm : m t.machine = m s.machine := by rw [h.machine]
  unfold onMachine Act.on Vm.machinePart
  simp only [hm]
  rcases m s.machine with ⟨e | a, m'⟩
  · exact .error ⟨rfl, h.db⟩
  · exact .ok rfl ⟨rfl, h.db⟩

theorem alike_onVmDb {α : Type} {m n : Act Fault Db α} {s t : Vm} (h : VmAgree s t)
    (hm : Alike Eq Agree (m s.db) (n t.db)) : Alike Eq VmAgree (onVmDb m s) (onVmDb n t) := by
  unfold onVmDb Act.on Vm.dbPart
  simp only
  generalize m s.db = x at hm
  generalize n t.db = y at hm
  cases hm with
  | ok value state => exact .ok value ⟨h.machine, state⟩
  | error state => exact .error ⟨h.machine, state⟩

/-- Two families of hooks that answer alike wherever `below` holds. -/
structure HooksAlike (below : Below) (hooks hooks' : Hooks) : Prop where
  call : ∀ {ctx ctx' s t} (a), SameCall ctx ctx' → Agree s t → below.call ctx a s →
    Alike Eq Agree (hooks.call ctx a s) (hooks'.call ctx' a t)
  create : ∀ {ctx ctx' s t a}, SameCall ctx ctx' → Agree s t → a.salt ≠ none → below.create ctx a s →
    Alike Eq Agree (hooks.create ctx a.initCode a.value a.salt s) (hooks'.create ctx' a.initCode a.value a.salt t)
  selfDestruct : ∀ {ctx ctx' s t} (b), SameCall ctx ctx' → Agree s t →
    Alike Eq Agree (hooks.selfDestruct ctx b s) (hooks'.selfDestruct ctx' b t)

theorem prepareCreate_salted {host : Host} {m m' : Machine} {a : CreateArgs}
    (h : prepareCreate host true m = (.ok a, m')) : a.salt ≠ none := by
  unfold prepareCreate at h
  simp only [if_true] at h
  obtain ⟨salt, m₁, h₁, h⟩ := bind_ok.mp h
  obtain ⟨w, m₂, -, h₂⟩ := bind_ok.mp h₁
  obtain ⟨hsalt, -⟩ := Prod.mk.inj h₂
  obtain ⟨size, m₃, -, h⟩ := bind_ok.mp h
  obtain ⟨offset, m₄, -, h⟩ := bind_ok.mp h
  obtain ⟨value, m₅, -, h⟩ := bind_ok.mp h
  obtain ⟨initCode, m₆, -, h⟩ := bind_ok.mp h
  obtain ⟨ha, -⟩ := Prod.mk.inj h
  rw [← Except.ok.inj ha, ← Except.ok.inj hsalt]
  exact Option.some_ne_none w

section loop
variable {host : Host} {view view' : Tables → Callbacks} {hooks hooks' : Hooks} {ctx ctx' : EvmContext} {code : Bytes}
  {below : Below} (hooksAlike : HooksAlike below hooks hooks') (hctx : SameCall ctx ctx')
  (hbalance : ∀ {t u}, u.accounts = t.accounts → (view' u).balanceOf = (view t).balanceOf)
  (hsize : ∀ {t u}, u.accounts = t.accounts → (view' u).codeSizeOf = (view t).codeSizeOf)
  (hcopy : ∀ {t u}, u.accounts = t.accounts → (view' u).codeCopyOf = (view t).codeCopyOf)
include hooksAlike hctx

theorem alike_effectOp {op : Op} {m : Act Fault Vm Flow} (hm : effectOp host hooks ctx op = some m) {s t : Vm}
    (h : VmAgree s t) (hi : OpIgnores host ctx below op s) :
    ∃ n, effectOp host hooks' ctx' op = some n ∧ Alike Eq VmAgree (m s) (n t) := by
  have hsame : ∀ {α : Type} (p : MachineM α) {s₁ t₁ : Vm}, VmAgree s₁ t₁ →
      Alike Eq VmAgree (onMachine p s₁) (onMachine p t₁) := fun p _ _ hr => alike_onMachine p hr
  unfold effectOp at hm ⊢
  split at hm
  · exact absurd hi.silent (by decide)
  · cases hm
    refine ⟨_, rfl, ?_⟩
    unfold executeCreate
    refine alike_bind (hsame _ h) fun a _ s₁ t₁ hs ha h₁ => ?_
    subst ha
    obtain ⟨m', hp, hdb⟩ : ∃ m', prepareCreate host true s.machine = (.ok a, m') ∧ s₁.db = s.db := by
      unfold onMachine Act.on Vm.machinePart at hs
      obtain ⟨hr, rfl⟩ := Prod.mk.inj hs
      exact ⟨_, Prod.ext hr rfl, rfl⟩
    have hbelow := hi.create a m' rfl hp
    rw [← hdb] at hbelow
    refine alike_bind (alike_onVmDb h₁ (hooksAlike.create hctx h₁.db (prepareCreate_salted hp) hbelow))
      fun out _ s₂ t₂ _ ho h₂ => ?_
    subst ho
    exact hsame _ h₂
  · cases hm
    refine ⟨_, rfl, ?_⟩
    refine alike_bind (hsame _ h) fun b _ s₁ t₁ _ hb h₁ => ?_
    subst hb
    refine alike_bind (alike_onVmDb h₁ (hooksAlike.selfDestruct _ hctx h₁.db)) fun _ _ s₂ t₂ _ _ h₂ => ?_
    exact alike_pure rfl h₂
  · obtain ⟨mode, hmode, rfl⟩ := Option.map_eq_some_iff.mp hm
    refine ⟨_, by rw [hmode]; rfl, ?_⟩
    unfold executeCall
    refine alike_bind (hsame _ h) fun a _ s₁ t₁ hs ha h₁ => ?_
    subst ha
    obtain ⟨m', hp, hdb⟩ : ∃ m', prepareCall host mode s.machine = (.ok a, m') ∧ s₁.db = s.db := by
      unfold onMachine Act.on Vm.machinePart at hs
      obtain ⟨hr, rfl⟩ := Prod.mk.inj hs
      exact ⟨_, Prod.ext hr rfl, rfl⟩
    have hbelow := hi.call mode a m' hmode hp
    rw [← hdb] at hbelow
    refine alike_bind (alike_onVmDb h₁ (hooksAlike.call _ hctx h₁.db hbelow)) fun out _ s₂ t₂ _ ho h₂ => ?_
    subst ho
    exact hsame _ h₂

include hbalance hsize hcopy

theorem alike_execOp {op : Op} {s t : Vm} (h : VmAgree s t) (hi : OpIgnores host ctx below op s) :
    Alike Eq VmAgree (execOp host view hooks ctx code op s) (execOp host view' hooks' ctx' code op t) := by
  unfold execOp
  cases hm : effectOp host hooks ctx op with
  | some m =>
    obtain ⟨n, hn, halike⟩ := alike_effectOp hooksAlike hctx hm h hi
    rw [hn]
    exact halike
  | none =>
    have hn : effectOp host hooks' ctx' op = none := by
      unfold effectOp at hm ⊢
      split at hm <;> first | cases hm | skip
      rw [Option.map_eq_none_iff] at hm ⊢
      exact hm
    rw [hn]
    have hacc := h.db.accounts
    show Alike Eq VmAgree (onMachine (machineOp host (view s.db.live) ctx code op) s)
      (onMachine (machineOp host (view' t.db.live) ctx' code op) t)
    rw [machineOp_congr host code (hbalance hacc) (hsize hacc) (hcopy hacc) hctx hi.silent]
    exact alike_onMachine _ h

theorem alike_runLoop (fuel : Nat) {s t : Vm} (h : VmAgree s t)
    (hi : LoopIgnores host view hooks ctx code below fuel s) :
    Alike Eq VmAgree (runLoop host view hooks ctx code fuel s) (runLoop host view' hooks' ctx' code fuel t) := by
  induction fuel generalizing s t with
  | zero => exact alike_raise h
  | succ fuel ih =>
    unfold runLoop
    refine alike_bind (alike_onMachine _ h) fun m _ s₀ t₀ hs hm h₀ => ?_
    subst hm
    obtain ⟨rfl, rfl⟩ : m = s.machine ∧ s₀ = s := by
      have hread : onMachine (Act.read id) s = (.ok s.machine, s) := rfl
      rw [hread] at hs
      cases hs
      exact ⟨rfl, rfl⟩
    cases hc : code[s₀.machine.pc]? with
    | none => exact alike_pure rfl h₀
    | some b =>
      refine alike_bind (alike_onMachine _ h₀) fun _ _ s₁ t₁ hcharge _ h₁ => ?_
      obtain ⟨hop, hnext⟩ := hi b s₁ hc hcharge
      refine alike_bind (alike_execOp hooksAlike hctx hbalance hsize hcopy h₁ hop) fun flow _ s₂ t₂ hexec hflow h₂ => ?_
      subst hflow
      have hrest := hnext flow s₂ hexec
      cases flow with
      | next =>
        refine alike_bind (alike_onMachine _ h₂) fun _ _ s₃ t₃ hpc _ h₃ => ?_
        cases hpc
        exact ih h₃ hrest
      | jump dest =>
        refine alike_bind (alike_onMachine _ h₂) fun _ _ s₃ t₃ hpc _ h₃ => ?_
        cases hpc
        exact ih h₃ hrest
      | halt => exact alike_onMachine _ h₂

end loop

/-! ## Two runs of the adapter -/

section statements
variable {s t : Db}

theorem Agree.getAccount (h : Agree s t) (a : String) : t.live.getAccount a = s.live.getAccount a := by
  unfold Tables.getAccount
  rw [h.accounts]

theorem Agree.getBalance (h : Agree s t) (a : String) : t.live.getBalance a = s.live.getBalance a := by
  unfold Tables.getBalance
  rw [h.getAccount]

theorem codeOf_accounts {t u : Tables} (h : u.accounts = t.accounts) : EvmAdapter.codeOf u = EvmAdapter.codeOf t := by
  funext a
  unfold EvmAdapter.codeOf Tables.getAccount
  rw [h]

theorem storageOf_accounts {t u : Tables} (h : u.accounts = t.accounts) :
    EvmAdapter.storageOf u = EvmAdapter.storageOf t := by
  funext a
  unfold EvmAdapter.storageOf Tables.getAccount
  rw [h]

/-- What one read returns on both databases. -/
theorem alike_query {α : Type} {f g : Tables → α} (h : Agree s t) (hfg : g t.live = f s.live) :
    Alike Eq Agree (query f s) (query g t) := .ok hfg.symm h

theorem alike_committed {f : Tables → Tables} (h : Agree s t)
    (hf : ∀ {t u : Tables}, u.accounts = t.accounts → (f u).accounts = (f t).accounts)
    (hp : ∀ t, (f t).poolLocks = t.poolLocks) : Alike Eq Agree (committed f s) (committed f t) :=
  .ok rfl ⟨hf h.accounts, (hp _).trans (h.poolLocks.trans (hp _).symm)⟩

theorem accounts_applyBalanceDelta {t u : Tables} (h : u.accounts = t.accounts) (a : String) (d : ℚ) :
    (u.applyBalanceDelta a d).accounts = (t.applyBalanceDelta a d).accounts := by
  unfold Tables.applyBalanceDelta
  rw [h]

theorem alike_updateBalance (h : Agree s t) (a : String) (d : ℚ) :
    Alike Eq Agree (updateBalance a d s) (updateBalance a d t) :=
  alike_committed h (fun hu => accounts_applyBalanceDelta hu a d) fun _ => rfl

theorem alike_saveAccount (h : Agree s t) (a : String) (x : Account) :
    Alike Eq Agree (saveAccount a x s) (saveAccount a x t) :=
  alike_committed h (fun hu => by unfold Tables.saveAccount; rw [hu]) fun _ => rfl

theorem alike_updateAccountStorage (h : Agree s t) (a : String) (x : Storage) :
    Alike Eq Agree (updateAccountStorage a x s) (updateAccountStorage a x t) :=
  alike_committed h (fun hu => by unfold Tables.updateAccountStorage; rw [hu]) fun _ => rfl

theorem alike_moveValue (h : Agree s t) (source target : String) (value : ℚ) :
    Alike Eq Agree (EvmAdapter.moveValue source target value s) (EvmAdapter.moveValue source target value t) :=
  alike_when h fun _ => alike_bind (alike_updateBalance h _ _) fun _ _ _ _ _ _ h₁ => alike_updateBalance h₁ _ _

/-- Stored logs carry the block number and the time, but no account does. -/
theorem alike_persistLogs (h : Agree s t) (e e' : EvmAdapter) (a : String) (logs : List EvmLog) :
    Alike Eq Agree (e.persistLogs a logs s) (e'.persistLogs a logs t) := by
  unfold EvmAdapter.persistLogs saveEvmLogs
  simp only [bind_run, query, read_run]
  by_cases hl : logs = []
  · rw [if_pos hl, if_pos hl]
    exact alike_pure rfl h
  · rw [if_neg hl, if_neg hl]
    exact .ok rfl ⟨h.accounts, h.poolLocks⟩

end statements

namespace EvmAdapter

variable (e : EvmAdapter) (now' : Int)

def withNow : EvmAdapter := { e with now := now' }

theorem callbacks_accounts {t u : Tables} (h : u.accounts = t.accounts) :
    ((e.withNow now').callbacks u).balanceOf = (e.callbacks t).balanceOf ∧
    ((e.withNow now').callbacks u).codeSizeOf = (e.callbacks t).codeSizeOf ∧
    ((e.withNow now').callbacks u).codeCopyOf = (e.callbacks t).codeCopyOf := by
  have hbytes : (e.withNow now').codeBytes u = e.codeBytes t := by
    funext a
    unfold codeBytes
    rw [codeOf_accounts h]
    rfl
  refine ⟨?_, ?_, ?_⟩
  · funext a
    simp only [callbacks, Tables.getBalance, Tables.getAccount, h]
  · funext a
    simp only [callbacks, hbytes]
  · funext a offset size
    simp only [callbacks, hbytes]

theorem sameCall_makeContext (t u : Tables) (caller contractAddr : String) (calldata : Bytes) (value : Int) :
    SameCall (e.makeContext t caller contractAddr calldata value)
      ((e.withNow now').makeContext u caller contractAddr calldata value) := ⟨rfl, rfl, rfl, rfl, rfl, rfl⟩

variable {e now'} {s t : Db}

def loopOutcome {α : Type} : Except Fault α × Vm → Except Fault Machine × Db
  | (.ok _, s) => (.ok s.machine, s.db)
  | (.error err, s) => (.error err, s.db)

theorem runEvm_run (e : EvmAdapter) (hooks : Hooks) (code : Bytes) (storage : Storage) (gasLimit : Int)
    (caller contractAddr : String) (calldata : Bytes) (value : Int) (s : Db) :
    e.runEvm hooks code storage gasLimit caller contractAddr calldata value s =
      loopOutcome (runLoop e.host e.callbacks hooks (e.makeContext s.live caller contractAddr calldata value) code
        (gasLimit.toNat + 1) { machine := Machine.start gasLimit storage, db := s }) := by
  unfold runEvm
  simp only [bind_run, query, read_run, executeBytecode]
  generalize runLoop e.host _ hooks _ _ _ _ = x
  rcases x with ⟨_ | _, s⟩ <;> rfl

theorem alike_runEvm {hooks hooks' : Hooks} {below : Below} (hk : HooksAlike below hooks hooks') (h : Agree s t)
    {code : Bytes} {storage : Storage} {gasLimit : Int} {caller contractAddr : String} {calldata : Bytes} {value : Int}
    (hi : e.RunIgnores hooks below code storage gasLimit caller contractAddr calldata value s) :
    Alike Eq Agree (e.runEvm hooks code storage gasLimit caller contractAddr calldata value s)
      ((e.withNow now').runEvm hooks' code storage gasLimit caller contractAddr calldata value t) := by
  have hloop := alike_runLoop hk (sameCall_makeContext e now' s.live t.live caller contractAddr calldata value)
    (fun hacc => (callbacks_accounts e now' hacc).1) (fun hacc => (callbacks_accounts e now' hacc).2.1)
    (fun hacc => (callbacks_accounts e now' hacc).2.2) _
    (s := { machine := Machine.start gasLimit storage, db := s }) (t := { machine := Machine.start gasLimit storage, db := t })
    ⟨rfl, h⟩ hi
  rw [runEvm_run, runEvm_run]
  revert hloop
  change _ → Alike Eq Agree _ (loopOutcome (runLoop e.host _ _ _ _ _ _))
  generalize runLoop e.host _ hooks _ _ _ _ = x
  generalize runLoop e.host _ hooks' _ _ _ _ = y
  intro hloop
  cases hloop with
  | ok _ state => exact .ok state.machine.symm state.db
  | error state => exact .error state.db

theorem alike_contractCallHook {hooks hooks' : Hooks} {below : Below} (hk : HooksAlike below hooks hooks')
    {ctx ctx' : EvmContext} (hctx : SameCall ctx ctx') (h : Agree s t) (a : CallArgs)
    (hi : e.CallIgnores hooks below ctx a s) :
    Alike Eq Agree (e.contractCallHook hooks ctx a s) ((e.withNow now').contractCallHook hooks' ctx' a t) := by
  have hnorm : ∀ x, (e.withNow now').normalizeAddr x = e.normalizeAddr x := fun _ => rfl
  unfold contractCallHook
  refine alike_bind (alike_query h (by rw [hnorm, codeOf_accounts h.accounts])) fun code _ s₁ t₁ hs hc h₁ => ?_
  subst hc
  obtain ⟨hcode, rfl⟩ := Prod.mk.inj hs
  have hcode' := Except.ok.inj hcode
  cases hb : code.bind fun c => bytesFromHex (removeHexPrefixes c) with
  | none => exact alike_pure rfl h₁
  | some bytecode =>
    rw [← hcode'] at hb
    have hrun := hi bytecode hb
    simp only [hctx.address, hctx.caller, hnorm]
    refine alike_bind (alike_query h₁ (by rw [storageOf_accounts h₁.accounts])) fun storage _ s₂ t₂ hs₂ hst h₂ => ?_
    subst hst
    obtain ⟨hstorage, rfl⟩ := Prod.mk.inj hs₂
    rw [← Except.ok.inj hstorage]
    refine alike_bind (alike_runEvm hk h₂ hrun) fun m _ s₃ t₃ _ hm h₃ => ?_
    subst hm
    by_cases hstatic : a.static
    · simp only [if_pos hstatic]
      exact alike_pure rfl h₃
    · simp only [if_neg hstatic]
      by_cases hin : (a.delegate || a.callcode) = true
      · simp only [if_pos hin]
        refine alike_bind (alike_updateAccountStorage h₃ _ _) fun _ _ s₄ t₄ _ _ h₄ => ?_
        refine alike_bind (alike_when h₄ fun _ => alike_moveValue h₄ _ _ _) fun _ _ s₅ t₅ _ _ h₅ => ?_
        exact alike_bind (alike_persistLogs h₅ _ _ _ _) fun _ _ s₆ t₆ _ _ h₆ => alike_pure rfl h₆
      · simp only [if_neg hin]
        by_cases hrev : m.reverted = true
        · simp only [if_pos hrev]
          exact alike_pure rfl h₃
        · simp only [if_neg hrev]
          refine alike_bind (alike_updateAccountStorage h₃ _ _) fun _ _ s₄ t₄ _ _ h₄ => ?_
          exact alike_bind (alike_moveValue h₄ _ _ _) fun _ _ s₅ t₅ _ _ h₅ => alike_pure rfl h₅

theorem alike_contractCreateHook {hooks hooks' : Hooks} {below : Below} (hk : HooksAlike below hooks hooks')
    {ctx ctx' : EvmContext} (hctx : SameCall ctx ctx') (h : Agree s t) {a : CreateArgs} (ha : a.salt ≠ none)
    (hi : e.CreateIgnores hooks below ctx a s) :
    Alike Eq Agree (e.contractCreateHook hooks ctx a.initCode a.value a.salt s)
      ((e.withNow now').contractCreateHook hooks' ctx' a.initCode a.value a.salt t) := by
  obtain ⟨salt, hsalt⟩ := Option.ne_none_iff_exists'.mp ha
  have hrun := hi salt hsalt
  unfold contractCreateHook
  simp only [hctx.address, hctx.caller, hsalt]
  by_cases hd : orElse ctx.address ctx.caller = ""
  · simp only [if_pos hd]
    exact alike_pure rfl h
  · simp only [if_neg hd]
    refine alike_bind (alike_attempt (alike_bind (alike_runEvm hk h hrun) fun m _ s₁ t₁ _ hm h₁ => ?_)
      fun err s₁ t₁ h₁ => alike_pure rfl h₁) fun result _ s₂ t₂ _ hres h₂ => ?_
    · exact alike_pure (congrArg some hm) h₁
    · subst hres
      cases result with
      | none => exact alike_pure rfl h₂
      | some m =>
        by_cases hrev : m.reverted = true
        · simp only [if_pos hrev]
          exact alike_pure rfl h₂
        · simp only [if_neg hrev]
          refine alike_bind (alike_saveAccount h₂ _ _) fun _ _ s₃ t₃ _ _ h₃ => ?_
          exact alike_bind (alike_moveValue h₃ _ _ _) fun _ _ s₄ t₄ _ _ h₄ => alike_pure rfl h₄

theorem alike_selfDestruct (h : Agree s t) (contractAddr beneficiary : String) :
    Alike Eq Agree (e.selfDestructContract contractAddr beneficiary s)
      ((e.withNow now').selfDestructContract contractAddr beneficiary t) := by
  unfold selfDestructContract
  refine alike_bind (alike_query h (h.getAccount _)) fun account _ s₁ t₁ _ hacc h₁ => ?_
  subst hacc
  refine alike_bind (alike_when h₁ fun _ => ?_) fun _ _ s₂ t₂ _ _ h₂ => alike_saveAccount h₂ _ _
  exact alike_bind (alike_updateBalance h₁ _ _) fun _ _ s₃ t₃ _ _ h₃ => alike_updateBalance h₃ _ _

theorem hooksAlike (depth : Nat) : HooksAlike (e.below depth) (e.hooks depth) ((e.withNow now').hooks depth) := by
  induction depth with
  | zero =>
    exact { call := fun _ _ h _ => alike_raise h
            create := fun _ h _ _ => alike_raise h
            selfDestruct := fun _ _ h => alike_raise h }
  | succ depth ih =>
    exact { call := fun a hctx h hi => alike_contractCallHook ih hctx h a hi
            create := fun hctx h ha hi => alike_contractCreateHook ih hctx h ha hi
            selfDestruct := fun b hctx h => by
              simp only [hooks, hctx.address]
              exact alike_selfDestruct h _ _ }

theorem alike_tryRunEvm (h : Agree s t) {code : Bytes} {storage : Storage} {gasLimit : Int}
    {caller contractAddr : String} {calldata : Bytes} {value : ℚ}
    (hi : e.Ignores code storage gasLimit caller contractAddr calldata (weiOf value) s) :
    Alike Eq Agree (e.tryRunEvm code storage gasLimit caller contractAddr calldata value s)
      ((e.withNow now').tryRunEvm code storage gasLimit caller contractAddr calldata value t) := by
  unfold tryRunEvm
  refine alike_attempt (alike_bind (alike_runEvm (hooksAlike _) h hi) fun m _ s₁ t₁ _ hm h₁ => ?_)
    fun err s₁ t₁ h₁ => alike_pure rfl h₁
  exact alike_pure (congrArg Except.ok hm) h₁

def DeployIgnores (e : EvmAdapter) (deployer bytecodeHex : String) (value : ℚ) (gasLimit : Int) (salt : String) (db : Db) :
    Prop :=
  ∀ code, bytesFromHex (removeHexPrefixes bytecodeHex) = some code →
    e.Ignores code [] (e.gasOr gasLimit) deployer (createdAddress (deployer ++ salt)) [] (weiOf value) db

def EntryIgnores (e : EvmAdapter) (caller contractAddr calldataHex : String) (value : ℚ) (gasLimit : Int) (db : Db) :
    Prop :=
  ∀ codeHex code, codeOf db.live contractAddr = some codeHex → bytesFromHex (removeHexPrefixes codeHex) = some code →
    e.Ignores code (storageOf db.live contractAddr) (e.gasOr gasLimit) caller contractAddr
      ((bytesFromHex (removeHexPrefixes calldataHex)).getD []) (weiOf value) db

theorem alike_deployContract (h : Agree s t) {deployer bytecodeHex : String} {value : ℚ} {gasLimit : Int} {salt : String}
    (hi : e.DeployIgnores deployer bytecodeHex value gasLimit salt s) :
    Alike Eq Agree (e.deployContract deployer bytecodeHex value gasLimit salt s)
      ((e.withNow now').deployContract deployer bytecodeHex value gasLimit salt t) := by
  unfold deployContract
  cases hb : bytesFromHex (removeHexPrefixes bytecodeHex) with
  | none => exact alike_pure rfl h
  | some code =>
    dsimp only
    by_cases hempty : code = []
    · simp only [if_pos hempty]
      exact alike_pure rfl h
    · simp only [if_neg hempty]
      cases hv : validateBytecodeHex bytecodeHex with
      | error detail => exact alike_pure rfl h
      | ok _ =>
        refine alike_bind (alike_tryRunEvm h (hi code hb)) fun result _ s₁ t₁ _ hres h₁ => ?_
        subst hres
        cases result with
        | error err => exact alike_pure rfl h₁
        | ok m =>
          by_cases hrev : m.reverted = true
          · simp only [if_pos hrev]
            exact alike_pure rfl h₁
          · simp only [if_neg hrev]
            refine alike_bind (alike_saveAccount h₁ _ _) fun _ _ s₂ t₂ _ _ h₂ => ?_
            refine alike_bind (alike_persistLogs h₂ _ _ _ _) fun _ _ s₃ t₃ _ _ h₃ => ?_
            exact alike_bind (alike_moveValue h₃ _ _ _) fun _ _ s₄ t₄ _ _ h₄ => alike_pure rfl h₄

theorem alike_callContract (h : Agree s t) {caller contractAddr calldataHex : String} {value : ℚ} {gasLimit : Int}
    (hi : e.EntryIgnores caller contractAddr calldataHex value gasLimit s) :
    Alike Eq Agree (e.callContract caller contractAddr calldataHex value gasLimit s)
      ((e.withNow now').callContract caller contractAddr calldataHex value gasLimit t) := by
  unfold callContract
  refine alike_bind (alike_query h (by rw [codeOf_accounts h.accounts])) fun codeHex _ s₁ t₁ hs hc h₁ => ?_
  subst hc
  obtain ⟨hcode, rfl⟩ := Prod.mk.inj hs
  cases codeHex with
  | none => exact alike_pure rfl h₁
  | some codeHex =>
    dsimp only
    cases hb : bytesFromHex (removeHexPrefixes codeHex) with
    | none => exact alike_pure rfl h₁
    | some code =>
      have hrun := hi codeHex code (Except.ok.inj hcode) hb
      refine alike_bind (alike_query h₁ (by rw [storageOf_accounts h₁.accounts])) fun storage _ s₂ t₂ hs₂ hst h₂ => ?_
      subst hst
      obtain ⟨hstorage, rfl⟩ := Prod.mk.inj hs₂
      rw [← Except.ok.inj hstorage]
      refine alike_bind (alike_tryRunEvm h₂ hrun) fun result _ s₃ t₃ _ hres h₃ => ?_
      subst hres
      cases result with
      | error err => exact alike_pure rfl h₃
      | ok m =>
        by_cases hrev : m.reverted = true
        · simp only [if_pos hrev]
          exact alike_pure rfl h₃
        · simp only [if_neg hrev]
          refine alike_bind (alike_updateAccountStorage h₃ _ _) fun _ _ s₄ t₄ _ _ h₄ => ?_
          refine alike_bind (alike_persistLogs h₄ _ _ _ _) fun _ _ s₅ t₅ _ _ h₅ => ?_
          exact alike_bind (alike_moveValue h₅ _ _ _) fun _ _ s₆ t₆ _ _ h₆ => alike_pure rfl h₆

end EvmAdapter

end AbsoluteChain
