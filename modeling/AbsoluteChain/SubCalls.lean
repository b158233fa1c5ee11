import AbsoluteChain.Instructions
import AbsoluteChain.Reverts

/-!
# Failing callees

What the caller's interpreter makes of a callee that reverts or raises: the hook's
answer is pushed, charged and written to memory, or the exception goes through.
-/

namespace AbsoluteChain

open Python Actions Act Transactions Runs

/-! ## Instructions that call or create -/

section
variable {host : Host} {view : Tables → Callbacks} {hooks : Hooks} {ctx : EvmContext} {code : Bytes} {s : Vm} {m₁ : Machine}

theorem executeCall_run {mode : CallMode} {p : CallOperands × CallArgs}
    (hp : prepareCall host mode s.machine = (.ok p, m₁)) :
    executeCall host hooks ctx mode s =
      match hooks.call ctx p.2 s.db with
      | (.error f, db) => (.error f, { machine := m₁, db := db })
      | (.ok out, db) =>
        onMachine (finishCall host p.1 p.2.gas (mode.delegate || mode.callcode) out) { machine := m₁, db := db } := by
  unfold executeCall
  rw [bind_run, onMachine_run, hp]
  simp only [bind_run, onVmDb_run]
  rcases hooks.call ctx p.2 s.db with ⟨f | out, db⟩ <;> rfl

theorem executeCreate_run {salted : Bool} {a : CreateArgs} (hp : prepareCreate host salted s.machine = (.ok a, m₁)) :
    executeCreate host hooks ctx salted s =
      match hooks.create ctx a.initCode a.value a.salt s.db with
      | (.error f, db) => (.error f, { machine := m₁, db := db })
      | (.ok out, db) =>
        onMachine (chargeSubcallGas out.gasUsed >>= fun _ =>
          pushFlow (if ¬ out.success ∨ out.reverted ∨ out.address = "" then 0 else addrInt host out.address))
          { machine := m₁, db := db } := by
  unfold executeCreate
  rw [bind_run, onMachine_run, hp]
  simp only [bind_run, onVmDb_run]
  rcases hooks.create ctx a.initCode a.value a.salt s.db with ⟨f | out, db⟩ <;> rfl

theorem execOp_call {op : Op} {mode : CallMode} (hm : callMode op = some mode) :
    execOp host view hooks ctx code op s = executeCall host hooks ctx mode s := by
  cases op <;> simp only [callMode, reduceCtorEq, Option.some.injEq] at hm <;> subst hm <;> rfl

theorem prepareCall_ok {mode : CallMode} {m : Machine} {p : CallOperands × CallArgs}
    (hp : prepareCall host mode m = (.ok p, m₁)) :
    p.2.gas = callGas m₁ p.1 mode.delegate mode.static ∧ p.2.delegate = mode.delegate ∧ p.2.static = mode.static ∧
      p.2.callcode = mode.callcode := by
  unfold prepareCall at hp
  obtain ⟨a, t, -, hp⟩ := bind_ok.mp hp
  obtain ⟨data, t₁, -, hp⟩ := bind_ok.mp hp
  obtain ⟨gas, t₂, hgas, hp⟩ := bind_ok.mp hp
  obtain ⟨hg, rfl⟩ := Prod.mk.inj hgas
  obtain ⟨hr, rfl⟩ := Prod.mk.inj hp
  obtain rfl := Except.ok.inj hr
  exact ⟨(Except.ok.inj hg).symm, rfl, rfl, rfl⟩

theorem callGas_nonneg (m : Machine) (a : CallOperands) (delegate static : Bool) : 0 ≤ callGas m a delegate static := by
  have hremaining : 0 ≤ remainingGas m := le_max_left _ _
  have hcap : 0 ≤ callGasCap m a.gas := by
    have hmost : 0 ≤ remainingGas m * 63 / 64 := by omega
    unfold callGasCap
    by_cases hg : (a.gas : Int) ≤ 0
    · rw [if_pos hg]
      exact hmost
    · rw [if_neg hg]
      exact le_min (by omega) hmost
  unfold callGas
  dsimp only
  by_cases hv : 0 < a.value ∧ ¬ static = true ∧ ¬ delegate = true
  · rw [if_pos hv]
    exact le_min hremaining (by unfold callStipend; omega)
  · rw [if_neg hv]
    exact hcap

theorem callGas_le (m : Machine) (a : CallOperands) (delegate static : Bool) :
    callGas m a delegate static ≤ remainingGas m := by
  have hremaining : 0 ≤ remainingGas m := le_max_left _ _
  have hmost : remainingGas m * 63 / 64 ≤ remainingGas m := by omega
  have hcap : callGasCap m a.gas ≤ remainingGas m := by
    unfold callGasCap
    by_cases hg : (a.gas : Int) ≤ 0
    · rw [if_pos hg]
      exact hmost
    · rw [if_neg hg]
      exact le_trans (min_le_right _ _) hmost
  unfold callGas
  dsimp only
  by_cases hv : 0 < a.value ∧ ¬ static = true ∧ ¬ delegate = true
  · rw [if_pos hv]
    exact min_le_left _ _
  · rw [if_neg hv]
    exact hcap

theorem chargeSubcallGas_fits {gas : Int} {m : Machine} (h : 0 < gas → m.gasUsed + gas ≤ m.gasLimit) :
    chargeSubcallGas gas m = (.ok (), { m with gasUsed := m.gasUsed + max 0 gas }) := by
  unfold chargeSubcallGas
  by_cases hg : 0 < gas
  · rw [if_pos hg]
    dsimp only
    rw [if_neg (not_lt.mpr (h hg)), max_eq_right (le_of_lt hg)]
  · rw [if_neg hg, max_eq_left (not_lt.mp hg), add_zero]

theorem fits_of_callGas {m : Machine} {a : CallOperands} {delegate static : Bool} (used : Int)
    (h : 0 < min used (callGas m a delegate static)) :
    m.gasUsed + min used (callGas m a delegate static) ≤ m.gasLimit := by
  have hle := le_trans (min_le_right used _) (callGas_le m a delegate static)
  unfold remainingGas at hle
  omega

theorem finishCall_failed {a : CallOperands} {gas : Int} {adopt : Bool} {out : CallOut} {m : Machine}
    (hfits : 0 < min out.gasUsed gas → m.gasUsed + min out.gasUsed gas ≤ m.gasLimit)
    (hfail : ¬ (out.success = true ∧ ¬ out.reverted = true)) (harea : a.retOffset + a.retSize ≤ host.memoryLimit) :
    ∃ m', finishCall host a gas adopt out m = (.ok .next, m') ∧ m'.stack = 0 :: m.stack ∧
      m'.gasUsed = m.gasUsed + max 0 (min out.gasUsed gas) ∧
      m'.storage = if adopt = true then out.storage.getD m.storage else m.storage := by
  unfold finishCall
  rw [bind_run, chargeSubcallGas_fits hfits]
  simp only [bind_run, write_run, memExtend, if_neg (not_lt.mpr harea), memAssign, pushFlow, push, if_neg hfail, pure_run]
  exact ⟨_, rfl, rfl, rfl, rfl⟩

theorem finishCall_ok {a : CallOperands} {gas : Int} {adopt : Bool} {out : CallOut} {m m' : Machine} {flow : Flow}
    (h : finishCall host a gas adopt out m = (.ok flow, m')) :
    a.retOffset + a.retSize ≤ host.memoryLimit ∧
      m'.storage = (if adopt = true then out.storage.getD m.storage else m.storage) ∧
      m'.returnData = out.returnData ∧
      m'.memory = (padRight m.memory (a.retOffset + a.retSize)).take a.retOffset ++ out.returnData.take a.retSize ++
        (padRight m.memory (a.retOffset + a.retSize)).drop (a.retOffset + (out.returnData.take a.retSize).length) := by
  unfold finishCall at h
  obtain ⟨_, m₁, hcharge, h⟩ := bind_ok.mp h
  obtain ⟨rfl, -⟩ := chargeSubcallGas_ok hcharge
  by_cases harea : host.memoryLimit < a.retOffset + a.retSize
  · simp only [bind_run, write_run, memExtend, if_pos harea] at h
    cases h
  · simp only [bind_run, write_run, memExtend, if_neg harea, memAssign, pushFlow, push, pure_run] at h
    obtain ⟨-, rfl⟩ := Prod.mk.inj h
    exact ⟨not_lt.mp harea, rfl, rfl, rfl⟩

theorem finishCall_account {a : CallOperands} {gas : Int} {adopt : Bool} {out : CallOut} {m : Machine}
    (hfits : 0 < min out.gasUsed gas → m.gasUsed + min out.gasUsed gas ≤ m.gasLimit) :
    (finishCall host a gas adopt out m).2.gasUsed = m.gasUsed + max 0 (min out.gasUsed gas) ∧
      (finishCall host a gas adopt out m).2.storage = if adopt = true then out.storage.getD m.storage else m.storage := by
  unfold finishCall
  rw [bind_run, chargeSubcallGas_fits hfits]
  simp only [bind_run, write_run, memExtend]
  by_cases harea : host.memoryLimit < a.retOffset + a.retSize
  · rw [if_pos harea]
    exact ⟨rfl, rfl⟩
  · rw [if_neg harea]
    exact ⟨rfl, rfl⟩

end

namespace EvmAdapter

/-! ## What a caller asks for -/

structure Request where
  hook : HookCall
  /-- The gas that is forwarded; a constructor is always given the configured limit. -/
  gas : Int
  /-- The machine once the operands are taken. -/
  machine : Machine
  /-- Where the memory ends that the answer is written to. -/
  area : Nat

section
variable (e : EvmAdapter)

def requestCall (ctx : EvmContext) (mode : CallMode) (m : Machine) : Option Request :=
  match prepareCall e.host mode m with
  | (.ok p, m₁) => some { hook := .call ctx p.2, gas := p.2.gas, machine := m₁, area := p.1.retOffset + p.1.retSize }
  | _ => none

def requestCreate (ctx : EvmContext) (salted : Bool) (m : Machine) : Option Request :=
  match prepareCreate e.host salted m with
  | (.ok a, m₁) =>
    some { hook := .create ctx a.initCode a.value a.salt, gas := max 0 e.config.evmGasLimit, machine := m₁, area := 0 }
  | _ => none

def request (ctx : EvmContext) (m : Machine) : Op → Option Request
  | .create => e.requestCreate ctx false m
  | .create2 => e.requestCreate ctx true m
  | op => (callMode op).bind fun mode => e.requestCall ctx mode m

def failed : Except Fault Machine → Bool
  | .error _ => true
  | .ok m => m.reverted

def Node.Fails (x : Node) : Prop := (e.calleeResult x).any failed = true

instance (x : Node) : Decidable (x.Fails e) := inferInstanceAs (Decidable (_ = true))

/-- The caller goes on with 0 on its stack, is charged no more than it forwarded, and finds its storage
and all accounts as they were. -/
def Contained (depth : Nat) (ctx : EvmContext) (code : Bytes) (op : Op) (s : Vm) (r : Request) : Prop :=
  ∃ s', execOp e.host e.callbacks (e.hooks (depth + 1)) ctx code op s = (.ok .next, s') ∧
    s'.machine.stack = 0 :: r.machine.stack ∧ s'.machine.gasUsed ≤ s.machine.gasUsed + r.gas ∧
    s'.machine.storage = s.machine.storage ∧ s'.db.live.accounts = s.db.live.accounts

/-- The failure is one that the caller's interpreter deals with: an exception only of a constructor, and a
`REVERT` whose gas the caller can pay, whose answer fits into memory and which leaves the caller's storage. -/
def handles (s : Vm) (r : Request) : HookCall → Option (Except Fault Machine) → Prop
  | .call _ a, some (.ok m) =>
    r.area ≤ e.host.memoryLimit ∧ ((a.delegate || a.callcode) = true → m.storage = s.machine.storage)
  | .create _ _ _ _, some (.ok m) => 0 < m.gasUsed → s.machine.gasUsed + m.gasUsed ≤ s.machine.gasLimit
  | .create _ _ _ _, some (.error _) => True
  | _, _ => False

instance (s : Vm) (r : Request) : ∀ hook res, Decidable (e.handles s r hook res)
  | .call _ _, some (.ok _) => inferInstanceAs (Decidable (_ ∧ (_ → _)))
  | .create _ _ _ _, some (.ok _) => inferInstanceAs (Decidable (_ → _))
  | .create _ _ _ _, some (.error _) => isTrue trivial
  | .call _ _, some (.error _) | .call _ _, none | .create _ _ _ _, none | .selfDestruct _ _, _ => isFalse id

def Handled (x : Node) (s : Vm) (r : Request) : Prop := e.handles s r x.site.hook (e.calleeResult x)

instance (x : Node) (s : Vm) (r : Request) : Decidable (e.Handled x s r) := inferInstanceAs (Decidable (e.handles s r _ _))

end

variable {e : EvmAdapter} {depth : Nat} {ctx : EvmContext} {code : Bytes} {op : Op} {s : Vm} {r : Request}

theorem accounts_of_idle {x : Site} (h : ∀ y ∈ e.tree depth x, y.Idle e) :
    (x.hook.after (e.hooks depth) x.db).live.accounts = x.db.live.accounts := by
  have hrel := path_rel (R := fun a b : Db => b.live.accounts = a.live.accounts) (fun _ => rfl)
    (fun h₁ h₂ => h₂.trans h₁) (e.tree_path depth x) h
  exact hrel

/-- Taking operands costs nothing. -/
theorem inert_account : InertFrame (Frame.fixed fun m : Machine => (m.storage, m.gasUsed, m.gasLimit)) :=
  ⟨fun _ _ _ _ _ _ _ _ => rfl⟩

section call
variable {mode : CallMode} {p : CallOperands × CallArgs} {m₁ : Machine}

theorem execOp_raised {f : Fault} {fr : SubFrame} {db₁ : Db} (hm : callMode op = some mode)
    (hp : prepareCall e.host mode s.machine = (.ok p, m₁)) (hfr : e.callFrame s.db.live ctx p.2 = some fr)
    (hrun : e.runFrame (e.hooks depth) fr s.db = (.error f, db₁)) :
    execOp e.host e.callbacks (e.hooks (depth + 1)) ctx code op s = (.error f, { machine := m₁, db := db₁ }) := by
  have hhook : (e.hooks (depth + 1)).call ctx p.2 s.db = (.error f, db₁) := by
    refine (contractCallHook_run (e.hooks depth) ctx p.2 s.db).trans ?_
    rw [hfr]
    dsimp only
    rw [hrun]
  rw [execOp_call hm, executeCall_run hp, hhook]

theorem hook_returned {m : Machine} {a : CallArgs} {fr : SubFrame} {db db₁ : Db} (hfr : e.callFrame db.live ctx a = some fr)
    (hrun : e.runFrame (e.hooks depth) fr db = (.ok m, db₁)) :
    (e.hooks (depth + 1)).call ctx a db = (.ok (callOut a m), (e.concludeCall ctx a m db₁).2) := by
  refine (contractCallHook_run (e.hooks depth) ctx a db).trans ?_
  rw [hfr]
  dsimp only
  rw [hrun]

theorem execOp_returned {m : Machine} {fr : SubFrame} {db₁ : Db} (hm : callMode op = some mode)
    (hp : prepareCall e.host mode s.machine = (.ok p, m₁)) (hfr : e.callFrame s.db.live ctx p.2 = some fr)
    (hrun : e.runFrame (e.hooks depth) fr s.db = (.ok m, db₁)) :
    execOp e.host e.callbacks (e.hooks (depth + 1)) ctx code op s =
      onMachine (finishCall e.host p.1 p.2.gas (mode.delegate || mode.callcode) (callOut p.2 m))
        { machine := m₁, db := (e.concludeCall ctx p.2 m db₁).2 } := by
  rw [execOp_call hm, executeCall_run hp, hook_returned hfr hrun]

theorem calleeResult_call {a : CallArgs} {db : Db} {fr : SubFrame} (hfr : e.callFrame db.live ctx a = some fr) :
    e.calleeResult ⟨depth, ⟨.call ctx a, db⟩⟩ = some (e.runFrame (e.hooks depth) fr db).1 := by
  unfold calleeResult siteFrame
  dsimp only
  rw [hfr, Option.map_some]

end call

/-- The modes whose callee works on the caller's storage are not static. -/
theorem adopts_storage {mode : CallMode} (hm : callMode op = some mode)
    (ha : (mode.delegate || mode.callcode) = true) : mode.static = false := by
  cases op <;> simp only [callMode, reduceCtorEq, Option.some.injEq] at hm <;> subst hm <;> first | rfl | cases ha

section callee
variable {mode : CallMode} {p : CallOperands × CallArgs} {m m₁ : Machine} {fr : SubFrame} {db₁ : Db} {area : Nat}

theorem operands_kept (hp : prepareCall e.host mode s.machine = (.ok p, m₁)) :
    m₁.storage = s.machine.storage ∧ m₁.gasUsed = s.machine.gasUsed ∧ m₁.gasLimit = s.machine.gasLimit := by
  have hkept := keeps_apply (keeps_prepareCall inert_account mode) hp
  simpa only [Frame.fixed, Prod.mk.injEq] using hkept

/-- A callee that works on the caller's storage hands its own copy back. -/
theorem adopted_storage (hm : callMode op = some mode) (hp : prepareCall e.host mode s.machine = (.ok p, m₁))
    (ha : (mode.delegate || mode.callcode) = true) (t : Storage) : (callOut p.2 m).storage.getD t = m.storage := by
  obtain ⟨-, -, hstatic, -⟩ := prepareCall_ok hp
  unfold callOut
  dsimp only
  rw [hstatic, adopts_storage hm ha]
  rfl

/-- An exception of the callee goes through the caller. -/
theorem not_contained_raised {f : Fault} (hm : callMode op = some mode)
    (hp : prepareCall e.host mode s.machine = (.ok p, m₁)) (hfr : e.callFrame s.db.live ctx p.2 = some fr)
    (hrun : e.runFrame (e.hooks depth) fr s.db = (.error f, db₁)) : ¬ Contained e depth ctx code op s r := by
  rintro ⟨s', hexec, -⟩
  rw [execOp_raised hm hp hfr hrun] at hexec
  cases hexec

theorem handled_returned (hp : prepareCall e.host mode s.machine = (.ok p, m₁))
    (hfr : e.callFrame s.db.live ctx p.2 = some fr) (hrun : e.runFrame (e.hooks depth) fr s.db = (.ok m, db₁)) :
    Handled e ⟨depth, ⟨.call ctx p.2, s.db⟩⟩ s r ↔
      r.area ≤ e.host.memoryLimit ∧ ((mode.delegate || mode.callcode) = true → m.storage = s.machine.storage) := by
  obtain ⟨-, hdelegate, -, hcallcode⟩ := prepareCall_ok hp
  unfold Handled
  rw [calleeResult_call hfr, hrun]
  unfold handles
  dsimp only
  rw [hdelegate, hcallcode]

theorem handled_of_contained (hm : callMode op = some mode) (hp : prepareCall e.host mode s.machine = (.ok p, m₁))
    (hfr : e.callFrame s.db.live ctx p.2 = some fr) (hrun : e.runFrame (e.hooks depth) fr s.db = (.ok m, db₁))
    (hc : Contained e depth ctx code op s r) : p.1.retOffset + p.1.retSize ≤ e.host.memoryLimit ∧
      ((mode.delegate || mode.callcode) = true → m.storage = s.machine.storage) := by
  obtain ⟨s', hexec, -, -, hkept, -⟩ := hc
  rw [execOp_returned hm hp hfr hrun] at hexec
  obtain ⟨harea, hstored, -⟩ := finishCall_ok (onMachine_ok hexec).1
  refine ⟨harea, fun ha => ?_⟩
  rw [if_pos ha, adopted_storage hm hp ha] at hstored
  rw [← hstored, hkept]

theorem contained_of_handled (hm : callMode op = some mode) (hp : prepareCall e.host mode s.machine = (.ok p, m₁))
    (hfr : e.callFrame s.db.live ctx p.2 = some fr) (hrun : e.runFrame (e.hooks depth) fr s.db = (.ok m, db₁))
    (hreverted : m.reverted = true) (harea : p.1.retOffset + p.1.retSize ≤ e.host.memoryLimit)
    (hown : (mode.delegate || mode.callcode) = true → m.storage = s.machine.storage)
    (hidle : ∀ y ∈ e.tree (depth + 1) ⟨.call ctx p.2, s.db⟩, y.Idle e) :
    Contained e depth ctx code op s { hook := .call ctx p.2, gas := p.2.gas, machine := m₁, area } := by
  obtain ⟨hgas, -⟩ := prepareCall_ok hp
  obtain ⟨hstorage, hused, hlimit⟩ := operands_kept hp
  have hfail : ¬ ((callOut p.2 m).success = true ∧ ¬ (callOut p.2 m).reverted = true) := fun h => h.2 hreverted
  have hfits : 0 < min (callOut p.2 m).gasUsed p.2.gas →
      m₁.gasUsed + min (callOut p.2 m).gasUsed p.2.gas ≤ m₁.gasLimit := by
    rw [hgas]
    exact fits_of_callGas _
  obtain ⟨m', hfinish, hstack, hcharged, hstored⟩ :=
    @finishCall_failed _ _ _ (mode.delegate || mode.callcode) _ _ hfits hfail harea
  have hexec := @execOp_returned e depth ctx code op s mode p m₁ m fr db₁ hm hp hfr hrun
  refine ⟨{ machine := m', db := (e.concludeCall ctx p.2 m db₁).2 }, ?_, hstack, ?_, ?_, ?_⟩
  · rw [hexec, onMachine_run]
    dsimp only
    rw [hfinish]
  -- no more gas than was forwarded
  · dsimp only
    rw [hcharged, hused]
    have hnonneg : 0 ≤ p.2.gas := by
      rw [hgas]
      exact callGas_nonneg _ _ _ _
    exact Int.add_le_add_left (max_le hnonneg (min_le_right _ _)) _
  -- the caller's storage
  · dsimp only
    rw [hstored]
    by_cases ha : (mode.delegate || mode.callcode) = true
    · rw [if_pos ha, adopted_storage hm hp ha, hown ha]
    · rw [if_neg ha, hstorage]
  -- the accounts
  · have hkept := accounts_of_idle hidle
    unfold HookCall.after at hkept
    dsimp only at hkept
    rwa [hook_returned hfr hrun] at hkept

end callee

theorem contained_call {mode : CallMode} (hm : callMode op = some mode) (hr : e.requestCall ctx mode s.machine = some r)
    (hf : (Node.mk depth ⟨r.hook, s.db⟩).Fails e) :
    (Contained e depth ctx code op s r → Handled e ⟨depth, ⟨r.hook, s.db⟩⟩ s r) ∧
      (Handled e ⟨depth, ⟨r.hook, s.db⟩⟩ s r → (∀ y ∈ e.tree (depth + 1) ⟨r.hook, s.db⟩, y.Idle e) →
        Contained e depth ctx code op s r) := by
  unfold requestCall at hr
  rcases hp : prepareCall e.host mode s.machine with ⟨f | p, m₁⟩
  · rw [hp] at hr
    cases hr
  rw [hp] at hr
  obtain rfl := Option.some.inj hr
  unfold Node.Fails at hf
  dsimp only at hf
  cases hfr : e.callFrame s.db.live ctx p.2 with
  | none =>
    unfold calleeResult siteFrame at hf
    dsimp only at hf
    rw [hfr] at hf
    cases hf
  | some fr =>
    rw [calleeResult_call hfr] at hf
    rcases hrun : e.runFrame (e.hooks depth) fr s.db with ⟨f | m, db₁⟩
    · refine ⟨fun hc => absurd hc (not_contained_raised hm hp hfr hrun), fun hh => ?_⟩
      unfold Handled at hh
      rw [calleeResult_call hfr, hrun] at hh
      exact hh.elim
    · have hreverted : m.reverted = true := by
        rw [hrun] at hf
        exact hf
      rw [handled_returned hp hfr hrun]
      exact ⟨handled_of_contained hm hp hfr hrun, fun hh hidle =>
        contained_of_handled hm hp hfr hrun hreverted hh.1 hh.2 hidle⟩

theorem hook_createFailed {initCode : Bytes} {value : Nat} {salt : Option Nat} {db : Db}
    (hf : (Node.mk depth ⟨.create ctx initCode value salt, db⟩).Fails e) :
    ∃ used : Int, used ≤ max 0 e.config.evmGasLimit ∧
      (e.hooks (depth + 1)).create ctx initCode value salt db =
        (.ok (failedCreate used), e.outer ⟨depth, ⟨.create ctx initCode value salt, db⟩⟩) ∧
      ∀ s r, Handled e ⟨depth, ⟨.create ctx initCode value salt, db⟩⟩ s r ↔
        (0 < used → s.machine.gasUsed + used ≤ s.machine.gasLimit) := by
  have hhook := contractCreateHook_run (e := e) (e.hooks depth) ctx initCode value salt db
  have hhandled : ∀ s r, Handled e ⟨depth, ⟨.create ctx initCode value salt, db⟩⟩ s r =
      match e.calleeResult ⟨depth, ⟨.create ctx initCode value salt, db⟩⟩ with
      | some (.ok m) => 0 < m.gasUsed → s.machine.gasUsed + m.gasUsed ≤ s.machine.gasLimit
      | some (.error _) => True
      | none => False := by
    intro s r
    unfold Handled handles
    rcases e.calleeResult ⟨depth, ⟨.create ctx initCode value salt, db⟩⟩ with _ | f | m <;> rfl
  have hres : e.calleeResult ⟨depth, ⟨.create ctx initCode value salt, db⟩⟩ =
      (e.createFrame db.live ctx initCode value salt).map fun fr => (e.runFrame (e.hooks depth) fr db).1 := rfl
  unfold Node.Fails at hf
  rw [hres] at hf
  simp only [hhandled]
  rw [hres]
  cases hfr : e.createFrame db.live ctx initCode value salt with
  | none =>
    rw [hfr] at hf
    cases hf
  | some fr =>
    have hlimit : fr.gas = e.config.evmGasLimit := by
      unfold createFrame at hfr
      by_cases hd : createDeployer ctx = ""
      · rw [if_pos hd] at hfr
        cases hfr
      · rw [if_neg hd] at hfr
        obtain rfl := Option.some.inj hfr
        rfl
    rw [hfr] at hhook hf
    dsimp only at hhook
    -- an exception costs nothing, and a revert what the constructor used
    rcases hrun : e.runFrame (e.hooks depth) fr db with ⟨f | m, db₁⟩
    · rw [hrun] at hhook
      refine ⟨0, le_max_left _ _, ?_, fun s r => ?_⟩
      · have hout : (e.contractCreateHook (e.hooks depth) ctx initCode value salt db).1 = .ok (failedCreate 0) :=
          congrArg Prod.fst hhook
        exact Prod.ext hout rfl
      · rw [Option.map_some, hrun]
        exact iff_of_true trivial fun h => absurd h (lt_irrefl _)
    · rw [hrun] at hhook
      rw [Option.map_some, hrun] at hf
      have hreverted : m.reverted = true := hf
      have hgas := (gas_executeBytecode hrun).2
      rw [hlimit] at hgas
      refine ⟨m.gasUsed, hgas, ?_, fun s r => ?_⟩
      · have hout : (e.contractCreateHook (e.hooks depth) ctx initCode value salt db).1 = .ok (failedCreate m.gasUsed) := by
          refine (congrArg Prod.fst hhook).trans ?_
          exact congrArg Except.ok (if_pos hreverted)
        exact Prod.ext hout rfl
      · rw [Option.map_some, hrun]

theorem contained_create {salted : Bool}
    (hop : ∀ s, execOp e.host e.callbacks (e.hooks (depth + 1)) ctx code op s =
      executeCreate e.host (e.hooks (depth + 1)) ctx salted s)
    (hr : e.requestCreate ctx salted s.machine = some r) (hf : (Node.mk depth ⟨r.hook, s.db⟩).Fails e) :
    (Contained e depth ctx code op s r → Handled e ⟨depth, ⟨r.hook, s.db⟩⟩ s r) ∧
      (Handled e ⟨depth, ⟨r.hook, s.db⟩⟩ s r → (∀ y ∈ e.tree (depth + 1) ⟨r.hook, s.db⟩, y.Idle e) →
        Contained e depth ctx code op s r) := by
  unfold requestCreate at hr
  rcases hp : prepareCreate e.host salted s.machine with ⟨f | a, m₁⟩
  · rw [hp] at hr
    cases hr
  rw [hp] at hr
  obtain rfl := Option.some.inj hr
  obtain ⟨hstorage, hused, hlimit⟩ : m₁.storage = s.machine.storage ∧ m₁.gasUsed = s.machine.gasUsed ∧
      m₁.gasLimit = s.machine.gasLimit := by
    have hkept := keeps_apply (keeps_prepareCreate inert_account salted) hp
    simpa only [Frame.fixed, Prod.mk.injEq] using hkept
  obtain ⟨used, hwithin, hhook, hhandled⟩ := hook_createFailed hf
  have hexec := (hop s).trans (executeCreate_run hp)
  rw [hhook] at hexec
  dsimp only [failedCreate] at hexec
  rw [hhandled]
  constructor
  · rintro ⟨s', hcontained, -⟩ hpos
    rw [hexec] at hcontained
    obtain ⟨_, m₂, hcharge, -⟩ := bind_ok.mp (onMachine_ok hcontained).1
    by_contra hover
    unfold chargeSubcallGas at hcharge
    rw [if_pos hpos] at hcharge
    dsimp only at hcharge
    rw [hused, hlimit, if_pos (not_le.mp hover)] at hcharge
    cases hcharge
  · intro hfits hidle
    have hcharge : chargeSubcallGas used m₁ = (.ok (), { m₁ with gasUsed := m₁.gasUsed + max 0 used }) := by
      apply chargeSubcallGas_fits
      rw [hused, hlimit]
      exact hfits
    refine ⟨_, hexec.trans (by rw [onMachine_run, bind_of_ok hcharge]; rfl), rfl, ?_, hstorage, ?_⟩
    · change m₁.gasUsed + max 0 used ≤ s.machine.gasUsed + max 0 e.config.evmGasLimit
      rw [hused]
      exact Int.add_le_add_left (max_le (le_max_left _ _) hwithin) _
    · exact accounts_of_idle hidle

/-- The caller of a failing callee goes on as if nothing had happened only if the failure is handled, and
then it does when no hook of the callee wrote to an account. -/
theorem failure_contained (hr : e.request ctx s.machine op = some r) (hf : (Node.mk depth ⟨r.hook, s.db⟩).Fails e) :
    (Contained e depth ctx code op s r → Handled e ⟨depth, ⟨r.hook, s.db⟩⟩ s r) ∧
      (Handled e ⟨depth, ⟨r.hook, s.db⟩⟩ s r → (∀ y ∈ e.tree (depth + 1) ⟨r.hook, s.db⟩, y.Idle e) →
        Contained e depth ctx code op s r) := by
  cases op with
  | create => exact contained_create (fun _ => rfl) hr hf
  | create2 => exact contained_create (fun _ => rfl) hr hf
  | call => exact contained_call rfl hr hf
  | callCode => exact contained_call rfl hr hf
  | delegateCall => exact contained_call rfl hr hf
  | staticCall => exact contained_call rfl hr hf
  | _ => cases hr

/-! ## Runs -/

def callingEleven (callee : Bytes) : Vm :=
  { machine := { Machine.start 100000 [] with stack := [65535, 11, 0, 0, 0, 0, 0] }, db := contracts [(eleven, callee)] }

def atA : EvmContext := plain.makeContext Tables.empty "u" "a" [] 0

/-- A plain callee that reverts. -/
theorem failure_contained_reverting :
    ∃ r, plain.request atA (callingEleven reverting).machine .call = some r ∧
      Contained plain 0 atA [] .call (callingEleven reverting) r := by
  have hany : ∀ s : Vm, (plain.request atA s.machine .call).any (fun r =>
      decide ((Node.mk 0 ⟨r.hook, s.db⟩).Fails plain ∧ Handled plain ⟨0, ⟨r.hook, s.db⟩⟩ s r ∧
        ∀ y ∈ plain.tree 1 ⟨r.hook, s.db⟩, y.Idle plain)) = true →
      ∃ r, plain.request atA s.machine .call = some r ∧ Contained plain 0 atA [] .call s r := by
    intro s h
    cases hr : plain.request atA s.machine .call with
    | none =>
      rw [hr] at h
      cases h
    | some r =>
      rw [hr] at h
      obtain ⟨hf, hh, hidle⟩ := of_decide_eq_true h
      exact ⟨r, rfl, (failure_contained hr hf).2 hh hidle⟩
  apply hany
  decide +kernel

/-- A callee with an invalid opcode: the exception ends the caller too. -/
theorem failure_not_contained :
    ∃ r, plain.request atA (callingEleven [0xfe]).machine .call = some r ∧
      (Node.mk 0 ⟨r.hook, (callingEleven [0xfe]).db⟩).Fails plain ∧
      ¬ Contained plain 0 atA [] .call (callingEleven [0xfe]) r := by
  have hany : ∀ s : Vm, (plain.request atA s.machine .call).any (fun r =>
      decide ((Node.mk 0 ⟨r.hook, s.db⟩).Fails plain)) = true →
      (execOp plain.host plain.callbacks (plain.hooks 1) atA [] .call s).1.toOption.isSome = false →
      ∃ r, plain.request atA s.machine .call = some r ∧ (Node.mk 0 ⟨r.hook, s.db⟩).Fails plain ∧
        ¬ Contained plain 0 atA [] .call s r := by
    intro s h hraised
    cases hr : plain.request atA s.machine .call with
    | none =>
      rw [hr] at h
      cases h
    | some r =>
      rw [hr] at h
      refine ⟨r, rfl, of_decide_eq_true h, ?_⟩
      rintro ⟨s', hexec, -⟩
      rw [hexec] at hraised
      cases hraised
  apply hany
  · decide +kernel
  · decide +kernel

end EvmAdapter

end AbsoluteChain
