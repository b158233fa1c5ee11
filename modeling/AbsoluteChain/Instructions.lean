import AbsoluteChain.EvmSound

/-!
# What instructions leave alone

A frame of the machine that survives every stack, memory and control write and every
charge that fits survives every instruction that stays within the machine, but for
`SSTORE`. Two frames are used: the storage, and the gas.
-/

namespace AbsoluteChain

open Python Actions Act

structure InertFrame (F : Frame Machine) : Prop where
  inert : ∀ (m : Machine) (stack : List Nat) (memory : Bytes) (pc : Nat) (running reverted : Bool) (returnData : Bytes)
    (logs : List EvmLog), F.rel m { m with stack, memory, pc, running, reverted, returnData, logs }

/-- A frame that the parts of an instruction respect. -/
structure MachineFrame (F : Frame Machine) : Prop extends InertFrame F where
  charge : ∀ (m : Machine) (cost : Int), 0 ≤ cost → m.gasUsed + cost ≤ m.gasLimit →
    F.rel m { m with gasUsed := m.gasUsed + cost }

section
variable {F : Frame Machine} (hF : InertFrame F) {host : Host} {code : Bytes}
include hF

theorem keeps_push (v : Int) : Keeps F (push v) := keeps_write fun m => hF.inert m _ m.memory m.pc _ _ _ _

theorem keeps_pop : Keeps F pop := by
  intro m
  unfold pop
  cases m.stack with
  | nil => exact F.refl m
  | cons v t => exact hF.inert m t m.memory m.pc m.running m.reverted m.returnData m.logs

theorem keeps_memExtend (offset size : Nat) : Keeps F (memExtend host offset size) := by
  intro m
  unfold memExtend
  by_cases h : host.memoryLimit < offset + size
  · rw [if_pos h]
    exact F.refl m
  · rw [if_neg h]
    exact hF.inert m m.stack _ m.pc m.running m.reverted m.returnData m.logs

theorem keeps_memAssign (offset size : Nat) (chunk : Bytes) : Keeps F (memAssign offset size chunk) :=
  keeps_write fun m => hF.inert m m.stack _ m.pc m.running m.reverted m.returnData m.logs

theorem keeps_memSlice (offset size : Nat) : Keeps F (memSlice host offset size) :=
  keeps_bind (keeps_memExtend hF offset size) fun _ => keeps_read _

theorem keeps_memCopy (source : Bytes) : Keeps F (memCopy host source) :=
  keeps_bind (keeps_pop hF) fun _ => keeps_bind (keeps_pop hF) fun _ => keeps_bind (keeps_pop hF) fun _ =>
    keeps_bind (keeps_memExtend hF _ _) fun _ => keeps_memAssign hF _ _ _

theorem keeps_pushFlow (v : Int) : Keeps F (pushFlow v) := keeps_bind (keeps_push hF v) fun _ => keeps_pure _

theorem keeps_popPush (f : Nat → Int) : Keeps F (pop >>= fun a => pushFlow (f a)) :=
  keeps_bind (keeps_pop hF) fun a => keeps_pushFlow hF (f a)

theorem keeps_binary (f : Nat → Nat → Int) : Keeps F (binary f) :=
  keeps_bind (keeps_pop hF) fun a => keeps_bind (keeps_pop hF) fun b => keeps_pushFlow hF (f a b)

theorem keeps_popTopics (n : Nat) : Keeps F (popTopics n) := by
  induction n with
  | zero => exact keeps_pure _
  | succ n ih => exact keeps_bind (keeps_pop hF) fun _ => keeps_bind ih fun _ => keeps_pure _

omit hF in
theorem keeps_jumpTo (dest : Nat) : Keeps F (jumpTo code dest) := keeps_ite (fun _ => keeps_pure _) fun _ => keeps_raise _

theorem keeps_haltWith (reverted : Bool) : Keeps F (haltWith host reverted) :=
  keeps_bind (keeps_pop hF) fun _ => keeps_bind (keeps_pop hF) fun _ => keeps_bind (keeps_memSlice hF _ _) fun data =>
    keeps_bind (keeps_write fun m => hF.inert m m.stack m.memory m.pc m.running reverted data m.logs) fun _ => keeps_pure _

theorem keeps_popCall (withValue : Bool) : Keeps F (popCall withValue) := by
  have hareas : ∀ gas toWord value : Nat, Keeps F (do
      let argsOffset ← pop
      let argsSize ← pop
      let retOffset ← pop
      let retSize ← pop
      pure ({ gas, toWord, value, argsOffset, argsSize, retOffset, retSize } : CallOperands)) := by
    intro gas toWord value
    refine keeps_bind (keeps_pop hF) fun _ => keeps_bind (keeps_pop hF) fun _ => ?_
    exact keeps_bind (keeps_pop hF) fun _ => keeps_bind (keeps_pop hF) fun _ => keeps_pure _
  refine keeps_bind (keeps_pop hF) fun gas => keeps_bind (keeps_pop hF) fun toWord => ?_
  cases withValue with
  | true => exact keeps_bind (keeps_pop hF) fun value => hareas gas toWord value
  | false => exact keeps_bind (keeps_pure 0) fun value => hareas gas toWord value

theorem keeps_prepareCall (mode : CallMode) : Keeps F (prepareCall host mode) :=
  keeps_bind (keeps_popCall hF _) fun _ => keeps_bind (keeps_memSlice hF _ _) fun _ => keeps_bind (keeps_read _) fun _ =>
    keeps_pure _

theorem keeps_prepareCreate (salted : Bool) : Keeps F (prepareCreate host salted) := by
  have hrest : ∀ salt : Option Nat, Keeps F (do
      let size ← pop
      let offset ← pop
      let value ← pop
      let initCode ← memSlice host offset size
      pure ({ initCode, value, salt } : CreateArgs)) := by
    intro salt
    refine keeps_bind (keeps_pop hF) fun _ => keeps_bind (keeps_pop hF) fun _ => ?_
    exact keeps_bind (keeps_pop hF) fun _ => keeps_bind (keeps_memSlice hF _ _) fun _ => keeps_pure _
  cases salted with
  | true => exact keeps_bind (keeps_bind (keeps_pop hF) fun s => keeps_pure (some s)) fun salt => hrest salt
  | false => exact keeps_bind (keeps_pure none) fun salt => hrest salt

end

section
variable {F : Frame Machine} (hF : MachineFrame F) {host : Host} {code : Bytes}
include hF

theorem keeps_consumeGas {cost : Int} (hc : 0 ≤ cost) : Keeps F (consumeGas cost) := by
  intro m
  unfold consumeGas
  by_cases h : m.gasLimit < m.gasUsed + cost
  · rw [if_pos h]
    exact F.refl m
  · rw [if_neg h]
    exact hF.charge m cost hc (not_lt.mp h)

theorem keeps_machineOp (cb : Callbacks) (ctx : EvmContext) {op : Op} (hop : op ≠ .sstore) :
    Keeps F (machineOp host cb ctx code op) := by
  cases op with
  | sstore => exact absurd rfl hop
  | stop | jumpDest => exact keeps_pure _
  | add | mul | sub | div | mod | and | or | xor | eq | lt | gt | byte | shr => exact keeps_binary hF.toInertFrame _
  | address | origin | caller | callValue | callDataSize | codeSize | timestamp | number | chainId | push0 =>
    exact keeps_pushFlow hF.toInertFrame _
  | isZero | not | balance | callDataLoad | extCodeSize => exact keeps_popPush hF.toInertFrame _
  | returnDataSize | gasLimit | gas => exact keeps_bind (keeps_read _) fun _ => keeps_pushFlow hF.toInertFrame _
  | callDataCopy | codeCopy => exact keeps_bind (keeps_memCopy hF.toInertFrame _) fun _ => keeps_pure _
  | returnDataCopy => exact keeps_bind (keeps_read _) fun _ => keeps_bind (keeps_memCopy hF.toInertFrame _) fun _ => keeps_pure _
  | push n =>
    refine keeps_bind (keeps_read _) fun _ => keeps_bind (keeps_push hF.toInertFrame _) fun _ => keeps_bind ?_ fun _ => keeps_pure _
    exact keeps_write fun m => hF.toInertFrame.inert m m.stack m.memory (m.pc + n) m.running m.reverted m.returnData m.logs
  | shl =>
    refine keeps_bind (keeps_pop hF.toInertFrame) fun shift => keeps_bind (keeps_pop hF.toInertFrame) fun v => ?_
    exact keeps_ite (fun _ => keeps_raise _) fun _ => keeps_pushFlow hF.toInertFrame _
  | sha3 =>
    refine keeps_bind (keeps_pop hF.toInertFrame) fun _ => keeps_bind (keeps_pop hF.toInertFrame) fun _ => ?_
    exact keeps_bind (keeps_memSlice hF.toInertFrame _ _) fun _ => keeps_pushFlow hF.toInertFrame _
  | extCodeCopy =>
    refine keeps_bind (keeps_pop hF.toInertFrame) fun _ => keeps_bind (keeps_pop hF.toInertFrame) fun _ => keeps_bind (keeps_pop hF.toInertFrame) fun _ => ?_
    refine keeps_bind (keeps_pop hF.toInertFrame) fun _ => keeps_bind (keeps_memExtend hF.toInertFrame _ _) fun _ => ?_
    exact keeps_bind (keeps_memAssign hF.toInertFrame _ _ _) fun _ => keeps_pure _
  | log n =>
    refine keeps_bind (keeps_popTopics hF.toInertFrame n) fun topics => keeps_bind (keeps_pop hF.toInertFrame) fun size => ?_
    refine keeps_bind (keeps_pop hF.toInertFrame) fun _ => keeps_bind (keeps_consumeGas hF (by positivity)) fun _ => ?_
    refine keeps_bind (keeps_memSlice hF.toInertFrame _ _) fun data => keeps_bind ?_ fun _ => keeps_pure _
    exact keeps_write fun m => hF.toInertFrame.inert m m.stack m.memory m.pc m.running m.reverted m.returnData _
  | blockHash =>
    refine keeps_bind (keeps_pop hF.toInertFrame) fun height => ?_
    cases cb.blockHashOf height with
    | ok h => exact keeps_pushFlow hF.toInertFrame _
    | error f => exact keeps_raise _
  | pop => exact keeps_bind (keeps_pop hF.toInertFrame) fun _ => keeps_pure _
  | mload => exact keeps_bind (keeps_pop hF.toInertFrame) fun _ => keeps_bind (keeps_memSlice hF.toInertFrame _ _) fun _ => keeps_pushFlow hF.toInertFrame _
  | mstore | mstore8 =>
    refine keeps_bind (keeps_pop hF.toInertFrame) fun _ => keeps_bind (keeps_pop hF.toInertFrame) fun _ => ?_
    exact keeps_bind (keeps_memExtend hF.toInertFrame _ _) fun _ => keeps_bind (keeps_memAssign hF.toInertFrame _ _ _) fun _ => keeps_pure _
  | sload => exact keeps_bind (keeps_pop hF.toInertFrame) fun _ => keeps_bind (keeps_read _) fun _ => keeps_pushFlow hF.toInertFrame _
  | jump => exact keeps_bind (keeps_pop hF.toInertFrame) fun _ => keeps_jumpTo _
  | jumpi =>
    refine keeps_bind (keeps_pop hF.toInertFrame) fun _ => keeps_bind (keeps_pop hF.toInertFrame) fun _ => ?_
    exact keeps_ite (fun _ => keeps_jumpTo _) fun _ => keeps_pure _
  | dup n =>
    refine keeps_bind (keeps_read _) fun m => ?_
    cases m.stack[n - 1]? with
    | some v => exact keeps_pushFlow hF.toInertFrame _
    | none => exact keeps_raise _
  | swap n =>
    refine keeps_bind (keeps_read _) fun m => ?_
    cases m.stack[0]? with
    | none => exact keeps_raise _
    | some a =>
      cases m.stack[n]? with
      | none => exact keeps_raise _
      | some b =>
        refine keeps_bind ?_ fun _ => keeps_pure _
        exact keeps_write fun m => hF.toInertFrame.inert m _ m.memory m.pc m.running m.reverted m.returnData m.logs
  | «return» | revert => exact keeps_haltWith hF.toInertFrame _
  | invalid | unsupported b => exact keeps_raise _
  | create | create2 | callCode | call | delegateCall | staticCall | selfDestruct => exact keeps_raise _

theorem keeps_chargeOp (op : Op) : Keeps F (chargeOp op) := by
  have hcost : ∀ op, 0 ≤ gasCost op := by
    intro op
    cases op <;> simp [gasCost]
  unfold chargeOp
  cases op with
  | log n => exact keeps_pure _
  | _ => exact keeps_consumeGas hF (hcost _)

end

/-! ## The loop -/

def Vm.goto (s : Vm) (pc : Nat) : Vm := { s with machine := { s.machine with pc := pc } }

section
variable {host : Host} {view : Tables → Callbacks} {hooks : Hooks} {ctx : EvmContext} {code : Bytes}

theorem onMachine_run {α : Type} (m : MachineM α) (s : Vm) :
    onMachine m s = ((m s.machine).1, { s with machine := (m s.machine).2 }) := rfl

theorem onVmDb_run {α : Type} (m : Act Fault Db α) (s : Vm) : onVmDb m s = ((m s.db).1, { s with db := (m s.db).2 }) := rfl

theorem runLoop_succ (fuel : Nat) (s : Vm) :
    runLoop host view hooks ctx code (fuel + 1) s =
      match code[s.machine.pc]? with
      | none => (.ok (), s)
      | some b =>
        match onMachine (chargeOp (decode b)) s with
        | (.error f, s₁) => (.error f, s₁)
        | (.ok _, s₁) =>
          match execOp host view hooks ctx code (decode b) s₁ with
          | (.error f, s₂) => (.error f, s₂)
          | (.ok .next, s₂) => runLoop host view hooks ctx code fuel (s₂.goto (s₂.machine.pc + 1))
          | (.ok (.jump dest), s₂) => runLoop host view hooks ctx code fuel (s₂.goto dest)
          | (.ok .halt, s₂) => (.ok (), { s₂ with machine := { s₂.machine with running := false } }) := by
  conv_lhs => unfold runLoop
  rw [bind_run, onMachine_run]
  simp only [read_run, id]
  cases code[s.machine.pc]? with
  | none => rfl
  | some b =>
    simp only [bind_run]
    rcases onMachine (chargeOp (decode b)) s with ⟨f | u, s₁⟩
    · rfl
    · dsimp only
      rcases execOp host view hooks ctx code (decode b) s₁ with ⟨f | flow, s₂⟩
      · rfl
      · cases flow <;> rfl

end

/-! ## Storage -/

theorem machineFrame_storage : MachineFrame (Frame.fixed Machine.storage) where
  inert _ _ _ _ _ _ _ _ := rfl
  charge _ _ _ _ := rfl

/-! ## Gas -/

def gasFrame : Frame Machine where
  rel m m' := m'.gasLimit = m.gasLimit ∧ m.gasUsed ≤ m'.gasUsed ∧
    (m.gasUsed ≤ max 0 m.gasLimit → m'.gasUsed ≤ max 0 m'.gasLimit)
  refl _ := ⟨rfl, le_refl _, id⟩
  trans h₁ h₂ := ⟨h₂.1.trans h₁.1, le_trans h₁.2.1 h₂.2.1, fun h => h₂.2.2 (h₁.2.2 h)⟩

theorem machineFrame_gas : MachineFrame gasFrame where
  inert _ _ _ _ _ _ _ _ := gasFrame.refl _
  charge _ _ hc hfits := ⟨rfl, Int.le_add_of_nonneg_right hc, fun _ => le_trans hfits (le_max_right _ _)⟩

theorem keeps_gas_machineOp (host : Host) (cb : Callbacks) (ctx : EvmContext) (code : Bytes) (op : Op) :
    Keeps gasFrame (machineOp host cb ctx code op) := by
  by_cases hop : op = .sstore
  · rw [hop]
    refine keeps_bind (keeps_pop machineFrame_gas.toInertFrame) fun key => keeps_bind (keeps_pop machineFrame_gas.toInertFrame) fun value => ?_
    exact keeps_bind (keeps_write fun m => gasFrame.refl _) fun _ => keeps_pure _
  · exact keeps_machineOp machineFrame_gas cb ctx hop

/-- A charge for a callee either raises or fits. -/
theorem chargeSubcallGas_ok {gas : Int} {m m' : Machine} (h : chargeSubcallGas gas m = (.ok (), m')) :
    m' = { m with gasUsed := m.gasUsed + max 0 gas } ∧ gasFrame.rel m m' := by
  unfold chargeSubcallGas at h
  by_cases hg : 0 < gas
  · rw [if_pos hg] at h
    dsimp only at h
    by_cases hl : m.gasLimit < m.gasUsed + gas
    · rw [if_pos hl] at h
      cases h
    · rw [if_neg hl] at h
      obtain ⟨-, rfl⟩ := Prod.mk.inj h
      refine ⟨by rw [max_eq_right (le_of_lt hg)], rfl, ?_, fun _ => ?_⟩
      · exact Int.le_add_of_nonneg_right (le_of_lt hg)
      · exact le_trans (not_lt.mp hl) (le_max_right _ _)
  · rw [if_neg hg] at h
    obtain ⟨-, rfl⟩ := Prod.mk.inj h
    refine ⟨?_, gasFrame.refl _⟩
    rw [max_eq_left (not_lt.mp hg), add_zero]

theorem gas_finishCall {host : Host} {a : CallOperands} {gas : Int} {adopt : Bool} {out : CallOut} {m m' : Machine}
    {flow : Flow} (h : finishCall host a gas adopt out m = (.ok flow, m')) : gasFrame.rel m m' := by
  unfold finishCall at h
  obtain ⟨_, m₁, hcharge, hrest⟩ := bind_ok.mp h
  refine gasFrame.trans (chargeSubcallGas_ok hcharge).2 (keeps_apply ?_ hrest)
  refine keeps_bind (keeps_write fun m => gasFrame.refl _) fun _ => ?_
  refine keeps_bind (keeps_memExtend machineFrame_gas.toInertFrame _ _) fun _ => ?_
  exact keeps_bind (keeps_memAssign machineFrame_gas.toInertFrame _ _ _) fun _ => keeps_pushFlow machineFrame_gas.toInertFrame _

section
variable {host : Host} {view : Tables → Callbacks} {hooks : Hooks} {ctx : EvmContext} {code : Bytes}

theorem onMachine_ok {α : Type} {m : MachineM α} {s s' : Vm} {a : α} (h : onMachine m s = (.ok a, s')) :
    m s.machine = (.ok a, s'.machine) ∧ s'.db = s.db := by
  obtain ⟨hr, rfl⟩ := Prod.mk.inj h
  exact ⟨Prod.ext hr rfl, rfl⟩

theorem onVmDb_ok {α : Type} {m : Act Fault Db α} {s s' : Vm} {a : α} (h : onVmDb m s = (.ok a, s')) :
    m s.db = (.ok a, s'.db) ∧ s'.machine = s.machine := by
  obtain ⟨hr, rfl⟩ := Prod.mk.inj h
  exact ⟨Prod.ext hr rfl, rfl⟩

theorem gas_executeCreate {salted : Bool} {s s' : Vm} {flow : Flow}
    (h : executeCreate host hooks ctx salted s = (.ok flow, s')) : gasFrame.rel s.machine s'.machine := by
  unfold executeCreate at h
  obtain ⟨a, s₁, hprepare, h⟩ := bind_ok.mp h
  obtain ⟨out, s₂, hhook, h⟩ := bind_ok.mp h
  have hbefore := keeps_apply (keeps_prepareCreate machineFrame_gas.toInertFrame salted) (onMachine_ok hprepare).1
  obtain ⟨_, m₃, hcharge, hpush⟩ := bind_ok.mp (onMachine_ok h).1
  have hafter := keeps_apply (keeps_pushFlow machineFrame_gas.toInertFrame _) hpush
  rw [(onVmDb_ok hhook).2] at hcharge
  exact gasFrame.trans hbefore (gasFrame.trans (chargeSubcallGas_ok hcharge).2 hafter)

theorem gas_executeCall {mode : CallMode} {s s' : Vm} {flow : Flow}
    (h : executeCall host hooks ctx mode s = (.ok flow, s')) : gasFrame.rel s.machine s'.machine := by
  unfold executeCall at h
  obtain ⟨p, s₁, hprepare, h⟩ := bind_ok.mp h
  obtain ⟨out, s₂, hhook, h⟩ := bind_ok.mp h
  have hbefore := keeps_apply (keeps_prepareCall machineFrame_gas.toInertFrame mode) (onMachine_ok hprepare).1
  have hafter := gas_finishCall (onMachine_ok h).1
  rw [(onVmDb_ok hhook).2] at hafter
  exact gasFrame.trans hbefore hafter

theorem gas_execOp {op : Op} {s s' : Vm} {flow : Flow} (h : execOp host view hooks ctx code op s = (.ok flow, s')) :
    gasFrame.rel s.machine s'.machine := by
  have hmachine : ∀ {op : Op}, (onVmDb (query id) >>= fun t => onMachine (machineOp host (view t) ctx code op)) s =
      (.ok flow, s') → gasFrame.rel s.machine s'.machine := by
    intro op h
    obtain ⟨t, s₁, hread, h⟩ := bind_ok.mp h
    have hrun := keeps_apply (keeps_gas_machineOp host (view t) ctx code op) (onMachine_ok h).1
    rwa [(onVmDb_ok hread).2] at hrun
  cases op with
  | create => exact @gas_executeCreate _ _ _ false _ _ _ h
  | create2 => exact @gas_executeCreate _ _ _ true _ _ _ h
  | call => exact gas_executeCall h
  | callCode => exact gas_executeCall h
  | delegateCall => exact gas_executeCall h
  | staticCall => exact gas_executeCall h
  | selfDestruct =>
    obtain ⟨b, s₁, hpop, h⟩ := bind_ok.mp h
    obtain ⟨_, s₂, hhook, h⟩ := bind_ok.mp h
    obtain ⟨-, rfl⟩ := Prod.mk.inj h
    have hbefore := keeps_apply (keeps_pop machineFrame_gas.toInertFrame) (onMachine_ok hpop).1
    rwa [← (onVmDb_ok hhook).2] at hbefore
  | _ => exact hmachine h

theorem gas_runLoop {fuel : Nat} {s s' : Vm} (h : runLoop host view hooks ctx code fuel s = (.ok (), s')) :
    gasFrame.rel s.machine s'.machine := by
  induction fuel generalizing s with
  | zero => cases h
  | succ fuel ih =>
    rw [runLoop_succ] at h
    cases hb : code[s.machine.pc]? with
    | none =>
      rw [hb] at h
      obtain ⟨-, rfl⟩ := Prod.mk.inj h
      exact gasFrame.refl _
    | some b =>
      rw [hb] at h
      dsimp only at h
      rcases hc : onMachine (chargeOp (decode b)) s with ⟨f | u, s₁⟩
      · rw [hc] at h
        cases h
      · rw [hc] at h
        dsimp only at h
        have hcharged := keeps_apply (keeps_chargeOp machineFrame_gas _) (onMachine_ok hc).1
        rcases ho : execOp host view hooks ctx code (decode b) s₁ with ⟨f | flow, s₂⟩
        · rw [ho] at h
          cases h
        · rw [ho] at h
          have hround := gasFrame.trans hcharged (gas_execOp ho)
          cases flow with
          | next => exact gasFrame.trans hround (ih (s := s₂.goto (s₂.machine.pc + 1)) h)
          | jump dest => exact gasFrame.trans hround (ih (s := s₂.goto dest) h)
          | halt =>
            obtain ⟨-, rfl⟩ := Prod.mk.inj h
            exact hround

theorem gas_executeBytecode {gasLimit : Int} {storage : Storage} {db db' : Db} {m : Machine}
    (h : executeBytecode host view hooks ctx gasLimit storage code db = (.ok m, db')) :
    0 ≤ m.gasUsed ∧ m.gasUsed ≤ max 0 gasLimit := by
  unfold executeBytecode at h
  rcases hr : runLoop host view hooks ctx code (gasLimit.toNat + 1)
    { machine := Machine.start gasLimit storage, db := db } with ⟨f | u, s⟩
  · rw [hr] at h
    cases h
  · rw [hr] at h
    obtain ⟨hm, -⟩ := Prod.mk.inj h
    obtain rfl := Except.ok.inj hm
    obtain ⟨hlimit, hgrow, hwithin⟩ := gas_runLoop hr
    refine ⟨hgrow, ?_⟩
    have hle := hwithin (le_max_left 0 gasLimit)
    rwa [hlimit] at hle

end

end AbsoluteChain
