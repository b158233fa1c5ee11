import AbsoluteChain.CallGas

/-!
# Stack, memory and counter

A frame that respects each write an instruction makes on the machine respects every
instruction, but for the three copies that may cut the memory short and for `PUSH`,
which moves the counter over its data. Three frames are used: the counter, the words
on the stack and the length of the memory.
-/

namespace AbsoluteChain

open Python Actions Act

theorem length_bytesOfNat (width n : Nat) : (bytesOfNat width n).length = width := by
  induction width generalizing n with
  | zero => rfl
  | succ width ih =>
    unfold bytesOfNat
    rw [List.length_append, ih]
    rfl

theorem pop_ok {m m' : Machine} {v : Nat} (h : pop m = (.ok v, m')) :
    m.stack = v :: m'.stack ∧ m' = { m with stack := m'.stack } := by
  unfold pop at h
  cases hs : m.stack with
  | nil =>
    rw [hs] at h
    cases h
  | cons w t =>
    rw [hs] at h
    obtain ⟨hv, rfl⟩ := Prod.mk.inj h
    obtain rfl := Except.ok.inj hv
    exact ⟨rfl, rfl⟩

theorem memExtend_ok {host : Host} {offset size : Nat} {u : Unit} {m m' : Machine}
    (h : memExtend host offset size m = (.ok u, m')) : m' = { m with memory := padRight m.memory (offset + size) } := by
  unfold memExtend at h
  by_cases hlimit : host.memoryLimit < offset + size
  · rw [if_pos hlimit] at h
    cases h
  · rw [if_neg hlimit] at h
    exact (Prod.mk.inj h).2.symm

def Op.copies : Op → Bool
  | .callDataCopy | .codeCopy | .returnDataCopy => true
  | _ => false

def Op.pushes : Op → Bool
  | .push _ => true
  | _ => false

/-- A frame that respects the writes of an instruction, the counter's apart. -/
structure OperandFrame (F : Frame Machine) : Prop where
  pop : ∀ (m : Machine) (v : Nat) (t : List Nat), m.stack = v :: t → F.rel m { m with stack := t }
  push : ∀ (m : Machine) (v : Int), F.rel m { m with stack := (v % wordModulus).toNat :: m.stack }
  swap : ∀ (m : Machine) (n a b : Nat), m.stack[0]? = some a → m.stack[n]? = some b →
    F.rel m { m with stack := (m.stack.set 0 b).set n a }
  extend : ∀ (m : Machine) (need : Nat), F.rel m { m with memory := padRight m.memory need }
  assign : ∀ (m : Machine) (offset : Nat) (chunk : Bytes),
    F.rel m { m with memory := m.memory.take offset ++ chunk ++ m.memory.drop (offset + chunk.length) }
  charge : ∀ (m : Machine) (cost : Int), F.rel m { m with gasUsed := m.gasUsed + cost }
  rest : ∀ (m : Machine) (storage : Storage) (running reverted : Bool) (returnData : Bytes) (logs : List EvmLog),
    F.rel m { m with storage, running, reverted, returnData, logs }

namespace OperandFrame

section
variable {F : Frame Machine} (hF : OperandFrame F) {host : Host} {code : Bytes}
include hF

theorem kept_push (v : Int) : Keeps F (AbsoluteChain.push v) := keeps_write fun m => hF.push m v

theorem kept_pop : Keeps F AbsoluteChain.pop := by
  intro m
  unfold AbsoluteChain.pop
  cases h : m.stack with
  | nil => exact F.refl m
  | cons v t => exact hF.pop m v t h

theorem kept_memExtend (offset size : Nat) : Keeps F (memExtend host offset size) := by
  intro m
  unfold memExtend
  by_cases h : host.memoryLimit < offset + size
  · rw [if_pos h]
    exact F.refl m
  · rw [if_neg h]
    exact hF.extend m _

theorem kept_memAssign {offset size : Nat} {chunk : Bytes} (h : chunk.length = size) :
    Keeps F (memAssign offset size chunk) := by
  subst h
  exact keeps_write fun m => hF.assign m offset chunk

theorem kept_memSlice (offset size : Nat) : Keeps F (memSlice host offset size) :=
  keeps_bind (hF.kept_memExtend offset size) fun _ => keeps_read _

theorem kept_pushFlow (v : Int) : Keeps F (pushFlow v) := keeps_bind (hF.kept_push v) fun _ => keeps_pure _

theorem kept_popPush (f : Nat → Int) : Keeps F (AbsoluteChain.pop >>= fun a => pushFlow (f a)) :=
  keeps_bind hF.kept_pop fun a => hF.kept_pushFlow (f a)

theorem kept_binary (f : Nat → Nat → Int) : Keeps F (binary f) :=
  keeps_bind hF.kept_pop fun a => keeps_bind hF.kept_pop fun b => hF.kept_pushFlow (f a b)

theorem kept_popTopics (n : Nat) : Keeps F (popTopics n) := by
  induction n with
  | zero => exact keeps_pure _
  | succ n ih => exact keeps_bind hF.kept_pop fun _ => keeps_bind ih fun _ => keeps_pure _

theorem kept_haltWith (reverted : Bool) : Keeps F (haltWith host reverted) :=
  keeps_bind hF.kept_pop fun _ => keeps_bind hF.kept_pop fun _ => keeps_bind (hF.kept_memSlice _ _) fun data =>
    keeps_bind (keeps_write fun m => hF.rest m m.storage m.running reverted data m.logs) fun _ => keeps_pure _

theorem kept_popCall (withValue : Bool) : Keeps F (popCall withValue) := by
  have hareas : ∀ gas toWord value : Nat, Keeps F (do
      let argsOffset ← AbsoluteChain.pop
      let argsSize ← AbsoluteChain.pop
      let retOffset ← AbsoluteChain.pop
      let retSize ← AbsoluteChain.pop
      pure ({ gas, toWord, value, argsOffset, argsSize, retOffset, retSize } : CallOperands)) := by
    intro gas toWord value
    refine keeps_bind hF.kept_pop fun _ => keeps_bind hF.kept_pop fun _ => ?_
    exact keeps_bind hF.kept_pop fun _ => keeps_bind hF.kept_pop fun _ => keeps_pure _
  refine keeps_bind hF.kept_pop fun gas => keeps_bind hF.kept_pop fun toWord => ?_
  cases withValue with
  | true => exact keeps_bind hF.kept_pop fun value => hareas gas toWord value
  | false => exact keeps_bind (keeps_pure 0) fun value => hareas gas toWord value

theorem kept_prepareCall (mode : CallMode) : Keeps F (prepareCall host mode) :=
  keeps_bind (hF.kept_popCall _) fun _ => keeps_bind (hF.kept_memSlice _ _) fun _ => keeps_bind (keeps_read _) fun _ =>
    keeps_pure _

theorem kept_prepareCreate (salted : Bool) : Keeps F (prepareCreate host salted) := by
  have hrest : ∀ salt : Option Nat, Keeps F (do
      let size ← AbsoluteChain.pop
      let offset ← AbsoluteChain.pop
      let value ← AbsoluteChain.pop
      let initCode ← memSlice host offset size
      pure ({ initCode, value, salt } : CreateArgs)) := by
    intro salt
    refine keeps_bind hF.kept_pop fun _ => keeps_bind hF.kept_pop fun _ => ?_
    exact keeps_bind hF.kept_pop fun _ => keeps_bind (hF.kept_memSlice _ _) fun _ => keeps_pure _
  cases salted with
  | true => exact keeps_bind (keeps_bind hF.kept_pop fun s => keeps_pure (some s)) fun salt => hrest salt
  | false => exact keeps_bind (keeps_pure none) fun salt => hrest salt

theorem kept_consumeGas (cost : Int) : Keeps F (consumeGas cost) := by
  intro m
  unfold consumeGas
  by_cases h : m.gasLimit < m.gasUsed + cost
  · rw [if_pos h]
    exact F.refl m
  · rw [if_neg h]
    exact hF.charge m cost

theorem kept_chargeSubcallGas (gas : Int) : Keeps F (chargeSubcallGas gas) := by
  intro m
  unfold chargeSubcallGas
  by_cases hpos : 0 < gas
  · rw [if_pos hpos]
    dsimp only
    by_cases hover : m.gasLimit < m.gasUsed + gas
    · rw [if_pos hover]
      exact hF.charge m gas
    · rw [if_neg hover]
      exact hF.charge m gas
  · rw [if_neg hpos]
    exact F.refl m

theorem kept_finishCall (a : CallOperands) (gas : Int) (adopt : Bool) (out : CallOut) :
    Keeps F (finishCall host a gas adopt out) := by
  refine keeps_bind (hF.kept_chargeSubcallGas _) fun _ => keeps_bind ?_ fun _ => ?_
  · exact keeps_write fun m => hF.rest m (if adopt then out.storage.getD m.storage else m.storage) m.running m.reverted
      out.returnData m.logs
  · exact keeps_bind (hF.kept_memExtend _ _) fun _ => keeps_bind (hF.kept_memAssign rfl) fun _ => hF.kept_pushFlow _

theorem kept_machineOp (cb : Callbacks) (ctx : EvmContext) {op : Op} (hcopy : op.copies = false) (hpush : op.pushes = false) :
    Keeps F (machineOp host cb ctx code op) := by
  cases op with
  | callDataCopy | codeCopy | returnDataCopy => cases hcopy
  | push n => cases hpush
  | stop | jumpDest => exact keeps_pure _
  | add | mul | sub | div | mod | and | or | xor | eq | lt | gt | byte | shr => exact hF.kept_binary _
  | address | origin | caller | callValue | callDataSize | codeSize | timestamp | number | chainId | push0 =>
    exact hF.kept_pushFlow _
  | isZero | not | balance | callDataLoad | extCodeSize => exact hF.kept_popPush _
  | returnDataSize | gasLimit | gas => exact keeps_bind (keeps_read _) fun _ => hF.kept_pushFlow _
  | shl =>
    refine keeps_bind hF.kept_pop fun shift => keeps_bind hF.kept_pop fun v => ?_
    exact keeps_ite (fun _ => keeps_raise _) fun _ => hF.kept_pushFlow _
  | sha3 =>
    refine keeps_bind hF.kept_pop fun _ => keeps_bind hF.kept_pop fun _ => ?_
    exact keeps_bind (hF.kept_memSlice _ _) fun _ => hF.kept_pushFlow _
  | extCodeCopy =>
    refine keeps_bind hF.kept_pop fun _ => keeps_bind hF.kept_pop fun _ => keeps_bind hF.kept_pop fun _ => ?_
    refine keeps_bind hF.kept_pop fun _ => keeps_bind (hF.kept_memExtend _ _) fun _ => ?_
    exact keeps_bind (hF.kept_memAssign rfl) fun _ => keeps_pure _
  | log n =>
    refine keeps_bind (hF.kept_popTopics n) fun topics => keeps_bind hF.kept_pop fun size => ?_
    refine keeps_bind hF.kept_pop fun _ => keeps_bind (hF.kept_consumeGas _) fun _ => ?_
    refine keeps_bind (hF.kept_memSlice _ _) fun data => keeps_bind ?_ fun _ => keeps_pure _
    exact keeps_write fun m => hF.rest m m.storage m.running m.reverted m.returnData _
  | blockHash =>
    refine keeps_bind hF.kept_pop fun height => ?_
    cases cb.blockHashOf height with
    | ok h => exact hF.kept_pushFlow _
    | error f => exact keeps_raise _
  | pop => exact keeps_bind hF.kept_pop fun _ => keeps_pure _
  | mload => exact keeps_bind hF.kept_pop fun _ => keeps_bind (hF.kept_memSlice _ _) fun _ => hF.kept_pushFlow _
  | mstore =>
    refine keeps_bind hF.kept_pop fun _ => keeps_bind hF.kept_pop fun _ => keeps_bind (hF.kept_memExtend _ _) fun _ => ?_
    exact keeps_bind (hF.kept_memAssign (length_bytesOfNat _ _)) fun _ => keeps_pure _
  | mstore8 =>
    refine keeps_bind hF.kept_pop fun _ => keeps_bind hF.kept_pop fun _ => keeps_bind (hF.kept_memExtend _ _) fun _ => ?_
    exact keeps_bind (hF.kept_memAssign rfl) fun _ => keeps_pure _
  | sload => exact keeps_bind hF.kept_pop fun _ => keeps_bind (keeps_read _) fun _ => hF.kept_pushFlow _
  | sstore =>
    refine keeps_bind hF.kept_pop fun key => keeps_bind hF.kept_pop fun value => keeps_bind ?_ fun _ => keeps_pure _
    exact keeps_write fun m => hF.rest m _ m.running m.reverted m.returnData m.logs
  | jump => exact keeps_bind hF.kept_pop fun _ => keeps_jumpTo _
  | jumpi =>
    refine keeps_bind hF.kept_pop fun _ => keeps_bind hF.kept_pop fun _ => ?_
    exact keeps_ite (fun _ => keeps_jumpTo _) fun _ => keeps_pure _
  | dup n =>
    refine keeps_bind (keeps_read _) fun m => ?_
    cases m.stack[n - 1]? with
    | some v => exact hF.kept_pushFlow _
    | none => exact keeps_raise _
  | swap n =>
    intro m
    cases ha : m.stack[0]? with
    | none => simp only [machineOp, bind_run, read_run, id, ha]; exact F.refl m
    | some a =>
      cases hb : m.stack[n]? with
      | none => simp only [machineOp, bind_run, read_run, id, ha, hb]; exact F.refl m
      | some b => simp only [machineOp, bind_run, read_run, id, ha, hb]; exact hF.swap m n a b ha hb
  | «return» | revert => exact hF.kept_haltWith _
  | invalid | unsupported b => exact keeps_raise _
  | create | create2 | callCode | call | delegateCall | staticCall | selfDestruct => exact keeps_raise _

/-- A copy, when the frame respects the assignment it makes. -/
theorem kept_memCopy {source : Bytes} (hassign : ∀ (m : Machine) (dest offset size : Nat), F.rel m
      { m with memory := m.memory.take dest ++ slice source offset size ++ m.memory.drop (dest + size) }) :
    Keeps F (memCopy host source) :=
  keeps_bind hF.kept_pop fun dest => keeps_bind hF.kept_pop fun offset => keeps_bind hF.kept_pop fun size =>
    keeps_bind (hF.kept_memExtend _ _) fun _ => keeps_write fun m => hassign m dest offset size

end

section
variable {F : Frame Machine} (hF : OperandFrame F) {host : Host} {view : Tables → Callbacks} {hooks : Hooks}
  {ctx : EvmContext} {code : Bytes}
include hF

omit hF in
theorem kept_onMachine {α : Type} {m : MachineM α} (h : Keeps F m) : Keeps (F.pull Vm.machinePart) (onMachine m) := keeps_on h

omit hF in
theorem kept_onVmDb {α : Type} (m : Act Fault Db α) : Keeps (F.pull Vm.machinePart) (onVmDb m) := fun s => F.refl s.machine

theorem kept_executeCall (mode : CallMode) : Keeps (F.pull Vm.machinePart) (executeCall host hooks ctx mode) :=
  keeps_bind (kept_onMachine (hF.kept_prepareCall mode)) fun _ => keeps_bind (kept_onVmDb _) fun _ =>
    kept_onMachine (hF.kept_finishCall _ _ _ _)

theorem kept_executeCreate (salted : Bool) : Keeps (F.pull Vm.machinePart) (executeCreate host hooks ctx salted) :=
  keeps_bind (kept_onMachine (hF.kept_prepareCreate salted)) fun _ => keeps_bind (kept_onVmDb _) fun _ =>
    kept_onMachine (keeps_bind (hF.kept_chargeSubcallGas _) fun _ => hF.kept_pushFlow _)

theorem kept_effectOp {op : Op} {m : Act Fault Vm Flow} (h : effectOp host hooks ctx op = some m) :
    Keeps (F.pull Vm.machinePart) m := by
  cases op with
  | create => exact Option.some.inj h ▸ hF.kept_executeCreate false
  | create2 => exact Option.some.inj h ▸ hF.kept_executeCreate true
  | call | callCode | delegateCall | staticCall => exact Option.some.inj h ▸ hF.kept_executeCall _
  | selfDestruct =>
    obtain rfl := Option.some.inj h
    exact keeps_bind (kept_onMachine hF.kept_pop) fun _ => keeps_bind (kept_onVmDb _) fun _ => keeps_pure _
  | _ => cases h

/-- An instruction that the frame respects on the machine is respected, whatever the hooks do. -/
theorem kept_execOp {op : Op} (h : ∀ cb, Keeps F (machineOp host cb ctx code op)) :
    Keeps (F.pull Vm.machinePart) (execOp host view hooks ctx code op) := by
  unfold execOp
  cases heffect : effectOp host hooks ctx op with
  | some m => exact hF.kept_effectOp heffect
  | none => exact keeps_bind (kept_onVmDb _) fun t => kept_onMachine (h (view t))

end

end OperandFrame

/-! ## The frames -/

theorem operandFrame_counter : OperandFrame (Frame.fixed Machine.pc) where
  pop _ _ _ _ := rfl
  push _ _ := rfl
  swap _ _ _ _ _ _ := rfl
  extend _ _ := rfl
  assign _ _ _ := rfl
  charge _ _ := rfl
  rest _ _ _ _ _ _ := rfl

def Machine.Words (m : Machine) : Prop := ∀ v ∈ m.stack, v < wordModulus

def wordsFrame : Frame Machine where
  rel m m' := m.Words → m'.Words
  refl _ := id
  trans h₁ h₂ := h₂ ∘ h₁

theorem word_masked (v : Int) : (v % wordModulus).toNat < wordModulus := by
  have hpos : (0 : Int) < wordModulus := by norm_num [wordModulus]
  have hnonneg := Int.emod_nonneg v (ne_of_gt hpos)
  have hlt := Int.emod_lt_of_pos v hpos
  omega

theorem operandFrame_words : OperandFrame wordsFrame where
  pop m v t h hm w hw := hm w (h ▸ List.mem_cons_of_mem v hw)
  push m v hm w hw := by
    rcases List.mem_cons.mp hw with rfl | hw
    · exact word_masked v
    · exact hm w hw
  swap m n a b ha hb hm w hw := by
    rcases List.mem_or_eq_of_mem_set hw with hw | rfl
    · rcases List.mem_or_eq_of_mem_set hw with hw | rfl
      · exact hm w hw
      · exact hm w (List.mem_of_getElem? hb)
    · exact hm w (List.mem_of_getElem? ha)
  extend _ _ := id
  assign _ _ _ := id
  charge _ _ := id
  rest _ _ _ _ _ _ := id

def growthFrame : Frame Machine where
  rel m m' := m.memory.length ≤ m'.memory.length
  refl _ := le_rfl
  trans h₁ h₂ := h₁.trans h₂

theorem operandFrame_growth : OperandFrame growthFrame where
  pop _ _ _ _ := le_rfl
  push _ _ := le_rfl
  swap _ _ _ _ _ _ := le_rfl
  extend m need := by
    simp only [growthFrame, padRight, List.length_append]
    omega
  assign m offset chunk := by
    simp only [growthFrame, List.length_append, List.length_take, List.length_drop]
    omega
  charge _ _ := le_rfl
  rest _ _ _ _ _ _ := le_rfl

end AbsoluteChain
