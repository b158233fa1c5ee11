import Mathlib.Data.List.GetD
import AbsoluteChain.SingleFrame

/-!
# Writes to memory

What an instruction writes, and what it leaves. `memory[a:b] = source` makes the memory
shorter when the source has fewer bytes than the range, so the three copies write what
they are asked for only when the source has it.
-/

namespace AbsoluteChain

open Python Actions Act

def Machine.byteAt (m : Machine) (i : Nat) : UInt8 := m.memory.getD i 0

structure Writes (m m' : Machine) (dest : Nat) (data : Bytes) : Prop where
  grows : m.memory.length ≤ m'.memory.length
  holds : slice m'.memory dest data.length = data
  others : ∀ i, i < dest ∨ dest + data.length ≤ i → m'.byteAt i = m.byteAt i

def copied (source : Bytes) : List Nat → Option (Nat × Nat × Bytes)
  | dest :: offset :: size :: _ => some (dest, size, slice source offset size)
  | _ => none

def stored (width : Nat) (data : Nat → Bytes) : List Nat → Option (Nat × Nat × Bytes)
  | dest :: value :: _ => some (dest, width, data value)
  | _ => none

def returned (data : Bytes) : List Nat → Option (Nat × Nat × Bytes)
  | dest :: size :: _ => some (dest, size, data.take size)
  | _ => none

/-- Where an instruction writes, how many bytes it is asked for, and the source bytes that there are. The data
that a call returns is known afterwards. -/
def destination (cb : Callbacks) (ctx : EvmContext) (code : Bytes) (op : Op) (m m' : Machine) : Option (Nat × Nat × Bytes) :=
  match op with
  | .callDataCopy => copied ctx.calldata m.stack
  | .codeCopy => copied code m.stack
  | .returnDataCopy => copied m.returnData m.stack
  | .extCodeCopy =>
    match m.stack with
    | offset :: dest :: size :: who :: _ => some (dest, size, cb.codeCopyOf (wordToAddr who) offset size)
    | _ => none
  | .mstore => stored 32 (bytesOfNat 32) m.stack
  | .mstore8 => stored 1 (fun value => [UInt8.ofNat (value % 256)]) m.stack
  | .call | .callCode => returned m'.returnData (m.stack.drop 5)
  | .delegateCall | .staticCall => returned m'.returnData (m.stack.drop 4)
  | _ => none

def ShortCopy (cb : Callbacks) (ctx : EvmContext) (code : Bytes) (op : Op) (m : Machine) : Prop :=
  (op.copies = true ∨ op = .extCodeCopy) ∧
    ∃ dest size data, destination cb ctx code op m m = some (dest, size, data) ∧ data.length ≠ size

/-- The memory does not get shorter, and an instruction that completes has written its source, in its destination
range and nowhere else. A call writes as many bytes as were returned. -/
structure Disciplined (cb : Callbacks) (ctx : EvmContext) (code : Bytes) (op : Op) (m : Machine) (completes : Bool)
    (m' : Machine) : Prop where
  grows : m.memory.length ≤ m'.memory.length
  writes : completes = true → ∀ dest size data, destination cb ctx code op m m' = some (dest, size, data) →
    data.length ≤ size ∧ (callMode op = none → data.length = size) ∧ Writes m m' dest data

/-! ## Assignments -/

theorem length_padRight (bs : Bytes) (size : Nat) : (padRight bs size).length = max bs.length size := by
  unfold padRight
  rw [List.length_append, List.length_replicate]
  omega

theorem getD_padRight (bs : Bytes) (size i : Nat) : (padRight bs size).getD i 0 = bs.getD i 0 := by
  unfold padRight
  by_cases hi : i < bs.length
  · exact List.getD_append _ _ _ _ hi
  · rw [List.getD_append_right _ _ _ _ (not_lt.mp hi), List.getD_eq_default _ _ (not_lt.mp hi)]
    by_cases hr : i - bs.length < size - bs.length
    · rw [List.getD_eq_getElem _ _ (by rwa [List.length_replicate]), List.getElem_replicate]
    · rw [List.getD_eq_default _ _ (by rw [List.length_replicate]; exact not_lt.mp hr)]

/-- An assignment of as many bytes as the range has, in a memory that reaches its end. -/
theorem writes_assign (need : Nat) {m m' : Machine} {dest : Nat} {data : Bytes} (hneed : dest + data.length ≤ need)
    (hmemory : m'.memory = (padRight m.memory need).take dest ++ data ++ (padRight m.memory need).drop (dest + data.length)) :
    Writes m m' dest data := by
  have hlen := length_padRight m.memory need
  generalize hmem : padRight m.memory need = mem at hmemory hlen
  have hdest : (mem.take dest).length = dest := by
    rw [List.length_take]
    omega
  refine ⟨?_, ?_, fun i hi => ?_⟩
  · rw [hmemory, List.length_append, List.length_append, List.length_drop, hdest]
    omega
  · unfold slice
    rw [hmemory, List.append_assoc, List.drop_append_of_le_length (by rw [hdest]), List.drop_of_length_le (by rw [hdest]),
      List.nil_append, List.take_append_of_le_length le_rfl, List.take_length]
  · unfold Machine.byteAt
    rw [hmemory, ← getD_padRight m.memory need i, hmem]
    rcases hi with hi | hi
    · rw [List.append_assoc, List.getD_append _ _ _ _ (by rw [hdest]; exact hi), List.getD_eq_getElem?_getD,
        List.getElem?_take_of_lt hi, ← List.getD_eq_getElem?_getD]
    · rw [List.getD_append_right _ _ _ _ (by rw [List.length_append, hdest]; exact hi), List.length_append, hdest,
        List.getD_eq_getElem?_getD, List.getElem?_drop, ← List.getD_eq_getElem?_getD, Nat.add_sub_cancel' hi]

section
variable {host : Host} {view : Tables → Callbacks} {hooks : Hooks} {ctx : EvmContext} {code : Bytes} {cb : Callbacks}

theorem memCopy_ok {source : Bytes} {m m' : Machine} {u : Unit} (h : memCopy host source m = (.ok u, m')) :
    ∃ dest offset size rest, m.stack = dest :: offset :: size :: rest ∧
      m'.memory = (padRight m.memory (dest + size)).take dest ++ slice source offset size ++
        (padRight m.memory (dest + size)).drop (dest + size) := by
  unfold memCopy at h
  obtain ⟨dest, m₁, h₁, h⟩ := bind_ok.mp h
  obtain ⟨offset, m₂, h₂, h⟩ := bind_ok.mp h
  obtain ⟨size, m₃, h₃, h⟩ := bind_ok.mp h
  obtain ⟨u₄, m₄, h₄, h⟩ := bind_ok.mp h
  obtain ⟨hs₁, hm₁⟩ := pop_ok h₁
  obtain ⟨hs₂, hm₂⟩ := pop_ok h₂
  obtain ⟨hs₃, hm₃⟩ := pop_ok h₃
  have hm₄ := memExtend_ok h₄
  have hkept : m₃.memory = m.memory := by rw [hm₃, hm₂, hm₁]
  refine ⟨dest, offset, size, m₃.stack, by rw [hs₁, hs₂, hs₃], ?_⟩
  rw [← (Prod.mk.inj h).2, hm₄, ← hkept]

theorem extCodeCopy_ok {m m' : Machine} {flow : Flow} (h : machineOp host cb ctx code .extCodeCopy m = (.ok flow, m')) :
    ∃ offset dest size who rest, m.stack = offset :: dest :: size :: who :: rest ∧
      m'.memory = (padRight m.memory (dest + (cb.codeCopyOf (wordToAddr who) offset size).length)).take dest ++
        cb.codeCopyOf (wordToAddr who) offset size ++
        (padRight m.memory (dest + (cb.codeCopyOf (wordToAddr who) offset size).length)).drop
          (dest + (cb.codeCopyOf (wordToAddr who) offset size).length) := by
  obtain ⟨offset, m₁, h₁, h⟩ := bind_ok.mp h
  obtain ⟨dest, m₂, h₂, h⟩ := bind_ok.mp h
  obtain ⟨size, m₃, h₃, h⟩ := bind_ok.mp h
  obtain ⟨who, m₄, h₄, h⟩ := bind_ok.mp h
  obtain ⟨u₅, m₅, h₅, h⟩ := bind_ok.mp h
  obtain ⟨hs₁, hm₁⟩ := pop_ok h₁
  obtain ⟨hs₂, hm₂⟩ := pop_ok h₂
  obtain ⟨hs₃, hm₃⟩ := pop_ok h₃
  obtain ⟨hs₄, hm₄⟩ := pop_ok h₄
  have hm₅ := memExtend_ok h₅
  have hkept : m₄.memory = m.memory := by rw [hm₄, hm₃, hm₂, hm₁]
  refine ⟨offset, dest, size, who, m₄.stack, by rw [hs₁, hs₂, hs₃, hs₄], ?_⟩
  rw [← (Prod.mk.inj h).2]
  show List.take dest m₅.memory ++ _ ++ List.drop _ m₅.memory = _
  rw [hm₅, ← hkept]

/-- `MSTORE` and `MSTORE8`. -/
theorem store_ok {width : Nat} {data : Nat → Bytes} {m m' : Machine} {flow : Flow}
    (h : (do
      let offset ← pop
      let value ← pop
      memExtend host offset width
      memAssign offset width (data value)
      pure Flow.next : MachineM Flow) m = (.ok flow, m')) :
    ∃ dest value rest, m.stack = dest :: value :: rest ∧
      m'.memory = (padRight m.memory (dest + width)).take dest ++ data value ++ (padRight m.memory (dest + width)).drop (dest + width) := by
  obtain ⟨dest, m₁, h₁, h⟩ := bind_ok.mp h
  obtain ⟨value, m₂, h₂, h⟩ := bind_ok.mp h
  obtain ⟨u₃, m₃, h₃, h⟩ := bind_ok.mp h
  obtain ⟨hs₁, hm₁⟩ := pop_ok h₁
  obtain ⟨hs₂, hm₂⟩ := pop_ok h₂
  have hm₃ := memExtend_ok h₃
  have hkept : m₂.memory = m.memory := by rw [hm₂, hm₁]
  refine ⟨dest, value, m₂.stack, by rw [hs₁, hs₂], ?_⟩
  rw [← (Prod.mk.inj h).2]
  show List.take dest m₃.memory ++ _ ++ List.drop _ m₃.memory = _
  rw [hm₃, ← hkept]

theorem prepareCall_memory {mode : CallMode} {m m' : Machine} {p : CallOperands × CallArgs}
    (h : prepareCall host mode m = (.ok p, m')) :
    (∃ gas toWord value argsOffset argsSize rest, m.stack = if mode.withValue then
      gas :: toWord :: value :: argsOffset :: argsSize :: p.1.retOffset :: p.1.retSize :: rest
      else gas :: toWord :: argsOffset :: argsSize :: p.1.retOffset :: p.1.retSize :: rest) ∧
    ∃ need, m'.memory = padRight m.memory need := by
  unfold prepareCall at h
  obtain ⟨a, t, hpop, h⟩ := bind_ok.mp h
  obtain ⟨data, t₁, hslice, h⟩ := bind_ok.mp h
  obtain ⟨gas', t₂, hgas, h⟩ := bind_ok.mp h
  obtain ⟨hr, rfl⟩ := Prod.mk.inj h
  obtain rfl := Except.ok.inj hr
  obtain ⟨-, rfl⟩ := Prod.mk.inj hgas
  obtain ⟨u, t₃, hextend, hread⟩ := bind_ok.mp hslice
  obtain ⟨-, rfl⟩ := Prod.mk.inj hread
  have ht := memExtend_ok hextend
  unfold popCall at hpop
  obtain ⟨gas, m₁, h₁, hpop⟩ := bind_ok.mp hpop
  obtain ⟨toWord, m₂, h₂, hpop⟩ := bind_ok.mp hpop
  obtain ⟨hs₁, hm₁⟩ := pop_ok h₁
  obtain ⟨hs₂, hm₂⟩ := pop_ok h₂
  -- the four operands that every mode takes
  have hareas : ∀ {value : Nat} {m₃ : Machine}, (do
      let argsOffset ← pop
      let argsSize ← pop
      let retOffset ← pop
      let retSize ← pop
      pure ({ gas, toWord, value, argsOffset, argsSize, retOffset, retSize } : CallOperands) : MachineM CallOperands) m₃ = (.ok a, t) →
      m₃.stack = a.argsOffset :: a.argsSize :: a.retOffset :: a.retSize :: t.stack ∧ t.memory = m₃.memory := by
    intro value m₃ h
    obtain ⟨argsOffset, m₄, h₄, h⟩ := bind_ok.mp h
    obtain ⟨argsSize, m₅, h₅, h⟩ := bind_ok.mp h
    obtain ⟨retOffset, m₆, h₆, h⟩ := bind_ok.mp h
    obtain ⟨retSize, m₇, h₇, h⟩ := bind_ok.mp h
    obtain ⟨ha, rfl⟩ := Prod.mk.inj h
    obtain rfl := Except.ok.inj ha
    obtain ⟨hs₄, hm₄⟩ := pop_ok h₄
    obtain ⟨hs₅, hm₅⟩ := pop_ok h₅
    obtain ⟨hs₆, hm₆⟩ := pop_ok h₆
    obtain ⟨hs₇, hm₇⟩ := pop_ok h₇
    exact ⟨by rw [hs₄, hs₅, hs₆, hs₇], by rw [hm₇, hm₆, hm₅, hm₄]⟩
  have hfirst : m₂.memory = m.memory := by rw [hm₂, hm₁]
  -- the value is an operand of two modes only
  cases hv : mode.withValue with
  | true =>
    rw [hv, if_pos rfl] at hpop
    obtain ⟨value, m₃, h₃, hpop⟩ := bind_ok.mp hpop
    obtain ⟨hs₃, hm₃⟩ := pop_ok h₃
    obtain ⟨hareas', hmemory⟩ := hareas hpop
    refine ⟨⟨gas, toWord, value, a.argsOffset, a.argsSize, t.stack, ?_⟩, a.argsOffset + a.argsSize, ?_⟩
    · rw [hs₁, hs₂, hs₃, hareas', if_pos rfl]
    · rw [ht, hmemory, hm₃, ← hfirst]
  | false =>
    rw [hv, if_neg Bool.false_ne_true] at hpop
    obtain ⟨value, m₃, h₃, hpop⟩ := bind_ok.mp hpop
    obtain ⟨-, rfl⟩ := Prod.mk.inj h₃
    obtain ⟨hareas', hmemory⟩ := hareas hpop
    refine ⟨⟨gas, toWord, value, a.argsOffset, a.argsSize, t.stack, ?_⟩, a.argsOffset + a.argsSize, ?_⟩
    · rw [hs₁, hs₂, hareas', if_neg Bool.false_ne_true]
    · rw [ht, hmemory, ← hfirst]

theorem executeCall_writes {mode : CallMode} {s s' : Vm} {flow : Flow}
    (h : executeCall host hooks ctx mode s = (.ok flow, s')) {dest size : Nat} {data : Bytes}
    (hd : returned s'.machine.returnData (s.machine.stack.drop (if mode.withValue then 5 else 4)) = some (dest, size, data)) :
    data.length ≤ size ∧ Writes s.machine s'.machine dest data := by
  unfold executeCall at h
  obtain ⟨p, s₁, hprepare, h⟩ := bind_ok.mp h
  obtain ⟨out, s₂, hhook, h⟩ := bind_ok.mp h
  obtain ⟨⟨gas, toWord, value, argsOffset, argsSize, rest, hstack⟩, need, hmemory⟩ := prepareCall_memory (onMachine_ok hprepare).1
  obtain ⟨-, -, hdata, hwritten⟩ := finishCall_ok (onMachine_ok h).1
  rw [(onVmDb_ok hhook).2] at hwritten
  have hranges : s.machine.stack.drop (if mode.withValue then 5 else 4) = p.1.retOffset :: p.1.retSize :: rest := by
    rw [hstack]
    cases mode.withValue <;> rfl
  rw [hranges, hdata] at hd
  obtain ⟨rfl, rfl, rfl⟩ : p.1.retOffset = dest ∧ p.1.retSize = size ∧ out.returnData.take p.1.retSize = data := by
    simpa [returned] using hd
  have hshort : (out.returnData.take p.1.retSize).length ≤ p.1.retSize := List.length_take_le _ _
  -- the arguments and the range only add zeros
  have hafter : Writes s₁.machine s'.machine p.1.retOffset (out.returnData.take p.1.retSize) :=
    writes_assign _ (by omega) hwritten
  refine ⟨hshort, ?_, hafter.holds, fun i hi => ?_⟩
  · refine le_trans ?_ hafter.grows
    rw [hmemory, length_padRight]
    exact le_max_left _ _
  · rw [hafter.others i hi]
    unfold Machine.byteAt
    rw [hmemory, getD_padRight]

theorem memCopy_raised {source : Bytes} {m m' : Machine} {f : Fault} (h : memCopy host source m = (.error f, m')) :
    m.memory.length ≤ m'.memory.length := by
  have hpop : ∀ {m₁ m₂ : Machine} {r : Except Fault Nat}, pop m₁ = (r, m₂) → m₁.memory.length ≤ m₂.memory.length :=
    fun h => keeps_apply operandFrame_growth.kept_pop h
  unfold memCopy at h
  rw [bind_run] at h
  rcases h₁ : pop m with ⟨f₁ | dest, m₁⟩
  · rw [h₁] at h
    exact (Prod.mk.inj h).2 ▸ hpop h₁
  · rw [h₁] at h
    refine (hpop h₁).trans ?_
    dsimp only at h
    rw [bind_run] at h
    rcases h₂ : pop m₁ with ⟨f₂ | offset, m₂⟩
    · rw [h₂] at h
      exact (Prod.mk.inj h).2 ▸ hpop h₂
    · rw [h₂] at h
      refine (hpop h₂).trans ?_
      dsimp only at h
      rw [bind_run] at h
      rcases h₃ : pop m₂ with ⟨f₃ | size, m₃⟩
      · rw [h₃] at h
        exact (Prod.mk.inj h).2 ▸ hpop h₃
      · rw [h₃] at h
        refine (hpop h₃).trans ?_
        dsimp only at h
        rw [bind_run] at h
        have hextend : m₃.memory.length ≤ (memExtend host dest size m₃).2.memory.length :=
          operandFrame_growth.kept_memExtend dest size m₃
        rcases h₄ : memExtend host dest size m₃ with ⟨f₄ | u, m₄⟩
        · rw [h₄] at h hextend
          exact (Prod.mk.inj h).2 ▸ hextend
        · rw [h₄] at h
          cases h

theorem memCopy_writes {source : Bytes} {m : Machine}
    (hcover : ∀ dest size data, copied source m.stack = some (dest, size, data) → data.length = size) :
    m.memory.length ≤ (memCopy host source m).2.memory.length ∧ ((memCopy host source m).1.isOk = true →
      ∀ dest size data, copied source m.stack = some (dest, size, data) → Writes m (memCopy host source m).2 dest data) := by
  rcases hr : memCopy host source m with ⟨f | u, m'⟩
  · exact ⟨memCopy_raised hr, fun h => nomatch h⟩
  · obtain ⟨dest, offset, size, rest, hstack, hmemory⟩ := memCopy_ok hr
    have hranges : copied source m.stack = some (dest, size, slice source offset size) := by rw [hstack]; rfl
    have hlen := hcover dest size _ hranges
    have hwrites : Writes m m' dest (slice source offset size) := by
      refine writes_assign (dest + size) (by omega) ?_
      rw [hmemory, hlen]
    refine ⟨hwrites.grows, fun _ dest' size' data hd => ?_⟩
    rw [hranges] at hd
    obtain ⟨rfl, rfl, rfl⟩ : dest = dest' ∧ size = size' ∧ slice source offset size = data := by simpa using hd
    exact hwrites

/-! ## Each instruction -/

theorem disciplined_copy {op : Op} {source : Bytes} {m : Machine}
    (hrun : machineOp host cb ctx code op m = (memCopy host source >>= fun _ => pure .next) m)
    (hdest : ∀ m', destination cb ctx code op m m' = copied source m.stack)
    (hcover : ∀ dest size data, destination cb ctx code op m m = some (dest, size, data) → data.length = size) :
    Disciplined cb ctx code op m (machineOp host cb ctx code op m).1.isOk (machineOp host cb ctx code op m).2 := by
  rw [hdest] at hcover
  obtain ⟨hgrows, hwrites⟩ := @memCopy_writes host source m hcover
  rw [hrun, bind_run]
  rcases hr : memCopy host source m with ⟨f | u, m'⟩
  · rw [hr] at hgrows
    exact ⟨hgrows, fun h => nomatch h⟩
  · rw [hr] at hgrows hwrites
    refine ⟨hgrows, fun _ dest size data hd => ?_⟩
    rw [hdest] at hd
    exact ⟨(hcover _ _ _ hd).le, fun _ => hcover _ _ _ hd, hwrites rfl _ _ _ hd⟩

theorem disciplined_machineOp {op : Op} (hop : callMode op = none) {m : Machine} (hcover : ¬ ShortCopy cb ctx code op m) :
    Disciplined cb ctx code op m (machineOp host cb ctx code op m).1.isOk (machineOp host cb ctx code op m).2 := by
  have hfull : op.copies = true ∨ op = .extCodeCopy → ∀ dest size data,
      destination cb ctx code op m m = some (dest, size, data) → data.length = size := by
    intro hcopy dest size data hd
    by_contra hne
    exact hcover ⟨hcopy, dest, size, data, hd, hne⟩
  have hgrow : ∀ {op : Op}, op.copies = false → op.pushes = false →
      m.memory.length ≤ (machineOp host cb ctx code op m).2.memory.length :=
    fun hcopy hpush => operandFrame_growth.kept_machineOp cb ctx hcopy hpush m
  have hstore : ∀ {op : Op} {width : Nat} {data : Nat → Bytes}, (∀ value, (data value).length = width) →
      machineOp host cb ctx code op m = (do
        let offset ← pop
        let value ← pop
        memExtend host offset width
        memAssign offset width (data value)
        pure Flow.next : MachineM Flow) m →
      (∀ m', destination cb ctx code op m m' = stored width data m.stack) → op.copies = false → op.pushes = false →
      Disciplined cb ctx code op m (machineOp host cb ctx code op m).1.isOk (machineOp host cb ctx code op m).2 := by
    intro op width data hwidth hrun hdest hcopy hpush
    refine ⟨hgrow hcopy hpush, fun hok dest size bytes hd => ?_⟩
    rcases hr : machineOp host cb ctx code op m with ⟨f | flow, m'⟩
    · rw [hr] at hok
      cases hok
    · rw [hr, hdest] at hd
      obtain ⟨dest', value, rest, hstack, hmemory⟩ := store_ok (hrun ▸ hr)
      rw [hstack] at hd
      obtain ⟨rfl, rfl, rfl⟩ : dest' = dest ∧ width = size ∧ data value = bytes := by simpa [stored] using hd
      refine ⟨(hwidth value).le, fun _ => hwidth value, writes_assign (dest' + width) (by rw [hwidth]) ?_⟩
      rw [hmemory, hwidth]
  cases op with
  | callDataCopy => exact disciplined_copy rfl (fun _ => rfl) (hfull (.inl rfl))
  | codeCopy => exact disciplined_copy rfl (fun _ => rfl) (hfull (.inl rfl))
  | returnDataCopy => exact disciplined_copy rfl (fun _ => rfl) (hfull (.inl rfl))
  | mstore => exact hstore (length_bytesOfNat 32) rfl (fun _ => rfl) rfl rfl
  | mstore8 =>
    exact @hstore .mstore8 1 (fun value => [UInt8.ofNat (value % 256)]) (fun _ => rfl) rfl (fun _ => rfl) rfl rfl
  | extCodeCopy =>
    refine ⟨hgrow rfl rfl, fun hok dest size data hd => ?_⟩
    rcases hr : machineOp host cb ctx code .extCodeCopy m with ⟨f | flow, m'⟩
    · rw [hr] at hok
      cases hok
    · obtain ⟨offset, dest', size', who, rest, hstack, hmemory⟩ := extCodeCopy_ok hr
      have hranges : ∀ m'', destination cb ctx code .extCodeCopy m m'' =
          some (dest', size', cb.codeCopyOf (wordToAddr who) offset size') := by
        intro m''
        simp only [destination, hstack]
      have hlen := hfull (.inr rfl) _ _ _ (hranges m)
      rw [hranges] at hd
      obtain ⟨rfl, rfl, rfl⟩ : dest' = dest ∧ size' = size ∧ cb.codeCopyOf (wordToAddr who) offset size' = data := by
        simpa using hd
      exact ⟨hlen.le, fun _ => hlen, writes_assign _ le_rfl hmemory⟩
  | push n => exact ⟨le_rfl, fun _ _ _ _ hd => nomatch hd⟩
  | call | callCode | delegateCall | staticCall => cases hop
  | _ => exact ⟨hgrow rfl rfl, fun _ _ _ _ hd => nomatch hd⟩

/-- Each step but a short copy. -/
theorem memory_discipline (host : Host) (view : Tables → Callbacks) (hooks : Hooks) (ctx : EvmContext) (code : Bytes) (op : Op)
    (s : Vm) (hcover : ¬ ShortCopy (view s.db.live) ctx code op s.machine) :
    Disciplined (view s.db.live) ctx code op s.machine (execOp host view hooks ctx code op s).1.isOk
      (execOp host view hooks ctx code op s).2.machine := by
  have hcall : ∀ {op : Op} {mode : CallMode}, callMode op = some mode →
      (∀ m', destination (view s.db.live) ctx code op s.machine m' =
        returned m'.returnData (s.machine.stack.drop (if mode.withValue then 5 else 4))) →
      Disciplined (view s.db.live) ctx code op s.machine (execOp host view hooks ctx code op s).1.isOk
        (execOp host view hooks ctx code op s).2.machine := by
    intro op mode hmode hdest
    rw [execOp_call hmode]
    refine ⟨operandFrame_growth.kept_executeCall mode s, fun hok dest size data hd => ?_⟩
    rcases hr : executeCall host hooks ctx mode s with ⟨f | flow, s'⟩
    · rw [hr] at hok
      cases hok
    · rw [hr, hdest] at hd
      obtain ⟨hle, hwrites⟩ := executeCall_writes hr hd
      exact ⟨hle, (fun h => nomatch hmode.symm.trans h), hwrites⟩
  have hmachine : ∀ {op : Op}, effectOp host hooks ctx op = none → callMode op = none →
      ¬ ShortCopy (view s.db.live) ctx code op s.machine →
      Disciplined (view s.db.live) ctx code op s.machine (execOp host view hooks ctx code op s).1.isOk
        (execOp host view hooks ctx code op s).2.machine := by
    intro op hnone hmode hcover
    have hrun : execOp host view hooks ctx code op s = onMachine (machineOp host (view s.db.live) ctx code op) s := by
      unfold execOp
      rw [hnone]
      rfl
    rw [hrun, onMachine_run]
    exact disciplined_machineOp hmode hcover
  cases op with
  | call | callCode | delegateCall | staticCall => exact hcall rfl fun _ => rfl
  | create => exact ⟨operandFrame_growth.kept_executeCreate false s, fun _ _ _ _ hd => nomatch hd⟩
  | create2 => exact ⟨operandFrame_growth.kept_executeCreate true s, fun _ _ _ _ hd => nomatch hd⟩
  | selfDestruct =>
    exact ⟨@OperandFrame.kept_effectOp _ operandFrame_growth host hooks ctx .selfDestruct _ rfl s, fun _ _ _ _ hd => nomatch hd⟩
  | _ => exact hmachine rfl rfl hcover

end

/-- `MSTORE` of 9 at 3. -/
theorem memory_discipline_store :
    Disciplined (EvmAdapter.plain.callbacks Tables.empty) (EvmAdapter.plain.makeContext Tables.empty "u" "a" [] 0) [0x52] .mstore
      { Machine.start 10 [] with stack := [3, 9] } true
      (execOp Host.plain EvmAdapter.plain.callbacks (EvmAdapter.plain.hooks 1)
        (EvmAdapter.plain.makeContext Tables.empty "u" "a" [] 0) [0x52] .mstore
        { machine := { Machine.start 10 [] with stack := [3, 9] }, db := { file := Tables.empty, pending := none } }).2.machine :=
  memory_discipline Host.plain EvmAdapter.plain.callbacks (EvmAdapter.plain.hooks 1)
    (EvmAdapter.plain.makeContext Tables.empty "u" "a" [] 0) [0x52] .mstore
    { machine := { Machine.start 10 [] with stack := [3, 9] }, db := { file := Tables.empty, pending := none } }
    fun h => h.1.elim (fun h => nomatch h) fun h => nomatch h

def askingTwo : Bytes := [0x60, 0xff, 0x60, 1, 0x53, 0x60, 2] ++ (EvmAdapter.callOf 11).drop 2

def returningOne : Bytes := [0x60, 7, 0x60, 0, 0x53, 0x60, 1, 0x60, 0, 0xf3]

def copyingTwo : Bytes := [0x60, 0xff, 0x60, 1, 0x53, 0x60, 2, 0x60, 0, 0x60, 0, 0x37]

/-- One byte comes back, and the second byte of the range stays as it was; without call data the copy removes
the two bytes from the memory. -/
theorem range_not_padded :
    (∃ p ∈ steps Host.plain EvmAdapter.plain.callbacks (EvmAdapter.plain.hooks 2)
        (EvmAdapter.plain.makeContext Tables.empty "u" "a" [] 0) askingTwo 20
        { machine := Machine.start 100000 [], db := EvmAdapter.contracts [(EvmAdapter.eleven, returningOne)] },
      let after := (execOp Host.plain EvmAdapter.plain.callbacks (EvmAdapter.plain.hooks 2)
        (EvmAdapter.plain.makeContext Tables.empty "u" "a" [] 0) askingTwo p.1 p.2).2.machine
      destination (EvmAdapter.plain.callbacks p.2.db.live) (EvmAdapter.plain.makeContext Tables.empty "u" "a" [] 0) askingTwo
          p.1 p.2.machine after = some (0, 2, [7]) ∧ slice after.memory 0 2 = [7, 0xff]) ∧
    ∃ p ∈ steps Host.plain EvmAdapter.plain.callbacks (EvmAdapter.plain.hooks 2)
        (EvmAdapter.plain.makeContext Tables.empty "u" "a" [] 0) copyingTwo 20
        { machine := Machine.start 100000 [], db := EvmAdapter.contracts [] },
      p.1 = .callDataCopy ∧ p.2.machine.memory = [0, 0xff] ∧ (execOp Host.plain EvmAdapter.plain.callbacks (EvmAdapter.plain.hooks 2)
        (EvmAdapter.plain.makeContext Tables.empty "u" "a" [] 0) copyingTwo p.1 p.2).2.machine.memory = [] := by
  decide +kernel

end AbsoluteChain
