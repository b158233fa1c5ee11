import AbsoluteChain.Operands
import AbsoluteChain.Reverts

/-!
# Validated code

`scan_bytecode` reads code from the start and skips the data of each `PUSH`. Execution
stays on the positions that the scan visits as long as its jumps do: `_is_jumpdest`
looks at the byte alone, so a jump may land inside the data of a `PUSH`.
-/

namespace AbsoluteChain

open Python Actions Act

/-- How many bytes of data follow the opcode. -/
def pushSize (b : UInt8) : Nat := if 0x60 ≤ b.toNat ∧ b.toNat ≤ 0x7f then b.toNat - 0x5f else 0

def Op.pushed : Op → Nat
  | .push n => n
  | _ => 0

/-- A position that the scan visits. -/
inductive Boundary (code : Bytes) : Nat → Prop where
  | start : Boundary code 0
  | next {pc : Nat} {b : UInt8} : Boundary code pc → code[pc]? = some b → Boundary code (pc + pushSize b + 1)

def Op.known : Op → Bool
  | .unsupported _ => false
  | _ => true

theorem decode_facts (b : UInt8) :
    (decode b).pushed = pushSize b ∧ (isSupportedOpcode b = true → (decode b).known = true) := by
  have hall : ∀ n < 256, (decode (UInt8.ofNat n)).pushed = pushSize (UInt8.ofNat n) ∧
      (isSupportedOpcode (UInt8.ofNat n) = true → (decode (UInt8.ofNat n)).known = true) := by
    decide +kernel
  have hb := hall b.toNat b.toNat_lt
  rwa [UInt8.ofNat_toNat] at hb

theorem decode_supported {b : UInt8} (h : isSupportedOpcode b = true) (u : UInt8) : decode b ≠ .unsupported u := by
  intro hu
  have hknown := (decode_facts b).2 h
  rw [hu] at hknown
  cases hknown

/-! ## The scan -/

theorem scan_skip (skip : Nat) (code : Bytes) : scanBytecode skip code = scanBytecode 0 (code.drop skip) := by
  induction skip generalizing code with
  | zero => rfl
  | succ skip ih =>
    cases code with
    | nil => rfl
    | cons b t => exact ih t

theorem scan_cons {b : UInt8} {t : Bytes} (h : scanBytecode 0 (b :: t) = []) :
    isSupportedOpcode b = true ∧ scanBytecode 0 (t.drop (pushSize b)) = [] := by
  rw [← scan_skip]
  unfold scanBytecode at h
  by_cases hb : isSupportedOpcode b = true
  · rw [if_pos hb] at h
    exact ⟨hb, h⟩
  · rw [if_neg hb] at h
    cases h

/-- What the scan accepts it accepts from each position it visits. -/
theorem scan_boundary {code : Bytes} (h : scanBytecode 0 code = []) {pc : Nat} (hpc : Boundary code pc) :
    scanBytecode 0 (code.drop pc) = [] := by
  induction hpc with
  | start => exact h
  | @next pc b _ hb ih =>
    obtain ⟨hlt, hget⟩ := List.getElem?_eq_some_iff.mp hb
    rw [List.drop_eq_getElem_cons hlt, hget] at ih
    have hrest := (scan_cons ih).2
    rw [List.drop_drop] at hrest
    rwa [show pc + pushSize b + 1 = pc + 1 + pushSize b by omega]

theorem boundary_supported {code : Bytes} (h : scanBytecode 0 code = []) {pc : Nat} (hpc : Boundary code pc) {b : UInt8}
    (hb : code[pc]? = some b) : isSupportedOpcode b = true := by
  have hscan := scan_boundary h hpc
  obtain ⟨hlt, hget⟩ := List.getElem?_eq_some_iff.mp hb
  rw [List.drop_eq_getElem_cons hlt, hget] at hscan
  exact (scan_cons hscan).1

/-! ## The counter -/

section
variable {host : Host} {view : Tables → Callbacks} {hooks : Hooks} {ctx : EvmContext} {code : Bytes}

theorem execOp_counter (op : Op) (s : Vm) {flow : Flow} {s' : Vm}
    (h : execOp host view hooks ctx code op s = (.ok flow, s')) : s'.machine.pc = s.machine.pc + op.pushed := by
  have hkept : ∀ {op : Op}, op.pushed = 0 → (∀ cb, Keeps (Frame.fixed Machine.pc) (machineOp host cb ctx code op)) →
      execOp host view hooks ctx code op s = (.ok flow, s') → s'.machine.pc = s.machine.pc + op.pushed := by
    intro op hzero hop h
    rw [hzero]
    exact keeps_apply (operandFrame_counter.kept_execOp hop) h
  cases op with
  | push n =>
    obtain ⟨t, s₁, hread, h⟩ := bind_ok.mp h
    obtain rfl := (Prod.mk.inj hread).2
    obtain ⟨-, rfl⟩ := Prod.mk.inj h
    rfl
  | callDataCopy => exact hkept rfl (fun _ => keeps_bind (operandFrame_counter.kept_memCopy fun _ _ _ _ => rfl) fun _ => keeps_pure _) h
  | codeCopy => exact hkept rfl (fun _ => keeps_bind (operandFrame_counter.kept_memCopy fun _ _ _ _ => rfl) fun _ => keeps_pure _) h
  | returnDataCopy =>
    exact hkept rfl (fun _ => keeps_bind (keeps_read _) fun _ =>
      keeps_bind (operandFrame_counter.kept_memCopy fun _ _ _ _ => rfl) fun _ => keeps_pure _) h
  | _ => exact hkept rfl (fun cb => operandFrame_counter.kept_machineOp cb ctx rfl rfl) h

def jumpTarget (op : Op) (m : Machine) : Option Nat :=
  match op, m.stack with
  | .jump, dest :: _ => some dest
  | .jumpi, dest :: cond :: _ => if cond ≠ 0 then some dest else none
  | _, _ => none

theorem jumpTo_ok {dest dest' : Nat} {m m' : Machine} (h : jumpTo code dest m = (.ok (.jump dest'), m')) :
    dest' = dest ∧ isJumpDest code dest = true := by
  unfold jumpTo at h
  by_cases hd : isJumpDest code dest = true
  · rw [if_pos hd] at h
    exact ⟨(Flow.jump.inj (Except.ok.inj (Prod.mk.inj h).1)).symm, hd⟩
  · rw [if_neg hd] at h
    cases h

/-- An instruction whose body never jumps. -/
def Straight (m : MachineM Flow) : Prop := ∀ s dest s', m s ≠ (.ok (.jump dest), s')

theorem straight_bind {α : Type} {m : MachineM α} {k : α → MachineM Flow} (h : ∀ a, Straight (k a)) : Straight (m >>= k) := by
  intro s dest s' hr
  obtain ⟨a, t, -, hk⟩ := bind_ok.mp hr
  exact h a t dest s' hk

theorem straight_next : Straight (pure .next) := fun _ _ _ h => nomatch h

theorem straight_halt : Straight (pure .halt) := fun _ _ _ h => nomatch h

theorem straight_raise (f : Fault) : Straight (raise f) := fun _ _ _ h => nomatch h

theorem straight_pushFlow (v : Int) : Straight (pushFlow v) := straight_bind fun _ => straight_next

theorem straight_machineOp (cb : Callbacks) {op : Op} (hjump : op ≠ .jump) (hjumpi : op ≠ .jumpi) :
    Straight (machineOp host cb ctx code op) := by
  cases op with
  | jump => exact absurd rfl hjump
  | jumpi => exact absurd rfl hjumpi
  | stop => exact straight_halt
  | jumpDest => exact straight_next
  | add | mul | sub | div | mod | and | or | xor | eq | lt | gt | byte | shr =>
    exact straight_bind fun _ => straight_bind fun _ => straight_bind fun _ => straight_next
  | address | origin | caller | callValue | callDataSize | codeSize | timestamp | number | chainId | push0 =>
    exact straight_pushFlow _
  | isZero | not | balance | callDataLoad | extCodeSize | returnDataSize | gasLimit | gas =>
    exact straight_bind fun _ => straight_pushFlow _
  | callDataCopy | codeCopy | pop => exact straight_bind fun _ => straight_next
  | returnDataCopy => exact straight_bind fun _ => straight_bind fun _ => straight_next
  | push n | sstore => exact straight_bind fun _ => straight_bind fun _ => straight_bind fun _ => straight_next
  | shl =>
    refine straight_bind fun shift => straight_bind fun v => ?_
    by_cases h : v ≠ 0 ∧ 8 * host.memoryLimit < shift
    · rw [if_pos h]
      exact straight_raise _
    · rw [if_neg h]
      exact straight_pushFlow _
  | sha3 => exact straight_bind fun _ => straight_bind fun _ => straight_bind fun _ => straight_pushFlow _
  | mload | sload => exact straight_bind fun _ => straight_bind fun _ => straight_pushFlow _
  | mstore | mstore8 =>
    exact straight_bind fun _ => straight_bind fun _ => straight_bind fun _ => straight_bind fun _ => straight_next
  | extCodeCopy =>
    refine straight_bind fun _ => straight_bind fun _ => straight_bind fun _ => straight_bind fun _ => ?_
    exact straight_bind fun _ => straight_bind fun _ => straight_next
  | log n =>
    refine straight_bind fun _ => straight_bind fun _ => straight_bind fun _ => straight_bind fun _ => ?_
    exact straight_bind fun _ => straight_bind fun _ => straight_next
  | blockHash =>
    refine straight_bind fun height => ?_
    cases cb.blockHashOf height with
    | ok h => exact straight_pushFlow _
    | error f => exact straight_raise _
  | dup n =>
    refine straight_bind fun m => ?_
    cases m.stack[n - 1]? with
    | some v => exact straight_pushFlow _
    | none => exact straight_raise _
  | swap n =>
    refine straight_bind fun m => ?_
    cases m.stack[0]? with
    | none => exact straight_raise _
    | some a =>
      cases m.stack[n]? with
      | none => exact straight_raise _
      | some b => exact straight_bind fun _ => straight_next
  | «return» | revert => exact straight_bind fun _ => straight_bind fun _ => straight_bind fun _ => straight_bind fun _ => straight_halt
  | invalid | unsupported b => exact straight_raise _
  | create | create2 | callCode | call | delegateCall | staticCall | selfDestruct => exact straight_raise _

theorem straight_effectOp {op : Op} {m : Act Fault Vm Flow} (h : effectOp host hooks ctx op = some m) {s s' : Vm} {dest : Nat} :
    m s ≠ (.ok (.jump dest), s') := by
  have hpush : ∀ {m : MachineM Flow}, Straight m → ∀ {s : Vm}, onMachine m s ≠ (.ok (.jump dest), s') :=
    fun hm s hr => hm _ _ _ (onMachine_ok hr).1
  have hcall : ∀ mode, executeCall host hooks ctx mode s ≠ (.ok (.jump dest), s') := by
    intro mode hr
    obtain ⟨p, s₁, -, hr⟩ := bind_ok.mp hr
    obtain ⟨out, s₂, -, hr⟩ := bind_ok.mp hr
    refine hpush ?_ hr
    exact straight_bind fun _ => straight_bind fun _ => straight_bind fun _ => straight_bind fun _ => straight_pushFlow _
  have hcreate : ∀ salted, executeCreate host hooks ctx salted s ≠ (.ok (.jump dest), s') := by
    intro salted hr
    obtain ⟨a, s₁, -, hr⟩ := bind_ok.mp hr
    obtain ⟨out, s₂, -, hr⟩ := bind_ok.mp hr
    exact hpush (straight_bind fun _ => straight_pushFlow _) hr
  cases op with
  | create => exact Option.some.inj h ▸ hcreate false
  | create2 => exact Option.some.inj h ▸ hcreate true
  | call | callCode | delegateCall | staticCall => exact Option.some.inj h ▸ hcall _
  | selfDestruct =>
    obtain rfl := Option.some.inj h
    intro hr
    obtain ⟨b, s₁, -, hr⟩ := bind_ok.mp hr
    obtain ⟨_, s₂, -, hr⟩ := bind_ok.mp hr
    cases hr
  | _ => cases h

theorem execOp_jump {op : Op} {s s' : Vm} {dest : Nat} (h : execOp host view hooks ctx code op s = (.ok (.jump dest), s')) :
    jumpTarget op s.machine = some dest ∧ isJumpDest code dest = true := by
  unfold execOp at h
  cases heffect : effectOp host hooks ctx op with
  | some m =>
    rw [heffect] at h
    exact absurd h (straight_effectOp heffect)
  | none =>
    rw [heffect] at h
    obtain ⟨t, s₁, hread, h⟩ := bind_ok.mp h
    obtain rfl := (Prod.mk.inj hread).2
    have hrun := (onMachine_ok h).1
    by_cases hjump : op = .jump
    · subst hjump
      obtain ⟨d, m₁, hd, hrun⟩ := bind_ok.mp hrun
      have hs : s.machine.stack = d :: m₁.stack := (pop_ok hd).1
      obtain ⟨rfl, hdest⟩ := jumpTo_ok hrun
      exact ⟨by simp only [jumpTarget, hs], hdest⟩
    · by_cases hjumpi : op = .jumpi
      · subst hjumpi
        obtain ⟨d, m₁, hd, hrun⟩ := bind_ok.mp hrun
        obtain ⟨cond, m₂, hc, hrun⟩ := bind_ok.mp hrun
        have hs : s.machine.stack = d :: cond :: m₂.stack := by
          rw [← (pop_ok hc).1]
          exact (pop_ok hd).1
        by_cases hcond : cond ≠ 0
        · rw [if_pos hcond] at hrun
          obtain ⟨rfl, hdest⟩ := jumpTo_ok hrun
          exact ⟨by simp only [jumpTarget, hs, if_pos hcond], hdest⟩
        · rw [if_neg hcond] at hrun
          cases hrun
      · exact absurd hrun (straight_machineOp (view t) hjump hjumpi _ _ _)

/-! ## Runs of validated code -/

/-- A jump of the instruction goes to a position that the scan visits. -/
def Lands (code : Bytes) (p : Op × Vm) : Prop :=
  ∀ dest, jumpTarget p.1 p.2.machine = some dest → isJumpDest code dest = true → Boundary code dest

/-- The run lemma: the counter stays on the positions of the scan. -/
theorem steps_boundary {fuel : Nat} {s : Vm} (hpc : Boundary code s.machine.pc)
    (hlands : ∀ p ∈ steps host view hooks ctx code fuel s, Lands code p) :
    ∀ p ∈ steps host view hooks ctx code fuel s,
      ∃ b, code[p.2.machine.pc]? = some b ∧ p.1 = decode b ∧ Boundary code p.2.machine.pc := by
  induction fuel generalizing s with
  | zero => intro p hp; cases hp
  | succ fuel ih =>
    unfold steps at hlands ⊢
    cases hb : code[s.machine.pc]? with
    | none => intro p hp; cases hp
    | some b =>
      rw [hb] at hlands
      dsimp only at hlands ⊢
      rcases hc : onMachine (chargeOp (decode b)) s with ⟨f | u, s₁⟩
      · intro p hp; cases hp
      · rw [hc] at hlands
        dsimp only at hlands ⊢
        have hsame : s₁.machine.pc = s.machine.pc := by rw [(chargeOp_ok (onMachine_ok hc).1).1]
        rw [List.forall_mem_cons] at hlands ⊢
        refine ⟨⟨b, by rw [hsame, hb], rfl, by rw [hsame]; exact hpc⟩, ?_⟩
        rcases ho : execOp host view hooks ctx code (decode b) s₁ with ⟨f | flow, s₂⟩
        · intro p hp; cases hp
        · rw [ho] at hlands
          cases flow with
          | halt => intro p hp; cases hp
          | next =>
            refine ih ?_ hlands.2
            have hpc₂ : s₂.machine.pc = s.machine.pc + pushSize b := by
              rw [execOp_counter _ _ ho, hsame, (decode_facts b).1]
            change Boundary code (s₂.machine.pc + 1)
            rw [hpc₂]
            exact hpc.next hb
          | jump dest =>
            obtain ⟨htarget, hdest⟩ := execOp_jump ho
            exact ih (hlands.1 dest htarget hdest) hlands.2

/-- Code that the scan accepts reaches no unsupported opcode in a run whose jumps land where the scan went. -/
theorem validated_supported (hvalid : scanBytecode 0 code = []) {fuel : Nat} {gasLimit : Int} {storage : Storage} {db : Db}
    (hlands : ∀ p ∈ steps host view hooks ctx code fuel { machine := Machine.start gasLimit storage, db := db }, Lands code p) :
    ∀ p ∈ steps host view hooks ctx code fuel { machine := Machine.start gasLimit storage, db := db },
      ∀ u, p.1 ≠ .unsupported u := by
  intro p hp u
  obtain ⟨b, hb, hop, hpc⟩ := steps_boundary Boundary.start hlands p hp
  rw [hop]
  exact decode_supported (boundary_supported hvalid hpc hb) u

/-- It is enough that no data of a `PUSH` has the byte of a `JUMPDEST`. -/
theorem aligned_supported (hvalid : scanBytecode 0 code = [])
    (haligned : ∀ dest, isJumpDest code dest = true → Boundary code dest) {fuel : Nat} {s : Vm} (hs : s.machine.pc = 0) :
    ∀ p ∈ steps host view hooks ctx code fuel s, ∀ u, p.1 ≠ .unsupported u := by
  intro p hp u
  have hstart : Boundary code s.machine.pc := by
    rw [hs]
    exact .start
  obtain ⟨b, hb, hop, hpc⟩ := steps_boundary hstart (fun p _ dest _ hdest => haligned dest hdest) p hp
  rw [hop]
  exact decode_supported (boundary_supported hvalid hpc hb) u

end

/-- `PUSH1 3; JUMP; JUMPDEST; STOP`. -/
def hop : Bytes := [0x60, 3, 0x56, 0x5b, 0]

/-- A jump to an instruction. -/
theorem validated_supported_hop :
    scanBytecode 0 hop = [] ∧
    ∀ p ∈ steps Host.plain EvmAdapter.plain.callbacks (EvmAdapter.plain.hooks 1)
        (EvmAdapter.plain.makeContext Tables.empty "u" "a" [] 0) hop 100
        { machine := Machine.start 100 [], db := EvmAdapter.contracts [] },
      ∀ u, p.1 ≠ .unsupported u := by
  have hvalid : scanBytecode 0 hop = [] := by decide
  have hthree : Boundary hop 3 := (Boundary.start.next (b := 0x60) rfl).next (b := 0x56) rfl
  have haligned : ∀ dest, isJumpDest hop dest = true → Boundary hop dest := by
    intro dest hdest
    have hbyte : hop[dest]? = some 0x5b := by simpa [isJumpDest] using hdest
    have hlt : dest < 5 := (List.getElem?_eq_some_iff.mp hbyte).1
    have hall : ∀ d < 5, hop[d]? = some 0x5b → d = 3 := by decide
    rw [hall dest hlt hbyte]
    exact hthree
  exact ⟨hvalid, validated_supported hvalid fun p _ dest _ hdest => haligned dest hdest⟩

/-- `PUSH1 4; JUMP; PUSH2 0x5b0c`. -/
def hopInside : String := "600456615b0c"

/-- The validator accepts the code, the jump lands on the first byte of the data, and the second one is no
opcode. -/
theorem jump_into_data :
    (validateBytecodeHex hopInside).isOk = true ∧
    (parseBytecode hopInside).toOption = some [0x60, 4, 0x56, 0x61, 0x5b, 0x0c] ∧
    scanBytecode 0 [0x60, 4, 0x56, 0x61, 0x5b, 0x0c] = [] ∧
    ∃ p ∈ steps Host.plain EvmAdapter.plain.callbacks (EvmAdapter.plain.hooks 1)
        (EvmAdapter.plain.makeContext Tables.empty "u" "a" [] 0) [0x60, 4, 0x56, 0x61, 0x5b, 0x0c] 100
        { machine := Machine.start 100 [], db := EvmAdapter.contracts [] },
      p.1 = .unsupported 0x0c := by
  decide +kernel

end AbsoluteChain
