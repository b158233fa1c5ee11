import AbsoluteChain.ValidCode

/-!
# One interpreter on its own

What holds at each instruction of `execute_bytecode`, whatever the hooks return: the gas
meter, the words on the stack and the counter; and that the loop ends.
-/

namespace AbsoluteChain

open Python Actions Act

section
variable {host : Host} {view : Tables → Callbacks} {hooks : Hooks} {ctx : EvmContext} {code : Bytes}

/-! ## The loop without fuel -/

/-- The loop of `execute_bytecode` ends so. -/
inductive Finishes (host : Host) (view : Tables → Callbacks) (hooks : Hooks) (ctx : EvmContext) (code : Bytes) :
    Vm → Except Fault Unit × Vm → Prop where
  | off {s : Vm} : code[s.machine.pc]? = none → Finishes host view hooks ctx code s (.ok (), s)
  | unpaid {s s₁ : Vm} {b : UInt8} {f : Fault} : code[s.machine.pc]? = some b →
      onMachine (chargeOp (decode b)) s = (.error f, s₁) → Finishes host view hooks ctx code s (.error f, s₁)
  | raised {s s₁ s₂ : Vm} {b : UInt8} {u : Unit} {f : Fault} : code[s.machine.pc]? = some b →
      onMachine (chargeOp (decode b)) s = (.ok u, s₁) → execOp host view hooks ctx code (decode b) s₁ = (.error f, s₂) →
      Finishes host view hooks ctx code s (.error f, s₂)
  | halted {s s₁ s₂ : Vm} {b : UInt8} {u : Unit} : code[s.machine.pc]? = some b →
      onMachine (chargeOp (decode b)) s = (.ok u, s₁) → execOp host view hooks ctx code (decode b) s₁ = (.ok .halt, s₂) →
      Finishes host view hooks ctx code s (.ok (), { s₂ with machine := { s₂.machine with running := false } })
  | next {s s₁ s₂ : Vm} {b : UInt8} {u : Unit} {r : Except Fault Unit × Vm} : code[s.machine.pc]? = some b →
      onMachine (chargeOp (decode b)) s = (.ok u, s₁) → execOp host view hooks ctx code (decode b) s₁ = (.ok .next, s₂) →
      Finishes host view hooks ctx code (s₂.goto (s₂.machine.pc + 1)) r → Finishes host view hooks ctx code s r
  | jump {s s₁ s₂ : Vm} {b : UInt8} {u : Unit} {dest : Nat} {r : Except Fault Unit × Vm} : code[s.machine.pc]? = some b →
      onMachine (chargeOp (decode b)) s = (.ok u, s₁) → execOp host view hooks ctx code (decode b) s₁ = (.ok (.jump dest), s₂) →
      Finishes host view hooks ctx code (s₂.goto dest) r → Finishes host view hooks ctx code s r

theorem finishes {fuel : Nat} {s : Vm} (hstart : 0 ≤ s.machine.gasUsed)
    (hfuel : (s.machine.gasLimit - s.machine.gasUsed).toNat < fuel) :
    Finishes host view hooks ctx code s (runLoop host view hooks ctx code fuel s) := by
  induction fuel generalizing s with
  | zero => exact absurd hfuel (Nat.not_lt_zero _)
  | succ fuel ih =>
    rw [runLoop_succ]
    cases hb : code[s.machine.pc]? with
    | none => exact .off hb
    | some b =>
      dsimp only
      rcases hc : onMachine (chargeOp (decode b)) s with ⟨f | u, s₁⟩
      · exact .unpaid hb hc
      · dsimp only
        rcases ho : execOp host view hooks ctx code (decode b) s₁ with ⟨f | flow, s₂⟩
        · exact .raised hb hc ho
        · have hrest : flow ≠ .halt → ∀ pc, Finishes host view hooks ctx code (s₂.goto pc)
              (runLoop host view hooks ctx code fuel (s₂.goto pc)) := by
            intro hflow pc
            obtain ⟨hgrow, hwithin, hlimit⟩ := used_of_continues hc ho hflow hstart
            apply ih
            · change 0 ≤ s₂.machine.gasUsed
              omega
            · change (s₂.machine.gasLimit - s₂.machine.gasUsed).toNat < fuel
              omega
          cases flow with
          | next => exact .next hb hc ho (hrest Flow.noConfusion _)
          | jump dest => exact .jump hb hc ho (hrest Flow.noConfusion _)
          | halt => exact .halted hb hc ho

/-! ## The meter -/

/-- Neither operands nor the memory are metered. -/
theorem gas_finishCall_any {a : CallOperands} {gas : Int} {adopt : Bool} {out : CallOut} {m : Machine}
    (hfits : 0 < min out.gasUsed gas → m.gasUsed + min out.gasUsed gas ≤ m.gasLimit) :
    gasFrame.rel m (finishCall host a gas adopt out m).2 := by
  unfold finishCall
  have hcharge := chargeSubcallGas_fits hfits
  rw [bind_of_ok hcharge]
  refine gasFrame.trans (chargeSubcallGas_ok hcharge).2 ?_
  have hkept : Keeps gasFrame (do
      Act.write fun m =>
        { m with returnData := out.returnData, storage := if adopt then out.storage.getD m.storage else m.storage }
      memExtend host a.retOffset a.retSize
      let chunk := out.returnData.take a.retSize
      memAssign a.retOffset chunk.length chunk
      pushFlow (if out.success ∧ ¬ out.reverted then 1 else 0)) := by
    refine keeps_bind (keeps_write fun m => gasFrame.refl _) fun _ => ?_
    refine keeps_bind (keeps_memExtend machineFrame_gas.toInertFrame _ _) fun _ => ?_
    exact keeps_bind (keeps_memAssign machineFrame_gas.toInertFrame _ _ _) fun _ => keeps_pushFlow machineFrame_gas.toInertFrame _
  exact hkept _

theorem gas_executeCall_any (mode : CallMode) (s : Vm) :
    gasFrame.rel s.machine (executeCall host hooks ctx mode s).2.machine := by
  have hprepare : gasFrame.rel s.machine (prepareCall host mode s.machine).2 :=
    keeps_prepareCall machineFrame_gas.toInertFrame mode s.machine
  rcases hp : prepareCall host mode s.machine with ⟨f | p, m₁⟩
  · unfold executeCall
    rw [bind_run, onMachine_run, hp]
    rw [hp] at hprepare
    exact hprepare
  · rw [executeCall_run hp]
    rw [hp] at hprepare
    rcases hooks.call ctx p.2 s.db with ⟨f | out, db⟩
    · exact hprepare
    · refine gasFrame.trans hprepare (gas_finishCall_any ?_)
      rw [(prepareCall_ok hp).1]
      exact fits_of_callGas _

/-- Creating is the only instruction that may leave more gas used than there is: it charges first and raises
afterwards. -/
theorem gas_execOp_any {op : Op} (hcreate : op ≠ .create) (hcreate2 : op ≠ .create2) (s : Vm) :
    gasFrame.rel s.machine (execOp host view hooks ctx code op s).2.machine := by
  have hmachine : ∀ {op : Op}, effectOp host hooks ctx op = none →
      gasFrame.rel s.machine (execOp host view hooks ctx code op s).2.machine := by
    intro op hnone
    unfold execOp
    rw [hnone]
    exact keeps_gas_machineOp host (view s.db.live) ctx code op s.machine
  cases op with
  | create => exact absurd rfl hcreate
  | create2 => exact absurd rfl hcreate2
  | call | callCode | delegateCall | staticCall => exact gas_executeCall_any _ s
  | selfDestruct =>
    have hkept : Keeps (gasFrame.pull Vm.machinePart) (do
        let beneficiary ← onMachine pop
        onVmDb (hooks.selfDestruct ctx (wordToAddr beneficiary))
        pure Flow.halt) :=
      keeps_bind (keeps_on (keeps_pop machineFrame_gas.toInertFrame)) fun _ =>
        keeps_bind (OperandFrame.kept_onVmDb _) fun _ => keeps_pure _
    exact hkept s
  | _ => exact hmachine rfl

/-- The meter never goes back. -/
theorem grows_execOp (op : Op) (s : Vm) : s.machine.gasUsed ≤ (execOp host view hooks ctx code op s).2.machine.gasUsed := by
  have hcharged : ∀ (gas v : Int) (m : Machine),
      m.gasUsed ≤ ((chargeSubcallGas gas >>= fun _ => pushFlow v : MachineM Flow) m).2.gasUsed := by
    intro gas v m
    rw [bind_run]
    unfold chargeSubcallGas
    by_cases hpos : 0 < gas
    · rw [if_pos hpos]
      dsimp only
      by_cases hover : m.gasLimit < m.gasUsed + gas
      · rw [if_pos hover]
        exact Int.le_add_of_nonneg_right (le_of_lt hpos)
      · rw [if_neg hover]
        exact Int.le_add_of_nonneg_right (le_of_lt hpos)
    · rw [if_neg hpos]
      exact le_rfl
  have hcreated : ∀ salted, s.machine.gasUsed ≤ (executeCreate host hooks ctx salted s).2.machine.gasUsed := by
    intro salted
    have hprepare : s.machine.gasUsed ≤ (prepareCreate host salted s.machine).2.gasUsed :=
      (keeps_prepareCreate machineFrame_gas.toInertFrame salted s.machine).2.1
    rcases hp : prepareCreate host salted s.machine with ⟨f | a, m₁⟩
    · unfold executeCreate
      rw [bind_run, onMachine_run, hp]
      rw [hp] at hprepare
      exact hprepare
    · rw [executeCreate_run hp]
      rw [hp] at hprepare
      rcases hooks.create ctx a.initCode a.value a.salt s.db with ⟨f | out, db⟩
      · exact hprepare
      · refine hprepare.trans ?_
        exact hcharged out.gasUsed _ m₁
  by_cases hcreate : op = .create
  · subst hcreate
    exact hcreated false
  · by_cases hcreate2 : op = .create2
    · subst hcreate2
      exact hcreated true
    · exact (gas_execOp_any hcreate hcreate2 s).2.1

theorem words_execOp (op : Op) (s : Vm) (h : s.machine.Words) : (execOp host view hooks ctx code op s).2.machine.Words := by
  have hkept : ∀ {op : Op}, (∀ cb, Keeps wordsFrame (machineOp host cb ctx code op)) →
      (execOp host view hooks ctx code op s).2.machine.Words :=
    fun hop => operandFrame_words.kept_execOp hop s h
  have hcopy : ∀ source, Keeps wordsFrame (memCopy host source) := fun source => operandFrame_words.kept_memCopy fun _ _ _ _ => id
  cases op with
  | push n =>
    refine hkept fun _ => keeps_bind (keeps_read _) fun _ => keeps_bind (operandFrame_words.kept_push _) fun _ => ?_
    exact keeps_bind (keeps_write fun m => id) fun _ => keeps_pure _
  | callDataCopy => exact hkept fun _ => keeps_bind (hcopy _) fun _ => keeps_pure _
  | codeCopy => exact hkept fun _ => keeps_bind (hcopy _) fun _ => keeps_pure _
  | returnDataCopy => exact hkept fun _ => keeps_bind (keeps_read _) fun _ => keeps_bind (hcopy _) fun _ => keeps_pure _
  | _ => exact hkept fun cb => operandFrame_words.kept_machineOp cb ctx rfl rfl

/-! ## Each instruction of a run -/

/-- What holds where the loop executes an instruction, which it has charged for. -/
structure Metered (host : Host) (view : Tables → Callbacks) (hooks : Hooks) (ctx : EvmContext) (code : Bytes) (limit : Int)
    (p : Op × Vm) : Prop where
  inside : p.2.machine.pc < code.length
  words : p.2.machine.Words ∧ (execOp host view hooks ctx code p.1 p.2).2.machine.Words
  charged : 0 ≤ chargeCost p.1 ∧ chargeCost p.1 ≤ p.2.machine.gasUsed ∧ p.2.machine.gasUsed ≤ max 0 limit
  grows : p.2.machine.gasUsed ≤ (execOp host view hooks ctx code p.1 p.2).2.machine.gasUsed
  completed : ∀ flow s', execOp host view hooks ctx code p.1 p.2 = (.ok flow, s') → s'.machine.gasUsed ≤ max 0 limit
  raised : p.1 ≠ .create → p.1 ≠ .create2 → (execOp host view hooks ctx code p.1 p.2).2.machine.gasUsed ≤ max 0 limit
  costs : ∀ flow s', execOp host view hooks ctx code p.1 p.2 = (.ok flow, s') → flow ≠ .halt →
    p.2.machine.gasUsed - chargeCost p.1 + 1 ≤ s'.machine.gasUsed

/-- What the loop keeps between instructions. -/
structure Funded (limit : Int) (m : Machine) : Prop where
  limited : m.gasLimit = limit
  used : 0 ≤ m.gasUsed
  within : m.gasUsed ≤ max 0 limit
  words : m.Words

theorem chargeCost_nonneg (op : Op) : 0 ≤ chargeCost op := by
  cases op <;> simp [chargeCost, gasCost]

variable {limit : Int}

theorem metered_step {s s₁ : Vm} {b : UInt8} {u : Unit} (h : Funded limit s.machine) (hb : code[s.machine.pc]? = some b)
    (hc : onMachine (chargeOp (decode b)) s = (.ok u, s₁)) :
    Metered host view hooks ctx code limit (decode b, s₁) ∧ ∀ flow s₂, execOp host view hooks ctx code (decode b) s₁ = (.ok flow, s₂) →
      ∀ pc, Funded limit (s₂.goto pc).machine := by
  obtain ⟨hm, hfits⟩ := chargeOp_ok (onMachine_ok hc).1
  have hcost := chargeCost_nonneg (decode b)
  have hpc : s₁.machine.pc = s.machine.pc := by rw [hm]
  have hwords : s₁.machine.Words := by
    rw [hm]
    exact h.words
  have hused : s₁.machine.gasUsed = s.machine.gasUsed + chargeCost (decode b) := by rw [hm]
  have hlimit : s₁.machine.gasLimit = limit := by
    rw [hm]
    exact h.limited
  have hbefore := h.used
  have hbound := h.within
  have hwithin : s₁.machine.gasUsed ≤ max 0 limit := by
    have hcap := h.limited
    rcases hfits with hzero | hmost
    · omega
    · rw [hcap] at hmost
      omega
  have hmost : ∀ {m' : Machine}, gasFrame.rel s₁.machine m' → m'.gasUsed ≤ max 0 limit := by
    intro m' hrel
    have hle := hrel.2.2 (by rw [hlimit]; exact hwithin)
    rwa [hrel.1, hlimit] at hle
  refine ⟨⟨?_, ⟨hwords, words_execOp _ s₁ hwords⟩, ⟨hcost, ?_, hwithin⟩, grows_execOp _ s₁, ?_, ?_, ?_⟩, ?_⟩
  · change s₁.machine.pc < code.length
    rw [hpc]
    exact (List.getElem?_eq_some_iff.mp hb).1
  · change chargeCost (decode b) ≤ s₁.machine.gasUsed
    omega
  · exact fun flow s' ho => hmost (gas_execOp ho)
  · exact fun hcreate hcreate2 => hmost (gas_execOp_any hcreate hcreate2 s₁)
  · intro flow s' ho hflow
    have hmore := (used_of_continues hc ho hflow hbefore).1
    change s₁.machine.gasUsed - chargeCost (decode b) + 1 ≤ s'.machine.gasUsed
    omega
  · intro flow s₂ ho pc
    have hrel := gas_execOp ho
    have hgrows := hrel.2.1
    refine ⟨hrel.1.trans hlimit, ?_, hmost hrel, ?_⟩
    · change 0 ≤ s₂.machine.gasUsed
      omega
    · have hafter := @words_execOp host view hooks ctx code (decode b) s₁ hwords
      rwa [ho] at hafter

/-- The run lemma. -/
theorem metered_steps {fuel : Nat} {s : Vm} (h : Funded limit s.machine) :
    ∀ p ∈ steps host view hooks ctx code fuel s, Metered host view hooks ctx code limit p := by
  induction fuel generalizing s with
  | zero => intro p hp; cases hp
  | succ fuel ih =>
    unfold steps
    cases hb : code[s.machine.pc]? with
    | none => intro p hp; cases hp
    | some b =>
      dsimp only
      rcases hc : onMachine (chargeOp (decode b)) s with ⟨f | u, s₁⟩
      · intro p hp; cases hp
      · dsimp only
        obtain ⟨hmetered, hnext⟩ := @metered_step host view hooks ctx code limit s s₁ b u h hb hc
        rw [List.forall_mem_cons]
        refine ⟨hmetered, ?_⟩
        rcases ho : execOp host view hooks ctx code (decode b) s₁ with ⟨f | flow, s₂⟩
        · intro p hp; cases hp
        · cases flow with
          | halt => intro p hp; cases hp
          | next => exact ih (hnext _ s₂ ho _)
          | jump dest => exact ih (hnext _ s₂ ho _)

/-- The execution of any code with any gas ends, and each instruction on the way is metered. -/
theorem single_frame (host : Host) (view : Tables → Callbacks) (hooks : Hooks) (ctx : EvmContext) (code : Bytes) (gasLimit : Int)
    (storage : Storage) (db : Db) :
    (∃ r, Finishes host view hooks ctx code { machine := Machine.start gasLimit storage, db := db } r ∧
      ∀ fuel ≥ gasLimit.toNat + 1, runLoop host view hooks ctx code fuel { machine := Machine.start gasLimit storage, db := db } = r) ∧
    ∀ fuel, ∀ p ∈ steps host view hooks ctx code fuel { machine := Machine.start gasLimit storage, db := db },
      Metered host view hooks ctx code gasLimit p := by
  have hstart : Funded gasLimit (Machine.start gasLimit storage) :=
    ⟨rfl, le_rfl, le_max_left _ _, fun v hv => nomatch hv⟩
  have hfuel : (gasLimit - 0).toNat < gasLimit.toNat + 1 := by omega
  refine ⟨⟨_, finishes le_rfl hfuel, fun fuel hle => ?_⟩, fun fuel => metered_steps hstart⟩
  obtain ⟨more, rfl⟩ := Nat.exists_eq_add_of_le hle
  exact rounds_enough (gasLimit.toNat + 1) more _ le_rfl hfuel

end

/-- `CREATE` of a contract whose code stores a word: `PUSH5 6001600055; PUSH1 0; MSTORE; PUSH1 0; PUSH1 27;
PUSH1 5; CREATE`. -/
def creating : Bytes := [0x64, 0x60, 1, 0x60, 0, 0x55, 0x60, 0, 0x52, 0x60, 0, 0x60, 27, 0x60, 5, 0xf0]

/-- With 33000 gas the creation ends with 37024 used; and a `PUSH1` at the end of the code leaves the counter
beyond it. -/
theorem meter_exceeded :
    (∃ p ∈ steps Host.plain EvmAdapter.plain.callbacks (EvmAdapter.plain.hooks 2)
        (EvmAdapter.plain.makeContext Tables.empty "u" "a" [] 0) creating 20
        { machine := Machine.start 33000 [], db := EvmAdapter.contracts [] },
      p.1 = .create ∧ 33000 < (execOp Host.plain EvmAdapter.plain.callbacks (EvmAdapter.plain.hooks 2)
        (EvmAdapter.plain.makeContext Tables.empty "u" "a" [] 0) creating p.1 p.2).2.machine.gasUsed) ∧
    (runLoop Host.plain EvmAdapter.plain.callbacks (EvmAdapter.plain.hooks 2)
      (EvmAdapter.plain.makeContext Tables.empty "u" "a" [] 0) [0x60] 20
      { machine := Machine.start 100 [], db := EvmAdapter.contracts [] }).2.machine.pc = 2 := by
  decide +kernel

end AbsoluteChain
