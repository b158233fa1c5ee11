import AbsoluteChain.ContractManager

/-!
# The arguments of a call

`ContractManager.call` puts the arguments as instructions in front of the code,
whose jumps are absolute. The call in lock step with the deployed code on a
stack that holds the arguments already.
-/

namespace AbsoluteChain.MiniVM

open Python StepMachine

/-! ## The two runs -/

def Contract.deployedRun (c : Contract) (args : List VmValue) (n : Nat) : State :=
  after (step c.bytecode defaultGasLimit) n (.running (.start args.reverse c.storage))

def Contract.callRun (c : Contract) (args : List VmValue) (n : Nat) : State :=
  after (step (callCode c.bytecode args) defaultGasLimit) n (.running (.start [] c.storage))

def jumpTaken (code : Bytecode) (m : Machine) : Option Int :=
  match code[m.pc]? with
  | none => none
  | some (name, arg) =>
    match perform (Opcode.ofName name) arg m.stack m.storage with
    | .jump dest _ => some dest
    | _ => none

def SameOutcome : Except VmError (Option CallResult) → Outcome → Prop
  | .ok (some a), .ok r => a.stack = r.stack ∧ a.storage = r.storage ∧ a.success = r.success
  | .error _, .error _ => True
  | _, _ => False

structure ContractManager.CallFaithful (m : ContractManager) (address method : String) (c : Contract)
    (args : List VmValue) : Prop where
  outcome : SameOutcome (m.call address method args).1 (executeFrom c.bytecode defaultGasLimit args.reverse c.storage)
  jumps : ∀ n s d s', c.deployedRun args n = .running s → jumpTaken c.bytecode s = some d →
    c.callRun args (args.length + n + 1) = .running s' →
      ∃ t, c.deployedRun args (n + 1) = .running t ∧ s'.pc = t.pc + args.length

/-- A destination that `k` pushes in front of the code do not move. -/
def Unmoved (length k : Nat) (dest : Int) : Prop :=
  (k = 0 ∧ dest ≠ length) ∨ dest < 0 ∨ (length + k : Int) < dest

/-- The deployed code jumps nowhere as long as the gas of the call lasts, unless the destination is not moved, and where
it returns there is gas left for the pushes. -/
structure Contract.Undisturbed (c : Contract) (args : List VmValue) : Prop where
  jumps : ∀ n m d, c.deployedRun args n = .running m → jumpTaken c.bytecode m = some d →
    m.gasUsed + 1 + 2 * args.length ≤ defaultGasLimit → Unmoved c.bytecode.length args.length d
  gas : ∀ r, executeFrom c.bytecode defaultGasLimit args.reverse c.storage = .ok r →
    r.gasUsed + 2 * args.length ≤ defaultGasLimit

/-! ## States in step -/

def Machine.shifted (k : Nat) (m : Machine) : Machine := { m with pc := m.pc + k, gasUsed := m.gasUsed + 2 * k }

def Overspent (limit k : Nat) : State → Prop
  | .running m => limit < m.gasUsed + 2 * k
  | .ended (.ok r) => limit < r.gasUsed + 2 * k
  | .ended (.error _) => True

theorem overspent_error (limit k : Nat) (e : VmError) : Overspent limit k (.ended (.error e)) := trivial

inductive InStep (limit k : Nat) : State → State → Prop where
  | running (m : Machine) (h : m.gasUsed + 2 * k ≤ limit) : InStep limit k (.running m) (.running (m.shifted k))
  | returned {r r' : Result} (h : r.gasUsed + 2 * k ≤ limit) (hstack : r'.stack = r.stack)
      (hstorage : r'.storage = r.storage) (hsuccess : r'.success = r.success) :
      InStep limit k (.ended (.ok r)) (.ended (.ok r'))
  | raised {s : State} (h : Overspent limit k s) (e : VmError) : InStep limit k s (.ended (.error e))

section
variable {code : Bytecode} {limit k : Nat}

theorem overspent_land {m : Machine} (h : limit < m.gasUsed + 2 * k) (e : Effect) :
    Overspent limit k (land code limit m e) := by
  cases e with
  | next s d => exact h
  | jump dest s =>
    simp only [land]
    split
    · trivial
    · exact h
  | stop => exact h
  | raise e => trivial

theorem overspent_step {m : Machine} (h : limit < m.gasUsed + 2 * k) : Overspent limit k (step code limit m) := by
  unfold step
  cases code[m.pc]? with
  | none => exact h
  | some i =>
    simp only
    split
    · trivial
    · refine overspent_land ?_ _
      simp only
      omega

theorem overspent_advance {s : State} (h : Overspent limit k s) : Overspent limit k (advance (step code limit) s) := by
  cases s with
  | running m => exact overspent_step h
  | ended r => exact h

end

/-! ## Jumps -/

theorem binary_not_jump (f : VmValue → VmValue → Option VmValue) (storage : Storage) (stack s : List VmValue) (d : Int) :
    binary f storage stack ≠ .jump d s := by
  cases stack with
  | nil => simp [binary]
  | cons b t =>
    cases t with
    | nil => simp [binary]
    | cons a t =>
      simp only [binary]
      split
      · simp
      · simp

theorem bump_not_jump (amount : Int) (storage : Storage) (stack s : List VmValue) (d : Int) :
    bump amount storage stack ≠ .jump d s := by
  cases stack with
  | nil => simp [bump]
  | cons v t =>
    cases v with
    | int n => simp [bump]
    | str x => simp [bump]

theorem perform_jump {op : Opcode} {arg : Option VmValue} {stack s : List VmValue} {storage : Storage} {d : Int}
    (h : perform op arg stack storage = .jump d s) : op = .jump ∨ op = .jumpi := by
  cases op with
  | jump => exact .inl rfl
  | jumpi => exact .inr rfl
  | push =>
    cases arg with
    | none => cases h
    | some v => cases h
  | pop | load =>
    cases stack with
    | nil => cases h
    | cons v t => cases h
  | store =>
    cases stack with
    | nil => cases h
    | cons v t =>
      cases t with
      | nil => cases h
      | cons k t => cases h
  | add | sub | mul | div => exact absurd h (binary_not_jump _ _ _ _ _)
  | eq => exact absurd h (binary_not_jump VmValue.eq _ _ _ _)
  | lt => exact absurd h (binary_not_jump VmValue.lt _ _ _ _)
  | gt => exact absurd h (binary_not_jump VmValue.gt _ _ _ _)
  | inc | dec => exact absurd h (bump_not_jump _ _ _ _ _)
  | stop => cases h
  | unknown name => cases h

theorem jumpTaken_eq {code : Bytecode} {m : Machine} {d : Int} (h : jumpTaken code m = some d) :
    ∃ name arg s, code[m.pc]? = some (name, arg) ∧ perform (Opcode.ofName name) arg m.stack m.storage = .jump d s ∧
      (Opcode.ofName name).gasCost = 1 := by
  unfold jumpTaken at h
  cases hget : code[m.pc]? with
  | none => simp [hget] at h
  | some i =>
    obtain ⟨name, arg⟩ := i
    simp only [hget] at h
    cases he : perform (Opcode.ofName name) arg m.stack m.storage with
    | jump dest s =>
      simp only [he, Option.some.injEq] at h
      refine ⟨name, arg, s, rfl, h ▸ he, ?_⟩
      rcases perform_jump he with hop | hop
      · rw [hop]; rfl
      · rw [hop]; rfl
    | next s d => simp [he] at h
    | stop => simp [he] at h
    | raise e => simp [he] at h

theorem step_jump {code : Bytecode} {limit : Nat} {m : Machine} {name : String} {arg : Option VmValue} {d : Int}
    {s : List VmValue} (hget : code[m.pc]? = some (name, arg))
    (hjump : perform (Opcode.ofName name) arg m.stack m.storage = .jump d s)
    (hcost : (Opcode.ofName name).gasCost = 1) (hgas : m.gasUsed + 1 ≤ limit) :
    step code limit m =
      if d < 0 ∨ (code.length : Int) ≤ d then .ended (.error (.invalidJump d))
      else .running ⟨d.toNat, s, m.storage, m.gasUsed + 1⟩ := by
  rw [step_charged hget (by omega), hcost, hjump]
  rfl

/-! ## One step -/

section
variable {c : Contract} {args : List VmValue} {limit : Nat}

theorem shifted_get {m : Machine} {i : Instruction} (h : c.bytecode[m.pc]? = some i) :
    (callCode c.bytecode args)[(m.shifted args.length).pc]? = some i := by
  have hpc := (List.getElem?_eq_some_iff.mp h).1
  rw [← h]
  exact callCode_bytecode _ _ hpc

theorem inStep_land {m : Machine} (hgas : m.gasUsed + 2 * args.length ≤ limit) (e : Effect)
    (hjump : ∀ d s, e = .jump d s → Unmoved c.bytecode.length args.length d) :
    InStep limit args.length (land c.bytecode limit m e)
      (land (callCode c.bytecode args) limit (m.shifted args.length) e) := by
  cases e with
  | next s d =>
    have h : InStep limit args.length (.running { m with pc := m.pc + 1, stack := s, storage := d }) _ := .running _ hgas
    simpa [land, Machine.shifted, Nat.add_right_comm] using h
  | jump d s =>
    have hlength := callCode_length c.bytecode args
    have hd := hjump d s rfl
    unfold Unmoved at hd
    by_cases hin : d < 0 ∨ (c.bytecode.length : Int) ≤ d
    · have hout : d < 0 ∨ ((callCode c.bytecode args).length : Int) ≤ d := by omega
      simp only [land, if_pos hin, if_pos hout]
      exact .raised (overspent_error _ _ _) _
    · have hk : args.length = 0 := by omega
      have hin' : ¬ (d < 0 ∨ ((callCode c.bytecode args).length : Int) ≤ d) := by omega
      simp only [land, if_neg hin, if_neg hin']
      have h : InStep limit args.length (.running { m with pc := d.toNat, stack := s }) _ := .running _ hgas
      simpa [Machine.shifted, hk] using h
  | stop =>
    refine .returned hgas rfl rfl ?_
    have hm : m.gasUsed ≤ limit := by omega
    simp only [Machine.result, Machine.shifted, hgas, hm]
  | raise e => exact .raised (overspent_error _ _ _) _

theorem inStep_step {m : Machine} (hm : Sane c.bytecode limit m) (hgas : m.gasUsed + 2 * args.length ≤ limit)
    (hjump : ∀ d, jumpTaken c.bytecode m = some d → m.gasUsed + 1 + 2 * args.length ≤ limit →
      Unmoved c.bytecode.length args.length d) :
    InStep limit args.length (step c.bytecode limit m)
      (step (callCode c.bytecode args) limit (m.shifted args.length)) := by
  cases hget : c.bytecode[m.pc]? with
  | none =>
    -- the end of the deployed code is the `STOP` of the call
    have hend : m.pc = c.bytecode.length := by
      have := List.getElem?_eq_none_iff.mp hget
      have := hm.1
      omega
    have hstop : (callCode c.bytecode args)[(m.shifted args.length).pc]? = some ("STOP", none) := by
      simp only [Machine.shifted, hend]
      exact callCode_stop _ _
    have hfree : ¬ limit < (m.shifted args.length).gasUsed + (Opcode.ofName "STOP").gasCost := by
      simp only [Machine.shifted, show (Opcode.ofName "STOP").gasCost = 0 from rfl]
      omega
    rw [step_at hstop, if_neg hfree]
    simp only [step, hget]
    refine .returned hgas rfl rfl ?_
    have hm' : m.gasUsed ≤ limit := by omega
    simp [Machine.result, Machine.shifted, hgas, hm', show (Opcode.ofName "STOP").gasCost = 0 from rfl]
  | some i =>
    obtain ⟨name, arg⟩ := i
    generalize hcost : (Opcode.ofName name).gasCost = cost
    rw [step_at (shifted_get hget), hcost]
    by_cases hover : limit < (m.shifted args.length).gasUsed + cost
    · rw [if_pos hover]
      refine .raised ?_ _
      rw [step_at hget, hcost]
      split
      · trivial
      · refine overspent_land ?_ _
        simp only [Machine.shifted] at hover
        simp only
        omega
    · have hfits : m.gasUsed + cost + 2 * args.length ≤ limit := by
        simp only [Machine.shifted] at hover
        omega
      rw [step_at hget, hcost, if_neg hover, if_neg (by omega)]
      have h := @inStep_land c args limit { m with gasUsed := m.gasUsed + cost } hfits
        (perform (Opcode.ofName name) arg m.stack m.storage) ?_
      · simpa [Machine.shifted, Nat.add_right_comm] using h
      · intro d s he
        have htaken : jumpTaken c.bytecode m = some d := by simp [jumpTaken, hget, he]
        obtain ⟨name', arg', s', hget', -, hone⟩ := jumpTaken_eq htaken
        rw [hget] at hget'
        cases hget'
        exact hjump d htaken (by omega)

end

/-! ## Whole runs -/

section
variable (c : Contract) (args : List VmValue)

theorem callRun_pushes {n : Nat} (h : n ≤ args.length) :
    (2 * n ≤ defaultGasLimit ∧ c.callRun args n = .running ⟨n, (args.take n).reverse, c.storage, 2 * n⟩) ∨
      (defaultGasLimit < 2 * n ∧ ∃ e, c.callRun args n = .ended (.error e)) := by
  induction n with
  | zero => exact .inl ⟨Nat.zero_le _, rfl⟩
  | succ n ih =>
    rcases ih (by omega) with ⟨hgas, hrun⟩ | ⟨hgas, e, hrun⟩
    · have hn : args[n]? = some args[n] := List.getElem?_eq_getElem (by omega)
      have hstep : c.callRun args (n + 1) = _ := after_running_succ hrun
      have hcost : (Opcode.ofName "PUSH").gasCost = 2 := rfl
      rw [step_at (callCode_push _ _ hn), hcost] at hstep
      by_cases hover : defaultGasLimit < 2 * n + 2
      · rw [if_pos hover] at hstep
        exact .inr ⟨by omega, _, hstep⟩
      · rw [if_neg hover] at hstep
        refine .inl ⟨by omega, ?_⟩
        rw [hstep, List.take_succ_eq_append_getElem (by omega), List.reverse_append]
        rfl
    · exact .inr ⟨by omega, e, after_ended_add hrun 1⟩

theorem inStep_start :
    InStep defaultGasLimit args.length (c.deployedRun args 0) (c.callRun args args.length) := by
  rcases callRun_pushes c args (Nat.le_refl _) with ⟨hgas, hrun⟩ | ⟨hgas, e, hrun⟩
  · rw [hrun, List.take_length]
    have h : InStep defaultGasLimit args.length (c.deployedRun args 0) _ :=
      .running (.start args.reverse c.storage) (by simpa [Machine.start] using hgas)
    simpa [Machine.shifted, Machine.start] using h
  · rw [hrun]
    refine .raised ?_ e
    show defaultGasLimit < 0 + 2 * args.length
    omega

variable {c args}

theorem inStep_run
    (hjumps : ∀ n m d, c.deployedRun args n = .running m → c.callRun args (args.length + n) = .running (m.shifted args.length) →
      jumpTaken c.bytecode m = some d → m.gasUsed + 1 + 2 * args.length ≤ defaultGasLimit →
      Unmoved c.bytecode.length args.length d) (n : Nat) :
    InStep defaultGasLimit args.length (c.deployedRun args n) (c.callRun args (args.length + n)) := by
  induction n with
  | zero => exact inStep_start c args
  | succ n ih =>
    have hdeployed : c.deployedRun args (n + 1) = _ := after_succ _ n _
    have hcall : c.callRun args (args.length + n + 1) = _ := after_succ _ (args.length + n) _
    change InStep _ _ _ (c.callRun args (args.length + n + 1))
    rw [hdeployed, hcall]
    change InStep _ _ (advance _ (c.deployedRun args n)) (advance _ (c.callRun args (args.length + n)))
    generalize hd : c.deployedRun args n = s at ih ⊢
    generalize hc : c.callRun args (args.length + n) = t at ih ⊢
    cases ih with
    | running m hgas => exact inStep_step (sane_after hd) hgas fun d => hjumps n m d hd hc
    | returned hgas hstack hstorage hsuccess => exact .returned hgas hstack hstorage hsuccess
    | raised hover e => exact .raised (overspent_advance hover) e

theorem outcome_iff {m : ContractManager} {address : String} (hc : m.contracts.get? address = some c) (method : String)
    (h : ∀ n, InStep defaultGasLimit args.length (c.deployedRun args n) (c.callRun args (args.length + n))) :
    SameOutcome (m.call address method args).1 (executeFrom c.bytecode defaultGasLimit args.reverse c.storage) ↔
      ∀ r, executeFrom c.bytecode defaultGasLimit args.reverse c.storage = .ok r →
        r.gasUsed + 2 * args.length ≤ defaultGasLimit := by
  obtain ⟨n, hn⟩ := executeFrom_eq_iff.mp (rfl : executeFrom c.bytecode defaultGasLimit args.reverse c.storage = _)
  have hin := h n
  change c.deployedRun args n = _ at hn
  rw [hn] at hin
  generalize hcall : c.callRun args (args.length + n) = t at hin
  generalize executeFrom c.bytecode defaultGasLimit args.reverse c.storage = o at hin ⊢
  cases hin with
  | returned hgas hstack hstorage hsuccess =>
    have hrun : execute (callCode c.bytecode args) defaultGasLimit c.storage = _ :=
      executeFrom_eq_iff.mpr (Exists.intro _ hcall)
    simp only [ContractManager.call, hc, hrun, SameOutcome]
    constructor
    · intro _ r hr
      cases hr
      exact hgas
    · intro _
      exact ⟨hstack, hstorage, hsuccess⟩
  | raised hover e =>
    have hrun : execute (callCode c.bytecode args) defaultGasLimit c.storage = _ :=
      executeFrom_eq_iff.mpr (Exists.intro _ hcall)
    simp only [ContractManager.call, hc, hrun]
    cases o with
    | error e' => simp [SameOutcome]
    | ok r =>
      have hr : defaultGasLimit < r.gasUsed + 2 * args.length := hover
      simp only [SameOutcome, false_iff]
      intro hfits
      have := hfits r rfl
      omega

theorem unmoved_of_kept {n : Nat} {m : Machine} {d : Int} (hd : c.deployedRun args n = .running m)
    (hc : c.callRun args (args.length + n) = .running (m.shifted args.length)) (htaken : jumpTaken c.bytecode m = some d)
    (hgas : m.gasUsed + 1 + 2 * args.length ≤ defaultGasLimit)
    (hkept : ∀ s', c.callRun args (args.length + n + 1) = .running s' →
      ∃ t, c.deployedRun args (n + 1) = .running t ∧ s'.pc = t.pc + args.length) :
    Unmoved c.bytecode.length args.length d := by
  obtain ⟨name, arg, s, hget, hjump, hcost⟩ := jumpTaken_eq htaken
  have hdeployed : c.deployedRun args (n + 1) = _ := after_running_succ hd
  have hcall : c.callRun args (args.length + n + 1) = _ := after_running_succ hc
  have hlength := callCode_length c.bytecode args
  rw [step_jump hget hjump hcost (by omega)] at hdeployed
  rw [step_jump (shifted_get hget) hjump hcost (by simp only [Machine.shifted]; omega)] at hcall
  unfold Unmoved
  by_cases hout : d < 0 ∨ ((callCode c.bytecode args).length : Int) ≤ d
  · omega
  · rw [if_neg hout] at hcall
    obtain ⟨t, ht, hpc⟩ := hkept _ hcall
    by_cases hin : d < 0 ∨ (c.bytecode.length : Int) ≤ d
    · rw [if_pos hin, ht] at hdeployed
      cases hdeployed
    · rw [if_neg hin, ht] at hdeployed
      cases hdeployed
      simp only at hpc
      omega

theorem running_of_inStep {n : Nat} {s' : Machine}
    (h : ∀ n, InStep defaultGasLimit args.length (c.deployedRun args n) (c.callRun args (args.length + n)))
    (hc : c.callRun args (args.length + n + 1) = .running s') :
    ∃ t, c.deployedRun args (n + 1) = .running t ∧ s'.pc = t.pc + args.length := by
  have hin := h (n + 1)
  change InStep _ _ _ (c.callRun args (args.length + n + 1)) at hin
  rw [hc] at hin
  generalize hnext : c.deployedRun args (n + 1) = t at hin
  cases hin with
  | running t _ => exact ⟨t, rfl, rfl⟩

end

/-- A call does what the deployed code does on the given arguments, jump by jump, exactly when the pushes in front of the
code move no jump that it takes and use up no gas that it needs. -/
theorem call_faithful_iff {m : ContractManager} {address : String} {c : Contract} (hc : m.contracts.get? address = some c)
    (method : String) (args : List VmValue) : m.CallFaithful address method c args ↔ c.Undisturbed args := by
  constructor
  · intro h
    have hin := inStep_run fun n s d hd hcall htaken hgas =>
      unmoved_of_kept hd hcall htaken hgas fun t => h.jumps n s d t hd htaken
    refine ⟨?_, (outcome_iff hc method hin).mp h.outcome⟩
    intro n s d hd htaken hgas
    have hn := hin n
    rw [hd] at hn
    generalize hcall : c.callRun args (args.length + n) = t at hn
    cases hn with
    | running _ _ => exact unmoved_of_kept hd hcall htaken hgas fun s' => h.jumps n s d s' hd htaken
    | raised hover e =>
      have : defaultGasLimit < s.gasUsed + 2 * args.length := hover
      omega
  · intro h
    have hin := inStep_run fun n s d hd _ => h.jumps n s d hd
    refine ⟨(outcome_iff hc method hin).mpr h.gas, ?_⟩
    intro n s d s' _ _ hcall
    exact running_of_inStep hin hcall

/-! ## Two contracts -/

def adder : Contract := ⟨[("ADD", none)], .empty, 0⟩

theorem adder_run : executeFrom adder.bytecode defaultGasLimit [.int 2, .int 1] .empty = .ok ⟨[.int 3], .empty, 3, true⟩ :=
  executeFrom_eq_iff.mpr ⟨2, rfl⟩

theorem adder_no_jump (m : Machine) : jumpTaken adder.bytecode m = none := by
  cases h : jumpTaken adder.bytecode m with
  | none => rfl
  | some d =>
    obtain ⟨name, arg, s, hget, -, hcost⟩ := jumpTaken_eq h
    have hmem := List.mem_of_getElem? hget
    cases List.mem_singleton.mp hmem
    cases hcost

/-- It jumps over a push. -/
def skipper : Contract := ⟨[("PUSH", some (.int 3)), ("JUMP", none), ("PUSH", some (.int 111)), ("STOP", none)], .empty, 0⟩

theorem skipper_run : ∃ r, executeFrom skipper.bytecode defaultGasLimit [] .empty = .ok r ∧ r.gasUsed = 3 :=
  ⟨_, executeFrom_eq_iff.mpr ⟨3, rfl⟩, rfl⟩

theorem skipper_jumps {n : Nat} {m : Machine} {d : Int} (hrun : skipper.deployedRun [] n = .running m)
    (htaken : jumpTaken skipper.bytecode m = some d) : d = 3 := by
  rcases Nat.lt_or_ge n 3 with hn | hn
  · obtain rfl | rfl | rfl : n = 0 ∨ n = 1 ∨ n = 2 := by omega
    · cases hrun
      cases htaken
    · cases hrun
      cases htaken
      rfl
    · cases hrun
      cases htaken
  · obtain ⟨k, rfl⟩ := Nat.exists_eq_add_of_le hn
    obtain ⟨r, hended⟩ : ∃ r, skipper.deployedRun [] (3 + k) = .ended r := ⟨_, after_ended_add rfl k⟩
    rw [hended] at hrun
    cases hrun

/-- Arguments without a jump, and a jump without arguments. -/
theorem call_faithful_both :
    ContractManager.CallFaithful ⟨[("adder", adder)], []⟩ "adder" "main" adder [.int 1, .int 2] ∧
    ContractManager.CallFaithful ⟨[("skipper", skipper)], []⟩ "skipper" "main" skipper [] := by
  refine ⟨(call_faithful_iff rfl "main" [.int 1, .int 2]).mpr ⟨?_, ?_⟩, (call_faithful_iff rfl "main" []).mpr ⟨?_, ?_⟩⟩
  · intro n m d _ htaken
    rw [adder_no_jump] at htaken
    cases htaken
  · intro r hr
    cases adder_run.symm.trans hr
    decide
  · intro n m d hrun htaken _
    rw [skipper_jumps hrun htaken]
    exact .inl ⟨rfl, by decide⟩
  · intro r hr
    obtain ⟨r', hrun, hgas⟩ := skipper_run
    rw [Except.ok.inj (hr.symm.trans hrun), hgas]
    decide

/-- With an argument in front, the jump lands on the instruction that it should skip. -/
theorem call_lands_short : ¬ ∀ (m : ContractManager) (address method : String) (c : Contract) (args : List VmValue),
    m.contracts.get? address = some c → m.CallFaithful address method c args := by
  intro h
  have hcall := (h ⟨[("skipper", skipper)], []⟩ "skipper" "main" skipper [.int 7] rfl).outcome
  have hdeployed : executeFrom skipper.bytecode defaultGasLimit [.int 7] skipper.storage = .ok ⟨[.int 7], .empty, 3, true⟩ :=
    executeFrom_eq_iff.mpr ⟨3, rfl⟩
  have hrun : execute (callCode skipper.bytecode [.int 7]) defaultGasLimit skipper.storage =
      .ok ⟨[.int 111, .int 7], .empty, 7, true⟩ := executeFrom_eq_iff.mpr ⟨5, rfl⟩
  simp [ContractManager.call, Dict.get?_cons, hrun, SameOutcome, hdeployed] at hcall

end AbsoluteChain.MiniVM
