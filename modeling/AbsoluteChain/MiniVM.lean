import AbsoluteChain.Python
import AbsoluteChain.StepMachine

/-!
# The MiniVM

`MiniVM` of `execution/vm.py`: a stack machine over numbers and strings, with
gas, absolute jumps and a storage.
-/

namespace AbsoluteChain.MiniVM

open Python StepMachine

/-! ## Values and storage -/

inductive VmValue where
  | int (n : Int)
  | str (s : String)
  deriving DecidableEq

structure Storage where
  entries : Dict VmValue VmValue
  keyed : entries.Keyed
  deriving DecidableEq

namespace Storage

def empty : Storage := ⟨[], List.nodup_nil⟩

def get (d : Storage) (k : VmValue) : VmValue := (d.entries.get? k).getD (.int 0)

def set (d : Storage) (k v : VmValue) : Storage := ⟨d.entries.set k v, d.keyed.set k v⟩

theorem get_set (d : Storage) (k j v : VmValue) : (d.set k v).get j = if j = k then v else d.get j := by
  unfold get set
  rw [Dict.get?_set]
  split <;> rfl

/-- Every lookup gives the same. -/
def Agrees (d d' : Storage) : Prop := ∀ k, d.get k = d'.get k

theorem Agrees.refl (d : Storage) : d.Agrees d := fun _ => rfl

theorem Agrees.set {d d' : Storage} (h : d.Agrees d') (k v : VmValue) : (d.set k v).Agrees (d'.set k v) := by
  intro j
  rw [get_set, get_set, h j]

end Storage

/-! ## Instructions -/

/-- A name and an argument, as the bytecode has them. -/
abbrev Instruction := String × Option VmValue

abbrev Bytecode := List Instruction

inductive Opcode where
  | push | pop | add | sub | mul | div | store | load | inc | dec | eq | lt | gt | jump | jumpi | stop
  | unknown (name : String)
  deriving DecidableEq

def Opcode.ofName (name : String) : Opcode :=
  match name with
  | "PUSH" => .push
  | "POP" => .pop
  | "ADD" => .add
  | "SUB" => .sub
  | "MUL" => .mul
  | "DIV" => .div
  | "STORE" | "SSTORE" | "MSTORE" => .store
  | "LOAD" | "SLOAD" | "MLOAD" => .load
  | "INC" => .inc
  | "DEC" => .dec
  | "EQ" => .eq
  | "LT" => .lt
  | "GT" => .gt
  | "JUMP" => .jump
  | "JUMPI" => .jumpi
  | "STOP" => .stop
  | name => .unknown name

def Opcode.gasCost : Opcode → Nat
  | .push | .pop | .inc | .dec => 2
  | .add | .sub | .eq | .lt | .gt => 3
  | .mul | .div => 5
  | .store | .load => 20
  | .stop => 0
  | .jump | .jumpi | .unknown _ => 1

inductive VmError where
  | outOfGas (used cost limit : Nat)
  | pushRequiresArgument
  | popFromEmptyList
  | typeError
  | invalidJump (dest : Int)
  | unknownOpcode (name : String)
  deriving DecidableEq

/-! ## Arithmetic: `none` is a `TypeError` -/

namespace VmValue

/-- `s * n`. -/
def strTimes (s : String) (n : Int) : String := String.join (List.replicate n.toNat s)

def add : VmValue → VmValue → Option VmValue
  | int a, int b => some (int (a + b))
  | str a, str b => some (str (a ++ b))
  | _, _ => none

def sub : VmValue → VmValue → Option VmValue
  | int a, int b => some (int (a - b))
  | _, _ => none

def mul : VmValue → VmValue → Option VmValue
  | int a, int b => some (int (a * b))
  | str a, int b => some (str (strTimes a b))
  | int a, str b => some (str (strTimes b a))
  | str _, str _ => none

def div (a b : VmValue) : Option VmValue :=
  if b = int 0 then some (int 0)
  else
    match a, b with
    | int a, int b => some (int (a.fdiv b))
    | _, _ => none

def ofBool (b : Bool) : VmValue := int (if b then 1 else 0)

def eq (a b : VmValue) : Option VmValue := some (ofBool (a = b))

def lt : VmValue → VmValue → Option VmValue
  | int a, int b => some (ofBool (a < b))
  | str a, str b => some (ofBool (a < b))
  | _, _ => none

def gt (a b : VmValue) : Option VmValue := lt b a

end VmValue

/-! ## What an instruction does to stack and storage, the top of the stack first -/

inductive Effect where
  | next (stack : List VmValue) (storage : Storage)
  | jump (dest : Int) (stack : List VmValue)
  | stop
  | raise (e : VmError)

def binary (f : VmValue → VmValue → Option VmValue) (storage : Storage) : List VmValue → Effect
  | b :: a :: s =>
    match f a b with
    | some v => .next (v :: s) storage
    | none => .raise .typeError
  | _ => .raise .popFromEmptyList

/-- `stack[-1] += by`, on a stack that has at least a zero. -/
def bump (amount : Int) (storage : Storage) : List VmValue → Effect
  | [] => .next [.int amount] storage
  | .int n :: s => .next (.int (n + amount) :: s) storage
  | .str _ :: _ => .raise .typeError

def jumpTo (dest : VmValue) (stack : List VmValue) : Effect :=
  match dest with
  | .int d => .jump d stack
  | .str _ => .raise .typeError

def perform (op : Opcode) (arg : Option VmValue) (stack : List VmValue) (storage : Storage) : Effect :=
  match op with
  | .push =>
    match arg with
    | some v => .next (v :: stack) storage
    | none => .raise .pushRequiresArgument
  | .pop =>
    match stack with
    | _ :: s => .next s storage
    | [] => .raise .popFromEmptyList
  | .add => binary VmValue.add storage stack
  | .sub => binary VmValue.sub storage stack
  | .mul => binary VmValue.mul storage stack
  | .div => binary VmValue.div storage stack
  | .store =>
    match stack with
    | value :: key :: s => .next s (storage.set key value)
    | _ => .raise .popFromEmptyList
  | .load =>
    match stack with
    | key :: s => .next (storage.get key :: s) storage
    | [] => .raise .popFromEmptyList
  | .inc => bump 1 storage stack
  | .dec => bump (-1) storage stack
  | .eq => binary VmValue.eq storage stack
  | .lt => binary VmValue.lt storage stack
  | .gt => binary VmValue.gt storage stack
  | .jump =>
    match stack with
    | dest :: s => jumpTo dest s
    | [] => .raise .popFromEmptyList
  | .jumpi =>
    match stack with
    | dest :: cond :: s => if cond = .int 0 then .next s storage else jumpTo dest s
    | _ => .raise .popFromEmptyList
  | .stop => .stop
  | .unknown name => .raise (.unknownOpcode name)

/-! ## Execution -/

structure Machine where
  pc : Nat
  stack : List VmValue
  storage : Storage
  gasUsed : Nat
  deriving DecidableEq

structure Result where
  stack : List VmValue
  storage : Storage
  gasUsed : Nat
  success : Bool
  deriving DecidableEq

abbrev Outcome := Except VmError Result

abbrev State := Status Machine Outcome

def Machine.start (stack : List VmValue) (storage : Storage) : Machine := ⟨0, stack, storage, 0⟩

variable (code : Bytecode) (limit : Nat)

def Machine.result (m : Machine) : Result := ⟨m.stack, m.storage, m.gasUsed, m.gasUsed ≤ limit⟩

def land (m : Machine) : Effect → State
  | .next stack storage => .running { m with pc := m.pc + 1, stack, storage }
  | .jump dest stack =>
    if dest < 0 ∨ (code.length : Int) ≤ dest then .ended (.error (.invalidJump dest))
    else .running { m with pc := dest.toNat, stack }
  | .stop => .ended (.ok (m.result limit))
  | .raise e => .ended (.error e)

/-- One turn of the loop of `execute`. -/
def step (m : Machine) : State :=
  match code[m.pc]? with
  | none => .ended (.ok (m.result limit))
  | some (name, arg) =>
    let op := Opcode.ofName name
    if limit < m.gasUsed + op.gasCost then .ended (.error (.outOfGas m.gasUsed op.gasCost limit))
    else land code limit { m with gasUsed := m.gasUsed + op.gasCost } (perform op arg m.stack m.storage)

variable {code limit}

section
variable {m : Machine} {name : String} {arg : Option VmValue} (h : code[m.pc]? = some (name, arg))
include h

theorem step_at :
    step code limit m =
      if limit < m.gasUsed + (Opcode.ofName name).gasCost then
        .ended (.error (.outOfGas m.gasUsed (Opcode.ofName name).gasCost limit))
      else land code limit { m with gasUsed := m.gasUsed + (Opcode.ofName name).gasCost }
        (perform (Opcode.ofName name) arg m.stack m.storage) := by
  unfold step
  rw [h]

theorem step_charged (hgas : m.gasUsed + (Opcode.ofName name).gasCost ≤ limit) :
    step code limit m =
      land code limit { m with gasUsed := m.gasUsed + (Opcode.ofName name).gasCost }
        (perform (Opcode.ofName name) arg m.stack m.storage) := by
  rw [step_at h, if_neg (Nat.not_lt.mpr hgas)]

end

theorem gasCost_pos {op : Opcode} (h : op ≠ .stop) : 0 < op.gasCost := by
  cases op with
  | stop => exact absurd rfl h
  | _ => simp [Opcode.gasCost]

theorem land_running {m m' : Machine} {e : Effect} (h : land code limit m e = .running m') :
    (∃ s d, e = .next s d ∧ m' = { m with pc := m.pc + 1, stack := s, storage := d }) ∨
      ∃ (t : Nat) (s : _), e = .jump t s ∧ t < code.length ∧ m' = { m with pc := t, stack := s } := by
  cases e with
  | next s d => exact .inl ⟨s, d, rfl, (Status.running.inj h).symm⟩
  | jump dest s =>
    simp only [land] at h
    split at h
    · cases h
    · rename_i hdest
      obtain ⟨t, rfl⟩ := Int.eq_ofNat_of_zero_le (a := dest) (by omega)
      exact .inr ⟨t, s, rfl, by omega, (Status.running.inj h).symm⟩
  | stop => cases h
  | raise e => cases h

/-- What lets the loop go on. -/
theorem step_running {m m' : Machine} (h : step code limit m = .running m') :
    ∃ name arg, code[m.pc]? = some (name, arg) ∧ m.gasUsed + (Opcode.ofName name).gasCost ≤ limit ∧
      m'.gasUsed = m.gasUsed + (Opcode.ofName name).gasCost ∧ 0 < (Opcode.ofName name).gasCost ∧
      m'.pc ≤ code.length := by
  unfold step at h
  cases hget : code[m.pc]? with
  | none =>
    rw [hget] at h
    cases h
  | some i =>
    obtain ⟨name, arg⟩ := i
    have hpc := (List.getElem?_eq_some_iff.mp hget).1
    simp only [hget] at h
    split at h
    · cases h
    · rename_i hgas
      have hop : Opcode.ofName name ≠ .stop := by
        intro hstop
        rw [hstop] at h
        cases h
      refine ⟨name, arg, rfl, by omega, ?_, gasCost_pos hop, ?_⟩
      all_goals
        rcases land_running h with ⟨s, d, -, rfl⟩ | ⟨t, s, -, ht, rfl⟩
      · rfl
      · rfl
      · exact hpc
      · exact ht.le

/-- Where every state of a run stands. -/
def Sane (code : Bytecode) (limit : Nat) (m : Machine) : Prop := m.pc ≤ code.length ∧ m.gasUsed ≤ limit

theorem sane_after {stack : List VmValue} {storage : Storage} {n : Nat} {m : Machine}
    (h : after (step code limit) n (.running (.start stack storage)) = .running m) : Sane code limit m := by
  refine after_inv (I := fun s : State => ∀ m, s = .running m → Sane code limit m) ?_ ?_ n m h
  · intro m hm
    cases hm
    exact ⟨Nat.zero_le _, Nat.zero_le _⟩
  · intro m _ m' h
    obtain ⟨name, arg, -, hgas, hused, -, hpc⟩ := step_running h
    exact ⟨hpc, hused ▸ hgas⟩

theorem step_spends (m m' : Machine) (h : step code limit m = .running m') : limit - m'.gasUsed < limit - m.gasUsed := by
  obtain ⟨name, arg, -, hgas, hused, hpos, -⟩ := step_running h
  omega

/-- `execute` on a stack that holds something already. It always ends: each turn of the loop costs gas. -/
def executeFrom (code : Bytecode) (limit : Nat) (stack : List VmValue) (storage : Storage) : Outcome :=
  finish (step code limit) (fun m => limit - m.gasUsed) step_spends (.start stack storage)

def execute (code : Bytecode) (limit : Nat) (storage : Storage) : Outcome := executeFrom code limit [] storage

def defaultGasLimit : Nat := 10000

theorem executeFrom_eq_iff {stack : List VmValue} {storage : Storage} {r : Outcome} :
    executeFrom code limit stack storage = r ↔ ∃ n, after (step code limit) n (.running (.start stack storage)) = .ended r :=
  finish_eq_iff _ _ _ _ _

/-! ## Storages with the same lookups -/

inductive Effect.Agrees : Effect → Effect → Prop where
  | next (stack : List VmValue) {d d' : Storage} (h : d.Agrees d') : Effect.Agrees (.next stack d) (.next stack d')
  | jump (dest : Int) (stack : List VmValue) : Effect.Agrees (.jump dest stack) (.jump dest stack)
  | stop : Effect.Agrees .stop .stop
  | raise (e : VmError) : Effect.Agrees (.raise e) (.raise e)

section
variable {d d' : Storage} (h : d.Agrees d')
include h

theorem binary_agrees (f : VmValue → VmValue → Option VmValue) (stack : List VmValue) :
    (binary f d stack).Agrees (binary f d' stack) := by
  cases stack with
  | nil => exact .raise _
  | cons b s =>
    cases s with
    | nil => exact .raise _
    | cons a s =>
      simp only [binary]
      cases f a b with
      | some v => exact .next _ h
      | none => exact .raise _

theorem bump_agrees (amount : Int) (stack : List VmValue) : (bump amount d stack).Agrees (bump amount d' stack) := by
  cases stack with
  | nil => exact .next _ h
  | cons v s =>
    cases v with
    | int n => exact .next _ h
    | str t => exact .raise _

omit h in
theorem jumpTo_agrees (dest : VmValue) (stack : List VmValue) : (jumpTo dest stack).Agrees (jumpTo dest stack) := by
  cases dest with
  | int n => exact .jump _ _
  | str t => exact .raise _

theorem perform_agrees (op : Opcode) (arg : Option VmValue) (stack : List VmValue) :
    (perform op arg stack d).Agrees (perform op arg stack d') := by
  cases op with
  | push =>
    cases arg with
    | some v => exact .next _ h
    | none => exact .raise _
  | pop =>
    cases stack with
    | nil => exact .raise _
    | cons v s => exact .next _ h
  | add => exact binary_agrees h VmValue.add stack
  | sub => exact binary_agrees h VmValue.sub stack
  | mul => exact binary_agrees h VmValue.mul stack
  | div => exact binary_agrees h VmValue.div stack
  | eq => exact binary_agrees h VmValue.eq stack
  | lt => exact binary_agrees h VmValue.lt stack
  | gt => exact binary_agrees h VmValue.gt stack
  | store =>
    cases stack with
    | nil => exact .raise _
    | cons v s =>
      cases s with
      | nil => exact .raise _
      | cons k s => exact .next _ (h.set k v)
  | load =>
    cases stack with
    | nil => exact .raise _
    | cons k s =>
      simp only [perform, h k]
      exact .next _ h
  | inc | dec => exact bump_agrees h _ _
  | jump =>
    cases stack with
    | nil => exact .raise _
    | cons dest s => exact jumpTo_agrees _ _
  | jumpi =>
    cases stack with
    | nil => exact .raise _
    | cons dest s =>
      cases s with
      | nil => exact .raise _
      | cons cond s =>
        simp only [perform]
        split
        · exact .next _ h
        · exact jumpTo_agrees _ _
  | stop => exact .stop
  | unknown name => exact .raise _

end

inductive Outcome.Agrees : Outcome → Outcome → Prop where
  | returned {r r' : Result} (hstack : r.stack = r'.stack) (hstorage : r.storage.Agrees r'.storage)
      (hgas : r.gasUsed = r'.gasUsed) (hsuccess : r.success = r'.success) : Outcome.Agrees (.ok r) (.ok r')
  | raised (e : VmError) : Outcome.Agrees (.error e) (.error e)

inductive State.Agrees : State → State → Prop where
  | running (pc : Nat) (stack : List VmValue) (gasUsed : Nat) {d d' : Storage} (h : d.Agrees d') :
      State.Agrees (.running ⟨pc, stack, d, gasUsed⟩) (.running ⟨pc, stack, d', gasUsed⟩)
  | ended {r r' : Outcome} (h : Outcome.Agrees r r') : State.Agrees (.ended r) (.ended r')

theorem step_agrees (pc : Nat) (stack : List VmValue) (gasUsed : Nat) {d d' : Storage} (h : d.Agrees d') :
    State.Agrees (step code limit ⟨pc, stack, d, gasUsed⟩) (step code limit ⟨pc, stack, d', gasUsed⟩) := by
  unfold step
  cases code[pc]? with
  | none => exact .ended (.returned rfl h rfl rfl)
  | some i =>
    obtain ⟨name, arg⟩ := i
    simp only
    split
    · exact .ended (.raised _)
    · generalize hp : perform (Opcode.ofName name) arg stack d = e
      generalize hp' : perform (Opcode.ofName name) arg stack d' = e'
      have he := perform_agrees h (Opcode.ofName name) arg stack
      rw [hp, hp'] at he
      cases he with
      | next s hd => exact .running _ _ _ hd
      | jump dest s =>
        simp only [land]
        split
        · exact .ended (.raised _)
        · exact .running _ _ _ h
      | stop => exact .ended (.returned rfl h rfl rfl)
      | raise e => exact .ended (.raised _)

/-- A program sees of its storage only what it looks up. -/
theorem execute_agrees {d d' : Storage} (h : d.Agrees d') : (execute code limit d).Agrees (execute code limit d') := by
  have hstep : ∀ s t : State, s.Agrees t → State.Agrees (advance (step code limit) s) (advance (step code limit) t) := by
    intro s t hst
    cases hst with
    | running pc stack gasUsed h => exact step_agrees pc stack gasUsed h
    | ended h => exact .ended h
  obtain ⟨n, hn⟩ := executeFrom_eq_iff.mp (rfl : execute code limit d = _)
  have hs := after_related hstep (.running 0 [] 0 h) n
  change after (step code limit) n (.running ⟨0, [], d, 0⟩) = _ at hn
  rw [hn] at hs
  generalize hn' : after (step code limit) n (.running ⟨0, [], d', 0⟩) = s' at hs
  cases hs with
  | ended h =>
    have hd' : execute code limit d' = _ := executeFrom_eq_iff.mpr (Exists.intro n hn')
    rw [hd']
    exact h

end AbsoluteChain.MiniVM
