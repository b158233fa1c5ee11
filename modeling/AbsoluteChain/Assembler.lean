import AbsoluteChain.MiniVM

/-!
# The assembler

`Assembler` of `compiler/assembler.py` and the code that it makes for the MiniVM:
where its labels point, and where the machine goes.
-/

namespace AbsoluteChain.MiniVM

open Python StepMachine

/-! ## Source lines -/

inductive SourceLine where
  | blank
  | label (name : String)
  | instruction (op : String) (operands : List String)
  deriving DecidableEq

def clean (line : List Char) : List Char := stripChars (line.takeWhile (· ≠ ';'))

def words (line : List Char) : List String := ((line.splitOnP isSpace).filter (· ≠ [])).map String.ofList

def readLine (line : List Char) : SourceLine :=
  let line := clean line
  if line.getLast? = some ':' then .label (String.ofList line.dropLast)
  else
    match words line with
    | [] => .blank
    | op :: operands => .instruction op operands

def sourceLines (source : String) : List SourceLine := ((stripChars source.toList).splitOn '\n').map readLine

/-! ## Assembly -/

/-- What Python knows of characters and digits. `none` is a `ValueError`. -/
structure TextHost where
  upper : String → String
  isDigit : String → Bool
  decimal : String → Option Int
  hexadecimal : String → Option Int

inductive AssemblerError where
  | valueError (text : String)
  | undefinedLabel (name : String)
  deriving DecidableEq

structure Assembler where
  labels : Dict String Nat
  code : Bytecode
  pc : Nat

def operandText (operands : List String) : String := " ".intercalate operands

def number (text : String) : Option Int → Except AssemblerError (Option VmValue)
  | some n => .ok (some (.int n))
  | none => .error (.valueError text)

def parseOperand (host : TextHost) (operands : List String) : Except AssemblerError (Option VmValue) :=
  let text := operandText operands
  if operands = [] then .ok none
  else if host.isDigit text then number text (host.decimal text)
  else if text.toList.take 2 = ['0', 'x'] then number text (host.hexadecimal text)
  else .ok (some (.str text))

def scanLine (host : TextHost) (a : Assembler) : SourceLine → Except AssemblerError Assembler
  | .blank => .ok a
  | .label name => .ok { a with labels := a.labels.set name a.pc }
  | .instruction op operands =>
    match parseOperand host operands with
    | .error e => .error e
    | .ok arg => .ok { a with code := a.code ++ [(host.upper op, arg)], pc := a.pc + 1 }

def resolve (labels : Dict String Nat) : Instruction → Except AssemblerError Instruction
  | (op, some (.str name)) =>
    if op = "JUMP" ∨ op = "JUMPI" ∨ op = "CALL" then
      match labels.get? name with
      | none => .error (.undefinedLabel name)
      | some pc => .ok (op, some (.int pc))
    else .ok (op, some (.str name))
  | i => .ok i

def scan (host : TextHost) (lines : List SourceLine) : Except AssemblerError Assembler :=
  lines.foldlM (scanLine host) ⟨[], [], 0⟩

def assemble (host : TextHost) (source : String) : Except AssemblerError Bytecode := do
  let a ← scan host (sourceLines source)
  a.code.mapM (resolve a.labels)

def asciiHost : TextHost where
  upper s := String.ofList (s.toList.map Char.toUpper)
  isDigit s := s ≠ "" && s.toList.all Char.isDigit
  decimal s := some (s.toList.foldl (fun n c => n * 10 + (c.toNat - 48)) 0)
  hexadecimal s := parseHexInt s.toList

/-! ## Where things stand in the source -/

def position (before : List SourceLine) : Nat :=
  before.countP fun line => match line with
    | .instruction _ _ => true
    | _ => false

/-- The last line `name:` stands in front of instruction `t`. -/
def LabelAt (lines : List SourceLine) (name : String) (t : Nat) : Prop :=
  ∃ before after, lines = before ++ .label name :: after ∧ .label name ∉ after ∧ t = position before

def JumpAt (host : TextHost) (lines : List SourceLine) (op : Opcode) (i : Nat) (name : String) : Prop :=
  ∃ before opText operands after, lines = before ++ .instruction opText operands :: after ∧ i = position before ∧
    Opcode.ofName (host.upper opText) = op ∧ operands ≠ [] ∧ name = operandText operands

/-! ## What the assembler makes of them -/

section
variable {host : TextHost}

/-- The counter counts instructions, and code is only added to. -/
theorem scan_code {lines : List SourceLine} {a a' : Assembler} (h : lines.foldlM (scanLine host) a = .ok a')
    (hpc : a.pc = a.code.length) :
    a'.pc = a'.code.length ∧ a'.pc = a.pc + position lines ∧ ∃ more, a'.code = a.code ++ more := by
  induction lines generalizing a with
  | nil =>
    cases h
    exact ⟨hpc, rfl, [], (List.append_nil _).symm⟩
  | cons line lines ih =>
    rw [List.foldlM_cons] at h
    cases line with
    | blank => simpa [position] using ih h hpc
    | label name =>
      have := ih h hpc
      simpa [position] using this
    | instruction op operands =>
      cases hop : parseOperand host operands with
      | error e => simp [scanLine, hop, bind, Except.bind] at h
      | ok arg =>
        simp only [scanLine, hop, bind, Except.bind] at h
        obtain ⟨hlength, hposition, more, hmore⟩ := ih h (by simp [hpc])
        refine ⟨hlength, ?_, (host.upper op, arg) :: more, by simp [hmore]⟩
        simp only at hposition
        simp [position] at hposition ⊢
        omega

theorem scan_keeps_label {lines : List SourceLine} {a a' : Assembler} {name : String}
    (h : lines.foldlM (scanLine host) a = .ok a') (hname : .label name ∉ lines) :
    a'.labels.get? name = a.labels.get? name := by
  induction lines generalizing a with
  | nil =>
    cases h
    rfl
  | cons line lines ih =>
    rw [List.foldlM_cons] at h
    rw [List.mem_cons, not_or] at hname
    cases line with
    | blank => exact ih h hname.2
    | label other =>
      rw [ih h hname.2]
      refine Dict.get?_set_of_ne _ ?_ _
      intro heq
      exact hname.1 (congrArg SourceLine.label heq)
    | instruction op operands =>
      cases hop : parseOperand host operands with
      | error e => simp [scanLine, hop, bind, Except.bind] at h
      | ok arg =>
        simp only [scanLine, hop, bind, Except.bind] at h
        have hrest := ih h hname.2
        exact hrest

variable {lines : List SourceLine} {a : Assembler}

theorem scan_split {before rest : List SourceLine} (h : scan host (before ++ rest) = .ok a) :
    ∃ b, b.pc = position before ∧ b.code.length = position before ∧ rest.foldlM (scanLine host) b = .ok a := by
  unfold scan at h
  rw [List.foldlM_append] at h
  cases hb : before.foldlM (scanLine host) ⟨[], [], 0⟩ with
  | error e => simp [hb, bind, Except.bind] at h
  | ok b =>
    simp only [hb, bind, Except.bind] at h
    obtain ⟨hlength, hposition, -⟩ := scan_code hb rfl
    refine ⟨b, ?_, ?_, h⟩
    · simpa using hposition
    · rw [← hlength]
      simpa using hposition

/-- A label stands for the position of the instruction after it. -/
theorem scan_label (h : scan host lines = .ok a) {name : String} {t : Nat} (hl : LabelAt lines name t) :
    a.labels.get? name = some t := by
  obtain ⟨before, after, rfl, hlast, rfl⟩ := hl
  obtain ⟨b, hpc, -, hrest⟩ := scan_split h
  rw [List.foldlM_cons] at hrest
  have hkept := scan_keeps_label (show after.foldlM (scanLine host) { b with labels := b.labels.set name b.pc } = .ok a from hrest)
    hlast
  rw [hkept, Dict.get?_set_self, hpc]

theorem scan_instruction {before after : List SourceLine} {op : String} {operands : List String}
    (h : scan host (before ++ .instruction op operands :: after) = .ok a) :
    ∃ arg, parseOperand host operands = .ok arg ∧ a.code[position before]? = some (host.upper op, arg) := by
  obtain ⟨b, hpc, hlength, hrest⟩ := scan_split h
  rw [List.foldlM_cons] at hrest
  cases hop : parseOperand host operands with
  | error e => simp [scanLine, hop, bind, Except.bind] at hrest
  | ok arg =>
    simp only [scanLine, hop, bind, Except.bind] at hrest
    obtain ⟨-, -, more, hmore⟩ := scan_code hrest (by simp [hpc, hlength])
    refine ⟨arg, rfl, ?_⟩
    simp only at hmore
    rw [hmore, List.append_assoc, List.getElem?_append_right (Nat.le_of_eq hlength), hlength, Nat.sub_self]
    rfl

/-- The second pass keeps every instruction in its place. -/
theorem resolve_get {labels : Dict String Nat} {code out : Bytecode} (h : code.mapM (resolve labels) = .ok out) {i : Nat}
    {x : Instruction} (hx : code[i]? = some x) : ∃ y, out[i]? = some y ∧ resolve labels x = .ok y := by
  induction code generalizing out i with
  | nil => cases hx
  | cons c code ih =>
    rw [List.mapM_cons] at h
    cases hc : resolve labels c with
    | error e => simp [hc, bind, Except.bind] at h
    | ok y =>
      cases hrest : code.mapM (resolve labels) with
      | error e => simp [hc, hrest, bind, Except.bind] at h
      | ok ys =>
        simp only [hc, hrest, bind, Except.bind, pure, Except.pure, Except.ok.injEq] at h
        subst h
        cases i with
        | zero =>
          cases hx
          exact ⟨y, rfl, hc⟩
        | succ i => exact ih hrest hx

theorem resolve_op {labels : Dict String Nat} {x y : Instruction} (h : resolve labels x = .ok y) : y.1 = x.1 := by
  unfold resolve at h
  split at h
  · split at h
    · split at h
      · cases h
      · cases h
        rfl
    · cases h
      rfl
  · cases h
    rfl

variable {source : String} {code : Bytecode}

theorem assemble_ok (h : assemble host source = .ok code) :
    ∃ a, scan host (sourceLines source) = .ok a ∧ a.code.mapM (resolve a.labels) = .ok code := by
  unfold assemble at h
  cases ha : scan host (sourceLines source) with
  | error e => simp [ha, bind, Except.bind] at h
  | ok a => exact ⟨a, rfl, by simpa [ha, bind, Except.bind] using h⟩

theorem assembled_jump (h : assemble host source = .ok code) {op : Opcode} {i : Nat} {name : String}
    (hj : JumpAt host (sourceLines source) op i name) : ∃ text arg, code[i]? = some (text, arg) ∧ Opcode.ofName text = op := by
  obtain ⟨before, opText, operands, after, hlines, rfl, hop, -, -⟩ := hj
  obtain ⟨a, hscan, hresolve⟩ := assemble_ok h
  rw [hlines] at hscan
  obtain ⟨arg, -, hget⟩ := scan_instruction hscan
  obtain ⟨⟨text, arg'⟩, hget', hy⟩ := resolve_get hresolve hget
  have htext : text = host.upper opText := resolve_op hy
  exact ⟨text, arg', hget', htext ▸ hop⟩

theorem ofName_jump {text : String} (h : Opcode.ofName text = .jump) : text = "JUMP" := by
  unfold Opcode.ofName at h
  split at h
  all_goals first | rfl | cases h

theorem ofName_jumpi {text : String} (h : Opcode.ofName text = .jumpi) : text = "JUMPI" := by
  unfold Opcode.ofName at h
  split at h
  all_goals first | rfl | cases h

/-- The assembler's half of the convention: the argument of the jump is the position of the label. -/
theorem assembled_target (h : assemble host source = .ok code) {op : Opcode} {i t : Nat} {name : String}
    (hj : JumpAt host (sourceLines source) op i name) (hl : LabelAt (sourceLines source) name t)
    (hop : op = .jump ∨ op = .jumpi) (hdigits : host.isDigit name = false) (hhex : name.toList.take 2 ≠ ['0', 'x']) :
    ∃ text, code[i]? = some (text, some (.int t)) := by
  obtain ⟨before, opText, operands, after, hlines, rfl, hop', hoperands, rfl⟩ := hj
  obtain ⟨a, hscan, hresolve⟩ := assemble_ok h
  have hlabel := scan_label hscan hl
  rw [hlines] at hscan
  obtain ⟨arg, harg, hget⟩ := scan_instruction hscan
  obtain ⟨y, hget', hy⟩ := resolve_get hresolve hget
  have hstr : arg = some (.str (operandText operands)) := by
    simpa [parseOperand, hoperands, hdigits, hhex] using harg.symm
  have hname : host.upper opText = "JUMP" ∨ host.upper opText = "JUMPI" ∨ host.upper opText = "CALL" := by
    rcases hop with rfl | rfl
    · exact .inl (ofName_jump hop')
    · exact .inr (.inl (ofName_jumpi hop'))
  simp only [hstr, resolve, if_pos hname, hlabel] at hy
  cases hy
  exact ⟨_, hget'⟩

end

/-! ## Where the machine goes -/

def vmRun (code : Bytecode) (limit : Nat) (storage : Storage) (n : Nat) : State :=
  after (step code limit) n (.running (.start [] storage))

/-- Control is at instruction `t`, with the stack as it was, or without the destination on its top. -/
def Lands (s : State) (length t : Nat) (stack : List VmValue) : Prop :=
  ∃ m, s = .running m ∧ m.pc = t ∧ t < length ∧ (m.stack = stack ∨ ∃ v, stack = v :: m.stack)

/-- Every jump to a label that the machine executes goes to the instruction after the label. A conditional one finds its
condition on the top of the stack. -/
def JumpsReach (host : TextHost) (source : String) (code : Bytecode) (limit : Nat) (storage : Storage) : Prop :=
  ∀ n m name t, vmRun code limit storage n = .running m → m.gasUsed + 1 ≤ limit → LabelAt (sourceLines source) name t →
    (JumpAt host (sourceLines source) .jump m.pc name → Lands (vmRun code limit storage (n + 1)) code.length t m.stack) ∧
    (JumpAt host (sourceLines source) .jumpi m.pc name → ∀ cond s, m.stack = cond :: s → cond ≠ .int 0 →
      Lands (vmRun code limit storage (n + 1)) code.length t s)

/-- The program itself pushes the position of the label before every jump that it executes, and a label directly behind
a conditional jump may be reached without. -/
def DestinationsPushed (host : TextHost) (source : String) (code : Bytecode) (limit : Nat) (storage : Storage) : Prop :=
  ∀ n m name t, vmRun code limit storage n = .running m → m.gasUsed + 1 ≤ limit → LabelAt (sourceLines source) name t →
    (JumpAt host (sourceLines source) .jump m.pc name → t < code.length ∧ ∃ s, m.stack = .int t :: s) ∧
    (JumpAt host (sourceLines source) .jumpi m.pc name → ∀ cond s, m.stack = cond :: s → cond ≠ .int 0 →
      t < code.length ∧ ∃ v s', s = v :: s' ∧ if v = .int 0 then t = m.pc + 1 else cond = .int t)

section
variable {code : Bytecode} {limit t : Nat} {m : Machine} {name : String} {arg : Option VmValue}

/-- A destination that is a number is where control goes, if there is an instruction. -/
theorem lands_jumpTo {dest : VmValue} {s stack : List VmValue} (hstack : s = stack ∨ ∃ v, stack = v :: s) :
    Lands (land code limit m (jumpTo dest s)) code.length t stack ↔ t < code.length ∧ dest = .int t := by
  constructor
  · intro h
    obtain ⟨m', hrun, hpc, ht, _⟩ := h
    cases dest with
    | str x => cases hrun
    | int d =>
      simp only [jumpTo, land] at hrun
      split at hrun
      · cases hrun
      · cases hrun
        refine ⟨ht, ?_⟩
        simp only at hpc
        rw [VmValue.int.injEq]
        omega
  · intro h
    obtain ⟨ht, hd⟩ := h
    subst hd
    have hin : ¬ ((t : Int) < 0 ∨ (code.length : Int) ≤ t) := by omega
    simp only [jumpTo, land, if_neg hin]
    exact ⟨_, rfl, by simp, ht, hstack⟩

theorem lands_jump (hget : code[m.pc]? = some (name, arg)) (hop : Opcode.ofName name = .jump) (hgas : m.gasUsed + 1 ≤ limit) :
    Lands (step code limit m) code.length t m.stack ↔ t < code.length ∧ ∃ s, m.stack = .int t :: s := by
  rw [step_charged hget (by rw [hop]; exact hgas), hop]
  cases hs : m.stack with
  | nil =>
    constructor
    · intro ⟨m', hrun, _⟩
      cases hrun
    · intro ⟨_, s, h⟩
      cases h
  | cons dest s =>
    simp only [perform]
    rw [lands_jumpTo (.inr ⟨dest, rfl⟩)]
    simp [List.cons.injEq]

theorem lands_jumpi (hget : code[m.pc]? = some (name, arg)) (hop : Opcode.ofName name = .jumpi) (hgas : m.gasUsed + 1 ≤ limit)
    {cond : VmValue} {s : List VmValue} (hs : m.stack = cond :: s) :
    Lands (step code limit m) code.length t s ↔
      t < code.length ∧ ∃ v s', s = v :: s' ∧ if v = .int 0 then t = m.pc + 1 else cond = .int t := by
  rw [step_charged hget (by rw [hop]; exact hgas), hop, hs]
  cases s with
  | nil =>
    constructor
    · intro h
      obtain ⟨m', hrun, _⟩ := h
      cases hrun
    · intro h
      obtain ⟨_, v, s', h, _⟩ := h
      cases h
  | cons v s =>
    simp only [perform]
    by_cases hv : v = .int 0
    · rw [if_pos hv]
      constructor
      · intro h
        obtain ⟨m', hrun, hpc, ht, _⟩ := h
        cases hrun
        exact ⟨ht, v, s, rfl, by rw [if_pos hv]; exact hpc.symm⟩
      · intro h
        obtain ⟨ht, v', s', heq, h⟩ := h
        cases heq
        rw [if_pos hv] at h
        exact ⟨_, rfl, h.symm, ht, .inr ⟨v, rfl⟩⟩
    · rw [if_neg hv, lands_jumpTo (.inr ⟨v, rfl⟩)]
      constructor
      · intro h
        obtain ⟨ht, hd⟩ := h
        exact ⟨ht, v, s, rfl, by rw [if_neg hv]; exact hd⟩
      · intro h
        obtain ⟨ht, v', s', heq, h⟩ := h
        cases heq
        rw [if_neg hv] at h
        exact ⟨ht, h⟩

end

/-- The machine takes its destinations from the stack and never looks at the argument that the assembler gives to a jump. -/
theorem jumps_reach_iff {host : TextHost} {source : String} {code : Bytecode} (h : assemble host source = .ok code)
    (limit : Nat) (storage : Storage) :
    JumpsReach host source code limit storage ↔ DestinationsPushed host source code limit storage := by
  unfold JumpsReach DestinationsPushed
  refine forall_congr' fun n => forall_congr' fun m => forall_congr' fun name => forall_congr' fun t =>
    forall_congr' fun hrun => forall_congr' fun hgas => forall_congr' fun _ => and_congr ?_ ?_
  · refine forall_congr' fun hj => ?_
    obtain ⟨text, arg, hget, hop⟩ := assembled_jump h hj
    have hnext : vmRun code limit storage (n + 1) = _ := after_running_succ hrun
    rw [hnext, lands_jump hget hop hgas]
  · refine forall_congr' fun hj => forall_congr' fun cond => forall_congr' fun s => forall_congr' fun hs =>
      forall_congr' fun _ => ?_
    obtain ⟨text, arg, hget, hop⟩ := assembled_jump h hj
    have hnext : vmRun code limit storage (n + 1) = _ := after_running_succ hrun
    rw [hnext, lands_jumpi hget hop hgas hs]

/-! ## Two programs -/

def pushingSource : String := "PUSH 3\nJUMP end\nPUSH 1\nend:\nSTOP"

def pushingCode : Bytecode :=
  [("PUSH", some (.int 3)), ("JUMP", some (.int 3)), ("PUSH", some (.int 1)), ("STOP", none)]

theorem pushing_scan : scan asciiHost (sourceLines pushingSource) =
    .ok ⟨[("end", 3)], [("PUSH", some (.int 3)), ("JUMP", some (.str "end")), ("PUSH", some (.int 1)), ("STOP", none)], 4⟩ := rfl

theorem pushing_assembled : assemble asciiHost pushingSource = .ok pushingCode := rfl

theorem pushing_target {name : String} {t : Nat} (hl : LabelAt (sourceLines pushingSource) name t) : t = 3 := by
  have hmem := Dict.mem_of_get? (scan_label pushing_scan hl)
  cases List.mem_singleton.mp hmem
  rfl

theorem jumps_reach_pushing : JumpsReach asciiHost pushingSource pushingCode defaultGasLimit .empty := by
  refine (jumps_reach_iff pushing_assembled defaultGasLimit .empty).mpr ?_
  intro n m name t hrun _ hl
  have ht := pushing_target hl
  subst ht
  refine ⟨?_, ?_⟩
  · intro hj
    obtain ⟨text, arg, hget, hop⟩ := assembled_jump pushing_assembled hj
    refine ⟨by decide, ?_⟩
    match n with
    | 0 =>
      cases hrun
      cases hget
      cases hop
    | 1 =>
      cases hrun
      exact ⟨[], rfl⟩
    | 2 =>
      cases hrun
      cases hget
      cases hop
    | n + 3 =>
      have hend : vmRun pushingCode defaultGasLimit .empty (3 + n) = _ := after_ended_add rfl n
      rw [Nat.add_comm, hend] at hrun
      cases hrun
  · intro hj
    obtain ⟨text, arg, hget, hop⟩ := assembled_jump pushing_assembled hj
    have htext := ofName_jumpi hop
    subst htext
    exact absurd (List.mem_of_getElem? hget) (by simp [pushingCode])

/-- With nothing on the stack, a jump to a label takes its destination from an empty list. -/
theorem jump_misses_label : ¬ ∀ (host : TextHost) (source : String) (code : Bytecode) (limit : Nat) (storage : Storage),
    assemble host source = .ok code → JumpsReach host source code limit storage := by
  intro h
  have hreach := h asciiHost "JUMP end\nPUSH 1\nend:\nSTOP" [("JUMP", some (.int 2)), ("PUSH", some (.int 1)), ("STOP", none)]
    defaultGasLimit .empty rfl 0 (.start [] .empty) "end" 2 rfl (by decide)
    ⟨[.instruction "JUMP" ["end"], .instruction "PUSH" ["1"]], [.instruction "STOP" []], rfl, by decide, rfl⟩
  obtain ⟨m, hrun, -⟩ := hreach.1
    ⟨[], "JUMP", ["end"], [.instruction "PUSH" ["1"], .label "end", .instruction "STOP" []], rfl, rfl, rfl, by decide, rfl⟩
  cases hrun

end AbsoluteChain.MiniVM
