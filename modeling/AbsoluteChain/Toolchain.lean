import AbsoluteChain.Assembler
import AbsoluteChain.HexText
import AbsoluteChain.WireJson
import Mathlib.Data.List.TakeWhile

/-!
# The disassembler

`disassemble` of `compiler/assembler.py`. Whatever the assembler has made of a source, with its labels resolved, is
assembled again from the text that the disassembler writes.
-/

namespace AbsoluteChain.MiniVM

open Python JsonText

/-! ## The text of a bytecode -/

def operandChars : VmValue → List Char
  | .int n => intChars n
  | .str s => s.toList

def instructionChars : Instruction → List Char
  | (op, none) => op.toList
  | (op, some arg) => op.toList ++ ' ' :: operandChars arg

def disassembledLine (i : Instruction) : List Char := ' ' :: ' ' :: ' ' :: ' ' :: instructionChars i

def disassemble (code : Bytecode) : String := String.ofList (['\n'].intercalate (code.map disassembledLine))

/-! ## What Python's text functions do -/

/-- A piece of a line between blanks. -/
def Word (w : List Char) : Prop := w ≠ [] ∧ ∀ c ∈ w, isSpace c = false ∧ c ≠ ';'

/-- An upper-case word is a word and stays as it is, and it ends with a colon only if the word did; `int` reads what
`str` has written of a natural number that is not too long, and no digits are those of a negative number. -/
structure TextRules (host : TextHost) : Prop where
  upper_upper : ∀ s, host.upper (host.upper s) = host.upper s
  upper_word : ∀ s, Word s.toList → Word (host.upper s).toList
  upper_colon : ∀ s, (host.upper s).toList.getLast? = some ':' → s.toList.getLast? = some ':'
  digits : ∀ n : Nat, n < 10 ^ 4300 → host.isDigit (String.ofList (intChars n)) = true ∧
    host.decimal (String.ofList (intChars n)) = some (n : Int)
  decimal_nonneg : ∀ s n, host.isDigit s = true → host.decimal s = some n → 0 ≤ n
  hexadecimal_nonneg : ∀ s n, s.toList.take 2 = ['0', 'x'] → host.hexadecimal s = some n → 0 ≤ n

/-! ## Lines and words -/

theorem splitOnP_last {p : Char → Bool} {c : Char} (hc : p c = false) : ∀ u : List Char,
    ∃ ps q, (u ++ [c]).splitOnP p = ps ++ [q ++ [c]] := by
  intro u
  induction u with
  | nil => exact ⟨[], [], by simp [List.splitOnP_cons_eq_if_modifyHead, hc]⟩
  | cons x u ih =>
    obtain ⟨ps, q, hu⟩ := ih
    rw [List.cons_append, List.splitOnP_cons_eq_if_modifyHead, hu]
    by_cases hx : p x = true
    · exact ⟨[] :: ps, q, by rw [if_pos hx]; rfl⟩
    · rw [if_neg hx]
      cases ps with
      | nil => exact ⟨[], x :: q, rfl⟩
      | cons y ps => exact ⟨(x :: y) :: ps, q, rfl⟩

theorem mem_splitOnP {p : Char → Bool} : ∀ {l w : List Char}, w ∈ l.splitOnP p → ∀ c ∈ w, c ∈ l ∧ p c = false := by
  intro l
  induction l with
  | nil =>
    intro w hw c hc
    rw [List.splitOnP_nil, List.mem_singleton] at hw
    rw [hw] at hc
    cases hc
  | cons x l ih =>
    intro w hw c hc
    rw [List.splitOnP_cons_eq_if_modifyHead] at hw
    by_cases hx : p x = true
    · rw [if_pos hx] at hw
      rcases List.mem_cons.mp hw with rfl | hw
      · cases hc
      · exact ⟨List.mem_cons_of_mem _ (ih hw c hc).1, (ih hw c hc).2⟩
    · rw [if_neg hx] at hw
      obtain ⟨y, ys, hy⟩ := List.exists_cons_of_ne_nil (List.splitOnP_ne_nil p l)
      rw [hy] at hw ih
      rcases List.mem_cons.mp hw with rfl | hw
      · rcases List.mem_cons.mp hc with rfl | hc
        · exact ⟨List.mem_cons_self, Bool.eq_false_of_not_eq_true hx⟩
        · exact ⟨List.mem_cons_of_mem _ (ih List.mem_cons_self c hc).1, (ih List.mem_cons_self c hc).2⟩
      · exact ⟨List.mem_cons_of_mem _ (ih (List.mem_cons_of_mem _ hw) c hc).1, (ih (List.mem_cons_of_mem _ hw) c hc).2⟩

theorem clean_no_comment (line : List Char) : ∀ c ∈ clean line, c ≠ ';' := by
  intro c hc
  have hmem : c ∈ line.takeWhile (· ≠ ';') := by
    unfold clean stripChars at hc
    rw [List.mem_reverse] at hc
    have h₁ := (List.dropWhile_sublist _).mem hc
    rw [List.mem_reverse] at h₁
    exact (List.dropWhile_sublist _).mem h₁
  simpa using List.mem_takeWhile_imp hmem

theorem words_word {line : List Char} {w : String} (hw : w ∈ words (clean line)) : Word w.toList := by
  unfold words at hw
  obtain ⟨l, hl, rfl⟩ := List.mem_map.mp hw
  obtain ⟨hsplit, hne⟩ := List.mem_filter.mp hl
  rw [String.toList_ofList]
  refine ⟨by simpa using hne, fun c hc => ?_⟩
  obtain ⟨hmem, hspace⟩ := mem_splitOnP hsplit c hc
  exact ⟨hspace, clean_no_comment line c hmem⟩

theorem stripChars_last {l : List Char} {c : Char} (h : (stripChars l).getLast? = some c) : isSpace c = false := by
  unfold stripChars at h
  rw [List.getLast?_reverse] at h
  have := List.head?_dropWhile_not isSpace (l.dropWhile isSpace).reverse
  rw [h] at this
  simpa using this

theorem words_last {line : List Char} {c : Char} (h : (clean line).getLast? = some c) :
    ∃ ws w, words (clean line) = ws ++ [w] ∧ w.toList.getLast? = some c := by
  have hspace : isSpace c = false := stripChars_last h
  obtain ⟨u, hu⟩ := List.getLast?_eq_some_iff.mp h
  obtain ⟨ps, q, hsplit⟩ := splitOnP_last hspace u
  refine ⟨(ps.filter (· ≠ [])).map String.ofList, String.ofList (q ++ [c]), ?_, by simp⟩
  unfold words
  rw [hu, hsplit]
  simp

theorem intercalate_last (sep : List Char) {u : List Char} {d : Char} : ∀ ps : List (List Char),
    ∃ v, sep.intercalate (ps ++ [u ++ [d]]) = v ++ [d] := by
  intro ps
  induction ps with
  | nil => exact ⟨u, by simp⟩
  | cons p ps ih =>
    obtain ⟨v, hv⟩ := ih
    refine ⟨p ++ sep ++ v, ?_⟩
    rw [List.cons_append, List.intercalate_cons_of_ne_nil (by simp), hv]
    simp

theorem mem_intercalate {sep : List Char} {c : Char} : ∀ {ls : List (List Char)}, c ∈ sep.intercalate ls →
    c ∈ sep ∨ ∃ l ∈ ls, c ∈ l := by
  intro ls
  induction ls with
  | nil =>
    intro h
    cases h
  | cons l ls ih =>
    intro h
    by_cases hls : ls = []
    · subst hls
      exact .inr ⟨l, List.mem_cons_self, by simpa using h⟩
    · rw [List.intercalate_cons_of_ne_nil hls, List.mem_append, List.mem_append] at h
      rcases h with (h | h) | h
      · exact .inr ⟨l, List.mem_cons_self, h⟩
      · exact .inl h
      · refine (ih h).imp id fun hx => ?_
        obtain ⟨l', hl', hc⟩ := hx
        exact ⟨l', List.mem_cons_of_mem _ hl', hc⟩

theorem splitOnP_words : ∀ {ws : List (List Char)}, ws ≠ [] → (∀ w ∈ ws, Word w) →
    ([' '].intercalate ws).splitOnP isSpace = ws := by
  intro ws
  induction ws with
  | nil => exact fun h _ => absurd rfl h
  | cons w ws ih =>
    intro _ h
    have hw : ∀ c ∈ w, isSpace c = false := fun c hc => ((h w List.mem_cons_self).2 c hc).1
    by_cases hws : ws = []
    · subst hws
      rw [List.intercalate_singleton, List.splitOnP_eq_singleton hw]
    · rw [List.intercalate_cons_of_ne_nil hws, List.append_assoc, List.singleton_append,
        List.splitOnP_append_cons_of_forall_mem hw ' ' (by decide), ih hws fun x hx => h x (List.mem_cons_of_mem _ hx)]

theorem line_break_isSpace : isSpace '\n' = true := by decide

/-! ## Instructions that are read back -/

/-- An instruction that the assembler can have made without labels, of these operands. -/
structure Canonical (host : TextHost) (i : Instruction) (ws : List String) : Prop where
  op : Word i.1.toList
  operands : ∀ w ∈ ws, Word w.toList
  upper : host.upper i.1 = i.1
  text : instructionChars i = [' '].intercalate ((i.1 :: ws).map String.toList)
  colon : (instructionChars i).getLast? ≠ some ':'
  operand : parseOperand host ws = .ok i.2
  fixed : resolve [] i = .ok i

section
variable {host : TextHost} {i : Instruction} {ws : List String} (h : Canonical host i ws)
include h

theorem Canonical.all_words : ∀ w ∈ (i.1 :: ws).map String.toList, Word w := by
  intro w hw
  obtain ⟨s, hs, rfl⟩ := List.mem_map.mp hw
  rcases List.mem_cons.mp hs with rfl | hs
  · exact h.op
  · exact h.operands s hs

theorem Canonical.char {c : Char} (hc : c ∈ instructionChars i) : c ≠ ';' ∧ c ≠ '\n' := by
  rw [h.text] at hc
  rcases mem_intercalate hc with hc | ⟨w, hw, hc⟩
  · rw [List.mem_singleton.mp hc]
    exact ⟨by decide, by decide⟩
  · obtain ⟨hspace, hsemi⟩ := (h.all_words w hw).2 c hc
    refine ⟨hsemi, fun he => ?_⟩
    rw [he, line_break_isSpace] at hspace
    cases hspace

theorem Canonical.head : ∃ c t, instructionChars i = c :: t ∧ isSpace c = false := by
  obtain ⟨c, t, hop⟩ := List.exists_cons_of_ne_nil h.op.1
  refine ⟨c, ?_⟩
  have hspace := (h.op.2 c (by rw [hop]; exact List.mem_cons_self)).1
  rw [h.text, List.map_cons, hop]
  by_cases hws : ws.map String.toList = []
  · rw [hws]
    exact ⟨t, by simp, hspace⟩
  · rw [List.intercalate_cons_of_ne_nil hws]
    exact ⟨_, by rw [List.cons_append, List.cons_append], hspace⟩

theorem Canonical.last : ∃ u d, instructionChars i = u ++ [d] ∧ isSpace d = false := by
  have hne : (i.1 :: ws).map String.toList ≠ [] := by simp
  have hword := h.all_words _ (List.getLast_mem hne)
  obtain ⟨d, hd⟩ := List.getLast?_isSome.mpr hword.1 |> Option.isSome_iff_exists.mp
  obtain ⟨u, hu⟩ := List.getLast?_eq_some_iff.mp hd
  have hspace := (hword.2 d (by rw [hu]; simp)).1
  obtain ⟨v, hv⟩ := intercalate_last [' '] (u := u) (d := d) ((i.1 :: ws).map String.toList).dropLast
  rw [← hu, List.dropLast_concat_getLast] at hv
  exact ⟨v, d, h.text.trans hv, hspace⟩

theorem Canonical.clean_text : clean (instructionChars i) = instructionChars i := by
  obtain ⟨c, t, hhead, hc⟩ := h.head
  obtain ⟨u, d, hlast, hd⟩ := h.last
  have htake : (instructionChars i).takeWhile (· ≠ ';') = instructionChars i :=
    List.takeWhile_eq_self_iff.mpr fun c hc => by simpa using (h.char hc).1
  unfold clean
  rw [htake]
  have := @stripChars_closed _ _ _ _ _ [] hhead hlast hc hd (by simp)
  rwa [List.append_nil] at this

theorem Canonical.read_text : readLine (instructionChars i) = .instruction i.1 ws := by
  have hwords : words (instructionChars i) = i.1 :: ws := by
    unfold words
    rw [h.text, splitOnP_words (by simp) h.all_words, List.filter_eq_self.mpr]
    · rw [List.map_map]
      simp
    · intro w hw
      simpa using (h.all_words w hw).1
  unfold MiniVM.readLine
  simp only [h.clean_text, if_neg h.colon, hwords]

/-- The blanks in front of a line are nothing to the assembler. -/
theorem Canonical.read_line : MiniVM.readLine (disassembledLine i) = .instruction i.1 ws := by
  have hclean : clean (disassembledLine i) = clean (instructionChars i) := by
    unfold clean disassembledLine
    simp only [List.takeWhile_cons]
    simp only [show ((' ' : Char) ≠ ';') = True by simp, decide_true, if_true]
    rfl
  rw [← h.read_text]
  unfold MiniVM.readLine
  rw [hclean]

end

/-! ## The lines of a disassembly -/

theorem sourceLines_disassemble {host : TextHost} {code : Bytecode} {ws : Instruction → List String}
    (h : ∀ i ∈ code, Canonical host i (ws i)) (hne : code ≠ []) :
    sourceLines (disassemble code) = code.map fun i => .instruction i.1 (ws i) := by
  cases code with
  | nil => exact absurd rfl hne
  | cons i rest =>
    have hi := h i List.mem_cons_self
    have hlines : ∀ l ∈ instructionChars i :: rest.map disassembledLine, '\n' ∉ l := by
      intro l hl hbreak
      rcases List.mem_cons.mp hl with rfl | hl
      · exact (hi.char hbreak).2 rfl
      · obtain ⟨j, hj, rfl⟩ := List.mem_map.mp hl
        have hchars : '\n' ∈ instructionChars j := by simpa [disassembledLine] using hbreak
        exact ((h j (List.mem_cons_of_mem _ hj)).char hchars).2 rfl
    have hstrip : stripChars (['\n'].intercalate ((i :: rest).map disassembledLine)) =
        ['\n'].intercalate (instructionChars i :: rest.map disassembledLine) := by
      have hfour : ['\n'].intercalate ((i :: rest).map disassembledLine) =
          ' ' :: ' ' :: ' ' :: ' ' :: ['\n'].intercalate (instructionChars i :: rest.map disassembledLine) := by
        by_cases hrest : rest.map disassembledLine = []
        · simp [hrest, disassembledLine]
        · rw [List.map_cons, List.intercalate_cons_of_ne_nil hrest, List.intercalate_cons_of_ne_nil hrest]
          rfl
      have hblank : ∀ l, stripChars (' ' :: ' ' :: ' ' :: ' ' :: l) = stripChars l := fun _ => rfl
      have hends : ∀ l ∈ instructionChars i :: rest.map disassembledLine, ∃ u d, l = u ++ [d] ∧ isSpace d = false := by
        intro l hl
        rcases List.mem_cons.mp hl with rfl | hl
        · exact hi.last
        · obtain ⟨j, hj, rfl⟩ := List.mem_map.mp hl
          obtain ⟨u, d, hu, hd⟩ := (h j (List.mem_cons_of_mem _ hj)).last
          exact ⟨' ' :: ' ' :: ' ' :: ' ' :: u, d, by rw [disassembledLine, hu]; rfl, hd⟩
      obtain ⟨u, d, hu, hd⟩ := hends _ (List.getLast_mem (List.cons_ne_nil _ _))
      obtain ⟨v, hv⟩ := intercalate_last ['\n'] (u := u) (d := d)
        (instructionChars i :: rest.map disassembledLine).dropLast
      rw [← hu, List.dropLast_concat_getLast] at hv
      obtain ⟨c, t, hc, hspace⟩ := hi.head
      have hhead : ∃ t', ['\n'].intercalate (instructionChars i :: rest.map disassembledLine) = c :: t' := by
        by_cases hrest : rest.map disassembledLine = []
        · rw [hrest, List.intercalate_singleton]
          exact ⟨t, hc⟩
        · rw [List.intercalate_cons_of_ne_nil hrest, hc]
          exact ⟨_, rfl⟩
      obtain ⟨t', ht'⟩ := hhead
      rw [hfour, hblank]
      have := @stripChars_closed _ _ _ _ _ [] ht' hv hspace hd (by simp)
      rwa [List.append_nil] at this
    unfold sourceLines disassemble
    rw [String.toList_ofList, hstrip, List.splitOn_intercalate _ hlines (by simp), List.map_cons, List.map_cons,
      hi.read_text, List.map_map]
    congr 1
    refine List.map_congr_left fun j hj => ?_
    exact (h j (List.mem_cons_of_mem _ hj)).read_line

/-! ## What the assembler has made -/

section
variable {host : TextHost}

theorem scan_canonical {ws : Instruction → List String} : ∀ {code : Bytecode}, (∀ i ∈ code, Canonical host i (ws i)) →
    ∀ a : Assembler, (code.map fun i => SourceLine.instruction i.1 (ws i)).foldlM (scanLine host) a =
      .ok { a with code := a.code ++ code, pc := a.pc + code.length } := by
  intro code
  induction code with
  | nil =>
    intro _ a
    simp [pure, Except.pure]
  | cons i code ih =>
    intro h a
    have hi := h i List.mem_cons_self
    rw [List.map_cons, List.foldlM_cons]
    simp only [scanLine, hi.operand, hi.upper, bind, Except.bind]
    rw [ih fun j hj => h j (List.mem_cons_of_mem _ hj)]
    simp [Nat.add_assoc, Nat.add_comm 1]

theorem resolve_canonical {ws : Instruction → List String} : ∀ {code : Bytecode}, (∀ i ∈ code, Canonical host i (ws i)) →
    code.mapM (resolve []) = .ok code := by
  intro code
  induction code with
  | nil => exact fun _ => rfl
  | cons i code ih =>
    intro h
    rw [List.mapM_cons, (h i List.mem_cons_self).fixed, ih fun j hj => h j (List.mem_cons_of_mem _ hj)]
    rfl

theorem scan_mem {lines : List SourceLine} {a a' : Assembler} (h : lines.foldlM (scanLine host) a = .ok a')
    {i : Instruction} (hi : i ∈ a'.code) : i ∈ a.code ∨ ∃ op operands, .instruction op operands ∈ lines ∧
      i.1 = host.upper op ∧ parseOperand host operands = .ok i.2 := by
  induction lines generalizing a with
  | nil =>
    cases h
    exact .inl hi
  | cons line lines ih =>
    rw [List.foldlM_cons] at h
    cases hline : scanLine host a line with
    | error e => simp [hline, bind, Except.bind] at h
    | ok b =>
      simp only [hline, bind, Except.bind] at h
      rcases ih h with hb | ⟨op, operands, hmem, hop, harg⟩
      · cases line with
        | blank =>
          cases hline
          exact .inl hb
        | label name =>
          cases hline
          exact .inl hb
        | instruction op operands =>
          cases harg : parseOperand host operands with
          | error e => simp [scanLine, harg] at hline
          | ok arg =>
            simp only [scanLine, harg, Except.ok.injEq] at hline
            subst hline
            rcases List.mem_append.mp hb with hb | hb
            · exact .inl hb
            · rw [List.mem_singleton] at hb
              subst hb
              exact .inr ⟨op, operands, List.mem_cons_self, rfl, harg⟩
      · exact .inr ⟨op, operands, List.mem_cons_of_mem _ hmem, hop, harg⟩

theorem mapM_mem {labels : Dict String Nat} {code out : Bytecode} (h : code.mapM (resolve labels) = .ok out)
    {y : Instruction} (hy : y ∈ out) : ∃ x ∈ code, resolve labels x = .ok y := by
  induction code generalizing out with
  | nil =>
    cases h
    cases hy
  | cons c code ih =>
    rw [List.mapM_cons] at h
    cases hc : resolve labels c with
    | error e => simp [hc, bind, Except.bind] at h
    | ok z =>
      cases hrest : code.mapM (resolve labels) with
      | error e => simp [hc, hrest, bind, Except.bind] at h
      | ok zs =>
        simp only [hc, hrest, bind, Except.bind, pure, Except.pure, Except.ok.injEq] at h
        subst h
        rcases List.mem_cons.mp hy with rfl | hy
        · exact ⟨c, List.mem_cons_self, hc⟩
        · obtain ⟨x, hx, hres⟩ := ih hrest hy
          exact ⟨x, List.mem_cons_of_mem _ hx, hres⟩

/-- What is known of an instruction line. -/
structure FromLine (op : String) (operands : List String) : Prop where
  word : Word op.toList
  words : ∀ w ∈ operands, Word w.toList
  bare : operands = [] → op.toList.getLast? ≠ some ':'
  colon : operands ≠ [] → (operandText operands).toList.getLast? ≠ some ':'

theorem operandText_last (ws : List String) {w : String} {d : Char} (hw : w.toList.getLast? = some d) :
    (operandText (ws ++ [w])).toList.getLast? = some d := by
  obtain ⟨u, hu⟩ := List.getLast?_eq_some_iff.mp hw
  obtain ⟨v, hv⟩ := intercalate_last " ".toList (u := u) (d := d) (ws.map String.toList)
  unfold operandText
  rw [String.toList_intercalate, List.map_append, List.map_singleton, hu, hv, List.getLast?_append]
  rfl

theorem fromLine_readLine {line : List Char} {op : String} {operands : List String}
    (h : readLine line = .instruction op operands) : FromLine op operands := by
  unfold readLine at h
  simp only at h
  split at h
  · cases h
  · rename_i hcolon
    have hwords : words (clean line) = op :: operands := by
      split at h
      · cases h
      · rename_i op' operands' hw
        cases h
        exact hw
    have hall : ∀ w ∈ op :: operands, Word w.toList := fun w hw => words_word (by rw [hwords]; exact hw)
    have hclean : clean line ≠ [] := by
      intro hnil
      rw [hnil] at hwords
      simp [words] at hwords
    obtain ⟨d, hd⟩ := Option.isSome_iff_exists.mp (List.getLast?_isSome.mpr hclean)
    obtain ⟨ws, w, hsplit, hw⟩ := words_last hd
    have hd' : some d ≠ some ':' := fun he => hcolon (hd.trans he)
    rw [hwords] at hsplit
    refine ⟨hall op List.mem_cons_self, fun w hw => hall w (List.mem_cons_of_mem _ hw), ?_, ?_⟩
    · intro hnil
      rw [hnil, ← List.nil_append [op]] at hsplit
      obtain ⟨-, hop⟩ := List.append_inj' hsplit rfl
      rw [(List.cons.inj hop).1, hw]
      exact hd'
    · intro hne
      cases ws with
      | nil => exact absurd (List.cons.inj hsplit).2 hne
      | cons x ws =>
        have hoperands : operands = ws ++ [w] := (List.cons.inj hsplit).2
        rw [hoperands, operandText_last _ hw]
        exact hd'

variable (rules : TextRules host)
include rules

omit rules in
theorem intChars_word (n : Int) : Word (intChars n) ∧ (intChars n).getLast? ≠ some ':' := by
  have hchars : ∀ c ∈ intChars n, isSpace c = false ∧ c ≠ ';' ∧ c ≠ ':' := by
    intro c hc
    have hnum := intChars_chars n c hc
    unfold isNumChar at hnum
    simp only [Bool.or_eq_true, beq_iff_eq] at hnum
    rcases hnum with (((hd | rfl) | rfl) | rfl) | rfl
    · obtain ⟨h₁, h₂⟩ := Char.isDigit_iff_toNat.mp hd
      have h₁ : 48 ≤ c.toNat := h₁
      have h₂ : c.toNat ≤ 57 := h₂
      refine ⟨?_, ?_, ?_⟩
      · simp [isSpace]
        omega
      · intro hc
        rw [hc] at hd
        cases hd
      · intro hc
        rw [hc] at hd
        cases hd
    all_goals decide
  refine ⟨⟨intChars_ne_nil n, fun c hc => ⟨(hchars c hc).1, (hchars c hc).2.1⟩⟩, fun h => ?_⟩
  exact (hchars ':' (List.mem_of_getLast? h)).2.2 rfl

omit rules in
theorem canonical_bare {op : String} (hword : Word op.toList) (hupper : host.upper op = op)
    (hcolon : op.toList.getLast? ≠ some ':') : Canonical host (op, none) [] where
  op := hword
  operands w hw := by cases hw
  upper := hupper
  text := by simp [instructionChars]
  colon := hcolon
  operand := by simp [parseOperand]
  fixed := rfl

theorem canonical_number {op : String} (hword : Word op.toList) (hupper : host.upper op = op) {n : Nat}
    (hn : n < 10 ^ 4300) : Canonical host (op, some (.int n)) [String.ofList (intChars n)] where
  op := hword
  operands w hw := by
    rw [List.mem_singleton.mp hw, String.toList_ofList]
    exact (intChars_word n).1
  upper := hupper
  text := by simp [instructionChars, operandChars]
  colon := by
    have hlast := (intChars_word n).2
    obtain ⟨d, hd⟩ := Option.isSome_iff_exists.mp (List.getLast?_isSome.mpr (intChars_ne_nil n))
    rw [hd] at hlast
    simp only [instructionChars, operandChars, List.getLast?_append, List.getLast?_cons, hd]
    exact hlast
  operand := by
    obtain ⟨hdigit, hdecimal⟩ := rules.digits n hn
    have htext : operandText [String.ofList (intChars n)] = String.ofList (intChars n) := by simp [operandText]
    simp [parseOperand, htext, hdigit, hdecimal, number]
  fixed := rfl

omit rules in
theorem canonical_text {op : String} {ws : List String} (hword : Word op.toList) (hupper : host.upper op = op)
    (hwords : ∀ w ∈ ws, Word w.toList) (hne : ws ≠ []) (hcolon : (operandText ws).toList.getLast? ≠ some ':')
    (hdigit : host.isDigit (operandText ws) = false) (hhex : (operandText ws).toList.take 2 ≠ ['0', 'x'])
    (hjump : ¬ (op = "JUMP" ∨ op = "JUMPI" ∨ op = "CALL")) : Canonical host (op, some (.str (operandText ws))) ws where
  op := hword
  operands := hwords
  upper := hupper
  text := by
    rw [List.map_cons, List.intercalate_cons_of_ne_nil (by simpa using hne), instructionChars, operandChars, operandText,
      String.toList_intercalate]
    simp
  colon := by
    obtain ⟨d, hw⟩ := Option.isSome_iff_exists.mp (List.getLast?_isSome.mpr (hwords _ (List.getLast_mem hne)).1)
    have hd := operandText_last ws.dropLast hw
    rw [List.dropLast_concat_getLast] at hd
    rw [hd] at hcolon
    simp only [instructionChars, operandChars, List.getLast?_append, List.getLast?_cons, hd]
    exact hcolon
  operand := by simp [parseOperand, hne, hdigit, hhex]
  fixed := by simp [resolve, hjump]

/-- Every instruction that the assembler makes is read back. -/
theorem assembled_canonical {source : String} {code : Bytecode} (h : assemble host source = .ok code)
    (hlong : ∀ i ∈ code, ∀ n : Int, i.2 = some (.int n) → n < 10 ^ 4300) :
    ∀ i ∈ code, ∃ ws, Canonical host i ws := by
  intro i hi
  obtain ⟨a, hscan, hresolve⟩ := assemble_ok h
  obtain ⟨x, hx, hres⟩ := mapM_mem hresolve hi
  rcases scan_mem hscan hx with hnil | ⟨op, operands, hline, hop, harg⟩
  · cases hnil
  obtain ⟨line, -, hread⟩ := List.mem_map.mp hline
  have hfrom := fromLine_readLine hread
  have hword : Word i.1.toList := by
    rw [resolve_op hres, hop]
    exact rules.upper_word op hfrom.word
  have hupper : host.upper i.1 = i.1 := by
    rw [resolve_op hres, hop]
    exact rules.upper_upper op
  -- what is resolved to a number is canonical
  have hnumber : ∀ n : Int, 0 ≤ n → i.2 = some (.int n) → ∃ ws, Canonical host i ws := by
    intro n hn hi₂
    obtain ⟨k, rfl⟩ := Int.eq_ofNat_of_zero_le hn
    have hk : k < 10 ^ 4300 := by exact_mod_cast hlong i hi k hi₂
    have hi' : i = (i.1, some (.int k)) := Prod.ext rfl hi₂
    rw [hi']
    exact ⟨_, canonical_number rules hword hupper hk⟩
  obtain ⟨xop, arg⟩ := x
  -- by the form of the operands: none, decimal, hexadecimal, a label or text
  by_cases hnil : operands = []
  · have harg' : arg = none := by
      rw [hnil] at harg
      simpa [parseOperand] using harg.symm
    subst harg'
    cases hres
    refine ⟨[], canonical_bare hword hupper fun hlast => hfrom.bare hnil (rules.upper_colon op ?_)⟩
    rw [← hop]
    exact hlast
  unfold parseOperand at harg
  simp only [if_neg hnil] at harg
  split at harg
  -- decimal digits
  · rename_i hdigit
    cases hn : host.decimal (operandText operands) with
    | none =>
      rw [hn] at harg
      cases harg
    | some n =>
      rw [hn] at harg
      cases harg
      cases hres
      exact hnumber n (rules.decimal_nonneg _ n hdigit hn) rfl
  · rename_i hdigit
    split at harg
    -- hexadecimal digits
    · rename_i hhex
      cases hn : host.hexadecimal (operandText operands) with
      | none =>
        rw [hn] at harg
        cases harg
      | some n =>
        rw [hn] at harg
        cases harg
        cases hres
        exact hnumber n (rules.hexadecimal_nonneg _ n hhex hn) rfl
    -- a label is resolved by a jump only
    · rename_i hhex
      cases harg
      by_cases hjump : xop = "JUMP" ∨ xop = "JUMPI" ∨ xop = "CALL"
      · simp only [resolve, if_pos hjump] at hres
        split at hres
        · cases hres
        · cases hres
          exact hnumber _ (Int.natCast_nonneg _) rfl
      · simp only [resolve, if_neg hjump] at hres
        cases hres
        exact ⟨operands, canonical_text hword hupper hfrom.words hnil (hfrom.colon hnil)
          (Bool.eq_false_of_not_eq_true hdigit) hhex hjump⟩

end

/-- Assembling the disassembly of what a source was assembled to gives the same code. -/
theorem assemble_disassemble {host : TextHost} (rules : TextRules host) {source : String} {code : Bytecode}
    (h : assemble host source = .ok code) (hlong : ∀ i ∈ code, ∀ n : Int, i.2 = some (.int n) → n < 10 ^ 4300) :
    assemble host (disassemble code) = .ok code := by
  by_cases hnil : code = []
  · subst hnil
    rfl
  choose! ws hws using assembled_canonical rules h hlong
  unfold assemble scan
  rw [sourceLines_disassemble hws hnil, scan_canonical hws]
  exact resolve_canonical hws

/-! ## An assembler of capital letters -/

theorem decimal_digits {l : List Char} (h : ∀ c ∈ l, c.isDigit = true) : ∀ m : Nat,
    l.foldl (fun (n : Int) c => n * 10 + (c.toNat - 48)) m = (l.foldl (fun n c => n * 10 + (c.toNat - 48)) m : Nat) := by
  induction l with
  | nil => exact fun _ => rfl
  | cons c l ih =>
    intro m
    have hc : 48 ≤ c.toNat := (Char.isDigit_iff_toNat.mp (h c List.mem_cons_self)).1
    have hcast : (m : Int) * 10 + ((c.toNat : Int) - 48) = ((m * 10 + (c.toNat - 48) : Nat) : Int) := by
      push_cast [Nat.cast_sub hc]
      rfl
    rw [List.foldl_cons, List.foldl_cons, hcast]
    exact ih (fun d hd => h d (List.mem_cons_of_mem _ hd)) _

theorem parseHexInt_nonneg {l : List Char} {n : Int} (hl : l.take 2 = ['0', 'x']) (h : parseHexInt l = some n) : 0 ≤ n := by
  obtain ⟨t, rfl⟩ : ∃ t, l = '0' :: t := by
    cases l with
    | nil => cases hl
    | cons c t => exact ⟨t, by rw [List.take_succ_cons] at hl; rw [(List.cons.inj hl).1]⟩
  have hpre := stripChars_prefix (q := '0' :: t) (by simp [isSpace])
  unfold parseHexInt at h
  split at h
  · rename_i hs
    rw [hs] at hpre
    exact absurd (List.cons_prefix_cons.mp hpre).1 (by decide)
  · obtain ⟨m, hm, rfl⟩ := Option.map_eq_some_iff.mp h
    obtain ⟨k, -, hk⟩ := Option.bind_eq_some_iff.mp hm
    cases hk
    exact Int.natCast_nonneg k
  · obtain ⟨m, hm, rfl⟩ := Option.map_eq_some_iff.mp h
    obtain ⟨k, -, hk⟩ := Option.bind_eq_some_iff.mp hm
    cases hk
    exact Int.natCast_nonneg k

/-- Python's functions on sources that have no small letters. -/
def capitalHost : TextHost := { asciiHost with upper := id }

theorem capitalRules : TextRules capitalHost where
  upper_upper _ := rfl
  upper_word _ h := h
  upper_colon _ h := h
  digits n _ := by
    have hdigits : ∀ c ∈ Nat.toDigits 10 n, c.isDigit = true := fun c hc => toDigits_isDigit hc
    constructor
    · show (String.ofList (intChars n) ≠ "" && (String.ofList (intChars n)).toList.all Char.isDigit) = true
      rw [String.toList_ofList]
      have hall : (intChars n).all Char.isDigit = true := List.all_eq_true.mpr hdigits
      have hne : String.ofList (intChars n) ≠ "" := by
        intro he
        have := congrArg String.toList he
        rw [String.toList_ofList] at this
        exact toDigits_ne_nil n this
      rw [hall]
      simp [hne]
    · show some _ = some _
      rw [String.toList_ofList]
      exact congrArg some ((decimal_digits hdigits 0).trans (congrArg Nat.cast (natOfDigits_toDigits n)))
  decimal_nonneg s n hs hn := by
    have hall : ∀ c ∈ s.toList, c.isDigit = true := by
      have : (s ≠ "" && s.toList.all Char.isDigit) = true := hs
      simpa using (Bool.and_eq_true_iff.mp this).2
    cases hn
    rw [show (0 : Int) = ((0 : Nat) : Int) from rfl, decimal_digits hall 0]
    exact Int.natCast_nonneg _
  hexadecimal_nonneg s n hs hn := parseHexInt_nonneg hs hn

def countdown : String := "PUSH 0x0A\nLOOP:\n  DEC ; one less\n  JUMP LOOP\nNOTE ten to one"

theorem assemble_disassemble_countdown :
    assemble capitalHost (disassemble
        [("PUSH", some (.int 10)), ("DEC", none), ("JUMP", some (.int 1)), ("NOTE", some (.str "ten to one"))]) =
      .ok [("PUSH", some (.int 10)), ("DEC", none), ("JUMP", some (.int 1)), ("NOTE", some (.str "ten to one"))] := by
  have h : assemble capitalHost countdown =
      .ok [("PUSH", some (.int 10)), ("DEC", none), ("JUMP", some (.int 1)), ("NOTE", some (.str "ten to one"))] := by
    rfl
  refine assemble_disassemble capitalRules h ?_
  intro i hi n hn
  have hten : n ≤ 10 := by
    simp only [List.mem_cons, List.not_mem_nil, or_false] at hi
    rcases hi with rfl | rfl | rfl | rfl
    · cases hn; decide
    · cases hn
    · cases hn; decide
    · cases hn
  exact lt_of_le_of_lt hten (lt_self_pow₀ (by decide) (by decide))

end AbsoluteChain.MiniVM
