import AbsoluteChain.HexText
import AbsoluteChain.JsonFields
import AbsoluteChain.Runs
import AbsoluteChain.WireFrames
import AbsoluteChain.WireJson

/-!
# A connection to a peer

`PeerConnection` of `network/p2p_node.py` and the loop that reads from it: messages are lines of JSON, and TCP cuts the
lines as it likes. What the loop hands on is the beginning of what the other side has sent, up to its first message
that is longer than the reader's limit.
-/

namespace AbsoluteChain.PeerConnection

open Python JsonText Runs

variable {φ : Type} (F : Floats φ)

/-- The arguments of `send`. A dictionary has no two members of one key. -/
structure Message (φ : Type) where
  msgType : String
  data : Json φ
  distinct : data.Distinct

def Message.json (m : Message φ) : Json φ := dict [("type", .str m.msgType), ("data", m.data)]

def msgIdle : String := "__idle__"

/-! ## Sending -/

def newline : UInt8 := 10

def text (m : Message φ) : List Char := render F.style m.json

def line (m : Message φ) : Bytes := encode (String.ofList (text F m))

/-- What `send` writes. -/
def payload (m : Message φ) : Bytes := line F m ++ [newline]

/-! ## Receiving -/

def decode (bs : Bytes) : Option (List Char) := bs.toByteArray.utf8Decode?.map Array.toList

inductive Reading where
  | line (data rest : Bytes)
  | tooLong (rest : Bytes)
  | waiting

/-- `StreamReader.readline` with the reader's limit, on what has arrived and on whether more can come. -/
def readline (limit : Nat) (buffer : Bytes) (eof : Bool) : Reading :=
  match Frames.cut newline buffer with
  | some (data, rest) => if limit < data.length then .tooLong rest else .line (data ++ [newline]) rest
  | none =>
    if limit < buffer.length then .tooLong []
    else if eof then .line buffer []
    else .waiting

/-- What `recv` makes of a line. JSON's `null` is the `None` of an error, too. -/
def parse (data : Bytes) : Option (Json φ) :=
  if data = [] then none
  else
    match (decode data).bind fun cs => loads F.read (stripChars cs) with
    | some .null => none
    | v => v

def idle : Json φ := dict [("type", .str msgIdle), ("data", .null)]

def recv (limit : Nat) (buffer : Bytes) (eof : Bool) : Option (Json φ) × Bytes :=
  match readline limit buffer eof with
  | .waiting => (some idle, buffer)
  | .tooLong rest => (none, rest)
  | .line data rest => (parse F data, rest)

/-! ## The connection -/

/-- Where `_message_loop` stands: at the condition of its `while`, in `recv`, or behind the loop. -/
inductive Phase where
  | checking
  | reading
  | stopped
  deriving DecidableEq

/-- One direction of a connection: the messages sent, the bytes on their way, the bytes that have arrived, whether the
node still has the connection among its peers, and what its loop has handled. -/
structure Link (φ : Type) where
  sent : List (Message φ)
  flight : Bytes
  buffer : Bytes
  eof : Bool
  registered : Bool
  phase : Phase
  handled : List (Json φ)

def Link.fresh : Link φ :=
  { sent := [], flight := [], buffer := [], eof := false, registered := true, phase := .checking, handled := [] }

inductive Event (φ : Type) where
  | send (m : Message φ)
  | arrive (n : Nat)
  | hangUp
  | remove
  | check
  | receive (raises : Bool)

def typeOf : Json φ → Option (Json φ)
  | .obj fields => some ((fields.get? "type").getD .null)
  | _ => none

def isIdle : Json φ → Bool
  | .str t => t = msgIdle
  | _ => false

/-- A turn of the loop, once `recv` has returned; `_handle_message` may raise. -/
def Link.receive (limit : Nat) (raises : Bool) (s : Link φ) : Link φ :=
  if s.phase = .reading then
    match recv F limit s.buffer s.eof with
    | (none, rest) => { s with buffer := rest, phase := .stopped }
    | (some msg, rest) =>
      match typeOf msg with
      | none => { s with buffer := rest, phase := .stopped }
      | some t =>
        if isIdle t then { s with buffer := rest, phase := .checking }
        else
          { s with
            buffer := rest
            phase := if raises then .stopped else .checking
            handled := s.handled ++ [msg] }
  else s

def Link.step (limit : Nat) : Event φ → Link φ → Link φ
  | .send m, s => { s with sent := s.sent ++ [m], flight := if s.eof then [] else s.flight ++ payload F m }
  | .arrive n, s => { s with buffer := s.buffer ++ s.flight.take n, flight := s.flight.drop n }
  | .hangUp, s => { s with flight := [], eof := true }
  | .remove, s => { s with registered := false }
  | .check, s => if s.phase = .checking then { s with phase := if s.registered then .reading else .stopped } else s
  | .receive raises, s => s.receive F limit raises

/-! ## Lines are printable -/

/-- The printable characters of ASCII. -/
def Printable (c : Char) : Prop := 32 ≤ c.toNat ∧ c.toNat < 127

theorem printable_hexDigit (n : Nat) : Printable (hexDigit (n % 16)) := by
  have hlt : n % 16 < 16 := Nat.mod_lt _ (by decide)
  unfold Printable
  interval_cases n % 16 <;> decide

theorem printable_unicodeEscape (n : Nat) : ∀ c ∈ unicodeEscape n, Printable c := by
  intro c hc
  simp only [unicodeEscape, hex4, List.mem_cons, List.not_mem_nil, or_false] at hc
  rcases hc with rfl | rfl | rfl | rfl | rfl | rfl
  · exact ⟨by decide, by decide⟩
  · exact ⟨by decide, by decide⟩
  all_goals exact printable_hexDigit _

theorem printable_escapeAscii (c : Char) : ∀ d ∈ escapeAscii c, Printable d := by
  intro d hd
  unfold escapeAscii at hd
  cases hs : shortEscape c.toNat with
  | some x =>
    simp only [hs, List.mem_cons, List.not_mem_nil, or_false] at hd
    rcases hd with rfl | rfl
    · exact ⟨by decide, by decide⟩
    · unfold shortEscape at hs
      split_ifs at hs <;> cases hs <;> exact ⟨by decide, by decide⟩
  | none =>
    simp only [hs] at hd
    split at hd
    · rename_i h
      rw [List.mem_singleton.mp hd]
      exact ⟨h.1, by omega⟩
    · split at hd
      · exact printable_unicodeEscape _ d hd
      · rcases List.mem_append.mp hd with hd | hd
        · exact printable_unicodeEscape _ d hd
        · exact printable_unicodeEscape _ d hd

theorem printable_quote (s : String) : ∀ c ∈ quote F.style s, Printable c := by
  have htail : ∀ l : List Char, ∀ c ∈ quoteTail F.style l, Printable c := by
    intro l
    induction l with
    | nil =>
      intro c hc
      rw [List.mem_singleton.mp hc]
      exact ⟨by decide, by decide⟩
    | cons d l ih =>
      intro c hc
      rcases List.mem_append.mp hc with hc | hc
      · exact printable_escapeAscii d c hc
      · exact ih c hc
  intro c hc
  rcases List.mem_cons.mp hc with rfl | hc
  · exact ⟨by decide, by decide⟩
  · exact htail _ c hc

theorem printable_intChars (n : Int) : ∀ c ∈ intChars n, Printable c := by
  intro c hc
  have hnum := intChars_chars n c hc
  unfold isNumChar at hnum
  simp only [Bool.or_eq_true, beq_iff_eq] at hnum
  rcases hnum with (((hd | rfl) | rfl) | rfl) | rfl
  · obtain ⟨h₁, h₂⟩ := Char.isDigit_iff_toNat.mp hd
    exact ⟨le_trans (by decide) h₁, lt_of_le_of_lt h₂ (by decide)⟩
  all_goals exact ⟨by decide, by decide⟩

theorem printable_sep {x c : Char} (hx : Printable x) (hc : c ∈ [x, ' ']) : Printable c := by
  rcases List.mem_cons.mp hc with rfl | hc
  · exact hx
  · rw [List.mem_singleton.mp hc]
    exact ⟨by decide, by decide⟩

mutual
theorem printable_render : ∀ (v : Json φ), ∀ c ∈ render F.style v, Printable c
  | .null => by simp [render, Printable]
  | .bool true => by simp [render, Printable]
  | .bool false => by simp [render, Printable]
  | .int n => printable_intChars n
  | .float x => fun c hc => ⟨(F.plain x c hc).1.le, (F.plain x c hc).2.1⟩
  | .str s => printable_quote F s
  | .arr .nil => by simp [render, Printable]
  | .arr (.cons v t) => by
    intro c hc
    simp only [render, List.mem_cons, List.mem_append] at hc
    rcases hc with rfl | hc | hc
    · exact ⟨by decide, by decide⟩
    · exact printable_render v c hc
    · exact printable_renderItems t c hc
  | .obj .nil => by simp [render, Printable]
  | .obj (.cons k v t) => by
    intro c hc
    simp only [render, List.mem_cons, List.mem_append] at hc
    rcases hc with rfl | hc | hc | hc | hc
    · exact ⟨by decide, by decide⟩
    · exact printable_quote F k c hc
    · exact printable_sep (x := ':') ⟨by decide, by decide⟩ hc
    · exact printable_render v c hc
    · exact printable_renderFields t c hc
theorem printable_renderItems : ∀ (t : Items φ), ∀ c ∈ renderItems F.style t, Printable c
  | .nil => by simp [renderItems, Printable]
  | .cons v t => by
    intro c hc
    simp only [renderItems, List.mem_append] at hc
    rcases hc with hc | hc | hc
    · exact printable_sep (x := ',') ⟨by decide, by decide⟩ hc
    · exact printable_render v c hc
    · exact printable_renderItems t c hc
theorem printable_renderFields : ∀ (t : Fields φ), ∀ c ∈ renderFields F.style t, Printable c
  | .nil => by simp [renderFields, Printable]
  | .cons k v t => by
    intro c hc
    simp only [renderFields, List.mem_append] at hc
    rcases hc with hc | hc | hc | hc | hc
    · exact printable_sep (x := ',') ⟨by decide, by decide⟩ hc
    · exact printable_quote F k c hc
    · exact printable_sep (x := ':') ⟨by decide, by decide⟩ hc
    · exact printable_render v c hc
    · exact printable_renderFields t c hc
end

theorem utf8EncodeChar_printable {c : Char} (h : c.toNat < 128) : String.utf8EncodeChar c = [UInt8.ofNat c.toNat] := by
  have hsize : c.utf8Size = 1 := Char.utf8Size_eq_one_iff.mpr (UInt32.le_iff_toNat_le.mpr (Nat.le_of_lt_succ h))
  rw [String.utf8EncodeChar_eq_singleton hsize]
  rfl

theorem encode_printable {l : List Char} (h : ∀ c ∈ l, c.toNat < 128) :
    encode (String.ofList l) = l.map fun c => UInt8.ofNat c.toNat := by
  rw [encode_ofList]
  induction l with
  | nil => rfl
  | cons c l ih =>
    rw [List.flatMap_cons, utf8EncodeChar_printable (h c List.mem_cons_self),
      ih fun d hd => h d (List.mem_cons_of_mem _ hd)]
    rfl

theorem decode_encode (l : List Char) : decode (encode (String.ofList l)) = some l := by
  unfold decode
  rw [encode_ofList]
  have h := List.utf8Decode?_utf8Encode (l := l)
  unfold List.utf8Encode at h
  rw [h]
  simp

theorem text_printable (m : Message φ) : ∀ c ∈ text F m, Printable c := printable_render F m.json

theorem newline_not_mem_line (m : Message φ) : newline ∉ line F m := by
  intro h
  unfold line at h
  rw [encode_printable fun c hc => by have := (text_printable F m c hc).2; omega] at h
  obtain ⟨c, hc, he⟩ := List.mem_map.mp h
  have hrange := text_printable F m c hc
  have hnat := congrArg UInt8.toNat he
  rw [UInt8.toNat_ofNat_of_lt' (lt_trans hrange.2 (by decide))] at hnat
  have hten : newline.toNat = 10 := rfl
  have hlow := hrange.1
  omega

/-! ## What is made of a line -/

theorem renderFields_last (st : Style φ) : ∀ t : Fields φ, ['\x7d'] <:+ renderFields st t
  | .nil => List.suffix_rfl
  | .cons _ _ t => by
    have h := renderFields_last st t
    unfold renderFields
    exact (((h.trans (List.suffix_append _ _)).trans (List.suffix_append _ _)).trans (List.suffix_append _ _)).trans
      (List.suffix_append _ _)

theorem text_head (m : Message φ) : ∃ t, text F m = '\x7b' :: t := ⟨_, rfl⟩

theorem text_last (m : Message φ) : ['\x7d'] <:+ text F m := by
  have h := renderFields_last F.style (.cons "data" m.data .nil)
  exact (((h.trans (List.suffix_append _ _)).trans (List.suffix_append _ _)).trans (List.suffix_append _ _)).trans
    (List.suffix_cons _ _)

theorem strip_text (m : Message φ) {ws : List Char} (hws : ∀ x ∈ ws, isSpace x = true) :
    stripChars (text F m ++ ws) = text F m := by
  obtain ⟨t, ht⟩ := text_head F m
  obtain ⟨u, hu⟩ := text_last F m
  exact stripChars_closed ht hu.symm (by decide) (by decide) hws

theorem Message.json_distinct (m : Message φ) : m.json.Distinct := by
  refine ⟨?_, trivial, m.distinct, trivial⟩
  exact List.nodup_cons.mpr ⟨by simp [Fields.ofList, Fields.keys], List.nodup_singleton _⟩

theorem loads_text (m : Message φ) : loads F.read (text F m) = some m.json :=
  loads_render F.readsBack m.json m.json_distinct

theorem parse_eq {data : Bytes} {l : List Char} (hne : data ≠ []) (hdata : data = encode (String.ofList l)) :
    parse F data = match loads F.read (stripChars l) with
      | some .null => none
      | v => v := by
  unfold parse
  rw [if_neg hne, hdata, decode_encode]
  rfl

theorem line_ne_nil (m : Message φ) : line F m ≠ [] := by
  obtain ⟨t, ht⟩ := text_head F m
  unfold line
  rw [ht, encode_ofList, List.flatMap_cons]
  simp [String.utf8EncodeChar]

theorem parse_text (m : Message φ) {data : Bytes} (ws : List Char) (hws : ∀ x ∈ ws, isSpace x = true)
    (hdata : data = encode (String.ofList (text F m ++ ws))) (hne : data ≠ []) : parse F data = some m.json := by
  rw [parse_eq F hne hdata, strip_text F m hws, loads_text]
  rfl

theorem parse_line (m : Message φ) : parse F (line F m) = some m.json :=
  parse_text F m [] (by simp) (by rw [List.append_nil]; rfl) (line_ne_nil F m)

theorem parse_payload (m : Message φ) : parse F (line F m ++ [newline]) = some m.json := by
  refine parse_text F m ['\n'] (List.forall_mem_singleton.mpr rfl) ?_ (by simp)
  unfold line
  rw [encode_ofList, encode_ofList, List.flatMap_append]
  rfl

/-- A line that breaks off is the error of `json.loads`. -/
theorem parse_cut (m : Message φ) {data : Bytes} (hpre : data <+: line F m) (hne : data ≠ line F m) :
    parse F data = none := by
  by_cases hnil : data = []
  · rw [parse, if_pos hnil]
  have hascii : ∀ c ∈ text F m, c.toNat < 128 := fun c hc => lt_trans (text_printable F m c hc).2 (by decide)
  obtain ⟨k, hk⟩ : ∃ k, data = encode (String.ofList ((text F m).take k)) := by
    refine ⟨data.length, ?_⟩
    rw [encode_printable fun c hc => hascii c (List.mem_of_mem_take hc), List.map_take,
      ← encode_printable hascii]
    exact List.prefix_iff_eq_take.mp hpre
  have htake : (text F m).take k <+: text F m := List.take_prefix k _
  have hcut : (text F m).take k ≠ text F m := fun h => hne (by rw [hk, h]; rfl)
  have hhead : ∀ c ∈ ((text F m).take k).head?, isSpace c = false := by
    obtain ⟨t, ht⟩ := text_head F m
    intro c hc
    rw [ht] at hc
    cases k with
    | zero => cases hc
    | succ k =>
      cases hc
      decide
  have hstrip := stripChars_prefix hhead
  rw [parse_eq F hnil hk]
  have hnot : stripChars ((text F m).take k) ≠ text F m := by
    intro h
    rw [h] at hstrip
    exact hcut (htake.eq_of_length (Nat.le_antisymm htake.length_le hstrip.length_le))
  have hloads : loads F.read (stripChars ((text F m).take k)) = none :=
    loads_prefix F.readsBack (fun x c hc => (F.plain x c hc).2.2) m.json_distinct (hstrip.trans htake) hnot
  rw [hloads]

/-! ## A turn of the loop -/

def fits (limit : Nat) (m : Message φ) : Bool := (line F m).length ≤ limit

def wanted (m : Message φ) : Bool := m.msgType ≠ msgIdle

def handling (l : List (Message φ)) : List (Json φ) := (l.filter wanted).map Message.json

/-- The state after a turn that has read `m`. -/
def Link.took (s : Link φ) (m : Message φ) (raises : Bool) (rest : Bytes) : Link φ :=
  { s with
    buffer := rest
    phase := if wanted m && raises then .stopped else .checking
    handled := s.handled ++ handling [m] }

theorem typeOf_json (m : Message φ) : typeOf m.json = some (.str m.msgType) := by
  simp [Message.json, dict, Fields.ofList, typeOf, Fields.get?]

variable {F} {limit : Nat} {s : Link φ} {raises : Bool}

theorem receive_json {m : Message φ} {rest : Bytes} (hphase : s.phase = .reading)
    (h : recv F limit s.buffer s.eof = (some m.json, rest)) :
    s.receive F limit raises = s.took m raises rest := by
  unfold Link.receive Link.took
  rw [if_pos hphase, h]
  simp only [typeOf_json, isIdle]
  by_cases hw : m.msgType = msgIdle
  · have hwanted : wanted m = false := by simp [wanted, hw]
    simp [hw, handling, hwanted]
  · have hwanted : wanted m = true := by simp [wanted, hw]
    simp [hw, handling, hwanted]

variable (limit raises) in
/-- What a turn can do: nothing, take the next message, or end the loop. -/
theorem receive_cases {pending : List (Message φ)} {rest : Bytes} (hphase : s.phase = .reading)
    (hahead : s.buffer ++ rest = Frames.stream newline (pending.map (line F))) :
    (s.eof = false ∧ s.receive F limit raises = { s with phase := .checking } ∧
        ∀ m l, pending = m :: l → s.buffer <+: line F m) ∨
      (∃ m l b r, pending = m :: l ∧ fits F limit m = true ∧ b ++ r = Frames.stream newline (l.map (line F)) ∧
        (s.eof = false → r = rest) ∧ s.receive F limit raises = s.took m raises b) ∨
      (∃ b, s.receive F limit raises = { s with buffer := b, phase := .stopped } ∧
        (s.eof = true ∨ ∃ m l, pending = m :: l ∧ fits F limit m = false)) := by
  -- the three ways a call of `receive` can end
  have hstop : ∀ b, recv F limit s.buffer s.eof = (none, b) →
      s.receive F limit raises = { s with buffer := b, phase := .stopped } := by
    intro b hb
    unfold Link.receive
    rw [if_pos hphase, hb]
  have hwait : recv F limit s.buffer s.eof = (some idle, s.buffer) →
      s.receive F limit raises = { s with phase := .checking } := by
    intro hb
    unfold Link.receive
    rw [if_pos hphase, hb]
    simp [idle, dict, Fields.ofList, typeOf, Fields.get?, isIdle]
  cases pending with
  | nil =>
    have hbuffer : s.buffer = [] := (List.append_eq_nil_iff.mp hahead).1
    -- nothing is pending, so nothing is buffered
    by_cases heof : s.eof = true
    · refine .inr (.inr ⟨[], hstop _ ?_, .inl heof⟩)
      rw [hbuffer, heof]
      simp [recv, readline, Frames.cut, parse]
    · rw [Bool.not_eq_true] at heof
      refine .inl ⟨heof, hwait ?_, fun m l h => by cases h⟩
      rw [hbuffer, heof]
      simp [recv, readline, Frames.cut]
  | cons m l =>
    rcases Frames.cut_stream (newline_not_mem_line F m) hahead with ⟨hpre, hcut⟩ | ⟨b, hcut, hb⟩
    -- the first line is not complete
    · by_cases hlong : limit < s.buffer.length
      · refine .inr (.inr ⟨[], hstop _ ?_, .inr ⟨m, l, rfl, ?_⟩⟩)
        · simp only [recv, readline, hcut, if_pos hlong]
        · have := hpre.length_le
          simp only [fits, decide_eq_false_iff_not]
          omega
      by_cases heof : s.eof = true
      -- at the end of the stream a line without its newline still counts
      · by_cases hwhole : s.buffer = line F m
        · refine .inr (.inl ⟨m, l, [], Frames.stream newline (l.map (line F)), rfl, ?_, rfl, ?_, ?_⟩)
          · rw [hwhole] at hlong
            simp only [fits, decide_eq_true_eq]
            omega
          · intro h
            rw [heof] at h
            cases h
          · refine receive_json hphase ?_
            simp only [recv, readline, hcut, if_neg hlong, heof, if_true]
            rw [hwhole, parse_line]
        · refine .inr (.inr ⟨[], hstop _ ?_, .inl heof⟩)
          simp only [recv, readline, hcut, if_neg hlong, heof, if_true]
          rw [parse_cut F m hpre hwhole]
      · rw [Bool.not_eq_true] at heof
        refine .inl ⟨heof, hwait ?_, fun m' l' h => by cases h; exact hpre⟩
        simp [recv, readline, hcut, if_neg hlong, heof]
    -- the first line is complete
    · by_cases hlong : limit < (line F m).length
      · refine .inr (.inr ⟨b, hstop _ ?_, .inr ⟨m, l, rfl, ?_⟩⟩)
        · simp only [recv, readline, hcut, if_pos hlong]
        · simp only [fits, decide_eq_false_iff_not]
          omega
      · refine .inr (.inl ⟨m, l, b, rest, rfl, ?_, hb, fun _ => rfl, ?_⟩)
        · simp only [fits, decide_eq_true_eq]
          omega
        · refine receive_json hphase ?_
          simp only [recv, readline, hcut, if_neg hlong]
          rw [parse_payload]

/-! ## Runs -/

variable (F limit) in
/-- The messages sent are those that the loop has taken and those it has still to take, whose bytes are in the buffer
and on their way as far as they have not been lost. -/
structure Splits (s : Link φ) (done pending : List (Message φ)) (rest : Bytes) : Prop where
  sent : s.sent = done ++ pending
  fits : ∀ m ∈ done, fits F limit m = true
  handled : s.handled = handling done
  ahead : s.phase ≠ .stopped → s.buffer ++ rest = Frames.stream newline (pending.map (line F))
  flight : s.phase ≠ .stopped → s.eof = false → rest = s.flight
  hung : s.eof = true → s.flight = []

theorem handling_append (l l' : List (Message φ)) : handling (l ++ l') = handling l ++ handling l' := by
  simp [handling]

theorem splits_send {done pending : List (Message φ)} {rest : Bytes} (h : Splits F limit s done pending rest)
    (m : Message φ) : Splits F limit (Link.step F limit (.send m) s) done (pending ++ [m]) (rest ++ payload F m) where
  sent := by simp only [Link.step, h.sent, List.append_assoc]
  fits := h.fits
  handled := h.handled
  ahead hphase := by
    have := h.ahead hphase
    simp only [Link.step]
    rw [← List.append_assoc, this, List.map_append, Frames.stream_append]
    simp [Frames.stream, payload]
  flight hphase heof := by
    have heof' : s.eof = false := heof
    simp only [Link.step, heof', h.flight hphase heof']
    simp
  hung heof := by
    have heof' : s.eof = true := heof
    simp only [Link.step, heof', if_true]

theorem splits_arrive {done pending : List (Message φ)} {rest : Bytes} (h : Splits F limit s done pending rest)
    (n : Nat) :
    Splits F limit (Link.step F limit (.arrive n) s) done pending (if s.eof then rest else rest.drop n) where
  sent := h.sent
  fits := h.fits
  handled := h.handled
  ahead hphase := by
    rw [← h.ahead hphase]
    cases heof : s.eof with
    | true => simp [Link.step, h.hung heof]
    | false => simp [Link.step, h.flight hphase heof]
  flight hphase heof := by
    have heof' : s.eof = false := heof
    simp [Link.step, heof', h.flight hphase heof']
  hung heof := by simp [Link.step, h.hung heof]

theorem splits_took {done pending : List (Message φ)} {rest : Bytes} (h : Splits F limit s done pending rest)
    {m : Message φ} {l : List (Message φ)} {b r : Bytes} (hp : pending = m :: l)
    (hfits : PeerConnection.fits F limit m = true) (hb : b ++ r = Frames.stream newline (l.map (line F)))
    (hr : s.eof = false → r = rest) (hphase : s.phase ≠ .stopped) :
    Splits F limit (s.took m raises b) (done ++ [m]) l r where
  sent := by simp [Link.took, h.sent, hp]
  fits x hx := by
    rcases List.mem_append.mp hx with hx | hx
    · exact h.fits x hx
    · rw [List.mem_singleton.mp hx]
      exact hfits
  handled := by simp only [Link.took, h.handled, handling_append]
  ahead _ := hb
  flight _ heof := (hr heof).trans (h.flight hphase heof)
  hung := h.hung

theorem splits_phase {done pending : List (Message φ)} {rest : Bytes} (h : Splits F limit s done pending rest)
    {phase : Phase} (hphase : phase = .stopped ∨ s.phase ≠ .stopped) :
    Splits F limit { s with phase := phase } done pending rest where
  sent := h.sent
  fits := h.fits
  handled := h.handled
  ahead hne := h.ahead (hphase.resolve_left hne)
  flight hne := h.flight (hphase.resolve_left hne)
  hung := h.hung

theorem splits_stopped {done pending : List (Message φ)} {rest : Bytes} (h : Splits F limit s done pending rest)
    (b : Bytes) : Splits F limit { s with buffer := b, phase := .stopped } done pending rest where
  sent := h.sent
  fits := h.fits
  handled := h.handled
  ahead hne := absurd rfl hne
  flight hne := absurd rfl hne
  hung := h.hung

theorem splits_step {done pending : List (Message φ)} {rest : Bytes} (h : Splits F limit s done pending rest)
    (e : Event φ) : ∃ done pending rest, Splits F limit (Link.step F limit e s) done pending rest := by
  cases e with
  | send m => exact ⟨_, _, _, splits_send h m⟩
  | arrive n => exact ⟨_, _, _, splits_arrive h n⟩
  | hangUp =>
    exact ⟨done, pending, rest, h.sent, h.fits, h.handled, h.ahead, fun _ heof => (by cases heof), fun _ => rfl⟩
  | remove => exact ⟨done, pending, rest, h.sent, h.fits, h.handled, h.ahead, h.flight, h.hung⟩
  | check =>
    refine ⟨done, pending, rest, ?_⟩
    simp only [Link.step]
    split
    · rename_i hphase
      exact splits_phase h (.inr (by rw [hphase]; decide))
    · exact h
  | receive raises =>
    simp only [Link.step]
    by_cases hphase : s.phase = .reading
    · have hne : s.phase ≠ .stopped := by rw [hphase]; decide
      rcases receive_cases limit raises hphase (h.ahead hne) with
        ⟨-, hs, -⟩ | ⟨m, l, b, r, hp, hfits, hb, hr, hs⟩ | ⟨b, hs, -⟩
      · rw [hs]
        exact ⟨_, _, _, splits_phase h (.inr hne)⟩
      · rw [hs]
        exact ⟨_, _, _, splits_took h hp hfits hb hr hne⟩
      · rw [hs]
        exact ⟨_, _, _, splits_stopped h b⟩
    · rw [Link.receive, if_neg hphase]
      exact ⟨done, pending, rest, h⟩

theorem splits_fresh : Splits F limit (Link.fresh : Link φ) [] [] [] where
  sent := rfl
  fits := by simp
  handled := rfl
  ahead _ := rfl
  flight _ _ := rfl
  hung _ := rfl

theorem takeWhile_done {α : Type} {p : α → Bool} {done pending : List α} (h : ∀ x ∈ done, p x = true) :
    (done ++ pending).takeWhile p = done ++ pending.takeWhile p := List.takeWhile_append_of_pos h

/-- However the bytes are cut on their way and wherever they end, what the loop hands on is a beginning of what the
other side has sent before its first message that is too long, without the messages of the type of a timeout. -/
theorem handled_prefix (F : Floats φ) (limit : Nat) (events : List (Event φ)) :
    (run (Link.step F limit) events Link.fresh).handled <+:
      handling ((run (Link.step F limit) events Link.fresh).sent.takeWhile (fits F limit)) := by
  have hinv : ∃ done pending rest, Splits F limit (run (Link.step F limit) events Link.fresh) done pending rest := by
    refine run_inv (I := fun s => ∃ done pending rest, Splits F limit s done pending rest) ?_ events
      ⟨[], [], [], splits_fresh⟩
    intro e s h
    obtain ⟨done, pending, rest, h⟩ := h
    exact splits_step h e
  obtain ⟨done, pending, rest, h⟩ := hinv
  rw [h.handled, h.sent, takeWhile_done h.fits, handling_append]
  exact List.prefix_append _ _

/-! ## Runs that nothing disturbs -/

/-- The other side does not hang up, the node keeps the connection, and no handler raises. -/
def Event.Quiet : Event φ → Prop
  | .hangUp | .remove | .receive true => False
  | _ => True

variable (F limit) in
structure Smooth (s : Link φ) (done pending : List (Message φ)) (rest : Bytes) : Prop extends
    Splits F limit s done pending rest where
  open_ : s.eof = false
  registered : s.registered = true
  stuck : s.phase = .stopped → ∃ m l, pending = m :: l ∧ PeerConnection.fits F limit m = false

theorem smooth_receive {done pending : List (Message φ)} {rest : Bytes} (h : Smooth F limit s done pending rest)
    (hphase : s.phase = .reading) :
    ((s.receive F limit false).phase = .checking ∧ Smooth F limit (s.receive F limit false) done pending rest ∧
        ∀ m l, pending = m :: l → s.buffer <+: line F m) ∨
      (∃ m l, pending = m :: l ∧ Smooth F limit (s.receive F limit false) (done ++ [m]) l rest) ∨
      ((s.receive F limit false).phase = .stopped ∧ Smooth F limit (s.receive F limit false) done pending rest) := by
  have hne : s.phase ≠ .stopped := by rw [hphase]; decide
  rcases receive_cases limit false hphase (h.ahead hne) with
    ⟨-, hs, hwaits⟩ | ⟨m, l, b, r, hp, hfits, hb, hr, hs⟩ | ⟨b, hs, hstop⟩
  · rw [hs]
    exact .inl ⟨rfl, ⟨splits_phase h.toSplits (.inr hne), h.open_, h.registered, fun hx => by cases hx⟩, hwaits⟩
  · rw [hs]
    have hrest := hr h.open_
    subst hrest
    refine .inr (.inl ⟨m, l, hp, splits_took h.toSplits hp hfits hb (fun _ => rfl) hne, h.open_, h.registered, ?_⟩)
    intro hx
    simp [Link.took] at hx
  · rw [hs]
    refine .inr (.inr ⟨rfl, splits_stopped h.toSplits b, h.open_, h.registered, fun _ => ?_⟩)
    rcases hstop with heof | hlong
    · rw [h.open_] at heof
      cases heof
    · exact hlong

theorem smooth_check {done pending : List (Message φ)} {rest : Bytes} (h : Smooth F limit s done pending rest)
    (hne : s.phase ≠ .stopped) :
    (Link.step F limit .check s).phase = .reading ∧ Smooth F limit (Link.step F limit .check s) done pending rest ∧
      (Link.step F limit .check s).buffer = s.buffer := by
  by_cases hphase : s.phase = .checking
  · have hs : Link.step F limit .check s = { s with phase := .reading } := by
      simp [Link.step, hphase, h.registered]
    rw [hs]
    exact ⟨rfl, ⟨splits_phase h.toSplits (.inr hne), h.open_, h.registered, fun hx => by cases hx⟩, rfl⟩
  · have hs : Link.step F limit .check s = s := by simp [Link.step, hphase]
    rw [hs]
    refine ⟨?_, h, rfl⟩
    cases hp : s.phase with
    | checking => exact absurd hp hphase
    | reading => rfl
    | stopped => exact absurd hp hne

theorem smooth_step {done pending : List (Message φ)} {rest : Bytes} (h : Smooth F limit s done pending rest)
    {e : Event φ} (he : e.Quiet) : ∃ done pending rest, Smooth F limit (Link.step F limit e s) done pending rest := by
  cases e with
  | send m =>
    refine ⟨_, _, _, splits_send h.toSplits m, h.open_, h.registered, fun hx => ?_⟩
    obtain ⟨m', l, hp, hlong⟩ := h.stuck hx
    exact ⟨m', l ++ [m], by rw [hp]; rfl, hlong⟩
  | arrive n => exact ⟨_, _, _, splits_arrive h.toSplits n, h.open_, h.registered, h.stuck⟩
  | hangUp => exact he.elim
  | remove => exact he.elim
  | check =>
    by_cases hne : s.phase = .stopped
    · have hs : Link.step F limit .check s = s := by simp [Link.step, hne]
      rw [hs]
      exact ⟨_, _, _, h⟩
    · exact ⟨_, _, _, (smooth_check h hne).2.1⟩
  | receive raises =>
    cases raises with
    | true => exact he.elim
    | false =>
      simp only [Link.step]
      by_cases hphase : s.phase = .reading
      · rcases smooth_receive h hphase with ⟨-, h', -⟩ | ⟨m, l, -, h'⟩ | ⟨-, h'⟩
        · exact ⟨_, _, _, h'⟩
        · exact ⟨_, _, _, h'⟩
        · exact ⟨_, _, _, h'⟩
      · rw [Link.receive, if_neg hphase]
        exact ⟨_, _, _, h⟩

/-- Turns of the loop. -/
def rounds (n : Nat) : List (Event φ) := (List.replicate n [Event.check, Event.receive false]).flatten

theorem run_rounds_succ (n : Nat) : run (Link.step F limit) (rounds (n + 1)) s =
    run (Link.step F limit) (rounds n) (Link.step F limit (.receive false) (Link.step F limit .check s)) := rfl

theorem run_rounds_stopped (hs : s.phase = .stopped) (n : Nat) : run (Link.step F limit) (rounds n) s = s := by
  induction n with
  | zero => rfl
  | succ n ih =>
    have hcheck : Link.step F limit .check s = s := by simp [Link.step, hs]
    have hreceive : Link.step F limit (.receive false) s = s := by simp [Link.step, Link.receive, hs]
    rw [run_rounds_succ, hcheck, hreceive, ih]

theorem smooth_stopped {done pending : List (Message φ)} {rest : Bytes} (h : Smooth F limit s done pending rest)
    (hs : s.phase = .stopped) : s.handled = handling ((done ++ pending).takeWhile (fits F limit)) := by
  obtain ⟨m, l, rfl, hlong⟩ := h.stuck hs
  rw [takeWhile_done h.fits, List.takeWhile_cons_of_neg (by simp [hlong]), List.append_nil, h.handled]

/-- Once everything has arrived, each turn takes a message. -/
theorem rounds_handle (n : Nat) : ∀ {s : Link φ} {done pending : List (Message φ)}, Smooth F limit s done pending [] →
    pending.length ≤ n →
    (run (Link.step F limit) (rounds n) s).handled = handling ((done ++ pending).takeWhile (fits F limit)) := by
  induction n with
  | zero =>
    intro s done pending h hn
    rw [List.length_eq_zero_iff.mp (Nat.le_zero.mp hn), takeWhile_done h.fits, List.takeWhile_nil, List.append_nil]
    exact h.handled
  | succ n ih =>
    intro s done pending h hn
    by_cases hstop : s.phase = .stopped
    · rw [run_rounds_stopped hstop]
      exact smooth_stopped h hstop
    obtain ⟨hread, hcheck, hbuffer⟩ := smooth_check h hstop
    rw [run_rounds_succ]
    rcases smooth_receive hcheck hread with ⟨-, h', hwaits⟩ | ⟨m, l, hp, h'⟩ | ⟨hs, h'⟩
    · cases pending with
      | nil => exact ih h' (Nat.zero_le n)
      | cons m l =>
        have hshort := (hwaits m l rfl).length_le
        have hahead := h.ahead hstop
        rw [List.append_nil, List.map_cons, Frames.stream_cons] at hahead
        rw [hbuffer, hahead, List.length_append, List.length_cons] at hshort
        omega
    · subst hp
      rw [List.append_cons]
      exact ih h' (Nat.le_of_succ_le_succ hn)
    · have hstopped : (Link.step F limit (.receive false) (Link.step F limit .check s)).phase = .stopped := hs
      rw [run_rounds_stopped hstopped]
      exact smooth_stopped h' hs

theorem smooth_run : ∀ {events : List (Event φ)} {s : Link φ}, (∀ e ∈ events, e.Quiet) →
    (∃ done pending rest, Smooth F limit s done pending rest) →
    ∃ done pending rest, Smooth F limit (run (Link.step F limit) events s) done pending rest := by
  intro events
  induction events with
  | nil => exact fun _ h => h
  | cons e events ih =>
    intro s hquiet h
    obtain ⟨done, pending, rest, h⟩ := h
    exact ih (fun x hx => hquiet x (List.mem_cons_of_mem _ hx)) (smooth_step h (hquiet e List.mem_cons_self))

/-- Nothing is lost or handled twice: after a run that nothing has disturbed, once the bytes that are on their way have
arrived, the loop hands on everything that was sent before the first message that is too long. -/
theorem handled_all (F : Floats φ) (limit : Nat) {events : List (Event φ)} (hquiet : ∀ e ∈ events, e.Quiet)
    {s : Link φ} (hs : s = run (Link.step F limit) events Link.fresh) {n : Nat} (hn : s.sent.length ≤ n) :
    (run (Link.step F limit) (.arrive s.flight.length :: rounds n) s).handled =
      handling (s.sent.takeWhile (fits F limit)) := by
  obtain ⟨done, pending, rest, h⟩ := smooth_run hquiet
    ⟨[], [], [], splits_fresh, rfl, rfl, fun hx => by cases hx⟩
  rw [← hs] at h
  change (run (Link.step F limit) (rounds n) (Link.step F limit (.arrive s.flight.length) s)).handled = _
  have harrive : Smooth F limit (Link.step F limit (.arrive s.flight.length) s) done pending
      (rest.drop s.flight.length) := by
    have := splits_arrive h.toSplits s.flight.length
    rw [h.open_, if_neg (by decide)] at this
    exact ⟨this, h.open_, h.registered, h.stuck⟩
  have hpending : pending.length ≤ n := by
    rw [h.sent, List.length_append] at hn
    omega
  rw [h.sent]
  by_cases hstop : s.phase = .stopped
  · have hstopped : (Link.step F limit (.arrive s.flight.length) s).phase = .stopped := hstop
    rw [run_rounds_stopped hstopped]
    exact smooth_stopped harrive hstopped
  · rw [h.flight hstop h.open_, List.drop_length] at harrive
    exact rounds_handle n harrive hpending

def half : Floats Unit where
  repr _ := ['0', '.', '5']
  read _ := ()
  reads := by
    intro x r hr
    have hdigits : scanDigits ('5' :: r) = ['5'] :=
      scanDigits_append (l := ['5']) (List.forall_mem_singleton.mpr rfl) hr.notDigit
    simp [scanNumber, signOf, scanInteger, scanFraction, hdigits, scanExponent_closed hr]
  plain := by
    intro x c hc
    simp only [List.mem_cons, List.not_mem_nil, or_false] at hc
    rcases hc with rfl | rfl | rfl <;> decide

def ping : Message Unit := { msgType := "ping", data := .null, distinct := trivial }

def note (text : String) : Message Unit := { msgType := "note", data := .str text, distinct := trivial }

/-- Three messages, of which the first is read in two pieces before the others are sent. -/
theorem handled_all_notes :
    let s := run (Link.step half 65536)
      [.send ping, .arrive 7, .check, .receive false, .arrive 100, .send (note "a"), .send ping] Link.fresh
    (run (Link.step half 65536) (.arrive s.flight.length :: rounds 3) s).handled =
      handling (s.sent.takeWhile (fits half 65536)) :=
  handled_all half 65536 (by simp [Event.Quiet]) rfl (Nat.le_of_eq (by rfl))

end AbsoluteChain.PeerConnection
