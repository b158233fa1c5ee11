import AbsoluteChain.BridgeLocks

/-!
# The queue of bridge proofs

`bridge/l1_rpc.py` keeps in one file the proofs that a relayer has to bring. The node
adds to it and the relayer takes from it, and each reads the whole file, changes it and
writes it back, so their loads and saves interleave.
-/

namespace AbsoluteChain

open Python Runs

structure OutboundProof where
  absTxHash : String
  l1TxHash : String
  chain : String
  queuedAt : Int
  deriving DecidableEq

structure IncomingProof where
  l1TxHash : String
  txId : String
  recipient : String
  amount : ℚ
  fromChain : String
  queuedAt : Int
  deriving DecidableEq

inductive ProofEntry where
  | outbound (e : OutboundProof)
  | incoming (e : IncomingProof)
  deriving DecidableEq

structure L1Queue where
  outbound : List OutboundProof
  incoming : List IncomingProof

namespace L1Queue

def empty : L1Queue := { outbound := [], incoming := [] }

def Holds (q : L1Queue) : ProofEntry → Prop
  | .outbound e => e ∈ q.outbound
  | .incoming e => e ∈ q.incoming

instance (q : L1Queue) (e : ProofEntry) : Decidable (q.Holds e) :=
  match e with
  | .outbound e => inferInstanceAs (Decidable (e ∈ q.outbound))
  | .incoming e => inferInstanceAs (Decidable (e ∈ q.incoming))

def entries (q : L1Queue) : List ProofEntry := q.outbound.map .outbound ++ q.incoming.map .incoming

theorem mem_entries {q : L1Queue} {e : ProofEntry} : e ∈ q.entries ↔ q.Holds e := by
  cases e <;> simp [entries, Holds]

end L1Queue

/-! ## The node's part -/

/-- `l[-n:]`. -/
def newest {α : Type} (n : Nat) (l : List α) : List α := l.drop (l.length - n)

inductive EnqueueRequest where
  | outbound (absTxHash l1TxHash chain : String) (now : Int)
  | incoming (l1TxHash recipient : String) (amount : ℚ) (fromChain txId : String) (now : Int)

def BridgeNode.entryOf (b : BridgeNode) : EnqueueRequest → Option ProofEntry
  | .outbound absTxHash l1TxHash chain now =>
    some (.outbound { absTxHash := absTxHash, l1TxHash := l1TxHash, chain := b.normalizeChain chain, queuedAt := now })
  | .incoming l1TxHash recipient amount fromChain txId now =>
    if l1TxHash = "" ∨ recipient = "" ∨ amount ≤ 0 then none
    else
      some (.incoming { l1TxHash := l1TxHash, txId := orElse txId l1TxHash, recipient := recipient, amount := amount,
                        fromChain := b.normalizeChain fromChain, queuedAt := now })

def L1Queue.add (q : L1Queue) : ProofEntry → L1Queue
  | .outbound e => { q with outbound := newest 500 ((q.outbound.filter fun x => x.absTxHash ≠ e.absTxHash) ++ [e]) }
  | .incoming e =>
    { q with incoming := newest 500 ((q.incoming.filter fun x => x.l1TxHash ≠ e.l1TxHash ∧ x.txId ≠ e.txId) ++ [e]) }

inductive WriterPhase where
  | load
  | save (loaded : L1Queue)
  | done

structure Writer where
  entry : ProofEntry
  phase : WriterPhase

/-! ## The relayer's part -/

structure RelayerWork where
  loaded : L1Queue
  todo : L1Queue
  remaining : L1Queue

inductive RelayerPhase where
  | idle
  | working (work : RelayerWork)

def ProofEntry.malformed : ProofEntry → Bool
  | .outbound e => e.l1TxHash = "" || e.absTxHash = ""
  | .incoming e => e.l1TxHash = "" || e.recipient = "" || e.amount ≤ 0

def L1Queue.keep (q : L1Queue) : ProofEntry → L1Queue
  | .outbound e => { q with outbound := q.outbound ++ [e] }
  | .incoming e => { q with incoming := q.incoming ++ [e] }

def L1Queue.next (q : L1Queue) : Option (ProofEntry × L1Queue) :=
  match q.outbound, q.incoming with
  | e :: rest, _ => some (.outbound e, { q with outbound := rest })
  | [], e :: rest => some (.incoming e, { q with incoming := rest })
  | [], [] => none

/-! ## The system -/

/-- `enqueued` are the entries whose calls have returned, and `confirmed` those for which an oracle
post has reported success. -/
structure QueueState where
  file : L1Queue
  writers : List Writer
  relayer : RelayerPhase
  enqueued : List ProofEntry
  confirmed : List ProofEntry

inductive QueueEvent where
  | call (request : EnqueueRequest)
  | write (writer : Nat)
  | relay (ready success : Bool)
  | relayerFails

structure QueueSystem where
  node : BridgeNode
  dryRun : Bool

namespace QueueSystem

variable (y : QueueSystem)

/-- The step of a call. -/
def write (i : Nat) (s : QueueState) : QueueState :=
  match s.writers[i]? with
  | some ⟨entry, .load⟩ => { s with writers := s.writers.set i ⟨entry, .save s.file⟩ }
  | some ⟨entry, .save loaded⟩ =>
    { s with file := loaded.add entry, writers := s.writers.set i ⟨entry, .done⟩, enqueued := s.enqueued ++ [entry] }
  | _ => s

/-- The step of the relayer: it loads, deals with one entry, or saves. `ready` is whether the other chain
has confirmed the entry, and `success` what the oracle answers. -/
def relay (ready success : Bool) (s : QueueState) : QueueState :=
  match s.relayer with
  | .idle =>
    if s.file.outbound = [] ∧ s.file.incoming = [] then s
    else { s with relayer := .working { loaded := s.file, todo := s.file, remaining := .empty } }
  | .working work =>
    match work.todo.next with
    | none => { s with file := if y.dryRun then s.file else work.remaining, relayer := .idle }
    | some (entry, rest) =>
      if entry.malformed || !ready then
        { s with relayer := .working { work with todo := rest, remaining := work.remaining.keep entry } }
      else if y.dryRun then { s with relayer := .working { work with todo := rest } }
      else if success then
        { s with relayer := .working { work with todo := rest }, confirmed := s.confirmed ++ [entry] }
      else { s with relayer := .working { work with todo := rest, remaining := work.remaining.keep entry } }

def step : QueueEvent → QueueState → QueueState
  | .call request, s =>
    match y.node.entryOf request with
    | some entry => { s with writers := s.writers ++ [⟨entry, .load⟩] }
    | none => s
  | .write i, s => write i s
  | .relay ready success, s => y.relay ready success s
  | .relayerFails, s => { s with relayer := .idle }

def start (q : L1Queue) : QueueState :=
  { file := q, writers := [], relayer := .idle, enqueued := q.entries, confirmed := [] }

def Kept (s : QueueState) : Prop := ∀ e ∈ s.enqueued, s.file.Holds e ∨ e ∈ s.confirmed

def StaysBeside (loaded : L1Queue) : ProofEntry → ProofEntry → Prop
  | .outbound e, .outbound x => x ∈ newest 499 (loaded.outbound.filter fun x => x.absTxHash ≠ e.absTxHash)
  | .incoming e, .incoming x =>
    x ∈ newest 499 (loaded.incoming.filter fun x => x.l1TxHash ≠ e.l1TxHash ∧ x.txId ≠ e.txId)
  | _, x => loaded.Holds x

def Careful : QueueEvent → QueueState → Prop
  | .write i, s => ∀ entry loaded, s.writers[i]? = some ⟨entry, .save loaded⟩ →
      ∀ x ∈ s.enqueued, x ∉ s.confirmed → x = entry ∨ StaysBeside loaded entry x
  | .relay _ _, s => ∀ work, s.relayer = .working work → work.todo.next = none → y.dryRun = false →
      ∀ x ∈ s.enqueued, x ∉ s.confirmed → work.loaded.Holds x
  | _, _ => True

/-! ## What the operations keep -/

variable {y} {q rest : L1Queue} {e x : ProofEntry} {s : QueueState} {ev : QueueEvent}

theorem newest_append {α : Type} (n : Nat) (l : List α) (a : α) : newest (n + 1) (l ++ [a]) = newest n l ++ [a] := by
  unfold newest
  rw [List.length_append, List.length_singleton, Nat.add_sub_add_right, List.drop_append_of_le_length (Nat.sub_le _ _)]

theorem holds_add : (q.add e).Holds x ↔ x = e ∨ StaysBeside q e x := by
  cases e with
  | outbound e =>
    cases x with
    | outbound x =>
      unfold L1Queue.add L1Queue.Holds StaysBeside
      dsimp only
      rw [newest_append, List.mem_append, List.mem_singleton, ProofEntry.outbound.injEq, or_comm]
    | incoming x => simp [L1Queue.add, L1Queue.Holds, StaysBeside]
  | incoming e =>
    cases x with
    | outbound x => simp [L1Queue.add, L1Queue.Holds, StaysBeside]
    | incoming x =>
      unfold L1Queue.add L1Queue.Holds StaysBeside
      dsimp only
      rw [newest_append, List.mem_append, List.mem_singleton, ProofEntry.incoming.injEq, or_comm]

theorem holds_keep : (q.keep e).Holds x ↔ q.Holds x ∨ x = e := by
  cases e <;> cases x <;> simp [L1Queue.keep, L1Queue.Holds]

theorem holds_next (h : q.next = some (e, rest)) : q.Holds x ↔ x = e ∨ rest.Holds x := by
  obtain ⟨out, inc⟩ := q
  cases out with
  | cons a out =>
    cases h
    cases x <;> simp [L1Queue.Holds]
  | nil =>
    cases inc with
    | nil => cases h
    | cons a inc =>
      cases h
      cases x <;> simp [L1Queue.Holds]

theorem not_holds_of_next (h : q.next = none) : ¬ q.Holds x := by
  obtain ⟨out, inc⟩ := q
  cases out with
  | cons a out => cases h
  | nil =>
    cases inc with
    | nil => cases x <;> exact List.not_mem_nil
    | cons a inc => cases h

structure Sorted (work : RelayerWork) (confirmed : List ProofEntry) : Prop where
  todo : ∀ x, work.todo.Holds x → work.loaded.Holds x
  remaining : ∀ x, work.remaining.Holds x → work.loaded.Holds x
  loaded : ∀ x, work.loaded.Holds x → work.todo.Holds x ∨ work.remaining.Holds x ∨ x ∈ confirmed

def Relaying (y : QueueSystem) (s : QueueState) : Prop :=
  ∀ work, s.relayer = .working work → y.dryRun = false → Sorted work s.confirmed

theorem sorted_load (q : L1Queue) (confirmed : List ProofEntry) :
    Sorted { loaded := q, todo := q, remaining := .empty } confirmed := by
  constructor
  · exact fun x h => h
  · intro x h
    cases x <;> exact absurd h List.not_mem_nil
  · exact fun x h => .inl h

variable {work : RelayerWork} {confirmed : List ProofEntry}

theorem Sorted.keep (h : Sorted work confirmed) (hn : work.todo.next = some (e, rest)) :
    Sorted { work with todo := rest, remaining := work.remaining.keep e } confirmed := by
  constructor
  · exact fun x hx => h.todo x ((holds_next hn).mpr (.inr hx))
  · intro x hx
    rcases holds_keep.mp hx with hx | rfl
    · exact h.remaining x hx
    · exact h.todo x ((holds_next hn).mpr (.inl rfl))
  · intro x hx
    rcases h.loaded x hx with hx | hx | hx
    · rcases (holds_next hn).mp hx with rfl | hx
      · exact .inr (.inl (holds_keep.mpr (.inr rfl)))
      · exact .inl hx
    · exact .inr (.inl (holds_keep.mpr (.inl hx)))
    · exact .inr (.inr hx)

theorem Sorted.confirm (h : Sorted work confirmed) (hn : work.todo.next = some (e, rest)) :
    Sorted { work with todo := rest } (confirmed ++ [e]) := by
  constructor
  · exact fun x hx => h.todo x ((holds_next hn).mpr (.inr hx))
  · exact h.remaining
  · intro x hx
    rcases h.loaded x hx with hx | hx | hx
    · rcases (holds_next hn).mp hx with rfl | hx
      · exact .inr (.inr (List.mem_append_right _ List.mem_cons_self))
      · exact .inl hx
    · exact .inr (.inl hx)
    · exact .inr (.inr (List.mem_append_left _ hx))

/-! ## The step -/

theorem relaying_relay (ready success : Bool) (hs : Relaying y s) : Relaying y (y.relay ready success s) := by
  unfold relay
  cases hr : s.relayer with
  | idle =>
    dsimp only
    split
    · exact hs
    · intro work hwork _
      cases hwork
      exact sorted_load s.file s.confirmed
  | working work =>
    dsimp only
    cases hn : work.todo.next with
    | none => exact fun work' hwork => by cases hwork
    | some next =>
      obtain ⟨e, rest⟩ := next
      dsimp only
      split
      · intro work' hwork hdry
        cases hwork
        exact (hs work hr hdry).keep hn
      · split
        · rename_i hdry
          intro work' _ hdry'
          rw [hdry] at hdry'
          cases hdry'
        · split
          · intro work' hwork hdry
            cases hwork
            exact (hs work hr hdry).confirm hn
          · intro work' hwork hdry
            cases hwork
            exact (hs work hr hdry).keep hn

theorem relayer_write (i : Nat) (s : QueueState) :
    (write i s).relayer = s.relayer ∧ (write i s).confirmed = s.confirmed := by
  unfold write
  split <;> exact ⟨rfl, rfl⟩

theorem relaying_step (hs : Relaying y s) : Relaying y (y.step ev s) := by
  cases ev with
  | call request =>
    unfold step
    dsimp only
    cases y.node.entryOf request <;> exact hs
  | write i =>
    intro work hwork hdry
    obtain ⟨hr, hc⟩ := relayer_write i s
    change (write i s).relayer = _ at hwork
    change Sorted work (write i s).confirmed
    rw [hr] at hwork
    rw [hc]
    exact hs work hwork hdry
  | relay ready success => exact relaying_relay ready success hs
  | relayerFails => exact fun work hwork => by cases hwork

theorem kept_write (i : Nat) (hs : Kept s) : Kept (write i s) ↔ Careful y (.write i) s := by
  unfold write Careful
  dsimp only
  split
  · rename_i entry hi
    refine iff_of_true hs fun entry' loaded h => ?_
    rw [hi] at h
    cases h
  · rename_i entry loaded hi
    constructor
    · intro h entry' loaded' hi' x hx hnot
      rw [hi] at hi'
      cases hi'
      exact holds_add.mp ((h x (List.mem_append_left _ hx)).resolve_right hnot)
    · intro h x hx
      rcases List.mem_append.mp hx with hx | hx
      · by_cases hc : x ∈ s.confirmed
        · exact .inr hc
        · exact .inl (holds_add.mpr (h entry loaded hi x hx hc))
      · rw [List.mem_singleton] at hx
        exact .inl (holds_add.mpr (.inl hx))
  · rename_i hload hsave
    exact iff_of_true hs fun entry loaded h => absurd h (hsave entry loaded)

theorem kept_relay (ready success : Bool) (hr : Relaying y s) (hs : Kept s) :
    Kept (y.relay ready success s) ↔ Careful y (.relay ready success) s := by
  unfold relay Careful
  cases hrelayer : s.relayer with
  | idle =>
    dsimp only
    refine iff_of_true ?_ fun work h => by rw [hrelayer] at h; cases h
    split <;> exact hs
  | working work =>
    dsimp only
    cases hn : work.todo.next with
    | none =>
      dsimp only
      cases hdry : y.dryRun with
      | true => exact iff_of_true hs fun work' _ _ h => by cases h
      | false =>
        have hsorted := hr work hrelayer hdry
        constructor
        · intro h work' hwork _ _ x hx hnot
          rw [hrelayer] at hwork
          cases hwork
          exact hsorted.remaining x ((h x hx).resolve_right hnot)
        · intro h x hx
          by_cases hc : x ∈ s.confirmed
          · exact .inr hc
          · rcases hsorted.loaded x (h work hrelayer hn rfl x hx hc) with hx | hx | hx
            · exact absurd hx (not_holds_of_next hn)
            · exact .inl hx
            · exact .inr hx
    | some next =>
      obtain ⟨e, rest⟩ := next
      refine iff_of_true ?_ fun work' hwork hnone => by
        rw [hrelayer] at hwork
        cases hwork
        rw [hn] at hnone
        cases hnone
      dsimp only
      split
      · exact hs
      · split
        · exact hs
        · split
          · intro x hx
            rcases hs x hx with h | h
            · exact .inl h
            · exact .inr (List.mem_append_left _ h)
          · exact hs

theorem kept_step (hr : Relaying y s) (hs : Kept s) : Kept (y.step ev s) ↔ Careful y ev s := by
  cases ev with
  | call request =>
    refine iff_of_true ?_ trivial
    unfold step
    dsimp only
    cases y.node.entryOf request <;> exact hs
  | write i => exact kept_write i hs
  | relay ready success => exact kept_relay ready success hr hs
  | relayerFails => exact iff_of_true hs trivial

/-- In a run every entry stays in the file until it is confirmed exactly when each save finds the file as it was
loaded, but for what is confirmed, and drops nothing else. -/
theorem proofs_kept (y : QueueSystem) (q : L1Queue) (events : List QueueEvent) :
    Always y.step Kept events (start q) ↔ Along y.step (Careful y) events (start q) := by
  have hkept : Kept (start q) := fun e he => .inl (L1Queue.mem_entries.mp he)
  have hrelaying : Relaying y (start q) := fun work h => by cases h
  refine always_iff_along_of (I := fun s => Relaying y s ∧ Kept s) (fun _ h => h.2) ?_ ?_ ⟨hrelaying, hkept⟩
  · intro ev s h hcareful
    exact ⟨relaying_step h.1, (kept_step h.1 h.2).mpr hcareful⟩
  · intro ev s h hnext
    exact (kept_step h.1 h.2).mp hnext

/-! ## Two calls at a time -/

def sampleQueue : QueueSystem := { node := BridgeNode.sampleNode, dryRun := false }

/-- Two locks are queued, and both calls load the file before either saves it. -/
theorem proof_lost : ¬ ∀ (y : QueueSystem) (q : L1Queue) (events : List QueueEvent), Always y.step Kept events (start q) := by
  intro h
  have hlast := (h sampleQueue .empty
    [.call (.outbound "0xlock1" "0xproof1" "eth" 0), .call (.outbound "0xlock2" "0xproof2" "eth" 0),
      .write 0, .write 1, .write 0, .write 1]).last
  have hfirst := hlast (.outbound { absTxHash := "0xlock1", l1TxHash := "0xproof1", chain := "ethereum", queuedAt := 0 })
  revert hfirst
  decide +kernel

end QueueSystem

end AbsoluteChain
