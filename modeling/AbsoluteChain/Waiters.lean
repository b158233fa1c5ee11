import AbsoluteChain.Runs
import AbsoluteChain.Table
import Mathlib.Data.String.Basic

/-!
# Waiting for the response of a peer

`_wait_peer_response` leaves the types it expects and a future under the id of the peer,
and `_handle_message` hands an arriving message to whoever is registered there. There is
one place for each peer, and every request that ends clears it.
-/

namespace AbsoluteChain

open KeyedTable Runs

inductive MsgType where
  | handshake | handshakeAck | ping | pong | idle | newBlock | getBlock | getBlockByHash | block | getBlocks | blocks
  | newTx | getMempool | mempool | getPeers | peers | status | attestation | stateRootRequest | stateRootResponse
  | validatorRegister
  | other (type : String)
  deriving DecidableEq

structure Message (δ : Type) where
  type : MsgType
  data : δ
  deriving DecidableEq

inductive Future (δ : Type) where
  | pending
  | result (m : Message δ)
  | cancelled
  deriving DecidableEq

def Future.isPending {δ : Type} : Future δ → Bool
  | .pending => true
  | _ => false

/-- A coroutine inside `_wait_peer_response`. `sent` says that `presend` has returned. -/
structure WaitCall (δ : Type) where
  peerId : String
  expectedTypes : List MsgType
  fut : Future δ
  sent : Bool
  ended : Bool

structure PeerWaiters (δ : Type) where
  syncWaiters : Table String (List MsgType × ℕ)
  calls : List (WaitCall δ)

/-- What happens on the event loop. A message comes with the call whose request the peer answers,
which the code does not see. -/
inductive WaiterEvent (δ : Type) where
  | request (peerId : String) (expectedTypes : List MsgType)
  | sent (i : ℕ)
  | message (peerId : String) (m : Message δ) (answers : Option ℕ)
  | timeout (i : ℕ)
  | finish (i : ℕ)
  | interrupt (i : ℕ)

namespace PeerWaiters

variable {δ : Type}

def empty : PeerWaiters δ := { syncWaiters := .empty, calls := [] }

variable (s : PeerWaiters δ)

def setCall (i : ℕ) (call : WaitCall δ) : PeerWaiters δ := { s with calls := s.calls.set i call }

def pop (peerId : String) : PeerWaiters δ := { s with syncWaiters := s.syncWaiters.keep fun p _ => p ≠ peerId }

def request (peerId : String) (expectedTypes : List MsgType) : PeerWaiters δ where
  syncWaiters := s.syncWaiters.put peerId (expectedTypes, s.calls.length)
  calls := s.calls ++ [{ peerId, expectedTypes, fut := .pending, sent := false, ended := false }]

def handleMessage (peerId : String) (m : Message δ) : Bool × PeerWaiters δ :=
  match s.syncWaiters.get? peerId with
  | none => (false, s)
  | some (types, i) =>
    match s.calls[i]? with
    | none => (false, s)
    | some call =>
      match call.fut with
      | .pending => if m.type ∈ types then (true, s.setCall i { call with fut := .result m }) else (false, s)
      | _ => (false, s)

def onCall (i : ℕ) (ready : WaitCall δ → Bool) (f : WaitCall δ → PeerWaiters δ) : PeerWaiters δ :=
  match s.calls[i]? with
  | none => s
  | some call => if ready call then f call else s

/-- `wait_for` gives up: it cancels the future, and the call goes on in a later step. -/
def timeout (i : ℕ) : PeerWaiters δ :=
  s.onCall i (fun call => call.sent && !call.ended && call.fut.isPending) fun call =>
    s.setCall i { call with fut := .cancelled }

/-- The call finds its future done and returns; the `finally` clears the place of the peer. -/
def finish (i : ℕ) : PeerWaiters δ :=
  s.onCall i (fun call => call.sent && !call.ended && !call.fut.isPending) fun call =>
    (s.setCall i { call with ended := true }).pop call.peerId

def interrupt (i : ℕ) : PeerWaiters δ :=
  s.onCall i (fun call => !call.ended) fun call =>
    (s.setCall i { call with ended := true, fut := if call.fut.isPending then .cancelled else call.fut }).pop call.peerId

def step : WaiterEvent δ → PeerWaiters δ → PeerWaiters δ
  | .request peerId types, s => s.request peerId types
  | .sent i, s => s.onCall i (fun call => !call.ended) fun call => s.setCall i { call with sent := true }
  | .message peerId m _, s => (s.handleMessage peerId m).2
  | .timeout i, s => s.timeout i
  | .finish i, s => s.finish i
  | .interrupt i, s => s.interrupt i

/-! ## What a request is promised -/

def Waits (i : ℕ) (peerId : String) (type : MsgType) : Prop :=
  ∃ call, s.calls[i]? = some call ∧ call.peerId = peerId ∧ call.fut = .pending ∧ type ∈ call.expectedTypes

def Resolved (i : ℕ) (m : Message δ) : Prop := ∃ call, s.calls[i]? = some call ∧ call.fut = .result m

def Registered : Prop := ∀ i call, s.calls[i]? = some call → call.fut = .pending →
  s.syncWaiters.get? call.peerId = some (call.expectedTypes, i)

/-- The step matches responses and requests: a message of an awaited type resolves a call that waits for
it, the response to a waiting call resolves that call, no call takes the response to another one, and
every call that is still waiting keeps its waiter. -/
structure Matched (e : WaiterEvent δ) (s : PeerWaiters δ) : Prop where
  awaited : ∀ p m re, e = .message p m re → (∃ i, s.Waits i p m.type) → ∃ i, s.Waits i p m.type ∧ (step e s).Resolved i m
  answered : ∀ p m i, e = .message p m (some i) → s.Waits i p m.type → (step e s).Resolved i m
  own : ∀ p m re i, e = .message p m re → s.Waits i p m.type → (step e s).Resolved i m → re = some i
  kept : (step e s).Registered

def Alone (peerId : String) (but : Option ℕ) : Prop :=
  ∀ j call, s.calls[j]? = some call → call.peerId = peerId → some j ≠ but → call.fut ≠ .pending

def Orderly : WaiterEvent δ → PeerWaiters δ → Prop
  | .request peerId _, s => s.Alone peerId none
  | .message peerId m answers, s => ∀ i, s.Waits i peerId m.type → answers = some i
  | .finish i, s => ∀ call, s.calls[i]? = some call → call.sent && !call.ended && !call.fut.isPending →
      s.Alone call.peerId (some i)
  | .interrupt i, s => ∀ call, s.calls[i]? = some call → !call.ended → s.Alone call.peerId (some i)
  | _, _ => True

/-! ## Steps -/

def Named : Prop := ∀ p types i, s.syncWaiters.get? p = some (types, i) →
  ∃ call, s.calls[i]? = some call ∧ call.peerId = p ∧ call.expectedTypes = types

variable {s} {i j : ℕ} {call other : WaitCall δ} {p : String} {m : Message δ}

theorem getElem_setCall (h : s.calls[i]? = some call) :
    (s.setCall i other).calls[j]? = if i = j then some other else s.calls[j]? := by
  have hlt : i < s.calls.length := (List.getElem?_eq_some_iff.mp h).1
  unfold setCall
  rw [List.getElem?_set]
  by_cases hij : i = j
  · rw [if_pos hij, if_pos hij, if_pos hlt]
  · rw [if_neg hij, if_neg hij]

theorem get_pop (q : String) : (s.pop p).syncWaiters.get? q = if q = p then none else s.syncWaiters.get? q := by
  unfold pop
  rw [Table.get_keep]
  by_cases h : q = p
  · rw [if_pos h]
    simp [h]
  · rw [if_neg h]
    simp only [ne_eq, h, not_false_eq_true, decide_true]
    cases s.syncWaiters.get? q with
    | none => rfl
    | some entry => rfl

theorem named_setCall (hn : s.Named) (h : s.calls[i]? = some call) (hpeer : other.peerId = call.peerId)
    (htypes : other.expectedTypes = call.expectedTypes) : (s.setCall i other).Named := by
  intro p types k hk
  obtain ⟨c, hc, hp, ht⟩ := hn p types k hk
  rw [getElem_setCall h]
  by_cases hik : i = k
  · subst hik
    obtain rfl := Option.some.inj (h.symm.trans hc)
    exact ⟨other, if_pos rfl, hpeer.trans hp, htypes.trans ht⟩
  · exact ⟨c, (if_neg hik).trans hc, hp, ht⟩

theorem named_pop (hn : s.Named) : (s.pop p).Named := by
  intro q types k hk
  rw [get_pop] at hk
  by_cases hq : q = p
  · rw [if_pos hq] at hk
    cases hk
  · rw [if_neg hq] at hk
    exact hn q types k hk

theorem named_request (hn : s.Named) (types : List MsgType) : (s.request p types).Named := by
  intro q ts k hk
  have hget : (s.request p types).syncWaiters.get? q = if q = p then some (types, s.calls.length) else s.syncWaiters.get? q :=
    Table.get_put _ _ _ _
  rw [hget] at hk
  by_cases hq : q = p
  · rw [if_pos hq] at hk
    cases hk
    exact ⟨_, List.getElem?_concat_length, hq.symm, rfl⟩
  · rw [if_neg hq] at hk
    obtain ⟨c, hc, hrest⟩ := hn q ts k hk
    have hlt : k < s.calls.length := (List.getElem?_eq_some_iff.mp hc).1
    exact ⟨c, (List.getElem?_append_left hlt).trans hc, hrest⟩

theorem registered_setCall (h : s.calls[i]? = some call) (hfut : other.fut ≠ .pending) (hr : s.Registered) :
    (s.setCall i other).Registered := by
  intro k c hc hpending
  rw [getElem_setCall h] at hc
  by_cases hik : i = k
  · rw [if_pos hik] at hc
    cases hc
    exact absurd hpending hfut
  · rw [if_neg hik] at hc
    exact hr k c hc hpending

/-- Clearing the place of a peer hurts the other calls that wait for it, and no one else. -/
theorem registered_ended (h : s.calls[i]? = some call) (hfut : other.fut ≠ .pending) (hr : s.Registered) :
    ((s.setCall i other).pop p).Registered ↔ s.Alone p (some i) := by
  constructor
  · intro hnew j c hc hp hne hpending
    have hij : i ≠ j := fun hij => hne (congrArg some hij.symm)
    have hreg := hnew j c ((getElem_setCall h).trans ((if_neg hij).trans hc)) hpending
    rw [get_pop, if_pos hp] at hreg
    cases hreg
  · intro halone k c hc hpending
    have hset := registered_setCall h hfut hr k c hc hpending
    have hck : (s.setCall i other).calls[k]? = some c := hc
    rw [getElem_setCall h] at hck
    rw [get_pop, if_neg]
    · exact hset
    · intro hp
      by_cases hik : i = k
      · rw [if_pos hik] at hck
        cases hck
        exact hfut hpending
      · rw [if_neg hik] at hck
        exact halone k c hck hp (fun hk => hik (Option.some.inj hk).symm) hpending

theorem registered_request (hr : s.Registered) (types : List MsgType) :
    (s.request p types).Registered ↔ s.Alone p none := by
  have hget : ∀ q, (s.request p types).syncWaiters.get? q =
      if q = p then some (types, s.calls.length) else s.syncWaiters.get? q := fun q => Table.get_put _ _ _ _
  constructor
  · intro hnew j c hc hp _ hpending
    have hlt : j < s.calls.length := (List.getElem?_eq_some_iff.mp hc).1
    have hreg := hnew j c ((List.getElem?_append_left hlt).trans hc) hpending
    rw [hget, if_pos hp] at hreg
    cases hreg
    exact lt_irrefl _ hlt
  · intro halone k c hc hpending
    rw [hget]
    have hc' : (s.calls ++ [_])[k]? = some c := hc
    rcases Nat.lt_or_ge k s.calls.length with hlt | hge
    · rw [List.getElem?_append_left hlt] at hc'
      rw [if_neg fun hp => halone k c hc' hp (by simp) hpending]
      exact hr k c hc' hpending
    · rw [List.getElem?_append_right hge] at hc'
      obtain ⟨hk, rfl⟩ := List.getElem?_eq_some_iff.mp hc'
      have hzero : k = s.calls.length := by
        simp only [List.length_singleton] at hk
        omega
      subst hzero
      simp

theorem handleMessage_waits (hr : s.Registered) (h : s.calls[i]? = some call) (hfut : call.fut = .pending)
    (hp : call.peerId = p) (ht : m.type ∈ call.expectedTypes) :
    s.handleMessage p m = (true, s.setCall i { call with fut := .result m }) := by
  unfold handleMessage
  rw [← hp, hr i call h hfut]
  simp only [h, hfut, if_pos ht]

/-- A message that resolves nobody changes nothing. -/
theorem handleMessage_cases (hn : s.Named) (p : String) (m : Message δ) :
    (∃ i, s.Waits i p m.type) ∨ s.handleMessage p m = (false, s) := by
  unfold handleMessage
  cases hget : s.syncWaiters.get? p with
  | none => exact .inr rfl
  | some entry =>
    obtain ⟨types, i⟩ := entry
    obtain ⟨c, hc, hp, ht⟩ := hn p types i hget
    simp only [hc]
    cases hfut : c.fut with
    | pending =>
      by_cases hmem : m.type ∈ types
      · exact .inl ⟨i, c, hc, hp, hfut, ht.symm ▸ hmem⟩
      · exact .inr (if_neg hmem)
    | result _ => exact .inr rfl
    | cancelled => exact .inr rfl

theorem named_onCall (hn : s.Named) {ready : WaitCall δ → Bool} {f : WaitCall δ → PeerWaiters δ}
    (hf : ∀ call, s.calls[i]? = some call → (f call).Named) : (s.onCall i ready f).Named := by
  unfold onCall
  cases h : s.calls[i]? with
  | none => exact hn
  | some call =>
    by_cases hready : ready call = true
    · simp only [if_pos hready]
      exact hf call h
    · simp only [if_neg hready]
      exact hn

theorem named_step (e : WaiterEvent δ) (hn : s.Named) : (step e s).Named := by
  cases e with
  | request p types => exact named_request hn types
  | sent i => exact named_onCall hn fun call h => named_setCall hn h rfl rfl
  | message p m re =>
    show (s.handleMessage p m).2.Named
    unfold handleMessage
    cases hget : s.syncWaiters.get? p with
    | none => exact hn
    | some entry =>
      obtain ⟨c, hc, -, -⟩ := hn p entry.1 entry.2 hget
      simp only [hc]
      cases c.fut with
      | pending =>
        by_cases hmem : m.type ∈ entry.1
        · rw [if_pos hmem]
          exact named_setCall hn hc rfl rfl
        · rw [if_neg hmem]
          exact hn
      | result _ => exact hn
      | cancelled => exact hn
  | timeout i => exact named_onCall hn fun call h => named_setCall hn h rfl rfl
  | finish i => exact named_onCall hn fun call h => named_pop (named_setCall hn h rfl rfl)
  | interrupt i => exact named_onCall hn fun call h => named_pop (named_setCall hn h rfl rfl)

theorem registered_onCall (hr : s.Registered) {ready : WaitCall δ → Bool} {f : WaitCall δ → PeerWaiters δ}
    {Q : WaitCall δ → Prop} (hf : ∀ call, s.calls[i]? = some call → ready call = true → ((f call).Registered ↔ Q call)) :
    (s.onCall i ready f).Registered ↔ ∀ call, s.calls[i]? = some call → ready call = true → Q call := by
  unfold onCall
  cases h : s.calls[i]? with
  | none => exact iff_of_true hr fun call hc => by cases hc
  | some c =>
    by_cases hready : ready c = true
    · simp only [if_pos hready]
      refine (hf c h hready).trans ⟨fun hq call hc _ => Option.some.inj hc ▸ hq, fun hall => hall c rfl hready⟩
    · simp only [if_neg hready]
      exact iff_of_true hr fun call hc hyes => absurd (Option.some.inj hc ▸ hyes) hready

theorem registered_step {e : WaiterEvent δ} (hr : s.Registered) (he : ∀ p m re, e ≠ .message p m re) :
    (step e s).Registered ↔ Orderly e s := by
  cases e with
  | request p types => exact registered_request hr types
  | sent i =>
    refine (registered_onCall (Q := fun _ => True) hr fun call h _ => iff_of_true ?_ trivial).trans
      (iff_of_true (fun _ _ _ => trivial) trivial)
    intro k c hc hpending
    rw [getElem_setCall h] at hc
    by_cases hik : i = k
    · subst hik
      rw [if_pos rfl] at hc
      cases hc
      exact hr i call h hpending
    · rw [if_neg hik] at hc
      exact hr k c hc hpending
  | message p m re => exact absurd rfl (he p m re)
  | timeout i =>
    exact (registered_onCall (Q := fun _ => True) hr fun call h _ =>
      iff_of_true (registered_setCall h (by simp) hr) trivial).trans (iff_of_true (fun _ _ _ => trivial) trivial)
  | finish i =>
    refine registered_onCall hr fun call h hready => registered_ended h ?_ hr
    intro hpending
    have hfut : call.fut = .pending := hpending
    rw [hfut] at hready
    simp only [Future.isPending, Bool.not_true, Bool.and_false, Bool.false_eq_true] at hready
  | interrupt _ =>
    refine registered_onCall hr fun call h _ => registered_ended h ?_ hr
    cases hfut : call.fut with
    | pending => simp [Future.isPending]
    | result m => simp [Future.isPending]
    | cancelled => simp [Future.isPending]

/-- Nothing but a message resolves a call. -/
theorem matched_silent {e : WaiterEvent δ} (he : ∀ p m re, e ≠ .message p m re) : Matched e s ↔ (step e s).Registered :=
  ⟨Matched.kept, fun h =>
    { awaited := fun p m re heq => absurd heq (he p m re)
      answered := fun p m i heq => absurd heq (he p m (some i))
      own := fun p m re _ heq => absurd heq (he p m re)
      kept := h }⟩

theorem matched_message (hn : s.Named) (hr : s.Registered) (re : Option ℕ) :
    Matched (.message p m re) s ↔ Orderly (.message p m re) s := by
  have hresolves : ∀ i, s.Waits i p m.type → (step (.message p m re) s).Resolved i m := by
    rintro i ⟨c, hc, hp, hfut, ht⟩
    show (s.handleMessage p m).2.Resolved i m
    rw [handleMessage_waits hr hc hfut hp ht]
    exact ⟨_, (getElem_setCall hc).trans (if_pos rfl), rfl⟩
  constructor
  · intro h i hi
    exact h.own p m re i rfl hi (hresolves i hi)
  · intro h
    refine { awaited := ?_, answered := ?_, own := ?_, kept := ?_ }
    · rintro _ _ _ ⟨⟩ ⟨i, hi⟩
      exact ⟨i, hi, hresolves i hi⟩
    · rintro _ _ i ⟨⟩ hi
      exact hresolves i hi
    · rintro _ _ _ i ⟨⟩ hi _
      exact h i hi
    · show (s.handleMessage p m).2.Registered
      rcases handleMessage_cases hn p m with ⟨i, c, hc, hp, hfut, ht⟩ | hsame
      · rw [handleMessage_waits hr hc hfut hp ht]
        exact registered_setCall hc (by simp) hr
      · rw [hsame]
        exact hr

theorem matched_step (hn : s.Named) (hr : s.Registered) (e : WaiterEvent δ) : Matched e s ↔ Orderly e s := by
  cases e with
  | message p m re => exact matched_message hn hr re
  | _ => exact (matched_silent (by simp)).trans (registered_step hr (by simp))

/-- Requests and responses match along a run exactly when a request to a peer is sent, and ends, while no
other waits for that peer, and what a waiting call takes is the answer to it. -/
theorem responses_matched (events : List (WaiterEvent δ)) :
    Along step Matched events empty ↔ Along step Orderly events empty := by
  have hrun : ∀ (events : List (WaiterEvent δ)) (s : PeerWaiters δ), s.Named → s.Registered →
      (Along step Matched events s ↔ Along step Orderly events s) := by
    intro events
    induction events with
    | nil => exact fun _ _ _ => Iff.rfl
    | cons e rest ih =>
      intro s hn hr
      have he := matched_step hn hr e
      constructor
      · rintro ⟨hm, hrest⟩
        exact ⟨he.mp hm, (ih _ (named_step e hn) hm.kept).mp hrest⟩
      · rintro ⟨ho, hrest⟩
        exact ⟨he.mpr ho, (ih _ (named_step e hn) (he.mpr ho).kept).mpr hrest⟩
  refine hrun events empty ?_ ?_
  · intro p types i h
    cases h
  · intro i call h
    cases h

/-- While the node waits for blocks of a peer it asks the same peer for its pending transactions; both
answers arrive in time. -/
def overlapping : List (WaiterEvent Unit) :=
  [.request "p" [.blocks], .sent 0, .request "p" [.mempool], .sent 1, .message "p" ⟨.blocks, ()⟩ (some 0), .timeout 0,
    .finish 0, .message "p" ⟨.mempool, ()⟩ (some 1), .timeout 1, .finish 1]

/-- Both are lost, and both calls end without a response. -/
theorem overlapping_lose_responses : ¬ Along step Matched overlapping empty ∧
    (run step overlapping empty).calls.map WaitCall.fut = [.cancelled, .cancelled] := by
  refine ⟨fun h => ?_, rfl⟩
  have hkept := h.2.2.1.kept
  have hreg := hkept 0 _ rfl rfl
  cases hreg

end PeerWaiters

end AbsoluteChain
