import AbsoluteChain.Python
import AbsoluteChain.Runs

/-!
# The registry of peers

`P2PNode.peers` of `network/p2p_node.py`. Handshakes, message loops, the ping loop and the pruning of stale peers are
coroutines on one event loop; an event is what one of them does between two of its `await`s. However they interleave,
a connection that is open is registered under its own id or has not got through its handshake.
-/

namespace AbsoluteChain.PeerRegistry

open Python Runs

/-! ## The model -/

/-- Where the coroutine of a connection stands. A refused connection is told so before it is closed, and a handshake
that raises leaves its connection as it is. -/
inductive Phase where
  | absent
  | refused
  | greeting
  | introduced
  | abandoned
  | checking
  | receiving
  | handling
  | ended
  deriving DecidableEq

def Phase.looping : Phase → Bool
  | .checking | .receiving | .handling => true
  | _ => false

/-- A connection that is not yet, or never, up for registration. -/
def Phase.early : Phase → Bool
  | .absent | .refused | .greeting | .introduced | .abandoned => true
  | _ => false

theorem Phase.early_of_looping {p : Phase} (h : p.looping = true) : p.early = false := by
  cases p with
  | checking | receiving | handling => rfl
  | absent | refused | greeting | introduced | abandoned | ended => cases h

structure PeerConnection where
  peerId : String
  incoming : Bool
  host : String
  port : Int
  listenPort : Int
  lastSeen : ℚ
  phase : Phase
  closed : Bool

/-- A round of `_ping_loop`: its time, the peers it has still to look at, and the ids of those it has found dead. -/
structure Round where
  now : ℚ
  queue : List (String × Nat)
  dead : List String

structure Config where
  maxPeers : Nat
  p2pPort : Int
  peerTimeout : ℚ

structure Node where
  conns : Nat → PeerConnection
  peers : Dict String Nat
  dials : List (String × Int)
  running : Bool
  ping : Option Round

/-- What `recv` returns. -/
inductive Received where
  | nothing
  | idle
  | message (now : ℚ)

inductive Event where
  | accept (c : Nat) (host : String) (port : Int) (now : ℚ)
  | dismiss (c : Nat)
  | dial (host : String) (port : Int) (now : ℚ)
  | opened (c : Nat) (host : String) (port : Int) (now : ℚ)
  | unreachable (host : String) (port : Int)
  | rejected (c : Nat)
  | handshakeRaised (c : Nat)
  | introduced (c : Nat) (peerId : String) (listenPort : Int)
  | register (c : Nat) (now : ℚ)
  | check (c : Nat)
  | received (c : Nat) (r : Received)
  | handled (c : Nat)
  | loopRaised (c : Nat)
  | prune (now : ℚ)
  | pingStart (now : ℚ)
  | pingNext
  | pingEnd
  | stop

def blank : PeerConnection :=
  { peerId := "", incoming := false, host := "?", port := 0, listenPort := 0, lastSeen := 0, phase := .absent,
    closed := false }

def Node.start : Node := { conns := fun _ => blank, peers := [], dials := [], running := true, ping := none }

namespace Node

def setConn (c : Nat) (p : PeerConnection) (s : Node) : Node := { s with conns := Function.update s.conns c p }

def setPhase (c : Nat) (phase : Phase) (s : Node) : Node := s.setConn c { s.conns c with phase := phase }

def close (c : Nat) (s : Node) : Node := s.setConn c { s.conns c with closed := true }

def removePeer (peerId : String) (expected : Option Nat) (s : Node) : Node :=
  if expected ≠ none ∧ s.peers.get? peerId ≠ expected then s
  else
    match s.peers.get? peerId with
    | none => s
    | some c => { s.close c with peers := s.peers.erase peerId }

def leave (c : Nat) (s : Node) : Node := (s.removePeer (s.conns c).peerId (some c)).setPhase c .ended

/-- A connection that does not come to be registered. -/
def drop (c : Nat) (s : Node) : Node := s.setConn c { s.conns c with phase := .ended, closed := true }

variable (cfg : Config)

def timeout : ℚ := if cfg.peerTimeout = 0 then 30 else cfg.peerTimeout

def staleAfter : ℚ := max 15 (timeout cfg)

def maxAge : ℚ := max 30 (timeout cfg * 2)

def pruneOne (now : ℚ) (s : Node) (e : String × Nat) : Node :=
  if now - (s.conns e.2).lastSeen > maxAge cfg then s.removePeer e.1 (some e.2) else s

def pruneStale (now : ℚ) (s : Node) : Node := s.peers.foldl (pruneOne cfg now) s

def dial (host : String) (port : Int) (now : ℚ) (s : Node) : Node :=
  if port = cfg.p2pPort ∧ host ∈ ["127.0.0.1", "localhost", "0.0.0.0"] then s
  else
    let s := s.pruneStale cfg now
    if s.peers.any fun e =>
        (s.conns e.2).host = host && ((s.conns e.2).port = port || (s.conns e.2).listenPort = port) then s
    else { s with dials := s.dials ++ [(host, port)] }

def register (c : Nat) (now : ℚ) (s : Node) : Node :=
  match s.peers.get? (s.conns c).peerId with
  | none => { s.setPhase c .checking with peers := s.peers.set (s.conns c).peerId c }
  | some old =>
    if (s.conns c).incoming then
      if now - (s.conns old).lastSeen ≤ staleAfter cfg then s.drop c
      else { (s.close old).setPhase c .checking with peers := s.peers.set (s.conns c).peerId c }
    else s.drop c

/-- The condition of the loop in `_message_loop`. -/
def check (c : Nat) (s : Node) : Node :=
  if s.running ∧ s.peers.get? (s.conns c).peerId = some c then s.setPhase c .receiving else s.leave c

def received (c : Nat) (s : Node) : Received → Node
  | .nothing => s.leave c
  | .idle => s.setPhase c .checking
  | .message now => s.setConn c { s.conns c with lastSeen := now, phase := .handling }

def pingNext (s : Node) : Node :=
  match s.ping with
  | some { now, queue := (id, c) :: queue, dead } =>
    let dead := if now - (s.conns c).lastSeen > cfg.peerTimeout * 2 then dead ++ [id] else dead
    { s with ping := some { now, queue, dead } }
  | _ => s

def pingEnd (s : Node) : Node :=
  match s.ping with
  | some { queue := [], dead, .. } => { dead.foldl (fun s id => s.removePeer id none) s with ping := none }
  | _ => s

def stop (s : Node) : Node :=
  { (s.peers.map Prod.snd).foldl (fun s c => s.close c) s with peers := [], running := false }

def step : Event → Node → Node
  | .accept c host port now, s =>
    if (s.conns c).phase = .absent then
      s.setConn c { blank with
        incoming := true, host, port, lastSeen := now
        phase := if cfg.maxPeers ≤ s.peers.length then .refused else .greeting }
    else s
  | .dismiss c, s => if (s.conns c).phase = .refused then s.drop c else s
  | .dial host port now, s => s.dial cfg host port now
  | .opened c host port now, s =>
    if (s.conns c).phase = .absent ∧ (host, port) ∈ s.dials then
      { s.setConn c { blank with host, port, lastSeen := now, phase := .greeting } with
        dials := s.dials.erase (host, port) }
    else s
  | .unreachable host port, s => { s with dials := s.dials.erase (host, port) }
  | .rejected c, s => if (s.conns c).phase = .greeting then s.drop c else s
  | .handshakeRaised c, s => if (s.conns c).phase = .greeting then s.setPhase c .abandoned else s
  | .introduced c peerId listenPort, s =>
    if (s.conns c).phase = .greeting then s.setConn c { s.conns c with peerId, listenPort, phase := .introduced } else s
  | .register c now, s => if (s.conns c).phase = .introduced then s.register cfg c now else s
  | .check c, s => if (s.conns c).phase = .checking then s.check c else s
  | .received c r, s => if (s.conns c).phase = .receiving then s.received c r else s
  | .handled c, s => if (s.conns c).phase = .handling then s.setPhase c .checking else s
  | .loopRaised c, s => if (s.conns c).phase = .receiving ∨ (s.conns c).phase = .handling then s.leave c else s
  | .prune now, s => s.pruneStale cfg now
  | .pingStart now, s => if s.ping.isNone then { s with ping := some { now, queue := s.peers, dead := [] } } else s
  | .pingNext, s => s.pingNext cfg
  | .pingEnd, s => s.pingEnd
  | .stop, s => s.stop

end Node

/-! ## Small steps -/

namespace Node

variable {cfg : Config} {s : Node} {c d : Nat} {id peerId : String}

@[simp] theorem peers_setConn (p : PeerConnection) : (s.setConn c p).peers = s.peers := rfl

theorem conns_setConn (p : PeerConnection) : (s.setConn c p).conns d = if d = c then p else s.conns d := by
  simp [setConn, Function.update_apply]

@[simp] theorem peers_close : (s.close c).peers = s.peers := rfl

@[simp] theorem peers_drop : (s.drop c).peers = s.peers := rfl

theorem conns_close : (s.close c).conns d = if d = c then { s.conns c with closed := true } else s.conns d :=
  conns_setConn _

theorem conns_setPhase (phase : Phase) :
    (s.setPhase c phase).conns d = if d = c then { s.conns c with phase := phase } else s.conns d :=
  conns_setConn _

theorem removePeer_none (h : s.peers.get? id = none) (expected : Option Nat) : s.removePeer id expected = s := by
  unfold removePeer
  rw [h]
  simp

theorem removePeer_of_ne {e : Nat} (h : s.peers.get? id ≠ some e) : s.removePeer id (some e) = s := by
  unfold removePeer
  rw [if_pos ⟨by simp, h⟩]

theorem removePeer_of_get {expected : Option Nat} (h : s.peers.get? id = some c)
    (he : expected = none ∨ expected = some c) :
    s.removePeer id expected = { s.close c with peers := s.peers.erase id } := by
  unfold removePeer
  rw [h, if_neg]
  intro hne
  rcases he with rfl | rfl
  · exact hne.1 rfl
  · exact hne.2 rfl

theorem keyed_erase {d : Dict String Nat} (h : d.Keyed) (k : String) : (d.erase k).Keyed :=
  h.sublist (List.filter_sublist.map Prod.fst)

theorem get?_removePeer (expected : Option Nat) : (s.removePeer peerId expected).peers.get? id = some c ↔
    s.peers.get? id = some c ∧ ¬ (id = peerId ∧ (expected = none ∨ expected = some c)) := by
  cases hget : s.peers.get? peerId with
  | none =>
    rw [removePeer_none hget]
    refine ⟨fun h => ⟨h, fun hid => ?_⟩, And.left⟩
    rw [hid.1, hget] at h
    cases h
  | some d =>
    by_cases he : expected = none ∨ expected = some d
    · rw [removePeer_of_get hget he]
      simp only [Dict.get?_erase]
      by_cases hid : id = peerId
      · subst hid
        rw [if_pos rfl, hget]
        constructor
        · intro h
          cases h
        · intro h
          rw [← Option.some.inj h.1] at h
          exact absurd ⟨rfl, he⟩ h.2
      · rw [if_neg hid]
        exact ⟨fun h => ⟨h, fun hx => hid hx.1⟩, And.left⟩
    · obtain ⟨e, rfl⟩ := Option.ne_none_iff_exists'.mp (not_or.mp he).1
      have hne : d ≠ e := fun h => he (.inr (by rw [h]))
      rw [removePeer_of_ne (by rw [hget]; exact fun h => hne (Option.some.inj h))]
      refine ⟨fun h => ⟨h, fun hid => ?_⟩, And.left⟩
      rw [hid.1, hget] at h
      rcases hid.2 with hnone | hsome
      · cases hnone
      · exact hne ((Option.some.inj h).trans (Option.some.inj hsome).symm)

variable (s d peerId) in
theorem conns_removePeer (expected : Option Nat) : (s.removePeer peerId expected).conns d = s.conns d ∨
    (s.peers.get? peerId = some d ∧ (s.removePeer peerId expected).conns d = { s.conns d with closed := true }) := by
  cases hget : s.peers.get? peerId with
  | none =>
    rw [removePeer_none hget]
    exact .inl rfl
  | some c =>
    by_cases he : expected = none ∨ expected = some c
    · rw [removePeer_of_get hget he]
      by_cases hd : d = c
      · subst hd
        exact .inr ⟨rfl, by simp [conns_close]⟩
      · left
        simp [conns_close, hd]
    · obtain ⟨e, rfl⟩ := Option.ne_none_iff_exists'.mp (not_or.mp he).1
      left
      rw [removePeer_of_ne]
      rw [hget]
      exact fun h => he (.inr h.symm)

/-! ## The invariant -/

/-- A registered connection is open, it is registered under its own id, and its message loop runs. A connection that is
not registered is open exactly when it is on its way to the registry or its handshake raised. -/
structure Sound (s : Node) : Prop where
  keyed : s.peers.Keyed
  registered : ∀ {id c}, s.peers.get? id = some c →
    (s.conns c).peerId = id ∧ (s.conns c).closed = false ∧ (s.conns c).phase.looping = true
  open_ : ∀ c, (s.conns c).closed = false → (s.conns c).phase.early = true ∨ s.peers.get? (s.conns c).peerId = some c
  early : ∀ c, (s.conns c).phase.early = true → (s.conns c).closed = false

theorem sound_start : Sound .start where
  keyed := List.nodup_nil
  registered h := by cases h
  open_ c _ := .inl rfl
  early c _ := rfl

theorem Sound.congr {s' : Node} (h : Sound s) (hkeyed : s'.peers.Keyed) (hconns : s'.conns = s.conns)
    (hpeers : ∀ id, s'.peers.get? id = s.peers.get? id) : Sound s' where
  keyed := hkeyed
  registered hget := by
    rw [hconns]
    rw [hpeers] at hget
    exact h.registered hget
  open_ c hc := by
    rw [hconns] at hc ⊢
    rw [hpeers]
    exact h.open_ c hc
  early c hc := by
    rw [hconns] at hc ⊢
    exact h.early c hc

theorem Sound.unregistered (h : Sound s) (hphase : (s.conns c).phase.looping = false) (id : String) :
    s.peers.get? id ≠ some c := by
  intro hget
  rw [(h.registered hget).2.2] at hphase
  cases hphase

theorem Sound.setConn (h : Sound s) (hc : ∀ id, s.peers.get? id ≠ some c) {p : PeerConnection}
    (hp : p.closed = !p.phase.early) : Sound (s.setConn c p) where
  keyed := h.keyed
  registered := by
    intro id d hget
    have hne : d ≠ c := by
      intro hdc
      subst hdc
      exact hc id hget
    rw [conns_setConn, if_neg hne]
    exact h.registered hget
  open_ d hd := by
    rw [conns_setConn] at hd ⊢
    by_cases hdc : d = c
    · rw [if_pos hdc] at hd ⊢
      rw [hp, Bool.not_eq_false'] at hd
      exact .inl hd
    · rw [if_neg hdc] at hd ⊢
      exact h.open_ d hd
  early d hd := by
    rw [conns_setConn] at hd ⊢
    by_cases hdc : d = c
    · rw [if_pos hdc] at hd ⊢
      rw [hp, hd]
      rfl
    · rw [if_neg hdc] at hd ⊢
      exact h.early d hd

theorem Sound.setLooping (h : Sound s) {p : PeerConnection} (hid : p.peerId = (s.conns c).peerId)
    (hclosed : p.closed = (s.conns c).closed) (hp : p.phase.looping = true)
    (hphase : (s.conns c).phase.looping = true) : Sound (s.setConn c p) where
  keyed := h.keyed
  registered := by
    intro id d hget
    have hreg := h.registered hget
    rw [conns_setConn]
    by_cases hdc : d = c
    · subst hdc
      rw [if_pos rfl, hid, hclosed]
      exact ⟨hreg.1, hreg.2.1, hp⟩
    · rw [if_neg hdc]
      exact hreg
  open_ d hd := by
    rw [conns_setConn] at hd ⊢
    by_cases hdc : d = c
    · subst hdc
      rw [if_pos rfl, hclosed] at hd
      rw [if_pos rfl, hid]
      refine .inr ((h.open_ d hd).resolve_left fun he => ?_)
      rw [Phase.early_of_looping hphase] at he
      cases he
    · rw [if_neg hdc] at hd ⊢
      exact h.open_ d hd
  early d hd := by
    rw [conns_setConn] at hd ⊢
    by_cases hdc : d = c
    · rw [if_pos hdc, Phase.early_of_looping hp] at hd
      cases hd
    · rw [if_neg hdc] at hd ⊢
      exact h.early d hd

theorem keyed_removePeer (h : s.peers.Keyed) (peerId : String) (expected : Option Nat) :
    (s.removePeer peerId expected).peers.Keyed := by
  unfold removePeer
  split
  · exact h
  · split
    · exact h
    · exact keyed_erase h peerId

theorem Sound.removePeer (h : Sound s) (peerId : String) (expected : Option Nat) :
    Sound (s.removePeer peerId expected) where
  keyed := keyed_removePeer h.keyed peerId expected
  registered := by
    intro id d hget
    obtain ⟨hold, hnot⟩ := (get?_removePeer expected).mp hget
    rcases conns_removePeer s d peerId expected with hconn | ⟨hpeer, hconn⟩
    · rw [hconn]
      exact h.registered hold
    · have hid : id = peerId := (h.registered hold).1.symm.trans (h.registered hpeer).1
      subst hid
      refine absurd ⟨rfl, ?_⟩ hnot
      by_contra he
      obtain ⟨e, rfl⟩ := Option.ne_none_iff_exists'.mp (not_or.mp he).1
      rw [removePeer_of_ne (by rw [hpeer]; exact fun hx => (not_or.mp he).2 hx.symm)] at hconn
      have := (h.registered hpeer).2.1
      rw [hconn] at this
      cases this
  open_ d hd := by
    rcases conns_removePeer s d peerId expected with hconn | ⟨-, hconn⟩
    · rw [hconn] at hd ⊢
      refine (h.open_ d hd).imp id fun hget => (get?_removePeer expected).mpr ⟨hget, fun hid => ?_⟩
      rw [removePeer_of_get (by rw [← hid.1]; exact hget) hid.2] at hconn
      have hclosed := congrArg PeerConnection.closed hconn
      simp only [conns_close, if_true, hd] at hclosed
      cases hclosed
    · rw [hconn] at hd
      cases hd
  early d hd := by
    rcases conns_removePeer s d peerId expected with hconn | ⟨hpeer, hconn⟩
    · rw [hconn] at hd ⊢
      exact h.early d hd
    · rw [hconn] at hd
      rw [Phase.early_of_looping (h.registered hpeer).2.2] at hd
      cases hd

theorem Sound.foldl {α : Type} {f : Node → α → Node} (hf : ∀ s e, Sound s → Sound (f s e)) (l : List α) (h : Sound s) :
    Sound (l.foldl f s) := by
  induction l generalizing s with
  | nil => exact h
  | cons e l ih => exact ih (hf s e h)

theorem Sound.leave (h : Sound s) (hphase : (s.conns c).phase.looping = true) : Sound (s.leave c) := by
  have hs := h.removePeer (s.conns c).peerId (some c)
  have hgone : ∀ id, (s.removePeer (s.conns c).peerId (some c)).peers.get? id ≠ some c := by
    intro id hget
    obtain ⟨hold, hnot⟩ := (get?_removePeer _).mp hget
    exact hnot ⟨(h.registered hold).1.symm, .inr rfl⟩
  refine hs.setConn hgone ?_
  show ((s.removePeer (s.conns c).peerId (some c)).conns c).closed = true
  by_contra hopen
  rw [Bool.not_eq_true] at hopen
  rcases hs.open_ c hopen with he | hget
  · have hsame : ((s.removePeer (s.conns c).peerId (some c)).conns c).phase = (s.conns c).phase := by
      rcases conns_removePeer s c (s.conns c).peerId (some c) with hconn | ⟨-, hconn⟩
      · rw [hconn]
      · rw [hconn]
    rw [hsame, Phase.early_of_looping hphase] at he
    cases he
  · exact hgone _ hget

theorem Sound.drop (h : Sound s) (hphase : (s.conns c).phase.looping = false) : Sound (s.drop c) :=
  h.setConn (h.unregistered hphase) rfl

/-- A registration in an empty place. -/
theorem Sound.enroll (h : Sound s) (hphase : (s.conns c).phase = .introduced)
    (hfree : s.peers.get? (s.conns c).peerId = none) :
    Sound { s.setPhase c .checking with peers := s.peers.set (s.conns c).peerId c } where
  keyed := h.keyed.set _ c
  registered := by
    intro id d hget
    simp only [Dict.get?_set] at hget
    simp only [conns_setPhase]
    by_cases hid : id = (s.conns c).peerId
    · rw [if_pos hid] at hget
      cases hget
      rw [if_pos rfl]
      exact ⟨hid.symm, h.early c (by rw [hphase]; rfl), rfl⟩
    · rw [if_neg hid] at hget
      have hne : d ≠ c := by
        intro hdc
        subst hdc
        exact h.unregistered (by rw [hphase]; rfl) id hget
      rw [if_neg hne]
      exact h.registered hget
  open_ d hd := by
    simp only [conns_setPhase] at hd ⊢
    simp only [Dict.get?_set]
    by_cases hdc : d = c
    · subst hdc
      exact .inr (by simp)
    · rw [if_neg hdc] at hd ⊢
      refine (h.open_ d hd).imp id fun hget => ?_
      rw [if_neg]
      · exact hget
      · intro hid
        rw [hid, hfree] at hget
        cases hget
  early d hd := by
    simp only [conns_setPhase] at hd ⊢
    by_cases hdc : d = c
    · rw [if_pos hdc] at hd
      cases hd
    · rw [if_neg hdc] at hd ⊢
      exact h.early d hd

theorem Sound.register (h : Sound s) (hphase : (s.conns c).phase = .introduced) (now : ℚ) :
    Sound (s.register cfg c now) := by
  unfold Node.register
  cases hget : s.peers.get? (s.conns c).peerId with
  | none => exact h.enroll hphase hget
  | some old =>
    have hlooping : (s.conns c).phase.looping = false := by rw [hphase]; rfl
    simp only
    split
    · split
      · exact h.drop hlooping
      · have hne : c ≠ old := by
          intro hco
          subst hco
          exact h.unregistered hlooping _ hget
        have hremoved : s.removePeer (s.conns c).peerId none =
            { s.close old with peers := s.peers.erase (s.conns c).peerId } := removePeer_of_get hget (.inl rfl)
        have hclose : (s.close old).conns c = s.conns c := conns_close.trans (if_neg hne)
        have hconn : (s.removePeer (s.conns c).peerId none).conns c = s.conns c := by
          rw [hremoved]
          exact hclose
        have hs := h.removePeer (s.conns c).peerId none
        have hfree : (s.removePeer (s.conns c).peerId none).peers.get? (s.conns c).peerId = none := by
          rw [hremoved]
          simp [Dict.get?_erase]
        have hnew := hs.enroll (c := c) (by rw [hconn]; exact hphase) (by rw [hconn]; exact hfree)
        refine hnew.congr (h.keyed.set _ c) ?_ ?_
        · rw [hremoved]
          rfl
        · intro id
          simp only [hremoved, hclose, Dict.get?_set, Dict.get?_erase]
          split <;> rfl
    · exact h.drop hlooping

theorem Sound.pruneStale (h : Sound s) (now : ℚ) : Sound (s.pruneStale cfg now) := by
  refine Sound.foldl (fun s e hs => ?_) s.peers h
  unfold pruneOne
  split
  · exact hs.removePeer _ _
  · exact hs

theorem conns_closeAll (l : List Nat) : (l.foldl (fun s c => s.close c) s).conns d =
    if d ∈ l then { s.conns d with closed := true } else s.conns d := by
  induction l generalizing s with
  | nil => simp
  | cons e l ih =>
    rw [List.foldl_cons, ih]
    by_cases hde : d = e
    · subst hde
      simp [conns_close]
    · simp [conns_close, hde]

theorem Sound.stop (h : Sound s) : Sound s.stop where
  keyed := List.nodup_nil
  registered hget := by cases hget
  open_ d hd := by
    simp only [Node.stop, conns_closeAll] at hd ⊢
    split at hd
    · cases hd
    · rename_i hmem
      rw [if_neg hmem]
      refine .inl ((h.open_ d hd).resolve_right fun hget => ?_)
      exact hmem (List.mem_map.mpr ⟨_, Dict.mem_of_get? hget, rfl⟩)
  early d hd := by
    simp only [Node.stop, conns_closeAll] at hd ⊢
    split at hd
    · rename_i hmem
      obtain ⟨e, he, rfl⟩ := List.mem_map.mp hmem
      rw [Phase.early_of_looping (h.registered (h.keyed.get?_of_mem he)).2.2] at hd
      cases hd
    · rename_i hmem
      rw [if_neg hmem]
      exact h.early d hd

/-- An event that finds nothing to do. -/
theorem Sound.ite {p : Prop} [Decidable p] (h : Sound s) {t : Node} (ht : p → Sound t) : Sound (if p then t else s) := by
  by_cases hp : p
  · rw [if_pos hp]
    exact ht hp
  · rw [if_neg hp]
    exact h

theorem Sound.dial (h : Sound s) (host : String) (port : Int) (now : ℚ) : Sound (s.dial cfg host port now) := by
  have hs : Sound (s.pruneStale cfg now) := h.pruneStale now
  simp only [Node.dial]
  split
  · exact h
  · split
    · exact hs
    · exact hs.congr hs.keyed rfl fun _ => rfl

theorem Sound.check (h : Sound s) (hphase : (s.conns c).phase = .checking) : Sound (s.check c) := by
  unfold Node.check
  split
  · exact h.setLooping rfl rfl rfl (by rw [hphase]; rfl)
  · exact h.leave (by rw [hphase]; rfl)

theorem Sound.received (h : Sound s) (hphase : (s.conns c).phase = .receiving) (r : Received) : Sound (s.received c r) := by
  have hlooping : (s.conns c).phase.looping = true := by rw [hphase]; rfl
  cases r with
  | nothing => exact h.leave hlooping
  | idle => exact h.setLooping rfl rfl rfl hlooping
  | message now => exact h.setLooping rfl rfl rfl hlooping

theorem Sound.pingNext (h : Sound s) : Sound (s.pingNext cfg) := by
  unfold Node.pingNext
  split
  · exact h.congr h.keyed rfl fun _ => rfl
  · exact h

theorem Sound.pingEnd (h : Sound s) : Sound s.pingEnd := by
  unfold Node.pingEnd
  split
  · rename_i dead _
    have hs := Sound.foldl (f := fun s id => s.removePeer id none) (fun s id hs => hs.removePeer id none) dead h
    exact hs.congr hs.keyed rfl fun _ => rfl
  · exact h

theorem Sound.step (h : Sound s) (e : Event) : Sound (step cfg e s) := by
  have hearly : ∀ {c}, (s.conns c).phase = .greeting → ∀ id, s.peers.get? id ≠ some c :=
    fun hphase => h.unregistered (by rw [hphase]; rfl)
  cases e with
  -- up to the registration
  | accept c host port now =>
    refine h.ite fun hphase => h.setConn (h.unregistered (by rw [hphase]; rfl)) ?_
    simp only
    split <;> rfl
  | dismiss c => exact h.ite fun hphase => h.drop (by rw [hphase]; rfl)
  | dial host port now => exact h.dial host port now
  | opened c host port now =>
    refine h.ite fun hphase => ?_
    have hs := h.setConn (p := { blank with host, port, lastSeen := now, phase := .greeting })
      (h.unregistered (c := c) (by rw [hphase.1]; rfl)) rfl
    exact hs.congr hs.keyed rfl fun _ => rfl
  | unreachable host port => exact h.congr h.keyed rfl fun _ => rfl
  | rejected c => exact h.ite fun hphase => h.drop (by rw [hphase]; rfl)
  | handshakeRaised c => exact h.ite fun hphase => h.setConn (hearly hphase) (h.early c (by rw [hphase]; rfl))
  | introduced c peerId listenPort =>
    exact h.ite fun hphase => h.setConn (hearly hphase) (h.early c (by rw [hphase]; rfl))
  | register c now => exact h.ite fun hphase => h.register hphase now
  -- the loop of a connection
  | check c => exact h.ite fun hphase => h.check hphase
  | received c r => exact h.ite fun hphase => h.received hphase r
  | handled c => exact h.ite fun hphase => h.setLooping rfl rfl rfl (by rw [hphase]; rfl)
  | loopRaised c =>
    refine h.ite fun hphase => h.leave ?_
    rcases hphase with hphase | hphase
    · rw [hphase]; rfl
    · rw [hphase]; rfl
  -- the node's own tasks
  | prune now => exact h.pruneStale now
  | pingStart now => exact h.ite fun _ => h.congr h.keyed rfl fun _ => rfl
  | pingNext => exact h.pingNext
  | pingEnd => exact h.pingEnd
  | stop => exact h.stop

/-! ## A connection that is out stays out -/

/-- What happens to a connection: it is not opened again, it does not go back to its handshake, and it keeps the id that
it got there. -/
structure Later (p q : PeerConnection) : Prop where
  closed : p.closed = true → q.closed = true
  phase : p.phase.early = false → q.phase.early = false ∧ q.peerId = p.peerId

theorem Later.refl (p : PeerConnection) : Later p p := ⟨id, fun h => ⟨h, rfl⟩⟩

theorem Later.trans {p q r : PeerConnection} (h : Later p q) (h' : Later q r) : Later p r where
  closed hp := h'.closed (h.closed hp)
  phase hp := ⟨(h'.phase (h.phase hp).1).1, (h'.phase (h.phase hp).1).2.trans (h.phase hp).2⟩

end Node

end AbsoluteChain.PeerRegistry
