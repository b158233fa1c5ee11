import AbsoluteChain.Act

/-!
# Transactional stores

A connection to a store that holds one open transaction at most. A statement
opens one if none is open; `commit` makes everything written so far durable, so a
commit issued by a helper in the middle of a longer transaction ends that
transaction, and a later `rollback` only reaches back to it.
-/

namespace Transactions

open Actions Act

structure Store (τ : Type) where
  file : τ
  pending : Option τ
  deriving DecidableEq

namespace Store

variable {τ α : Type}

/-- What the connection itself reads. -/
def live (s : Store τ) : τ := s.pending.getD s.file

def exec (f : τ → τ) (s : Store τ) : Store τ := { s with pending := some (f s.live) }

def commit (s : Store τ) : Store τ := { file := s.live, pending := none }

def rollback (s : Store τ) : Store τ := { s with pending := none }

def write (f : τ → τ) (s : Store τ) : Store τ := (s.exec f).commit

def opened (s : Store τ) : Store τ := { s with pending := some s.file }

def begin? (s : Store τ) : Option (Store τ) :=
  match s.pending with
  | none => some s.opened
  | some _ => none

@[simp] theorem live_exec (f : τ → τ) (s : Store τ) : (s.exec f).live = f s.live := rfl
@[simp] theorem file_exec (f : τ → τ) (s : Store τ) : (s.exec f).file = s.file := rfl
@[simp] theorem live_commit (s : Store τ) : s.commit.live = s.live := rfl
@[simp] theorem file_commit (s : Store τ) : s.commit.file = s.live := rfl
@[simp] theorem live_rollback (s : Store τ) : s.rollback.live = s.file := rfl
@[simp] theorem live_write (f : τ → τ) (s : Store τ) : (s.write f).live = f s.live := rfl
@[simp] theorem file_write (f : τ → τ) (s : Store τ) : (s.write f).file = f s.live := rfl

theorem begin_eq_some {s t : Store τ} (h : s.begin? = some t) :
    s.pending = none ∧ t = s.opened := by
  unfold begin? at h
  split at h
  · rename_i hp; cases h; exact ⟨hp, rfl⟩
  · cases h

theorem begin_closed {s : Store τ} (h : s.pending = none) : s.begin? = some s.opened := by
  unfold begin?
  rw [h]

theorem begin_open {s : Store τ} (h : s.pending ≠ none) : s.begin? = none := by
  unfold begin?
  cases hp : s.pending with
  | none => exact absurd hp h
  | some t => rfl

theorem live_closed {s : Store τ} (h : s.pending = none) : s.live = s.file := by
  unfold live
  rw [h]
  rfl

theorem live_opened {s : Store τ} (h : s.pending = none) : s.opened.live = s.live := by
  simp [live, opened, h]

theorem live_begin {s t : Store τ} (h : s.begin? = some t) : t.live = s.live ∧ t.file = s.live := by
  obtain ⟨hp, rfl⟩ := begin_eq_some h
  simp [live, opened, hp]

end Store

/-! ## Frames of a store -/

/-- What `q` sees is never changed, so a commit cannot make anything new of it durable. -/
def untouched {τ γ : Type} (q : τ → γ) : Frame (Store τ) where
  rel s t := q t.live = q s.live ∧ (q t.file = q s.file ∨ q t.file = q s.live)
  refl _ := ⟨rfl, .inl rfl⟩
  trans {a b c} h₁ h₂ := by
    obtain ⟨hl₁, hf₁⟩ := h₁
    obtain ⟨hl₂, hf₂⟩ := h₂
    refine ⟨hl₂.trans hl₁, ?_⟩
    rcases hf₂ with h | h
    · rcases hf₁ with h' | h'
      · exact .inl (h.trans h')
      · exact .inr (h.trans h')
    · exact .inr (h.trans hl₁)

/-- No statement commits: what is durable stays as it is. -/
def uncommitted {τ : Type} : Frame (Store τ) := Frame.fixed Store.file

section frames
variable {ε τ γ : Type} {q : τ → γ} {f : τ → τ}

theorem keeps_exec (h : ∀ t, q (f t) = q t) : Keeps (untouched q) (write (Store.exec f) : Act ε (Store τ) Unit) :=
  keeps_write fun s => ⟨h s.live, .inl rfl⟩

theorem keeps_committed (h : ∀ t, q (f t) = q t) : Keeps (untouched q) (write (Store.write f) : Act ε (Store τ) Unit) :=
  keeps_write fun s => ⟨h s.live, .inr (h s.live)⟩

theorem uncommitted_exec (f : τ → τ) : Keeps uncommitted (write (Store.exec f) : Act ε (Store τ) Unit) :=
  keeps_write fun _ => rfl

end frames

/-! ## A body inside a transaction -/

variable {ε σ τ α : Type} (refused : ε)

/-- `with db.atomic(): body`, for a body that works on a state with the store as a part of it.
`refused` is what a nested `BEGIN` raises. -/
def atomically (P : Part σ (Store τ)) (body : Act ε σ α) : Act ε σ α := fun s =>
  match (P.get s).begin? with
  | none => (.error refused, s)
  | some db =>
    match body (P.set db s) with
    | (.ok a, s') => (.ok a, P.set (P.get s').commit s')
    | (.error e, s') => (.error e, P.set (P.get s').rollback s')

variable {P : Part σ (Store τ)} {body : Act ε σ α} {s s' : σ} {db : Store τ}

theorem atomically_refused (h : (P.get s).begin? = none) :
    atomically refused P body s = (.error refused, s) := by
  unfold atomically
  rw [h]

theorem atomically_returned {a : α} (h : (P.get s).begin? = some db) (hb : body (P.set db s) = (.ok a, s')) :
    atomically refused P body s = (.ok a, P.set (P.get s').commit s') := by
  unfold atomically
  rw [h]
  simp only [hb]

theorem atomically_raised {e : ε} (h : (P.get s).begin? = some db) (hb : body (P.set db s) = (.error e, s')) :
    atomically refused P body s = (.error e, P.set (P.get s').rollback s') := by
  unfold atomically
  rw [h]
  simp only [hb]

/-- Between two calls no transaction is open. -/
def idle {τ : Type} : Frame (Store τ) where
  rel s t := s.pending = none → t.pending = none
  refl _ h := h
  trans h₁ h₂ h := h₂ (h₁ h)

theorem idle_write {ε τ : Type} (f : τ → τ) : Keeps idle (write (Store.write f) : Act ε (Store τ) Unit) :=
  keeps_write fun _ _ => rfl

/-- A transaction ends with its body, however that ends. -/
theorem idle_atomically (P : Part σ (Store τ)) (body : Act ε σ α) :
    Keeps (Frame.pull P idle) (atomically refused P body) := by
  intro s hs
  cases hb : (P.get s).begin? with
  | none =>
    rw [atomically_refused refused hb]
    exact hs
  | some db =>
    rcases hr : body (P.set db s) with ⟨e | a, s'⟩
    · rw [atomically_raised refused hb hr]
      exact congrArg Store.pending (P.get_set _ _)
    · rw [atomically_returned refused hb hr]
      exact congrArg Store.pending (P.get_set _ _)

end Transactions
