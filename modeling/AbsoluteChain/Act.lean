import Mathlib.Init

/-!
# Actions

A method body that reads and writes a state and may raise. A raise keeps the
state reached so far, as an exception does. `Keeps` is the frame rule: a relation
between the states before and after that every step respects is respected by the
whole body, whether it returns or raises.
-/

namespace Actions

/-- A body on the state `σ` that returns an `α` or raises an `ε`. -/
def Act (ε σ α : Type) : Type := σ → Except ε α × σ

namespace Act

variable {ε σ α β : Type}

def ret (a : α) : Act ε σ α := fun s => (.ok a, s)

def andThen (m : Act ε σ α) (k : α → Act ε σ β) : Act ε σ β := fun s =>
  match m s with
  | (.ok a, s') => k a s'
  | (.error e, s') => (.error e, s')

instance : Monad (Act ε σ) where
  pure := ret
  bind := andThen

def raise (e : ε) : Act ε σ α := fun s => (.error e, s)

def read (f : σ → α) : Act ε σ α := fun s => (.ok (f s), s)

def write (f : σ → σ) : Act ε σ Unit := fun s => (.ok (), f s)

/-- `if p: m`. -/
def when (p : Prop) [Decidable p] (m : Act ε σ Unit) : Act ε σ Unit := if p then m else ret ()

/-- `try: m except: h`. -/
def attempt (m : Act ε σ α) (h : ε → Act ε σ α) : Act ε σ α := fun s =>
  match m s with
  | (.ok a, s') => (.ok a, s')
  | (.error e, s') => h e s'

structure Part (σ τ : Type) where
  get : σ → τ
  set : τ → σ → σ
  get_set : ∀ t s, get (set t s) = t
  set_get : ∀ s, set (get s) s = s
  set_set : ∀ t u s, set t (set u s) = set t s

def Part.whole : Part σ σ where
  get s := s
  set t _ := t
  get_set _ _ := rfl
  set_get _ := rfl
  set_set _ _ _ := rfl

def on {τ : Type} (P : Part σ τ) (m : Act ε τ α) : Act ε σ α := fun s =>
  let r := m (P.get s)
  (r.1, P.set r.2 s)

@[simp] theorem pure_run (a : α) (s : σ) : (pure a : Act ε σ α) s = (.ok a, s) := rfl

@[simp] theorem raise_run (e : ε) (s : σ) : (raise e : Act ε σ α) s = (.error e, s) := rfl

@[simp] theorem read_run (f : σ → α) (s : σ) : (read f : Act ε σ α) s = (.ok (f s), s) := rfl

@[simp] theorem write_run (f : σ → σ) (s : σ) : (write f : Act ε σ Unit) s = (.ok (), f s) := rfl

theorem bind_run (m : Act ε σ α) (k : α → Act ε σ β) (s : σ) :
    (m >>= k) s = match m s with
      | (.ok a, s') => k a s'
      | (.error e, s') => (.error e, s') := rfl

theorem bind_of_ok {m : Act ε σ α} {k : α → Act ε σ β} {s s' : σ} {a : α} (h : m s = (.ok a, s')) :
    (m >>= k) s = k a s' := by
  rw [bind_run, h]

theorem bind_ok {m : Act ε σ α} {k : α → Act ε σ β} {s s' : σ} {b : β} :
    (m >>= k) s = (.ok b, s') ↔ ∃ a t, m s = (.ok a, t) ∧ k a t = (.ok b, s') := by
  rw [bind_run]
  constructor
  · rcases m s with ⟨e | a, t⟩
    · intro h; cases h
    · intro h; exact ⟨a, t, rfl, h⟩
  · rintro ⟨a, t, h, hk⟩
    rw [h]; exact hk

instance : LawfulMonad (Act ε σ) := LawfulMonad.mk' _
  (fun m => by
    funext s
    change (m >>= fun a => pure a) s = m s
    rw [bind_run]
    rcases m s with ⟨e | a, t⟩ <;> rfl)
  (fun _ _ => rfl)
  (fun m _ _ => by
    funext s
    simp only [bind_run]
    rcases m s with ⟨e | a, t⟩ <;> rfl)

/-! ## Frames -/

structure Frame (σ : Type) where
  rel : σ → σ → Prop
  refl : ∀ s, rel s s
  trans : ∀ {a b c}, rel a b → rel b c → rel a c

def Frame.fixed {γ : Type} (q : σ → γ) : Frame σ where
  rel s t := q t = q s
  refl _ := rfl
  trans h₁ h₂ := h₂.trans h₁

def Keeps (F : Frame σ) (m : Act ε σ α) : Prop := ∀ s, F.rel s (m s).2

variable {F : Frame σ}

theorem keeps_pure (a : α) : Keeps F (pure a : Act ε σ α) := F.refl

theorem keeps_raise (e : ε) : Keeps F (raise e : Act ε σ α) := F.refl

theorem keeps_read (f : σ → α) : Keeps F (read f : Act ε σ α) := F.refl

theorem keeps_write {f : σ → σ} (h : ∀ s, F.rel s (f s)) : Keeps F (write f : Act ε σ Unit) := h

/-- The rule for `bind` at one state, where the second part may use how the first one ran. -/
theorem rel_bind {m : Act ε σ α} {k : α → Act ε σ β} {s : σ} (hm : F.rel s (m s).2)
    (hk : ∀ a t, m s = (.ok a, t) → F.rel t (k a t).2) : F.rel s ((m >>= k) s).2 := by
  rw [bind_run]
  rcases hr : m s with ⟨e | a, t⟩
  · rw [hr] at hm; exact hm
  · rw [hr] at hm; exact F.trans hm (hk a t hr)

/-- What follows a first part, from the state that part leaves. -/
theorem rel_tail {m : Act ε σ α} {k : α → Act ε σ β} (hk : ∀ a, Keeps F (k a)) (s : σ) :
    F.rel (m s).2 ((m >>= k) s).2 := by
  rw [bind_run]
  rcases m s with ⟨e | a, t⟩
  · exact F.refl t
  · exact hk a t

/-- The rule for `bind` with a condition on the state in between. -/
theorem after_bind {m : Act ε σ α} {k : α → Act ε σ β} {s : σ} {Q R : σ → Prop} (hm : Q (m s).2)
    (hk : ∀ a t, m s = (.ok a, t) → R (k a t).2) (hqr : ∀ t, Q t → R t) : R ((m >>= k) s).2 := by
  rw [bind_run]
  rcases hr : m s with ⟨e | a, t⟩
  · rw [hr] at hm
    exact hqr t hm
  · exact hk a t hr

theorem keeps_bind {m : Act ε σ α} {k : α → Act ε σ β} (hm : Keeps F m) (hk : ∀ a, Keeps F (k a)) :
    Keeps F (m >>= k) := fun s => rel_bind (hm s) fun a t _ => hk a t

theorem keeps_attempt {m : Act ε σ α} {h : ε → Act ε σ α} (hm : Keeps F m) (hh : ∀ e, Keeps F (h e)) :
    Keeps F (attempt m h) := by
  intro s
  have hs := hm s
  unfold attempt
  rcases hr : m s with ⟨e | a, t⟩
  · rw [hr] at hs; exact F.trans hs (hh e t)
  · rw [hr] at hs; exact hs

theorem keeps_ite {p : Prop} [Decidable p] {m n : Act ε σ α} (hm : p → Keeps F m) (hn : ¬p → Keeps F n) :
    Keeps F (if p then m else n) := by
  by_cases h : p
  · rw [if_pos h]; exact hm h
  · rw [if_neg h]; exact hn h

theorem keeps_when {p : Prop} [Decidable p] {m : Act ε σ Unit} (hm : p → Keeps F m) : Keeps F (when p m) :=
  keeps_ite hm fun _ => keeps_pure _

def Frame.pull {τ : Type} (P : Part σ τ) (F : Frame τ) : Frame σ where
  rel s t := F.rel (P.get s) (P.get t)
  refl _ := F.refl _
  trans h₁ h₂ := F.trans h₁ h₂

theorem keeps_on {τ : Type} {P : Part σ τ} {F : Frame τ} {m : Act ε τ α} (h : Keeps F m) :
    Keeps (F.pull P) (on P m) := by
  intro s
  have hs := h (P.get s)
  simp only [Frame.pull, on, P.get_set]
  exact hs

theorem keeps_on_other {τ υ : Type} {P : Part σ τ} {Q : Part σ υ} {F : Frame τ} {m : Act ε υ α}
    (h : ∀ u s, P.get (Q.set u s) = P.get s) : Keeps (F.pull P) (on Q m) := by
  intro s
  simp only [Frame.pull, on, h]
  exact F.refl _

theorem keeps_apply {m : Act ε σ α} (h : Keeps F m) {s s' : σ} {r : Except ε α} (hr : m s = (r, s')) : F.rel s s' := by
  have hs := h s
  rw [hr] at hs
  exact hs

/-! ## Actions that never raise -/

def Returns (m : Act ε σ α) : Prop := ∀ s, ∃ a, (m s).1 = .ok a

theorem returns_pure (a : α) : Returns (pure a : Act ε σ α) := fun _ => ⟨a, rfl⟩

theorem returns_read (f : σ → α) : Returns (read f : Act ε σ α) := fun s => ⟨f s, rfl⟩

theorem returns_write (f : σ → σ) : Returns (write f : Act ε σ Unit) := fun _ => ⟨(), rfl⟩

theorem returns_bind {m : Act ε σ α} {k : α → Act ε σ β} (hm : Returns m) (hk : ∀ a, Returns (k a)) :
    Returns (m >>= k) := by
  intro s
  obtain ⟨a, ha⟩ := hm s
  rw [bind_run]
  rcases hr : m s with ⟨r, t⟩
  rw [hr] at ha
  cases ha
  exact hk a t

theorem returns_ite {p : Prop} [Decidable p] {m n : Act ε σ α} (hm : Returns m) (hn : Returns n) :
    Returns (if p then m else n) := by
  by_cases h : p
  · rw [if_pos h]; exact hm
  · rw [if_neg h]; exact hn

theorem returns_when {p : Prop} [Decidable p] {m : Act ε σ Unit} (hm : Returns m) : Returns (when p m) :=
  returns_ite hm (returns_pure _)

/-- What follows an action that never raises runs in the state it leaves. -/
theorem Returns.run {m : Act ε σ Unit} (hm : Returns m) (k : Unit → Act ε σ β) (s : σ) : (m >>= k) s = k () (m s).2 := by
  obtain ⟨a, ha⟩ := hm s
  rw [bind_run]
  rcases hr : m s with ⟨r, t⟩
  rw [hr] at ha
  cases ha
  rfl

/-! ## Two runs -/

section alike
variable {ρ σ' τ' α' β' : Type} {V : α → α' → Prop} {W : β → β' → Prop} {R : σ → σ' → Prop}

/-- Two runs end alike: both return, with results that `V` relates, or both raise the same, and
in each case the states they reach are related by `R`. -/
inductive Alike (V : α → α' → Prop) (R : σ → σ' → Prop) : Except ε α × σ → Except ε α' × σ' → Prop
  | ok {a : α} {b : α'} {s : σ} {t : σ'} (value : V a b) (state : R s t) : Alike V R (.ok a, s) (.ok b, t)
  | error {e : ε} {s : σ} {t : σ'} (state : R s t) : Alike V R (.error e, s) (.error e, t)

theorem Alike.returned {x : Except ε α' × σ'} {a : α} {s : σ} (h : Alike V R (.ok a, s) x) :
    ∃ b t, x = (.ok b, t) ∧ V a b ∧ R s t := by
  cases h with
  | ok value state => exact ⟨_, _, rfl, value, state⟩

theorem alike_pure {a : α} {b : α'} {s : σ} {t : σ'} (hv : V a b) (hr : R s t) :
    Alike V R ((pure a : Act ε σ α) s) ((pure b : Act ε σ' α') t) := .ok hv hr

theorem alike_raise {e : ε} {s : σ} {t : σ'} (hr : R s t) :
    Alike V R ((raise e : Act ε σ α) s) ((raise e : Act ε σ' α') t) := .error hr

/-- The rule for `bind`, where the second parts may use how the first one ran. -/
theorem alike_bind {m : Act ε σ α} {n : Act ε σ' α'} {k : α → Act ε σ β} {l : α' → Act ε σ' β'} {s : σ} {t : σ'}
    (hm : Alike V R (m s) (n t))
    (hk : ∀ a b s₁ t₁, m s = (.ok a, s₁) → V a b → R s₁ t₁ → Alike W R (k a s₁) (l b t₁)) :
    Alike W R ((m >>= k) s) ((n >>= l) t) := by
  rw [bind_run, bind_run]
  generalize hs : m s = x at hm
  generalize n t = y at hm
  cases hm with
  | ok value state => exact hk _ _ _ _ hs value state
  | error state => exact .error state

theorem alike_attempt {m : Act ε σ α} {n : Act ε σ' α'} {h : ε → Act ε σ α} {g : ε → Act ε σ' α'} {s : σ} {t : σ'}
    (hm : Alike V R (m s) (n t)) (hh : ∀ e s₁ t₁, R s₁ t₁ → Alike V R (h e s₁) (g e t₁)) :
    Alike V R (attempt m h s) (attempt n g t) := by
  unfold attempt
  generalize m s = x at hm
  generalize n t = y at hm
  cases hm with
  | ok value state => exact .ok value state
  | error state => exact hh _ _ _ state

theorem alike_when {p : Prop} [Decidable p] {m : Act ε σ Unit} {n : Act ε σ' Unit} {s : σ} {t : σ'} (hr : R s t)
    (hm : p → Alike Eq R (m s) (n t)) : Alike Eq R (when p m s) (when p n t) := by
  unfold when
  by_cases hp : p
  · rw [if_pos hp, if_pos hp]; exact hm hp
  · rw [if_neg hp, if_neg hp]; exact .ok rfl hr

end alike

end Act

end Actions
