import AbsoluteChain.Runs
import Mathlib.Data.Fintype.Card
import Mathlib.Logic.Function.Basic
import Mathlib.Logic.Relation
import Mathlib.Tactic.Ring

/-!
# Flooding

Nodes that pass a letter on to their peers when it is news to them. Links come and go,
letters may be lost, and each node has a life of its own besides. How many letters there
are on one topic is bounded, and once none is left the news is everywhere.
-/

namespace Flooding

open Runs

structure Letter (ι μ : Type) where
  source : ι
  target : ι
  body : μ

structure Net (ι σ μ : Type) where
  node : ι → σ
  peers : ι → List ι
  flight : List (Letter ι μ)
  sent : List (Letter ι μ)

/-- What a node does with a letter, and whether it passes it on. The circumstances are of type `ν`, and `ε` is what
else may happen at a node. -/
structure Protocol (σ μ κ ν ε : Type) where
  topic : μ → κ
  knows : κ → σ → Bool
  receive : ν → μ → σ → Bool × σ
  act : ε → σ → σ

inductive Event (ι μ ν ε : Type) where
  | announce (i : ι) (m : μ)
  | deliver (n : Nat) (x : ν)
  | lose (n : Nat)
  | act (i : ι) (e : ε)
  | link (i : ι) (js : List ι)

variable {ι σ μ κ ν ε : Type} [DecidableEq ι]

def Net.post (i : ι) (m : μ) (js : List ι) (s : Net ι σ μ) : Net ι σ μ :=
  { s with flight := s.flight ++ js.map fun j => ⟨i, j, m⟩, sent := s.sent ++ js.map fun j => ⟨i, j, m⟩ }

def Net.take (i : ι) (t : σ) (n : Nat) (s : Net ι σ μ) : Net ι σ μ :=
  { s with node := Function.update s.node i t, flight := s.flight.eraseIdx n }

def Net.arrive (P : Protocol σ μ κ ν ε) (n : Nat) (x : ν) (l : Letter ι μ) (s : Net ι σ μ) : Net ι σ μ :=
  let r := P.receive x l.body (s.node l.target)
  if r.1 = true then
    (s.take l.target r.2 n).post l.target l.body ((s.peers l.target).filter fun j => decide (j ≠ l.source))
  else s.take l.target r.2 n

def step (P : Protocol σ μ κ ν ε) : Event ι μ ν ε → Net ι σ μ → Net ι σ μ
  | .announce i m, s => s.post i m (s.peers i)
  | .deliver n x, s => s.flight[n]?.elim s fun l => s.arrive P n x l
  | .lose n, s => { s with flight := s.flight.eraseIdx n }
  | .act i e, s => { s with node := Function.update s.node i (P.act e (s.node i)) }
  | .link i js, s => { s with peers := Function.update s.peers i js }

/-- A node never forgets, and it passes on what it has just learned and nothing else. The states are those that
meet `inv`, and `fine` letters are not refused. -/
structure Law (P : Protocol σ μ κ ν ε) (inv : σ → Prop) (fine : μ → Prop) : Prop where
  inv_receive : ∀ x m s, inv s → inv (P.receive x m s).2
  inv_act : ∀ e s, inv s → inv (P.act e s)
  keep_receive : ∀ x m s k, inv s → P.knows k s = true → P.knows k (P.receive x m s).2 = true
  keep_act : ∀ e s k, inv s → P.knows k s = true → P.knows k (P.act e s) = true
  news : ∀ x m s, inv s → (P.receive x m s).1 = true →
    P.knows (P.topic m) s = false ∧ P.knows (P.topic m) (P.receive x m s).2 = true
  told : ∀ x m s, inv s → fine m → P.knows (P.topic m) (P.receive x m s).2 = true
  learned : ∀ x m s k, inv s → P.knows k s = false → P.knows k (P.receive x m s).2 = true →
    k = P.topic m ∧ (P.receive x m s).1 = true

variable {P : Protocol σ μ κ ν ε} {inv : σ → Prop} {fine : μ → Prop} {s : Net ι σ μ} {k : κ}

/-! ## One step -/

theorem step_deliver {n : Nat} {l : Letter ι μ} (hl : s.flight[n]? = some l) (x : ν) :
    step P (.deliver n x) s = s.arrive P n x l := by
  simp only [step, hl, Option.elim_some]

theorem step_deliver_none {n : Nat} (hl : s.flight[n]? = none) (x : ν) : step P (.deliver n x) s = s := by
  simp only [step, hl, Option.elim_none]

theorem arrive_cases (n : Nat) (x : ν) (l : Letter ι μ) (s : Net ι σ μ) :
    ((P.receive x l.body (s.node l.target)).1 = false ∧
        s.arrive P n x l = s.take l.target (P.receive x l.body (s.node l.target)).2 n) ∨
      ((P.receive x l.body (s.node l.target)).1 = true ∧
        s.arrive P n x l = (s.take l.target (P.receive x l.body (s.node l.target)).2 n).post l.target l.body
          ((s.peers l.target).filter fun j => decide (j ≠ l.source))) := by
  unfold Net.arrive
  cases hr : (P.receive x l.body (s.node l.target)).1 with
  | false => exact .inl ⟨rfl, if_neg (by simp [hr])⟩
  | true => exact .inr ⟨rfl, if_pos hr⟩

theorem node_arrive (n : Nat) (x : ν) (l : Letter ι μ) (s : Net ι σ μ) : (s.arrive P n x l).node =
    Function.update s.node l.target (P.receive x l.body (s.node l.target)).2 := by
  rcases arrive_cases (P := P) n x l s with ⟨-, h⟩ | ⟨-, h⟩ <;> rw [h] <;> rfl

theorem node_step (e : Event ι μ ν ε) (s : Net ι σ μ) (i : ι) : (step P e s).node i = s.node i ∨
    (∃ x m, (step P e s).node i = (P.receive x m (s.node i)).2) ∨ ∃ a, (step P e s).node i = P.act a (s.node i) := by
  cases e with
  | announce j m => exact .inl rfl
  | deliver n x =>
    cases hl : s.flight[n]? with
    | none => exact .inl (by rw [step_deliver_none hl])
    | some l =>
      rw [step_deliver hl, node_arrive]
      by_cases hi : i = l.target
      · subst hi
        rw [Function.update_self]
        exact .inr (.inl ⟨x, l.body, rfl⟩)
      · rw [Function.update_of_ne hi]
        exact .inl rfl
  | lose n => exact .inl rfl
  | act j a =>
    simp only [step]
    by_cases hi : i = j
    · subst hi
      rw [Function.update_self]
      exact .inr (.inr ⟨a, rfl⟩)
    · rw [Function.update_of_ne hi]
      exact .inl rfl
  | link j js => exact .inl rfl

theorem Law.inv_step (h : Law P inv fine) (e : Event ι μ ν ε) (hs : ∀ i, inv (s.node i)) (i : ι) :
    inv ((step P e s).node i) := by
  rcases node_step (P := P) e s i with hn | ⟨x, m, hn⟩ | ⟨a, hn⟩
  · rw [hn]
    exact hs i
  · rw [hn]
    exact h.inv_receive x m _ (hs i)
  · rw [hn]
    exact h.inv_act a _ (hs i)

theorem Law.keep_step (h : Law P inv fine) (e : Event ι μ ν ε) (hs : ∀ i, inv (s.node i)) {i : ι}
    (hk : P.knows k (s.node i) = true) : P.knows k ((step P e s).node i) = true := by
  rcases node_step (P := P) e s i with hn | ⟨x, m, hn⟩ | ⟨a, hn⟩
  · rw [hn]
    exact hk
  · rw [hn]
    exact h.keep_receive x m _ k (hs i) hk
  · rw [hn]
    exact h.keep_act a _ k (hs i) hk

/-! ## How many letters there are -/

section letters
variable [DecidableEq κ]

def traffic (P : Protocol σ μ κ ν ε) (k : κ) (s : Net ι σ μ) : Nat :=
  s.sent.countP fun l => decide (P.topic l.body = k)

def Event.announces (P : Protocol σ μ κ ν ε) (k : κ) : Event ι μ ν ε → Bool
  | .announce _ m => decide (P.topic m = k)
  | _ => false

def announcements (P : Protocol σ μ κ ν ε) (k : κ) (events : List (Event ι μ ν ε)) : Nat :=
  events.countP (Event.announces P k)

def informed [Fintype ι] (P : Protocol σ μ κ ν ε) (k : κ) (s : Net ι σ μ) : Finset ι :=
  Finset.univ.filter fun i => P.knows k (s.node i) = true

omit [DecidableEq ι] in
theorem traffic_post (i : ι) (m : μ) (js : List ι) (s : Net ι σ μ) :
    traffic P k (s.post i m js) = traffic P k s + if P.topic m = k then js.length else 0 := by
  unfold traffic Net.post
  rw [List.countP_append, List.countP_map]
  congr 1
  by_cases hk : P.topic m = k
  · rw [if_pos hk]
    exact List.countP_eq_length.mpr fun j _ => decide_eq_true hk
  · rw [if_neg hk]
    exact List.countP_eq_zero.mpr fun j _ => by simp [hk]

variable [Fintype ι] {D : Nat}

omit [DecidableEq κ] in
theorem Law.informed_step (h : Law P inv fine) (e : Event ι μ ν ε) (hs : ∀ i, inv (s.node i)) :
    informed P k s ⊆ informed P k (step P e s) := by
  intro i hi
  simp only [informed, Finset.mem_filter, Finset.mem_univ, true_and] at hi ⊢
  exact h.keep_step e hs hi

theorem Law.traffic_step (h : Law P inv fine) (hs : ∀ i, inv (s.node i)) (hD : ∀ i, (s.peers i).length ≤ D)
    (e : Event ι μ ν ε) : traffic P k (step P e s) + D * (informed P k s).card ≤
      traffic P k s + D * (if e.announces P k = true then 1 else 0) + D * (informed P k (step P e s)).card := by
  have hmono : D * (informed P k s).card ≤ D * (informed P k (step P e s)).card :=
    Nat.mul_le_mul_left D (Finset.card_le_card (h.informed_step e hs))
  cases e with
  -- an announcement sends one letter to every neighbour
  | announce i m =>
    have htraffic : traffic P k (step P (.announce i m) s) = _ := traffic_post i m (s.peers i) s
    rw [htraffic]
    by_cases hk : P.topic m = k
    · simp only [Event.announces, hk, decide_true, if_true]
      have := hD i
      omega
    · simp only [Event.announces, hk, decide_false, if_false]
      omega
  -- an arrival is passed on only where it is news
  | deliver n x =>
    cases hl : s.flight[n]? with
    | none =>
      rw [step_deliver_none hl]
      omega
    | some l =>
      have hinformed := h.informed_step (k := k) (.deliver n x) hs
      rw [step_deliver hl] at hmono hinformed ⊢
      rcases arrive_cases (P := P) n x l s with ⟨-, htake⟩ | ⟨hr, hpost⟩
      · have htraffic : traffic P k (s.arrive P n x l) = traffic P k s := by rw [htake]; rfl
        rw [htraffic]
        omega
      · have htraffic : traffic P k (s.arrive P n x l) = traffic P k s +
            if P.topic l.body = k then ((s.peers l.target).filter fun j => decide (j ≠ l.source)).length else 0 := by
          rw [hpost, traffic_post]
          rfl
        rw [htraffic]
        by_cases hk : P.topic l.body = k
        · -- the node at which the letter arrives is one more that knows
          obtain ⟨hnew, hknown⟩ := h.news x l.body _ (hs l.target) hr
          rw [hk] at hnew hknown
          have hlt : (informed P k s).card + 1 ≤ (informed P k (s.arrive P n x l)).card := by
            refine Finset.card_lt_card ((Finset.ssubset_iff_of_subset hinformed).mpr ⟨l.target, ?_, ?_⟩)
            · simp only [informed, Finset.mem_filter, Finset.mem_univ, true_and]
              rw [node_arrive, Function.update_self]
              exact hknown
            · simp only [informed, Finset.mem_filter, Finset.mem_univ, true_and]
              rw [hnew]
              decide
          have hstep : D * (informed P k s).card + D ≤ D * (informed P k (s.arrive P n x l)).card := by
            calc D * (informed P k s).card + D = D * ((informed P k s).card + 1) := by ring
              _ ≤ _ := Nat.mul_le_mul_left D hlt
          have hlen : ((s.peers l.target).filter fun j => decide (j ≠ l.source)).length ≤ D :=
            (List.length_filter_le _ _).trans (hD l.target)
          rw [if_pos hk]
          omega
        · rw [if_neg hk]
          omega
  | lose n =>
    have htraffic : traffic P k (step P (.lose n) s) = traffic P k s := rfl
    rw [htraffic]
    omega
  | act i a =>
    have htraffic : traffic P k (step P (.act i a) s) = traffic P k s := rfl
    rw [htraffic]
    omega
  | link i js =>
    have htraffic : traffic P k (step P (.link i js) s) = traffic P k s := rfl
    rw [htraffic]
    omega

theorem Law.traffic_potential (h : Law P inv fine) (events : List (Event ι μ ν ε)) : ∀ {s : Net ι σ μ},
    (∀ i, inv (s.node i)) → Along (step P) (fun _ s => ∀ i, (s.peers i).length ≤ D) events s →
    traffic P k (run (step P) events s) + D * (informed P k s).card ≤
      traffic P k s + D * announcements P k events + D * (informed P k (run (step P) events s)).card := by
  induction events with
  | nil =>
    intro s _ _
    exact Nat.add_le_add_right (Nat.le_add_right _ _) _
  | cons e rest ih =>
    intro s hs hrun
    have hfirst := h.traffic_step (k := k) hs hrun.1 e
    have hrest := ih (h.inv_step e hs) hrun.2
    have hcount : announcements P k (e :: rest) = announcements P k rest + if e.announces P k = true then 1 else 0 :=
      List.countP_cons
    rw [hcount, Nat.mul_add]
    have hend : run (step P) (e :: rest) s = run (step P) rest (step P e s) := rfl
    rw [hend]
    omega

theorem Law.traffic_le (h : Law P inv fine) {events : List (Event ι μ ν ε)} (hs : ∀ i, inv (s.node i))
    (hD : Along (step P) (fun _ s => ∀ i, (s.peers i).length ≤ D) events s) :
    traffic P k (run (step P) events s) ≤ traffic P k s + D * (announcements P k events + Fintype.card ι) := by
  have hpotential := h.traffic_potential (k := k) events hs hD
  have hcard : D * (informed P k (run (step P) events s)).card ≤ D * Fintype.card ι :=
    Nat.mul_le_mul_left D (Finset.card_le_univ _)
  rw [Nat.mul_add]
  omega

end letters

/-! ## How far the news gets -/

section spread
variable (P inv fine) (k : κ) (L : ι → ι → Prop) (a : ι) (s₀ : Net ι σ μ)

/-- What may happen while the news of the topic spreads over the links `L`, which stay: they lose no letter on it, who
announces it knows it, and nobody learns it but by letter. -/
def Steady : Event ι μ ν ε → Net ι σ μ → Prop
  | .announce i m, s => P.topic m = k → fine m ∧ P.knows k (s.node i) = true
  | .deliver _ _, _ => True
  | .lose n, s => ∀ l, s.flight[n]? = some l → P.topic l.body = k → ¬ L l.source l.target
  | .act i e, s => P.knows k (s.node i) = false → P.knows k (P.act e (s.node i)) = false
  | .link i js, _ => ∀ j, L i j → j ∈ js

/-- The node has sent the news to its peers: it is the first one, or it has learned of the topic. -/
def Sender (i : ι) (s : Net ι σ μ) : Prop := i = a ∨ P.knows k (s₀.node i) = false ∧ P.knows k (s.node i) = true

structure Spreading (s : Net ι σ μ) : Prop where
  states : ∀ i, inv (s.node i)
  links : ∀ i j, L i j → j ∈ s.peers i
  first : P.knows k (s.node a) = true
  letters : ∀ l ∈ s.flight, P.topic l.body = k → fine l.body ∧ P.knows k (s.node l.source) = true
  spread : ∀ i j, L i j → Sender P k a s₀ i s → P.knows k (s.node j) = true ∨
    ∃ l ∈ s.flight, l.source = i ∧ l.target = j ∧ P.topic l.body = k

variable {P inv fine k L a s₀}

omit [DecidableEq ι] in
theorem mem_flight {n : Nat} {l : Letter ι μ} (hl : s.flight[n]? = some l) (l' : Letter ι μ) :
    l' ∈ s.flight ↔ l' = l ∨ l' ∈ s.flight.eraseIdx n := by
  obtain ⟨hn, rfl⟩ := List.getElem?_eq_some_iff.mp hl
  rw [← (List.getElem_cons_eraseIdx_perm hn).mem_iff, List.mem_cons]

omit [DecidableEq ι] in
/-- Who sends the news after a step did so before, or has learned it in the step. -/
theorem Sender.back {t : Net ι σ μ} {i : ι} (hi : Sender P k a s₀ i t) :
    Sender P k a s₀ i s ∨ P.knows k (s.node i) = false ∧ P.knows k (t.node i) = true := by
  rcases hi with rfl | ⟨hstart, hknown⟩
  · exact .inl (.inl rfl)
  · cases hk : P.knows k (s.node i) with
    | true => exact .inl (.inr ⟨hstart, hk⟩)
    | false => exact .inr ⟨rfl, hknown⟩

/-- What was on its way has arrived, or still is on its way. -/
theorem Spreading.arrive_spread (h : Law P inv fine) (hs : Spreading P inv fine k L a s₀ s) {n : Nat} (x : ν)
    {l : Letter ι μ} (hl : s.flight[n]? = some l) {i j : ι} (hij : L i j) (hi : Sender P k a s₀ i s) :
    P.knows k ((s.arrive P n x l).node j) = true ∨
      ∃ l' ∈ s.flight.eraseIdx n, l'.source = i ∧ l'.target = j ∧ P.topic l'.body = k := by
  have hkeep := fun hk => h.keep_step (P := P) (s := s) (k := k) (i := j) (.deliver n x) hs.states hk
  rw [step_deliver hl] at hkeep
  rcases hs.spread i j hij hi with hknown | ⟨l', hl', hsource, htarget, htopic⟩
  · exact .inl (hkeep hknown)
  · rcases (mem_flight hl l').mp hl' with rfl | hrest
    · left
      rw [← htarget, ← htopic, node_arrive, Function.update_self]
      exact h.told x l'.body _ (hs.states _) (hs.letters l' hl' htopic).1
    · exact .inr ⟨l', hrest, hsource, htarget, htopic⟩

theorem Spreading.arrive_learned (h : Law P inv fine) (hs : Spreading P inv fine k L a s₀ s) {n : Nat} (x : ν)
    {l : Letter ι μ} (hl : s.flight[n]? = some l) {i j : ι} (hij : L i j) (hnew : P.knows k (s.node i) = false)
    (hknown : P.knows k ((s.arrive P n x l).node i) = true) : P.knows k ((s.arrive P n x l).node j) = true ∨
      ∃ l' ∈ (s.arrive P n x l).flight, l'.source = i ∧ l'.target = j ∧ P.topic l'.body = k := by
  have hi : i = l.target := by
    by_contra hne
    rw [node_arrive, Function.update_of_ne hne, hnew] at hknown
    cases hknown
  subst hi
  rw [node_arrive, Function.update_self] at hknown
  obtain ⟨hk, hr⟩ := h.learned x l.body _ k (hs.states _) hnew hknown
  have hkeep := fun hk => h.keep_step (P := P) (s := s) (k := k) (i := j) (.deliver n x) hs.states hk
  rw [step_deliver hl] at hkeep
  by_cases hback : j = l.source
  · left
    subst hback
    exact hkeep (hs.letters l (List.mem_of_getElem? hl) hk.symm).2
  · right
    rcases arrive_cases (P := P) n x l s with ⟨hfalse, -⟩ | ⟨-, hpost⟩
    · rw [hr] at hfalse
      cases hfalse
    · rw [hpost]
      refine ⟨⟨l.target, j, l.body⟩, List.mem_append_right _ ?_, rfl, rfl, hk.symm⟩
      have hpeer : j ∈ (s.peers l.target).filter fun j => decide (j ≠ l.source) :=
        List.mem_filter.mpr ⟨hs.links _ j hij, decide_eq_true hback⟩
      exact List.mem_map_of_mem hpeer

theorem Spreading.deliver (h : Law P inv fine) (hs : Spreading P inv fine k L a s₀ s) (n : Nat) (x : ν) :
    Spreading P inv fine k L a s₀ (step P (.deliver n x) s) := by
  cases hl : s.flight[n]? with
  | none =>
    rw [step_deliver_none hl]
    exact hs
  | some l =>
    have hkeep : ∀ i, P.knows k (s.node i) = true → P.knows k ((s.arrive P n x l).node i) = true := by
      intro i hi
      have hknown := h.keep_step (P := P) (.deliver n x) hs.states hi
      rwa [step_deliver hl] at hknown
    have hinv := h.inv_step (.deliver n x) hs.states
    rw [step_deliver hl] at hinv ⊢
    have hrest : ∀ l' ∈ s.flight.eraseIdx n, l' ∈ (s.arrive P n x l).flight := by
      intro l' hl'
      rcases arrive_cases (P := P) n x l s with ⟨-, heq⟩ | ⟨-, heq⟩
      · rw [heq]
        exact hl'
      · rw [heq]
        exact List.mem_append_left _ hl'
    refine ⟨hinv, ?_, hkeep a hs.first, ?_, ?_⟩
    · rcases arrive_cases (P := P) n x l s with ⟨-, heq⟩ | ⟨-, heq⟩ <;> rw [heq] <;> exact hs.links
    · intro l' hl' htopic
      have hold : l' ∈ s.flight.eraseIdx n → fine l'.body ∧ P.knows k ((s.arrive P n x l).node l'.source) = true :=
        fun hmem => (hs.letters l' (List.mem_of_mem_eraseIdx hmem) htopic).imp_right (hkeep _)
      rcases arrive_cases (P := P) n x l s with ⟨-, heq⟩ | ⟨hr, heq⟩
      · rw [heq] at hl'
        exact hold hl'
      · have hmem := hl'
        rw [heq] at hmem
        rcases List.mem_append.mp hmem with hmem | hmem
        · exact hold hmem
        · obtain ⟨j, -, rfl⟩ := List.mem_map.mp hmem
          refine ⟨(hs.letters l (List.mem_of_getElem? hl) htopic).1, ?_⟩
          rw [node_arrive, Function.update_self, ← htopic]
          exact (h.news x l.body _ (hs.states _) hr).2
    · intro i j hij hi
      rcases hi.back (s := s) with hi | ⟨hnew, hknown⟩
      · refine (hs.arrive_spread h x hl hij hi).imp_right ?_
        rintro ⟨l', hl', hletter⟩
        exact ⟨l', hrest l' hl', hletter⟩
      · exact hs.arrive_learned h x hl hij hnew hknown

theorem Spreading.step (h : Law P inv fine) (hs : Spreading P inv fine k L a s₀ s) {e : Event ι μ ν ε}
    (he : Steady P fine k L e s) : Spreading P inv fine k L a s₀ (step P e s) := by
  have hinv := h.inv_step e hs.states
  have hfirst := h.keep_step e hs.states hs.first
  cases e with
  | announce i m =>
    refine ⟨hinv, hs.links, hfirst, ?_, ?_⟩
    · intro l hl htopic
      rcases List.mem_append.mp hl with hl | hl
      · exact hs.letters l hl htopic
      · obtain ⟨j, -, rfl⟩ := List.mem_map.mp hl
        exact he htopic
    · intro i' j hij hi
      refine (hs.spread i' j hij hi).imp_right ?_
      rintro ⟨l, hl, hletter⟩
      exact ⟨l, List.mem_append_left _ hl, hletter⟩
  | deliver n x => exact hs.deliver h n x
  | lose n =>
    refine ⟨hinv, hs.links, hfirst, fun l hl => hs.letters l (List.mem_of_mem_eraseIdx hl), ?_⟩
    intro i j hij hi
    refine (hs.spread i j hij hi).imp_right ?_
    rintro ⟨l, hl, hsource, htarget, htopic⟩
    refine ⟨l, ?_, hsource, htarget, htopic⟩
    cases hn : s.flight[n]? with
    | none =>
      show l ∈ s.flight.eraseIdx n
      rw [List.eraseIdx_of_length_le (List.getElem?_eq_none_iff.mp hn)]
      exact hl
    | some l' =>
      rcases (mem_flight hn l).mp hl with rfl | hrest
      · rw [← hsource, ← htarget] at hij
        exact absurd hij (he l hn htopic)
      · exact hrest
  | act i e =>
    refine ⟨hinv, hs.links, hfirst, ?_, ?_⟩
    · exact fun l hl htopic => (hs.letters l hl htopic).imp_right (h.keep_step (.act i e) hs.states)
    · intro i' j hij hi
      rcases hi.back (s := s) with hi | ⟨hnew, hknown⟩
      · exact (hs.spread i' j hij hi).imp_left (h.keep_step (.act i e) hs.states)
      · simp only [Flooding.step] at hknown
        by_cases hii : i' = i
        · subst hii
          rw [Function.update_self, he hnew] at hknown
          cases hknown
        · rw [Function.update_of_ne hii, hnew] at hknown
          cases hknown
  | link i js =>
    refine ⟨hinv, ?_, hfirst, hs.letters, hs.spread⟩
    intro i' j hij
    simp only [Flooding.step]
    by_cases hii : i' = i
    · subst hii
      rw [Function.update_self]
      exact he j hij
    · rw [Function.update_of_ne hii]
      exact hs.links i' j hij

theorem spreading_announce {m : μ} (hs : ∀ i, inv (s₀.node i)) (hlinks : ∀ i j, L i j → j ∈ s₀.peers i)
    (hfirst : P.knows k (s₀.node a) = true) (hnone : ∀ l ∈ s₀.flight, P.topic l.body ≠ k) (hm : P.topic m = k)
    (hfine : fine m) : Spreading P inv fine k L a s₀ (step P (.announce a m) s₀) where
  states := hs
  links := hlinks
  first := hfirst
  letters l hl htopic := by
    rcases List.mem_append.mp hl with hl | hl
    · exact absurd htopic (hnone l hl)
    · obtain ⟨j, -, rfl⟩ := List.mem_map.mp hl
      exact ⟨hfine, hfirst⟩
  spread i j hij hi := by
    rcases hi with rfl | ⟨hstart, hknown⟩
    · exact .inr ⟨⟨i, j, m⟩, List.mem_append_right _ (List.mem_map_of_mem (hlinks i j hij)), rfl, rfl, hm⟩
    · have hsame : P.knows k (s₀.node i) = true := hknown
      rw [hstart] at hsame
      cases hsame

theorem Spreading.run (h : Law P inv fine) {events : List (Event ι μ ν ε)} (hs : Spreading P inv fine k L a s₀ s)
    (he : Along (Flooding.step P) (Steady P fine k L) events s) :
    Spreading P inv fine k L a s₀ (Runs.run (Flooding.step P) events s) :=
  (always_of_along (fun _ _ hs he => hs.step h he) hs he).last

omit [DecidableEq ι] in
/-- When no letter on the topic is left, the news has got to every node that links lead to, over nodes that did not
have it before. -/
theorem Spreading.reach (hs : Spreading P inv fine k L a s₀ s) (hquiet : ∀ l ∈ s.flight, P.topic l.body ≠ k) {j : ι}
    (hpath : Relation.ReflTransGen (fun i j => L i j ∧ (i = a ∨ P.knows k (s₀.node i) = false)) a j) :
    P.knows k (s.node j) = true := by
  induction hpath with
  | refl => exact hs.first
  | tail _ hlink ih =>
    have hsender := hlink.2.imp_right fun hstart => And.intro hstart ih
    rcases hs.spread _ _ hlink.1 hsender with hknown | ⟨l, hl, -, -, htopic⟩
    · exact hknown
    · exact absurd htopic (hquiet l hl)

end spread

/-! ## What the news is -/

section content
variable (P k) (m : μ) (R : σ → Prop) (s₀ : Net ι σ μ)

/-- Everybody who announces the topic says the same, and nobody learns of it but by letter. -/
def Alike : Event ι μ ν ε → Net ι σ μ → Prop
  | .announce _ m', _ => P.topic m' = k → m' = m
  | .act i e, s => P.knows k (s.node i) = false → P.knows k (P.act e (s.node i)) = false
  | _, _ => True

/-- What a letter establishes in a node that learns from it, and nothing undoes. -/
structure Lasting (inv : σ → Prop) : Prop where
  learned : ∀ x t, inv t → P.knows k t = false → P.knows k (P.receive x m t).2 = true → R (P.receive x m t).2
  kept : ∀ x m' t, inv t → P.knows k t = true → R t → R (P.receive x m' t).2
  act : ∀ e t, inv t → P.knows k t = true → R t → R (P.act e t)

structure Holds (inv : σ → Prop) (s : Net ι σ μ) : Prop where
  states : ∀ i, inv (s.node i)
  letters : ∀ l ∈ s.flight, P.topic l.body = k → l.body = m
  learned : ∀ i, P.knows k (s₀.node i) = false → P.knows k (s.node i) = true → R (s.node i)

variable {P k m R s₀}

theorem Holds.letters_step (hs : Holds P k m R s₀ inv s) {e : Event ι μ ν ε} (he : Alike P k m e s) :
    ∀ l ∈ (step P e s).flight, P.topic l.body = k → l.body = m := by
  cases e with
  | announce i m' =>
    intro l hl htopic
    rcases List.mem_append.mp hl with hl | hl
    · exact hs.letters l hl htopic
    · obtain ⟨j, -, rfl⟩ := List.mem_map.mp hl
      exact he htopic
  | deliver n x =>
    cases hl : s.flight[n]? with
    | none =>
      rw [step_deliver_none hl]
      exact hs.letters
    | some l =>
      rw [step_deliver hl]
      intro l' hl' htopic
      rcases arrive_cases (P := P) n x l s with ⟨-, heq⟩ | ⟨-, heq⟩
      · rw [heq] at hl'
        exact hs.letters l' (List.mem_of_mem_eraseIdx hl') htopic
      · rw [heq] at hl'
        rcases List.mem_append.mp hl' with hmem | hmem
        · exact hs.letters l' (List.mem_of_mem_eraseIdx hmem) htopic
        · obtain ⟨j, -, rfl⟩ := List.mem_map.mp hmem
          exact hs.letters l (List.mem_of_getElem? hl) htopic
  | lose n => exact fun l hl => hs.letters l (List.mem_of_mem_eraseIdx hl)
  | act i e => exact hs.letters
  | link i js => exact hs.letters

theorem Holds.step (h : Law P inv fine) (hR : Lasting P k m R inv) (hs : Holds P k m R s₀ inv s) {e : Event ι μ ν ε}
    (he : Alike P k m e s) : Holds P k m R s₀ inv (step P e s) := by
  refine ⟨h.inv_step e hs.states, hs.letters_step he, fun i hstart hknown => ?_⟩
  cases hold : P.knows k (s.node i) with
  | true =>
    have hrow := hs.learned i hstart hold
    rcases node_step (P := P) e s i with hn | ⟨x, m', hn⟩ | ⟨b, hn⟩
    · rw [hn]
      exact hrow
    · rw [hn]
      exact hR.kept x m' _ (hs.states i) hold hrow
    · rw [hn]
      exact hR.act b _ (hs.states i) hold hrow
  | false =>
    have hchanged : (Flooding.step P e s).node i ≠ s.node i := by
      intro hsame
      rw [hsame, hold] at hknown
      cases hknown
    cases e with
    | announce j m' => exact absurd rfl hchanged
    | deliver n x =>
      cases hl : s.flight[n]? with
      | none =>
        rw [step_deliver_none hl] at hchanged
        exact absurd rfl hchanged
      | some l =>
        rw [step_deliver hl, node_arrive] at hchanged hknown ⊢
        have hi : i = l.target := by
          by_contra hne
          exact hchanged (Function.update_of_ne hne _ _)
        subst hi
        rw [Function.update_self] at hknown ⊢
        have htopic := (h.learned x l.body _ k (hs.states _) hold hknown).1
        rw [hs.letters l (List.mem_of_getElem? hl) htopic.symm] at hknown ⊢
        exact hR.learned x _ (hs.states _) hold hknown
    | lose n => exact absurd rfl hchanged
    | act j b =>
      simp only [Flooding.step] at hknown hchanged
      by_cases hij : i = j
      · subst hij
        rw [Function.update_self, he hold] at hknown
        cases hknown
      · exact absurd (Function.update_of_ne hij _ _) hchanged
    | link j js => exact absurd rfl hchanged

theorem Holds.run (h : Law P inv fine) (hR : Lasting P k m R inv) {events : List (Event ι μ ν ε)}
    (hs : Holds P k m R s₀ inv s) (he : Along (Flooding.step P) (Alike P k m) events s) :
    Holds P k m R s₀ inv (Runs.run (Flooding.step P) events s) :=
  (always_of_along (fun _ _ hs he => hs.step h hR he) hs he).last

end content

end Flooding
