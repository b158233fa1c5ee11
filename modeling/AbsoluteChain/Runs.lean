import Mathlib.Algebra.BigOperators.Group.List.Basic
import Mathlib.Algebra.Order.BigOperators.Group.List
import Mathlib.Algebra.Order.Ring.Rat
import Mathlib.Tactic.Linarith

/-!
# Runs

A system that takes one step for each event, the conditions on the events of a
run, and the rules that carry an invariant along it. A path is a run that is
already recorded, as a list of items with the states before and after each.
-/

namespace Runs

variable {σ ε : Type} (step : ε → σ → σ)

def run (events : List ε) (s : σ) : σ := events.foldl (fun s e => step e s) s

/-- Each event of the run meets `P` in the state it finds. -/
def Along (P : ε → σ → Prop) : List ε → σ → Prop
  | [], _ => True
  | e :: rest, s => P e s ∧ Along P rest (step e s)

/-- Each state of the run satisfies `P`. -/
def Always (P : σ → Prop) : List ε → σ → Prop
  | [], s => P s
  | e :: rest, s => P s ∧ Always P rest (step e s)

variable {step} {P Q : ε → σ → Prop} {I J : σ → Prop} {events : List ε} {s : σ}

/-- The invariant rule. -/
theorem always_of_along (hstep : ∀ e s, I s → P e s → I (step e s)) (hs : I s) (h : Along step P events s) :
    Always step I events s := by
  induction events generalizing s with
  | nil => exact hs
  | cons e rest ih => exact ⟨hs, ih (hstep e s hs h.1) h.2⟩

/-- The same for a property of the steps that needs the invariant. -/
theorem along_of_along (hstep : ∀ e s, I s → P e s → I (step e s)) (hQ : ∀ e s, I s → P e s → Q e s) (hs : I s)
    (h : Along step P events s) : Along step Q events s := by
  induction events generalizing s with
  | nil => trivial
  | cons e rest ih => exact ⟨hQ e s hs h.1, ih (hstep e s hs h.1) h.2⟩

theorem along_of_inv (hstep : ∀ e s, I s → I (step e s)) (hQ : ∀ e s, I s → Q e s) (events : List ε) (hs : I s) :
    Along step Q events s := by
  induction events generalizing s with
  | nil => trivial
  | cons e rest ih => exact ⟨hQ e s hs, ih (hstep e s hs)⟩

theorem run_inv (hstep : ∀ e s, I s → I (step e s)) (events : List ε) (hs : I s) : I (run step events s) := by
  induction events generalizing s with
  | nil => exact hs
  | cons e rest ih => exact ih (hstep e s hs)

/-- A run seen through a view of the state. -/
theorem run_image {τ : Type} {step' : ε → τ → τ} (f : σ → τ) (h : ∀ e s, step' e (f s) = f (step e s)) (events : List ε)
    (s : σ) : run step' events (f s) = f (run step events s) :=
  List.foldl_hom f fun s e => h e s

/-- Two properties of the steps that come to the same under an invariant. -/
theorem along_congr (hstep : ∀ e s, I s → I (step e s)) (hiff : ∀ e s, I s → (P e s ↔ Q e s)) (hs : I s) :
    Along step P events s ↔ Along step Q events s := by
  induction events generalizing s with
  | nil => exact Iff.rfl
  | cons e rest ih => exact and_congr (hiff e s hs) (ih (hstep e s hs))

theorem along_and (h : Along step P events s) (h' : Along step Q events s) : Along step (fun e s => P e s ∧ Q e s) events s := by
  induction events generalizing s with
  | nil => trivial
  | cons e rest ih => exact ⟨⟨h.1, h'.1⟩, ih h.2 h'.2⟩

theorem along_of_mem {R : ε → Prop} (h : ∀ e ∈ events, R e) : Along step (fun e _ => R e) events s := by
  induction events generalizing s with
  | nil => trivial
  | cons e rest ih => exact ⟨h e List.mem_cons_self, ih fun e' he' => h e' (List.mem_cons_of_mem _ he')⟩

theorem along_append {first rest : List ε} :
    Along step P (first ++ rest) s ↔ Along step P first s ∧ Along step P rest (run step first s) := by
  induction first generalizing s with
  | nil => exact ⟨fun h => ⟨trivial, h⟩, And.right⟩
  | cons e first ih =>
    refine (and_congr_right fun _ => ih).trans ?_
    exact and_assoc.symm

theorem Always.imp (h : Always step I events s) (hij : ∀ s, I s → J s) : Always step J events s := by
  induction events generalizing s with
  | nil => exact hij s h
  | cons e rest ih => exact ⟨hij s h.1, ih h.2⟩

theorem Always.last (h : Always step I events s) : I (run step events s) := by
  induction events generalizing s with
  | nil => exact h
  | cons e rest ih => exact ih h.2

/-- The steps that keep a property, when they are those that keep a stronger invariant. -/
theorem always_iff_along_of (hI : ∀ s, I s → J s) (hstep : ∀ e s, I s → P e s → I (step e s))
    (hbreak : ∀ e s, I s → J (step e s) → P e s) (hs : I s) : Always step J events s ↔ Along step P events s := by
  induction events generalizing s with
  | nil => exact iff_of_true (hI s hs) trivial
  | cons e rest ih =>
    constructor
    · rintro ⟨-, h⟩
      have hnext : J (step e s) := by
        cases rest with
        | nil => exact h
        | cons _ _ => exact h.1
      have hp := hbreak e s hs hnext
      exact ⟨hp, (ih (hstep e s hs hp)).mp h⟩
    · rintro ⟨hp, h⟩
      exact ⟨hI s hs, (ih (hstep e s hs hp)).mpr h⟩

/-- The steps that keep a property, when what was lost in a step stays lost. -/
theorem along_of_run (hstep : ∀ e s, I s → P e s → I (step e s)) (hbreak : ∀ e s, I s → J (step e s) → P e s)
    (hback : ∀ e s, J (step e s) → J s) (hs : I s) (h : J (run step events s)) : Along step P events s := by
  induction events generalizing s with
  | nil => trivial
  | cons e rest ih =>
    have hnext : J (step e s) := by
      have hall : ∀ (l : List ε) (t : σ), J (run step l t) → J t := by
        intro l
        induction l with
        | nil => exact fun _ ht => ht
        | cons e l ihl => exact fun t ht => hback e t (ihl (step e t) ht)
      exact hall rest (step e s) h
    have hp := hbreak e s hs hnext
    exact ⟨hp, ih (hstep e s hs hp) h⟩

/-- A step property that holds exactly when the invariant survives the step. -/
theorem always_iff_along (hstep : ∀ e s, I s → (I (step e s) ↔ P e s)) (hs : I s) :
    Always step I events s ↔ Along step P events s :=
  always_iff_along_of (fun _ h => h) (fun e s h => (hstep e s h).mpr) (fun e s h => (hstep e s h).mp) hs

theorem kept_iff_along {M : Type} [PartialOrder M] {q : σ → M} (hstep : ∀ e s, I s → P e s → I (step e s))
    (hq : ∀ e s, I s → P e s → q s ≤ q (step e s) ∧ (q (step e s) = q s ↔ Q e s)) (hs : I s) (h : Along step P events s) :
    q s ≤ q (run step events s) ∧ (q (run step events s) = q s ↔ Along step Q events s) := by
  induction events generalizing s with
  | nil => exact ⟨le_refl _, iff_of_true rfl trivial⟩
  | cons e rest ih =>
    obtain ⟨hle, hiff⟩ := hq e s hs h.1
    obtain ⟨hrest, hall⟩ := ih (hstep e s hs h.1) h.2
    change q s ≤ q (run step rest (step e s)) ∧ (q (run step rest (step e s)) = q s ↔ _)
    refine ⟨hle.trans hrest, ?_⟩
    constructor
    · intro hend
      have hfirst : q (step e s) = q s := le_antisymm (hrest.trans (le_of_eq hend)) hle
      exact ⟨hiff.mp hfirst, hall.mp (hend.trans hfirst.symm)⟩
    · rintro ⟨hfirst, hlater⟩
      exact (hall.mpr hlater).trans (hiff.mpr hfirst)

theorem along_budget {load : σ → ℚ} {cost : ε → ℚ} {bound : ℚ} (hcost : ∀ e, 0 ≤ cost e)
    (hstep : ∀ e s, I s → load s + cost e < bound → P e s → I (step e s) ∧ load (step e s) ≤ load s + cost e) (hs : I s)
    (hbound : load s + (events.map cost).sum < bound) (h : Along step P events s) :
    Along step (fun e s => I s ∧ load s + cost e < bound) events s ∧ I (run step events s) ∧
      load (run step events s) < bound := by
  induction events generalizing s with
  | nil =>
    rw [List.map_nil, List.sum_nil, add_zero] at hbound
    exact ⟨trivial, hs, hbound⟩
  | cons e rest ih =>
    rw [List.map_cons, List.sum_cons] at hbound
    have hlater : 0 ≤ (rest.map cost).sum := by
      apply List.sum_nonneg
      intro x hx
      obtain ⟨e', -, rfl⟩ := List.mem_map.mp hx
      exact hcost e'
    have hfits : load s + cost e < bound := by linarith
    obtain ⟨hnext, hraise⟩ := hstep e s hs hfits h.1
    obtain ⟨hrest, hend⟩ := ih hnext (by linarith) h.2
    exact ⟨⟨⟨hs, hfits⟩, hrest⟩, hend⟩

/-! ## Paths -/

section paths
variable {α β : Type} (pre post : α → σ)

/-- Each item begins in the state that the item before it left. -/
def Path : σ → List α → σ → Prop
  | s, [], t => s = t
  | s, a :: rest, t => pre a = s ∧ Path (post a) rest t

variable {pre post} {s t u : σ} {l k : List α}

theorem path_append (h : Path pre post s l t) (hk : Path pre post t k u) : Path pre post s (l ++ k) u := by
  induction l generalizing s with
  | nil =>
    cases h
    exact hk
  | cons a l ih => exact ⟨h.1, ih h.2⟩

/-- A path seen through a view of the state. -/
theorem path_image {τ : Type} (f : σ → τ) (h : Path pre post s l t) :
    Path (fun a => f (pre a)) (fun a => f (post a)) (f s) l (f t) := by
  induction l generalizing s with
  | nil => exact congrArg f h
  | cons a l ih => exact ⟨congrArg f h.1, ih h.2⟩

theorem path_flatMap {pre' post' : β → σ} {g : α → List β} (h : Path pre post s l t)
    (hg : ∀ a ∈ l, Path pre' post' (pre a) (g a) (post a)) : Path pre' post' s (l.flatMap g) t := by
  induction l generalizing s with
  | nil => exact h
  | cons a l ih =>
    obtain ⟨rfl, hrest⟩ := h
    rw [List.flatMap_cons]
    apply path_append (hg a List.mem_cons_self)
    exact ih hrest fun b hb => hg b (List.mem_cons_of_mem _ hb)

/-- Items that change nothing may be left out. -/
theorem path_filterMap {pre' post' : β → σ} {g : α → Option β} (h : Path pre post s l t)
    (hnone : ∀ a ∈ l, g a = none → post a = pre a)
    (hsome : ∀ a ∈ l, ∀ b, g a = some b → pre' b = pre a ∧ post' b = post a) : Path pre' post' s (l.filterMap g) t := by
  induction l generalizing s with
  | nil => exact h
  | cons a l ih =>
    obtain ⟨rfl, hrest⟩ := h
    have htail : Path pre' post' (post a) (l.filterMap g) t :=
      ih hrest (fun b hb => hnone b (List.mem_cons_of_mem _ hb)) fun b hb => hsome b (List.mem_cons_of_mem _ hb)
    cases hga : g a with
    | none =>
      rw [List.filterMap_cons_none hga, ← hnone a List.mem_cons_self hga]
      exact htail
    | some b =>
      obtain ⟨hpre, hpost⟩ := hsome a List.mem_cons_self b hga
      rw [List.filterMap_cons_some hga]
      refine ⟨hpre, ?_⟩
      rw [hpost]
      exact htail

/-- A path of items that are named otherwise. -/
theorem path_map {f : β → α} {l : List β} (h : Path (fun b => pre (f b)) (fun b => post (f b)) s l t) :
    Path pre post s (l.map f) t := by
  induction l generalizing s with
  | nil => exact h
  | cons b l ih => exact ⟨h.1, ih h.2⟩

/-- The invariant rule: each item finds the invariant. -/
theorem path_inv {I : σ → Prop} (h : Path pre post s l t) (hs : I s) (hl : ∀ a ∈ l, I (pre a) → I (post a)) :
    (∀ a ∈ l, I (pre a)) ∧ I t := by
  induction l generalizing s with
  | nil =>
    cases h
    exact ⟨fun _ ha => absurd ha List.not_mem_nil, hs⟩
  | cons a l ih =>
    obtain ⟨rfl, hrest⟩ := h
    obtain ⟨hbefore, hafter⟩ := ih hrest (hl a List.mem_cons_self hs) fun b hb => hl b (List.mem_cons_of_mem _ hb)
    refine ⟨?_, hafter⟩
    intro b hb
    rcases List.mem_cons.mp hb with rfl | hb
    · exact hs
    · exact hbefore b hb

theorem path_split {a : α} (h : Path pre post s (l ++ a :: k) t) :
    Path pre post s l (pre a) ∧ Path pre post (post a) k t := by
  induction l generalizing s with
  | nil => exact ⟨h.1.symm, h.2⟩
  | cons b l ih =>
    obtain ⟨hbefore, hafter⟩ := ih h.2
    exact ⟨⟨h.1, hbefore⟩, hafter⟩

/-- The rule for a relation that every item respects. -/
theorem path_rel {R : σ → σ → Prop} (hrefl : ∀ s, R s s) (htrans : ∀ {s t u}, R s t → R t u → R s u)
    (h : Path pre post s l t) (hl : ∀ a ∈ l, R (pre a) (post a)) : R s t := by
  induction l generalizing s with
  | nil =>
    cases h
    exact hrefl _
  | cons a l ih =>
    obtain ⟨rfl, hrest⟩ := h
    exact htrans (hl a List.mem_cons_self) (ih hrest fun b hb => hl b (List.mem_cons_of_mem _ hb))

theorem path_sum {M : Type} [AddCommMonoid M] {q : σ → M} {d : α → M} (h : Path pre post s l t)
    (hl : ∀ a ∈ l, q (post a) = q (pre a) + d a) : q t = q s + (l.map d).sum := by
  induction l generalizing s with
  | nil =>
    cases h
    simp
  | cons a l ih =>
    obtain ⟨rfl, hrest⟩ := h
    rw [ih hrest fun b hb => hl b (List.mem_cons_of_mem _ hb), hl a List.mem_cons_self, List.map_cons, List.sum_cons, add_assoc]

end paths

/-! ## Places -/

section places
variable {α κ : Type} (pre post : α → σ) (full : σ → κ → Prop) (fills clears : α → Option κ)

/-- An item leaves a place empty that it clears, and every place alone that it neither clears nor fills. -/
structure Tidy (a : α) : Prop where
  cleared : ∀ k, clears a = some k → fills a ≠ some k → ¬ full (post a) k
  kept : ∀ k, clears a ≠ some k → fills a ≠ some k → (full (post a) k ↔ full (pre a) k)

variable {pre post full fills clears} {s t : σ} {l : List α}

theorem full_iff {k : κ} (h : Path pre post s l t) (hl : ∀ a ∈ l, Tidy pre post full fills clears a)
    (hk : ∀ a ∈ l, fills a ≠ some k) : full t k ↔ full s k ∧ ∀ a ∈ l, clears a ≠ some k := by
  induction l generalizing s with
  | nil =>
    cases h
    exact ⟨fun hs => ⟨hs, fun _ ha => absurd ha List.not_mem_nil⟩, And.left⟩
  | cons a l ih =>
    obtain ⟨rfl, hrest⟩ := h
    have hrun := ih hrest (fun b hb => hl b (List.mem_cons_of_mem _ hb)) fun b hb => hk b (List.mem_cons_of_mem _ hb)
    have htidy := hl a List.mem_cons_self
    have hfill := hk a List.mem_cons_self
    rw [hrun, List.forall_mem_cons]
    by_cases hc : clears a = some k
    · constructor
      · intro hfull
        exact absurd hfull.1 (htidy.cleared k hc hfill)
      · intro hfull
        exact absurd hc hfull.2.1
    · rw [htidy.kept k hc hfill]
      constructor
      · intro hfull
        exact ⟨hfull.1, hc, hfull.2⟩
      · intro hfull
        exact ⟨hfull.1, hfull.2.2⟩

theorem finds_empty_iff {a : α} {k : κ} {before after : List α} (h : Path pre post s (before ++ a :: after) t)
    (hl : ∀ b ∈ before, Tidy pre post full fills clears b) (hone : ((before ++ a :: after).filterMap fills).Nodup)
    (hk : fills a = some k) : ¬ full (pre a) k ↔ ¬ full s k ∨ ∃ b ∈ before, clears b = some k := by
  have hnever : ∀ b ∈ before, fills b ≠ some k := by
    intro b hb hfill
    rw [List.filterMap_append, List.filterMap_cons_some hk] at hone
    exact (List.nodup_append.mp hone).2.2 k (List.mem_filterMap.mpr ⟨b, hb, hfill⟩) k List.mem_cons_self rfl
  rw [full_iff (path_split h).1 hl hnever, not_and_or]
  simp only [not_forall, not_not, exists_prop]

end places

end Runs
