import Mathlib.Logic.Relation
import Mathlib.Algebra.BigOperators.Group.Finset.Basic
import Mathlib.Algebra.BigOperators.Ring.Finset
import Mathlib.Algebra.Order.BigOperators.Group.List
import Mathlib.Algebra.Order.Group.Int

/-!
# Sums over descendants

A graph that is given by the list of children of each node. Without a cycle it has a
rank, and the weights of a node and of all that is below it add up level by level. What
is counted twice that way has two parents.
-/

namespace Descendants

variable {α : Type} (children : α → List α)

def Child (p c : α) : Prop := c ∈ children p

def Reaches : α → α → Prop := Relation.ReflTransGen (Child children)

def Acyclic : Prop := ∀ a, ¬ Relation.TransGen (Child children) a a

def Ranked (rank : α → Nat) : Prop := ∀ p, ∀ c ∈ children p, rank c < rank p

def sumBelow (weight : α → Int) : Nat → α → Int
  | 0, _ => 0
  | depth + 1, node => weight node + ((children node).map (sumBelow weight depth)).sum

def total (rank : α → Nat) (weight : α → Int) (node : α) : Int := sumBelow children weight (rank node + 1) node

/-- A weight of one at a single node. -/
def unit [DecidableEq α] (b : α) : α → Int := fun a => if a = b then 1 else 0

variable {children} {rank : α → Nat} {weight weight' : α → Int} {a b : α}

/-! ## Ranks -/

theorem Ranked.reaches (hr : Ranked children rank) (h : Reaches children a b) : rank b ≤ rank a := by
  induction h with
  | refl => exact le_refl _
  | tail _ hc ih => exact (hr _ _ hc).le.trans ih

theorem Ranked.acyclic (hr : Ranked children rank) : Acyclic children := by
  intro a h
  obtain ⟨b, hab, hba⟩ := Relation.TransGen.head'_iff.mp h
  exact absurd (hr a b hab) (not_lt.mpr (hr.reaches hba))

/-- Without a cycle, the number of nodes below is a rank. -/
theorem Acyclic.exists_rank (V : Finset α) (hV : ∀ p, ∀ c ∈ children p, c ∈ V) (h : Acyclic children) :
    ∃ rank, Ranked children rank := by
  classical
  refine ⟨fun a => (V.filter fun x => Relation.TransGen (Child children) a x).card, fun p c hc => ?_⟩
  apply Finset.card_lt_card
  refine Finset.ssubset_iff_subset_ne.mpr ⟨fun x hx => ?_, fun heq => ?_⟩
  · obtain ⟨hxV, hx⟩ := Finset.mem_filter.mp hx
    exact Finset.mem_filter.mpr ⟨hxV, .head hc hx⟩
  · have hin : c ∈ V.filter fun x => Relation.TransGen (Child children) p x :=
      Finset.mem_filter.mpr ⟨hV p c hc, .single hc⟩
    rw [← heq] at hin
    exact h c (Finset.mem_filter.mp hin).2

/-- A node without a rank is followed by another one. -/
theorem exists_child_of_not_acc (h : ¬ Acc (fun c p => Child children p c) a) :
    ∃ c ∈ children a, ¬ Acc (fun c p => Child children p c) c := by
  by_contra hall
  exact h (.intro a fun c hc => not_not.mp fun hn => hall ⟨c, hc, hn⟩)

theorem acyclic_of_acc (h : ∀ a, Acc (fun c p => Child children p c) a) : Acyclic children := by
  intro a hcycle
  have hwf : WellFounded (Relation.TransGen fun c p => Child children p c) := (WellFounded.intro h).transGen
  exact hwf.irrefl.irrefl a (Relation.transGen_swap.mp hcycle)

section ranked
variable (hr : Ranked children rank)
include hr

theorem Ranked.induct {P : α → Prop} (h : ∀ a, (∀ c ∈ children a, P c) → P a) (a : α) : P a := by
  have hall : ∀ n a, rank a < n → P a := by
    intro n
    induction n with
    | zero => exact fun a ha => absurd ha (Nat.not_lt_zero _)
    | succ n ih => exact fun a ha => h a fun c hc => ih c (by have := hr a c hc; omega)
  exact hall _ a (Nat.lt_succ_self _)

theorem sumBelow_stable (depth : Nat) : ∀ node, rank node < depth → ∀ d, rank node < d →
    sumBelow children weight depth node = sumBelow children weight d node := by
  induction depth with
  | zero => exact fun node h => absurd h (Nat.not_lt_zero _)
  | succ depth ih =>
    intro node hnode d hd
    obtain ⟨d, rfl⟩ : ∃ j, d = j + 1 := ⟨d - 1, by omega⟩
    unfold sumBelow
    congr 2
    apply List.map_congr_left
    intro c hc
    have := hr node c hc
    exact ih c (by omega) d (by omega)

/-! ## Totals -/

theorem total_eq (node : α) :
    total children rank weight node = weight node + ((children node).map (total children rank weight)).sum := by
  unfold total
  rw [sumBelow]
  congr 2
  apply List.map_congr_left
  intro c hc
  exact sumBelow_stable hr _ c (hr node c hc) _ (Nat.lt_succ_self _)

theorem total_congr (h : ∀ x, Reaches children a x → weight x = weight' x) :
    total children rank weight a = total children rank weight' a := by
  induction a using Ranked.induct hr with
  | h a ih =>
    rw [total_eq hr, total_eq hr, h a .refl, List.map_congr_left fun c hc => ih c hc fun x hx => h x (.head hc hx)]

theorem total_add : total children rank (fun x => weight x + weight' x) a =
    total children rank weight a + total children rank weight' a := by
  induction a using Ranked.induct hr with
  | h a ih =>
    rw [total_eq hr, total_eq hr, total_eq hr, List.map_congr_left ih, List.sum_map_add]
    omega

theorem total_zero : total children rank (fun _ => 0) a = 0 := by
  induction a using Ranked.induct hr with
  | h a ih => rw [total_eq hr, List.map_congr_left ih, List.sum_map_zero, add_zero]

theorem total_mul (k : Int) : total children rank (fun x => k * weight x) a = k * total children rank weight a := by
  induction a using Ranked.induct hr with
  | h a ih => rw [total_eq hr, total_eq hr, List.map_congr_left ih, List.sum_map_mul_left, mul_add]

theorem total_sum {ι : Type} (S : Finset ι) (w : ι → α → Int) :
    total children rank (fun x => ∑ i ∈ S, w i x) a = ∑ i ∈ S, total children rank (w i) a := by
  classical
  induction S using Finset.induction_on with
  | empty => simpa using total_zero hr
  | insert i S hi ih =>
    simp only [Finset.sum_insert hi]
    rw [total_add hr, ih]

theorem total_nonneg (h : ∀ x, 0 ≤ weight x) : 0 ≤ total children rank weight a := by
  induction a using Ranked.induct hr with
  | h a ih =>
    rw [total_eq hr]
    refine add_nonneg (h a) (List.sum_nonneg fun x hx => ?_)
    obtain ⟨c, hc, rfl⟩ := List.mem_map.mp hx
    exact ih c hc

theorem total_mono (h : ∀ x, weight x ≤ weight' x) : total children rank weight a ≤ total children rank weight' a := by
  have hsplit : total children rank weight' a =
      total children rank weight a + total children rank (fun x => weight' x - weight x) a := by
    rw [← total_add hr]
    exact total_congr hr fun x _ => by omega
  have := total_nonneg hr (a := a) fun x => Int.sub_nonneg_of_le (h x)
  omega

/-! ## How often a node is counted -/

section count
variable [DecidableEq α]

theorem total_unit_of_not_reaches (h : ¬ Reaches children a b) : total children rank (unit b) a = 0 := by
  have hzero : total children rank (fun _ => 0) a = 0 := total_zero hr
  rw [← hzero]
  refine total_congr hr fun x hx => if_neg ?_
  rintro rfl
  exact h hx

theorem total_unit_eq (hnodup : ∀ p, (children p).Nodup) : total children rank (unit b) a =
    unit b a + total children rank (fun p => if b ∈ children p then 1 else 0) a := by
  induction a using Ranked.induct hr with
  | h a ih =>
    have hparents := @total_eq _ children rank (fun p => if b ∈ children p then 1 else 0) hr a
    rw [total_eq hr, hparents, List.map_congr_left ih, List.sum_map_add]
    have hone : ((children a).map (unit b)).sum = if b ∈ children a then 1 else 0 := by
      have hcount : ((children a).map (unit b)).sum = ((children a).count b : Int) := by
        induction children a with
        | nil => rfl
        | cons c l ihl =>
          rw [List.map_cons, List.sum_cons, ihl, List.count_cons, unit]
          by_cases hc : c = b
          · simp [hc, add_comm]
          · simp [hc]
      rw [hcount]
      by_cases hb : b ∈ children a
      · rw [if_pos hb, List.count_eq_one_of_mem (hnodup a) hb]
        rfl
      · rw [if_neg hb, List.count_eq_zero.mpr hb]
        rfl
    rw [hone]

theorem total_unit_self (hnodup : ∀ p, (children p).Nodup) : total children rank (unit b) b = 1 := by
  have hnone : total children rank (fun p => if b ∈ children p then 1 else 0) b = total children rank (fun _ => 0) b := by
    refine total_congr hr fun p hp => if_neg fun hb => ?_
    exact hr.acyclic b (Relation.TransGen.tail' hp hb)
  rw [total_unit_eq hr hnodup, unit, if_pos rfl, hnone, total_zero hr]
  rfl

/-- A node counts at least as often as each of its parents. -/
theorem total_unit_le {p : α} (hnodup : ∀ p, (children p).Nodup) (hb : b ∈ children p) :
    total children rank (unit p) a ≤ total children rank (unit b) a := by
  rw [total_unit_eq hr hnodup (b := b)]
  have hle : total children rank (unit p) a ≤ total children rank (fun p => if b ∈ children p then 1 else 0) a := by
    refine total_mono hr fun x => ?_
    unfold unit
    by_cases hx : x = p
    · rw [if_pos hx, if_pos (hx ▸ hb)]
    · rw [if_neg hx]
      split <;> omega
  have hself : 0 ≤ unit b a := by
    unfold unit
    split <;> omega
  omega

theorem total_unit_le_of_reaches {p : α} (hnodup : ∀ p, (children p).Nodup) (h : Reaches children p b) :
    total children rank (unit p) a ≤ total children rank (unit b) a := by
  induction h with
  | refl => exact le_refl _
  | tail _ hc ih => exact ih.trans (total_unit_le hr hnodup hc)

theorem one_le_total_unit (hnodup : ∀ p, (children p).Nodup) (h : Reaches children a b) :
    1 ≤ total children rank (unit b) a := by
  rw [← total_unit_self hr hnodup (b := a)]
  exact total_unit_le_of_reaches hr hnodup h

/-- Two parents below one node make a child count twice there. -/
theorem two_le_total_unit {p q : α} (hnodup : ∀ p, (children p).Nodup) (hp : Reaches children a p)
    (hq : Reaches children a q) (hbp : b ∈ children p) (hbq : b ∈ children q) (hne : p ≠ q) :
    2 ≤ total children rank (unit b) a := by
  have hboth : total children rank (fun x => unit p x + unit q x) a ≤
      total children rank (fun p => if b ∈ children p then 1 else 0) a := by
    refine total_mono hr fun x => ?_
    unfold unit
    by_cases hxp : x = p
    · rw [if_pos hxp, if_neg (hxp ▸ hne), if_pos (hxp ▸ hbp)]
      omega
    · by_cases hxq : x = q
      · rw [if_neg hxp, if_pos hxq, if_pos (hxq ▸ hbq)]
        omega
      · rw [if_neg hxp, if_neg hxq]
        split <;> omega
  rw [total_add hr] at hboth
  have hpone := one_le_total_unit hr hnodup hp
  have hqone := one_le_total_unit hr hnodup hq
  have hself : 0 ≤ unit b a := by
    unfold unit
    split <;> omega
  rw [total_unit_eq hr hnodup]
  omega

/-- No node on the way has two parents. -/
def Single (children : α → List α) (a b : α) : Prop := ∀ x, Reaches children x b → ∀ p q, Reaches children a p →
  Reaches children a q → x ∈ children p → x ∈ children q → p = q

theorem total_unit_of_single (hnodup : ∀ p, (children p).Nodup) (h : Reaches children a b) (hs : Single children a b) :
    total children rank (unit b) a = 1 := by
  induction h with
  | refl => exact total_unit_self hr hnodup
  | @tail p c hp hc ih =>
    have hne : a ≠ c := by
      rintro rfl
      exact hr.acyclic a (Relation.TransGen.tail' hp hc)
    have hsame : total children rank (fun p => if c ∈ children p then 1 else 0) a = total children rank (unit p) a := by
      refine total_congr hr fun x hx => ?_
      unfold unit
      by_cases hxp : x = p
      · rw [if_pos hxp, if_pos (hxp ▸ hc)]
      · rw [if_neg hxp, if_neg fun hxc => hxp (hs c .refl x p hx hp hxc hc)]
    rw [total_unit_eq hr hnodup, unit, if_neg hne, hsame, ih fun x hx => hs x (hx.tail hc)]
    rfl

/-- A node below `a` counts once in it exactly when no node on the way has two parents below `a`. -/
theorem total_unit_iff_single (hnodup : ∀ p, (children p).Nodup) (h : Reaches children a b) :
    total children rank (unit b) a = 1 ↔ Single children a b := by
  constructor
  · intro hone x hx p q hp hq hxp hxq
    by_contra hne
    have htwo := two_le_total_unit hr hnodup hp hq hxp hxq hne
    have := total_unit_le_of_reaches hr hnodup hx (a := a)
    omega
  · exact total_unit_of_single hr hnodup h

theorem total_eq_sum (hnodup : ∀ p, (children p).Nodup) (V : Finset α) [DecidablePred (Reaches children a)]
    (hV : ∀ x, Reaches children a x → x ∈ V) (hs : ∀ b, Reaches children a b → Single children a b) :
    total children rank weight a = ∑ d ∈ V with Reaches children a d, weight d := by
  have hspread : total children rank weight a = total children rank (fun x => ∑ d ∈ V, weight d * unit d x) a := by
    refine total_congr hr fun x hx => ?_
    rw [Finset.sum_eq_single_of_mem x (hV x hx)]
    · rw [unit, if_pos rfl, mul_one]
    · intro d _ hd
      rw [unit, if_neg hd.symm, mul_zero]
  rw [hspread, total_sum hr, Finset.sum_filter]
  refine Finset.sum_congr rfl fun d _ => ?_
  rw [total_mul hr]
  by_cases hd : Reaches children a d
  · rw [if_pos hd, (total_unit_iff_single hr hnodup hd).mpr (hs d hd), mul_one]
  · rw [if_neg hd, total_unit_of_not_reaches hr hd, mul_zero]

end count

end ranked

end Descendants
