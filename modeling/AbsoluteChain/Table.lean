import Mathlib.Order.Basic
import Mathlib.Algebra.BigOperators.Group.List.Basic
import Mathlib.Tactic.Ring
import Mathlib.Tactic.Abel

/-!
# Keyed tables

A finite table with a primary key, kept as its rows in strictly increasing key
order. Two tables with the same rows are equal, so a statement about what a table
holds can be read as an equation.
-/

namespace KeyedTable

variable {κ ρ : Type} [LinearOrder κ]

/-! ## Rows in key order -/

def getRow (k : κ) : List (κ × ρ) → Option ρ
  | [] => none
  | (a, x) :: t => if k = a then some x else getRow k t

def putRow (k : κ) (r : ρ) : List (κ × ρ) → List (κ × ρ)
  | [] => [(k, r)]
  | (a, x) :: t => if k < a then (k, r) :: (a, x) :: t else if k = a then (k, r) :: t else (a, x) :: putRow k r t

def Ordered (l : List (κ × ρ)) : Prop := l.Pairwise fun a b => a.1 < b.1

theorem Ordered.tail {a : κ × ρ} {l : List (κ × ρ)} (h : Ordered (a :: l)) : Ordered l :=
  (List.pairwise_cons.mp h).2

theorem Ordered.head_lt {a : κ × ρ} {l : List (κ × ρ)} (h : Ordered (a :: l)) : ∀ b ∈ l, a.1 < b.1 :=
  (List.pairwise_cons.mp h).1

theorem mem_putRow {k : κ} {r : ρ} {l : List (κ × ρ)} {p : κ × ρ} (h : p ∈ putRow k r l) :
    p = (k, r) ∨ p ∈ l := by
  induction l with
  | nil => left; simpa [putRow] using h
  | cons a l ih =>
    obtain ⟨a, x⟩ := a
    unfold putRow at h
    split at h
    · simpa using h
    · split at h
      · rcases List.mem_cons.mp h with h | h
        · exact .inl h
        · exact .inr (List.mem_cons_of_mem _ h)
      · rcases List.mem_cons.mp h with h | h
        · exact .inr (h ▸ List.mem_cons_self ..)
        · rcases ih h with h | h
          · exact .inl h
          · exact .inr (List.mem_cons_of_mem _ h)

theorem ordered_putRow (k : κ) (r : ρ) {l : List (κ × ρ)} (h : Ordered l) : Ordered (putRow k r l) := by
  induction l with
  | nil => exact List.pairwise_singleton _ _
  | cons a l ih =>
    obtain ⟨a, x⟩ := a
    unfold putRow
    split
    · rename_i hk
      refine List.pairwise_cons.mpr ⟨fun b hb => ?_, h⟩
      rcases List.mem_cons.mp hb with rfl | hb
      · exact hk
      · exact lt_trans hk (h.head_lt b hb)
    · split
      · rename_i he
        exact List.pairwise_cons.mpr ⟨fun b hb => he ▸ h.head_lt b hb, h.tail⟩
      · rename_i hlt hne
        refine List.pairwise_cons.mpr ⟨fun b hb => ?_, ih h.tail⟩
        rcases mem_putRow hb with rfl | hb
        · exact lt_of_le_of_ne (not_lt.mp hlt) (Ne.symm hne)
        · exact h.head_lt b hb

theorem getRow_putRow_same (k : κ) (r : ρ) (l : List (κ × ρ)) : getRow k (putRow k r l) = some r := by
  induction l with
  | nil => simp [putRow, getRow]
  | cons a l ih =>
    obtain ⟨a, x⟩ := a
    unfold putRow
    split
    · simp [getRow]
    · split
      · simp [getRow]
      · rename_i hne
        simp [getRow, hne, ih]

theorem getRow_putRow_ne {j k : κ} (h : j ≠ k) (r : ρ) (l : List (κ × ρ)) :
    getRow j (putRow k r l) = getRow j l := by
  induction l with
  | nil => simp [putRow, getRow, h]
  | cons a l ih =>
    obtain ⟨a, x⟩ := a
    unfold putRow
    split
    · simp [getRow, h]
    · split
      · rename_i he
        simp [getRow, h, ← he]
      · simp [getRow, ih]

theorem getRow_of_mem {k : κ} {r : ρ} {l : List (κ × ρ)} (ho : Ordered l) (h : (k, r) ∈ l) :
    getRow k l = some r := by
  induction l with
  | nil => cases h
  | cons a l ih =>
    obtain ⟨a, x⟩ := a
    rcases List.mem_cons.mp h with h | h
    · cases h; simp [getRow]
    · have := ho.head_lt _ h
      simp [getRow, ne_of_gt this, ih ho.tail h]

theorem mem_of_getRow {k : κ} {r : ρ} {l : List (κ × ρ)} (h : getRow k l = some r) : (k, r) ∈ l := by
  induction l with
  | nil => cases h
  | cons a l ih =>
    obtain ⟨a, x⟩ := a
    unfold getRow at h
    split at h
    · rename_i he
      cases h; subst he; exact List.mem_cons_self ..
    · exact List.mem_cons_of_mem _ (ih h)

/-! ## Tables -/

structure Table (κ ρ : Type) [LinearOrder κ] where
  rows : List (κ × ρ)
  ordered : Ordered rows

namespace Table

instance [DecidableEq ρ] : DecidableEq (Table κ ρ) := fun t u =>
  decidable_of_iff (t.rows = u.rows) ⟨fun h => by cases t; cases u; cases h; rfl, fun h => h ▸ rfl⟩

def empty : Table κ ρ := ⟨[], List.Pairwise.nil⟩

instance : Inhabited (Table κ ρ) := ⟨empty⟩

def get? (t : Table κ ρ) (k : κ) : Option ρ := getRow k t.rows

/-- `INSERT OR REPLACE` on the primary key. -/
def put (t : Table κ ρ) (k : κ) (r : ρ) : Table κ ρ := ⟨putRow k r t.rows, ordered_putRow k r t.ordered⟩

/-- `INSERT … ON CONFLICT DO UPDATE`. -/
def upsert (t : Table κ ρ) (k : κ) (f : Option ρ → ρ) : Table κ ρ := t.put k (f (t.get? k))

def update (t : Table κ ρ) (k : κ) (f : ρ → ρ) : Table κ ρ :=
  match t.get? k with
  | some r => t.put k (f r)
  | none => t

/-- `DELETE … WHERE NOT p`. -/
def keep (t : Table κ ρ) (p : κ → ρ → Bool) : Table κ ρ :=
  ⟨t.rows.filter fun e => p e.1 e.2, t.ordered.filter _⟩

/-- `ORDER BY key DESC LIMIT 1`. -/
def last? (t : Table κ ρ) : Option (κ × ρ) := t.rows.getLast?

def sum {M : Type} [AddCommMonoid M] (t : Table κ ρ) (f : ρ → M) : M := (t.rows.map fun e => f e.2).sum

theorem ext_rows {t u : Table κ ρ} (h : t.rows = u.rows) : t = u := by
  cases t; cases u; cases h; rfl

theorem mem_rows_iff (t : Table κ ρ) (k : κ) (r : ρ) : (k, r) ∈ t.rows ↔ t.get? k = some r :=
  ⟨getRow_of_mem t.ordered, mem_of_getRow⟩

theorem ext_get {t u : Table κ ρ} (h : ∀ k, t.get? k = u.get? k) : t = u := by
  apply ext_rows
  have anti : ∀ a b : κ × ρ, a ∈ t.rows → b ∈ u.rows → a.1 < b.1 → b.1 < a.1 → a = b :=
    fun a b _ _ hab hba => absurd hab (lt_asymm hba)
  refine List.Perm.eq_of_pairwise anti t.ordered u.ordered ?_
  have nd : ∀ v : Table κ ρ, v.rows.Nodup := fun v => v.ordered.imp fun hab he => absurd (he ▸ hab) (lt_irrefl _)
  refine (List.perm_ext_iff_of_nodup (nd t) (nd u)).mpr fun p => ?_
  rw [show p = (p.1, p.2) from rfl, mem_rows_iff, mem_rows_iff, h]

@[simp] theorem get_empty (k : κ) : (empty : Table κ ρ).get? k = none := rfl

@[simp] theorem get_put_same (t : Table κ ρ) (k : κ) (r : ρ) : (t.put k r).get? k = some r :=
  getRow_putRow_same k r t.rows

theorem get_put_ne (t : Table κ ρ) {j k : κ} (h : j ≠ k) (r : ρ) : (t.put k r).get? j = t.get? j :=
  getRow_putRow_ne h r t.rows

theorem get_put (t : Table κ ρ) (j k : κ) (r : ρ) :
    (t.put k r).get? j = if j = k then some r else t.get? j := by
  by_cases h : j = k
  · subst h; simp
  · simp [h, get_put_ne]

theorem get_upsert (t : Table κ ρ) (j k : κ) (f : Option ρ → ρ) :
    (t.upsert k f).get? j = if j = k then some (f (t.get? k)) else t.get? j :=
  get_put t j k _

theorem get_update (t : Table κ ρ) (j k : κ) (f : ρ → ρ) :
    (t.update k f).get? j = if j = k then (t.get? k).map f else t.get? j := by
  unfold update
  cases h : t.get? k with
  | none =>
    by_cases hj : j = k
    · subst hj; simp [h]
    · simp [hj]
  | some r => simp [get_put]

theorem getRow_map {σ : Type} (g : ρ → σ) (k : κ) (l : List (κ × ρ)) :
    getRow k (l.map fun e => (e.1, g e.2)) = (getRow k l).map g := by
  induction l with
  | nil => rfl
  | cons a l ih =>
    by_cases h : k = a.1
    · simp [getRow, h]
    · simp [getRow, h, ih]

def map {σ : Type} (t : Table κ ρ) (g : ρ → σ) : Table κ σ where
  rows := t.rows.map fun e => (e.1, g e.2)
  ordered := by
    have h : t.rows.Pairwise fun a b => a.1 < b.1 := t.ordered
    exact List.pairwise_map.mpr h

theorem get_map {σ : Type} (t : Table κ ρ) (g : ρ → σ) (k : κ) : (t.map g).get? k = (t.get? k).map g :=
  getRow_map g k t.rows

/-! ## Selecting rows -/

theorem get_keep (t : Table κ ρ) (p : κ → ρ → Bool) (k : κ) :
    (t.keep p).get? k = (t.get? k).filter (p k) := by
  cases h : t.get? k with
  | none =>
    cases h' : (t.keep p).get? k with
    | none => rfl
    | some r =>
      have := (mem_rows_iff _ _ _).mpr h'
      rw [(mem_rows_iff t k r).mp (List.mem_filter.mp this).1] at h
      cases h
  | some r =>
    have hm := (mem_rows_iff t k r).mpr h
    by_cases hp : p k r = true
    · have : (k, r) ∈ (t.keep p).rows := List.mem_filter.mpr ⟨hm, hp⟩
      rw [(mem_rows_iff _ _ _).mp this, Option.filter, if_pos hp]
    · cases h' : (t.keep p).get? k with
      | none => rw [Option.filter, if_neg hp]
      | some r' =>
        have hm' := List.mem_filter.mp ((mem_rows_iff _ _ _).mpr h')
        have := (mem_rows_iff t k r').mp hm'.1
        rw [h] at this; cases this
        exact absurd hm'.2 hp

theorem keep_eq_self {t : Table κ ρ} {p : κ → ρ → Bool} (h : ∀ k r, t.get? k = some r → p k r = true) :
    t.keep p = t := by
  apply ext_get; intro k
  rw [get_keep]
  cases hk : t.get? k with
  | none => rfl
  | some r => simp [h k r hk]

theorem last_mem {t : Table κ ρ} {k : κ} {r : ρ} (h : t.last? = some (k, r)) : t.get? k = some r :=
  (mem_rows_iff t k r).mp (List.mem_of_getLast? h)

theorem last_max {t : Table κ ρ} {k : κ} {r : ρ} (h : t.last? = some (k, r)) {j : κ} {r' : ρ}
    (hj : t.get? j = some r') : j ≤ k := by
  obtain ⟨l, hl⟩ := List.getLast?_eq_some_iff.mp h
  have hm := (mem_rows_iff t j r').mpr hj
  have ho := t.ordered
  rw [hl] at hm ho
  rcases List.mem_append.mp hm with hm | hm
  · exact le_of_lt ((List.pairwise_append.mp ho).2.2 _ hm _ (List.mem_singleton.mpr rfl))
  · rw [List.mem_singleton] at hm; cases hm; exact le_refl _

theorem last_eq_none {t : Table κ ρ} : t.last? = none ↔ t = empty := by
  constructor
  · intro h
    exact ext_rows (List.getLast?_eq_none_iff.mp h)
  · rintro rfl; rfl

theorem last_of_max {t : Table κ ρ} {k : κ} {r : ρ} (h : t.get? k = some r)
    (hm : ∀ j r', t.get? j = some r' → j ≤ k) : t.last? = some (k, r) := by
  cases hl : t.last? with
  | none =>
    rw [last_eq_none.mp hl] at h; cases h
  | some e =>
    obtain ⟨j, r'⟩ := e
    have hj := last_mem hl
    have : j = k := le_antisymm (hm j r' hj) (last_max hl h)
    subst this
    rw [h] at hj; cases hj; rfl

/-! ## Sums over a column -/

section Sum
variable {M : Type} [AddCommGroup M]

theorem sum_putRow (k : κ) (r : ρ) (f : ρ → M) {l : List (κ × ρ)} (ho : Ordered l) :
    ((putRow k r l).map fun e => f e.2).sum =
      (l.map fun e => f e.2).sum + f r - ((getRow k l).elim 0 f) := by
  induction l with
  | nil => simp [putRow, getRow]
  | cons a l ih =>
    obtain ⟨a, x⟩ := a
    unfold putRow getRow
    split
    · rename_i hlt
      have hn : getRow k l = none := by
        cases hg : getRow k l with
        | none => rfl
        | some r' => exact absurd (ho.head_lt _ (mem_of_getRow hg)) (not_lt_of_gt hlt)
      simp only [ne_of_lt hlt, if_false, hn, List.map_cons, List.sum_cons, Option.elim_none]; abel
    · split
      · rename_i he
        simp only [List.map_cons, List.sum_cons, Option.elim_some]; abel
      · simp only [List.map_cons, List.sum_cons, ih ho.tail]; abel

theorem sum_put (t : Table κ ρ) (k : κ) (r : ρ) (f : ρ → M) :
    (t.put k r).sum f = t.sum f + f r - (t.get? k).elim 0 f :=
  sum_putRow k r f t.ordered

end Sum

end Table

end KeyedTable
