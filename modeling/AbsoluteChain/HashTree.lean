import Mathlib.Data.Nat.Log
import Mathlib.Tactic.Ring

/-!
# Trees of hashes

A text that joins two hashes stands for the two texts that were hashed. The last tree
of an odd layer is paired with itself, leaves and inner nodes are hashed alike, and a
path of siblings may be longer or shorter than the tree is deep.
-/

namespace HashTree

/-- A hash whose value can be split off a joined text, on either side. -/
structure Hashing (T : Type) where
  hash : T → T
  join : T → T → T
  join_left : ∀ {a b s t}, join (hash a) s = join (hash b) t → hash a = hash b ∧ s = t
  join_right : ∀ {a b s t}, join s (hash a) = join t (hash b) → s = t ∧ hash a = hash b

inductive TextTree (T : Type) where
  | leaf (s : T)
  | node (l r : TextTree T)

/-- Siblings from the root down; the way goes right where the flag is set. -/
abbrev Path (T : Type) := List (Bool × T)

variable {T : Type} (h : Hashing T)

namespace TextTree

def text : TextTree T → T
  | leaf s => s
  | node l r => h.join (h.hash l.text) (h.hash r.text)

def rootHash (t : TextTree T) : T := h.hash (t.text h)

def texts : TextTree T → List T
  | leaf s => [s]
  | node l r => (node l r).text h :: (l.texts ++ r.texts)

def leaves : TextTree T → List T
  | leaf s => [s]
  | node l r => l.leaves ++ r.leaves

/-- All leaves at one depth. -/
def Perfect : ℕ → TextTree T → Prop
  | 0, leaf _ => True
  | d + 1, node l r => l.Perfect d ∧ r.Perfect d
  | _, _ => False

end TextTree

def combine (b : Bool) (s x : T) : T := if b then h.join s (h.hash x) else h.join (h.hash x) s

/-- What is hashed last on the way up from `x`. -/
def pathText : Path T → T → T
  | [], x => x
  | (b, s) :: path, x => combine h b s (pathText path x)

/-- What is hashed on the way up from `x`. -/
def pathTexts : Path T → T → List T
  | [], x => [x]
  | step :: path, x => pathText h (step :: path) x :: pathTexts path x

def TextTree.Leads : TextTree T → Path T → T → Prop
  | t, [], x => t.text h = x
  | .leaf s, step :: path, x => s = pathText h (step :: path) x
  | .node l r, (b, s) :: path, x =>
    if b then s = l.rootHash h ∧ r.Leads path x else s = r.rootHash h ∧ l.Leads path x

/-- Two trees that hash the same texts, as far as both have nodes. -/
def TextTree.Twin : TextTree T → TextTree T → Prop
  | .leaf s, u => s = u.text h
  | .node l r, .leaf s => (TextTree.node l r).text h = s
  | .node l r, .node l' r' => l.Twin l' ∧ r.Twin r'

/-- No two of these texts have the same hash. -/
def Apart (S : List T) : Prop := ∀ a ∈ S, ∀ b ∈ S, h.hash a = h.hash b → a = b

variable {h} {t u : TextTree T} {path : Path T} {x : T}

theorem Apart.mono {S S' : List T} (hs : Apart h S) (hsub : ∀ a ∈ S', a ∈ S) : Apart h S' :=
  fun a ha b hb => hs a (hsub a ha) b (hsub b hb)

theorem text_mem (t : TextTree T) : t.text h ∈ t.texts h := by
  cases t with
  | leaf s => exact List.mem_singleton_self s
  | node l r => exact List.mem_cons_self

theorem pathText_mem (path : Path T) (x : T) : pathText h path x ∈ pathTexts h path x := by
  cases path with
  | nil => exact List.mem_singleton_self x
  | cons step path => exact List.mem_cons_self

/-! ## Paths down a tree -/

theorem leads_text (hl : t.Leads h path x) : pathText h path x = t.text h := by
  induction t generalizing path with
  | leaf s =>
    cases path with
    | nil => exact hl.symm
    | cons step path => exact hl.symm
  | node l r ihl ihr =>
    cases path with
    | nil => exact hl.symm
    | cons step path =>
      obtain ⟨b, s⟩ := step
      unfold TextTree.Leads at hl
      unfold pathText combine
      cases b with
      | true =>
        obtain ⟨rfl, hr⟩ := hl
        simp only [if_true, ihr hr]
        rfl
      | false =>
        obtain ⟨rfl, hr⟩ := hl
        simp only [Bool.false_eq_true, if_false, ihl hr]
        rfl

/-- The way up ends at the root hash only along a way down the tree. -/
theorem leads_iff (hs : Apart h (t.texts h ++ pathTexts h path x)) :
    h.hash (pathText h path x) = t.rootHash h ↔ t.Leads h path x := by
  constructor
  · intro hhash
    have htext : pathText h path x = t.text h := hs _ (List.mem_append_right _ (pathText_mem path x)) _
      (List.mem_append_left _ (text_mem t)) hhash
    clear hhash
    induction t generalizing path with
    | leaf s =>
      cases path with
      | nil => exact htext.symm
      | cons step path => exact htext.symm
    | node l r ihl ihr =>
      cases path with
      | nil => exact htext.symm
      | cons step path =>
        obtain ⟨b, s⟩ := step
        unfold pathText combine at htext
        unfold TextTree.Leads
        cases b with
        | true =>
          simp only [if_true] at htext ⊢
          obtain ⟨hsib, hchild⟩ := h.join_right htext
          have hsub : ∀ a ∈ r.texts h ++ pathTexts h path x,
              a ∈ (TextTree.node l r).texts h ++ pathTexts h ((true, s) :: path) x := fun a ha =>
            (List.mem_append.mp ha).elim
              (fun ha => List.mem_append_left _ (List.mem_cons_of_mem _ (List.mem_append_right _ ha)))
              (fun ha => List.mem_append_right _ (List.mem_cons_of_mem _ ha))
          have hr := hs.mono hsub
          exact ⟨hsib, ihr hr (hr _ (List.mem_append_right _ (pathText_mem path x)) _
            (List.mem_append_left _ (text_mem r)) hchild)⟩
        | false =>
          simp only [Bool.false_eq_true, if_false] at htext ⊢
          obtain ⟨hchild, hsib⟩ := h.join_left htext
          have hsub : ∀ a ∈ l.texts h ++ pathTexts h path x,
              a ∈ (TextTree.node l r).texts h ++ pathTexts h ((false, s) :: path) x := fun a ha =>
            (List.mem_append.mp ha).elim
              (fun ha => List.mem_append_left _ (List.mem_cons_of_mem _ (List.mem_append_left _ ha)))
              (fun ha => List.mem_append_right _ (List.mem_cons_of_mem _ ha))
          have hl := hs.mono hsub
          exact ⟨hsib, ihl hl (hl _ (List.mem_append_right _ (pathText_mem path x)) _
            (List.mem_append_left _ (text_mem l)) hchild)⟩
  · intro hl
    exact congrArg h.hash (leads_text hl)

/-! ## Trees of one depth -/

theorem length_leaves {d : ℕ} {t : TextTree T} (hp : t.Perfect d) : t.leaves.length = 2 ^ d := by
  induction t generalizing d with
  | leaf s =>
    cases d with
    | zero => rfl
    | succ d => cases hp
  | node l r ihl ihr =>
    cases d with
    | zero => cases hp
    | succ d =>
      unfold TextTree.leaves
      rw [List.length_append, ihl hp.1, ihr hp.2, pow_succ]
      ring

def position : Path T → ℕ
  | [] => 0
  | (b, _) :: path => (if b then 2 ^ path.length else 0) + position path

theorem leads_leaf {d : ℕ} (hp : t.Perfect d) (hlen : path.length = d) (hl : t.Leads h path x) :
    t.leaves[position path]? = some x := by
  induction t generalizing path d with
  | leaf s =>
    cases d with
    | zero =>
      obtain rfl := List.eq_nil_of_length_eq_zero hlen
      exact congrArg some hl
    | succ d => cases hp
  | node l r ihl ihr =>
    cases d with
    | zero => cases hp
    | succ d =>
      cases path with
      | nil => cases hlen
      | cons step path =>
        obtain ⟨b, s⟩ := step
        have hlen' : path.length = d := Nat.succ.inj hlen
        have hleft := length_leaves hp.1
        unfold TextTree.Leads at hl
        unfold position TextTree.leaves
        cases b with
        | true =>
          have hin := ihr hp.2 hlen' hl.2
          rw [if_pos rfl, hlen', List.getElem?_append_right (by omega)]
          rwa [hleft, Nat.add_sub_cancel_left]
        | false =>
          have hin := ihl hp.1 hlen' hl.2
          rw [if_neg Bool.false_ne_true, Nat.zero_add, List.getElem?_append_left]
          · exact hin
          · exact (List.getElem?_eq_some_iff.mp hin).1

/-! ## Equal roots -/

theorem twin_text (hw : t.Twin h u) : t.text h = u.text h := by
  induction t generalizing u with
  | leaf s => exact hw
  | node l r ihl ihr =>
    cases u with
    | leaf s => exact hw
    | node l' r' =>
      unfold TextTree.text
      rw [ihl hw.1, ihr hw.2]

theorem twin_iff (hs : Apart h (t.texts h ++ u.texts h)) : t.rootHash h = u.rootHash h ↔ t.Twin h u := by
  constructor
  · intro hhash
    induction t generalizing u with
    | leaf s => exact hs _ (List.mem_append_left _ (text_mem _)) _ (List.mem_append_right _ (text_mem _)) hhash
    | node l r ihl ihr =>
      have htext := hs _ (List.mem_append_left _ (text_mem _)) _ (List.mem_append_right _ (text_mem _)) hhash
      cases u with
      | leaf s => exact htext
      | node l' r' =>
        have hleft := (h.join_left htext).1
        have hright := (h.join_right htext).2
        refine ⟨ihl (hs.mono fun a ha => ?_) hleft, ihr (hs.mono fun a ha => ?_) hright⟩
        · exact (List.mem_append.mp ha).elim
            (fun ha => List.mem_append_left _ (List.mem_cons_of_mem _ (List.mem_append_left _ ha)))
            (fun ha => List.mem_append_right _ (List.mem_cons_of_mem _ (List.mem_append_left _ ha)))
        · exact (List.mem_append.mp ha).elim
            (fun ha => List.mem_append_left _ (List.mem_cons_of_mem _ (List.mem_append_right _ ha)))
            (fun ha => List.mem_append_right _ (List.mem_cons_of_mem _ (List.mem_append_right _ ha)))
  · intro hw
    exact congrArg h.hash (twin_text hw)

theorem twin_leaves {d : ℕ} (ht : t.Perfect d) (hu : u.Perfect d) (hw : t.Twin h u) : t.leaves = u.leaves := by
  induction t generalizing u d with
  | leaf s =>
    cases d with
    | zero =>
      cases u with
      | leaf s' => exact congrArg (fun s => [s]) hw
      | node l r => cases hu
    | succ d => cases ht
  | node l r ihl ihr =>
    cases d with
    | zero => cases ht
    | succ d =>
      cases u with
      | leaf s' => cases hu
      | node l' r' =>
        unfold TextTree.leaves
        rw [ihl ht.1 hu.1 hw.1, ihr ht.2 hu.2 hw.2]

/-! ## Layers -/

def pairUp : List (TextTree T) → List (TextTree T)
  | [] => []
  | [t] => [.node t t]
  | t :: u :: rest => .node t u :: pairUp rest

theorem length_pairUp : ∀ l : List (TextTree T), (pairUp l).length = (l.length + 1) / 2
  | [] => by simp [pairUp]
  | [_] => by simp [pairUp]
  | _ :: _ :: rest => by
    have := length_pairUp rest
    simp only [pairUp, List.length_cons]
    omega

theorem perfect_pairUp {d : ℕ} : ∀ {l : List (TextTree T)}, (∀ t ∈ l, t.Perfect d) → ∀ t ∈ pairUp l, t.Perfect (d + 1)
  | [], _, _, ht => by cases ht
  | [t], hl, u, hu => by
    obtain rfl := List.mem_singleton.mp hu
    exact ⟨hl t List.mem_cons_self, hl t List.mem_cons_self⟩
  | t :: u :: rest, hl, v, hv => by
    rcases List.mem_cons.mp hv with rfl | hv
    · exact ⟨hl t List.mem_cons_self, hl u (List.mem_cons_of_mem _ List.mem_cons_self)⟩
    · exact perfect_pairUp (fun w hw => hl w (List.mem_cons_of_mem _ (List.mem_cons_of_mem _ hw))) v hv

theorem leaves_pairUp : ∀ l : List (TextTree T), l.flatMap TextTree.leaves <+: (pairUp l).flatMap TextTree.leaves
  | [] => List.prefix_rfl
  | [t] => by
    simp only [pairUp, List.flatMap_cons, List.flatMap_nil, List.append_nil, TextTree.leaves]
    exact List.prefix_append _ _
  | t :: u :: rest => by
    simp only [pairUp, List.flatMap_cons, TextTree.leaves, List.append_assoc]
    exact (List.prefix_append_right_inj _).mpr ((List.prefix_append_right_inj _).mpr (leaves_pairUp rest))

def pairAll (default : TextTree T) : ℕ → List (TextTree T) → TextTree T
  | _, [] => default
  | _, [t] => t
  | 0, t :: _ => t
  | n + 1, t :: u :: rest => pairAll default n (pairUp (t :: u :: rest))

theorem clog_pairUp {n : ℕ} (hn : 2 ≤ n) : Nat.clog 2 n = Nat.clog 2 ((n + 1) / 2) + 1 :=
  Nat.clog_of_two_le (le_refl 2) hn

theorem pairAll_spec (default : TextTree T) (n : ℕ) {d : ℕ} {l : List (TextTree T)} (hne : l ≠ []) (hlen : l.length ≤ n + 1)
    (hp : ∀ t ∈ l, t.Perfect d) :
    (pairAll default n l).Perfect (d + Nat.clog 2 l.length) ∧ l.flatMap TextTree.leaves <+: (pairAll default n l).leaves := by
  induction n generalizing d l with
  | zero =>
    match l, hne, hlen with
    | [t], _, _ =>
      refine ⟨?_, ?_⟩
      · exact hp t List.mem_cons_self
      · simp [pairAll]
  | succ n ih =>
    match l, hne, hlen with
    | [t], _, _ =>
      refine ⟨?_, ?_⟩
      · exact hp t List.mem_cons_self
      · simp [pairAll]
    | t :: u :: rest, _, hlen =>
      have hsize := length_pairUp (t :: u :: rest)
      have hnext : pairUp (t :: u :: rest) ≠ [] := by simp [pairUp]
      have hshort : (pairUp (t :: u :: rest)).length ≤ n + 1 := by
        simp only [List.length_cons] at hlen hsize ⊢
        omega
      obtain ⟨hperfect, hleaves⟩ := ih hnext hshort (perfect_pairUp hp)
      refine ⟨?_, (leaves_pairUp _).trans hleaves⟩
      have hlog : Nat.clog 2 (t :: u :: rest).length = Nat.clog 2 (((t :: u :: rest).length + 1) / 2) + 1 :=
        clog_pairUp (by simp)
      rwa [hsize, add_assoc, add_comm 1, ← hlog] at hperfect

theorem mem_leaves_pairUp {x : T} : ∀ {l : List (TextTree T)}, x ∈ (pairUp l).flatMap TextTree.leaves →
    x ∈ l.flatMap TextTree.leaves
  | [], hx => hx
  | [t], hx => by
    simp only [pairUp, List.flatMap_cons, List.flatMap_nil, List.append_nil, TextTree.leaves, List.mem_append, or_self] at hx ⊢
    exact hx
  | t :: u :: rest, hx => by
    simp only [pairUp, List.flatMap_cons, TextTree.leaves, List.mem_append] at hx ⊢
    rcases hx with (hx | hx) | hx
    · exact .inl hx
    · exact .inr (.inl hx)
    · exact .inr (.inr (mem_leaves_pairUp hx))

/-- No leaf is invented. -/
theorem mem_leaves_pairAll {x : T} (default : TextTree T) (n : ℕ) : ∀ {l : List (TextTree T)}, l ≠ [] →
    x ∈ (pairAll default n l).leaves → x ∈ l.flatMap TextTree.leaves := by
  induction n with
  | zero =>
    intro l hne hx
    match l, hne, hx with
    | t :: rest, _, hx =>
      refine List.mem_flatMap.mpr ⟨t, List.mem_cons_self, ?_⟩
      cases rest with
      | nil => exact hx
      | cons _ _ => exact hx
  | succ n ih =>
    intro l hne hx
    match l, hne, hx with
    | [t], _, hx => exact List.mem_flatMap.mpr ⟨t, List.mem_cons_self, hx⟩
    | t :: u :: rest, _, hx =>
      have hnext : pairUp (t :: u :: rest) ≠ [] := by simp [pairUp]
      exact mem_leaves_pairUp (ih hnext hx)

end HashTree
