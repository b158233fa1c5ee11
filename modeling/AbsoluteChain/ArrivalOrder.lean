import AbsoluteChain.Attestations
import AbsoluteChain.FinalitySound
import Mathlib.Data.Prod.Lex

/-!
# The order in which blocks arrive

`ConsensusEngineSlashing.add_block` under a reordering of its blocks. A parent that
is not known yet gets a node of its own, and the block that comes later does not
complete that node.
-/

namespace AbsoluteChain

open Python Runs

namespace ForkTree

variable {f f' : ForkTree} {b : ForkBlock} {l : List ForkBlock}

/-! ## The choice among siblings -/

def key (f : ForkTree) (weight : Int) (hash : String) : Int ×ₗ Int ×ₗ Stringᵒᵈ :=
  toLex (weight, toLex (f.number hash, OrderDual.toDual hash))

theorem key_lt {v w : Int} {c d : String} : f.key v c < f.key w d ↔
    v < w ∨ v = w ∧ (f.number c < f.number d ∨ f.number c = f.number d ∧ d < c) := by
  simp [key, Prod.Lex.toLex_lt_toLex]

theorem key_inj {v w : Int} {c d : String} (h : f.key v c = f.key w d) : c = d := by
  simp [key] at h
  exact h.2.2

theorem better_none (c : String) (v w : Int) :
    f.better c v (none, w) = if w < v then (some c, v) else (none, w) := by
  unfold better
  split
  · rfl
  · simp

theorem better_some (c b : String) (v w : Int) :
    f.better c v (some b, w) = if f.key w b < f.key v c then (some c, v) else (some b, w) := by
  unfold better
  by_cases hw : w < v
  · rw [if_pos hw, if_pos (key_lt.mpr (.inl hw))]
  · rw [if_neg hw]
    by_cases heq : v = w
    · subst heq
      by_cases hn : f.number b < f.number c
      · simp [key_lt, hn]
      · by_cases hc : f.number c = f.number b ∧ c < b
        · simp [key_lt, hc]
        · have hkey : ¬ f.key v b < f.key v c := by
            rw [key_lt]
            rintro (h | ⟨-, h | ⟨h, hcb⟩⟩)
            · exact hw h
            · exact hn h
            · exact hc ⟨h.symm, hcb⟩
          rw [if_neg hkey, if_pos rfl]
          dsimp only
          rw [if_neg hn, if_neg hc]
    · simp [key_lt, hw, heq, Ne.symm heq]

theorem better_comm (total : String → Int) (c d : String) (best : Option String × Int) :
    f.better d (total d) (f.better c (total c) best) = f.better c (total c) (f.better d (total d) best) := by
  obtain ⟨b, w⟩ := best
  have hboth : f.better d (total d) (some c, total c) = f.better c (total c) (some d, total d) := by
    rw [better_some, better_some]
    rcases lt_trichotomy (f.key (total c) c) (f.key (total d) d) with h | h | h
    · rw [if_pos h, if_neg h.asymm]
    · cases key_inj h
      rfl
    · rw [if_neg h.asymm, if_pos h]
  cases b with
  | none =>
    rw [better_none, better_none]
    by_cases hc : w < total c
    · by_cases hd : w < total d
      · rw [if_pos hc, if_pos hd, hboth]
      · have hdc : ¬ f.key (total c) c < f.key (total d) d := fun h => by
          rcases key_lt.mp h with h | h <;> omega
        rw [if_pos hc, if_neg hd, better_some, if_neg hdc, better_none, if_pos hc]
    · by_cases hd : w < total d
      · have hcd : ¬ f.key (total d) d < f.key (total c) c := fun h => by
          rcases key_lt.mp h with h | h <;> omega
        rw [if_neg hc, if_pos hd, better_some, if_neg hcd, better_none, if_pos hd]
      · rw [if_neg hc, if_neg hd, better_none, better_none, if_neg hc, if_neg hd]
  | some b =>
    rw [better_some c, better_some d]
    by_cases hc : f.key w b < f.key (total c) c
    · by_cases hd : f.key w b < f.key (total d) d
      · rw [if_pos hc, if_pos hd, hboth]
      · have hdc : ¬ f.key (total c) c < f.key (total d) d := fun h => hd (hc.trans h)
        rw [if_pos hc, if_neg hd, better_some, if_neg hdc, better_some, if_pos hc]
    · by_cases hd : f.key w b < f.key (total d) d
      · have hcd : ¬ f.key (total d) d < f.key (total c) c := fun h => hc (hd.trans h)
        rw [if_neg hc, if_pos hd, better_some d b, if_pos hd, better_some c d, if_neg hcd]
      · rw [if_neg hc, if_neg hd, better_some, better_some, if_neg hc, if_neg hd]

theorem pick_perm (total : String → Int) {k k' : List String} (h : k.Perm k') : f.pick total k = f.pick total k' := by
  unfold pick
  rw [h.foldl_eq' fun x _ y _ z => better_comm total x y z]

theorem pick_congr {total : String → Int} {k : List String} (hnumber : ∀ c ∈ k, f.number c = f'.number c) :
    f.pick total k = f'.pick total k := by
  have hfold : ∀ (j : List String) (best : Option String × Int), (∀ c ∈ j, f.number c = f'.number c) →
      (∀ c, best.1 = some c → f.number c = f'.number c) →
      j.foldl (fun best child => f.better child (total child) best) best =
        j.foldl (fun best child => f'.better child (total child) best) best := by
    intro j
    induction j with
    | nil => exact fun _ _ _ => rfl
    | cons c j ih =>
      intro best hj hbest
      have hc := hj c List.mem_cons_self
      have hstep : f.better c (total c) best = f'.better c (total c) best := by
        unfold better
        cases hb : best.1 with
        | none => rfl
        | some b => simp only [hc, hbest b hb]
      rw [List.foldl_cons, List.foldl_cons, hstep]
      apply ih _ fun d hd => hj d (List.mem_cons_of_mem _ hd)
      intro d hd
      rcases better_mem (f := f') c (total c) best with h | h
      · rw [h] at hd
        cases hd
        exact hc
      · exact hbest d (h ▸ hd)
  unfold pick
  rw [hfold k _ hnumber fun c h => by cases h]

/-! ## Two trees with the same children -/

theorem below_congr (weight : String → Int) (hchildren : ∀ h, (f.children h).Perm (f'.children h)) (depth : Nat) :
    ∀ node, f.below weight depth node = f'.below weight depth node := by
  induction depth with
  | zero => exact fun _ => rfl
  | succ depth ih =>
    intro node
    rw [below, below, ((hchildren node).map _).sum_eq]
    congr 2
    exact List.map_congr_left fun c _ => ih c

theorem headBelow_congr {total : String → Int} (hchildren : ∀ h, (f.children h).Perm (f'.children h))
    (hnumber : ∀ h, ∀ c ∈ f.children h, f.number c = f'.number c) (depth : Nat) :
    ∀ node, f.headBelow total depth node = f'.headBelow total depth node := by
  induction depth with
  | zero => exact fun _ => rfl
  | succ depth ih =>
    intro node
    rw [headBelow, headBelow, pick_congr (hnumber node), pick_perm total (hchildren node)]
    cases f'.pick total (f'.children node) with
    | none => rfl
    | some best => exact ih best

/-! ## The tree that a list of blocks grows -/

def data (f : ForkTree) (hash : String) : Option (Option String × Int) :=
  (f.tree.get? hash).map fun node => (node.parent, node.number)

def mention (hash : String) (b : ForkBlock) : Option (Option String × Int) :=
  if hash = b.hash then some (b.parent, b.number) else if b.link = some hash then some (none, 0) else none

def grow (l : List ForkBlock) (f : ForkTree) : ForkTree := l.foldl (fun f b => f.addBlock b) f

theorem number_eq_data (hash : String) : f.number hash = ((f.data hash).map Prod.snd).getD 0 := by
  unfold number data
  cases f.tree.get? hash <;> rfl

def place (b : ForkBlock) (f : ForkTree) : Dict String TreeNode :=
  if f.tree.contains b.hash then f.tree else f.tree.set b.hash { parent := b.parent, children := [], number := b.number }

theorem get?_place (b : ForkBlock) (hash : String) : (place b f).get? hash =
    (f.tree.get? hash).or (if hash = b.hash then some { parent := b.parent, children := [], number := b.number } else none) := by
  unfold place Dict.contains
  by_cases hh : hash = b.hash
  · rw [if_pos hh, hh]
    cases hg : f.tree.get? b.hash with
    | none =>
      rw [if_neg (by simp), Dict.get?_set_self]
      rfl
    | some node =>
      rw [if_pos Option.isSome_some, hg]
      rfl
  · rw [if_neg hh, Option.or_none]
    split
    · rfl
    · exact Dict.get?_set_of_ne _ hh _

def adopt (c : String) (node : Option TreeNode) : TreeNode :=
  let node := node.getD { parent := none, children := [], number := 0 }
  { node with children := if c ∈ node.children then node.children else node.children ++ [c] }

theorem tree_addBlock (b : ForkBlock) : (f.addBlock b).tree =
    match b.link with
    | none => place b f
    | some parent => (place b f).set parent (adopt b.hash ((place b f).get? parent)) := by
  unfold addBlock place
  cases b.link <;> rfl

theorem get?_addBlock (b : ForkBlock) (hash : String) : (f.addBlock b).tree.get? hash =
    if b.link = some hash then some (adopt b.hash ((place b f).get? hash)) else (place b f).get? hash := by
  rw [tree_addBlock]
  cases b.link with
  | none => rfl
  | some parent =>
    rw [Dict.get?_set]
    by_cases hh : hash = parent
    · rw [if_pos hh, if_pos (congrArg some hh.symm), hh]
    · rw [if_neg hh, if_neg fun h => hh (Option.some.inj h).symm]

theorem data_addBlock (b : ForkBlock) (hash : String) :
    (f.addBlock b).data hash = (f.data hash).or (mention hash b) := by
  unfold data mention
  rw [get?_addBlock, get?_place]
  cases f.tree.get? hash with
  | some node => by_cases hp : b.link = some hash <;> simp [hp, adopt]
  | none =>
    by_cases hh : hash = b.hash
    · subst hh
      by_cases hp : b.link = some b.hash <;> simp [hp, adopt]
    · by_cases hp : b.link = some hash <;> simp [hp, hh, adopt]

theorem children_addBlock (b : ForkBlock) (hash : String) : (f.addBlock b).children hash =
    if b.link = some hash ∧ b.hash ∉ f.children hash then f.children hash ++ [b.hash] else f.children hash := by
  have hplace : (((place b f).get? hash).map TreeNode.children).getD [] = f.children hash := by
    rw [get?_place]
    unfold children
    cases f.tree.get? hash with
    | some node => rfl
    | none => by_cases hh : hash = b.hash <;> simp [hh]
  have hchildren : (f.addBlock b).children hash = (((f.addBlock b).tree.get? hash).map TreeNode.children).getD [] := rfl
  rw [hchildren, get?_addBlock]
  by_cases hp : b.link = some hash
  · have hnode : (((place b f).get? hash).getD { parent := none, children := [], number := 0 }).children =
        f.children hash := by
      rw [← hplace]
      cases (place b f).get? hash <;> rfl
    rw [if_pos hp, Option.map_some, Option.getD_some, adopt]
    dsimp only
    rw [hnode]
    by_cases hin : b.hash ∈ f.children hash
    · rw [if_pos hin, if_neg fun h => h.2 hin]
    · rw [if_neg hin, if_pos ⟨hp, hin⟩]
  · rw [if_neg hp, if_neg fun h => hp h.1]
    exact hplace

theorem keyed_addBlock (h : f.tree.Keyed) (b : ForkBlock) : (f.addBlock b).tree.Keyed := by
  have hplace : (place b f).Keyed := by
    unfold place
    split
    · exact h
    · exact h.set _ _
  rw [tree_addBlock]
  cases b.link with
  | none => exact hplace
  | some parent => exact hplace.set _ _

theorem data_grow (l : List ForkBlock) (hash : String) : (grow l f).data hash = (f.data hash).or (l.findSome? (mention hash)) := by
  induction l generalizing f with
  | nil => exact (Option.or_none).symm
  | cons b l ih =>
    rw [grow, List.foldl_cons, ← grow, ih, data_addBlock, Option.or_assoc, List.findSome?_cons]
    cases mention hash b <;> rfl

theorem mem_children_grow (l : List ForkBlock) (hash c : String) :
    c ∈ (grow l f).children hash ↔ c ∈ f.children hash ∨ ∃ b ∈ l, b.link = some hash ∧ b.hash = c := by
  induction l generalizing f with
  | nil => simp [grow]
  | cons b l ih =>
    have hstep : c ∈ (f.addBlock b).children hash ↔ c ∈ f.children hash ∨ b.link = some hash ∧ b.hash = c := by
      rw [children_addBlock]
      split
      · rename_i hb
        rw [List.mem_append, List.mem_singleton]
        simp [hb.1, eq_comm]
      · rename_i hb
        constructor
        · exact .inl
        · rintro (hc | ⟨hp, rfl⟩)
          · exact hc
          · exact not_not.mp fun hin => hb ⟨hp, hin⟩
    rw [grow, List.foldl_cons, ← grow, ih, hstep]
    simp only [List.mem_cons, exists_eq_or_imp, or_assoc]

theorem nodup_children_grow (l : List ForkBlock) (hash : String) (h : (f.children hash).Nodup) :
    ((grow l f).children hash).Nodup := by
  induction l generalizing f with
  | nil => exact h
  | cons b l ih =>
    rw [grow, List.foldl_cons, ← grow]
    apply ih
    rw [children_addBlock]
    split
    · rename_i hb
      rw [← List.concat_eq_append]
      exact h.concat hb.2
    · exact h

theorem keyed_grow (l : List ForkBlock) (h : f.tree.Keyed) : (grow l f).tree.Keyed := by
  induction l generalizing f with
  | nil => exact h
  | cons b l ih => exact ih (keyed_addBlock h b)

def parentOf (f : ForkTree) (hash : String) : Option (Option String) := (f.data hash).map Prod.fst

theorem genesis_iff (hkeyed : f.tree.Keyed)
    (hone : ∀ g h, f.parentOf g = some none → f.parentOf h = some none → g = h) {g : String} :
    f.genesis = some g ↔ f.parentOf g = some none := by
  have hentry : ∀ e ∈ f.tree, e.2.parent.isNone = true ↔ f.parentOf e.1 = some none := by
    intro e he
    unfold parentOf data
    rw [hkeyed.get?_of_mem (k := e.1) (v := e.2) he, Option.map_some, Option.map_some, Option.some_inj, Option.isNone_iff_eq_none]
  unfold genesis
  constructor
  · intro h
    obtain ⟨e, he, rfl⟩ := Option.map_eq_some_iff.mp h
    exact (hentry e (List.mem_of_find?_eq_some he)).mp (List.find?_some (p := fun e : String × TreeNode => e.2.parent.isNone) he)
  · intro h
    have hg := h
    unfold parentOf data at hg
    cases hnode : f.tree.get? g with
    | none =>
      rw [hnode] at hg
      cases hg
    | some node =>
      have hmem := Dict.mem_of_get? hnode
      cases hfind : f.tree.find? fun e => e.2.parent.isNone with
      | none =>
        have hnone := List.find?_eq_none.mp hfind _ hmem
        exact absurd ((hentry _ hmem).mpr h) hnone
      | some e =>
        have he := (hentry e (List.mem_of_find?_eq_some hfind)).mp
          (List.find?_some (p := fun e : String × TreeNode => e.2.parent.isNone) hfind)
        rw [Option.map_some, hone _ _ he h]

end ForkTree

/-! ## Blocks that form a tree -/

def Top (l : List ForkBlock) (hash : String) : Prop :=
  (∃ b ∈ l, b.hash = hash ∧ b.parent = none) ∨ (∃ b ∈ l, b.link = some hash) ∧ ∀ b ∈ l, b.hash ≠ hash

structure FormsTree (l : List ForkBlock) : Prop where
  distinct : (l.map ForkBlock.hash).Nodup
  one_top : ∀ g h, Top l g → Top l h → g = h
  acyclic : ∃ rank : String → Nat, ∀ b ∈ l, ∀ p, b.link = some p → rank b.hash < rank p

def ParentsFirst (l : List ForkBlock) : Prop := l.Pairwise fun c b => c.link = some b.hash → b.parent = none

instance (l : List ForkBlock) : Decidable (ParentsFirst l) := inferInstanceAs (Decidable (l.Pairwise _))

section orders
variable {l l' : List ForkBlock} {b : ForkBlock} {hash : String}

theorem top_perm (h : l'.Perm l) : Top l' hash ↔ Top l hash := by
  simp only [Top, h.mem_iff]

theorem FormsTree.perm (hl : FormsTree l) (h : l'.Perm l) : FormsTree l' := by
  obtain ⟨rank, hrank⟩ := hl.acyclic
  refine ⟨(h.map _).nodup_iff.mpr hl.distinct, ?_, rank, fun b hb => hrank b (h.mem_iff.mp hb)⟩
  intro g k hg hk
  exact hl.one_top g k ((top_perm h).mp hg) ((top_perm h).mp hk)

theorem FormsTree.eq_of_hash (hl : FormsTree l) {c : ForkBlock} (hb : b ∈ l) (hc : c ∈ l) (h : b.hash = c.hash) : b = c :=
  List.inj_on_of_nodup_map hl.distinct hb hc h

open ForkTree

theorem data_grown (l : List ForkBlock) (hash : String) : (grow l .empty).data hash = l.findSome? (mention hash) := by
  rw [data_grow]
  rfl

theorem parent_grown {p : String} {n : Int} (h : (grow l .empty).data hash = some (some p, n)) :
    ∃ b ∈ l, b.hash = hash ∧ b.parent = some p ∧ b.number = n := by
  rw [data_grown] at h
  obtain ⟨b, hb, hm⟩ := List.exists_of_findSome?_eq_some h
  unfold mention at hm
  split at hm
  · rename_i hh
    simp only [Option.some_inj, Prod.mk.injEq] at hm
    exact ⟨b, hb, hh.symm, hm⟩
  · split at hm
    · cases hm
    · cases hm

theorem own_node (hl : FormsTree l) (hfirst : ParentsFirst l) (hb : b ∈ l) (hp : b.parent ≠ none) :
    (grow l .empty).data b.hash = some (b.parent, b.number) := by
  rw [data_grown]
  obtain ⟨s, t, rfl⟩ := List.append_of_mem hb
  have hbefore : s.findSome? (mention b.hash) = none := by
    rw [List.findSome?_eq_none_iff]
    intro c hc
    have hne : b.hash ≠ c.hash := by
      intro h
      have hnodup := hl.distinct
      rw [List.map_append, List.nodup_append] at hnodup
      exact hnodup.2.2 c.hash (List.mem_map_of_mem hc) b.hash (List.mem_map_of_mem List.mem_cons_self) h.symm
    have hnot : c.link ≠ some b.hash := fun h => hp ((List.pairwise_append.mp hfirst).2.2 c hc b List.mem_cons_self h)
    rw [mention, if_neg hne, if_neg hnot]
  rw [List.findSome?_append, hbefore, List.findSome?_cons, mention, if_pos rfl]
  rfl

/-- A block that comes after one of its children has a node without a parent. -/
theorem placeholder (hl : FormsTree l) (hfirst : ¬ ParentsFirst l) :
    ∃ b ∈ l, b.parent ≠ none ∧ (grow l .empty).parentOf b.hash = some none := by
  rw [ParentsFirst, List.pairwise_iff_forall_sublist] at hfirst
  simp only [not_forall] at hfirst
  obtain ⟨c, b, hsub, hc, hp⟩ := hfirst
  obtain ⟨s, t, rfl, hcs, hbt⟩ := List.cons_sublist_iff.mp hsub
  have hb := List.singleton_sublist.mp hbt
  refine ⟨b, List.mem_append_right _ hb, hp, ?_⟩
  have hmention : mention b.hash c ≠ none := by
    unfold mention
    split
    · exact Option.some_ne_none _
    · exact Option.some_ne_none _
  unfold parentOf
  rw [data_grown, List.findSome?_append]
  cases hs : s.findSome? (mention b.hash) with
  | none => exact absurd (List.findSome?_eq_none_iff.mp hs c hcs) hmention
  | some node =>
    obtain ⟨d, hd, hm⟩ := List.exists_of_findSome?_eq_some hs
    have hne : b.hash ≠ d.hash := by
      intro h
      have hnodup := hl.distinct
      rw [List.map_append, List.nodup_append] at hnodup
      exact hnodup.2.2 d.hash (List.mem_map_of_mem hd) b.hash (List.mem_map_of_mem hb) h.symm
    rw [mention, if_neg hne] at hm
    split at hm
    · cases hm
      rfl
    · cases hm

theorem parentOf_some (hl : FormsTree l) (hfirst : ParentsFirst l) {p : String} :
    (grow l .empty).parentOf hash = some (some p) ↔ ∃ b ∈ l, b.hash = hash ∧ b.parent = some p := by
  constructor
  · intro h
    obtain ⟨⟨_, n⟩, hd, rfl⟩ := Option.map_eq_some_iff.mp h
    obtain ⟨b, hb, hh, hp, -⟩ := parent_grown hd
    exact ⟨b, hb, hh, hp⟩
  · rintro ⟨b, hb, rfl, hp⟩
    rw [parentOf, own_node hl hfirst hb (by rw [hp]; exact Option.some_ne_none p), hp]
    rfl

theorem parentOf_none (hl : FormsTree l) (hfirst : ParentsFirst l) :
    (grow l .empty).parentOf hash = some none ↔ Top l hash := by
  constructor
  · intro h
    obtain ⟨node, hd, hnode⟩ := Option.map_eq_some_iff.mp h
    by_cases hin : ∃ b ∈ l, b.hash = hash
    · obtain ⟨b, hb, rfl⟩ := hin
      refine .inl ⟨b, hb, rfl, not_not.mp fun hp => ?_⟩
      rw [own_node hl hfirst hb hp] at hd
      cases hd
      exact hp hnode
    · rw [data_grown] at hd
      obtain ⟨c, hc, hm⟩ := List.exists_of_findSome?_eq_some hd
      rw [mention, if_neg fun hh => hin ⟨c, hc, hh.symm⟩] at hm
      split at hm
      · rename_i hp
        exact .inr ⟨⟨c, hc, hp⟩, fun b hb hh => hin ⟨b, hb, hh⟩⟩
      · cases hm
  · intro htop
    unfold parentOf
    cases hd : (grow l .empty).data hash with
    | none =>
      -- some block mentions the top
      rw [data_grown] at hd
      have hnone := List.findSome?_eq_none_iff.mp hd
      rcases htop with ⟨b, hb, rfl, -⟩ | ⟨⟨c, hc, hp⟩, hout⟩
      · have h := hnone b hb
        rw [mention, if_pos rfl] at h
        cases h
      · have h := hnone c hc
        rw [mention, if_neg (Ne.symm (hout c hc)), if_pos hp] at h
        cases h
    | some node =>
      obtain ⟨parent, n⟩ := node
      cases parent with
      | none => rfl
      | some p =>
        obtain ⟨b, hb, hh, hp, -⟩ := parent_grown hd
        rcases htop with ⟨c, hc, hch, hcp⟩ | ⟨-, hout⟩
        · rw [hl.eq_of_hash hb hc (hh.trans hch.symm), hcp] at hp
          cases hp
        · exact absurd hh (hout b hb)

theorem parentOf_perm (hl : FormsTree l) (hp : l'.Perm l) (hfirst : ParentsFirst l) (hfirst' : ParentsFirst l')
    (hash : String) : (grow l' .empty).parentOf hash = (grow l .empty).parentOf hash := by
  apply Option.ext
  intro parent
  cases parent with
  | none => rw [parentOf_none (hl.perm hp) hfirst', parentOf_none hl hfirst, top_perm hp]
  | some p =>
    rw [parentOf_some (hl.perm hp) hfirst', parentOf_some hl hfirst]
    simp only [hp.mem_iff]

theorem mem_children_grown (l : List ForkBlock) (hash c : String) :
    c ∈ (grow l .empty).children hash ↔ ∃ b ∈ l, b.link = some hash ∧ b.hash = c := by
  rw [mem_children_grow]
  exact or_iff_right List.not_mem_nil

/-- The children never depend on the order. -/
theorem children_perm (hp : l'.Perm l) (hash : String) :
    ((grow l' .empty).children hash).Perm ((grow l .empty).children hash) := by
  rw [List.perm_ext_iff_of_nodup (nodup_children_grow (f := .empty) l' hash List.nodup_nil) (nodup_children_grow (f := .empty) l hash List.nodup_nil)]
  intro c
  rw [mem_children_grown, mem_children_grown]
  simp only [hp.mem_iff]

theorem number_perm (hl : FormsTree l) (hp : l'.Perm l) (hfirst : ParentsFirst l) (hfirst' : ParentsFirst l')
    (hash c : String) (hc : c ∈ (grow l' .empty).children hash) :
    (grow l' .empty).number c = (grow l .empty).number c := by
  obtain ⟨b, hb, hparent, rfl⟩ := (mem_children_grown l' hash c).mp hc
  have hsome : b.parent ≠ none := by
    rw [ForkBlock.parent_of_link hparent]
    exact Option.some_ne_none _
  rw [number_eq_data, number_eq_data, own_node (hl.perm hp) hfirst' hb hsome, own_node hl hfirst (hp.mem_iff.mp hb) hsome]

theorem genesis_grown (hl : FormsTree l) (hfirst : ParentsFirst l) {g : String} :
    (grow l .empty).genesis = some g ↔ Top l g := by
  rw [genesis_iff (keyed_grow (f := .empty) l List.nodup_nil), parentOf_none hl hfirst]
  intro g h hg hh
  exact hl.one_top g h ((parentOf_none hl hfirst).mp hg) ((parentOf_none hl hfirst).mp hh)

end orders

theorem children_ranked {l : List ForkBlock} {rank : String → Nat}
    (hrank : ∀ b ∈ l, ∀ p, b.link = some p → rank b.hash < rank p) :
    ∀ node, ∀ c ∈ (ForkTree.grow l .empty).children node, rank c < rank node := by
  intro node c hc
  obtain ⟨b, hb, hp, rfl⟩ := (mem_children_grown l node c).mp hc
  exact hrank b hb node hp

/-! ## The engine -/

def Returns {α : Type} (result : Nat → Option α) (x : α) : Prop := ∃ n, ∀ rounds ≥ n, result rounds = some x

def Feed.block? : Feed → Option ForkBlock
  | .addBlock b => some b
  | .attest .. => none

def blocksOf (feeds : List Feed) : List ForkBlock := feeds.filterMap Feed.block?

def attestationsOf (feeds : List Feed) : List Feed := feeds.filter fun f => f.block?.isNone

namespace ConsensusEngineSlashing

variable {s s' : ConsensusEngineSlashing}

def getCumulativeWeight (s : ConsensusEngineSlashing) (rounds : Nat) (hash : String) : Option Int :=
  s.board.fork.getCumulativeWeight s.weight rounds hash

/-- Two engines that make the same of the blocks. -/
structure SameChoice (s s' : ConsensusEngineSlashing) : Prop where
  parent : ∀ hash, s.board.fork.parentOf hash = s'.board.fork.parentOf hash
  children : ∀ hash c, c ∈ s.board.fork.children hash ↔ c ∈ s'.board.fork.children hash
  weight : ∀ hash, ∃ w, Returns (fun rounds => s.getCumulativeWeight rounds hash) w ∧
    Returns (fun rounds => s'.getCumulativeWeight rounds hash) w
  head : ∃ head, Returns s.getHead head ∧ Returns s'.getHead head

theorem fork_onAttestation (now : Int) (v hash : String) (slot : Int) :
    (s.onAttestation now v hash slot).2.board.fork = s.board.fork := by
  unfold onAttestation
  dsimp only
  split
  · exact tally_fork v hash slot _
  · rfl

theorem fork_run (feeds : List Feed) : (run feed feeds s).board.fork = ForkTree.grow (blocksOf feeds) s.board.fork := by
  induction feeds generalizing s with
  | nil => rfl
  | cons f feeds ih =>
    refine (ih (s := s.feed f)).trans ?_
    cases f with
    | addBlock b => rfl
    | attest now v hash slot =>
      change ForkTree.grow (blocksOf feeds) (s.onAttestation now v hash slot).2.board.fork = _
      rw [fork_onAttestation]
      rfl

def SameVotes (s s' : ConsensusEngineSlashing) : Prop := s.board.lmd = s'.board.lmd ∧ s.slashing = s'.slashing

theorem SameVotes.onAttestation (h : SameVotes s s') (now : Int) (v hash : String) (slot : Int) :
    SameVotes (s.onAttestation now v hash slot).2 (s'.onAttestation now v hash slot).2 := by
  unfold ConsensusEngineSlashing.onAttestation
  rw [← h.2]
  dsimp only
  split
  · refine ⟨?_, rfl⟩
    unfold setTotalStake tally
    dsimp only
    rw [← h.1]
    split
    · rfl
    · exact h.1
  · exact ⟨h.1, rfl⟩

theorem sameVotes_run (h : SameVotes s s') (feeds : List Feed) :
    SameVotes (run feed feeds s) (run feed (attestationsOf feeds) s') := by
  induction feeds generalizing s s' with
  | nil => exact h
  | cons f feeds ih =>
    cases f with
    | addBlock b => exact ih (s := s.addBlock b) h
    | attest now v hash slot => exact ih (h.onAttestation now v hash slot)

theorem weight_run {feeds feeds' : List Feed} (hvotes : attestationsOf feeds' = attestationsOf feeds) :
    (run feed feeds s).weight = (run feed feeds' s).weight := by
  have h := sameVotes_run (s := s) ⟨rfl, rfl⟩ feeds
  have h' := sameVotes_run (s := s) ⟨rfl, rfl⟩ feeds'
  rw [hvotes] at h'
  unfold weight
  rw [h.1.trans h'.1.symm]

section orders
variable {l l' : List ForkBlock} (hl : FormsTree l) (hp : l'.Perm l) (hfirst : ParentsFirst l) (hfirst' : ParentsFirst l')
  (weight : String → Int)
include hl hp

/-- The weights do not depend on the order of the blocks at all. -/
theorem cumulative_perm (hash : String) : ∃ w,
    Returns (fun rounds => (ForkTree.grow l .empty).getCumulativeWeight weight rounds hash) w ∧
    Returns (fun rounds => (ForkTree.grow l' .empty).getCumulativeWeight weight rounds hash) w := by
  obtain ⟨rank, hrank⟩ := hl.acyclic
  refine ⟨(ForkTree.grow l .empty).below weight (rank hash + 1) hash,
    ForkTree.getCumulativeWeight_eq weight (children_ranked hrank) hash, ?_⟩
  rw [ForkTree.below_congr weight fun h => (children_perm hp h).symm]
  exact ForkTree.getCumulativeWeight_eq weight (children_ranked fun b hb => hrank b (hp.mem_iff.mp hb)) hash

include hfirst hfirst'

/-- Two orders that pass parents first have one head. -/
theorem head_perm : ∃ head, Returns ((ForkTree.grow l .empty).selectHead weight) head ∧
    Returns ((ForkTree.grow l' .empty).selectHead weight) head := by
  obtain ⟨rank, hrank⟩ := hl.acyclic
  have hgenesis : (ForkTree.grow l' .empty).genesis = (ForkTree.grow l .empty).genesis := by
    apply Option.ext
    intro g
    rw [genesis_grown (hl.perm hp) hfirst', genesis_grown hl hfirst, top_perm hp]
  have htotal : (fun c => (ForkTree.grow l' .empty).below weight (rank c + 1) c) =
      fun c => (ForkTree.grow l .empty).below weight (rank c + 1) c :=
    funext fun c => ForkTree.below_congr weight (fun h => children_perm hp h) _ c
  have hhead := ForkTree.selectHead_eq weight (children_ranked hrank)
  have hhead' := ForkTree.selectHead_eq weight (children_ranked fun b hb => hrank b (hp.mem_iff.mp hb))
  refine ⟨_, hhead, ?_⟩
  rw [hgenesis, htotal] at hhead'
  simp only [ForkTree.headBelow_congr (fun h => children_perm hp h) (number_perm hl hp hfirst hfirst')] at hhead'
  exact hhead'

end orders

/-- Against an order that passes parents first, an order makes the same of the blocks exactly when it
passes parents first too. -/
theorem arrival_order (s : ConsensusEngineSlashing) (hs : s.board.fork = .empty) (feeds feeds' : List Feed)
    (htree : FormsTree (blocksOf feeds)) (hblocks : (blocksOf feeds').Perm (blocksOf feeds))
    (hvotes : attestationsOf feeds' = attestationsOf feeds) (hfirst' : ParentsFirst (blocksOf feeds')) :
    SameChoice (run feed feeds s) (run feed feeds' s) ↔ ParentsFirst (blocksOf feeds) := by
  have hfork : (run feed feeds s).board.fork = ForkTree.grow (blocksOf feeds) .empty := by rw [fork_run, hs]
  have hfork' : (run feed feeds' s).board.fork = ForkTree.grow (blocksOf feeds') .empty := by rw [fork_run, hs]
  constructor
  · intro h
    by_contra hlate
    obtain ⟨b, hb, hp, hnone⟩ := placeholder htree hlate
    have hparent := h.parent b.hash
    obtain ⟨p, hsome⟩ := Option.ne_none_iff_exists'.mp hp
    rw [hfork, hfork', hnone, (parentOf_some (htree.perm hblocks) hfirst').mpr ⟨b, hblocks.mem_iff.mpr hb, rfl, hsome⟩]
      at hparent
    cases hparent
  · intro hfirst
    constructor
    · intro hash
      rw [hfork, hfork', parentOf_perm htree hblocks hfirst hfirst']
    · intro hash c
      rw [hfork, hfork', (children_perm hblocks hash).mem_iff]
    · intro hash
      unfold getCumulativeWeight
      rw [hfork, hfork', ← weight_run hvotes]
      exact cumulative_perm htree hblocks _ hash
    · unfold getHead
      rw [hfork, hfork', ← weight_run hvotes]
      exact head_perm htree hblocks hfirst hfirst' _

/-! ## A block that comes after its child -/

/-- A genesis with two children, one of which has a child of its own. -/
def forkedBlocks : List ForkBlock := [⟨"g", none, 0⟩, ⟨"a", some "g", 1⟩, ⟨"c", some "g", 1⟩, ⟨"b", some "a", 2⟩]

theorem formsTree_forked : FormsTree forkedBlocks := by
  have htop : ∀ h, Top forkedBlocks h → h = "g" := by
    intro h htop
    rcases htop with ⟨b, hb, rfl, hp⟩ | ⟨⟨b, hb, hp⟩, hout⟩
    · exact (show ∀ b ∈ forkedBlocks, b.parent = none → b.hash = "g" by decide) b hb hp
    · have hin : ∀ b ∈ forkedBlocks, ∀ p ∈ b.link, p ∈ forkedBlocks.map ForkBlock.hash := by decide
      obtain ⟨c, hc, hch⟩ := List.mem_map.mp (hin b hb h hp)
      exact absurd hch (hout c hc)
  constructor
  · decide
  · intro g h hg hh
    rw [htop g hg, htop h hh]
  · refine ⟨fun h => if h = "g" then 2 else if h = "a" then 1 else 0, ?_⟩
    have hbelow : ∀ b ∈ forkedBlocks, ∀ p ∈ b.link, (if b.hash = "g" then 2 else if b.hash = "a" then 1 else 0) <
        if p = "g" then 2 else if p = "a" then 1 else 0 := by decide
    exact fun b hb p hp => hbelow b hb p hp

def fed (blocks : List ForkBlock) : List Feed := blocks.map .addBlock ++ [.attest 0 "v" "c" 1]

theorem arrival_order_siblings : SameChoice
    (run feed (fed [⟨"g", none, 0⟩, ⟨"c", some "g", 1⟩, ⟨"a", some "g", 1⟩, ⟨"b", some "a", 2⟩])
      (withValidators Poll.monthly [("v", 100)]))
    (run feed (fed forkedBlocks) (withValidators Poll.monthly [("v", 100)])) := by
  refine (arrival_order (withValidators Poll.monthly [("v", 100)]) rfl
    (fed [⟨"g", none, 0⟩, ⟨"c", some "g", 1⟩, ⟨"a", some "g", 1⟩, ⟨"b", some "a", 2⟩]) (fed forkedBlocks) ?_ ?_ rfl ?_).mpr ?_
  · exact formsTree_forked.perm (by decide)
  · decide
  · decide
  · decide

/-- The child comes before its parent `a`, which is then taken for the genesis. -/
theorem arrival_order_matters :
    (¬ ∀ (s : ConsensusEngineSlashing) (feeds feeds' : List Feed), s.board.fork = .empty →
      FormsTree (blocksOf feeds) → (blocksOf feeds').Perm (blocksOf feeds) → attestationsOf feeds' = attestationsOf feeds →
      SameChoice (run feed feeds s) (run feed feeds' s)) ∧
    (run feed (fed forkedBlocks) (withValidators Poll.monthly [("v", 100)])).getHead 9 = some (some "c") ∧
    (run feed (fed [⟨"b", some "a", 2⟩, ⟨"a", some "g", 1⟩, ⟨"g", none, 0⟩, ⟨"c", some "g", 1⟩])
      (withValidators Poll.monthly [("v", 100)])).getHead 9 = some (some "b") := by
  refine ⟨?_, by decide +kernel, by decide +kernel⟩
  intro h
  have hparent := (h (withValidators Poll.monthly [("v", 100)]) (fed forkedBlocks)
    (fed [⟨"b", some "a", 2⟩, ⟨"a", some "g", 1⟩, ⟨"g", none, 0⟩, ⟨"c", some "g", 1⟩]) rfl
    formsTree_forked (by decide) rfl).parent "a"
  revert hparent
  decide +kernel

end ConsensusEngineSlashing

end AbsoluteChain
