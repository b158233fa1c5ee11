import AbsoluteChain.ForkTermination

/-!
# GHOST on a block tree

`consensus/ghost.py` on a tree of blocks with any weights. A cumulative weight is the sum
over the descendants; the head is found by the heaviest children as long as they do not
weigh less than nothing.
-/

namespace AbsoluteChain

open Python Descendants

structure RootedTree where
  fork : ForkTree
  root : String
  keyed : fork.tree.Keyed
  top : fork.parentOf root = some none
  child : ∀ p c, c ∈ fork.children p ↔ fork.parentOf c = some (some p)
  nodup : ∀ p, (fork.children p).Nodup
  rooted : ∀ h, (fork.parentOf h).isSome → Reaches fork.children root h

namespace RootedTree

variable (T : RootedTree) (weight : String → Int)

noncomputable def descendants (b : String) : Finset String :=
  open Classical in (insert b (T.fork.tree.map Prod.fst).toFinset).filter (Reaches T.fork.children b)

noncomputable def weightOf (b : String) : Int := ∑ d ∈ T.descendants b, weight d

/-- What siblings are compared by. -/
noncomputable def standing (b : String) : Int ×ₗ Int ×ₗ Stringᵒᵈ := T.fork.key (T.weightOf weight b) b

/-- The best of the children: the heaviest, then the one with the highest number, then the smallest hash. -/
def Chooses (p c : String) : Prop := c ∈ T.fork.children p ∧ ∀ d ∈ T.fork.children p, T.standing weight d ≤ T.standing weight c

structure Reordered (T T' : RootedTree) : Prop where
  data : ∀ h, T'.fork.data h = T.fork.data h
  children : ∀ h, (T'.fork.children h).Perm (T.fork.children h)

/-- The weights are sums over descendants, the head is the leaf below the root by the best children, and
neither depends on the order of the children. -/
structure GhostSound : Prop where
  cumulative : ∀ b, Returns (fun rounds => T.fork.getCumulativeWeight weight rounds b) (T.weightOf weight b)
  head : ∃ h, Returns (T.fork.selectHead weight) (some h) ∧ Relation.ReflTransGen (T.Chooses weight) T.root h ∧
    T.fork.children h = []
  order : ∀ T', Reordered T T' →
    (∀ b w, Returns (fun rounds => T.fork.getCumulativeWeight weight rounds b) w →
      Returns (fun rounds => T'.fork.getCumulativeWeight weight rounds b) w) ∧
    ∀ h, Returns (T.fork.selectHead weight) h → Returns (T'.fork.selectHead weight) h

/-- On the way down by the best children, no block has only children that weigh less than nothing. -/
def Supported : Prop := ∀ p, Relation.ReflTransGen (T.Chooses weight) T.root p → T.fork.children p ≠ [] →
  ∃ c ∈ T.fork.children p, 0 ≤ T.weightOf weight c

/-! ## The tree -/

variable {T weight}

theorem one_parent {p q c : String} (hp : c ∈ T.fork.children p) (hq : c ∈ T.fork.children q) : p = q := by
  have h := ((T.child p c).mp hp).symm.trans ((T.child q c).mp hq)
  exact Option.some.inj (Option.some.inj h)

theorem single (a b : String) : Single T.fork.children a b := fun _ _ _ _ _ _ hp hq => one_parent hp hq

theorem no_parent_root (p : String) : T.root ∉ T.fork.children p := by
  intro h
  have hsome := (T.child p T.root).mp h
  rw [T.top] at hsome
  cases hsome

theorem not_cycle_of_reaches {a : String} (h : Reaches T.fork.children T.root a) :
    ¬ Relation.TransGen (Child T.fork.children) a a := by
  induction h with
  | refl =>
    intro hcycle
    obtain ⟨p, -, hp⟩ := Relation.TransGen.tail'_iff.mp hcycle
    exact no_parent_root p hp
  | @tail p c _ hc ih =>
    intro hcycle
    obtain ⟨q, hq, hqc⟩ := Relation.TransGen.tail'_iff.mp hcycle
    rw [one_parent hqc hc] at hq
    exact ih (Relation.TransGen.head' hc hq)

theorem acyclic (T : RootedTree) : Acyclic T.fork.children := by
  intro a hcycle
  obtain ⟨p, -, hp⟩ := Relation.TransGen.tail'_iff.mp hcycle
  have hin : (T.fork.parentOf a).isSome := by
    rw [(T.child p a).mp hp]
    rfl
  exact not_cycle_of_reaches (T.rooted a hin) hcycle

theorem mem_hashes {p c : String} (h : c ∈ T.fork.children p) : c ∈ (T.fork.tree.map Prod.fst).toFinset := by
  have hsome := (T.child p c).mp h
  unfold ForkTree.parentOf ForkTree.data at hsome
  cases hnode : T.fork.tree.get? c with
  | none =>
    rw [hnode] at hsome
    cases hsome
  | some node => exact List.mem_toFinset.mpr (List.mem_map_of_mem (f := Prod.fst) (Dict.mem_of_get? hnode))

theorem exists_rank (T : RootedTree) : ∃ rank, Ranked T.fork.children rank :=
  T.acyclic.exists_rank _ fun _ _ hc => mem_hashes hc

theorem genesis_eq : T.fork.genesis = some T.root := by
  refine (ForkTree.genesis_iff T.keyed ?_).mpr T.top
  have hroot : ∀ h, T.fork.parentOf h = some none → h = T.root := by
    intro h hnone
    have hreach := T.rooted h (by rw [hnone]; rfl)
    rcases Relation.ReflTransGen.cases_tail hreach with rfl | ⟨p, -, hp⟩
    · rfl
    · rw [(T.child p h).mp hp] at hnone
      cases hnone
  intro g h hg hh
  rw [hroot g hg, hroot h hh]

theorem total_eq_weightOf {rank : String → Nat} (hr : Ranked T.fork.children rank) (b : String) :
    total T.fork.children rank weight b = T.weightOf weight b := by
  classical
  unfold weightOf descendants
  rw [total_eq_sum hr T.nodup (insert b (T.fork.tree.map Prod.fst).toFinset) ?_ fun d _ => single b d]
  · intro x hx
    rcases Relation.ReflTransGen.cases_tail hx with rfl | ⟨p, -, hp⟩
    · exact Finset.mem_insert_self _ _
    · exact Finset.mem_insert_of_mem (mem_hashes hp)

theorem returns_weightOf (b : String) :
    Returns (fun rounds => T.fork.getCumulativeWeight weight rounds b) (T.weightOf weight b) := by
  obtain ⟨rank, hr⟩ := T.exists_rank
  rw [← total_eq_weightOf hr]
  exact ForkTree.returns_total hr b

/-! ## The best child -/

end RootedTree

namespace ForkTree

variable {f : ForkTree} {total : String → Int}

theorem fold_better (l : List String) : ∀ b, ∃ m ∈ b :: l,
    l.foldl (fun best c => f.better c (total c) best) (some b, total b) = (some m, total m) ∧
      ∀ d ∈ b :: l, f.key (total d) d ≤ f.key (total m) m := by
  induction l with
  | nil =>
    intro b
    refine ⟨b, List.mem_cons_self, rfl, fun d hd => ?_⟩
    rw [List.mem_singleton.mp hd]
  | cons c l ih =>
    intro b
    rw [List.foldl_cons, better_some]
    by_cases hlt : f.key (total b) b < f.key (total c) c
    · rw [if_pos hlt]
      obtain ⟨m, hm, hfold, hmax⟩ := ih c
      refine ⟨m, List.mem_cons_of_mem _ hm, hfold, fun d hd => ?_⟩
      rcases List.mem_cons.mp hd with rfl | hd
      · exact hlt.le.trans (hmax c List.mem_cons_self)
      · exact hmax d hd
    · rw [if_neg hlt]
      obtain ⟨m, hm, hfold, hmax⟩ := ih b
      refine ⟨m, ?_, hfold, fun d hd => ?_⟩
      · rcases List.mem_cons.mp hm with rfl | hm
        · exact List.mem_cons_self
        · exact List.mem_cons_of_mem _ (List.mem_cons_of_mem _ hm)
      · rcases List.mem_cons.mp hd with rfl | hd
        · exact hmax d List.mem_cons_self
        · rcases List.mem_cons.mp hd with rfl | hd
          · exact (not_lt.mp hlt).trans (hmax b List.mem_cons_self)
          · exact hmax d (List.mem_cons_of_mem _ hd)

/-- Children that weigh less than nothing are passed over. -/
theorem pick_spec (l : List String) :
    (f.pick total l = none ∧ ∀ d ∈ l, total d < 0) ∨
      ∃ m ∈ l, f.pick total l = some m ∧ 0 ≤ total m ∧ ∀ d ∈ l, f.key (total d) d ≤ f.key (total m) m := by
  unfold pick
  induction l with
  | nil => exact .inl ⟨rfl, fun d hd => absurd hd List.not_mem_nil⟩
  | cons c l ih =>
    rw [List.foldl_cons, better_none]
    by_cases hc : -1 < total c
    · rw [if_pos hc]
      obtain ⟨m, hm, hfold, hmax⟩ := @fold_better f total l c
      refine .inr ⟨m, hm, by rw [hfold], ?_, hmax⟩
      have hle := hmax c List.mem_cons_self
      by_contra hneg
      exact absurd hle (not_le.mpr (key_lt.mpr (.inl (by omega))))
    · rw [if_neg hc]
      rcases ih with ⟨hnone, hneg⟩ | ⟨m, hm, hpick, hpos, hmax⟩
      · refine .inl ⟨hnone, fun d hd => ?_⟩
        rcases List.mem_cons.mp hd with rfl | hd
        · omega
        · exact hneg d hd
      · refine .inr ⟨m, List.mem_cons_of_mem _ hm, hpick, hpos, fun d hd => ?_⟩
        rcases List.mem_cons.mp hd with rfl | hd
        · exact (key_lt.mpr (.inl (by omega))).le
        · exact hmax d hd

theorem headBelow_walk {rank : String → Nat} (hr : Ranked f.children rank) (depth : Nat) : ∀ node, rank node < depth →
    Relation.ReflTransGen (fun p c => f.pick total (f.children p) = some c) node (f.headBelow total depth node) ∧
      f.pick total (f.children (f.headBelow total depth node)) = none := by
  induction depth with
  | zero => exact fun node h => absurd h (Nat.not_lt_zero _)
  | succ depth ih =>
    intro node hnode
    rw [headBelow]
    cases hp : f.pick total (f.children node) with
    | none => exact ⟨.refl, hp⟩
    | some c =>
      have hc := hr node c (pick_mem hp)
      obtain ⟨hwalk, hend⟩ := ih c (by omega)
      exact ⟨.head hp hwalk, hend⟩

end ForkTree

/-! ## The head -/

namespace RootedTree

variable {T : RootedTree} {weight : String → Int}

theorem chooses_unique {p c d : String} (hc : T.Chooses weight p c) (hd : T.Chooses weight p d) : c = d :=
  ForkTree.key_inj (le_antisymm (hd.2 c hc.1) (hc.2 d hd.1))

theorem chooses_of_pick {p c : String} (h : T.fork.pick (T.weightOf weight) (T.fork.children p) = some c) :
    T.Chooses weight p c ∧ 0 ≤ T.weightOf weight c := by
  rcases @ForkTree.pick_spec T.fork (T.weightOf weight) (T.fork.children p) with
    ⟨hnone, -⟩ | ⟨m, hm, hpick, hpos, hmax⟩
  · rw [hnone] at h
    cases h
  · rw [hpick] at h
    cases h
    exact ⟨⟨hm, hmax⟩, hpos⟩

/-- Where the descent of the source ends. -/
theorem returns_head (T : RootedTree) (weight : String → Int) : ∃ h, Returns (T.fork.selectHead weight) (some h) ∧
    Relation.ReflTransGen (fun p c => T.fork.pick (T.weightOf weight) (T.fork.children p) = some c) T.root h ∧
      T.fork.pick (T.weightOf weight) (T.fork.children h) = none := by
  obtain ⟨rank, hr⟩ := T.exists_rank
  have htotal : (fun c => T.fork.below weight (rank c + 1) c) = T.weightOf weight := by
    funext c
    rw [ForkTree.below_eq_sumBelow]
    exact total_eq_weightOf hr c
  obtain ⟨n, hn⟩ := ForkTree.selectHead_eq weight hr
  rw [htotal, genesis_eq] at hn
  exact ⟨_, ⟨n, hn⟩, ForkTree.headBelow_walk hr (rank T.root + 1) T.root (Nat.lt_succ_self _)⟩

theorem head_iff_supported : (∃ h, Returns (T.fork.selectHead weight) (some h) ∧
    Relation.ReflTransGen (T.Chooses weight) T.root h ∧ T.fork.children h = []) ↔ T.Supported weight := by
  obtain ⟨head, hreturns, hwalk, hend⟩ := returns_head T weight
  constructor
  · rintro ⟨h, hh, -, hleaf⟩ p hp hne
    have hsame : h = head := Option.some.inj (ForkTree.Returns.unique hh hreturns)
    subst hsame
    -- the walk of the best children stays on the descent of the source
    have hrest : Relation.ReflTransGen (fun p c => T.fork.pick (T.weightOf weight) (T.fork.children p) = some c) p h := by
      induction hp with
      | refl => exact hwalk
      | @tail p c _ hc ih =>
        have hpne : T.fork.children p ≠ [] := List.ne_nil_of_mem hc.1
        rcases Relation.ReflTransGen.cases_head (ih hpne) with rfl | ⟨d, hd, hrest⟩
        · exact absurd hleaf hpne
        · rwa [chooses_unique hc (chooses_of_pick hd).1]
    rcases Relation.ReflTransGen.cases_head hrest with rfl | ⟨c, hc, -⟩
    · exact absurd hleaf hne
    · obtain ⟨hchooses, hpos⟩ := chooses_of_pick hc
      exact ⟨c, hchooses.1, hpos⟩
  · intro hs
    have hbest : Relation.ReflTransGen (T.Chooses weight) T.root head := by
      clear hreturns hend
      induction hwalk with
      | refl => exact .refl
      | tail _ hc ih => exact ih.tail (chooses_of_pick hc).1
    refine ⟨head, hreturns, hbest, not_not.mp fun hne => ?_⟩
    obtain ⟨c, hc, hpos⟩ := hs head hbest hne
    rcases @ForkTree.pick_spec T.fork (T.weightOf weight) (T.fork.children head) with
      ⟨-, hneg⟩ | ⟨m, -, hpick, -, -⟩
    · exact absurd (hneg c hc) (not_lt.mpr hpos)
    · rw [hpick] at hend
      cases hend

/-! ## The order of the children -/

section order
variable {T' : RootedTree} (h : Reordered T T')
include h

theorem Reordered.root : T'.root = T.root := by
  have htop : T'.fork.parentOf T.root = some none := by
    unfold ForkTree.parentOf
    rw [h.data]
    exact T.top
  rcases Relation.ReflTransGen.cases_tail (T'.rooted T.root (by rw [htop]; rfl)) with heq | ⟨p, -, hp⟩
  · exact heq.symm
  · rw [(T'.child p T.root).mp hp] at htop
    cases htop

theorem Reordered.below (weight : String → Int) (depth : Nat) (b : String) :
    T'.fork.below weight depth b = T.fork.below weight depth b :=
  ForkTree.below_congr weight (fun h' => h.children h') depth b

theorem Reordered.cumulative {b : String} {w : Int} (hw : Returns (fun rounds => T.fork.getCumulativeWeight weight rounds b) w) :
    Returns (fun rounds => T'.fork.getCumulativeWeight weight rounds b) w := by
  obtain ⟨rank, hr⟩ := T.exists_rank
  have hr' : Ranked T'.fork.children rank := fun p c hc => hr p c ((h.children p).mem_iff.mp hc)
  have hsame : w = T.fork.below weight (rank b + 1) b :=
    ForkTree.Returns.unique hw (ForkTree.getCumulativeWeight_eq weight hr b)
  rw [hsame, ← h.below]
  exact ForkTree.getCumulativeWeight_eq weight hr' b

theorem Reordered.head {head : Option String} (hh : Returns (T.fork.selectHead weight) head) :
    Returns (T'.fork.selectHead weight) head := by
  obtain ⟨rank, hr⟩ := T.exists_rank
  have hr' : Ranked T'.fork.children rank := fun p c hc => hr p c ((h.children p).mem_iff.mp hc)
  have hnumber : ∀ p, ∀ c ∈ T'.fork.children p, T'.fork.number c = T.fork.number c := by
    intro p c _
    rw [ForkTree.number_eq_data, ForkTree.number_eq_data, h.data]
  have hhead := ForkTree.selectHead_eq weight hr
  have hhead' := ForkTree.selectHead_eq weight hr'
  rw [genesis_eq] at hhead hhead'
  have hbelow : (fun c => T'.fork.below weight (rank c + 1) c) = fun c => T.fork.below weight (rank c + 1) c :=
    funext fun c => h.below weight _ c
  rw [hbelow, h.root, Option.map_some, ForkTree.headBelow_congr h.children hnumber] at hhead'
  rw [ForkTree.Returns.unique hh hhead]
  exact hhead'

end order

/-- GHOST is right on a tree exactly when the way down by the best children never meets a block whose
children all weigh less than nothing. -/
theorem ghost_iff_supported (T : RootedTree) (weight : String → Int) : T.GhostSound weight ↔ T.Supported weight := by
  constructor
  · exact fun h => head_iff_supported.mp h.head
  · exact fun h => ⟨returns_weightOf, head_iff_supported.mpr h, fun _ hT => ⟨fun _ _ => hT.cumulative, fun _ => hT.head⟩⟩

/-- A genesis with one child. -/
def pairBlocks : List ForkBlock := [⟨"g", none, 0⟩, ⟨"a", some "g", 1⟩]

theorem pair_child (p c : String) : c ∈ (ForkTree.grow pairBlocks .empty).children p ↔ p = "g" ∧ c = "a" := by
  rw [mem_children_grown]
  constructor
  · rintro ⟨b, hb, hp, rfl⟩
    simp only [pairBlocks, List.mem_cons, List.not_mem_nil, or_false] at hb
    rcases hb with rfl | rfl
    · cases hp
    · exact ⟨(Option.some.inj (ForkBlock.parent_of_link hp)).symm, rfl⟩
  · rintro ⟨rfl, rfl⟩
    exact ⟨⟨"a", some "g", 1⟩, by decide, by decide, rfl⟩

theorem pair_parentOf (c : String) : (ForkTree.grow pairBlocks .empty).parentOf c =
    if c = "g" then some none else if c = "a" then some (some "g") else none := by
  unfold ForkTree.parentOf
  rw [data_grown]
  by_cases hg : c = "g"
  · subst hg
    decide
  · by_cases ha : c = "a"
    · subst ha
      decide
    · simp [pairBlocks, ForkTree.mention, hg, ha, ForkBlock.link, Option.filter, Ne.symm hg]

def pair : RootedTree where
  fork := ForkTree.grow pairBlocks .empty
  root := "g"
  keyed := ForkTree.keyed_grow (f := .empty) pairBlocks List.nodup_nil
  top := by decide
  child p c := by
    rw [pair_child, pair_parentOf]
    by_cases hg : c = "g"
    · simp [hg]
    · by_cases ha : c = "a"
      · simp [ha, eq_comm]
      · simp [hg, ha]
  nodup p := ForkTree.nodup_children_grow (f := .empty) pairBlocks p List.nodup_nil
  rooted h hin := by
    rw [pair_parentOf] at hin
    by_cases hg : h = "g"
    · rw [hg]
      exact .refl
    · by_cases ha : h = "a"
      · rw [ha]
        exact .single ((pair_child "g" "a").mpr ⟨rfl, rfl⟩)
      · rw [if_neg hg, if_neg ha] at hin
        cases hin

/-- The only child weighs less than nothing, so the genesis is taken for a head. -/
theorem ghost_stops_early : ¬ ∀ (T : RootedTree) (weight : String → Int), T.GhostSound weight := by
  intro h
  have hchild : pair.fork.children "g" = ["a"] := by decide
  obtain ⟨c, hc, hpos⟩ := head_iff_supported.mp (h pair fun _ => -1).head "g" .refl (by rw [hchild]; exact List.cons_ne_nil _ _)
  refine absurd hpos (not_le.mpr ?_)
  have hin : c ∈ pair.descendants c := by
    classical
    exact Finset.mem_filter.mpr ⟨Finset.mem_insert_self _ _, .refl⟩
  have hcard := Finset.card_pos.mpr ⟨c, hin⟩
  rw [weightOf, Finset.sum_const, nsmul_eq_mul]
  omega

end RootedTree

end AbsoluteChain
