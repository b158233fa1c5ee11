import Mathlib.Data.List.Find
import AbsoluteChain.ArrivalOrder
import AbsoluteChain.Descendants

/-!
# Fork choice on any blocks

`ConsensusEngineSlashing.add_block` writes each block under the parent that it names,
whatever it names. The loop of `get_cumulative_weight` ends unless the parents form a
cycle, and counts a block once for each way down to it.
-/

namespace AbsoluteChain

open Python Runs Descendants

/-! ## A loop without an end -/

namespace ForkTree

variable (f : ForkTree) (weight : String → Int)

/-- The descendants of the block do not come to an end. -/
def Endless (hash : String) : Prop := ¬ Acc (fun c p => Child f.children p c) hash

/-- An endless block waits on the stack, and above it none is about to be closed. -/
def Waits (stack : List (String × Bool)) : Prop :=
  ∃ above x rest, stack = above ++ (x, false) :: rest ∧ f.Endless x ∧ ∀ y, (y, true) ∈ above → ¬ f.Endless y

variable {f weight}

/-- Only blocks whose descendants end are remembered, so an endless one opens another. -/
theorem waits_open {x : String} {rest : List (String × Bool)} {memo : Dict String Int} (hx : f.Endless x)
    (hmemo : ∀ c, memo.contains c = true → ¬ f.Endless c) :
    f.Waits (((f.children x).filter fun c => !memo.contains c).map (fun c => (c, false)) ++ (x, true) :: rest) := by
  obtain ⟨c, hc, hcend⟩ := exists_child_of_not_acc hx
  have hfresh : c ∈ (f.children x).filter fun c => !memo.contains c := by
    refine List.mem_filter.mpr ⟨hc, ?_⟩
    cases hm : memo.contains c with
    | false => rfl
    | true => exact absurd hcend (hmemo c hm)
  obtain ⟨before, after, hsplit⟩ := List.append_of_mem hfresh
  refine ⟨before.map fun c => (c, false), c, after.map (fun c => (c, false)) ++ (x, true) :: rest, ?_, hcend, ?_⟩
  · rw [hsplit, List.map_append, List.map_cons, List.append_assoc, List.cons_append]
  · intro y hy
    obtain ⟨_, -, h⟩ := List.mem_map.mp hy
    cases h

theorem cumulate_waits (rounds : Nat) : ∀ stack memo, f.Waits stack →
    (∀ c, memo.contains c = true → ¬ f.Endless c) → cumulate f weight rounds stack memo = none := by
  induction rounds with
  | zero =>
    rintro stack memo ⟨above, x, rest, rfl, -⟩ -
    cases above <;> rfl
  | succ rounds ih =>
    rintro stack memo ⟨above, x, rest, rfl, hx, habove⟩ hmemo
    cases above with
    | nil =>
      rw [List.nil_append, cumulate]
      exact ih _ memo (waits_open hx hmemo) hmemo
    | cons e above =>
      obtain ⟨y, expanded⟩ := e
      cases expanded with
      | true =>
        rw [List.cons_append, cumulate]
        refine ih _ _ ⟨above, x, rest, rfl, hx, fun z hz => habove z (List.mem_cons_of_mem _ hz)⟩ ?_
        intro c hc
        unfold Dict.contains at hc
        rw [Dict.get?_set] at hc
        by_cases hcy : c = y
        · rw [hcy]
          exact habove y List.mem_cons_self
        · rw [if_neg hcy] at hc
          exact hmemo c hc
      | false =>
        rw [List.cons_append, cumulate]
        by_cases hy : f.Endless y
        · exact ih _ memo (waits_open hy hmemo) hmemo
        · refine ih _ memo ?_ hmemo
          refine ⟨((f.children y).filter fun c => !memo.contains c).map (fun c => (c, false)) ++ (y, true) :: above, x, rest,
            by rw [List.append_assoc, List.cons_append], hx, ?_⟩
          intro z hz
          rcases List.mem_append.mp hz with hz | hz
          · obtain ⟨_, -, h⟩ := List.mem_map.mp hz
            cases h
          · rcases List.mem_cons.mp hz with h | hz
            · cases h
              exact hy
            · exact habove z (List.mem_cons_of_mem _ hz)

theorem getCumulativeWeight_endless {hash : String} (h : f.Endless hash) (rounds : Nat) :
    f.getCumulativeWeight weight rounds hash = none := by
  have hwaits : f.Waits [(hash, false)] := ⟨[], hash, [], rfl, h, fun _ h => absurd h List.not_mem_nil⟩
  unfold getCumulativeWeight
  rw [cumulate_waits rounds _ _ hwaits]
  · rfl
  · intro c hc
    cases hc

/-! ## How often a block is counted -/

theorem returns_total {rank : String → Nat} (hr : Ranked f.children rank) (hash : String) :
    Returns (fun rounds => f.getCumulativeWeight weight rounds hash) (total f.children rank weight hash) := by
  obtain ⟨n, hn⟩ := getCumulativeWeight_eq weight hr hash
  refine ⟨n, fun rounds h => (hn rounds h).trans ?_⟩
  rw [below_eq_sumBelow]
  rfl

theorem Returns.unique {α : Type} {result : Nat → Option α} {x y : α} (hx : Returns result x) (hy : Returns result y) :
    x = y := by
  obtain ⟨n, hn⟩ := hx
  obtain ⟨m, hm⟩ := hy
  have h := (hn (max n m) (le_max_left _ _)).symm.trans (hm (max n m) (le_max_right _ _))
  exact Option.some.inj h

/-- The loop ends for every block exactly when there is no cycle. -/
theorem returns_iff_acyclic (V : Finset String) (hV : ∀ p, ∀ c ∈ f.children p, c ∈ V) :
    (∀ hash, ∃ w, Returns (fun rounds => f.getCumulativeWeight weight rounds hash) w) ↔ Acyclic f.children := by
  constructor
  · intro h
    refine acyclic_of_acc fun hash => not_not.mp fun hend => ?_
    obtain ⟨w, n, hn⟩ := h hash
    exact absurd ((getCumulativeWeight_endless hend n).symm.trans (hn n (le_refl n))) (Option.some_ne_none w).symm
  · intro h hash
    obtain ⟨rank, hr⟩ := h.exists_rank V hV
    exact ⟨_, returns_total hr hash⟩

end ForkTree

/-! ## The blocks as they are added -/

def Names (l : List ForkBlock) (p h : String) : Prop := ∃ b ∈ l, b.link = some p ∧ b.hash = h

def mentioned (l : List ForkBlock) : List String := l.flatMap fun b => b.hash :: b.link.toList

def rootOf (l : List ForkBlock) : Option String :=
  (mentioned l).find? fun h => (l.findSome? (ForkTree.mention h)).map Prod.fst = some none

namespace ForkTree

theorem child_grown (l : List ForkBlock) : Child (grow l .empty).children = Names l :=
  funext fun p => funext fun h => propext (mem_children_grown l p h)

theorem reaches_grown (l : List ForkBlock) : Reaches (grow l .empty).children = Relation.ReflTransGen (Names l) := by
  unfold Reaches
  rw [child_grown]

/-- A key that is there already is found before it is written again. -/
theorem find_append_key {keys : List String} {k : String} (P : String → Bool) (hk : k ∈ keys) :
    (keys ++ [k]).find? P = keys.find? P := by
  rw [List.find?_append]
  cases hf : keys.find? P with
  | some x => rfl
  | none =>
    rw [List.find?_cons_of_neg (List.find?_eq_none.mp hf k hk)]
    rfl

theorem find_keys_set (P : String → Bool) (d : Dict String TreeNode) (k : String) (node : TreeNode) :
    ((d.set k node).map Prod.fst).find? P = (d.map Prod.fst ++ [k]).find? P := by
  rw [Dict.keys_set]
  by_cases hk : k ∈ d.map Prod.fst
  · rw [if_pos hk, find_append_key P hk]
  · rw [if_neg hk]

theorem find_keys_addBlock (P : String → Bool) (b : ForkBlock) (f : ForkTree) (rest : List String) :
    ((f.addBlock b).tree.map Prod.fst ++ rest).find? P =
      (f.tree.map Prod.fst ++ (b.hash :: b.link.toList ++ rest)).find? P := by
  have hplace : ((place b f).map Prod.fst).find? P = (f.tree.map Prod.fst ++ [b.hash]).find? P := by
    unfold place
    by_cases hin : f.tree.contains b.hash = true
    · rw [if_pos hin]
      obtain ⟨node, hnode⟩ := Option.isSome_iff_exists.mp hin
      exact (find_append_key P (List.mem_map_of_mem (Dict.mem_of_get? hnode))).symm
    · rw [if_neg hin, find_keys_set]
  have hadd : ((f.addBlock b).tree.map Prod.fst).find? P = (f.tree.map Prod.fst ++ (b.hash :: b.link.toList)).find? P := by
    rw [tree_addBlock]
    cases b.link with
    | none => exact hplace
    | some p =>
      dsimp only
      rw [find_keys_set, List.find?_append, hplace, ← List.find?_append, List.append_assoc]
      rfl
  rw [List.find?_append, hadd, ← List.find?_append, List.append_assoc]

theorem find_keys_grow (P : String → Bool) (l : List ForkBlock) (f : ForkTree) :
    ((grow l f).tree.map Prod.fst).find? P = (f.tree.map Prod.fst ++ mentioned l).find? P := by
  induction l generalizing f with
  | nil => rw [mentioned, List.flatMap_nil, List.append_nil]; rfl
  | cons b l ih =>
    rw [grow, List.foldl_cons, ← grow, ih, find_keys_addBlock]
    rfl

theorem genesis_eq_rootOf (l : List ForkBlock) : (grow l .empty).genesis = rootOf l := by
  have hkeyed : (grow l .empty).tree.Keyed := keyed_grow (f := .empty) l List.nodup_nil
  have hroot := find_keys_grow (fun h => decide ((l.findSome? (mention h)).map Prod.fst = some none)) l .empty
  unfold rootOf genesis
  refine Eq.trans ?_ hroot
  rw [List.find?_map]
  congr 1
  refine List.find?_congr fun e he => ?_
  have hdata := data_grown l e.1
  unfold data at hdata
  rw [hkeyed.get?_of_mem (k := e.1) (v := e.2) he] at hdata
  rw [Function.comp_apply, ← hdata]
  cases hp : e.2.parent with
  | none => simp [hp]
  | some p => simp [hp]

end ForkTree

/-- The fork choice ends, and each block below the root counts once in each block above it. -/
structure Decides (s : ConsensusEngineSlashing) : Prop where
  weighs : ∀ hash, ∃ w, Returns (fun rounds => s.getCumulativeWeight rounds hash) w
  head : ∃ head, Returns s.getHead head
  once : ∀ g, s.board.fork.genesis = some g → ∀ b, Reaches s.board.fork.children g b →
    ∀ a, Reaches s.board.fork.children a b → Returns (fun rounds => s.board.fork.getCumulativeWeight (unit b) rounds a) 1

/-- No block is above itself, and no block on a way to one below the root is named under two parents that
one block is above. -/
structure Treelike (l : List ForkBlock) : Prop where
  acyclic : ∀ h, ¬ Relation.TransGen (Names l) h h
  single : ∀ g, rootOf l = some g → ∀ b, Relation.ReflTransGen (Names l) g b →
    ∀ x, Relation.ReflTransGen (Names l) x b → ∀ a p q, Relation.ReflTransGen (Names l) a p →
      Relation.ReflTransGen (Names l) a q → Names l p x → Names l q x → p = q

theorem decides_grown {s : ConsensusEngineSlashing} {l : List ForkBlock} (hs : s.board.fork = ForkTree.grow l .empty) :
    Decides s ↔ Treelike l := by
  have hV : ∀ p, ∀ c ∈ s.board.fork.children p, c ∈ (l.map ForkBlock.hash).toFinset := by
    intro p c hc
    rw [hs] at hc
    obtain ⟨b, hb, -, rfl⟩ := (mem_children_grown l p c).mp hc
    exact List.mem_toFinset.mpr (List.mem_map_of_mem hb)
  have hchild : Child s.board.fork.children = Names l := by rw [hs, ForkTree.child_grown]
  have hreaches : Reaches s.board.fork.children = Relation.ReflTransGen (Names l) := by rw [hs, ForkTree.reaches_grown]
  have hnodup : ∀ p, (s.board.fork.children p).Nodup := by
    intro p
    rw [hs]
    exact ForkTree.nodup_children_grow (f := .empty) l p List.nodup_nil
  have hgenesis : s.board.fork.genesis = rootOf l := by rw [hs, ForkTree.genesis_eq_rootOf]
  have hacyclic : Acyclic s.board.fork.children ↔ ∀ h, ¬ Relation.TransGen (Names l) h h := by
    unfold Acyclic
    rw [hchild]
  have hsingle : ∀ {a b}, Single s.board.fork.children a b ↔ ∀ x, Relation.ReflTransGen (Names l) x b →
      ∀ p q, Relation.ReflTransGen (Names l) a p → Relation.ReflTransGen (Names l) a q → Names l p x → Names l q x →
        p = q := by
    intro a b
    unfold Single
    rw [hreaches, ← hchild]
    exact Iff.rfl
  constructor
  · intro h
    have hcycle := (ForkTree.returns_iff_acyclic _ hV).mp h.weighs
    obtain ⟨rank, hr⟩ := hcycle.exists_rank _ hV
    refine ⟨hacyclic.mp hcycle, fun g hg b hgb x hxb a p q hap haq hpx hqx => ?_⟩
    have hab : Relation.ReflTransGen (Names l) a b := (hap.tail hpx).trans hxb
    have hone := h.once g (hgenesis.trans hg) b (hreaches ▸ hgb) a (hreaches ▸ hab)
    have hcount := ForkTree.Returns.unique (ForkTree.returns_total hr a) hone
    exact hsingle.mp ((total_unit_iff_single hr hnodup (hreaches ▸ hab)).mp hcount) x hxb p q hap haq hpx hqx
  · intro h
    have hcycle := hacyclic.mpr h.acyclic
    obtain ⟨rank, hr⟩ := hcycle.exists_rank _ hV
    refine ⟨(ForkTree.returns_iff_acyclic _ hV).mpr hcycle, ⟨_, ForkTree.selectHead_eq _ hr⟩, fun g hg b hgb a hab => ?_⟩
    have hone : total s.board.fork.children rank (unit b) a = 1 := by
      refine (total_unit_iff_single hr hnodup hab).mpr (hsingle.mpr ?_)
      intro x hx p q hap haq
      exact h.single g (hgenesis.symm.trans hg) b (hreaches ▸ hgb) x hx a p q hap haq
    have hreturns := @ForkTree.returns_total s.board.fork (unit b) _ hr a
    rwa [hone] at hreturns

namespace ConsensusEngineSlashing

/-- Whatever blocks come in, the fork choice ends and counts them once exactly when they are like a tree. -/
theorem decides_iff_treelike (epochs : EpochManager) (validators : List (String × Int)) (feeds : List Feed) :
    Decides (run feed feeds (withValidators epochs validators)) ↔ Treelike (blocksOf feeds) := by
  have hempty : (withValidators epochs validators).board.fork = .empty := by
    unfold withValidators
    have hfold : ∀ (l : List (String × Int)) (s : ConsensusEngineSlashing),
        (l.foldl (fun s v => s.addValidator v.1 v.2) s).board.fork = s.board.fork := by
      intro l
      induction l with
      | nil => exact fun _ => rfl
      | cons v l ih => exact fun s => ih (s.addValidator v.1 v.2)
    exact hfold validators (start epochs)
  apply decides_grown
  rw [fork_run, hempty]

def diamond : List ForkBlock :=
  [⟨"g", none, 0⟩, ⟨"a", some "g", 1⟩, ⟨"b", some "g", 1⟩, ⟨"c", some "a", 2⟩, ⟨"c", some "b", 2⟩]

/-- A block that names itself has no weight, and the last block of the diamond counts twice in the first. -/
theorem fork_choice_endless :
    ¬ Decides (run feed [.addBlock ⟨"g", none, 0⟩, .addBlock ⟨"x", some "x", 1⟩] (withValidators Poll.monthly [])) ∧
    ¬ Decides (run feed (diamond.map .addBlock) (withValidators Poll.monthly [])) := by
  constructor
  · intro h
    have hclean := (decides_grown (l := [⟨"g", none, 0⟩, ⟨"x", some "x", 1⟩]) rfl).mp h
    exact hclean.acyclic "x" (.single ⟨⟨"x", some "x", 1⟩, by decide, by decide, rfl⟩)
  · intro h
    have hclean := (decides_grown (l := diamond) rfl).mp h
    have ha : Names diamond "g" "a" := ⟨⟨"a", some "g", 1⟩, by decide, by decide, rfl⟩
    have hb : Names diamond "g" "b" := ⟨⟨"b", some "g", 1⟩, by decide, by decide, rfl⟩
    have hac : Names diamond "a" "c" := ⟨⟨"c", some "a", 2⟩, by decide, by decide, rfl⟩
    have hbc : Names diamond "b" "c" := ⟨⟨"c", some "b", 2⟩, by decide, by decide, rfl⟩
    have hsame := hclean.single "g" (by decide) "c" ((Relation.ReflTransGen.single ha).tail hac) "c" .refl "g" "a" "b"
      (.single ha) (.single hb) hac hbc
    revert hsame
    decide

end ConsensusEngineSlashing

end AbsoluteChain
