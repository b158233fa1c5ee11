import AbsoluteChain.Descendants
import AbsoluteChain.ForkChoice

/-!
# GHOST

`consensus/ghost.py`: the head of a block tree under given weights. Both loops of
the source run for as long as it takes, so they take a number of rounds here, and
on a tree some number is enough.
-/

namespace AbsoluteChain

open Python

namespace ForkTree

variable (f : ForkTree) (weight : String → Int)

/-! ## Cumulative weight -/

def cumulate : Nat → List (String × Bool) → Dict String Int → Option (Dict String Int)
  | _, [], memo => some memo
  | 0, _ :: _, _ => none
  | rounds + 1, (node, true) :: stack, memo =>
    let total := weight node + ((f.children node).map fun c => (memo.get? c).getD 0).sum
    cumulate rounds stack (memo.set node total)
  | rounds + 1, (node, false) :: stack, memo =>
    let fresh := (f.children node).filter fun c => !memo.contains c
    cumulate rounds (fresh.map (fun c => (c, false)) ++ (node, true) :: stack) memo

def getCumulativeWeight (rounds : Nat) (hash : String) : Option Int :=
  (cumulate f weight rounds [(hash, false)] []).map fun memo => (memo.get? hash).getD (weight hash)

/-! ## The descent -/

def number (hash : String) : Int := ((f.tree.get? hash).map TreeNode.number).getD 0

def better (child : String) (cumulative : Int) (best : Option String × Int) : Option String × Int :=
  if best.2 < cumulative then (some child, cumulative)
  else if cumulative = best.2 then
    match best.1 with
    | none => best
    | some b =>
      if f.number b < f.number child then (some child, best.2)
      else if f.number child = f.number b ∧ child < b then (some child, best.2)
      else best
  else best

def bestChild (rounds : Nat) : List String → Option String × Int → Option (Option String × Int)
  | [], best => some best
  | child :: rest, best =>
    match f.getCumulativeWeight weight rounds child with
    | none => none
    | some cumulative => bestChild rounds rest (f.better child cumulative best)

/-- The outer loop of `select_head`. -/
def descend (rounds : Nat) : Nat → String → List String → Option String
  | 0, _, _ => none
  | n + 1, current, visited =>
    if current ∈ visited then some current
    else
      match f.children current with
      | [] => some current
      | child :: rest =>
        match f.bestChild weight rounds (child :: rest) (none, -1) with
        | none => none
        | some (none, _) => some current
        | some (some best, _) => descend rounds n best (current :: visited)

def genesis : Option String := (f.tree.find? fun e => e.2.parent.isNone).map Prod.fst

def selectHead (rounds : Nat) : Option (Option String) :=
  match f.genesis with
  | none => some none
  | some g => (f.descend weight rounds rounds g []).map some

/-! ## What the loops compute on a tree -/

def below : Nat → String → Int
  | 0, _ => 0
  | depth + 1, node => weight node + ((f.children node).map (below depth)).sum

def pick (total : String → Int) (l : List String) : Option String :=
  (l.foldl (fun best child => f.better child (total child) best) (none, -1)).1

variable {f} {rank : String → Nat}

theorem better_mem (child : String) (w : Int) (best : Option String × Int) :
    (f.better child w best).1 = some child ∨ (f.better child w best).1 = best.1 := by
  unfold better
  split
  · exact .inl rfl
  · split
    · split
      · exact .inr rfl
      · split
        · exact .inl rfl
        · split
          · exact .inl rfl
          · exact .inr rfl
    · exact .inr rfl

theorem pick_mem {total : String → Int} {l : List String} {b : String} (h : f.pick total l = some b) : b ∈ l := by
  have hfold : ∀ (l : List String) (best : Option String × Int),
      (l.foldl (fun best child => f.better child (total child) best) best).1 = some b → b ∈ l ∨ best.1 = some b := by
    intro l
    induction l with
    | nil => exact fun best h => .inr h
    | cons c l ih =>
      intro best h
      rcases ih _ h with hb | hb
      · exact .inl (List.mem_cons_of_mem _ hb)
      · rcases better_mem (f := f) c (total c) best with hc | hc
        · rw [hc] at hb
          cases hb
          exact .inl List.mem_cons_self
        · exact .inr (hc ▸ hb)
  rcases hfold l _ h with hb | hb
  · exact hb
  · cases hb

theorem below_eq_sumBelow (depth : Nat) :
    ∀ node, f.below weight depth node = Descendants.sumBelow f.children weight depth node := by
  induction depth with
  | zero => exact fun _ => rfl
  | succ depth ih =>
    intro node
    rw [below, Descendants.sumBelow, List.map_congr_left fun c _ => ih c]

section tree
variable (htree : ∀ node, ∀ c ∈ f.children node, rank c < rank node)
include htree

theorem below_rank (node : String) : f.below weight (rank node + 1) node =
    weight node + ((f.children node).map fun c => f.below weight (rank c + 1) c).sum := by
  simp only [below_eq_sumBelow]
  exact Descendants.total_eq htree node

theorem cumulate_node (r : Nat) : ∀ node, rank node < r → ∀ stack memo,
    (∀ c w, memo.get? c = some w → w = f.below weight (rank c + 1) c) → ∃ n memo',
    (∀ k, cumulate f weight (n + k) ((node, false) :: stack) memo = cumulate f weight k stack memo') ∧
    (∀ c w, memo'.get? c = some w → w = f.below weight (rank c + 1) c) ∧
    memo'.contains node = true ∧ ∀ c, memo.contains c = true → memo'.contains c = true := by
  induction r with
  | zero => exact fun node h => absurd h (Nat.not_lt_zero _)
  | succ r ih =>
    -- a list of children is worked off from its first one on
    have hall : ∀ l : List String, (∀ c ∈ l, rank c < r) → ∀ stack memo,
        (∀ c w, memo.get? c = some w → w = f.below weight (rank c + 1) c) → ∃ n memo',
        (∀ k, cumulate f weight (n + k) (l.map (fun c => (c, false)) ++ stack) memo = cumulate f weight k stack memo') ∧
        (∀ c w, memo'.get? c = some w → w = f.below weight (rank c + 1) c) ∧
        (∀ c ∈ l, memo'.contains c = true) ∧ ∀ c, memo.contains c = true → memo'.contains c = true := by
      intro l
      induction l with
      | nil =>
        exact fun _ stack memo hmemo =>
          ⟨0, memo, fun k => by rw [Nat.zero_add]; rfl, hmemo, fun c hc => absurd hc List.not_mem_nil, fun _ h => h⟩
      | cons c l ihl =>
        intro hl stack memo hmemo
        obtain ⟨n, memo₁, hn, hright₁, hc₁, hkept₁⟩ :=
          ih c (hl c List.mem_cons_self) (l.map (fun c => (c, false)) ++ stack) memo hmemo
        obtain ⟨m, memo₂, hm, hright₂, hl₂, hkept₂⟩ :=
          ihl (fun d hd => hl d (List.mem_cons_of_mem _ hd)) stack memo₁ hright₁
        refine ⟨n + m, memo₂, ?_, hright₂, ?_, fun d hd => hkept₂ d (hkept₁ d hd)⟩
        · intro k
          rw [Nat.add_assoc, List.map_cons, List.cons_append, hn, hm]
        · intro d hd
          rcases List.mem_cons.mp hd with rfl | hd
          · exact hkept₂ d hc₁
          · exact hl₂ d hd
    intro node hnode stack memo hmemo
    -- the children that the memo lacks are lower in the tree
    have hbelow : ∀ c ∈ (f.children node).filter fun c => !memo.contains c, rank c < r := by
      intro c hc
      have := htree node c (List.mem_of_mem_filter hc)
      omega
    obtain ⟨n, memo₁, hn, hright, hfresh, hkept⟩ := hall _ hbelow ((node, true) :: stack) memo hmemo
    -- after them the memo has every child
    have hchild : ∀ c ∈ f.children node, (memo₁.get? c).getD 0 = f.below weight (rank c + 1) c := by
      intro c hc
      have hin : memo₁.contains c = true := by
        by_cases hm : memo.contains c = true
        · exact hkept c hm
        · exact hfresh c (List.mem_filter.mpr ⟨hc, by rw [Bool.not_eq_true] at hm; rw [hm]; rfl⟩)
      obtain ⟨w, hw⟩ := Option.isSome_iff_exists.mp hin
      rw [hw]
      exact hright c w hw
    have htotal : weight node + ((f.children node).map fun c => (memo₁.get? c).getD 0).sum =
        f.below weight (rank node + 1) node := by
      rw [below_rank weight htree, List.map_congr_left hchild]
    refine ⟨n + 1 + 1, memo₁.set node (f.below weight (rank node + 1) node), ?_, ?_, ?_, ?_⟩
    · intro k
      rw [show n + 1 + 1 + k = (n + (k + 1)) + 1 by omega, cumulate, hn, cumulate, htotal]
    · intro c w hw
      rw [Dict.get?_set] at hw
      by_cases hc : c = node
      · rw [if_pos hc] at hw
        cases hw
        rw [hc]
      · rw [if_neg hc] at hw
        exact hright c w hw
    · unfold Dict.contains
      rw [Dict.get?_set, if_pos rfl]
      rfl
    · intro c hc
      unfold Dict.contains
      rw [Dict.get?_set]
      by_cases hcn : c = node
      · rw [if_pos hcn]
        rfl
      · rw [if_neg hcn]
        exact hkept c hc

theorem getCumulativeWeight_eq (hash : String) :
    ∃ n, ∀ rounds ≥ n, f.getCumulativeWeight weight rounds hash = some (f.below weight (rank hash + 1) hash) := by
  obtain ⟨n, memo, hn, hright, hin, -⟩ :=
    cumulate_node weight htree (rank hash + 1) hash (Nat.lt_succ_self _) [] [] fun c w h => nomatch h
  obtain ⟨w, hw⟩ := Option.isSome_iff_exists.mp hin
  refine ⟨n, ?_⟩
  intro rounds hr
  obtain ⟨k, rfl⟩ := Nat.exists_eq_add_of_le hr
  have hend : cumulate f weight k [] memo = some memo := by cases k <;> rfl
  unfold getCumulativeWeight
  rw [hn, hend, Option.map_some, hw, hright hash w hw]
  rfl

theorem bestChild_eq (l : List String) : ∃ n, ∀ rounds ≥ n, ∀ best, f.bestChild weight rounds l best =
    some (l.foldl (fun best c => f.better c (f.below weight (rank c + 1) c) best) best) := by
  induction l with
  | nil => exact ⟨0, fun _ _ best => rfl⟩
  | cons c l ih =>
    obtain ⟨n, hn⟩ := ih
    obtain ⟨m, hm⟩ := getCumulativeWeight_eq weight htree c
    refine ⟨max n m, ?_⟩
    intro rounds hr best
    rw [bestChild, hm rounds (le_trans (le_max_right _ _) hr)]
    exact hn rounds (le_trans (le_max_left _ _) hr) _

end tree

def headBelow (f : ForkTree) (total : String → Int) : Nat → String → String
  | 0, node => node
  | depth + 1, node =>
    match f.pick total (f.children node) with
    | none => node
    | some best => headBelow f total depth best

section tree
variable (htree : ∀ node, ∀ c ∈ f.children node, rank c < rank node)
include htree

theorem descend_eq (r : Nat) : ∀ node, rank node < r → ∃ n, ∀ rounds ≥ n, ∀ m ≥ n, ∀ visited,
    (∀ v ∈ visited, rank node < rank v) →
    f.descend weight rounds m node visited = some (f.headBelow (fun c => f.below weight (rank c + 1) c) r node) := by
  induction r with
  | zero => exact fun node h => absurd h (Nat.not_lt_zero _)
  | succ r ih =>
    intro node hnode
    have hall : ∀ l : List String, (∀ c ∈ l, rank c < r) → ∃ n, ∀ c ∈ l, ∀ rounds ≥ n, ∀ m ≥ n, ∀ visited,
        (∀ v ∈ visited, rank c < rank v) →
        f.descend weight rounds m c visited = some (f.headBelow (fun c => f.below weight (rank c + 1) c) r c) := by
      intro l
      induction l with
      | nil => exact fun _ => ⟨0, fun c hc => absurd hc List.not_mem_nil⟩
      | cons c l ihl =>
        intro hl
        obtain ⟨n, hn⟩ := ih c (hl c List.mem_cons_self)
        obtain ⟨m, hm⟩ := ihl fun d hd => hl d (List.mem_cons_of_mem _ hd)
        refine ⟨max n m, ?_⟩
        intro d hd rounds hr k hk
        rcases List.mem_cons.mp hd with rfl | hd
        · exact hn rounds (le_trans (le_max_left _ _) hr) k (le_trans (le_max_left _ _) hk)
        · exact hm d hd rounds (le_trans (le_max_right _ _) hr) k (le_trans (le_max_right _ _) hk)
    have hbelow : ∀ c ∈ f.children node, rank c < r := by
      intro c hc
      have := htree node c hc
      omega
    obtain ⟨n, hn⟩ := hall (f.children node) hbelow
    obtain ⟨m, hm⟩ := bestChild_eq weight htree (f.children node)
    refine ⟨max n m + 1, ?_⟩
    intro rounds hr k hk visited hvisited
    obtain ⟨k, rfl⟩ : ∃ j, k = j + 1 := ⟨k - 1, by omega⟩
    have hnew : node ∉ visited := fun hin => absurd (hvisited node hin) (Nat.lt_irrefl _)
    have hbest := hm rounds (by omega) (none, -1)
    rw [descend, if_neg hnew, headBelow]
    cases hl : f.children node with
    | nil => rfl
    | cons c l =>
      rw [hl] at hbest
      rw [← Prod.mk.eta (p := List.foldl _ _ _)] at hbest
      change _ = some (f.pick (fun c => f.below weight (rank c + 1) c) (c :: l), _) at hbest
      simp only [hbest]
      cases hp : f.pick (fun c => f.below weight (rank c + 1) c) (c :: l) with
      | none => rfl
      | some b =>
        have hb : b ∈ f.children node := hl ▸ pick_mem hp
        apply hn b hb rounds (by omega) k (by omega)
        intro v hv
        rcases List.mem_cons.mp hv with rfl | hv
        · exact htree _ b hb
        · exact lt_trans (htree node b hb) (hvisited v hv)

theorem selectHead_eq : ∃ n, ∀ rounds ≥ n, f.selectHead weight rounds = some (f.genesis.map fun g =>
    f.headBelow (fun c => f.below weight (rank c + 1) c) (rank g + 1) g) := by
  unfold selectHead
  cases f.genesis with
  | none => exact ⟨0, fun _ _ => rfl⟩
  | some g =>
    obtain ⟨n, hn⟩ := descend_eq weight htree (rank g + 1) g (Nat.lt_succ_self _)
    refine ⟨n, ?_⟩
    intro rounds hr
    dsimp only
    rw [hn rounds hr rounds hr [] fun v hv => absurd hv List.not_mem_nil]
    rfl

/-- On a tree there is always a head, or a tree without a top. -/
theorem selectHead_returns : ∃ rounds head, f.selectHead weight rounds = some head := by
  obtain ⟨n, hn⟩ := selectHead_eq weight htree
  exact ⟨n, _, hn n (le_refl _)⟩

end tree

end ForkTree

end AbsoluteChain
