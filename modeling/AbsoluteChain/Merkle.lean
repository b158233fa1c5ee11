import AbsoluteChain.Chain
import AbsoluteChain.HashTree

/-!
# Merkle roots and proofs

The tree of `merkle_root` as a tree of hashes: what an accepted proof proves, and which
lists share a root.
-/

namespace AbsoluteChain

open Python HashTree

/-! ## Proofs -/

def padLayer (layer : List String) : List String :=
  if layer.length % 2 = 1 then layer ++ layer.getLast?.toList else layer

def proofLayers : ℕ → List String → ℕ → List String
  | _, [], _ => []
  | _, [_], _ => []
  | 0, _ :: _, _ => []
  | fuel + 1, x :: y :: t, index =>
    let siblingIndex := if index % 2 = 0 then index + 1 else index - 1
    (padLayer (x :: y :: t))[siblingIndex]?.toList ++ proofLayers fuel (mergeLayer (x :: y :: t)) (index / 2)

def generateProof (items : List String) (targetIndex : ℤ) : List String :=
  if targetIndex < 0 ∨ items = [] ∨ (items.length : ℤ) ≤ targetIndex then []
  else proofLayers items.length (items.map hashData) targetIndex.toNat

def climb : String → List String → ℕ → String
  | currentHash, [], _ => currentHash
  | currentHash, sibling :: proof, index =>
    climb (hashData (if index % 2 = 0 then currentHash ++ sibling else sibling ++ currentHash)) proof (index / 2)

theorem climb_cons (currentHash sibling : String) (proof : List String) (index : ℕ) :
    climb currentHash (sibling :: proof) index =
      climb (hashData (if index % 2 = 0 then currentHash ++ sibling else sibling ++ currentHash)) proof (index / 2) := rfl

def merkleRootFromProof (item : String) (proof : List String) (targetIndex : ℤ) : String :=
  if targetIndex < 0 then hashData item else climb (hashData item) proof targetIndex.toNat

def verifyProof (item : String) (proof : List String) (expectedRoot : String) (targetIndex : ℤ) : Bool :=
  if targetIndex < 0 then false else merkleRootFromProof item proof targetIndex = expectedRoot

/-! ## Generated proofs are accepted -/

theorem padLayer_cons (x y : String) (t : List String) : padLayer (x :: y :: t) = x :: y :: padLayer t := by
  unfold padLayer
  have hmod : (x :: y :: t).length % 2 = t.length % 2 := by
    simp only [List.length_cons]
    omega
  rw [hmod]
  by_cases hodd : t.length % 2 = 1
  · rw [if_pos hodd, if_pos hodd]
    cases t with
    | nil => cases hodd
    | cons z t => rfl
  · rw [if_neg hodd, if_neg hodd]

/-- A node of the next layer is the hash of the two padded nodes below it. -/
theorem getElem_mergeLayer : ∀ (l : List String) (j : ℕ), 2 * j < l.length →
    ∃ a b, (padLayer l)[2 * j]? = some a ∧ (padLayer l)[2 * j + 1]? = some b ∧
      (mergeLayer l)[j]? = some (hashData (a ++ b))
  | [], j, hj => absurd hj (Nat.not_lt_zero _)
  | [x], j, hj => by
    obtain rfl : j = 0 := by simp only [List.length_singleton] at hj; omega
    exact ⟨x, x, rfl, rfl, rfl⟩
  | x :: y :: t, 0, _ => ⟨x, y, by rw [padLayer_cons]; rfl, by rw [padLayer_cons]; rfl, rfl⟩
  | x :: y :: t, j + 1, hj => by
    obtain ⟨a, b, ha, hb, hm⟩ := getElem_mergeLayer t j (by simp only [List.length_cons] at hj; omega)
    rw [padLayer_cons]
    exact ⟨a, b, ha, hb, hm⟩

theorem length_mergeLayer : ∀ l : List String, (mergeLayer l).length = (l.length + 1) / 2
  | [] => by simp [mergeLayer]
  | [_] => by simp [mergeLayer]
  | _ :: _ :: t => by
    have := length_mergeLayer t
    simp only [mergeLayer, List.length_cons]
    omega

theorem padLayer_get {l : List String} {i : ℕ} (hi : i < l.length) : (padLayer l)[i]? = l[i]? := by
  unfold padLayer
  by_cases hodd : l.length % 2 = 1
  · rw [if_pos hodd, List.getElem?_append_left hi]
  · rw [if_neg hodd]

/-- Climbing from a node along its siblings ends at the root; the induction is on the rounds. -/
theorem climb_proofLayers (n : ℕ) : ∀ (l : List String) (i : ℕ) (a : String), l.length ≤ n + 1 → l[i]? = some a →
    climb a (proofLayers n l i) i = mergeLayers n l := by
  induction n with
  | zero =>
    intro l i a hl ha
    match l, hl, ha with
    | [x], _, ha =>
      obtain ⟨hi, rfl⟩ := List.getElem?_eq_some_iff.mp ha
      obtain rfl : i = 0 := by simp only [List.length_singleton] at hi; omega
      rfl
  | succ n ih =>
    intro l i a hl ha
    match l, hl, ha with
    | [x], _, ha =>
      obtain ⟨hi, rfl⟩ := List.getElem?_eq_some_iff.mp ha
      obtain rfl : i = 0 := by simp only [List.length_singleton] at hi; omega
      rfl
    | x :: y :: t, hl, ha =>
      have hi : i < (x :: y :: t).length := (List.getElem?_eq_some_iff.mp ha).1
      have hshort : (mergeLayer (x :: y :: t)).length ≤ n + 1 := by
        rw [length_mergeLayer]
        simp only [List.length_cons] at hl ⊢
        omega
      obtain ⟨left, right, hleft, hright, hparent⟩ := getElem_mergeLayer (x :: y :: t) (i / 2) (by omega)
      have hself := padLayer_get hi
      rw [ha] at hself
      unfold proofLayers mergeLayers
      dsimp only
      rcases Nat.mod_two_eq_zero_or_one i with heven | hodd
      · have hpos : 2 * (i / 2) = i := by omega
        rw [hpos] at hleft hright
        rw [if_pos heven, hright]
        obtain rfl := Option.some.inj (hself.symm.trans hleft)
        rw [Option.toList_some, List.singleton_append, climb_cons, if_pos heven]
        exact ih _ (i / 2) _ hshort hparent
      · have hpos : 2 * (i / 2) + 1 = i := by omega
        have hbefore : 2 * (i / 2) = i - 1 := by omega
        rw [hpos] at hright
        rw [hbefore] at hleft
        have hne : ¬ i % 2 = 0 := by omega
        rw [if_neg hne, hleft]
        obtain rfl := Option.some.inj (hself.symm.trans hright)
        rw [Option.toList_some, List.singleton_append, climb_cons, if_neg hne]
        exact ih _ (i / 2) _ hshort hparent

theorem merkleRootFromProof_generateProof {items : List String} {i : ℕ} {x : String} (hi : items[i]? = some x) :
    merkleRootFromProof x (generateProof items i) i = merkleRoot items := by
  have hlt : i < items.length := (List.getElem?_eq_some_iff.mp hi).1
  have hne : items ≠ [] := List.ne_nil_of_length_pos (Nat.zero_lt_of_lt hlt)
  unfold merkleRootFromProof generateProof
  rw [if_neg (by omega), if_neg (by simp only [hne, false_or]; omega), Int.toNat_natCast]
  cases items with
  | nil => exact absurd rfl hne
  | cons y t =>
    unfold merkleRoot
    refine climb_proofLayers _ _ i _ (by simp) ?_
    rw [List.getElem?_map, hi]
    rfl

/-! ## The tree -/

theorem hashData_length (s : String) : (hashData s).length = 64 := Digest.sha256Hex_length _

def sha : Hashing String where
  hash := hashData
  join s t := s ++ t
  join_left := by
    intro a b s t h
    have hl := congrArg String.toList h
    rw [String.toList_append, String.toList_append] at hl
    have hlen : (hashData a).toList.length = (hashData b).toList.length := (hashData_length a).trans (hashData_length b).symm
    obtain ⟨h₁, h₂⟩ := List.append_inj hl hlen
    exact ⟨String.toList_inj.mp h₁, String.toList_inj.mp h₂⟩
  join_right := by
    intro a b s t h
    have hl := congrArg String.toList h
    rw [String.toList_append, String.toList_append] at hl
    have hlen : (hashData a).toList.length = (hashData b).toList.length := (hashData_length a).trans (hashData_length b).symm
    obtain ⟨h₁, h₂⟩ := List.append_inj' hl hlen
    exact ⟨String.toList_inj.mp h₁, String.toList_inj.mp h₂⟩

def merkleTree (items : List String) : TextTree String := pairAll (.leaf "empty") items.length (items.map .leaf)

theorem mergeLayer_tree : ∀ l : List (TextTree String), mergeLayer (l.map (TextTree.rootHash sha)) = (pairUp l).map (TextTree.rootHash sha)
  | [] => rfl
  | [_] => rfl
  | _ :: _ :: rest => congrArg (List.cons _) (mergeLayer_tree rest)

theorem mergeLayers_succ (n : ℕ) (x y : String) (t : List String) :
    mergeLayers (n + 1) (x :: y :: t) = mergeLayers n (mergeLayer (x :: y :: t)) := rfl

theorem mergeLayers_tree (default : TextTree String) (n : ℕ) : ∀ l : List (TextTree String), l ≠ [] →
    mergeLayers n (l.map (TextTree.rootHash sha)) = (pairAll default n l).rootHash sha := by
  induction n with
  | zero =>
    intro l hne
    match l, hne with
    | [_], _ => rfl
    | _ :: _ :: _, _ => rfl
  | succ n ih =>
    intro l hne
    match l, hne with
    | [_], _ => rfl
    | t :: u :: rest, _ =>
      have hnext : pairUp (t :: u :: rest) ≠ [] := by simp [pairUp]
      rw [pairAll, ← ih _ hnext, ← mergeLayer_tree, List.map_cons, List.map_cons, mergeLayers_succ]

theorem merkleRoot_tree (items : List String) : merkleRoot items = (merkleTree items).rootHash sha := by
  cases items with
  | nil => rfl
  | cons x t =>
    have hmap : (x :: t).map hashData = ((x :: t).map TextTree.leaf).map (TextTree.rootHash sha) := by
      rw [List.map_map]
      rfl
    show mergeLayers (x :: t).length ((x :: t).map hashData) = _
    rw [hmap]
    exact mergeLayers_tree (.leaf "empty") _ _ (List.cons_ne_nil _ _)

theorem merkleTree_spec {items : List String} (hne : items ≠ []) :
    (merkleTree items).Perfect (Nat.clog 2 items.length) ∧ items <+: (merkleTree items).leaves := by
  have hleaves : ∀ l : List String, (l.map TextTree.leaf).flatMap TextTree.leaves = l := by
    intro l
    induction l with
    | nil => rfl
    | cons x l ih => exact congrArg (List.cons x) ih
  have hspec := pairAll_spec (.leaf "empty") items.length (d := 0) (l := items.map .leaf) (by simpa using hne) (by simp)
    (by
      intro t ht
      obtain ⟨x, -, rfl⟩ := List.mem_map.mp ht
      trivial)
  rwa [List.length_map, Nat.zero_add, hleaves] at hspec

/-! ## The way up -/

def stepsUp : List String → ℕ → Path String
  | [], _ => []
  | sibling :: proof, index => (index % 2 = 1, sibling) :: stepsUp proof (index / 2)

theorem combine_index (i : ℕ) (sibling : String) (above : Path String) (x : String) :
    (if i % 2 = 0 then hashData (pathText sha above x) ++ sibling else sibling ++ hashData (pathText sha above x)) =
      pathText sha ((decide (i % 2 = 1), sibling) :: above) x := by
  show _ = combine sha _ sibling (pathText sha above x)
  unfold combine
  rcases Nat.mod_two_eq_zero_or_one i with h | h
  · rw [if_pos h, if_neg (by rw [h]; decide)]
    rfl
  · rw [if_neg (by rw [h]; decide), if_pos (by rw [h]; decide)]
    rfl

theorem climb_path (proof : List String) (i : ℕ) (above : Path String) (x : String) :
    climb (hashData (pathText sha above x)) proof i = hashData (pathText sha ((stepsUp proof i).reverse ++ above) x) := by
  induction proof generalizing i above with
  | nil => rfl
  | cons sibling proof ih =>
    rw [climb_cons, combine_index, ih, stepsUp, List.reverse_cons, List.append_assoc, List.singleton_append]

theorem position_snoc (path : Path String) (b : Bool) (s : String) :
    position (path ++ [(b, s)]) = 2 * position path + if b then 1 else 0 := by
  induction path with
  | nil => cases b <;> rfl
  | cons step path ih =>
    obtain ⟨c, r⟩ := step
    simp only [List.cons_append, position, ih, List.length_append, List.length_singleton]
    cases c with
    | true => simp only [if_true, pow_succ]; ring
    | false => simp only [Bool.false_eq_true, if_false]; ring

theorem position_stepsUp (proof : List String) (i : ℕ) : position (stepsUp proof i).reverse = i % 2 ^ proof.length := by
  induction proof generalizing i with
  | nil => simp [stepsUp, position, Nat.mod_one]
  | cons sibling proof ih =>
    rw [stepsUp, List.reverse_cons, position_snoc, ih, List.length_cons, pow_succ, mul_comm (2 ^ proof.length), Nat.mod_mul]
    rcases Nat.mod_two_eq_zero_or_one i with h | h
    · simp [h]
    · simp [h, add_comm]

theorem length_stepsUp (proof : List String) (i : ℕ) : (stepsUp proof i).length = proof.length := by
  induction proof generalizing i with
  | nil => rfl
  | cons sibling proof ih => exact congrArg Nat.succ (ih (i / 2))

/-! ## What an accepted proof proves -/

def Proves (items : List String) (x : String) (proof : List String) (i : ℤ) : Prop :=
  verifyProof x proof (merkleRoot items) i = true → i < items.length ∧ items[i.toNat]? = some x

/-- The siblings lead down the tree along the index to a text that is not the item there: to an inner
node, to a leaf beyond the list or another one, or into the text of a leaf. -/
def Stray (items : List String) (x : String) (proof : List String) (i : ℤ) : Prop :=
  0 ≤ i ∧ (merkleTree items).Leads sha (stepsUp proof i.toNat).reverse x ∧ items[i.toNat]? ≠ some x

def hashedTexts (items : List String) (x : String) (proof : List String) (i : ℤ) : List String :=
  (merkleTree items).texts sha ++ pathTexts sha (stepsUp proof i.toNat).reverse x

section
variable {items : List String} {x : String} {proof : List String} {i : ℤ}

theorem verifyProof_iff (hs : Apart sha (hashedTexts items x proof i)) :
    verifyProof x proof (merkleRoot items) i = true ↔
      0 ≤ i ∧ (merkleTree items).Leads sha (stepsUp proof i.toNat).reverse x := by
  unfold verifyProof merkleRootFromProof
  by_cases hneg : i < 0
  · rw [if_pos hneg]
    exact iff_of_false Bool.false_ne_true fun h => absurd h.1 (not_le.mpr hneg)
  · rw [if_neg hneg, if_neg hneg, decide_eq_true_iff, merkleRoot_tree]
    have hclimb := climb_path proof i.toNat [] x
    rw [List.append_nil] at hclimb
    rw [show climb (hashData x) proof i.toNat = _ from hclimb]
    exact (leads_iff hs).trans (and_iff_right (not_lt.mp hneg)).symm

theorem proves_iff (hs : Apart sha (hashedTexts items x proof i)) : Proves items x proof i ↔ ¬ Stray items x proof i := by
  unfold Proves Stray
  rw [verifyProof_iff hs]
  constructor
  · rintro h ⟨hpos, hleads, hne⟩
    exact hne (h ⟨hpos, hleads⟩).2
  · rintro h ⟨hpos, hleads⟩
    have hget : items[i.toNat]? = some x := by
      by_contra hne
      exact h ⟨hpos, hleads, hne⟩
    have hlt := (List.getElem?_eq_some_iff.mp hget).1
    exact ⟨by omega, hget⟩

theorem proves_of_length (hs : Apart sha (hashedTexts items x proof i)) (hlen : proof.length = Nat.clog 2 items.length)
    (hlt : i < items.length) : Proves items x proof i := by
  intro hverify
  obtain ⟨hpos, hleads⟩ := (verifyProof_iff hs).mp hverify
  have hne : items ≠ [] := by
    rintro rfl
    exact absurd hpos (not_le.mpr hlt)
  obtain ⟨hperfect, extra, hleaves⟩ := merkleTree_spec hne
  have hpath : (stepsUp proof i.toNat).reverse.length = Nat.clog 2 items.length := by
    rw [List.length_reverse, length_stepsUp, hlen]
  have hleaf := leads_leaf hperfect hpath hleads
  have hsmall : i.toNat < items.length := by omega
  have hmod : i.toNat % 2 ^ proof.length = i.toNat := by
    rw [hlen]
    exact Nat.mod_eq_of_lt (lt_of_lt_of_le hsmall (Nat.le_pow_clog Nat.one_lt_two _))
  rw [position_stepsUp, hmod, ← hleaves, List.getElem?_append_left hsmall] at hleaf
  exact ⟨hlt, hleaf⟩

end

theorem merkleRoot_inj {xs ys : List String} (hs : Apart sha ((merkleTree xs).texts sha ++ (merkleTree ys).texts sha))
    (hlen : xs.length = ys.length) (hroot : merkleRoot xs = merkleRoot ys) : xs = ys := by
  rw [merkleRoot_tree, merkleRoot_tree, twin_iff hs] at hroot
  cases xs with
  | nil => exact (List.eq_nil_of_length_eq_zero hlen.symm).symm
  | cons x t =>
    have hne : ys ≠ [] := List.ne_nil_of_length_pos (by rw [← hlen]; exact Nat.succ_pos _)
    obtain ⟨hperfect, hleaves⟩ := merkleTree_spec (List.cons_ne_nil x t)
    obtain ⟨hperfect', hleaves'⟩ := merkleTree_spec hne
    rw [← hlen] at hperfect'
    rw [twin_leaves hperfect hperfect' hroot] at hleaves
    exact List.prefix_of_prefix_length_le hleaves hleaves' (le_of_eq hlen) |>.eq_of_length hlen

/-- Without a collision among the texts that are hashed, a proof is sound unless it strays, and roots
are told apart unless the trees are twins. -/
theorem merkle_sound {items : List String} {x : String} {proof : List String} {i : ℤ}
    (hs : Apart sha (hashedTexts items x proof i)) {xs ys : List String}
    (hw : Apart sha ((merkleTree xs).texts sha ++ (merkleTree ys).texts sha)) :
    ((Proves items x proof i ↔ ¬ Stray items x proof i) ∧
      (proof.length = Nat.clog 2 items.length → i < items.length → Proves items x proof i)) ∧
    (((merkleRoot xs = merkleRoot ys → xs = ys) ↔ (xs = ys ∨ ¬ (merkleTree xs).Twin sha (merkleTree ys))) ∧
      (xs.length = ys.length → merkleRoot xs = merkleRoot ys → xs = ys)) := by
  refine ⟨⟨proves_iff hs, proves_of_length hs⟩, ?_, merkleRoot_inj hw⟩
  rw [merkleRoot_tree, merkleRoot_tree, twin_iff hw]
  tauto

theorem apart_singleton (x : String) : Apart sha [x] := by
  intro a ha b hb _
  rw [List.mem_singleton.mp ha, List.mem_singleton.mp hb]

theorem apart_of_nodup {S : List String} (h : (S.map hashData).Nodup) : Apart sha S :=
  fun _ ha _ hb hab => List.inj_on_of_nodup_map h ha hb hab

section three
variable (a b c : String)

theorem texts_three : (merkleTree [a, b, c]).texts sha =
    [hashData (hashData a ++ hashData b) ++ hashData (hashData c ++ hashData c), hashData a ++ hashData b, a, b,
      hashData c ++ hashData c, c, c] := rfl

/-- The siblings of the second of three items. -/
def siblingsOfSecond : List String := [hashData a, hashData (hashData c ++ hashData c)]

theorem hashedTexts_second : hashedTexts [a, b, c] b (siblingsOfSecond a c) 1 = (merkleTree [a, b, c]).texts sha ++
    [hashData (hashData a ++ hashData b) ++ hashData (hashData c ++ hashData c), hashData a ++ hashData b, b] := rfl

theorem verifyProof_second : verifyProof b (siblingsOfSecond a c) (merkleRoot [a, b, c]) 1 = true := decide_eq_true rfl

end three

/-- Three items: the last one is joined with itself, and the proof has two siblings. -/
theorem merkle_sound_three :
    (verifyProof "b" (siblingsOfSecond "a" "c") (merkleRoot ["a", "b", "c"]) 1 = true ∧
      Proves ["a", "b", "c"] "b" (siblingsOfSecond "a" "c") 1) ∧
    (merkleRoot ["a", "b", "c"] = merkleRoot ["c", "c", "c"] → ["a", "b", "c"] = ["c", "c", "c"]) := by
  have hall : Apart sha (["a", "b", "c", hashData "a" ++ hashData "b", hashData "c" ++ hashData "c",
      hashData (hashData "a" ++ hashData "b") ++ hashData (hashData "c" ++ hashData "c"),
      hashData (hashData "c" ++ hashData "c") ++ hashData (hashData "c" ++ hashData "c")]) :=
    apart_of_nodup (by decide +kernel)
  have hone : Apart sha (hashedTexts ["a", "b", "c"] "b" (siblingsOfSecond "a" "c") 1) := by
    refine hall.mono fun s hs => ?_
    rw [hashedTexts_second, texts_three] at hs
    simp only [List.cons_append, List.nil_append, List.mem_cons, List.not_mem_nil, or_false] at hs ⊢
    grind
  have htwo : Apart sha ((merkleTree ["a", "b", "c"]).texts sha ++ (merkleTree ["c", "c", "c"]).texts sha) := by
    refine hall.mono fun s hs => ?_
    rw [texts_three, texts_three] at hs
    simp only [List.cons_append, List.nil_append, List.mem_cons, List.not_mem_nil, or_false] at hs ⊢
    grind
  obtain ⟨⟨-, hlen⟩, -, hinj⟩ := merkle_sound hone htwo
  exact ⟨⟨verifyProof_second "a" "b" "c", hlen rfl (by decide)⟩, hinj rfl⟩

theorem verifyProof_nil {x root : String} {i : ℤ} (hi : 0 ≤ i) : verifyProof x [] root i = decide (hashData x = root) := by
  unfold verifyProof merkleRootFromProof
  rw [if_neg (not_lt.mpr hi), if_neg (not_lt.mpr hi)]
  rfl

theorem merkleRoot_single (a : String) : merkleRoot [a] = hashData a := rfl

theorem merkleRoot_pair (a b : String) : merkleRoot [a, b] = hashData (hashData a ++ hashData b) := rfl

theorem merkleRoot_odd (a b c : String) : merkleRoot [a, b, c] = merkleRoot [a, b, c, c] := rfl

/-- A proof for an index beyond the list, an item that is the text of an inner node, and two lists of
one root. -/
theorem merkle_unsound :
    (verifyProof "tx" [] (merkleRoot ["tx"]) 7 = true ∧ ¬ Proves ["tx"] "tx" [] 7) ∧
    (verifyProof (hashData "a" ++ hashData "b") [] (merkleRoot ["a", "b"]) 0 = true ∧
      ¬ Proves ["a", "b"] (hashData "a" ++ hashData "b") [] 0) ∧
    (merkleRoot ["a", "b", "c"] = merkleRoot ["a", "b", "c", "c"] ∧ ["a", "b", "c"] ≠ ["a", "b", "c", "c"]) := by
  have hbeyond : verifyProof "tx" [] (merkleRoot ["tx"]) 7 = true := by
    rw [verifyProof_nil (by decide), merkleRoot_single]
    exact decide_eq_true rfl
  have hinner : verifyProof (hashData "a" ++ hashData "b") [] (merkleRoot ["a", "b"]) 0 = true := by
    rw [verifyProof_nil (le_refl 0), merkleRoot_pair]
    exact decide_eq_true rfl
  refine ⟨⟨hbeyond, fun h => ?_⟩, ⟨hinner, fun h => ?_⟩, merkleRoot_odd "a" "b" "c", by decide⟩
  · exact absurd (h hbeyond).1 (by decide)
  · have hitem := Option.some.inj (h hinner).2
    have hlen := congrArg String.length hitem
    rw [String.length_append, hashData_length, hashData_length] at hlen
    exact absurd hlen (by decide)

end AbsoluteChain
