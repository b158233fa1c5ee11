import AbsoluteChain.Merkle

/-!
# Two Merkle kernels

`crypto/native.py` hands a list and an index to the Rust kernel of `abs_native` when
it is installed, else to its own Python functions. The kernel walks each layer by
positions and takes its index as a `usize`.
-/

namespace AbsoluteChain

open Python HashTree

/-! ## The Rust kernel -/

namespace AbsNative

def usizeLimit : ℤ := 2 ^ 64

def toUsize (index : ℤ) : Option ℕ := if 0 ≤ index ∧ index < usizeLimit then some index.toNat else none

def hashString (data : String) : String := Digest.sha256Hex (encode data)

def pushLast (layer : List String) : Option (List String) :=
  if layer.length % 2 = 1 then layer[layer.length - 1]?.map fun last => layer ++ [last] else some layer

/-- The loop over the positions of a layer, two at a time; `none` is an index out of bounds. -/
def nextLayer (layer : List String) : ℕ → ℕ → Option (List String)
  | 0, _ => some []
  | rounds + 1, i =>
    if i < layer.length then
      match layer[i]?, layer[i + 1]? with
      | some a, some b => (nextLayer layer rounds (i + 2)).map fun next => hashString (a ++ b) :: next
      | _, _ => none
    else some []

def rootLoop : ℕ → List String → Option String
  | 0, layer => layer[0]?
  | rounds + 1, layer =>
    if 1 < layer.length then
      (pushLast layer).bind fun padded => (nextLayer padded padded.length 0).bind fun next => rootLoop rounds next
    else layer[0]?

def merkleRootStrings (items : List String) : Option String :=
  if items.isEmpty then some (hashString "empty") else rootLoop items.length (items.map hashString)

def proofLoop : ℕ → List String → ℕ → Option (List String)
  | 0, _, _ => some []
  | rounds + 1, layer, index =>
    if 1 < layer.length then
      (pushLast layer).bind fun padded =>
        let siblingIndex := if index % 2 = 0 then index + 1 else index - 1
        (nextLayer padded padded.length 0).bind fun next => (proofLoop rounds next (index / 2)).map fun proof =>
          (if siblingIndex < padded.length then padded[siblingIndex]?.toList else []) ++ proof
    else some []

def merkleProofStrings (items : List String) (targetIndex : ℕ) : Option (List String) :=
  if items.isEmpty ∨ items.length ≤ targetIndex then some []
  else proofLoop items.length (items.map hashString) targetIndex

def rootFromProof (currentHash : String) (index : ℕ) : List String → String
  | [] => currentHash
  | siblingHash :: proof =>
    let combined := if index % 2 = 0 then currentHash ++ siblingHash else siblingHash ++ currentHash
    rootFromProof (hashString combined) (index / 2) proof

def merkleRootFromProofString (item : String) (proof : List String) (targetIndex : ℕ) : String :=
  rootFromProof (hashString item) targetIndex proof

/-! ### What the loops compute -/

def joinPairs : List String → Option (List String)
  | [] => some []
  | [_] => none
  | a :: b :: rest => (joinPairs rest).map fun next => hashData (a ++ b) :: next

theorem nextLayer_drop (layer : List String) (rounds i : ℕ) (h : layer.length ≤ i + rounds) :
    nextLayer layer rounds i = joinPairs (layer.drop i) := by
  induction rounds generalizing i with
  | zero =>
    rw [List.drop_of_length_le (by omega)]
    rfl
  | succ rounds ih =>
    unfold nextLayer
    by_cases hi : i < layer.length
    · rw [if_pos hi, List.drop_eq_getElem_cons hi, List.getElem?_eq_getElem hi]
      by_cases hj : i + 1 < layer.length
      · rw [List.drop_eq_getElem_cons hj, List.getElem?_eq_getElem hj, joinPairs, ih (i + 2) (by omega)]
        rfl
      · rw [List.drop_of_length_le (by omega), List.getElem?_eq_none (by omega)]
        rfl
    · rw [if_neg hi, List.drop_of_length_le (by omega)]
      rfl

theorem pushLast_eq (layer : List String) : pushLast layer = some (padLayer layer) := by
  unfold pushLast padLayer
  by_cases hodd : layer.length % 2 = 1
  · rw [if_pos hodd, if_pos hodd, List.getLast?_eq_getElem?]
    have hin : layer.length - 1 < layer.length := by omega
    rw [List.getElem?_eq_getElem hin]
    rfl
  · rw [if_neg hodd, if_neg hodd]

theorem joinPairs_padLayer : ∀ layer : List String, joinPairs (padLayer layer) = some (mergeLayer layer)
  | [] => rfl
  | [_] => rfl
  | x :: y :: t => by
    rw [padLayer_cons, joinPairs, joinPairs_padLayer t]
    rfl

theorem nextLayer_eq (layer : List String) : nextLayer (padLayer layer) (padLayer layer).length 0 = some (mergeLayer layer) := by
  rw [nextLayer_drop _ _ _ (by omega), List.drop_zero, joinPairs_padLayer]

theorem rootLoop_eq (rounds : ℕ) {layer : List String} (hne : layer ≠ []) :
    rootLoop rounds layer = some (mergeLayers rounds layer) := by
  induction rounds generalizing layer with
  | zero =>
    match layer, hne with
    | [_], _ => rfl
    | _ :: _ :: _, _ => rfl
  | succ rounds ih =>
    match layer, hne with
    | [_], _ => rfl
    | x :: y :: t, _ =>
      have hnext : mergeLayer (x :: y :: t) ≠ [] := List.cons_ne_nil _ _
      rw [rootLoop, if_pos (by simp), pushLast_eq, Option.bind_some, nextLayer_eq, Option.bind_some, ih hnext]
      rfl

theorem proofLoop_eq (rounds : ℕ) (layer : List String) (index : ℕ) :
    proofLoop rounds layer index = some (proofLayers rounds layer index) := by
  induction rounds generalizing layer index with
  | zero =>
    match layer with
    | [] => rfl
    | [_] => rfl
    | _ :: _ :: _ => rfl
  | succ rounds ih =>
    match layer with
    | [] => rfl
    | [_] => rfl
    | x :: y :: t =>
      rw [proofLoop, if_pos (by simp), pushLast_eq, Option.bind_some]
      dsimp only
      rw [nextLayer_eq, Option.bind_some, ih, Option.map_some, proofLayers]
      generalize (if index % 2 = 0 then index + 1 else index - 1) = sibling
      by_cases hin : sibling < (padLayer (x :: y :: t)).length
      · rw [if_pos hin]
      · rw [if_neg hin, List.getElem?_eq_none (not_lt.mp hin)]
        rfl

theorem rootFromProof_eq (currentHash : String) (proof : List String) (index : ℕ) :
    rootFromProof currentHash index proof = climb currentHash proof index := by
  induction proof generalizing currentHash index with
  | nil => rfl
  | cons sibling proof ih =>
    rw [rootFromProof, climb_cons]
    exact ih _ _

theorem merkleRootStrings_eq (items : List String) : merkleRootStrings items = some (merkleRoot items) := by
  cases items with
  | nil => rfl
  | cons x t => exact rootLoop_eq _ (List.cons_ne_nil _ _)

theorem merkleProofStrings_eq (items : List String) (index : ℕ) :
    merkleProofStrings items index = some (generateProof items index) := by
  unfold merkleProofStrings generateProof
  by_cases hout : items = [] ∨ items.length ≤ index
  · rw [if_pos (by simpa using hout), if_pos (by simp only [Nat.cast_le]; exact .inr hout)]
  · rw [if_neg (by simpa using hout), if_neg (by simp only [Nat.cast_le]; exact fun h => h.elim (by omega) hout)]
    exact proofLoop_eq _ _ _

end AbsNative

/-! ## The facade -/

/-- The kernel in use: `true` for the Rust one. An index that no `usize` holds is refused on the way into it. -/
def merkleRootBy (native : Bool) (items : List String) : Except String String :=
  if native then (AbsNative.merkleRootStrings items).elim (.error "index out of bounds") .ok else .ok (merkleRoot items)

def generateProofBy (native : Bool) (items : List String) (targetIndex : ℤ) : Except String (List String) :=
  if targetIndex < 0 then .ok []
  else if native then
    match AbsNative.toUsize targetIndex with
    | none => .error "int too big to convert"
    | some index => (AbsNative.merkleProofStrings items index).elim (.error "index out of bounds") .ok
  else .ok (generateProof items targetIndex)

def merkleRootFromProofBy (native : Bool) (item : String) (proof : List String) (targetIndex : ℤ) : Except String String :=
  if targetIndex < 0 then .ok (hashData item)
  else if native then
    match AbsNative.toUsize targetIndex with
    | none => .error "int too big to convert"
    | some index => .ok (AbsNative.merkleRootFromProofString item proof index)
  else .ok (merkleRootFromProof item proof targetIndex)

theorem toUsize_of_lt {index : ℤ} (hlow : 0 ≤ index) (hhigh : index < AbsNative.usizeLimit) :
    AbsNative.toUsize index = some index.toNat := if_pos ⟨hlow, hhigh⟩

theorem merkleRootBy_eq (native : Bool) (items : List String) : merkleRootBy native items = .ok (merkleRoot items) := by
  cases native with
  | false => rfl
  | true =>
    unfold merkleRootBy
    rw [if_pos rfl, AbsNative.merkleRootStrings_eq]
    rfl

theorem generateProofBy_eq (native : Bool) (items : List String) {index : ℤ}
    (h : native = true → index < AbsNative.usizeLimit) :
    generateProofBy native items index = .ok (generateProof items index) := by
  unfold generateProofBy
  by_cases hneg : index < 0
  · rw [if_pos hneg]
    unfold generateProof
    rw [if_pos (.inl hneg)]
  · rw [if_neg hneg]
    cases native with
    | false => rfl
    | true =>
      have hlow := not_lt.mp hneg
      rw [if_pos rfl, toUsize_of_lt hlow (h rfl)]
      dsimp only
      rw [AbsNative.merkleProofStrings_eq, Int.toNat_of_nonneg hlow]
      rfl

theorem merkleRootFromProofBy_eq (native : Bool) (item : String) (proof : List String) {index : ℤ}
    (h : native = true → index < AbsNative.usizeLimit) :
    merkleRootFromProofBy native item proof index = .ok (merkleRootFromProof item proof index) := by
  unfold merkleRootFromProofBy
  by_cases hneg : index < 0
  · rw [if_pos hneg]
    unfold merkleRootFromProof
    rw [if_pos hneg]
  · rw [if_neg hneg]
    cases native with
    | false => rfl
    | true =>
      rw [if_pos rfl, toUsize_of_lt (not_lt.mp hneg) (h rfl)]
      unfold merkleRootFromProof
      rw [if_neg hneg]
      exact congrArg Except.ok (AbsNative.rootFromProof_eq _ _ _)

/-! ## Completeness -/

theorem length_proofLayers (rounds : ℕ) : ∀ (layer : List String) (i : ℕ), layer.length ≤ rounds + 1 → i < layer.length →
    (proofLayers rounds layer i).length = Nat.clog 2 layer.length := by
  induction rounds with
  | zero =>
    intro layer i hl hi
    match layer, hl, hi with
    | [_], _, _ => simp [proofLayers]
  | succ rounds ih =>
    intro layer i hl hi
    match layer, hl, hi with
    | [_], _, _ => simp [proofLayers]
    | x :: y :: t, hl, hi =>
      have hsize := length_mergeLayer (x :: y :: t)
      have hshort : (mergeLayer (x :: y :: t)).length ≤ rounds + 1 := by
        simp only [List.length_cons] at hl hsize ⊢
        omega
      have hinside : i / 2 < (mergeLayer (x :: y :: t)).length := by omega
      have hlog : Nat.clog 2 (x :: y :: t).length = Nat.clog 2 (((x :: y :: t).length + 1) / 2) + 1 :=
        clog_pairUp (by simp)
      obtain ⟨left, right, hleft, hright, -⟩ := getElem_mergeLayer (x :: y :: t) (i / 2) (by omega)
      unfold proofLayers
      dsimp only
      rw [List.length_append, ih _ _ hshort hinside, hlog, hsize, Nat.add_comm]
      congr 1
      rcases Nat.mod_two_eq_zero_or_one i with heven | hodd
      · rw [show 2 * (i / 2) + 1 = i + 1 by omega] at hright
        rw [if_pos heven, hright]
        rfl
      · rw [show 2 * (i / 2) = i - 1 by omega] at hleft
        rw [if_neg (by omega), hleft]
        rfl

theorem length_generateProof {items : List String} {i : ℕ} (hi : i < items.length) :
    (generateProof items i).length = Nat.clog 2 items.length := by
  have hne : items ≠ [] := List.ne_nil_of_length_pos (Nat.zero_lt_of_lt hi)
  unfold generateProof
  rw [if_neg (by simp only [hne, false_or]; omega), Int.toNat_natCast,
    length_proofLayers _ _ _ (by simp) (by rwa [List.length_map]), List.length_map]

/-- Each item of a list has a proof of one sibling a level that leads to the root, under either kernel;
the kernels agree on every root and on every proof whose index a `usize` holds. -/
theorem merkle_complete {α : Type} (str : α → String) (items : List α) :
    (∀ (native : Bool) (i : ℕ) (x : α), items[i]? = some x → (native = true → (i : ℤ) < AbsNative.usizeLimit) →
      ∃ proof, generateProofBy native (items.map str) i = .ok proof ∧ proof.length = Nat.clog 2 items.length ∧
        merkleRootFromProofBy native (str x) proof i = merkleRootBy native (items.map str)) ∧
    merkleRootBy true (items.map str) = merkleRootBy false (items.map str) ∧
    ∀ index : ℤ, index < AbsNative.usizeLimit →
      generateProofBy true (items.map str) index = generateProofBy false (items.map str) index := by
  refine ⟨fun native i x hx hsize => ?_, ?_, fun index hindex => ?_⟩
  · have hget : (items.map str)[i]? = some (str x) := by
      rw [List.getElem?_map, hx]
      rfl
    have hlt : i < (items.map str).length := (List.getElem?_eq_some_iff.mp hget).1
    refine ⟨_, generateProofBy_eq native _ hsize, ?_, ?_⟩
    · rw [length_generateProof hlt, List.length_map]
    · rw [merkleRootFromProofBy_eq native _ _ hsize, merkleRootBy_eq, merkleRootFromProof_generateProof hget]
  · rw [merkleRootBy_eq, merkleRootBy_eq]
  · rw [generateProofBy_eq true _ fun _ => hindex, generateProofBy_eq false _ fun h => absurd h Bool.false_ne_true]

theorem merkle_complete_three : ∃ proof, generateProofBy true ["a", "b", "c"] 2 = .ok proof ∧ proof.length = 2 ∧
    merkleRootFromProofBy true "c" proof 2 = merkleRootBy true ["a", "b", "c"] :=
  (merkle_complete id ["a", "b", "c"]).1 true 2 "c" rfl fun _ => by decide

/-- The Rust kernel refuses an index beyond a `usize`; the Python functions have an empty proof for it. -/
theorem kernels_differ : ¬ ∀ (items : List String) (index : ℤ),
    generateProofBy true items index = generateProofBy false items index := by
  intro h
  have hrefused : generateProofBy true ["a"] (2 ^ 64) = .error "int too big to convert" := rfl
  have hempty : generateProofBy false ["a"] (2 ^ 64) = .ok [] := rfl
  have hsame := h ["a"] (2 ^ 64)
  rw [hrefused, hempty] at hsame
  cases hsame

end AbsoluteChain
