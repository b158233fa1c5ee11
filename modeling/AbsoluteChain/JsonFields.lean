import AbsoluteChain.JsonSound

/-!
# Fields of objects

What stands under a key, values with other floats in them, and the words that no number
reads like.
-/

namespace JsonText

variable {φ : Type}

/-! ## Looking up keys -/

def Fields.get? (key : String) : Fields φ → Option (Json φ)
  | .nil => none
  | .cons k v t => (t.get? key).or (if k = key then some v else none)

theorem Fields.get?_insert (k : String) (v : Json φ) (key : String) :
    ∀ t : Fields φ, (Fields.insert k v t).get? key = (t.get? key).or (if k = key then some v else none)
  | .nil => rfl
  | .cons k' v' t => by
    unfold Fields.insert
    by_cases hle : k ≤ k'
    · rw [if_pos hle]
      rfl
    · have hne : k' ≠ k := by
        rintro rfl
        exact hle (String.le_refl _)
      rw [if_neg hle]
      unfold Fields.get?
      rw [get?_insert k v key t]
      by_cases hk : k = key
      · rw [if_pos hk, if_neg (hk ▸ hne), Option.or_none, Option.or_none]
      · rw [if_neg hk, Option.or_none, Option.or_none]

theorem Fields.get?_sortKeys (key : String) : ∀ f : Fields φ, f.sortKeys.get? key = (f.get? key).map Json.sortKeys
  | .nil => rfl
  | .cons k v t => by
    unfold Fields.sortKeys
    rw [get?_insert, get?_sortKeys key t]
    simp only [Fields.get?]
    cases t.get? key with
    | some w => rfl
    | none =>
      by_cases hk : k = key
      · simp [hk]
      · simp [hk]

theorem get?_of_sortKeys {l m : List (String × Json φ)} (h : (dict l).sortKeys = (dict m).sortKeys) (key : String) :
    ((Fields.ofList l).get? key).map Json.sortKeys = ((Fields.ofList m).get? key).map Json.sortKeys := by
  have hf : (Fields.ofList l).sortKeys = (Fields.ofList m).sortKeys := by
    simpa only [dict, Json.sortKeys, Json.obj.injEq] using h
  rw [← Fields.get?_sortKeys, ← Fields.get?_sortKeys, hf]

/-! ## Other floats -/

section map
variable {ψ : Type} (f : φ → ψ)

mutual
def Json.map : Json φ → Json ψ
  | .null => .null
  | .bool b => .bool b
  | .int n => .int n
  | .float x => .float (f x)
  | .str s => .str s
  | .arr items => .arr items.map
  | .obj fields => .obj fields.map
def Items.map : Items φ → Items ψ
  | .nil => .nil
  | .cons v t => .cons v.map t.map
def Fields.map : Fields φ → Fields ψ
  | .nil => .nil
  | .cons k v t => .cons k v.map t.map
end

theorem map_dict (l : List (String × Json φ)) : (dict l).map f = dict (l.map fun e => (e.1, e.2.map f)) := by
  have hfields : ∀ l : List (String × Json φ), (Fields.ofList l).map f = .ofList (l.map fun e => (e.1, e.2.map f)) := by
    intro l
    induction l with
    | nil => rfl
    | cons e l ih => simp only [Fields.ofList, Fields.map, List.map_cons, ih]
  simp only [dict, Json.map, hfields]

theorem Fields.map_insert (k : String) (v : Json φ) :
    ∀ t : Fields φ, (Fields.insert k v t).map f = Fields.insert k (v.map f) (t.map f)
  | .nil => rfl
  | .cons k' v' t => by
    simp only [Fields.insert, Fields.map]
    by_cases hle : k ≤ k'
    · rw [if_pos hle, if_pos hle]
      rfl
    · rw [if_neg hle, if_neg hle]
      simp only [Fields.map, map_insert k v t]

mutual
theorem Json.sortKeys_map : ∀ v : Json φ, (v.map f).sortKeys = v.sortKeys.map f
  | .null => rfl
  | .bool _ => rfl
  | .int _ => rfl
  | .float _ => rfl
  | .str _ => rfl
  | .arr items => by simp only [Json.map, Json.sortKeys, items.sortKeys_map]
  | .obj fields => by simp only [Json.map, Json.sortKeys, fields.sortKeys_map]
theorem Items.sortKeys_map : ∀ t : Items φ, (t.map f).sortKeys = t.sortKeys.map f
  | .nil => rfl
  | .cons v t => by simp only [Items.map, Items.sortKeys, v.sortKeys_map, t.sortKeys_map]
theorem Fields.sortKeys_map : ∀ t : Fields φ, (t.map f).sortKeys = t.sortKeys.map f
  | .nil => rfl
  | .cons k v t => by simp only [Fields.map, Fields.sortKeys, v.sortKeys_map, t.sortKeys_map, Fields.map_insert]
end

/-- The other floats are written the same way, and so is everything else. -/
structure SameStyle (st : Style φ) (st' : Style ψ) : Prop where
  escape : st'.escape = st.escape
  itemSep : st'.itemSep = st.itemSep
  keySep : st'.keySep = st.keySep
  repr : ∀ x, st'.repr (f x) = st.repr x

variable {f} {st : Style φ} {st' : Style ψ}

theorem SameStyle.quote (h : SameStyle f st st') (s : String) : JsonText.quote st' s = JsonText.quote st s := by
  have htail : ∀ l : List Char, quoteTail st' l = quoteTail st l := by
    intro l
    induction l with
    | nil => rfl
    | cons c t ih => rw [quoteTail, quoteTail, h.escape, ih]
  unfold JsonText.quote
  rw [htail]

mutual
theorem SameStyle.render (h : SameStyle f st st') : ∀ v : Json φ, JsonText.render st' (v.map f) = JsonText.render st v
  | .null => rfl
  | .bool true => rfl
  | .bool false => rfl
  | .int _ => rfl
  | .float x => h.repr x
  | .str s => h.quote s
  | .arr .nil => rfl
  | .arr (.cons v t) => by simp only [Json.map, Items.map, JsonText.render, h.render v, h.renderItems t]
  | .obj .nil => rfl
  | .obj (.cons k v t) => by
    simp only [Json.map, Fields.map, JsonText.render, h.quote k, h.keySep, h.render v, h.renderFields t]
theorem SameStyle.renderItems (h : SameStyle f st st') :
    ∀ t : Items φ, JsonText.renderItems st' (t.map f) = JsonText.renderItems st t
  | .nil => rfl
  | .cons v t => by simp only [Items.map, JsonText.renderItems, h.itemSep, h.render v, h.renderItems t]
theorem SameStyle.renderFields (h : SameStyle f st st') :
    ∀ t : Fields φ, JsonText.renderFields st' (t.map f) = JsonText.renderFields st t
  | .nil => rfl
  | .cons k v t => by
    simp only [Fields.map, JsonText.renderFields, h.itemSep, h.quote k, h.keySep, h.render v, h.renderFields t]
end

theorem SameStyle.dumps (h : SameStyle f st st') (v : Json φ) : JsonText.dumps st' (v.map f) = JsonText.dumps st v := by
  unfold JsonText.dumps
  rw [Json.sortKeys_map, h.render]

end map

/-! ## Words among numbers -/

/-- A word with a letter that no number has. -/
structure Lettered (w : List Char) : Prop where
  unclosed : ∀ c ∈ w, ¬ (c = ',' ∨ c = ']' ∨ c = '}')
  letter : ∃ c ∈ w, isNumChar c = false

/-- No number ends inside such a word. -/
theorem Lettered.ne_token {w l r s : List Char} (hw : Lettered w) (hl : ∀ c ∈ l, isNumChar c = true) (hr : Closed r) :
    l ++ r ≠ w ++ s := by
  intro h
  obtain ⟨c, hc, hnum⟩ := hw.letter
  have hmissing : c ∉ l := by
    intro hmem
    rw [hl c hmem] at hnum
    cases hnum
  rcases List.append_eq_append_iff.mp h with ⟨rest, hw', hrest⟩ | ⟨rest, hrest, -⟩
  · cases rest with
    | nil =>
      rw [List.append_nil] at hw'
      exact hmissing (hw' ▸ hc)
    | cons d rest =>
      rw [hrest] at hr
      exact hw.unclosed d (hw' ▸ List.mem_append_right _ List.mem_cons_self) (hr d rfl)
  · exact hmissing (hrest ▸ List.mem_append_left _ hc)

end JsonText
