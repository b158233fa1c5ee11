import AbsoluteChain.HonestValidators
import AbsoluteChain.Ghost
import Mathlib.Algebra.BigOperators.Group.Finset.Basic
import Mathlib.Algebra.Order.BigOperators.Group.List
import Mathlib.Data.Finset.Max

/-!
# Attestations in any order

What `ConsensusEngineSlashing` makes of a multiset of attestations: who is slashed,
what each block weighs, and which block is the head.
-/

namespace Python.Dict

variable {β : Type} {d : Dict String β}

/-! ## Sums over a dictionary -/

theorem mem_keys {k : String} : k ∈ (d.map Prod.fst).toFinset ↔ ∃ v, d.get? k = some v := by
  rw [List.mem_toFinset]
  induction d with
  | nil => simp
  | cons e d ih =>
    obtain ⟨a, x⟩ := e
    rw [get?_cons, List.map_cons, List.mem_cons, ih]
    by_cases hk : k = a
    · simp [hk]
    · simp [hk]

theorem sum_keys (hd : d.Keyed) (f : String → β → Int) :
    (d.map fun e => f e.1 e.2).sum = ∑ k ∈ (d.map Prod.fst).toFinset, (d.get? k).elim 0 (f k) := by
  rw [List.sum_toFinset _ hd, List.map_map]
  congr 1
  apply List.map_congr_left
  intro e he
  rw [Function.comp_apply, hd.get?_of_mem (k := e.1) (v := e.2) he]
  rfl

end Python.Dict

namespace AbsoluteChain

open Python

namespace LmdTable

variable {t : LmdTable}

theorem getWeights_get (hash : String) : (t.getWeights.get? hash).getD 0 =
    (t.latestVote.map fun e => if e.2.1 = hash then (t.validatorStake.get? e.1).getD 0 else 0).sum := by
  have hfold : ∀ (l : Dict String (String × Int)) (weights : Dict String Int),
      ((l.foldl (fun weights e => weights.set e.2.1 ((weights.get? e.2.1).getD 0 + (t.validatorStake.get? e.1).getD 0))
        weights).get? hash).getD 0 = (weights.get? hash).getD 0 +
        (l.map fun e => if e.2.1 = hash then (t.validatorStake.get? e.1).getD 0 else 0).sum := by
    intro l
    induction l with
    | nil => exact fun weights => (Int.add_zero _).symm
    | cons e l ih =>
      intro weights
      rw [List.foldl_cons, ih, Dict.get?_set, List.map_cons, List.sum_cons, ← Int.add_assoc]
      by_cases h : hash = e.2.1
      · rw [if_pos h, if_pos h.symm, Option.getD_some, h]
      · rw [if_neg h, if_neg (Ne.symm h), Int.add_zero]
  rw [getWeights, hfold]
  exact Int.zero_add _

theorem weight_eq_sum (hvotes : t.latestVote.Keyed) (hstakes : t.validatorStake.Keyed) (hash : String) :
    (t.getWeights.get? hash).getD 0 =
      (t.validatorStake.map fun e => if (t.latestVote.get? e.1).map Prod.fst = some hash then e.2 else 0).sum := by
  rw [getWeights_get, Dict.sum_keys hvotes fun v e => if e.1 = hash then (t.validatorStake.get? v).getD 0 else 0,
    Dict.sum_keys hstakes fun v stake => if (t.latestVote.get? v).map Prod.fst = some hash then stake else 0]
  -- both sums run over the validators that voted for the block
  have hvote : ∀ v, (t.latestVote.get? v).elim 0 (fun e => if e.1 = hash then (t.validatorStake.get? v).getD 0 else 0) =
      (t.validatorStake.get? v).elim 0 fun stake => if (t.latestVote.get? v).map Prod.fst = some hash then stake else 0 := by
    intro v
    cases t.latestVote.get? v with
    | none => cases t.validatorStake.get? v <;> rfl
    | some e =>
      by_cases h : e.1 = hash
      · cases t.validatorStake.get? v <;> simp [h]
      · cases t.validatorStake.get? v <;> simp [h]
  rw [Finset.sum_congr rfl fun v _ => hvote v]
  trans ∑ v ∈ (t.latestVote.map Prod.fst).toFinset ∪ (t.validatorStake.map Prod.fst).toFinset,
      (t.validatorStake.get? v).elim 0 fun stake => if (t.latestVote.get? v).map Prod.fst = some hash then stake else 0
  · apply Finset.sum_subset Finset.subset_union_left
    intro v _ hv
    rw [Dict.mem_keys] at hv
    cases h : t.latestVote.get? v with
    | none => cases t.validatorStake.get? v <;> rfl
    | some e => exact absurd ⟨e, h⟩ hv
  · symm
    apply Finset.sum_subset Finset.subset_union_right
    intro v _ hv
    rw [Dict.mem_keys] at hv
    cases h : t.validatorStake.get? v with
    | none => rfl
    | some stake => exact absurd ⟨stake, h⟩ hv

end LmdTable

/-! ## What a multiset of attestations says -/

structure Attestation where
  validator : String
  blockHash : String
  slot : Int
  deriving DecidableEq

def Equivocates (votes : List Attestation) (v : String) : Prop :=
  ∃ a ∈ votes, ∃ b ∈ votes, a.validator = v ∧ b.validator = v ∧ a.slot = b.slot ∧ a.blockHash ≠ b.blockHash

def Supports (votes : List Attestation) (v hash : String) : Prop :=
  ∃ a ∈ votes, a.validator = v ∧ a.blockHash = hash ∧ ∀ b ∈ votes, b.validator = v → b.slot ≤ a.slot

instance (votes : List Attestation) (v : String) : Decidable (Equivocates votes v) :=
  inferInstanceAs (Decidable (∃ a ∈ votes, ∃ b ∈ votes, _ ∧ _ ∧ _ ∧ _))

instance (votes : List Attestation) (v hash : String) : Decidable (Supports votes v hash) :=
  inferInstanceAs (Decidable (∃ a ∈ votes, _ ∧ _ ∧ ∀ b ∈ votes, _ → _))

/-- The stake of the validators that are not slashed and whose highest attestation names the block. -/
def countedStake (stakes : Dict String Int) (votes : List Attestation) (hash : String) : Int :=
  (stakes.map fun e => if ¬ Equivocates votes e.1 ∧ Supports votes e.1 hash then e.2 else 0).sum

theorem equivocates_perm {l k : List Attestation} (h : l.Perm k) (v : String) : Equivocates l v ↔ Equivocates k v := by
  simp only [Equivocates, h.mem_iff]

theorem supports_perm {l k : List Attestation} (h : l.Perm k) (v hash : String) : Supports l v hash ↔ Supports k v hash := by
  simp only [Supports, h.mem_iff]

/-! ## The engine -/

/-- What an engine is given before the attestations. -/
inductive Setup where
  | validator (id : String) (stake : Int)
  | block (b : ForkBlock)

namespace ConsensusEngineSlashing

def setUp (epochs : EpochManager) (setup : List Setup) : ConsensusEngineSlashing :=
  setup.foldl
    (fun s e =>
      match e with
      | .validator id stake => s.addValidator id stake
      | .block b => s.addBlock b)
    (start epochs)

def attestAll (received : List (Int × Attestation)) (s : ConsensusEngineSlashing) : ConsensusEngineSlashing :=
  received.foldl (fun s e => (s.onAttestation e.1 e.2.validator e.2.blockHash e.2.slot).2) s

def weight (s : ConsensusEngineSlashing) (hash : String) : Int := (s.board.lmd.getWeights.get? hash).getD 0

def getHead (s : ConsensusEngineSlashing) (rounds : Nat) : Option (Option String) :=
  s.board.fork.selectHead s.weight rounds

/-- Nobody has attested yet. -/
structure Fresh (s : ConsensusEngineSlashing) : Prop where
  votes : s.slashing.votes = []
  slashed : s.slashing.slashed = []
  latest : s.board.lmd.latestVote = []
  stakes : s.board.lmd.validatorStake = s.slashing.stakes
  keyed : s.slashing.stakes.Keyed

theorem fresh_setUp (epochs : EpochManager) (setup : List Setup) : Fresh (setUp epochs setup) := by
  unfold setUp
  have hstart : Fresh (start epochs) := ⟨rfl, rfl, rfl, rfl, List.nodup_nil⟩
  generalize start epochs = s at hstart ⊢
  induction setup generalizing s with
  | nil => exact hstart
  | cons e rest ih =>
    apply ih
    cases e with
    | validator id stake =>
      refine ⟨hstart.votes, hstart.slashed, hstart.latest, ?_, hstart.keyed.set id stake⟩
      exact congrArg (fun d : Dict String Int => d.set id stake) hstart.stakes
    | block b => exact ⟨hstart.votes, hstart.slashed, hstart.latest, hstart.stakes, hstart.keyed⟩

/-! ## One attestation -/

end ConsensusEngineSlashing

theorem SlashingEngine.addVote_cases (e : SlashingEngine) (now : Int) (v : String) (slot : Int) (hash : String) :
    (v ∈ e.slashed ∧ e.addVote now v slot hash = (false, e)) ∨
    (v ∉ e.slashed ∧ (∃ seen, (e.votesOf v).get? slot = some seen ∧ seen ≠ hash) ∧
      e.addVote now v slot hash = (false, e.mark now v .doubleVote slot)) ∨
    (v ∉ e.slashed ∧ (∀ seen, (e.votesOf v).get? slot = some seen → seen = hash) ∧
      ∃ e', e.addVote now v slot hash = (true, e') ∧ e'.slashed = e.slashed ∧ e'.stakes = e.stakes ∧
        ∀ w k, (e'.votesOf w).get? k = if w = v ∧ k = slot then some hash else (e.votesOf w).get? k) := by
  unfold addVote recordVote
  by_cases hs : v ∈ e.slashed
  · rw [if_pos hs]
    exact .inl ⟨hs, rfl⟩
  · rw [if_neg hs, if_neg hs]
    right
    cases hseen : (e.votesOf v).get? slot with
    | none =>
      right
      refine ⟨hs, fun seen h => (by cases h), _, rfl, rfl, rfl, ?_⟩
      intro w k
      unfold votesOf
      rw [Dict.get?_set]
      by_cases hw : w = v
      · rw [if_pos hw, Option.getD_some, Dict.get?_set, hw]
        simp only [true_and]
      · rw [if_neg hw, if_neg fun h => hw h.1]
    | some seen =>
      by_cases hne : seen = hash
      · right
        refine ⟨hs, fun seen' h => ?_, e, ?_, rfl, rfl, ?_⟩
        · cases h
          exact hne
        · simp only [hne, ne_eq, not_true, if_false]
        · intro w k
          by_cases hw : w = v ∧ k = slot
          · rw [if_pos hw, hw.1, hw.2, hseen, hne]
          · rw [if_neg hw]
      · left
        exact ⟨hs, ⟨seen, rfl, hne⟩, by simp only [ne_eq, hne, not_false_iff, if_true]⟩

namespace ConsensusEngineSlashing

variable {s₀ s : ConsensusEngineSlashing} {now : Int} {a : Attestation} {l : List Attestation}

def attest (s : ConsensusEngineSlashing) (now : Int) (a : Attestation) : ConsensusEngineSlashing :=
  (s.onAttestation now a.validator a.blockHash a.slot).2

def stakeOf (s : ConsensusEngineSlashing) (v : String) : Int := (s.slashing.stakes.get? v).getD 0

theorem latestVote_tally (hstakes : s.board.lmd.validatorStake = s.slashing.stakes) (a : Attestation) :
    (s.tally a.validator a.blockHash a.slot (s.stakeOf a.validator)).lmd.latestVote =
      if 0 < s.stakeOf a.validator ∧ ∀ c, s.board.lmd.latestVote.get? a.validator = some c → c.2 < a.slot then
        s.board.lmd.latestVote.set a.validator (a.blockHash, a.slot)
      else s.board.lmd.latestVote := by
  unfold tally
  by_cases hpos : 0 < s.stakeOf a.validator
  · have hknown : s.board.lmd.validatorStake.contains a.validator = true := by
      rw [hstakes]
      unfold Dict.contains
      cases h : s.slashing.stakes.get? a.validator with
      | none =>
        unfold stakeOf at hpos
        rw [h] at hpos
        exact absurd hpos (by decide)
      | some stake => rfl
    rw [if_pos hpos]
    dsimp only
    unfold LmdTable.update
    rw [if_pos hknown]
    cases hc : s.board.lmd.latestVote.get? a.validator with
    | none => rw [if_pos ⟨hpos, fun c h => by cases h⟩]
    | some c =>
      by_cases hnew : c.2 < a.slot
      · rw [if_pos ⟨hpos, fun d h => by cases h; exact hnew⟩]
        simp only [if_pos hnew]
      · rw [if_neg fun h => hnew (h.2 c rfl)]
        simp only [if_neg hnew]
  · rw [if_neg hpos, if_neg fun h => hpos h.1]

theorem tally_fork (v hash : String) (slot stake : Int) : (s.tally v hash slot stake).fork = s.board.fork := by
  unfold tally
  split <;> rfl

theorem tally_validatorStake (v hash : String) (slot stake : Int) :
    (s.tally v hash slot stake).lmd.validatorStake = s.board.lmd.validatorStake := by
  unfold tally
  split
  · dsimp only
    unfold LmdTable.update
    split
    · cases s.board.lmd.latestVote.get? v with
      | none => rfl
      | some c =>
        dsimp only
        split <;> rfl
    · rfl
  · rfl

structure Seen (s₀ s : ConsensusEngineSlashing) (l : List Attestation) : Prop where
  stakes : s.slashing.stakes = s₀.slashing.stakes
  lmdStakes : s.board.lmd.validatorStake = s₀.slashing.stakes
  fork : s.board.fork = s₀.board.fork
  keyed : s.board.lmd.latestVote.Keyed
  slashed : ∀ v, v ∈ s.slashing.slashed ↔ Equivocates l v
  recorded : ∀ v slot hash, (s.slashing.votesOf v).get? slot = some hash → ⟨v, hash, slot⟩ ∈ l
  complete : ∀ a ∈ l, a.validator ∉ s.slashing.slashed →
    (s.slashing.votesOf a.validator).get? a.slot = some a.blockHash
  latest : ∀ v hash slot, s.board.lmd.latestVote.get? v = some (hash, slot) → ⟨v, hash, slot⟩ ∈ l ∧ 0 < s₀.stakeOf v
  counted : ∀ a ∈ l, 0 < s₀.stakeOf a.validator → ∃ c, s.board.lmd.latestVote.get? a.validator = some c ∧
    (a.validator ∉ s.slashing.slashed → a.slot ≤ c.2)

theorem Fresh.seen (h : Fresh s) : Seen s s [] := by
  constructor
  · rfl
  · exact h.stakes
  · rfl
  · rw [h.latest]
    exact List.nodup_nil
  · intro v
    rw [h.slashed]
    simp [Equivocates]
  · intro v slot hash hv
    unfold SlashingEngine.votesOf at hv
    rw [h.votes] at hv
    cases hv
  · exact fun a ha => absurd ha List.not_mem_nil
  · intro v hash slot hv
    rw [h.latest] at hv
    cases hv
  · exact fun a ha => absurd ha List.not_mem_nil

theorem equivocates_append {v : String} : Equivocates (l ++ [a]) v ↔
    Equivocates l v ∨ a.validator = v ∧ ∃ b ∈ l, b.validator = v ∧ b.slot = a.slot ∧ b.blockHash ≠ a.blockHash := by
  constructor
  · rintro ⟨b, hb, c, hc, hbv, hcv, hslot, hne⟩
    rw [List.mem_append, List.mem_singleton] at hb hc
    rcases hb with hb | rfl
    · rcases hc with hc | rfl
      · exact .inl ⟨b, hb, c, hc, hbv, hcv, hslot, hne⟩
      · exact .inr ⟨hcv, b, hb, hbv, hslot, hne⟩
    · rcases hc with hc | rfl
      · exact .inr ⟨hbv, c, hc, hcv, hslot.symm, Ne.symm hne⟩
      · exact absurd rfl hne
  · rintro (⟨b, hb, c, hc, h⟩ | ⟨hav, b, hb, hbv, hslot, hne⟩)
    · exact ⟨b, List.mem_append_left _ hb, c, List.mem_append_left _ hc, h⟩
    · exact ⟨b, List.mem_append_left _ hb, a, List.mem_append_right _ List.mem_cons_self, hbv, hav, hslot, hne⟩

theorem forall_mem_append_single {P : Attestation → Prop} (hl : ∀ b ∈ l, P b) (ha : P a) : ∀ b ∈ l ++ [a], P b := by
  intro b hb
  rcases List.mem_append.mp hb with hb | hb
  · exact hl b hb
  · rw [List.mem_singleton] at hb
    exact hb ▸ ha

theorem Seen.unheard (h : Seen s₀ s l) (hv : a.validator ∈ s.slashing.slashed) : Seen s₀ s (l ++ [a]) := by
  have hold : ∀ {b}, b ∈ l → b ∈ l ++ [a] := fun hb => List.mem_append_left _ hb
  refine { h with slashed := ?_, recorded := ?_, complete := ?_, latest := ?_, counted := ?_ }
  · intro v
    rw [equivocates_append, ← h.slashed]
    constructor
    · exact .inl
    · rintro (hs | ⟨rfl, -⟩)
      · exact hs
      · exact hv
  · exact fun v slot hash hg => hold (h.recorded v slot hash hg)
  · exact forall_mem_append_single h.complete fun hout => absurd hv hout
  · exact fun v hash slot hg => ⟨hold (h.latest v hash slot hg).1, (h.latest v hash slot hg).2⟩
  · apply forall_mem_append_single h.counted
    intro hpos
    -- what slashed it was an attestation that counted
    obtain ⟨b, hb, _, _, hbv, _⟩ := (h.slashed a.validator).mp hv
    obtain ⟨c, hc, _⟩ := h.counted b hb (hbv ▸ hpos)
    exact ⟨c, hbv ▸ hc, fun hout => absurd hv hout⟩

theorem Seen.marked (h : Seen s₀ s l) (hv : a.validator ∉ s.slashing.slashed) {seen : String}
    (hseen : (s.slashing.votesOf a.validator).get? a.slot = some seen) (hne : seen ≠ a.blockHash) :
    Seen s₀ { s with slashing := s.slashing.mark now a.validator .doubleVote a.slot } (l ++ [a]) := by
  have hold : ∀ {b}, b ∈ l → b ∈ l ++ [a] := fun hb => List.mem_append_left _ hb
  have hearlier := h.recorded _ _ _ hseen
  have hkept : (s.slashing.mark now a.validator .doubleVote a.slot).votesOf = s.slashing.votesOf ∧
      (s.slashing.mark now a.validator .doubleVote a.slot).stakes = s.slashing.stakes := by
    unfold SlashingEngine.mark
    rw [if_neg hv]
    exact ⟨rfl, rfl⟩
  have hmarked : a.validator ∈ (s.slashing.mark now a.validator .doubleVote a.slot).slashed :=
    SlashingEngine.mem_mark.mpr (.inl rfl)
  have hout : ∀ v, v ∉ (s.slashing.mark now a.validator .doubleVote a.slot).slashed → v ∉ s.slashing.slashed :=
    fun v hv' hin => hv' (SlashingEngine.mem_mark.mpr (.inr hin))
  refine { lmdStakes := h.lmdStakes, fork := h.fork, keyed := h.keyed, stakes := hkept.2.trans h.stakes, slashed := ?_,
           recorded := ?_, complete := ?_, latest := ?_, counted := ?_ }
  · intro v
    rw [equivocates_append, ← h.slashed]
    refine SlashingEngine.mem_mark.trans ?_
    constructor
    · rintro (rfl | hs)
      · exact .inr ⟨rfl, _, hearlier, rfl, rfl, hne⟩
      · exact .inl hs
    · rintro (hs | ⟨rfl, -⟩)
      · exact .inr hs
      · exact .inl rfl
  · intro v slot hash hg
    rw [hkept.1] at hg
    exact hold (h.recorded v slot hash hg)
  · apply forall_mem_append_single
    · intro b hb hb'
      rw [hkept.1]
      exact h.complete b hb (hout _ hb')
    · exact fun ha => absurd hmarked ha
  · exact fun v hash slot hg => ⟨hold (h.latest v hash slot hg).1, (h.latest v hash slot hg).2⟩
  · apply forall_mem_append_single
    · intro b hb hpos
      obtain ⟨c, hc, hle⟩ := h.counted b hb hpos
      exact ⟨c, hc, fun hb' => hle (hout _ hb')⟩
    · intro hpos
      obtain ⟨c, hc, _⟩ := h.counted _ hearlier hpos
      exact ⟨c, hc, fun ha => absurd hmarked ha⟩

section renewed
variable {latest : Dict String (String × Int)}
  (hlatest : latest =
    if 0 < s₀.stakeOf a.validator ∧ ∀ c, s.board.lmd.latestVote.get? a.validator = some c → c.2 < a.slot then
      s.board.lmd.latestVote.set a.validator (a.blockHash, a.slot)
    else s.board.lmd.latestVote)
include hlatest

theorem Seen.latest_renewed (h : Seen s₀ s l) {v hash : String} {slot : Int} (hg : latest.get? v = some (hash, slot)) :
    ⟨v, hash, slot⟩ ∈ l ++ [a] ∧ 0 < s₀.stakeOf v := by
  have hold : latest.get? v = s.board.lmd.latestVote.get? v → ⟨v, hash, slot⟩ ∈ l ++ [a] ∧ 0 < s₀.stakeOf v := by
    intro hsame
    rw [hsame] at hg
    exact ⟨List.mem_append_left _ (h.latest v hash slot hg).1, (h.latest v hash slot hg).2⟩
  split at hlatest
  · rename_i hpos
    rw [hlatest, Dict.get?_set] at hg
    split at hg
    · rename_i hva
      cases hg
      subst hva
      exact ⟨List.mem_append_right _ List.mem_cons_self, hpos.1⟩
    · rename_i hva
      exact hold (by rw [hlatest, Dict.get?_set_of_ne _ hva])
  · exact hold (by rw [hlatest])

theorem Seen.counted_renewed (h : Seen s₀ s l) : ∀ b ∈ l ++ [a], 0 < s₀.stakeOf b.validator →
    ∃ c, latest.get? b.validator = some c ∧ (b.validator ∉ s.slashing.slashed → b.slot ≤ c.2) := by
  rw [hlatest]
  apply forall_mem_append_single
  · intro b hb hpos
    obtain ⟨c, hc, hle⟩ := h.counted b hb hpos
    split
    · rename_i hupd
      rw [Dict.get?_set]
      split
      · rename_i hba
        rw [hba] at hc
        refine ⟨_, rfl, fun hout => ?_⟩
        exact le_trans (hle hout) (le_of_lt (hupd.2 c hc))
      · exact ⟨c, hc, hle⟩
    · exact ⟨c, hc, hle⟩
  · intro hpos
    split
    · exact ⟨_, Dict.get?_set_self _ _ _, fun _ => le_refl _⟩
    · rename_i hupd
      have hex : ∃ c, s.board.lmd.latestVote.get? a.validator = some c ∧ ¬ c.2 < a.slot := by
        by_contra hno
        refine hupd ⟨hpos, fun c hc => ?_⟩
        by_contra hlt
        exact hno ⟨c, hc, hlt⟩
      obtain ⟨c, hc, hle⟩ := hex
      exact ⟨c, hc, fun _ => not_lt.mp hle⟩

end renewed

theorem Seen.accepted {s' : ConsensusEngineSlashing} (h : Seen s₀ s l) (hv : a.validator ∉ s.slashing.slashed)
    (hsame : ∀ seen, (s.slashing.votesOf a.validator).get? a.slot = some seen → seen = a.blockHash)
    (hslashed : s'.slashing.slashed = s.slashing.slashed) (hstakes : s'.slashing.stakes = s.slashing.stakes)
    (hvotes : ∀ v slot, (s'.slashing.votesOf v).get? slot =
      if v = a.validator ∧ slot = a.slot then some a.blockHash else (s.slashing.votesOf v).get? slot)
    (hlmd : s'.board.lmd = (s.tally a.validator a.blockHash a.slot (s.stakeOf a.validator)).lmd)
    (hfork : s'.board.fork = s.board.fork) : Seen s₀ s' (l ++ [a]) := by
  have hstakeOf : s.stakeOf a.validator = s₀.stakeOf a.validator := by
    unfold stakeOf
    rw [h.stakes]
  have hlatest := latestVote_tally (h.lmdStakes.trans h.stakes.symm) a
  rw [← hlmd, hstakeOf] at hlatest
  constructor
  · rw [hstakes, h.stakes]
  · rw [hlmd, tally_validatorStake, h.lmdStakes]
  · rw [hfork, h.fork]
  · rw [hlatest]
    split
    · exact h.keyed.set _ _
    · exact h.keyed
  · intro v
    rw [hslashed, equivocates_append, ← h.slashed]
    constructor
    · exact .inl
    · rintro (hs | ⟨rfl, b, hb, hbv, hslot, hne⟩)
      · exact hs
      · have hrec := h.complete b hb (hbv ▸ hv)
        rw [hbv, hslot] at hrec
        exact absurd (hsame _ hrec) hne
  · intro v slot hash hg
    rw [hvotes] at hg
    split at hg
    · rename_i heq
      cases hg
      obtain ⟨rfl, rfl⟩ := heq
      exact List.mem_append_right _ List.mem_cons_self
    · exact List.mem_append_left _ (h.recorded v slot hash hg)
  · rw [hslashed]
    apply forall_mem_append_single
    · intro b hb hb'
      rw [hvotes]
      split
      · rename_i heq
        have hrec := h.complete b hb hb'
        rw [heq.1, heq.2] at hrec
        rw [hsame _ hrec]
      · exact h.complete b hb hb'
    · intro _
      rw [hvotes, if_pos ⟨rfl, rfl⟩]
  · exact fun v hash slot hg => h.latest_renewed hlatest hg
  · rw [hslashed]
    exact h.counted_renewed hlatest

theorem Seen.step (h : Seen s₀ s l) : Seen s₀ (s.attest now a) (l ++ [a]) := by
  rcases s.slashing.addVote_cases now a.validator a.slot a.blockHash with
    ⟨hv, hr⟩ | ⟨hv, ⟨seen, hseen, hne⟩, hr⟩ | ⟨hv, hsame, e, hr, hslashed, hstakes, hvotes⟩
  · have hnext : s.attest now a = s := by
      unfold attest onAttestation
      rw [hr]
      rfl
    rw [hnext]
    exact h.unheard hv
  · have hnext : s.attest now a = { s with slashing := s.slashing.mark now a.validator .doubleVote a.slot } := by
      unfold attest onAttestation
      rw [hr]
      rfl
    rw [hnext]
    exact h.marked hv hseen hne
  · have hstake : e.getStake a.validator = s.stakeOf a.validator := by
      unfold SlashingEngine.getStake stakeOf
      rw [hslashed, if_neg hv, hstakes]
    have hboard : (s.attest now a).board.lmd = (s.tally a.validator a.blockHash a.slot (s.stakeOf a.validator)).lmd ∧
        (s.attest now a).board.fork = s.board.fork ∧ (s.attest now a).slashing = e := by
      unfold attest onAttestation
      rw [hr]
      dsimp only
      rw [hstake]
      exact ⟨rfl, tally_fork _ _ _ _, rfl⟩
    obtain ⟨hlmd, hfork, rfl⟩ := hboard
    exact h.accepted hv hsame hslashed hstakes hvotes hlmd hfork

/-- The run lemma. -/
theorem feed_seen (received : List (Int × Attestation)) (h : Seen s₀ s l) :
    Seen s₀ (attestAll received s) (l ++ received.map Prod.snd) := by
  induction received generalizing s l with
  | nil =>
    rw [List.map_nil, List.append_nil]
    exact h
  | cons e rest ih =>
    have hrest := ih (show Seen s₀ (s.attest e.1 e.2) (l ++ [e.2]) from h.step)
    rw [List.append_assoc] at hrest
    exact hrest

/-! ## The weight of a block -/

theorem Seen.supports (h : Seen s₀ s l) {v : String} (hpos : 0 < s₀.stakeOf v) (hhonest : ¬ Equivocates l v)
    (hash : String) : (s.board.lmd.latestVote.get? v).map Prod.fst = some hash ↔ Supports l v hash := by
  have hout : v ∉ s.slashing.slashed := fun hin => hhonest ((h.slashed v).mp hin)
  constructor
  · intro hvote
    obtain ⟨⟨_, slot⟩, hc, rfl⟩ := Option.map_eq_some_iff.mp hvote
    refine ⟨_, (h.latest v _ slot hc).1, rfl, rfl, ?_⟩
    intro b hb hbv
    obtain ⟨d, hd, hle⟩ := h.counted b hb (hbv ▸ hpos)
    rw [hbv, hc] at hd
    cases hd
    exact hle (hbv ▸ hout)
  · rintro ⟨a, ha, rfl, rfl, hmax⟩
    obtain ⟨⟨hash, slot⟩, hc, hle⟩ := h.counted a ha hpos
    have hin := (h.latest _ _ _ hc).1
    have hslot : slot = a.slot := le_antisymm (hmax _ hin rfl) (hle hout)
    have hsame : hash = a.blockHash := by
      by_contra hne
      exact hhonest ⟨_, hin, a, ha, rfl, rfl, hslot, hne⟩
    rw [hc, ← hsame]
    rfl

def share (s : ConsensusEngineSlashing) (hash : String) (e : String × Int) : Int :=
  if (s.board.lmd.latestVote.get? e.1).map Prod.fst = some hash then e.2 else 0

/-- What is to be counted for it. -/
def due (votes : List Attestation) (hash : String) (e : String × Int) : Int :=
  if ¬ Equivocates votes e.1 ∧ Supports votes e.1 hash then e.2 else 0

/-- A validator is counted as it should be: one with stake does not equivocate, and one whose stake is
negative is not to be counted at all. -/
def Regular (votes : List Attestation) (e : String × Int) : Prop :=
  (0 < e.2 → ¬ Equivocates votes e.1) ∧ (e.2 < 0 → Equivocates votes e.1 ∨ ∀ a ∈ votes, a.validator ≠ e.1)

theorem supports_of_votes {v : String} (ha : a ∈ l) (hv : a.validator = v) : ∃ hash, Supports l v hash := by
  have hne : (l.toFinset.filter fun b => b.validator = v).Nonempty :=
    ⟨a, Finset.mem_filter.mpr ⟨List.mem_toFinset.mpr ha, hv⟩⟩
  obtain ⟨b, hb, hmax⟩ := Finset.exists_max_image _ Attestation.slot hne
  obtain ⟨hb, hbv⟩ := Finset.mem_filter.mp hb
  refine ⟨b.blockHash, b, List.mem_toFinset.mp hb, hbv, rfl, ?_⟩
  intro c hc hcv
  exact hmax c (Finset.mem_filter.mpr ⟨List.mem_toFinset.mpr hc, hcv⟩)

theorem Seen.share_nonpos (h : Seen s₀ s l) {e : String × Int} (he : s₀.stakeOf e.1 = e.2) (hneg : e.2 ≤ 0)
    (hash : String) : s.share hash e = 0 := by
  unfold share
  cases hc : s.board.lmd.latestVote.get? e.1 with
  | none => rfl
  | some c =>
    have := (h.latest e.1 c.1 c.2 hc).2
    omega

theorem Seen.share_honest (h : Seen s₀ s l) {e : String × Int} (he : s₀.stakeOf e.1 = e.2) (hpos : 0 < e.2)
    (hhonest : ¬ Equivocates l e.1) (hash : String) : s.share hash e = due l hash e := by
  unfold share due
  by_cases hs : Supports l e.1 hash
  · rw [if_pos ((h.supports (he ▸ hpos) hhonest hash).mpr hs), if_pos ⟨hhonest, hs⟩]
  · rw [if_neg fun hvote => hs ((h.supports (he ▸ hpos) hhonest hash).mp hvote), if_neg fun hvote => hs hvote.2]

theorem Seen.due_le (h : Seen s₀ s l) {e : String × Int} (he : s₀.stakeOf e.1 = e.2) (hash : String) :
    due l hash e ≤ s.share hash e := by
  by_cases hpos : 0 < e.2
  · by_cases hhonest : Equivocates l e.1
    · unfold due share
      rw [if_neg fun hvote => hvote.1 hhonest]
      split <;> omega
    · exact le_of_eq (h.share_honest he hpos hhonest hash).symm
  · rw [h.share_nonpos he (not_lt.mp hpos)]
    unfold due
    split <;> omega

theorem Seen.share_eq (h : Seen s₀ s l) {e : String × Int} (he : s₀.stakeOf e.1 = e.2) :
    (∀ hash, s.share hash e = due l hash e) ↔ Regular l e := by
  by_cases hpos : 0 < e.2
  · constructor
    · intro hall
      refine ⟨fun _ hboth => ?_, fun hneg => absurd hneg (not_lt.mpr hpos.le)⟩
      obtain ⟨b, hb, _, _, hbv, _⟩ := id hboth
      obtain ⟨c, hc, _⟩ := h.counted b hb (by rw [hbv, he]; exact hpos)
      have hshare := hall c.1
      unfold share due at hshare
      rw [← hbv, hc, Option.map_some, if_pos rfl, if_neg fun hvote => hvote.1 (hbv ▸ hboth)] at hshare
      omega
    · exact fun hreg => h.share_honest he hpos (hreg.1 hpos)
  · have hzero := h.share_nonpos he (not_lt.mp hpos)
    constructor
    · intro hall
      refine ⟨fun h' => absurd h' hpos, fun hneg => ?_⟩
      by_contra hno
      obtain ⟨hhonest, hvoted⟩ := not_or.mp hno
      obtain ⟨b, hb⟩ := not_forall.mp hvoted
      obtain ⟨hb, hbv⟩ := Classical.not_imp.mp hb
      obtain ⟨hash, hs⟩ := supports_of_votes hb (not_not.mp hbv)
      have hdue := hall hash
      unfold due at hdue
      rw [hzero, if_pos ⟨hhonest, hs⟩] at hdue
      omega
    · intro hreg hash
      rw [hzero]
      unfold due
      split
      · rename_i hvote
        rcases lt_or_eq_of_le (not_lt.mp hpos) with hneg | heq
        · rcases hreg.2 hneg with hboth | hnone
          · exact absurd hboth hvote.1
          · obtain ⟨b, hb, hbv, _⟩ := hvote.2
            exact absurd hbv (hnone b hb)
        · exact heq.symm
      · rfl

theorem Seen.weight_eq (h : Seen s₀ s l) (hkeyed : s₀.slashing.stakes.Keyed) (hash : String) :
    s.weight hash = (s₀.slashing.stakes.map (s.share hash)).sum := by
  unfold weight
  rw [LmdTable.weight_eq_sum h.keyed (h.lmdStakes ▸ hkeyed), h.lmdStakes]
  rfl

theorem due_perm {k : List Attestation} (h : l.Perm k) (hash : String) (e : String × Int) : due l hash e = due k hash e := by
  unfold due
  simp only [equivocates_perm h, supports_perm h]

theorem regular_perm {k : List Attestation} (h : l.Perm k) (e : String × Int) : Regular l e ↔ Regular k e := by
  unfold Regular
  simp only [equivocates_perm h, h.mem_iff]

/-- The weights are those they should be exactly when every validator is counted as it should be. -/
theorem Seen.weight_due (h : Seen s₀ s l) (hkeyed : s₀.slashing.stakes.Keyed) :
    (∀ hash, s.weight hash = countedStake s₀.slashing.stakes l hash) ↔ ∀ e ∈ s₀.slashing.stakes, Regular l e := by
  have hstake : ∀ e ∈ s₀.slashing.stakes, s₀.stakeOf e.1 = e.2 := by
    intro e he
    unfold stakeOf
    rw [hkeyed.get?_of_mem (k := e.1) (v := e.2) he]
    rfl
  have hcounted : ∀ hash, countedStake s₀.slashing.stakes l hash = (s₀.slashing.stakes.map (due l hash)).sum :=
    fun hash => rfl
  simp only [h.weight_eq hkeyed, hcounted]
  constructor
  · intro hsum e he
    apply (h.share_eq (hstake e he)).mp
    intro hash
    by_contra hne
    have hlt : (s₀.slashing.stakes.map (due l hash)).sum < (s₀.slashing.stakes.map (s.share hash)).sum := by
      apply List.sum_lt_sum
      · exact fun d hd => h.due_le (hstake d hd) hash
      · exact ⟨e, he, lt_of_le_of_ne (h.due_le (hstake e he) hash) (Ne.symm hne)⟩
    exact absurd (hsum hash) (ne_of_gt hlt)
  · intro hreg hash
    congr 1
    apply List.map_congr_left
    exact fun e he => (h.share_eq (hstake e he)).mpr (hreg e he) hash

/-! ## Any order -/

structure SameVerdict (s t : ConsensusEngineSlashing) : Prop where
  slashed : ∀ v, v ∈ s.slashing.slashed ↔ v ∈ t.slashing.slashed
  weight : ∀ hash, s.weight hash = t.weight hash
  head : ∀ rounds, s.getHead rounds = t.getHead rounds

/-- The attestations, in whatever order and at whatever times, make the engine slash the same
validators and give the same head and the weights of the validators that are not slashed, exactly
when none with stake equivocates. -/
theorem attestations_commute (epochs : EpochManager) (setup : List Setup) (votes : List Attestation) :
    (∀ k₁ k₂ : List (Int × Attestation), (k₁.map Prod.snd).Perm votes → (k₂.map Prod.snd).Perm votes →
      SameVerdict (attestAll k₁ (setUp epochs setup)) (attestAll k₂ (setUp epochs setup)) ∧
      (∀ hash, (attestAll k₁ (setUp epochs setup)).weight hash =
        countedStake (setUp epochs setup).slashing.stakes votes hash) ∧
      ∀ rank : String → Nat,
        (∀ node, ∀ c ∈ (setUp epochs setup).board.fork.children node, rank c < rank node) →
        ∃ rounds head, (attestAll k₁ (setUp epochs setup)).getHead rounds = some head) ↔
    ∀ e ∈ (setUp epochs setup).slashing.stakes, Regular votes e := by
  have hfresh := fresh_setUp epochs setup
  have hseen : ∀ k : List (Int × Attestation), Seen (setUp epochs setup) (attestAll k (setUp epochs setup)) (k.map Prod.snd) :=
    fun k => feed_seen k hfresh.seen
  have hweight : ∀ k : List (Int × Attestation), (k.map Prod.snd).Perm votes →
      ((∀ hash, (attestAll k (setUp epochs setup)).weight hash =
        countedStake (setUp epochs setup).slashing.stakes votes hash) ↔
      ∀ e ∈ (setUp epochs setup).slashing.stakes, Regular votes e) := by
    intro k hk
    have hdue : ∀ hash, countedStake (setUp epochs setup).slashing.stakes (k.map Prod.snd) hash =
        countedStake (setUp epochs setup).slashing.stakes votes hash := by
      intro hash
      exact congrArg List.sum (List.map_congr_left fun e _ => due_perm hk hash e)
    have h := (hseen k).weight_due hfresh.keyed
    simp only [hdue, regular_perm hk] at h
    exact h
  constructor
  · intro hall
    have hperm : ((votes.map fun a => ((0 : Int), a)).map Prod.snd).Perm votes := by
      rw [List.map_map]
      exact List.Perm.of_eq (List.map_id _)
    exact (hweight _ hperm).mp (hall _ _ hperm hperm).2.1
  · intro hreg k₁ k₂ h₁ h₂
    have hw₁ := (hweight k₁ h₁).mpr hreg
    have hw₂ := (hweight k₂ h₂).mpr hreg
    have hw : (attestAll k₁ (setUp epochs setup)).weight = (attestAll k₂ (setUp epochs setup)).weight :=
      funext fun hash => (hw₁ hash).trans (hw₂ hash).symm
    refine ⟨⟨?_, fun hash => congrFun hw hash, ?_⟩, hw₁, ?_⟩
    · intro v
      rw [(hseen k₁).slashed, (hseen k₂).slashed, equivocates_perm h₁, equivocates_perm h₂]
    · intro rounds
      unfold getHead
      rw [(hseen k₁).fork, (hseen k₂).fork, hw]
    · intro rank htree
      unfold getHead
      rw [(hseen k₁).fork]
      exact ForkTree.selectHead_returns _ htree

/-! ## A validator that votes twice -/

def twoChildren : List Setup :=
  [.validator "v" 100, .block ⟨"g", none, 0⟩, .block ⟨"x", some "g", 1⟩, .block ⟨"y", some "g", 1⟩]

theorem attestations_conflict : ¬ ∀ (epochs : EpochManager) (setup : List Setup) (votes : List Attestation),
    ∀ k₁ k₂ : List (Int × Attestation), (k₁.map Prod.snd).Perm votes → (k₂.map Prod.snd).Perm votes →
      SameVerdict (attestAll k₁ (setUp epochs setup)) (attestAll k₂ (setUp epochs setup)) ∧
      ∀ hash, (attestAll k₁ (setUp epochs setup)).weight hash =
        countedStake (setUp epochs setup).slashing.stakes votes hash := by
  intro h
  have hx : (attestAll [(0, ⟨"v", "x", 1⟩), (0, ⟨"v", "y", 1⟩)] (setUp ⟨3, by decide⟩ twoChildren)).getHead 9 =
      some (some "x") := by decide +kernel
  have hy : (attestAll [(0, ⟨"v", "y", 1⟩), (0, ⟨"v", "x", 1⟩)] (setUp ⟨3, by decide⟩ twoChildren)).getHead 9 =
      some (some "y") := by decide +kernel
  have hsame := (h ⟨3, by decide⟩ twoChildren [⟨"v", "x", 1⟩, ⟨"v", "y", 1⟩]
    [(0, ⟨"v", "x", 1⟩), (0, ⟨"v", "y", 1⟩)] [(0, ⟨"v", "y", 1⟩), (0, ⟨"v", "x", 1⟩)]
    (List.Perm.refl _) (List.Perm.swap _ _ _)).1.head 9
  rw [hx, hy] at hsame
  revert hsame
  decide

end ConsensusEngineSlashing

end AbsoluteChain
