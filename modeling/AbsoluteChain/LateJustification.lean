import Mathlib.Data.Finset.Card
import AbsoluteChain.Checkpoints

/-!
# Late justification

The engine of `finality_engine.py` over every sequence of its calls. An epoch enters
each of its two lists once and is justified by enough distinct voters. It is finalised
only while the epoch of the blocks has not moved past it.
-/

namespace AbsoluteChain

open Python Runs

namespace FinalityEngine

variable (f : FinalityEngine)

/-- The lists of an engine agree with its checkpoints. -/
structure Ledger : Prop where
  voted : ∀ e, (f.votesIn e).Nodup
  counted : ∀ e cp, f.checkpoints.get? e = some cp → cp.votes = (f.votesIn e).length
  fresh : ∀ e, f.checkpoints.get? e = none → f.votesIn e = []
  justifiedOnce : f.justifiedCheckpoints.Nodup
  justified : ∀ e, e ∈ f.justifiedCheckpoints ↔ ∃ cp, f.checkpoints.get? e = some cp ∧ cp.isJustified = true
  finalizedOnce : f.finalizedCheckpoints.Nodup
  finalized : ∀ e, e ∈ f.finalizedCheckpoints ↔ ∃ cp, f.checkpoints.get? e = some cp ∧ cp.isFinalized = true
  earned : ∀ e ∈ f.finalizedCheckpoints, e ∈ f.justifiedCheckpoints ∧ e - 1 ∈ f.justifiedCheckpoints
  positive : 1 ≤ f.activeValidatorCount

theorem ledger_start : start.Ledger where
  voted _ := List.nodup_nil
  counted _ _ h := nomatch h
  fresh _ _ := rfl
  justifiedOnce := List.nodup_nil
  justified _ := iff_of_false List.not_mem_nil (fun h => nomatch h.choose_spec.1)
  finalizedOnce := List.nodup_nil
  finalized _ := iff_of_false List.not_mem_nil (fun h => nomatch h.choose_spec.1)
  earned _ h := nomatch h
  positive := le_refl _

variable {f}

theorem flag_set {d : Dict Int Checkpoint} {flag : Checkpoint → Bool} {e x : Int} {cp : Checkpoint} :
    (∃ c, (d.set e cp).get? x = some c ∧ flag c = true) ↔
      if x = e then flag cp = true else ∃ c, d.get? x = some c ∧ flag c = true := by
  rw [Dict.get?_set]
  by_cases hx : x = e
  · rw [if_pos hx, if_pos hx]
    constructor
    · rintro ⟨c, hc, hflag⟩
      cases hc
      exact hflag
    · exact fun hflag => ⟨cp, rfl, hflag⟩
  · rw [if_neg hx, if_neg hx]

/-! ## A checkpoint -/

theorem ledger_create (h : f.Ledger) (blockNumber : Int) (blockHash : String) :
    (f.createCheckpoint blockNumber blockHash).Ledger := by
  unfold createCheckpoint
  dsimp only
  by_cases hin : f.checkpoints.contains (getEpoch blockNumber) = true
  · rw [if_pos hin]
    exact h
  · rw [if_neg hin]
    have hnone : f.checkpoints.get? (getEpoch blockNumber) = none := by
      unfold Dict.contains at hin
      exact Option.not_isSome_iff_eq_none.mp hin
    refine { h with counted := ?_, fresh := ?_, justified := ?_, finalized := ?_ }
    · intro e cp hcp
      rw [Dict.get?_set] at hcp
      by_cases he : e = getEpoch blockNumber
      · rw [if_pos he] at hcp
        cases hcp
        have hempty := h.fresh _ hnone
        rw [← he] at hempty
        exact (congrArg List.length hempty).symm
      · rw [if_neg he] at hcp
        exact h.counted e cp hcp
    · intro e he
      rw [Dict.get?_set] at he
      by_cases hx : e = getEpoch blockNumber
      · rw [if_pos hx] at he
        cases he
      · rw [if_neg hx] at he
        exact h.fresh e he
    · intro e
      rw [flag_set]
      by_cases he : e = getEpoch blockNumber
      · rw [if_pos he, h.justified, he, hnone]
        exact iff_of_false (fun hx => nomatch hx.choose_spec.1) Bool.false_ne_true
      · rw [if_neg he]
        exact h.justified e
    · intro e
      rw [flag_set]
      by_cases he : e = getEpoch blockNumber
      · rw [if_pos he, h.finalized, he, hnone]
        exact iff_of_false (fun hx => nomatch hx.choose_spec.1) Bool.false_ne_true
      · rw [if_neg he]
        exact h.finalized e

theorem createCheckpoint_currentEpoch (blockNumber : Int) (blockHash : String) :
    (f.createCheckpoint blockNumber blockHash).currentEpoch = f.currentEpoch := by
  unfold createCheckpoint
  dsimp only
  split <;> rfl

/-! ## An attestation -/

def withVote (f : FinalityEngine) (validator : String) (epoch : Int) : List String :=
  if validator ∈ f.votesIn epoch then f.votesIn epoch else f.votesIn epoch ++ [validator]

def Reaches (f : FinalityEngine) (validator : String) (epoch : Int) : Prop :=
  2 * f.activeValidatorCount ≤ 3 * (f.withVote validator epoch).length

instance (validator : String) (epoch : Int) : Decidable (f.Reaches validator epoch) := inferInstanceAs (Decidable (_ ≤ _))

section
variable {validator hash : String} {epoch : Int} {cp : Checkpoint} (hcp : f.checkpoints.get? epoch = some cp)
include hcp

theorem addAttestation_other (hne : cp.blockHash ≠ hash) : f.addAttestation validator epoch hash = (false, f) := by
  unfold addAttestation
  simp only [hcp, if_pos hne]

variable (validator) in
theorem addAttestation_counted (h : f.Ledger) (hhash : cp.blockHash = hash) :
    ∃ g, f.addAttestation validator epoch hash = (true, g) ∧
      (∀ e, g.checkpoints.get? e = if e = epoch then
        some { cp with
          votes := (f.withVote validator epoch).length
          isJustified := cp.isJustified || decide (f.Reaches validator epoch) }
        else f.checkpoints.get? e) ∧
      (∀ e, g.votesIn e = if e = epoch then f.withVote validator epoch else f.votesIn e) ∧
      (g.justifiedCheckpoints = if f.Reaches validator epoch ∧ ¬ cp.isJustified then f.justifiedCheckpoints ++ [epoch]
        else f.justifiedCheckpoints) ∧
      g.finalizedCheckpoints = f.finalizedCheckpoints ∧ g.currentEpoch = f.currentEpoch ∧
      g.activeValidatorCount = f.activeValidatorCount := by
  have hlen := h.counted epoch cp hcp
  have hmax : max 1 f.activeValidatorCount = f.activeValidatorCount := max_eq_right h.positive
  let cp' : Checkpoint := { cp with votes := (f.withVote validator epoch).length }
  -- first the vote is counted
  obtain ⟨c, hcount, hget, hvotes, hj, hf, hce, hac⟩ : ∃ c, f.countVote validator epoch cp = c ∧
      (∀ e, c.checkpoints.get? e = if e = epoch then some cp' else f.checkpoints.get? e) ∧
      (∀ e, c.votesIn e = if e = epoch then f.withVote validator epoch else f.votesIn e) ∧
      c.justifiedCheckpoints = f.justifiedCheckpoints ∧ c.finalizedCheckpoints = f.finalizedCheckpoints ∧
      c.currentEpoch = f.currentEpoch ∧ c.activeValidatorCount = f.activeValidatorCount := by
    refine ⟨_, rfl, ?_⟩
    unfold countVote cp' withVote
    by_cases hv : validator ∈ f.votesIn epoch
    · simp only [if_pos hv, ← hlen]
      refine ⟨fun e => ?_, fun e => ?_, trivial, trivial, trivial, trivial⟩
      · by_cases he : e = epoch
        · rw [if_pos he, he, hcp]
        · rw [if_neg he]
      · by_cases he : e = epoch
        · rw [if_pos he, he]
        · rw [if_neg he]
    · simp only [if_neg hv]
      refine ⟨fun e => ?_, fun e => ?_, trivial, trivial, trivial, trivial⟩
      · rw [Dict.get?_set, List.length_append, hlen]
        rfl
      · unfold votesIn
        dsimp only
        rw [Dict.get?_set]
        split <;> rfl
  have hadd : f.addAttestation validator epoch hash = (true, c.checkJustified epoch) := by
    unfold addAttestation
    simp only [hcp, hhash, ne_eq, not_true_eq_false, if_false, hcount]
  have hself : c.checkpoints.get? epoch = some cp' := by rw [hget, if_pos rfl]
  -- then the quorum is checked
  have hreach : 2 * max 1 c.activeValidatorCount ≤ 3 * cp'.votes ↔ f.Reaches validator epoch := by
    rw [hac, hmax]
    exact Iff.rfl
  rw [hadd]
  refine ⟨_, rfl, ?_⟩
  unfold checkJustified
  simp only [hself, hreach]
  by_cases hnew : f.Reaches validator epoch ∧ ¬ cp'.isJustified = true
  · rw [if_pos hnew, if_pos hnew]
    refine ⟨fun e => ?_, hvotes, congrArg (· ++ [epoch]) hj, hf, hce, hac⟩
    rw [Dict.get?_set, hget]
    by_cases he : e = epoch
    · simp only [if_pos he, decide_eq_true hnew.1, Bool.or_true, cp']
    · simp only [if_neg he]
  · rw [if_neg hnew, if_neg hnew]
    refine ⟨fun e => ?_, hvotes, hj, hf, hce, hac⟩
    rw [hget]
    by_cases he : e = epoch
    · have hflag : (cp.isJustified || decide (f.Reaches validator epoch)) = cp.isJustified := by
        by_cases hr : f.Reaches validator epoch
        · have hcj : cp.isJustified = true := not_not.mp fun hn => hnew ⟨hr, hn⟩
          rw [hcj]
          rfl
        · rw [decide_eq_false hr, Bool.or_false]
      rw [if_pos he, if_pos he, hflag]
    · rw [if_neg he, if_neg he]

theorem mem_justified_iff (h : f.Ledger) : epoch ∈ f.justifiedCheckpoints ↔ cp.isJustified = true := by
  rw [h.justified]
  constructor
  · rintro ⟨c, hc, hflag⟩
    rw [hcp] at hc
    cases hc
    exact hflag
  · exact fun hflag => ⟨cp, hcp, hflag⟩

variable (validator) in
theorem justified_counted (h : f.Ledger) (hhash : cp.blockHash = hash) (e : Int) :
    e ∈ (f.addAttestation validator epoch hash).2.justifiedCheckpoints ↔
      e ∈ f.justifiedCheckpoints ∨ (e = epoch ∧ f.Reaches validator epoch) := by
  obtain ⟨g, hg, -, -, hj, -⟩ := addAttestation_counted validator hcp h hhash
  rw [hg, hj]
  by_cases hnew : f.Reaches validator epoch ∧ ¬ cp.isJustified = true
  · rw [if_pos hnew, List.mem_append, List.mem_singleton]
    exact or_congr_right (iff_self_and.mpr fun _ => hnew.1)
  · rw [if_neg hnew]
    refine ⟨Or.inl, fun he => he.elim id ?_⟩
    rintro ⟨rfl, hr⟩
    exact (mem_justified_iff hcp h).mpr (not_not.mp fun hn => hnew ⟨hr, hn⟩)

theorem ledger_counted (h : f.Ledger) (hhash : cp.blockHash = hash) : (f.addAttestation validator epoch hash).2.Ledger := by
  have hmem := justified_counted validator hcp h hhash
  have hold := mem_justified_iff hcp h
  obtain ⟨g, hg, hget, hvotes, hj, hf, -, hac⟩ := addAttestation_counted validator hcp h hhash
  rw [hg] at hmem ⊢
  constructor
  -- the voters of each epoch, once each
  · intro e
    rw [hvotes]
    by_cases he : e = epoch
    · rw [if_pos he]
      unfold withVote
      by_cases hv : validator ∈ f.votesIn epoch
      · rw [if_pos hv]
        exact h.voted epoch
      · rw [if_neg hv]
        exact List.nodup_append.mpr ⟨h.voted epoch, List.nodup_singleton _, fun a ha b hb hab =>
          hv (List.mem_singleton.mp hb ▸ hab ▸ ha)⟩
    · rw [if_neg he]
      exact h.voted e
  -- the vote counts of the checkpoints
  · intro e c hc
    rw [hget] at hc
    rw [hvotes]
    by_cases he : e = epoch
    · rw [if_pos he] at hc ⊢
      cases hc
      rfl
    · rw [if_neg he] at hc ⊢
      exact h.counted e c hc
  -- finality is untouched
  · intro e he
    rw [hget] at he
    rw [hvotes]
    by_cases hx : e = epoch
    · rw [if_pos hx] at he
      cases he
    · rw [if_neg hx] at he ⊢
      exact h.fresh e he
  -- the epoch is appended only the first time it reaches the quorum
  · rw [hj]
    by_cases hnew : f.Reaches validator epoch ∧ ¬ cp.isJustified = true
    · rw [if_pos hnew]
      exact List.nodup_append.mpr ⟨h.justifiedOnce, List.nodup_singleton _, fun a ha b hb hab =>
        hnew.2 (hold.mp (List.mem_singleton.mp hb ▸ hab ▸ ha))⟩
    · rw [if_neg hnew]
      exact h.justifiedOnce
  · intro e
    rw [hmem, hget]
    by_cases he : e = epoch
    · rw [if_pos he, he, hold]
      constructor
      · intro hor
        refine ⟨_, rfl, ?_⟩
        rcases hor with hflag | ⟨-, hr⟩
        · simp only [hflag, Bool.true_or]
        · simp only [hr, decide_true, Bool.or_true]
      · rintro ⟨c, hc, hflag⟩
        cases hc
        rcases Bool.or_eq_true_iff.mp hflag with hflag | hr
        · exact .inl hflag
        · exact .inr ⟨rfl, of_decide_eq_true hr⟩
    · rw [if_neg he, h.justified]
      exact or_iff_left fun hx => he hx.1
  · rw [hf]
    exact h.finalizedOnce
  · intro e
    rw [hf, h.finalized, hget]
    by_cases he : e = epoch
    · rw [if_pos he, he, hcp]
      exact ⟨fun ⟨c, hc, hflag⟩ => ⟨_, rfl, by cases hc; exact hflag⟩, fun ⟨c, hc, hflag⟩ => ⟨_, rfl, by cases hc; exact hflag⟩⟩
    · rw [if_neg he]
  · intro e he
    rw [hf] at he
    obtain ⟨h₁, h₂⟩ := h.earned e he
    exact ⟨(hmem e).mpr (.inl h₁), (hmem _).mpr (.inl h₂)⟩
  · rw [hac]
    exact h.positive

end

/-- The attestation counts towards its epoch. -/
def Accepts (f : FinalityEngine) (epoch : Int) (hash : String) : Prop :=
  ∃ cp, f.checkpoints.get? epoch = some cp ∧ cp.blockHash = hash

section
variable (validator : String) {epoch : Int} {hash : String}

theorem addAttestation_rejected (hn : ¬ f.Accepts epoch hash) : f.addAttestation validator epoch hash = (false, f) := by
  cases hcp : f.checkpoints.get? epoch with
  | none =>
    unfold addAttestation
    rw [hcp]
  | some cp => exact addAttestation_other hcp fun hhash => hn ⟨cp, hcp, hhash⟩

theorem ledger_attestation (h : f.Ledger) : (f.addAttestation validator epoch hash).2.Ledger := by
  by_cases ha : f.Accepts epoch hash
  · obtain ⟨cp, hcp, hhash⟩ := ha
    exact ledger_counted hcp h hhash
  · rw [addAttestation_rejected validator ha]
    exact h

theorem accepts_iff (h : f.Ledger) : (f.addAttestation validator epoch hash).1 = true ↔ f.Accepts epoch hash := by
  by_cases ha : f.Accepts epoch hash
  · refine iff_of_true ?_ ha
    obtain ⟨cp, hcp, hhash⟩ := ha
    obtain ⟨g, hg, -⟩ := addAttestation_counted validator hcp h hhash
    rw [hg]
  · refine iff_of_false ?_ ha
    rw [addAttestation_rejected validator ha]
    exact Bool.false_ne_true

theorem mem_justified_attestation (h : f.Ledger) (e : Int) :
    e ∈ (f.addAttestation validator epoch hash).2.justifiedCheckpoints ↔
      e ∈ f.justifiedCheckpoints ∨ (e = epoch ∧ f.Accepts epoch hash ∧ f.Reaches validator epoch) := by
  by_cases ha : f.Accepts epoch hash
  · obtain ⟨cp, hcp, hhash⟩ := ha
    rw [justified_counted validator hcp h hhash]
    exact or_congr_right (and_congr_right fun _ => (and_iff_right ⟨cp, hcp, hhash⟩).symm)
  · rw [addAttestation_rejected validator ha]
    exact (or_iff_left fun hx => ha hx.2.1).symm

theorem attestation_currentEpoch (h : f.Ledger) :
    (f.addAttestation validator epoch hash).2.currentEpoch = f.currentEpoch := by
  by_cases ha : f.Accepts epoch hash
  · obtain ⟨cp, hcp, hhash⟩ := ha
    obtain ⟨g, hg, -, -, -, -, hce, -⟩ := addAttestation_counted validator hcp h hhash
    rw [hg]
    exact hce
  · rw [addAttestation_rejected validator ha]

end

/-! ## The finalised epochs -/

theorem finalize_count (e : Int) : (f.finalizeCheckpoint e).2.activeValidatorCount = f.activeValidatorCount := by
  unfold finalizeCheckpoint
  split
  · rfl
  · split
    · rfl
    · split <;> rfl

theorem finalizeAll_count (l : List Int) :
    (l.foldl (fun f e => (f.finalizeCheckpoint e).2) f).activeValidatorCount = f.activeValidatorCount := by
  induction l generalizing f with
  | nil => rfl
  | cons e l ih => exact ih.trans (finalize_count e)

theorem finalize_justified (e : Int) : (f.finalizeCheckpoint e).2.justifiedCheckpoints = f.justifiedCheckpoints := by
  unfold finalizeCheckpoint
  split
  · rfl
  · split
    · rfl
    · split <;> rfl

/-- An epoch is finalised after one that is justified as it is itself. -/
theorem finalizeCheckpoint_spec (h : f.Ledger) (e : Int) : (f.finalizeCheckpoint e).2.Ledger ∧
    ∀ x, x ∈ (f.finalizeCheckpoint e).2.finalizedCheckpoints ↔ x ∈ f.finalizedCheckpoints ∨
      (x = e ∧ e ∈ f.justifiedCheckpoints ∧ e - 1 ∈ f.justifiedCheckpoints) := by
  unfold finalizeCheckpoint
  -- without both justified epochs nothing happens
  by_cases hj : e ∉ f.justifiedCheckpoints ∨ e - 1 ∉ f.justifiedCheckpoints
  · rw [if_pos hj]
    refine ⟨h, fun x => (or_iff_left ?_).symm⟩
    rintro ⟨-, h₁, h₂⟩
    exact hj.elim (· h₁) (· h₂)
  · rw [if_neg hj]
    obtain ⟨hj₁, hj₂⟩ := not_or.mp hj
    have hj₁ := not_not.mp hj₁
    have hj₂ := not_not.mp hj₂
    obtain ⟨cp, hcp, -⟩ := (h.justified e).mp hj₁
    have hin : e ∈ f.finalizedCheckpoints ↔ cp.isFinalized = true := by
      rw [h.finalized]
      constructor
      · rintro ⟨c, hc, hflag⟩
        rw [hcp] at hc
        cases hc
        exact hflag
      · exact fun hflag => ⟨cp, hcp, hflag⟩
    have hcj := mem_justified_iff hcp h
    simp only [hcp]
    -- an epoch that is final already stays it
    by_cases hflag : cp.isFinalized = true
    · rw [if_pos hflag]
      refine ⟨h, fun x => ⟨.inl, fun hx => hx.elim id ?_⟩⟩
      rintro ⟨rfl, -⟩
      exact hin.mpr hflag
    · rw [if_neg hflag]
      constructor
      · refine { h with counted := ?_, fresh := ?_, justified := ?_, finalizedOnce := ?_, finalized := ?_, earned := ?_ }
        · intro x c hc
          rw [Dict.get?_set] at hc
          by_cases hx : x = e
          · rw [if_pos hx] at hc
            cases hc
            subst hx
            exact h.counted x cp hcp
          · rw [if_neg hx] at hc
            exact h.counted x c hc
        · intro x hx
          rw [Dict.get?_set] at hx
          by_cases he : x = e
          · rw [if_pos he] at hx
            cases hx
          · rw [if_neg he] at hx
            exact h.fresh x hx
        · intro x
          rw [flag_set]
          by_cases hx : x = e
          · rw [if_pos hx, hx]
            exact hcj
          · rw [if_neg hx]
            exact h.justified x
        · exact List.nodup_append.mpr ⟨h.finalizedOnce, List.nodup_singleton _, fun a ha b hb hab =>
            hflag (hin.mp (List.mem_singleton.mp hb ▸ hab ▸ ha))⟩
        · intro x
          rw [flag_set, List.mem_append, List.mem_singleton]
          by_cases hx : x = e
          · rw [if_pos hx]
            exact iff_of_true (.inr hx) rfl
          · rw [if_neg hx, or_iff_left hx]
            exact h.finalized x
        · intro x hx
          rcases List.mem_append.mp hx with hold | hnew
          · exact h.earned x hold
          · rw [List.mem_singleton.mp hnew]
            exact ⟨hj₁, hj₂⟩
      · intro x
        rw [List.mem_append, List.mem_singleton]
        exact or_congr_right (iff_self_and.mpr fun _ => ⟨hj₁, hj₂⟩)

/-- The loop of `process_block` over some epochs. -/
theorem finalizeAll_spec (l : List Int) (h : f.Ledger) :
    (l.foldl (fun f e => (f.finalizeCheckpoint e).2) f).Ledger ∧
    (l.foldl (fun f e => (f.finalizeCheckpoint e).2) f).justifiedCheckpoints = f.justifiedCheckpoints ∧
    ∀ x, x ∈ (l.foldl (fun f e => (f.finalizeCheckpoint e).2) f).finalizedCheckpoints ↔ x ∈ f.finalizedCheckpoints ∨
      (x ∈ l ∧ x ∈ f.justifiedCheckpoints ∧ x - 1 ∈ f.justifiedCheckpoints) := by
  induction l generalizing f with
  | nil => exact ⟨h, rfl, fun x => (or_iff_left fun hx => nomatch hx.1).symm⟩
  | cons e l ih =>
    obtain ⟨hnext, hfinal⟩ := finalizeCheckpoint_spec h e
    obtain ⟨hledger, hsame, hall⟩ := ih hnext
    refine ⟨hledger, hsame.trans (finalize_justified e), fun x => ?_⟩
    rw [List.foldl_cons, hall, hfinal, finalize_justified, List.mem_cons, or_assoc]
    refine or_congr_right ?_
    constructor
    · rintro (⟨rfl, hj⟩ | ⟨hx, hj⟩)
      · exact ⟨.inl rfl, hj⟩
      · exact ⟨.inr hx, hj⟩
    · rintro ⟨rfl | hx, hj⟩
      · exact .inl ⟨rfl, hj⟩
      · exact .inr ⟨hx, hj⟩

theorem mem_epochRange {first last e : Int} : e ∈ epochRange first last ↔ first ≤ e ∧ e ≤ last := by
  simp only [epochRange, List.mem_map, List.bind_eq_flatMap, List.mem_flatMap, List.mem_range, List.mem_pure]
  constructor
  · rintro ⟨i, ⟨n, hn, rfl⟩, rfl⟩
    omega
  · rintro ⟨h₁, h₂⟩
    exact ⟨e - first, ⟨(e - first).toNat, by omega, by omega⟩, by omega⟩

theorem processBlock_spec (h : f.Ledger) (blockNumber : Int) (blockHash validator : String) :
    (f.processBlock blockNumber blockHash validator).Ledger ∧
    (f.processBlock blockNumber blockHash validator).justifiedCheckpoints =
      ((f.createCheckpoint blockNumber blockHash).addAttestation validator (getEpoch blockNumber)
        blockHash).2.justifiedCheckpoints ∧
    ∀ x, x ∈ (f.processBlock blockNumber blockHash validator).finalizedCheckpoints ↔ x ∈ f.finalizedCheckpoints ∨
      ((f.currentEpoch ≤ x ∧ x ≤ getEpoch blockNumber) ∧
        x ∈ (f.processBlock blockNumber blockHash validator).justifiedCheckpoints ∧
        x - 1 ∈ (f.processBlock blockNumber blockHash validator).justifiedCheckpoints) := by
  have hcreated := ledger_create h blockNumber blockHash
  have hledger : ((f.createCheckpoint blockNumber blockHash).addAttestation validator (getEpoch blockNumber)
      blockHash).2.Ledger := ledger_attestation validator hcreated
  have hepoch : ((f.createCheckpoint blockNumber blockHash).addAttestation validator (getEpoch blockNumber)
      blockHash).2.currentEpoch = (f.createCheckpoint blockNumber blockHash).currentEpoch :=
    attestation_currentEpoch validator hcreated
  have hfinal := (f.createCheckpoint blockNumber blockHash).addAttestation_finalized validator (getEpoch blockNumber) blockHash
  rw [createCheckpoint_currentEpoch] at hepoch
  rw [createCheckpoint_finalized] at hfinal
  obtain ⟨hl, hj, hf⟩ := finalizeAll_spec (epochRange f.currentEpoch (getEpoch blockNumber)) hledger
  unfold processBlock
  dsimp only
  rw [hepoch]
  refine ⟨{ hl with }, hj, fun x => ?_⟩
  rw [hf, hfinal, mem_epochRange, hj]

/-! ## The votes behind a checkpoint -/

theorem attestation_votes (h : f.Ledger) (validator : String) (epoch : Int) (hash : String) (x : Int) :
    ((f.addAttestation validator epoch hash).2.tally x).map Prod.fst = (f.tally x).map Prod.fst ∧
    (∀ v ∈ (f.addAttestation validator epoch hash).2.votesIn x, v ∈ f.votesIn x ∨
      (v = validator ∧ x = epoch ∧ f.Accepts epoch hash)) ∧
    (x ∉ f.justifiedCheckpoints → x ∈ (f.addAttestation validator epoch hash).2.justifiedCheckpoints →
      2 * (f.addAttestation validator epoch hash).2.activeValidatorCount ≤
        3 * ((f.addAttestation validator epoch hash).2.votesIn x).length) := by
  by_cases ha : f.Accepts epoch hash
  · obtain ⟨cp, hcp, hhash⟩ := id ha
    have hmem := justified_counted validator hcp h hhash x
    obtain ⟨g, hg, hget, hvotes, -, -, -, hac⟩ := addAttestation_counted validator hcp h hhash
    rw [hg] at hmem ⊢
    refine ⟨?_, fun v hv => ?_, fun hout hin => ?_⟩
    · unfold tally
      rw [hget]
      by_cases hx : x = epoch
      · rw [if_pos hx, hx, hcp]
        rfl
      · rw [if_neg hx]
    · rw [hvotes] at hv
      by_cases hx : x = epoch
      · rw [if_pos hx] at hv
        subst hx
        unfold withVote at hv
        by_cases hold : validator ∈ f.votesIn x
        · rw [if_pos hold] at hv
          exact .inl hv
        · rw [if_neg hold, List.mem_append, List.mem_singleton] at hv
          exact hv.imp_right fun hv => ⟨hv, rfl, ha⟩
      · rw [if_neg hx] at hv
        exact .inl hv
    · obtain ⟨rfl, hr⟩ := (hmem.mp hin).resolve_left hout
      rw [hac, hvotes, if_pos rfl]
      exact hr
  · rw [addAttestation_rejected validator ha]
    exact ⟨rfl, fun v hv => .inl hv, fun hout hin => absurd hin hout⟩

theorem createCheckpoint_justified (blockNumber : Int) (blockHash : String) :
    (f.createCheckpoint blockNumber blockHash).justifiedCheckpoints = f.justifiedCheckpoints := by
  unfold createCheckpoint
  dsimp only
  split <;> rfl

theorem createCheckpoint_reaches (blockNumber : Int) (blockHash validator : String) (epoch : Int) :
    (f.createCheckpoint blockNumber blockHash).Reaches validator epoch ↔ f.Reaches validator epoch := by
  unfold createCheckpoint
  dsimp only
  split
  · exact Iff.rfl
  · exact Iff.rfl

theorem createCheckpoint_accepts (blockNumber : Int) (blockHash : String) :
    (f.createCheckpoint blockNumber blockHash).Accepts (getEpoch blockNumber) blockHash ↔
      ∀ cp, f.checkpoints.get? (getEpoch blockNumber) = some cp → cp.blockHash = blockHash := by
  unfold createCheckpoint Accepts Dict.contains
  dsimp only
  cases hcp : f.checkpoints.get? (getEpoch blockNumber) with
  | some cp =>
    rw [Option.isSome_some, if_pos rfl, hcp]
    exact ⟨fun ⟨c, hc, hhash⟩ d hd => by cases hc; cases hd; exact hhash, fun hall => ⟨cp, rfl, hall cp rfl⟩⟩
  | none =>
    rw [Option.isSome_none, if_neg Bool.false_ne_true, Dict.get?_set_self]
    exact iff_of_true ⟨_, rfl, rfl⟩ fun _ h => nomatch h

theorem createCheckpoint_votes (h : f.Ledger) (blockNumber : Int) (blockHash : String) (x : Int) :
    (f.createCheckpoint blockNumber blockHash).votesIn x = f.votesIn x ∧
    ((f.createCheckpoint blockNumber blockHash).tally x = f.tally x ∨
      (f.createCheckpoint blockNumber blockHash).votesIn x = []) := by
  unfold createCheckpoint Dict.contains
  dsimp only
  cases hcp : f.checkpoints.get? (getEpoch blockNumber) with
  | some cp => exact ⟨rfl, .inl rfl⟩
  | none =>
    refine ⟨rfl, ?_⟩
    by_cases hx : x = getEpoch blockNumber
    · exact .inr (h.fresh x (hx ▸ hcp))
    · refine .inl ?_
      unfold tally
      exact congrArg _ (Dict.get?_set_of_ne _ hx _)

end FinalityEngine

/-! ## Calls -/

inductive FinalityCall where
  | processBlock (blockNumber : Int) (blockHash validator : String)
  | addAttestation (validator : String) (targetEpoch : Int) (targetHash : String)
  | setActiveValidatorCount (count : Int)

structure EpochVote where
  validator : String
  epoch : Int
  blockHash : String
  deriving DecidableEq

structure FinalityPoll where
  engine : FinalityEngine
  votes : List EpochVote

namespace FinalityPoll

open FinalityEngine

def heard (f : FinalityEngine) (validator : String) (epoch : Int) (hash : String) : List EpochVote :=
  if (f.addAttestation validator epoch hash).1 then [⟨validator, epoch, hash⟩] else []

def step : FinalityCall → FinalityPoll → FinalityPoll
  | .processBlock blockNumber blockHash validator, p =>
    { engine := p.engine.processBlock blockNumber blockHash validator
      votes := p.votes ++
        heard (p.engine.createCheckpoint blockNumber blockHash) validator (getEpoch blockNumber) blockHash }
  | .addAttestation validator targetEpoch targetHash, p =>
    { engine := (p.engine.addAttestation validator targetEpoch targetHash).2
      votes := p.votes ++ heard p.engine validator targetEpoch targetHash }
  | .setActiveValidatorCount count, p => { p with engine := p.engine.setActiveValidatorCount count }

def start : FinalityPoll := { engine := .start, votes := [] }

variable (p : FinalityPoll)

def voters (epoch : Int) (blockHash : String) : Finset String :=
  ((p.votes.filter fun v => v.epoch = epoch ∧ v.blockHash = blockHash).map EpochVote.validator).toFinset

def Quorum (epoch : Int) : Prop :=
  ∃ cp, p.engine.checkpoints.get? epoch = some cp ∧
    2 * p.engine.activeValidatorCount ≤ 3 * ((p.voters epoch cp.blockHash).card : Int)

def Exact : Prop :=
  ∀ e, e ∈ p.engine.finalizedCheckpoints ↔ e ≤ p.engine.currentEpoch ∧ e ∈ p.engine.justifiedCheckpoints ∧
    e - 1 ∈ p.engine.justifiedCheckpoints

/-- A call lists no epoch twice and justifies an epoch with a quorum only; a block leaves the finalised
epochs exact. -/
structure Sound (call : FinalityCall) : Prop where
  justifiedOnce : (step call p).engine.justifiedCheckpoints.Nodup
  finalizedOnce : (step call p).engine.finalizedCheckpoints.Nodup
  quorum : ∀ e ∈ (step call p).engine.justifiedCheckpoints, e ∉ p.engine.justifiedCheckpoints → (step call p).Quorum e
  exact : ∀ blockNumber blockHash validator, call = .processBlock blockNumber blockHash validator → (step call p).Exact

def Carries (f : FinalityEngine) (blockNumber : Int) (blockHash validator : String) : Prop :=
  (∀ cp, f.checkpoints.get? (getEpoch blockNumber) = some cp → cp.blockHash = blockHash) ∧
    f.Reaches validator (getEpoch blockNumber)

def Due (f : FinalityEngine) (blockNumber : Int) (blockHash validator : String) (e : Int) : Prop :=
  e ∈ f.justifiedCheckpoints ∨ (e = getEpoch blockNumber ∧ Carries f blockNumber blockHash validator)

def Timely : FinalityCall → FinalityPoll → Prop
  | .processBlock blockNumber blockHash validator, p =>
    (∀ e ∈ p.engine.finalizedCheckpoints, e ≤ getEpoch blockNumber) ∧
      ∀ e ≤ getEpoch blockNumber, e < p.engine.currentEpoch → Due p.engine blockNumber blockHash validator e →
        Due p.engine blockNumber blockHash validator (e - 1) → e ∈ p.engine.finalizedCheckpoints
  | _, _ => True

/-- The engine counts attestations only. -/
def Backed (f : FinalityEngine) (votes : List EpochVote) : Prop :=
  ∀ e hash, (f.tally e).map Prod.fst = some hash → ∀ v ∈ f.votesIn e, ⟨v, e, hash⟩ ∈ votes

structure Tracks : Prop where
  ledger : p.engine.Ledger
  backed : Backed p.engine p.votes

variable {p}

theorem tracks_start : start.Tracks := ⟨ledger_start, fun _ _ h => nomatch h⟩

theorem quorum_of_votes (h : p.Tracks) {e : Int} (hj : e ∈ p.engine.justifiedCheckpoints)
    (hvotes : 2 * p.engine.activeValidatorCount ≤ 3 * (p.engine.votesIn e).length) : p.Quorum e := by
  obtain ⟨cp, hcp, -⟩ := (h.ledger.justified e).mp hj
  refine ⟨cp, hcp, hvotes.trans ?_⟩
  have hsub : (p.engine.votesIn e).toFinset ⊆ p.voters e cp.blockHash := by
    intro v hv
    have hin := h.backed e cp.blockHash (by unfold tally; rw [hcp]; rfl) v (List.mem_toFinset.mp hv)
    refine List.mem_toFinset.mpr (List.mem_map.mpr ⟨_, List.mem_filter.mpr ⟨hin, ?_⟩, rfl⟩)
    exact decide_eq_true ⟨rfl, rfl⟩
  have hcard := Finset.card_le_card hsub
  rw [List.toFinset_card_of_nodup (h.ledger.voted e)] at hcard
  omega

theorem backed_attestation {f : FinalityEngine} {votes : List EpochVote} (h : f.Ledger) (hb : Backed f votes)
    (validator : String) (epoch : Int) (hash : String) :
    Backed (f.addAttestation validator epoch hash).2 (votes ++ heard f validator epoch hash) := by
  intro e b htally v hv
  obtain ⟨hsame, hvotes, -⟩ := attestation_votes h validator epoch hash e
  rw [hsame] at htally
  rcases hvotes v hv with hold | ⟨rfl, rfl, ha⟩
  · exact List.mem_append_left _ (hb e b htally v hold)
  · have hheard : heard f v e hash = [⟨v, e, hash⟩] := if_pos ((accepts_iff v h).mpr ha)
    obtain ⟨cp, hcp, hhash⟩ := ha
    unfold tally at htally
    rw [hcp] at htally
    cases htally
    rw [hheard, ← hhash]
    exact List.mem_append_right _ (List.mem_singleton_self _)

theorem backed_create {f : FinalityEngine} {votes : List EpochVote} (h : f.Ledger) (hb : Backed f votes)
    (blockNumber : Int) (blockHash : String) : Backed (f.createCheckpoint blockNumber blockHash) votes := by
  intro e b htally v hv
  obtain ⟨hvotes, hsame | hempty⟩ := createCheckpoint_votes h blockNumber blockHash e
  · rw [hsame] at htally
    exact hb e b htally v (hvotes ▸ hv)
  · rw [hempty] at hv
    cases hv

theorem processBlock_sameTally (f : FinalityEngine) (blockNumber : Int) (blockHash validator : String) :
    SameTally ((f.createCheckpoint blockNumber blockHash).addAttestation validator (getEpoch blockNumber) blockHash).2
      (f.processBlock blockNumber blockHash validator) := by
  unfold processBlock
  exact finalizeAll_tally _ _

theorem processBlock_count (f : FinalityEngine) (blockNumber : Int) (blockHash validator : String) :
    (f.processBlock blockNumber blockHash validator).activeValidatorCount =
      ((f.createCheckpoint blockNumber blockHash).addAttestation validator (getEpoch blockNumber)
        blockHash).2.activeValidatorCount := by
  unfold processBlock
  exact finalizeAll_count _

theorem tracks_step (call : FinalityCall) (h : p.Tracks) : (step call p).Tracks := by
  cases call with
  | processBlock blockNumber blockHash validator =>
    refine ⟨(processBlock_spec h.ledger blockNumber blockHash validator).1, ?_⟩
    obtain ⟨htally, hvotes⟩ := processBlock_sameTally p.engine blockNumber blockHash validator
    have hb := backed_attestation (ledger_create h.ledger blockNumber blockHash)
      (backed_create h.ledger h.backed blockNumber blockHash) validator (getEpoch blockNumber) blockHash
    intro e hash ht v hv
    have ht : ((p.engine.processBlock blockNumber blockHash validator).tally e).map Prod.fst = some hash := ht
    have hv : v ∈ (p.engine.processBlock blockNumber blockHash validator).votesIn e := hv
    rw [htally] at ht
    rw [hvotes] at hv
    exact hb e hash ht v hv
  | addAttestation validator targetEpoch targetHash =>
    exact ⟨ledger_attestation validator h.ledger, backed_attestation h.ledger h.backed validator targetEpoch targetHash⟩
  | setActiveValidatorCount count => exact ⟨{ h.ledger with positive := le_max_left _ _ }, h.backed⟩

/-! ## Blocks -/

theorem mem_justified_block (h : p.Tracks) (blockNumber : Int) (blockHash validator : String) (e : Int) :
    e ∈ (step (.processBlock blockNumber blockHash validator) p).engine.justifiedCheckpoints ↔
      Due p.engine blockNumber blockHash validator e := by
  obtain ⟨-, hj, -⟩ := processBlock_spec h.ledger blockNumber blockHash validator
  have hj : (step (.processBlock blockNumber blockHash validator) p).engine.justifiedCheckpoints = _ := hj
  rw [hj, mem_justified_attestation validator (ledger_create h.ledger blockNumber blockHash), createCheckpoint_justified,
    createCheckpoint_accepts, createCheckpoint_reaches]
  exact Iff.rfl

theorem exact_block (h : p.Tracks) (blockNumber : Int) (blockHash validator : String) :
    (step (.processBlock blockNumber blockHash validator) p).Exact ↔
      Timely (.processBlock blockNumber blockHash validator) p := by
  obtain ⟨-, -, hf⟩ := processBlock_spec h.ledger blockNumber blockHash validator
  have hdue := mem_justified_block h blockNumber blockHash validator
  have hfinal : ∀ x, x ∈ (step (.processBlock blockNumber blockHash validator) p).engine.finalizedCheckpoints ↔
      x ∈ p.engine.finalizedCheckpoints ∨ ((p.engine.currentEpoch ≤ x ∧ x ≤ getEpoch blockNumber) ∧
        Due p.engine blockNumber blockHash validator x ∧ Due p.engine blockNumber blockHash validator (x - 1)) := by
    intro x
    rw [← hdue, ← hdue]
    exact hf x
  have hcurrent : (step (.processBlock blockNumber blockHash validator) p).engine.currentEpoch = getEpoch blockNumber := rfl
  constructor
  · intro hexact
    refine ⟨fun e he => ?_, fun e hle hpast hnow hbefore => ?_⟩
    · exact hcurrent ▸ ((hexact e).mp ((hfinal e).mpr (.inl he))).1
    · have hin := (hexact e).mpr ⟨hcurrent ▸ hle, (hdue e).mpr hnow, (hdue _).mpr hbefore⟩
      rcases (hfinal e).mp hin with hold | hnew
      · exact hold
      · exact absurd hpast (not_lt.mpr hnew.1.1)
  · rintro ⟨hlate, hpast⟩ e
    rw [hfinal, hcurrent, hdue, hdue]
    constructor
    · rintro (hold | ⟨⟨-, hle⟩, hnow, hbefore⟩)
      · obtain ⟨h₁, h₂⟩ := h.ledger.earned e hold
        exact ⟨hlate e hold, .inl h₁, .inl h₂⟩
      · exact ⟨hle, hnow, hbefore⟩
    · rintro ⟨hle, hnow, hbefore⟩
      by_cases hrange : p.engine.currentEpoch ≤ e
      · exact .inr ⟨⟨hrange, hle⟩, hnow, hbefore⟩
      · exact .inl (hpast e hle (not_le.mp hrange) hnow hbefore)

theorem quorum_step (call : FinalityCall) (h : p.Tracks) {e : Int}
    (hin : e ∈ (step call p).engine.justifiedCheckpoints) (hout : e ∉ p.engine.justifiedCheckpoints) :
    (step call p).Quorum e := by
  apply quorum_of_votes (tracks_step call h) hin
  cases call with
  | processBlock blockNumber blockHash validator =>
    obtain ⟨-, hj, -⟩ := processBlock_spec h.ledger blockNumber blockHash validator
    have hcount : (step (.processBlock blockNumber blockHash validator) p).engine.activeValidatorCount = _ :=
      processBlock_count p.engine blockNumber blockHash validator
    have hvotes : (step (.processBlock blockNumber blockHash validator) p).engine.votesIn e = _ :=
      (processBlock_sameTally p.engine blockNumber blockHash validator).2 e
    rw [hcount, hvotes]
    refine (attestation_votes (ledger_create h.ledger blockNumber blockHash) validator (getEpoch blockNumber)
      blockHash e).2.2 ?_ (hj ▸ hin)
    rw [createCheckpoint_justified]
    exact hout
  | addAttestation validator targetEpoch targetHash =>
    exact (attestation_votes h.ledger validator targetEpoch targetHash e).2.2 hout hin
  | setActiveValidatorCount count => exact absurd hin hout

theorem sound_step (call : FinalityCall) (h : p.Tracks) : p.Sound call ↔ Timely call p := by
  have hledger := (tracks_step call h).ledger
  constructor
  · intro hs
    cases call with
    | processBlock blockNumber blockHash validator =>
      exact (exact_block h blockNumber blockHash validator).mp (hs.exact blockNumber blockHash validator rfl)
    | addAttestation validator targetEpoch targetHash => trivial
    | setActiveValidatorCount count => trivial
  · intro ht
    refine ⟨hledger.justifiedOnce, hledger.finalizedOnce, fun e hin hout => quorum_step call h hin hout, ?_⟩
    rintro blockNumber blockHash validator rfl
    exact (exact_block h blockNumber blockHash validator).mpr ht

/-- Over every sequence of calls the lists are without repetition, each epoch is justified by a quorum, and
each block leaves the finalised epochs exact if and only if it finds nothing that it passes over. -/
theorem finality_exact_iff_timely (calls : List FinalityCall) :
    Along step (fun call p => p.Sound call) calls start ↔ Along step Timely calls start :=
  along_congr (I := Tracks) (fun call _ h => tracks_step call h) (fun call _ h => sound_step call h) tracks_start

/-- Epochs 0 and 1 are justified after epoch 2 has begun; or the blocks go back from epoch 1 to epoch 0. -/
theorem finality_not_exact :
    ¬ Along step (fun call p => p.Sound call)
      [.setActiveValidatorCount 2, .processBlock 0 "x" "a", .processBlock 32 "y" "a", .processBlock 64 "z" "a",
        .addAttestation "b" 0 "x", .addAttestation "b" 1 "y", .processBlock 65 "w" "a"] start ∧
    ¬ Along step (fun call p => p.Sound call)
      [.processBlock 0 "x" "a", .processBlock 32 "y" "a", .processBlock 5 "w" "a"] start := by
  constructor
  · intro h
    have hone := (h.2.2.2.2.2.2.1.exact 65 "w" "a" rfl 1).mpr (by decide +kernel)
    revert hone
    decide +kernel
  · intro h
    have hone := (h.2.2.1.exact 5 "w" "a" rfl 1).mp (by decide +kernel)
    revert hone
    decide +kernel

end FinalityPoll

end AbsoluteChain
