import AbsoluteChain.PoolLocks

/-!
# The release of the staking pool

`on_epoch_boundary` and `catch_up_epochs` advance the same persisted counters, the first
by one step whatever the epoch is, the second by one step for each epoch that is missing.
-/

namespace AbsoluteChain

open Python Runs

/-- `_ensure_state`: a manager finds the persisted state, or writes the first one. -/
def ensureState (founderAddress : String) (saved : Option PoolLocksState) : PoolLocksState :=
  saved.getD (initialPoolLocks founderAddress)

structure CatchUp where
  epochsCaughtUp : Int
  stakingReleasedTotal : ℚ

def PoolInfo.perEpoch (info : PoolInfo) : ℚ := info.total / stakingReleaseEpochs

namespace PoolLocksState

def afterEpoch (s : PoolLocksState) (epoch : Int) : PoolLocksState := ((s.onEpochBoundary epoch).map Prod.snd).getD s

def epochsUpTo (currentEpoch : Int) : List Int := (List.range ((max 0 currentEpoch).toNat + 1)).map Int.ofNat

def catchUpEpochs (currentEpoch : Int) (s : PoolLocksState) : CatchUp × PoolLocksState :=
  let r := (epochsUpTo currentEpoch).foldl (fun (acc : ℚ × PoolLocksState) ep =>
    match acc.2.onEpochBoundary ep with
    | none => acc
    | some (released, s') => (acc.1 + released.stakingReleasedDelta, s')) (0, s)
  (⟨currentEpoch + 1, r.1⟩, r.2)

inductive EpochCall where
  | boundary (epoch : Int)
  | catchUp (currentEpoch : Int)
  | restart (founderAddress : String)

def step : EpochCall → PoolLocksState → PoolLocksState
  | .boundary epoch, s => s.afterEpoch epoch
  | .catchUp currentEpoch, s => (s.catchUpEpochs currentEpoch).2
  | .restart founderAddress, s => ensureState founderAddress (some s)

/-! ## What the release should be -/

def stakingPool (s : PoolLocksState) : Option PoolInfo := s.pools.get? stakingAddress

def Released (s : PoolLocksState) : Prop :=
  ∃ info, s.stakingPool = some info ∧ info.released = (min 100 (s.lastEpoch + 1) : ℤ) * info.perEpoch

def processed : EpochCall → PoolLocksState → Int
  | .boundary epoch, s => if epoch ≤ s.lastEpoch then 0 else 1
  | .catchUp currentEpoch, s => max 0 (max 0 currentEpoch - s.lastEpoch)
  | .restart _, _ => 0

/-- From one state to another the release never goes back nor over the total, and grows by a hundredth of it
at most for each of `n` epochs. -/
def Gradual (s s' : PoolLocksState) (n : Int) : Prop :=
  ∃ info info', s.stakingPool = some info ∧ s'.stakingPool = some info' ∧ info'.total = info.total ∧
    info.released ≤ info'.released ∧ info'.released ≤ info.total ∧ info'.released - info.released ≤ n * info.perEpoch

def Consecutive : EpochCall → PoolLocksState → Prop
  | .boundary epoch, s => epoch ≤ s.lastEpoch + 1 ∨ 98 ≤ s.lastEpoch
  | _, _ => True

/-! ## The counters -/

structure Counted (s : PoolLocksState) (info : PoolInfo) : Prop where
  pool : s.stakingPool = some info
  total : 0 < info.total
  least : 0 ≤ s.stakingEpochsReleased
  most : s.stakingEpochsReleased ≤ 100
  released : info.released = s.stakingEpochsReleased * info.perEpoch
  start : -1 ≤ s.lastEpoch

variable {s s' : PoolLocksState} {info : PoolInfo}

theorem Counted.perEpoch_pos (h : Counted s info) : 0 < info.perEpoch := by
  have htotal := h.total
  unfold PoolInfo.perEpoch stakingReleaseEpochs
  positivity

theorem total_eq (info : PoolInfo) : info.total = 100 * info.perEpoch := by
  unfold PoolInfo.perEpoch stakingReleaseEpochs
  push_cast
  ring

theorem afterEpoch_late {epoch : Int} (h : epoch ≤ s.lastEpoch) : s.afterEpoch epoch = s := by
  unfold afterEpoch onEpochBoundary
  rw [if_pos h]
  rfl

theorem Counted.epoch (h : Counted s info) {epoch : Int} (hnew : s.lastEpoch < epoch) :
    ∃ info', Counted (s.afterEpoch epoch) info' ∧ info'.total = info.total ∧ (s.afterEpoch epoch).lastEpoch = epoch ∧
      (s.afterEpoch epoch).stakingEpochsReleased = min 100 (s.stakingEpochsReleased + 1) := by
  have hpool : s.pools.get? stakingAddress = some info := h.pool
  have hstart := h.start
  have hleast := h.least
  unfold afterEpoch onEpochBoundary
  rw [if_neg (not_le.mpr hnew), hpool]
  dsimp only
  by_cases hleft : s.stakingEpochsReleased < stakingReleaseEpochs
  · rw [if_pos hleft]
    have hroom : s.stakingEpochsReleased + 1 ≤ 100 := hleft
    have hreleased : min info.total (info.released + info.perEpoch) = (s.stakingEpochsReleased + 1 : ℤ) * info.perEpoch := by
      have hle : ((s.stakingEpochsReleased + 1 : ℤ) : ℚ) ≤ 100 := by exact_mod_cast hroom
      have hall := mul_le_mul_of_nonneg_right hle h.perEpoch_pos.le
      have hnext : info.released + info.perEpoch = ((s.stakingEpochsReleased + 1 : ℤ) : ℚ) * info.perEpoch := by
        rw [h.released]
        push_cast
        ring
      rw [hnext, min_eq_right]
      rwa [total_eq info]
    refine ⟨{ info with released := min info.total (info.released + info.perEpoch) }, ?_, rfl, rfl, (min_eq_right hroom).symm⟩
    exact ⟨Dict.get?_set_self _ _ _, h.total, by dsimp only [Option.map_some, Option.getD_some]; omega, hroom, hreleased,
      by dsimp only [Option.map_some, Option.getD_some]; omega⟩
  · rw [if_neg hleft]
    have hall : 100 ≤ s.stakingEpochsReleased := not_lt.mp hleft
    have hmost := h.most
    refine ⟨info, ⟨h.pool, h.total, h.least, h.most, h.released, ?_⟩, rfl, rfl, ?_⟩
    · dsimp only [Option.map_some, Option.getD_some]
      omega
    · dsimp only [Option.map_some, Option.getD_some]
      omega

/-- With the counter of releases, the closed form is a statement on the two counters. -/
theorem Counted.released_iff (h : Counted s info) :
    s.Released ↔ s.stakingEpochsReleased = min 100 (s.lastEpoch + 1) := by
  have hpos := h.perEpoch_pos
  constructor
  · rintro ⟨info', hpool, hreleased⟩
    obtain rfl := Option.some.inj (h.pool.symm.trans hpool)
    rw [h.released] at hreleased
    exact_mod_cast mul_right_cancel₀ hpos.ne' hreleased
  · intro heq
    exact ⟨info, h.pool, by rw [h.released, heq]⟩

theorem Counted.gradual (h : Counted s info) {info' : PoolInfo} (h' : Counted s' info') (htotal : info'.total = info.total)
    {n : Int} (hle : s.stakingEpochsReleased ≤ s'.stakingEpochsReleased)
    (hn : s'.stakingEpochsReleased ≤ s.stakingEpochsReleased + n) : Gradual s s' n := by
  have hper : info'.perEpoch = info.perEpoch := by
    unfold PoolInfo.perEpoch
    rw [htotal]
  have hpos := h.perEpoch_pos
  have hle' : (s.stakingEpochsReleased : ℚ) ≤ s'.stakingEpochsReleased := by exact_mod_cast hle
  have hn' : (s'.stakingEpochsReleased : ℚ) ≤ s.stakingEpochsReleased + n := by exact_mod_cast hn
  have hmost : (s'.stakingEpochsReleased : ℚ) ≤ 100 := by exact_mod_cast h'.most
  refine ⟨info, info', h.pool, h'.pool, htotal, ?_, ?_, ?_⟩
  · rw [h.released, h'.released, hper]
    exact mul_le_mul_of_nonneg_right hle' hpos.le
  · rw [h'.released, hper, total_eq info]
    exact mul_le_mul_of_nonneg_right hmost hpos.le
  · rw [h.released, h'.released, hper, ← sub_mul]
    exact mul_le_mul_of_nonneg_right (by linarith) hpos.le

/-! ## Catching up -/

theorem catchUp_state (currentEpoch : Int) (s : PoolLocksState) :
    (s.catchUpEpochs currentEpoch).2 = (epochsUpTo currentEpoch).foldl afterEpoch s := by
  have hfold : ∀ (epochs : List Int) (acc : ℚ × PoolLocksState),
      (epochs.foldl (fun (acc : ℚ × PoolLocksState) ep =>
        match acc.2.onEpochBoundary ep with
        | none => acc
        | some (released, s') => (acc.1 + released.stakingReleasedDelta, s')) acc).2 = epochs.foldl afterEpoch acc.2 := by
    intro epochs
    induction epochs with
    | nil => exact fun _ => rfl
    | cons ep epochs ih =>
      intro acc
      rw [List.foldl_cons, List.foldl_cons, ih]
      congr 1
      unfold afterEpoch
      cases acc.2.onEpochBoundary ep with
      | none => rfl
      | some r => rfl
  exact hfold _ _

/-- The epochs up to `k` leave the past ones out and release once for each of the others. -/
theorem Counted.epochs (h : Counted s info) (k : Nat) :
    ∃ info', Counted (((List.range k).map Int.ofNat).foldl afterEpoch s) info' ∧ info'.total = info.total ∧
      (((List.range k).map Int.ofNat).foldl afterEpoch s).lastEpoch = max s.lastEpoch (k - 1) ∧
      (((List.range k).map Int.ofNat).foldl afterEpoch s).stakingEpochsReleased =
        min 100 (s.stakingEpochsReleased + max 0 (k - 1 - s.lastEpoch)) := by
  induction k with
  | zero =>
    have hstart := h.start
    have hmost := h.most
    refine ⟨info, h, rfl, ?_, ?_⟩
    · show s.lastEpoch = _
      omega
    · show s.stakingEpochsReleased = _
      omega
  | succ k ih =>
    obtain ⟨info₁, h₁, htotal, hlast, hdone⟩ := ih
    have hstart := h.start
    have hmost := h.most
    rw [List.range_succ, List.map_append, List.foldl_append]
    show ∃ info', Counted (afterEpoch _ (k : Int)) info' ∧ _
    by_cases hlate : (k : Int) ≤ (((List.range k).map Int.ofNat).foldl afterEpoch s).lastEpoch
    · have hsame := afterEpoch_late hlate
      refine ⟨info₁, ?_, htotal, ?_, ?_⟩
      · rw [hsame]
        exact h₁
      · refine (congrArg lastEpoch hsame).trans ?_
        push_cast
        omega
      · refine (congrArg stakingEpochsReleased hsame).trans ?_
        push_cast
        omega
    · obtain ⟨info₂, h₂, htotal₂, hlast₂, hdone₂⟩ := h₁.epoch (not_le.mp hlate)
      refine ⟨info₂, h₂, htotal₂.trans htotal, ?_, ?_⟩
      · refine hlast₂.trans ?_
        push_cast
        omega
      · refine hdone₂.trans ?_
        push_cast
        omega

/-! ## Runs -/

theorem Counted.step (h : Counted s info) (e : EpochCall) :
    ∃ info', Counted (step e s) info' ∧ info'.total = info.total ∧
      s.stakingEpochsReleased ≤ (PoolLocksState.step e s).stakingEpochsReleased ∧
      (PoolLocksState.step e s).stakingEpochsReleased ≤ s.stakingEpochsReleased + processed e s ∧
      (s.stakingEpochsReleased = min 100 (s.lastEpoch + 1) →
        ((PoolLocksState.step e s).stakingEpochsReleased = min 100 ((PoolLocksState.step e s).lastEpoch + 1) ↔ Consecutive e s)) := by
  have hmost := h.most
  have hstart := h.start
  cases e with
  | boundary epoch =>
    unfold PoolLocksState.step processed Consecutive
    dsimp only
    by_cases hlate : epoch ≤ s.lastEpoch
    · rw [afterEpoch_late hlate, if_pos hlate]
      exact ⟨info, h, rfl, le_refl _, by omega, fun heq => iff_of_true heq (.inl (by omega))⟩
    · obtain ⟨info', h', htotal, hlast, hdone⟩ := h.epoch (not_le.mp hlate)
      rw [if_neg hlate, hlast, hdone]
      exact ⟨info', h', htotal, by omega, by omega, fun heq => by omega⟩
  | catchUp currentEpoch =>
    obtain ⟨info', h', htotal, hlast, hdone⟩ := h.epochs ((max 0 currentEpoch).toNat + 1)
    unfold PoolLocksState.step processed Consecutive
    dsimp only
    rw [catchUp_state]
    unfold epochsUpTo
    refine ⟨info', h', htotal, ?_, ?_, fun heq => ?_⟩
    · rw [hdone]
      omega
    · rw [hdone]
      push_cast
      omega
    · rw [hdone, hlast, iff_true]
      push_cast
      omega
  | restart founderAddress => exact ⟨info, h, rfl, le_refl _, (add_zero _).ge, fun heq => iff_of_true heq trivial⟩

theorem counted_start (founderAddress : String) :
    Counted (ensureState founderAddress none)
      { id := .staking, name := "Staking Rewards Pool", locked := true, total := 27846000, released := 0, spent := 0,
        daoUnlocked := false, daoVotes := [] } := by
  refine ⟨rfl, by norm_num, le_refl _, Int.natCast_nonneg 100, ?_, le_refl _⟩
  show (0 : ℚ) = ((0 : ℤ) : ℚ) * _
  rw [Int.cast_zero, zero_mul]

/-- The release is gradual in every run, and it is that of the last epoch in the runs whose boundaries leave no
epoch out. -/
theorem staking_release_iff_consecutive (founderAddress : String) (calls : List EpochCall) :
    Along step (fun e s => Gradual s (step e s) (processed e s)) calls (ensureState founderAddress none) ∧
      (Always step Released calls (ensureState founderAddress none) ↔
        Along step Consecutive calls (ensureState founderAddress none)) := by
  have hall : ∀ e s, (∃ info, Counted s info) → ∃ info, Counted (step e s) info := fun e s ⟨_, h⟩ =>
    let ⟨info', h', _⟩ := h.step e
    ⟨info', h'⟩
  have hstart : ∃ info, Counted (ensureState founderAddress none) info := ⟨_, counted_start founderAddress⟩
  constructor
  · refine along_of_inv hall ?_ calls hstart
    rintro e s ⟨info, h⟩
    obtain ⟨info', h', htotal, hle, hn, -⟩ := h.step e
    exact h.gradual h' htotal hle hn
  · refine always_iff_along_of (I := fun s => (∃ info, Counted s info) ∧ s.Released) (fun _ h => h.2) ?_ ?_
      ⟨hstart, (counted_start founderAddress).released_iff.mpr rfl⟩
    · rintro e s ⟨⟨info, h⟩, hreleased⟩ hc
      obtain ⟨info', h', -, -, -, hiff⟩ := h.step e
      exact ⟨⟨info', h'⟩, h'.released_iff.mpr ((hiff (h.released_iff.mp hreleased)).mpr hc)⟩
    · rintro e s ⟨⟨info, h⟩, hreleased⟩ hnext
      obtain ⟨info', h', -, -, -, hiff⟩ := h.step e
      exact (hiff (h.released_iff.mp hreleased)).mp (h'.released_iff.mp hnext)

/-- After the boundary of epoch 5 one hundredth is released instead of six, and catching up does not help. -/
theorem staking_release_skips :
    ¬ Always step Released [.boundary 5, .catchUp 5] (ensureState "" none) := by
  intro h
  obtain ⟨info, hpool, hreleased⟩ := h.last
  have hrun : (run step [.boundary 5, .catchUp 5] (ensureState "" none)).stakingPool.map PoolInfo.released = some 278460 ∧
      (run step [.boundary 5, .catchUp 5] (ensureState "" none)).stakingPool.map PoolInfo.total = some 27846000 ∧
      (run step [.boundary 5, .catchUp 5] (ensureState "" none)).lastEpoch = 5 := by
    decide +kernel
  obtain ⟨hone, htotal, hlast⟩ := hrun
  rw [hpool] at hone htotal
  rw [Option.some.inj hone, hlast] at hreleased
  unfold PoolInfo.perEpoch stakingReleaseEpochs at hreleased
  rw [Option.some.inj htotal] at hreleased
  norm_num at hreleased

end PoolLocksState

end AbsoluteChain
