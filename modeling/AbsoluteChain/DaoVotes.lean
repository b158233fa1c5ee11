import AbsoluteChain.StakingRelease

/-!
# Votes on the locked pools

`dao_vote` beside the registry of `consensus/validator_registry.py`: votes stay recorded by
name, and are counted against the number of registered validators.
-/

namespace AbsoluteChain

open Python Runs

/-! ## The registry -/

structure ValidatorState where
  stake : Int
  reputation : ℚ := 1
  slashed : Bool := false
  slashCount : Nat := 0

def ValidatorState.slash (v : ValidatorState) : ValidatorState :=
  { v with reputation := v.reputation * (1 / 2), slashCount := v.slashCount + 1, slashed := true }

abbrev ValidatorRegistry := Dict String ValidatorState

namespace ValidatorRegistry

def registerValidator (address : String) (stake : Int) (r : ValidatorRegistry) : Bool × ValidatorRegistry :=
  if r.contains address then (false, r) else (true, r.set address { stake := stake })

def slashValidator (address : String) (r : ValidatorRegistry) : ValidatorRegistry :=
  match r.get? address with
  | none => r
  | some v => r.set address v.slash

def active (r : ValidatorRegistry) : List String := (r.filter fun e => !e.2.slashed).map Prod.fst

end ValidatorRegistry

structure DaoState where
  registry : ValidatorRegistry
  pools : PoolLocksState

inductive DaoCall where
  | register (address : String) (stake : Int)
  | slash (address : String)
  | vote (poolId voter : String) (withRegistry : Bool)

namespace DaoState

variable (host : Host)

def handed (withRegistry : Bool) (s : DaoState) : Option (List String) :=
  if withRegistry then some (s.registry.map Prod.fst) else none

def step : DaoCall → DaoState → DaoState
  | .register address stake, s => { s with registry := (s.registry.registerValidator address stake).2 }
  | .slash address, s => { s with registry := s.registry.slashValidator address }
  | .vote poolId voter withRegistry, s =>
    match s.pools.daoVote host poolId voter (s.handed withRegistry) with
    | .error _ => s
    | .ok (_, pools) => { s with pools := pools }

/-! ## What unlocks a pool -/

def Quorum (r : ValidatorRegistry) (votes : Dict String Bool) : Prop :=
  0 < r.active.length ∧ 51 * r.active.length ≤ 100 * (r.active.filter fun v => votes.contains v).length

def Justified (e : DaoCall) (s : DaoState) : Prop :=
  ∀ address info info', s.pools.pools.get? address = some info → (step host e s).pools.pools.get? address = some info' →
    info.daoUnlocked = false → info'.daoUnlocked = true →
    (∃ poolId voter withRegistry, e = .vote poolId voter withRegistry) ∧ Quorum (step host e s).registry info'.daoVotes

/-- A vote on a locked pool that brings its votes to 51% of those registered (of one, without a registry) comes
with the registry, and whoever has voted is registered and not slashed. -/
def Sober : DaoCall → DaoState → Prop
  | .vote poolId voter withRegistry, s =>
    ∀ address info name, s.pools.pools.get? address = some info → info.id.text = poolId → info.daoUnlocked = false →
      PoolLocksState.voterIn host (s.handed withRegistry) voter = some name →
      51 * max 1 (((s.handed withRegistry).map List.length).getD 1) ≤ 100 * (info.daoVotes.set name true).length →
      withRegistry = true ∧ ∀ v ∈ (info.daoVotes.set name true).map Prod.fst, v ∈ s.registry.active
  | _, _ => True

structure Tallied (s : DaoState) : Prop where
  pools : s.pools.pools.Keyed
  voters : ∀ address info, s.pools.pools.get? address = some info → info.daoVotes.Keyed

variable {host} {s : DaoState}

/-! ## One vote -/

theorem daoVote_ok {p p' : PoolLocksState} {poolId voter : String} {registry : Option (List String)} {count : VoteCount}
    (h : p.daoVote host poolId voter registry = .ok (count, p')) :
    ∃ address info name, p.pools.get? address = some info ∧ PoolLocksState.voterIn host registry voter = some name ∧
      (∃ e ∈ p.pools, e.1 = address ∧ e.2.id.text = poolId) ∧
      let quorum : Bool := daoVoteThreshold ≤ ((info.daoVotes.set name true).length : ℚ) / (max 1 ((registry.map List.length).getD 1) : ℕ)
      p'.pools = p.pools.set address
        (if quorum then { info with daoVotes := info.daoVotes.set name true, daoUnlocked := true, locked := false }
        else { info with daoVotes := info.daoVotes.set name true }) := by
  unfold PoolLocksState.daoVote at h
  by_cases hid : poolId ≠ "ecosystem" ∧ poolId ≠ "treasury"
  · rw [if_pos hid] at h
    cases h
  · rw [if_neg hid] at h
    cases hname : PoolLocksState.voterIn host registry voter with
    | none =>
      rw [hname] at h
      cases h
    | some name =>
      rw [hname] at h
      dsimp only at h
      split at h
      · cases h
      · rename_i address info hfound
        obtain ⟨e, hfind, hmap⟩ := Option.bind_eq_some_iff.mp hfound
        obtain ⟨info₁, hget, heq⟩ := Option.map_eq_some_iff.mp hmap
        obtain ⟨rfl, rfl⟩ := Prod.mk.inj heq
        have htext := List.find?_some hfind
        cases h
        exact ⟨e.1, info₁, name, hget, rfl, ⟨e, List.mem_of_find?_eq_some hfind, rfl, of_decide_eq_true htext⟩, rfl⟩

theorem reaches_iff (votes validators : Nat) :
    daoVoteThreshold ≤ (votes : ℚ) / (max 1 validators : ℕ) ↔ 51 * max 1 validators ≤ 100 * votes := by
  have hpos : (0 : ℚ) < (max 1 validators : ℕ) := by
    exact_mod_cast lt_of_lt_of_le Nat.one_pos (le_max_left 1 validators)
  rw [le_div_iff₀ hpos]
  unfold daoVoteThreshold
  constructor
  · intro h
    have hq : (51 : ℚ) * (max 1 validators : ℕ) ≤ 100 * votes := by linarith
    exact_mod_cast hq
  · intro h
    have hq : (51 : ℚ) * (max 1 validators : ℕ) ≤ 100 * votes := by exact_mod_cast h
    linarith

theorem active_sublist (r : ValidatorRegistry) : r.active.Sublist (r.map Prod.fst) := List.filter_sublist.map Prod.fst

theorem quorum_of_active {r : ValidatorRegistry} {votes : Dict String Bool} (hvotes : votes.Keyed) (hsome : votes ≠ [])
    (hactive : ∀ v ∈ votes.map Prod.fst, v ∈ r.active) (hcount : 51 * max 1 r.length ≤ 100 * votes.length) :
    Quorum r votes := by
  have hsub : ∀ v ∈ votes.map Prod.fst, v ∈ r.active.filter fun v => votes.contains v := by
    intro v hv
    obtain ⟨e, he, rfl⟩ := List.mem_map.mp hv
    refine List.mem_filter.mpr ⟨hactive e.1 hv, ?_⟩
    unfold Dict.contains
    rw [hvotes.get?_of_mem he]
    rfl
  have hfew := (List.subperm_of_subset hvotes hsub).length_le
  have hall := (active_sublist r).length_le
  rw [List.length_map] at hfew hall
  constructor
  · obtain ⟨e, rest, rfl⟩ := List.exists_cons_of_ne_nil hsome
    exact List.length_pos_of_mem (hactive e.1 List.mem_cons_self)
  · have hone := le_max_right 1 r.length
    omega

theorem set_ne_nil (votes : Dict String Bool) (name : String) : votes.set name true ≠ [] := by
  intro h
  have hget := Dict.get?_set_self votes name true
  rw [h] at hget
  cases hget

section vote
variable {p p' : PoolLocksState} {poolId voter : String} {withRegistry : Bool} {count : VoteCount}

theorem tallied_vote (h : s.Tallied) (hv : s.pools.daoVote host poolId voter (s.handed withRegistry) = .ok (count, p')) :
    Tallied { s with pools := p' } := by
  obtain ⟨address, info, name, hget, -, -, hset⟩ := daoVote_ok hv
  dsimp only at hset
  constructor
  · show p'.pools.Keyed
    rw [hset]
    exact h.pools.set _ _
  · intro a info' hget'
    change p'.pools.get? a = some info' at hget'
    rw [hset, Dict.get?_set] at hget'
    by_cases ha : a = address
    · rw [if_pos ha] at hget'
      obtain rfl := Option.some.inj hget'
      split
      · exact (h.voters _ _ hget).set _ _
      · exact (h.voters _ _ hget).set _ _
    · rw [if_neg ha] at hget'
      exact h.voters _ _ hget'

theorem justified_vote (h : s.Tallied) (hs : Sober host (.vote poolId voter withRegistry) s) :
    Justified host (.vote poolId voter withRegistry) s := by
  intro a info₀ info' hget₀ hget' hlocked hopen
  refine ⟨⟨poolId, voter, withRegistry, rfl⟩, ?_⟩
  unfold step at hget' ⊢
  dsimp only at hget' ⊢
  cases hv : s.pools.daoVote host poolId voter (s.handed withRegistry) with
  | error e =>
    rw [hv] at hget'
    dsimp only at hget'
    obtain rfl := Option.some.inj (hget₀.symm.trans hget')
    rw [hlocked] at hopen
    cases hopen
  | ok r =>
    obtain ⟨count, p'⟩ := r
    rw [hv] at hget'
    obtain ⟨address, info, name, hget, hname, ⟨e, he, heq, htext⟩, hset⟩ := daoVote_ok hv
    dsimp only at hset hget' ⊢
    rw [hset, Dict.get?_set] at hget'
    by_cases ha : a = address
    · rw [if_pos ha] at hget'
      obtain rfl := Option.some.inj (hget.symm.trans (ha ▸ hget₀))
      have hinfo : e.2 = info := by
        have hmem : (address, e.2) ∈ s.pools.pools := heq ▸ he
        exact Option.some.inj ((h.pools.get?_of_mem hmem).symm.trans hget)
      obtain rfl := Option.some.inj hget'
      by_cases hq : daoVoteThreshold ≤
          ((info.daoVotes.set name true).length : ℚ) / (max 1 (((s.handed withRegistry).map List.length).getD 1) : ℕ)
      · have hcount := (reaches_iff _ _).mp hq
        obtain ⟨rfl, hactive⟩ := hs address info name hget (hinfo ▸ htext) hlocked hname hcount
        rw [if_pos (decide_eq_true hq)]
        apply quorum_of_active ((h.voters _ _ hget).set _ _) (set_ne_nil _ _) hactive
        unfold handed at hcount
        simpa only [if_true, Option.map_some, Option.getD_some, List.length_map] using hcount
      · rw [if_neg (by rw [decide_eq_true_eq]; exact hq)] at hopen
        rw [hlocked] at hopen
        cases hopen
    · rw [if_neg ha] at hget'
      obtain rfl := Option.some.inj (hget₀.symm.trans hget')
      rw [hlocked] at hopen
      cases hopen

end vote

/-! ## Runs -/

theorem tallied_step (e : DaoCall) (h : s.Tallied) : (step host e s).Tallied := by
  cases e with
  | register address stake => exact ⟨h.pools, h.voters⟩
  | slash address => exact ⟨h.pools, h.voters⟩
  | vote poolId voter withRegistry =>
    unfold step
    dsimp only
    cases hv : s.pools.daoVote host poolId voter (s.handed withRegistry) with
    | error e => exact h
    | ok r => exact tallied_vote h hv

theorem justified_step (e : DaoCall) (h : s.Tallied) (hs : Sober host e s) : Justified host e s := by
  cases e with
  | vote poolId voter withRegistry => exact justified_vote h hs
  | register address stake =>
    intro a info info' hget hget' hlocked hopen
    obtain rfl := Option.some.inj (hget.symm.trans hget')
    rw [hlocked] at hopen
    cases hopen
  | slash address =>
    intro a info info' hget hget' hlocked hopen
    obtain rfl := Option.some.inj (hget.symm.trans hget')
    rw [hlocked] at hopen
    cases hopen

/-- Nobody is registered yet, and nobody has voted. -/
def founded (founderAddress : String) : DaoState := { registry := [], pools := ensureState founderAddress none }

theorem tallied_founded (founderAddress : String) : (founded founderAddress).Tallied := by
  have hpools : (founded founderAddress).pools.pools.map Prod.fst = [ecosystemAddress, treasuryAddress, stakingAddress] := rfl
  have hvotes : ∀ e ∈ (founded founderAddress).pools.pools, e.2.daoVotes = [] := by
    intro e he
    have hall : (founded founderAddress).pools.pools.all (fun e => e.2.daoVotes.isEmpty) = true := rfl
    exact List.isEmpty_iff.mp (List.all_eq_true.mp hall e he)
  constructor
  · unfold Dict.Keyed
    rw [hpools]
    decide
  · intro address info hget
    rw [hvotes _ (Dict.mem_of_get? hget)]
    exact List.nodup_nil

/-- In the runs whose deciding votes are sober, no pool is unlocked without the quorum. -/
theorem unlocks_justified (founderAddress : String) (calls : List DaoCall)
    (h : Along (step host) (Sober host) calls (founded founderAddress)) :
    Along (step host) (Justified host) calls (founded founderAddress) :=
  along_of_along (fun e _ ht _ => tallied_step e ht) (fun e _ ht hs => justified_step e ht hs)
    (tallied_founded founderAddress) h

/-- Two validators of three vote: the first vote unlocks nothing, and the second does. -/
theorem unlocks_justified_two :
    Along (step Host.plain) (Justified Host.plain)
      [.register "v" 1, .register "w" 2, .register "u" 5, .vote "ecosystem" "v" true, .vote "ecosystem" "w" true]
      (founded "") := by
  have hfirst : (run (step Host.plain) [.register "v" 1, .register "w" 2, .register "u" 5] (founded "")).pools.pools.all
      (fun e => e.2.daoVotes.isEmpty) = true := by decide +kernel
  have hsecond : (run (step Host.plain) [.register "v" 1, .register "w" 2, .register "u" 5, .vote "ecosystem" "v" true]
      (founded "")).pools.pools.all
        (fun e => decide (e.2.id.text = "ecosystem" → e.2.daoVotes.map Prod.fst = ["v"])) = true := by decide +kernel
  refine unlocks_justified "" _ ⟨trivial, trivial, trivial, ?_, ?_, trivial⟩
  · intro address info name hget _ _ _ hcount
    have hempty := List.isEmpty_iff.mp (List.all_eq_true.mp hfirst _ (Dict.mem_of_get? hget))
    rw [hempty] at hcount
    exact absurd hcount (by decide : ¬ 51 * max 1 3 ≤ 100 * 1)
  · intro address info name hget htext _ hname _
    have hvotes := of_decide_eq_true (List.all_eq_true.mp hsecond _ (Dict.mem_of_get? hget)) htext
    obtain rfl : "w" = name := Option.some.inj hname
    refine ⟨rfl, fun x hx => ?_⟩
    rw [Dict.keys_set, hvotes] at hx
    exact (by decide : ∀ x ∈ ["v", "w"], x ∈ ["v", "w", "u"]) x hx

def ecosystem (s : DaoState) : Option PoolInfo := s.pools.pools.get? ecosystemAddress

theorem justified_active {e : DaoCall} {s : DaoState} (h : Justified host e s)
    (hlocked : s.ecosystem.map PoolInfo.daoUnlocked = some false)
    (hopen : (step host e s).ecosystem.map PoolInfo.daoUnlocked = some true) : 0 < (step host e s).registry.active.length := by
  obtain ⟨info, hget, hinfo⟩ := Option.map_eq_some_iff.mp hlocked
  obtain ⟨info', hget', hinfo'⟩ := Option.map_eq_some_iff.mp hopen
  exact (h ecosystemAddress info info' hget hget' hinfo hinfo').2.1

/-- Without the registry a name that nobody knows unlocks the pool; with it, a validator that is slashed does. -/
theorem unlocks_unjustified :
    ¬ Along (step Host.plain) (Justified Host.plain) [.vote "ecosystem" "x" false] (founded "") ∧
    ¬ Along (step Host.plain) (Justified Host.plain) [.register "v" 1, .slash "v", .vote "ecosystem" "v" true] (founded "") := by
  constructor
  · rintro ⟨h, -⟩
    exact absurd (justified_active h (by decide +kernel) (by decide +kernel)) (by decide +kernel)
  · rintro ⟨-, -, h, -⟩
    exact absurd (justified_active h (by decide +kernel) (by decide +kernel)) (by decide +kernel)

end DaoState

end AbsoluteChain
