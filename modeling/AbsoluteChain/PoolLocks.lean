import AbsoluteChain.Linkage
import AbsoluteChain.Runs
import AbsoluteChain.Supply

/-!
# Pool locks over time

`runtime/pool_locks.py`: epochs release the staking pool, votes unlock the ecosystem
and the treasury, and what a pool has spent is counted beside the accounts, in doubles. The
counter is compared with the transactions on the chain, over blocks and reorganisations.
-/

namespace AbsoluteChain

open Python Actions Act Transactions KeyedTable Runs

/-! ## Epochs and votes -/

def stakingReleaseEpochs : Int := 100

def daoVoteThreshold : ℚ := 51 / 100

/-- What the check of an outgoing transaction lets pass beyond what can be spent. -/
def poolTolerance : ℚ := 1 / 1000000000

structure EpochRelease where
  stakingReleasedDelta : ℚ
  stakingTotalReleased : ℚ
  stakingEpochsDone : Int

structure VoteCount where
  votes : Nat
  validators : Nat
  quorumReached : Bool
  unlocked : Bool

def Tables.poolState (t : Tables) : PoolLocksState :=
  t.poolLocks.getD { pools := [], stakingEpochsReleased := 0, lastEpoch := -1 }

namespace PoolLocksState

def onEpochBoundary (epoch : Int) (s : PoolLocksState) : Option (EpochRelease × PoolLocksState) :=
  if epoch ≤ s.lastEpoch then none
  else
    match s.pools.get? stakingAddress with
    | none => some (⟨0, 0, s.stakingEpochsReleased⟩, { s with lastEpoch := epoch })
    | some info =>
      if s.stakingEpochsReleased < stakingReleaseEpochs then
        let newReleased := min info.total (info.released + info.total / stakingReleaseEpochs)
        some (⟨newReleased - info.released, newReleased, s.stakingEpochsReleased + 1⟩,
          { pools := s.pools.set stakingAddress { info with released := newReleased }
            stakingEpochsReleased := s.stakingEpochsReleased + 1, lastEpoch := epoch })
      else some (⟨0, info.released, s.stakingEpochsReleased⟩, { s with lastEpoch := epoch })

/-- The name under which the registry knows the voter; without a registry anyone may vote. -/
def voterIn (host : Host) (registry : Option (List String)) (voter : String) : Option String :=
  match registry with
  | none => some voter
  | some validators =>
    if voter ∈ validators then some voter else validators.find? fun a => host.lower a = host.lower voter

def daoVote (host : Host) (poolId voter : String) (registry : Option (List String)) (s : PoolLocksState) :
    Except String (VoteCount × PoolLocksState) :=
  if poolId ≠ "ecosystem" ∧ poolId ≠ "treasury" then .error "invalid_pool"
  else
    match voterIn host registry voter with
    | none => .error "not_a_validator"
    | some voter =>
      match (s.pools.find? fun e => e.2.id.text = poolId).bind fun e => (s.pools.get? e.1).map fun info => (e.1, info) with
      | none => .error "pool_not_found"
      | some (address, info) =>
        let votes := info.daoVotes.set voter true
        let validators := max 1 ((registry.map List.length).getD 1)
        let quorum : Bool := daoVoteThreshold ≤ (votes.length : ℚ) / validators
        let info' : PoolInfo :=
          if quorum then { info with daoVotes := votes, daoUnlocked := true, locked := false }
          else { info with daoVotes := votes }
        .ok (⟨votes.length, validators, quorum, info'.daoUnlocked⟩, { s with pools := s.pools.set address info' })

end PoolLocksState

def onEpochBoundary (epoch : Int) : Act Fault Db (Option EpochRelease) := do
  let s ← query Tables.poolState
  match s.onEpochBoundary epoch with
  | none => pure none
  | some (released, s') => do
    committed (Tables.setPoolLocks s')
    pure (some released)

def daoVote (host : Host) (poolId voter : String) (registry : Option (List String)) :
    Act Fault Db (Except String VoteCount) := do
  let s ← query Tables.poolState
  match s.daoVote host poolId voter registry with
  | .error e => pure (.error e)
  | .ok (count, s') => do
    committed (Tables.setPoolLocks s')
    pure (.ok count)

/-! ## What left a pool -/

def BlockDict.outgoing (d : BlockDict) (a : String) : ℚ :=
  ((d.transactions.filter fun tx => tx.fromAddr = a).map fun tx => tx.value.toRat + tx.fee).sum

/-- The same on the whole chain. -/
def Tables.outgoing (t : Tables) (a : String) : ℚ := t.blocks.sum fun d => d.outgoing a

/-- What the roundings add to the counter. -/
def stray (spent amount : ℚ) : ℚ := countSpent spent amount - (spent + amount)

def strayed : ℚ → List ℚ → ℚ
  | _, [] => 0
  | spent, amount :: rest => stray spent amount + strayed (countSpent spent amount) rest

/-- The transaction moves no more than what the check lets pass. -/
def TxDict.Dust (tx : TxDict) : Prop :=
  0 ≤ tx.value.toRat ∧ 0 ≤ tx.fee ∧ tx.value.toRat + tx.fee ≤ poolTolerance

/-- The counters say what the chain says, within the tolerance: each pool's counter is what left it, the staking pool
has spent no more than was released, and from a pool that no vote has unlocked nothing has left. -/
structure PoolsAccounted (t : Tables) : Prop where
  spent : ∀ {a info}, t.lockedPools.get? a = some info → |info.spent - t.outgoing a| ≤ poolTolerance
  staking : ∀ {a info}, t.lockedPools.get? a = some info → info.id = .staking → info.spent ≤ info.released + poolTolerance
  locked : ∀ {a info}, t.lockedPools.get? a = some info → info.id = .ecosystem ∨ info.id = .treasury →
    info.daoUnlocked = false → ∀ {h d}, t.getBlock h = some d → ∀ tx ∈ d.transactions, tx.fromAddr = a → tx.Dust

structure Pooled (t : Tables) : Prop extends PoolsAccounted t where
  total : ∀ {a info}, t.lockedPools.get? a = some info → 0 ≤ info.total
  released : ∀ {a info}, t.lockedPools.get? a = some info → info.released ≤ info.total

/-- What an epoch and a vote may change of a pool. -/
structure PoolInfo.Grows (info info' : PoolInfo) : Prop where
  id : info'.id = info.id
  spent : info'.spent = info.spent
  total : info'.total = info.total
  released : info.released ≤ info'.released
  bounded : info'.released ≤ info.total
  unlocked : info.daoUnlocked = true → info'.daoUnlocked = true

theorem Pooled.grows {t u : Tables} (h : Pooled t) (hb : u.blocks = t.blocks)
    (hp : ∀ a info', u.lockedPools.get? a = some info' → ∃ info, t.lockedPools.get? a = some info ∧ info.Grows info') :
    Pooled u := by
  have hout : ∀ a, u.outgoing a = t.outgoing a := fun a => by
    unfold Tables.outgoing
    rw [hb]
  refine ⟨⟨fun hi => ?_, fun hi hid => ?_, fun hi hid hu k d hd => ?_⟩, fun hi => ?_, fun hi => ?_⟩
  · obtain ⟨info, hinfo, hg⟩ := hp _ _ hi
    rw [hout, hg.spent]
    exact h.spent hinfo
  · obtain ⟨info, hinfo, hg⟩ := hp _ _ hi
    have := h.staking hinfo (hg.id ▸ hid)
    rw [hg.spent]
    linarith [hg.released]
  · obtain ⟨info, hinfo, hg⟩ := hp _ _ hi
    rw [getBlock_congr hb] at hd
    refine h.locked hinfo (hg.id ▸ hid) ?_ hd
    by_contra hunlocked
    have := hg.unlocked (Bool.eq_true_of_not_eq_false hunlocked)
    rw [hu] at this
    cases this
  · obtain ⟨info, hinfo, hg⟩ := hp _ _ hi
    rw [hg.total]
    exact h.total hinfo
  · obtain ⟨info, hinfo, hg⟩ := hp _ _ hi
    rw [hg.total]
    exact hg.bounded

theorem Pooled.congr {t u : Tables} (h : Pooled t) (hp : u.poolLocks = t.poolLocks) (hb : u.blocks = t.blocks) : Pooled u := by
  refine h.grows hb fun a info hi => ⟨info, ?_, ⟨rfl, rfl, rfl, le_rfl, ?_, id⟩⟩
  · unfold Tables.lockedPools at hi ⊢
    rwa [← hp]
  · unfold Tables.lockedPools at hi
    rw [hp] at hi
    exact h.released hi

theorem lockedPools_eq (t : Tables) : t.lockedPools = t.poolState.pools := by
  unfold Tables.lockedPools Tables.poolState
  cases t.poolLocks <;> rfl

theorem Pooled.replaced {t : Tables} (h : Pooled t) {s : PoolLocksState} {a : String} {info info' : PoolInfo}
    (hs : s.pools = t.poolState.pools.set a info') (hinfo : t.lockedPools.get? a = some info) (hg : info.Grows info') :
    Pooled (t.setPoolLocks s) := by
  refine h.grows rfl fun b info₁ hb => ?_
  have hget : s.pools.get? b = some info₁ := hb
  rw [hs, Dict.get?_set] at hget
  by_cases hba : b = a
  · rw [if_pos hba] at hget
    cases hget
    exact ⟨info, hba ▸ hinfo, hg⟩
  · rw [if_neg hba, ← lockedPools_eq] at hget
    exact ⟨info₁, hget, ⟨rfl, rfl, rfl, le_rfl, h.released hget, id⟩⟩

theorem Pooled.kept {t : Tables} (h : Pooled t) {s : PoolLocksState} (hs : s.pools = t.poolState.pools) :
    Pooled (t.setPoolLocks s) := by
  refine h.grows rfl fun a info hi => ?_
  have hget : s.pools.get? a = some info := hi
  rw [hs, ← lockedPools_eq] at hget
  exact ⟨info, hget, ⟨rfl, rfl, rfl, le_rfl, h.released hget, id⟩⟩

theorem Pooled.epoch {t : Tables} (h : Pooled t) {epoch : Int} {r : EpochRelease} {s : PoolLocksState}
    (he : t.poolState.onEpochBoundary epoch = some (r, s)) : Pooled (t.setPoolLocks s) := by
  unfold PoolLocksState.onEpochBoundary at he
  by_cases hlate : epoch ≤ t.poolState.lastEpoch
  · rw [if_pos hlate] at he
    cases he
  rw [if_neg hlate] at he
  cases hi : t.poolState.pools.get? stakingAddress with
  | none =>
    rw [hi] at he
    cases he
    exact h.kept rfl
  | some info =>
    rw [hi] at he
    dsimp only at he
    by_cases hmore : t.poolState.stakingEpochsReleased < stakingReleaseEpochs
    · rw [if_pos hmore] at he
      cases he
      have hinfo : t.lockedPools.get? stakingAddress = some info := by rw [lockedPools_eq, hi]
      have hstep : 0 ≤ info.total / (stakingReleaseEpochs : ℚ) := div_nonneg (h.total hinfo) (by decide)
      refine h.replaced rfl hinfo ⟨rfl, rfl, rfl, ?_, min_le_left _ _, id⟩
      exact le_min (h.released hinfo) (by linarith)
    · rw [if_neg hmore] at he
      cases he
      exact h.kept rfl

theorem Pooled.vote {t : Tables} (h : Pooled t) {host : Host} {poolId voter : String} {registry : Option (List String)}
    {count : VoteCount} {s : PoolLocksState} (hv : t.poolState.daoVote host poolId voter registry = .ok (count, s)) :
    Pooled (t.setPoolLocks s) := by
  unfold PoolLocksState.daoVote at hv
  by_cases hid : poolId ≠ "ecosystem" ∧ poolId ≠ "treasury"
  · rw [if_pos hid] at hv
    cases hv
  rw [if_neg hid] at hv
  cases hvoter : PoolLocksState.voterIn host registry voter with
  | none =>
    rw [hvoter] at hv
    cases hv
  | some voter =>
    rw [hvoter] at hv
    dsimp only at hv
    split at hv
    · cases hv
    · rename_i a info hfound
      obtain ⟨e, -, hmap⟩ := Option.bind_eq_some_iff.mp hfound
      obtain ⟨info₁, hget, heq⟩ := Option.map_eq_some_iff.mp hmap
      obtain ⟨rfl, rfl⟩ := Prod.mk.inj heq
      cases hv
      have hinfo : t.lockedPools.get? e.1 = some info₁ := by rw [lockedPools_eq, hget]
      have hbound := h.released hinfo
      refine h.replaced rfl hinfo ?_
      split
      · exact ⟨rfl, rfl, rfl, le_rfl, hbound, fun _ => rfl⟩
      · exact ⟨rfl, rfl, rfl, le_rfl, hbound, id⟩

/-! ## Transactions -/

namespace Blockchain

variable {c : Blockchain} {now height : Int} {proposer : String} {tx tx' : Transaction} {db db' : Db}

def amountsOf (txs : List Transaction) (a : String) : List ℚ :=
  (txs.filter fun tx => tx.fromAddr = a).map fun tx => tx.value.toRat + tx.fee

theorem lockedPools_recordPool (hc : c.poolLocks = true) (from_ a : String) (amount : ℚ) (db : Db) :
    (c.recordPool from_ amount db).live.lockedPools.get? a = (db.live.lockedPools.get? a).map fun info =>
      if a = from_ then { info with spent := countSpent info.spent amount } else info := by
  unfold recordPool poolSpending
  rw [if_pos hc]
  unfold Tables.lockedPools
  cases hs : db.live.poolLocks with
  | none =>
    simp only [Option.bind_none, hs]
    rfl
  | some s =>
    simp only [Option.bind_some, Option.map_some, Option.getD_some]
    cases hi : s.pools.get? from_ with
    | none =>
      simp only [Option.map_none, hs, Option.map_some, Option.getD_some]
      by_cases ha : a = from_
      · rw [ha, hi]
        rfl
      · simp only [if_neg ha, Option.map_id']
    | some info =>
      simp only [Option.map_some]
      show (s.pools.set from_ { info with spent := countSpent info.spent amount }).get? a = _
      rw [Dict.get?_set]
      by_cases ha : a = from_
      · simp only [ha, hi, Option.map_some, if_true]
      · simp only [if_neg ha, Option.map_id']

theorem poolLocks_runContract (kind : Kind) : Keeps (untouched Tables.poolLocks) (c.runContract now kind tx height) :=
  keeps_runContract (fun _ => keeps_callContract (accountFree_poolLocks.evmFrame _) _ _ _ _ _)
    (fun _ _ => keeps_deployContract (accountFree_poolLocks.evmFrame _) _ _ _ _ _) kind height

theorem poolLocks_contractTables (ch : Charge) (t : Tables) :
    (c.contractTables tx proposer ch t).poolLocks = t.poolLocks := by
  unfold contractTables settleTables
  split
  · rfl
  · rfl

theorem TxStep.spent (hc : c.poolLocks = true) (h : TxStep c now height proposer tx db tx' db') (a : String) :
    db'.live.lockedPools.get? a = (db.live.lockedPools.get? a).map fun info =>
      if a = tx'.fromAddr then { info with spent := countSpent info.spent (tx'.value.toRat + tx'.fee) } else info := by
  cases h with
  | transfer checks kind =>
    rw [lockedPools_recordPool hc]
    have hsame : (db.exec (c.transferTables tx (c.feeRecipient proposer))).live.lockedPools = db.live.lockedPools := by
      unfold Tables.lockedPools
      rw [Store.live_exec, poolLocks_transferTables]
    rw [hsame]
    rfl
  | @contract res db₁ checks kind run success funds =>
    rw [lockedPools_recordPool hc]
    have hrun : db₁.live.poolLocks = db.live.poolLocks := (keeps_apply (poolLocks_runContract _) run).1
    have hsame : (db₁.exec (c.contractTables tx (c.feeRecipient proposer) (c.contractCharge tx res.gasUsed))).live.lockedPools =
        db.live.lockedPools := by
      unfold Tables.lockedPools
      rw [Store.live_exec, poolLocks_contractTables, hrun]
    rw [hsame, add_comm (c.contractCharge tx res.gasUsed).fee]
    rfl

/-- A pool's transaction that keeps the counters honest: nothing in it is negative, its contract uses no
more gas than was checked, and the staking pool sends no dust while it is over what was released and is not
lifted over the tolerance by a rounding. -/
structure PoolTx (c : Blockchain) (now height : Int) (db : Db) (tx : Transaction) (info : PoolInfo) : Prop where
  value : 0 ≤ tx.value.toRat
  fee : 0 ≤ c.gasFee tx.gas
  charged : c.kindOf db.live tx ≠ .transfer → ∀ res db₁,
    c.runContract now (c.kindOf db.live tx) tx height db = (.ok res, db₁) → c.gasFee res.gasUsed ≤ c.gasFee tx.gas
  dust : info.id = .staking → info.spent ≤ info.released ∨ tx.value.toRat + c.gasFee tx.gas ≤ 0 ∨
    poolTolerance < tx.value.toRat + c.gasFee tx.gas
  rounded : info.id = .staking → 0 < stray info.spent (tx.value.toRat + c.gasFee tx.gas) →
    countSpent info.spent (tx.value.toRat + c.gasFee tx.gas) ≤ info.released + poolTolerance

def FairSpending (c : Blockchain) (now height : Int) (db : Db) (tx : Transaction) : Prop :=
  ∀ info, db.live.lockedPools.get? tx.fromAddr = some info → c.PoolTx now height db tx info

theorem TxStep.sender (h : TxStep c now height proposer tx db tx' db') : tx'.fromAddr = tx.fromAddr := by
  rw [h.kept]

theorem outgoingRefusal_none {t : Tables} {a : String} {amount balance : ℚ} {info : PoolInfo}
    (hinfo : t.lockedPools.get? a = some info) (h : outgoingRefusal t a amount balance = none) :
    amount ≤ info.spendable balance + poolTolerance := by
  unfold outgoingRefusal at h
  rw [hinfo] at h
  by_contra hover
  have hexceeds : info.spendable balance + 1 / 1000000000 < amount := not_le.mp hover
  simp only [if_pos hexceeds] at h
  split at h
  · cases h
  · split at h
    · cases h
    · cases h

variable {b b' : Block} {preserve : Bool} {n n' : Node}

/-- The roundings that a block adds to those of the counters before it stay within the tolerance. -/
def SteadyCounters (t : Tables) (txs : List Transaction) : Prop :=
  ∀ {a info}, t.lockedPools.get? a = some info →
    |(info.spent - t.outgoing a) + strayed info.spent (amountsOf txs a)| ≤ poolTolerance

def NoSpending (c : Blockchain) (now height : Int) (proposer : String) : List Transaction → Db → Prop
  | [], _ => True
  | tx :: rest, db => ∀ tx' db', c.applyTransaction now tx height proposer db = (.ok tx', db') →
      c.NoPool db.live tx ∧ NoSpending c now height proposer rest db'

def Untouched (t : Tables) : Prop :=
  ∀ h d, t.getBlock h = some d → ∀ tx ∈ d.transactions, t.lockedPools.get? tx.fromAddr = none

def Idle (locks : Option PoolLocksState) (t : Tables) : Prop := t.poolLocks = locks ∧ Untouched t

theorem Idle.congr {locks : Option PoolLocksState} {t u : Tables} (h : Idle locks t) (hlocks : u.poolLocks = t.poolLocks)
    (hblocks : ∀ k d, u.getBlock k = some d → t.getBlock k = some d) : Idle locks u := by
  refine ⟨hlocks.trans h.1, fun k d hd tx htx => ?_⟩
  unfold Tables.lockedPools
  rw [hlocks]
  exact h.2 k d (hblocks k d hd) tx htx

end Blockchain

/-! ## Runs -/

inductive PoolCall where
  | addBlock (now : Int) (b : Block) (preserve : Bool)
  | reorgToAncestor (now floor height : Int)
  | onEpochBoundary (epoch : Int)
  | daoVote (poolId voter : String) (registry : Option (List String))

namespace PoolCall

def run (c : Blockchain) : PoolCall → Node → Node
  | .addBlock now b preserve, n => (c.addBlock now b preserve n).2
  | .reorgToAncestor now floor height, n => (onDb (c.reorgToAncestor now floor height) n).2
  | .onEpochBoundary epoch, n => (onDb (AbsoluteChain.onEpochBoundary epoch) n).2
  | .daoVote poolId voter registry, n => (onDb (AbsoluteChain.daoVote c.host poolId voter registry) n).2

/-- An accepted block is stored under a new hash, what it takes from a pool is fair and the counters stay steady; a
block that is rejected while it is executed has taken nothing from a pool; and when a reorganisation replays the
chain, nothing on it has. -/
def Honest (c : Blockchain) : PoolCall → Node → Prop
  | .addBlock now b preserve, n =>
    (∀ b' n', c.addBlock now b preserve n = (.ok b', n') → Blockchain.Fresh n b'.hash ∧
      c.Along now b.height b.miner (c.FairSpending now b.height) b.transactions n.db.opened ∧
      Blockchain.SteadyCounters n.db.live b'.transactions) ∧
    ∀ f n', c.addBlock now b preserve n = (.error f, n') → c.admitBlock n b = .ok () →
      c.NoSpending now b.height b.miner b.transactions n.db.opened
  | .reorgToAncestor _ floor height, n => ¬ Blockchain.ReorgRefused floor height n.db → height ≤ n.db.live.getChainTip →
    Blockchain.Untouched n.db.live
  | _, _ => True

structure Inv (n : Node) : Prop where
  closed : n.db.pending = none
  pooled : Pooled n.db.live

variable {c : Blockchain}

end PoolCall

end AbsoluteChain
