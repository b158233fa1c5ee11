import AbsoluteChain.Doubles
import AbsoluteChain.NativeRoot
import AbsoluteChain.Proposers
import AbsoluteChain.Runs

/-!
# Transfers between shards

`ShardingManager` of `dynamic_sharding.py`: transactions whose two addresses belong to
different shards are recorded under a hash of their content, queued, and later moved on the
balances of the chain.
-/

namespace AbsoluteChain.Sharding

open Python JsonText Runs

inductive Amount where
  | int (n : Int)
  | float (d : Double)
  | other

inductive CrossStatus where
  | pending
  | confirmed
  | failed
  deriving DecidableEq

structure CrossShardTransaction where
  txId : String
  fromShard : Nat
  toShard : Nat
  fromAddr : String
  toAddr : String
  amount : Amount
  status : CrossStatus

structure ShardingManager where
  numShards : Nat
  shards : Dict Nat (List Row)
  crossShardTxs : Dict String CrossShardTransaction
  pendingCrossTxs : List String
  db : Option Tables

namespace Amount

def floatLimit : Int := 2 ^ 1024 - 2 ^ 970

def toFloat : Amount → Option Double
  | int n => if n < floatLimit then some (.finite (Binary64.round n)) else none
  | float d => some d
  | other => none

def notPositive : Amount → Option Bool
  | int n => some (n ≤ 0)
  | float (.finite q) => some (q ≤ 0)
  | float (.infinite negative) => some negative
  | float .nan => some false
  | other => none

/-- The amount that `add_transaction` records; `none` is the `ValueError` of `int(value, 16)`. -/
def read : Option (Json Double) → Option Amount
  | some (.str s) => (parseHexInt s.toList).map int
  | some (.int n) => some (int n)
  | some (.bool b) => some (int (if b then 1 else 0))
  | some (.float d) => some (float d)
  | some _ => some other
  | none => some (int 0)

end Amount

def covers (balance : ℚ) : Double → Bool
  | .finite q => q ≤ balance
  | .infinite negative => negative
  | .nan => false

def address (tx : Row) (key : String) : Option String :=
  match tx.get? key with
  | none => some ""
  | some (.str s) => some s
  | some _ => none

namespace ShardingManager

def start (numShards : Nat) (db : Option Tables) : ShardingManager :=
  { numShards := numShards, shards := (List.range numShards).map fun i => (i, []), crossShardTxs := [],
    pendingCrossTxs := [], db := db }

def getShardForAddress (m : ShardingManager) (address : String) : Nat := hexNat (hashData address) % m.numShards

/-- `hashlib.sha256(json.dumps(tx, sort_keys=True).encode()).hexdigest()[:16]`. -/
def txIdOf (host : Host) (tx : Row) : String :=
  String.ofList ((hashData (dumps (spaced escapeAscii (Double.text host.floatRepr)) (.obj tx))).toList.take 16)

/-- The shard and the id, or `none` where the call raises; so does every remainder by zero shards. -/
def addTransaction (host : Host) (tx : Row) (m : ShardingManager) : Option (Nat × Option String) × ShardingManager :=
  match address tx "from", address tx "to", m.numShards with
  | some fromAddr, some toAddr, _ + 1 =>
    let fromShard := m.getShardForAddress fromAddr
    let toShard := m.getShardForAddress toAddr
    if fromShard = toShard then
      (some (fromShard, none),
        { m with shards := m.shards.set fromShard ((m.shards.get? fromShard).getD [] ++ [tx]) })
    else
      match Amount.read (tx.get? "value") with
      | none => (none, m)
      | some amount =>
        let txId := txIdOf host tx
        let crossTx : CrossShardTransaction :=
          { txId := txId, fromShard := fromShard, toShard := toShard, fromAddr := fromAddr, toAddr := toAddr,
            amount := amount, status := .pending }
        (some (fromShard, some txId),
          { m with crossShardTxs := m.crossShardTxs.set txId crossTx, pendingCrossTxs := m.pendingCrossTxs ++ [txId] })
  | _, _, _ => (none, m)

def validateCrossShardTx (m : ShardingManager) (tx : CrossShardTransaction) : Option Bool :=
  match tx.amount.notPositive with
  | none => none
  | some true => some false
  | some false =>
    if tx.fromAddr = "" ∨ tx.toAddr = "" then some false
    else
      match m.db with
      | none => some false
      | some db => tx.amount.toFloat.map fun amount => covers (db.getBalance tx.fromAddr) amount

def processOne (txId : String) (m : ShardingManager) : Option ShardingManager :=
  match m.crossShardTxs.get? txId with
  | none => none
  | some tx =>
    match m.validateCrossShardTx tx, tx.amount.toFloat with
    | some true, some (.finite amount) =>
      some { m with
        db := m.db.map fun db =>
          (db.applyRealDelta Binary64.round tx.fromAddr (-amount)).applyRealDelta Binary64.round tx.toAddr amount
        crossShardTxs := m.crossShardTxs.set txId { tx with status := .confirmed }
        pendingCrossTxs := m.pendingCrossTxs.erase txId }
    | some false, _ =>
      some { m with
        crossShardTxs := m.crossShardTxs.set txId { tx with status := .failed }
        pendingCrossTxs := m.pendingCrossTxs.erase txId }
    | _, _ => none

def moves (txId : String) (m : ShardingManager) : Bool :=
  ((m.crossShardTxs.get? txId).bind m.validateCrossShardTx).getD false

end ShardingManager

/-- The loop on its way: `moved` lists the ids whose amounts have been moved so far. -/
structure Pass where
  manager : ShardingManager
  moved : List String
  raised : Bool

/-- An exception leaves the loop. -/
def visit (txId : String) (s : Pass) : Pass :=
  if s.raised then s
  else
    match s.manager.processOne txId with
    | none => { s with raised := true }
    | some m => { manager := m, moved := if s.manager.moves txId then s.moved ++ [txId] else s.moved, raised := false }

def processCrossShardTransactions (m : ShardingManager) (moved : List String) : Pass :=
  run visit m.pendingCrossTxs { manager := m, moved := moved, raised := false }

/-! ## Runs -/

inductive Call where
  | addTransaction (tx : Row)
  | processCrossShardTransactions

/-- The manager, the ids whose amounts were moved so far, and whether a call of
`process_cross_shard_transactions` has raised or left an id in the queue. -/
structure Session where
  manager : ShardingManager
  moved : List String
  stuck : Bool

def step (host : Host) : Call → Session → Session
  | .addTransaction tx, s => { s with manager := (s.manager.addTransaction host tx).2 }
  | .processCrossShardTransactions, s =>
    let after := processCrossShardTransactions s.manager s.moved
    { manager := after.manager, moved := after.moved,
      stuck := s.stuck || after.raised || !after.manager.pendingCrossTxs.isEmpty }

def Session.start (numShards : Nat) (db : Option Tables) : Session :=
  { manager := .start numShards db, moved := [], stuck := false }

/-- The sum of all balances. -/
def ShardingManager.supply (m : ShardingManager) : ℚ := (m.db.map Tables.getTotalSupply).getD 0

/-- No amount was moved twice, no call got stuck, and the sum of balances is `total`. -/
structure MovedOnce (total : ℚ) (s : Session) : Prop where
  once : s.moved.Nodup
  unstuck : s.stuck = false
  supply : s.manager.supply = total

/-! ## What a call can do -/

namespace ShardingManager

structure Recorded (m : ShardingManager) : Prop where
  known : ∀ txId ∈ m.pendingCrossTxs, ∃ tx, m.crossShardTxs.get? txId = some tx
  apart : ∀ txId tx, m.crossShardTxs.get? txId = some tx → tx.fromAddr ≠ tx.toAddr

theorem addTransaction_cases (host : Host) (tx : Row) (m : ShardingManager) :
    (∃ shards, (m.addTransaction host tx).2 = { m with shards := shards }) ∨
      ∃ txId crossTx, crossTx.fromAddr ≠ crossTx.toAddr ∧ (m.addTransaction host tx).2 =
        { m with crossShardTxs := m.crossShardTxs.set txId crossTx, pendingCrossTxs := m.pendingCrossTxs ++ [txId] } := by
  unfold addTransaction
  split
  · rename_i fromAddr toAddr k _ _ _
    dsimp only
    split
    · exact .inl ⟨_, rfl⟩
    · rename_i hshard
      split
      · exact .inl ⟨m.shards, rfl⟩
      · refine .inr ⟨_, _, ?_, rfl⟩
        intro haddr
        exact hshard (congrArg m.getShardForAddress haddr)
  · exact .inl ⟨m.shards, rfl⟩

theorem Recorded.addTransaction {m : ShardingManager} (h : m.Recorded) (host : Host) (tx : Row) :
    (m.addTransaction host tx).2.Recorded := by
  rcases addTransaction_cases host tx m with hshards | hcross
  · obtain ⟨shards, hm⟩ := hshards
    rw [hm]
    exact ⟨h.known, h.apart⟩
  · obtain ⟨txId, crossTx, hapart, hm⟩ := hcross
    rw [hm]
    constructor
    · intro i hi
      rw [Dict.get?_set]
      by_cases hid : i = txId
      · exact ⟨crossTx, by rw [if_pos hid]⟩
      · rw [if_neg hid]
        rcases List.mem_append.mp hi with hi | hi
        · exact h.known i hi
        · exact absurd (List.mem_singleton.mp hi) hid
    · intro i tx' hi
      rw [Dict.get?_set] at hi
      by_cases hid : i = txId
      · rw [if_pos hid] at hi
        exact Option.some.inj hi ▸ hapart
      · rw [if_neg hid] at hi
        exact h.apart i tx' hi

theorem supply_addTransaction (host : Host) (tx : Row) (m : ShardingManager) :
    (m.addTransaction host tx).2.supply = m.supply := by
  rcases addTransaction_cases host tx m with hshards | hcross
  · obtain ⟨shards, hm⟩ := hshards
    rw [hm]
    rfl
  · obtain ⟨txId, crossTx, _, hm⟩ := hcross
    rw [hm]
    rfl

theorem validate_true {m : ShardingManager} {tx : CrossShardTransaction} (h : m.validateCrossShardTx tx = some true) :
    ∃ db amount, m.db = some db ∧ tx.amount.toFloat = some (.finite amount) ∧ amount ≤ db.getBalance tx.fromAddr := by
  unfold validateCrossShardTx at h
  cases hpos : tx.amount.notPositive with
  | none => simp [hpos] at h
  | some notPositive =>
    cases notPositive with
    | true => simp [hpos] at h
    | false =>
      simp only [hpos] at h
      split at h
      · cases h
      · cases hdb : m.db with
        | none => simp [hdb] at h
        | some db =>
          simp only [hdb] at h
          obtain ⟨d, hfloat, hcovers⟩ := Option.map_eq_some_iff.mp h
          cases d with
          | finite q => exact ⟨db, q, rfl, hfloat, by simpa [covers] using hcovers⟩
          | nan => cases hcovers
          | infinite negative =>
            -- minus infinity is covered by every balance, but it is not positive
            have hneg : negative = true := hcovers
            subst hneg
            cases hamount : tx.amount with
            | int n =>
              rw [hamount, Amount.toFloat] at hfloat
              split at hfloat <;> simp at hfloat
            | float d =>
              rw [hamount, Amount.toFloat] at hfloat
              rw [hamount, Option.some.inj hfloat, Amount.notPositive] at hpos
              cases hpos
            | other => rw [hamount] at hfloat; cases hfloat

/-- A pass either records a failure or moves the amount of the record. -/
theorem processOne_cases {txId : String} {m m' : ShardingManager} (h : m.processOne txId = some m') :
    ∃ tx status, m.crossShardTxs.get? txId = some tx ∧
      m'.crossShardTxs = m.crossShardTxs.set txId { tx with status := status } ∧
      m'.pendingCrossTxs = m.pendingCrossTxs.erase txId ∧
      ((m.validateCrossShardTx tx = some false ∧ m'.db = m.db) ∨
        ∃ db amount, m.validateCrossShardTx tx = some true ∧ m.db = some db ∧ tx.amount.toFloat = some (.finite amount) ∧
          amount ≤ db.getBalance tx.fromAddr ∧
          m'.db = some
            ((db.applyRealDelta Binary64.round tx.fromAddr (-amount)).applyRealDelta Binary64.round tx.toAddr amount)) := by
  unfold processOne at h
  cases hget : m.crossShardTxs.get? txId with
  | none => simp [hget] at h
  | some tx =>
    simp only [hget] at h
    split at h
    · rename_i amount hvalid hfloat
      obtain ⟨db, q, hdb, hq, hle⟩ := validate_true hvalid
      obtain rfl : amount = q := by simpa using hfloat.symm.trans hq
      obtain rfl := Option.some.inj h
      exact ⟨tx, .confirmed, rfl, rfl, rfl, .inr ⟨db, amount, hvalid, hdb, hq, hle, by simp [hdb]⟩⟩
    · rename_i hvalid
      obtain rfl := Option.some.inj h
      exact ⟨tx, .failed, rfl, rfl, rfl, .inl ⟨hvalid, rfl⟩⟩
    · cases h

/-- A pass over a known id raises exactly where the check of its record does. -/
theorem processOne_none {txId : String} {m : ShardingManager} {tx : CrossShardTransaction}
    (hget : m.crossShardTxs.get? txId = some tx) : m.processOne txId = none ↔ m.validateCrossShardTx tx = none := by
  unfold processOne
  simp only [hget]
  cases hvalid : m.validateCrossShardTx tx with
  | none => simp
  | some valid =>
    cases valid with
    | false => simp
    | true =>
      obtain ⟨_, amount, _, hamount, _⟩ := validate_true hvalid
      simp [hamount]

theorem Recorded.processOne {m m' : ShardingManager} (h : m.Recorded) {txId : String} (hm : m.processOne txId = some m') :
    m'.Recorded := by
  obtain ⟨tx, status, hget, htxs, hpending, _⟩ := processOne_cases hm
  constructor
  · intro i hi
    rw [htxs, Dict.get?_set]
    by_cases hid : i = txId
    · exact ⟨_, if_pos hid⟩
    · rw [if_neg hid]
      rw [hpending] at hi
      exact h.known i (List.mem_of_mem_erase hi)
  · intro i tx' hi
    rw [htxs, Dict.get?_set] at hi
    by_cases hid : i = txId
    · rw [if_pos hid] at hi
      rw [← Option.some.inj hi]
      exact h.apart txId tx hget
    · rw [if_neg hid] at hi
      exact h.apart i tx' hi

/-- What a pass adds to the sum of balances: the two rows of the amount it moves are rounded, and kept from
debt, each on its own. -/
def strayed (txId : String) (m : ShardingManager) : ℚ :=
  match m.crossShardTxs.get? txId, m.db with
  | some tx, some db =>
    match m.validateCrossShardTx tx, tx.amount.toFloat with
    | some true, some (.finite amount) =>
      db.gained Binary64.round tx.fromAddr (-amount) + db.gained Binary64.round tx.toAddr amount
    | _, _ => 0
  | _, _ => 0

theorem supply_processOne {m m' : ShardingManager} (h : m.Recorded) {txId : String} (hm : m.processOne txId = some m') :
    m'.supply = m.supply + m.strayed txId := by
  obtain ⟨tx, status, hget, _, _, hcase⟩ := processOne_cases hm
  rcases hcase with hfailed | hmoved
  · obtain ⟨hvalid, hdb⟩ := hfailed
    have hnone : m.strayed txId = 0 := by
      unfold strayed
      cases hdb' : m.db with
      | none => simp [hget]
      | some db => simp [hget, hvalid]
    rw [hnone, add_zero, supply, supply, hdb]
  · obtain ⟨db, amount, hvalid, hdb, hamount, _, hdb'⟩ := hmoved
    have hto : (db.applyRealDelta Binary64.round tx.fromAddr (-amount)).gained Binary64.round tx.toAddr amount =
        db.gained Binary64.round tx.toAddr amount :=
      Tables.gained_congr (Tables.get_applyRealDelta (h.apart txId tx hget).symm _ _) amount
    have hstrayed : m.strayed txId =
        db.gained Binary64.round tx.fromAddr (-amount) + db.gained Binary64.round tx.toAddr amount := by
      unfold strayed
      simp only [hget, hdb, hvalid, hamount]
    simp only [supply, hdb, hdb', hstrayed, Option.map_some, Option.getD_some, Tables.supply_applyRealDelta, hto]
    ring

end ShardingManager

/-! ## What a pass of the loop keeps -/

/-- A pass over an id that is sound: the amount is a number that compares with the balance and fits a
float, and the record is not one the sender's balance covers once more after it has been moved. -/
structure Sound (txId : String) (s : Pass) : Prop where
  comparable : ∀ tx, s.manager.crossShardTxs.get? txId = some tx → s.manager.validateCrossShardTx tx ≠ none
  fresh : s.manager.moves txId = true → txId ∉ s.moved

/-- What the passes of a loop add to the sum of balances. -/
def strayed : List String → Pass → ℚ
  | [], _ => 0
  | txId :: l, s => s.manager.strayed txId + strayed l (visit txId s)

theorem run_raised (l : List String) {s : Pass} (h : s.raised = true) : run visit l s = s := by
  induction l with
  | nil => rfl
  | cons txId l ih =>
    have hvisit : visit txId s = s := by
      unfold visit
      rw [if_pos h]
    change run visit l (visit txId s) = s
    rw [hvisit, ih]

/-- The loop only adds to the ids it has moved. -/
theorem moved_visit (txId : String) (s : Pass) : ∃ l, (visit txId s).moved = s.moved ++ l := by
  unfold visit
  split
  · exact ⟨[], (List.append_nil _).symm⟩
  · split
    · exact ⟨[], (List.append_nil _).symm⟩
    · split
      · exact ⟨[txId], rfl⟩
      · exact ⟨[], (List.append_nil _).symm⟩

theorem moved_run (l : List String) (s : Pass) : ∃ k, (run visit l s).moved = s.moved ++ k := by
  induction l generalizing s with
  | nil => exact ⟨[], (List.append_nil _).symm⟩
  | cons txId l ih =>
    obtain ⟨k, hk⟩ := moved_visit txId s
    obtain ⟨k', hk'⟩ := ih (visit txId s)
    refine ⟨k ++ k', ?_⟩
    change (run visit l (visit txId s)).moved = _
    rw [hk', hk, List.append_assoc]

theorem recorded_visit {txId : String} {s : Pass} (h : s.manager.Recorded) : (visit txId s).manager.Recorded := by
  unfold visit
  split
  · exact h
  · split
    · exact h
    · rename_i hm
      exact h.processOne hm

theorem supply_visit {txId : String} {s : Pass} (h : s.manager.Recorded) (hraised : (visit txId s).raised = false) :
    s.raised = false ∧ (visit txId s).manager.supply = s.manager.supply + s.manager.strayed txId := by
  unfold visit at hraised ⊢
  split
  · rename_i hs
    rw [if_pos hs, hs] at hraised
    cases hraised
  · rename_i hs
    rw [if_neg hs] at hraised
    refine ⟨by simpa using hs, ?_⟩
    cases hm : s.manager.processOne txId with
    | none =>
      rw [hm] at hraised
      cases hraised
    | some m => exact ShardingManager.supply_processOne h hm

theorem raised_first {txId : String} {l : List String} {s : Pass} (h : (run visit l (visit txId s)).raised = false) :
    (visit txId s).raised = false := by
  by_contra hr
  have hr' : (visit txId s).raised = true := by simpa using hr
  rw [run_raised l hr'] at h
  exact hr h

theorem supply_run (l : List String) {s : Pass} (h : s.manager.Recorded) (hraised : (run visit l s).raised = false) :
    (run visit l s).manager.supply = s.manager.supply + strayed l s := by
  induction l generalizing s with
  | nil => exact (add_zero _).symm
  | cons txId l ih =>
    have hfirst := (supply_visit h (raised_first hraised)).2
    change (run visit l (visit txId s)).manager.supply = _
    rw [ih (recorded_visit h) hraised, hfirst, strayed, add_assoc]

/-- What a call of `process_cross_shard_transactions` is to leave behind, from `supply` on. -/
def Settled (supply : ℚ) (s : Pass) : Prop := s.raised = false ∧ s.moved.Nodup ∧ s.manager.supply = supply

theorem visit_iff {txId : String} {s : Pass} (hraised : s.raised = false)
    (hknown : ∃ tx, s.manager.crossShardTxs.get? txId = some tx) :
    (visit txId s).raised = false ∧ (visit txId s).moved.Nodup ↔ s.moved.Nodup ∧ Sound txId s := by
  obtain ⟨tx, hget⟩ := hknown
  have hcomparable : (∀ tx, s.manager.crossShardTxs.get? txId = some tx → s.manager.validateCrossShardTx tx ≠ none) ↔
      s.manager.processOne txId ≠ none := by
    rw [ne_eq, ShardingManager.processOne_none hget]
    constructor
    · exact fun h => h tx hget
    · intro h tx' hget'
      rw [hget] at hget'
      exact Option.some.inj hget' ▸ h
  unfold visit
  rw [if_neg (by simp [hraised])]
  cases hm : s.manager.processOne txId with
  | none =>
    constructor
    · intro h
      cases h.1
    · intro h
      exact absurd hm (hcomparable.mp h.2.comparable)
  | some m =>
    have hmoved : (if s.manager.moves txId then s.moved ++ [txId] else s.moved).Nodup ↔
        s.moved.Nodup ∧ (s.manager.moves txId = true → txId ∉ s.moved) := by
      by_cases hmoves : s.manager.moves txId = true
      · simp [hmoves, List.nodup_append]
        intro _
        constructor
        · exact fun h hmem => h txId hmem rfl
        · intro h i hi heq
          exact h (heq ▸ hi)
      · simp [hmoves]
    simp only [true_and, hmoved]
    constructor
    · intro h
      exact ⟨h.1, hcomparable.mpr (by simp [hm]), h.2⟩
    · intro h
      exact ⟨h.1, h.2.fresh⟩

theorem pending_visit {txId : String} {s : Pass} (h : (visit txId s).raised = false) (hraised : s.raised = false) :
    (visit txId s).manager.pendingCrossTxs = s.manager.pendingCrossTxs.erase txId := by
  unfold visit at h ⊢
  rw [if_neg (by simp [hraised])] at h ⊢
  cases hm : s.manager.processOne txId with
  | none => simp [hm] at h
  | some m =>
    obtain ⟨_, _, _, _, hpending, _⟩ := ShardingManager.processOne_cases hm
    exact hpending

theorem nodup_first {txId : String} {l : List String} {s : Pass} (h : (run visit l (visit txId s)).moved.Nodup) :
    (visit txId s).moved.Nodup := by
  obtain ⟨k, hk⟩ := moved_run l (visit txId s)
  rw [hk] at h
  exact (List.nodup_append.mp h).1

theorem run_visit_iff {l : List String} : ∀ {s : Pass}, s.manager.Recorded → s.raised = false →
    s.manager.pendingCrossTxs = l →
    ((run visit l s).raised = false ∧ (run visit l s).moved.Nodup ↔ s.moved.Nodup ∧ Along visit Sound l s) := by
  induction l with
  | nil =>
    intro s _ hraised _
    simp [run, Along, hraised]
  | cons txId l ih =>
    intro s hrec hraised hpending
    have hknown := hrec.known txId (by rw [hpending]; exact List.mem_cons_self)
    have hvisit := visit_iff hraised hknown
    change (run visit l (visit txId s)).raised = false ∧ (run visit l (visit txId s)).moved.Nodup ↔
      s.moved.Nodup ∧ Sound txId s ∧ Along visit Sound l (visit txId s)
    by_cases hfirst : (visit txId s).raised = false ∧ (visit txId s).moved.Nodup
    · have hpending' : (visit txId s).manager.pendingCrossTxs = l := by
        rw [pending_visit hfirst.1 hraised, hpending, List.erase_cons_head]
      rw [ih (@recorded_visit txId s hrec) hfirst.1 hpending']
      have hhead := hvisit.mp hfirst
      constructor
      · exact fun h => ⟨hhead.1, hhead.2, h.2⟩
      · exact fun h => ⟨hfirst.2, h.2.2⟩
    · constructor
      · exact fun h => absurd ⟨raised_first h.1, nodup_first h.2⟩ hfirst
      · exact fun h => absurd (hvisit.mpr ⟨h.1, h.2.1⟩) hfirst

/-- A loop that does not raise empties the queue. -/
theorem pending_run {l : List String} : ∀ {s : Pass}, (run visit l s).raised = false → s.raised = false →
    s.manager.pendingCrossTxs = l → (run visit l s).manager.pendingCrossTxs = [] := by
  induction l with
  | nil =>
    intro s _ _ hpending
    exact hpending
  | cons txId l ih =>
    intro s h hraised hpending
    have hfirst := raised_first h
    apply ih h hfirst
    rw [pending_visit hfirst hraised, hpending, List.erase_cons_head]

theorem recorded_run (l : List String) {s : Pass} (h : s.manager.Recorded) : (run visit l s).manager.Recorded :=
  run_inv (I := fun s : Pass => s.manager.Recorded) (fun _ _ => recorded_visit) l h

/-! ## Runs of calls -/

/-- A call of `process_cross_shard_transactions` finds every id of the queue sound when its turn comes, and what
its passes round off adds up to nothing. -/
def SoundCall : Call → Session → Prop
  | .addTransaction _, _ => True
  | .processCrossShardTransactions, s =>
    Along visit Sound s.manager.pendingCrossTxs { manager := s.manager, moved := s.moved, raised := false } ∧
      strayed s.manager.pendingCrossTxs { manager := s.manager, moved := s.moved, raised := false } = 0

theorem recorded_start (numShards : Nat) (db : Option Tables) : (Session.start numShards db).manager.Recorded := by
  constructor
  · intro txId h
    cases h
  · intro txId tx h
    cases h

theorem recorded_step (host : Host) (c : Call) {s : Session} (h : s.manager.Recorded) :
    (step host c s).manager.Recorded := by
  cases c with
  | addTransaction tx => exact h.addTransaction host tx
  | processCrossShardTransactions => exact recorded_run _ h

theorem movedOnce_step (host : Host) (c : Call) {s : Session} (hrec : s.manager.Recorded) {total : ℚ}
    (h : MovedOnce total s) : MovedOnce total (step host c s) ↔ SoundCall c s := by
  cases c with
  | addTransaction tx =>
    refine iff_of_true ⟨h.once, h.unstuck, ?_⟩ trivial
    rw [← h.supply]
    exact ShardingManager.supply_addTransaction host tx s.manager
  | processCrossShardTransactions =>
    have hloop := @run_visit_iff _ { manager := s.manager, moved := s.moved, raised := false } hrec rfl rfl
    have hsupply := @supply_run s.manager.pendingCrossTxs { manager := s.manager, moved := s.moved, raised := false } hrec
    have hsettled : MovedOnce total (step host .processCrossShardTransactions s) ↔
        Settled s.manager.supply (processCrossShardTransactions s.manager s.moved) := by
      constructor
      · intro hs
        have hstuck := hs.unstuck
        simp only [step, Bool.or_eq_false_iff] at hstuck
        exact ⟨hstuck.1.2, hs.once, hs.supply.trans h.supply.symm⟩
      · intro hs
        have hempty := @pending_run _ { manager := s.manager, moved := s.moved, raised := false } hs.1 rfl rfl
        have hempty' : (processCrossShardTransactions s.manager s.moved).manager.pendingCrossTxs = [] := hempty
        refine ⟨hs.2.1, ?_, hs.2.2.trans h.supply⟩
        simp [step, h.unstuck, hs.1, hempty']
    rw [hsettled]
    unfold processCrossShardTransactions Settled SoundCall
    constructor
    · intro hs
      have hsum := hsupply hs.1
      rw [hs.2.2] at hsum
      exact ⟨(hloop.mp ⟨hs.1, hs.2.1⟩).2, add_eq_left.mp hsum.symm⟩
    · rintro ⟨hsound, hnone⟩
      have hends := hloop.mpr ⟨h.once, hsound⟩
      have hsum := hsupply hends.1
      rw [hnone, add_zero] at hsum
      exact ⟨hends.1, hends.2, hsum⟩

/-- In every run, amounts move at most once, no call of `process_cross_shard_transactions` raises or
leaves an id in the queue and the sum of balances stays, exactly when every such call is sound. -/
theorem moved_once_iff (host : Host) (numShards : Nat) (db : Option Tables) (calls : List Call) :
    Always (step host) (MovedOnce (Session.start numShards db).manager.supply) calls (Session.start numShards db) ↔
      Along (step host) SoundCall calls (Session.start numShards db) := by
  refine always_iff_along_of (I := fun s => s.manager.Recorded ∧ MovedOnce (Session.start numShards db).manager.supply s)
    (fun s h => h.2) ?_ ?_ ⟨recorded_start numShards db, List.nodup_nil, rfl, rfl⟩
  · exact fun c s h hc => ⟨recorded_step host c h.1, (movedOnce_step host c h.1 h.2).mpr hc⟩
  · exact fun c s h hnext => (movedOnce_step host c h.1 h.2).mp hnext

theorem same_transfer_twice :
    ¬ ∀ (host : Host) (numShards : Nat) (db : Option Tables) (calls : List Call),
      Always (step host) (MovedOnce (Session.start numShards db).manager.supply) calls (Session.start numShards db) := by
  intro h
  let tx : Row := .cons "from" (.str "alice") (.cons "to" (.str "bob") (.cons "value" (.int 10) .nil))
  have honce := (h Host.plain 4 (some (Tables.empty.applyBalanceDelta "alice" 100))
    [.addTransaction tx, .addTransaction tx, .processCrossShardTransactions]).last.once
  exact absurd honce (by decide +kernel)

/-! ## Runs that submit nothing twice -/

/-- A number that fits a float, as a whole number of `2 ^ e`. -/
def Amount.Usable (e : ℤ) (a : Amount) : Prop :=
  a.notPositive ≠ none ∧ a.toFloat ≠ none ∧ ∀ q, a.toFloat = some (.finite q) → Binary64.Multiple e q

/-- No account is in debt, and the balances are whole numbers of `2 ^ e`, less than `2 ^ 52` of them together. -/
structure Fine (e : ℤ) (t : Tables) : Prop where
  solvent : t.Solvent
  gridded : t.Gridded e
  small : t.getTotalSupply < 2 ^ (e + 52)

section
variable {e : ℤ}

theorem Fine.moved {t : Tables} (h : Fine e t) (he : -1074 ≤ e) {a b : String} (hab : a ≠ b) {amount : ℚ} (hpos : 0 < amount)
    (hle : amount ≤ t.getBalance a) (hgrid : Binary64.Multiple e amount) :
    t.gained Binary64.round a (-amount) = -amount ∧ t.gained Binary64.round b amount = amount ∧
      Fine e ((t.applyRealDelta Binary64.round a (-amount)).applyRealDelta Binary64.round b amount) := by
  have ha := h.solvent.balance_le a
  have hb := h.solvent.balance_le b
  have hb' := h.solvent b
  have hsmall := h.small
  have hdouble : (2 : ℚ) ^ (e + 53) = 2 * 2 ^ (e + 52) := by
    rw [show e + 53 = e + 52 + 1 by ring, zpow_add_one₀ (by norm_num : (2 : ℚ) ≠ 0)]
    ring
  have hdebit : t.gained Binary64.round a (-amount) = -amount :=
    Tables.gained_gridded h.gridded he hgrid.neg (by linarith) (by rw [hdouble]; linarith)
  have hcredit : t.gained Binary64.round b amount = amount :=
    Tables.gained_gridded h.gridded he hgrid (by linarith) (by rw [hdouble]; linarith)
  have hcredit' : (t.applyRealDelta Binary64.round a (-amount)).gained Binary64.round b amount = amount :=
    (Tables.gained_congr (Tables.get_applyRealDelta hab.symm _ _) amount).trans hcredit
  refine ⟨hdebit, hcredit, (h.solvent.applyRealDelta _ _).applyRealDelta _ _, ?_, ?_⟩
  · exact (h.gridded.applyRealDelta hgrid.neg hdebit).applyRealDelta hgrid hcredit'
  · rw [Tables.supply_applyRealDelta, Tables.supply_applyRealDelta, hcredit', hdebit]
    linarith

theorem moved_pos {m : ShardingManager} {tx : CrossShardTransaction} (h : m.validateCrossShardTx tx = some true)
    {amount : ℚ} (hamount : tx.amount.toFloat = some (.finite amount)) : 0 < amount := by
  have hpos : tx.amount.notPositive = some false := by
    unfold ShardingManager.validateCrossShardTx at h
    split at h
    · cases h
    · cases h
    · assumption
  cases ha : tx.amount with
  | int n =>
    rw [ha] at hpos hamount
    simp only [Amount.notPositive, Option.some.injEq, decide_eq_false_iff_not, not_le] at hpos
    simp only [Amount.toFloat] at hamount
    split at hamount
    · simp only [Option.some.injEq, Double.finite.injEq] at hamount
      rw [← hamount]
      apply Binary64.round_pos
      have hone : (1 : ℚ) ≤ n := by exact_mod_cast hpos
      exact le_trans (by decide +kernel) hone
    · cases hamount
  | float d =>
    rw [ha] at hpos hamount
    have hd : d = .finite amount := Option.some.inj hamount
    subst hd
    simpa [Amount.notPositive] using hpos
  | other =>
    rw [ha] at hamount
    cases hamount

structure Unsent (e : ℤ) (m : ShardingManager) (moved : List String) : Prop where
  recorded : m.Recorded
  distinct : (moved ++ m.pendingCrossTxs).Nodup
  known : ∀ txId ∈ moved, m.crossShardTxs.get? txId ≠ none
  usable : ∀ txId tx, m.crossShardTxs.get? txId = some tx → tx.amount.Usable e
  balances : ∀ db, m.db = some db → Fine e db

theorem Unsent.sound {s : Pass} (h : Unsent e s.manager s.moved) {txId : String} (hmem : txId ∈ s.manager.pendingCrossTxs) :
    Sound txId s := by
  constructor
  · intro tx hget
    have husable := h.usable txId tx hget
    unfold ShardingManager.validateCrossShardTx
    split
    · exact fun _ => absurd ‹_› husable.1
    · simp
    · split
      · simp
      · split
        · simp
        · simpa using husable.2.1
  · intro _ hmoved
    exact (List.nodup_append.mp h.distinct).2.2 txId hmoved txId hmem rfl

theorem Unsent.exact {m : ShardingManager} {moved : List String} (h : Unsent e m moved) (he : -1074 ≤ e) (txId : String) :
    m.strayed txId = 0 := by
  unfold ShardingManager.strayed
  split
  · rename_i tx db hget hdb
    split
    · rename_i amount hvalid hamount
      obtain ⟨db', amount', hdb', hamount', hle⟩ := ShardingManager.validate_true hvalid
      obtain rfl : db = db' := Option.some.inj (hdb.symm.trans hdb')
      obtain rfl : amount = amount' := by simpa using hamount.symm.trans hamount'
      obtain ⟨hdebit, hcredit, -⟩ := (h.balances db hdb).moved he (h.recorded.apart txId tx hget) (moved_pos hvalid hamount) hle
        ((h.usable txId tx hget).2.2 amount hamount)
      rw [hdebit, hcredit, neg_add_cancel]
    · rfl
  · rfl

theorem Unsent.visited {s : Pass} (h : Unsent e s.manager s.moved) (he : -1074 ≤ e) (hraised : s.raised = false) {txId : String} {l : List String}
    (hpending : s.manager.pendingCrossTxs = txId :: l) :
    (visit txId s).raised = false ∧ (visit txId s).manager.pendingCrossTxs = l ∧
      Unsent e (visit txId s).manager (visit txId s).moved := by
  have hmem : txId ∈ s.manager.pendingCrossTxs := by
    rw [hpending]
    exact List.mem_cons_self
  have hsound := h.sound hmem
  obtain ⟨tx, hget⟩ := h.recorded.known txId hmem
  have hnone : s.manager.processOne txId ≠ none := by
    rw [ne_eq, ShardingManager.processOne_none hget]
    exact hsound.comparable tx hget
  obtain ⟨m, hm⟩ := Option.ne_none_iff_exists'.mp hnone
  -- a visit finishes: the pass neither raises nor comes back to the record
  have hvisit : visit txId s =
      { manager := m, moved := if s.manager.moves txId then s.moved ++ [txId] else s.moved, raised := false } := by
    unfold visit
    rw [if_neg (by simp [hraised]), hm]
  obtain ⟨tx', status, hget', htxs, hqueue, hcase⟩ := ShardingManager.processOne_cases hm
  rw [hget] at hget'
  obtain rfl := Option.some.inj hget'
  rw [hpending, List.erase_cons_head] at hqueue
  have hdistinct := h.distinct
  rw [hpending] at hdistinct
  rw [hvisit]
  refine ⟨rfl, hqueue, ?_⟩
  constructor
  · exact h.recorded.processOne hm
  -- the records that are left are not among those moved
  · rw [hqueue]
    by_cases hmoves : s.manager.moves txId = true
    · rw [if_pos hmoves, List.append_assoc]
      exact hdistinct
    · rw [if_neg hmoves]
      exact hdistinct.sublist (List.Sublist.append_left (List.sublist_cons_self _ _) _)
  · intro i hi
    rw [htxs, Dict.get?_set]
    by_cases hid : i = txId
    · simp [hid]
    · rw [if_neg hid]
      by_cases hmoves : s.manager.moves txId = true
      · rw [if_pos hmoves, List.mem_append, List.mem_singleton] at hi
        exact h.known i (hi.resolve_right hid)
      · rw [if_neg hmoves] at hi
        exact h.known i hi
  · intro i tx'' hi
    rw [htxs, Dict.get?_set] at hi
    by_cases hid : i = txId
    · rw [if_pos hid] at hi
      rw [← Option.some.inj hi]
      exact h.usable txId tx hget
    · rw [if_neg hid] at hi
      exact h.usable i tx'' hi
  · intro db hdb
    rcases hcase with hfailed | hmoved
    · rw [hfailed.2] at hdb
      exact h.balances db hdb
    · obtain ⟨db₀, amount, hvalid, hdb₀, hamount, hle, hdb'⟩ := hmoved
      rw [hdb'] at hdb
      rw [← Option.some.inj hdb]
      exact ((h.balances db₀ hdb₀).moved he (h.recorded.apart txId tx hget) (moved_pos hvalid hamount) hle
        ((h.usable txId tx hget).2.2 amount hamount)).2.2

theorem Unsent.looped (he : -1074 ≤ e) {l : List String} : ∀ {s : Pass}, Unsent e s.manager s.moved → s.raised = false →
    s.manager.pendingCrossTxs = l →
    (Along visit Sound l s ∧ strayed l s = 0) ∧ Unsent e (run visit l s).manager (run visit l s).moved := by
  induction l with
  | nil =>
    intro s h _ _
    exact ⟨⟨trivial, rfl⟩, h⟩
  | cons txId l ih =>
    intro s h hraised hpending
    have hsound := h.sound (by rw [hpending]; exact List.mem_cons_self)
    obtain ⟨hraised', hpending', h'⟩ := h.visited he hraised hpending
    obtain ⟨⟨hrest, hnone⟩, hend⟩ := ih h' hraised' hpending'
    refine ⟨⟨⟨hsound, hrest⟩, ?_⟩, hend⟩
    rw [strayed, h.exact he, hnone, add_zero]

def FreshCall (e : ℤ) (host : Host) : Call → Session → Prop
  | .addTransaction tx, s => ∀ txId crossTx, (s.manager.addTransaction host tx).2 =
      { s.manager with crossShardTxs := s.manager.crossShardTxs.set txId crossTx,
                       pendingCrossTxs := s.manager.pendingCrossTxs ++ [txId] } →
      s.manager.crossShardTxs.get? txId = none ∧ crossTx.amount.Usable e
  | .processCrossShardTransactions, _ => True

theorem Unsent.stepped {host : Host} {c : Call} {s : Session} (h : Unsent e s.manager s.moved) (he : -1074 ≤ e)
    (hc : FreshCall e host c s) : Unsent e (step host c s).manager (step host c s).moved ∧ SoundCall c s := by
  cases c with
  | processCrossShardTransactions =>
    have hrun := @Unsent.looped e he _ { manager := s.manager, moved := s.moved, raised := false } h rfl rfl
    exact ⟨hrun.2, hrun.1⟩
  | addTransaction tx =>
    refine ⟨?_, trivial⟩
    rcases ShardingManager.addTransaction_cases host tx s.manager with hshards | hcross
    · obtain ⟨shards, hm⟩ := hshards
      simp only [step, hm]
      exact ⟨⟨h.recorded.known, h.recorded.apart⟩, h.distinct, h.known, h.usable, h.balances⟩
    · obtain ⟨txId, crossTx, _, hm⟩ := hcross
      obtain ⟨hnew, husable⟩ := hc txId crossTx hm
      have hrecorded := h.recorded.addTransaction host tx
      simp only [step]
      rw [hm] at hrecorded ⊢
      refine ⟨hrecorded, ?_, ?_, ?_, h.balances⟩
      · rw [← List.append_assoc, List.nodup_append]
        refine ⟨h.distinct, List.nodup_singleton _, ?_⟩
        intro i hi j hj hij
        rw [List.mem_singleton] at hj
        subst hij hj
        rcases List.mem_append.mp hi with hi | hi
        · exact h.known i hi hnew
        · obtain ⟨tx', hget⟩ := h.recorded.known i hi
          rw [hnew] at hget
          cases hget
      · intro i hi
        rw [Dict.get?_set]
        by_cases hid : i = txId
        · simp [hid]
        · rw [if_neg hid]
          exact h.known i hi
      · intro i tx' hi
        rw [Dict.get?_set] at hi
        by_cases hid : i = txId
        · rw [if_pos hid] at hi
          exact Option.some.inj hi ▸ husable
        · rw [if_neg hid] at hi
          exact h.usable i tx' hi

/-- A run in which no id is submitted twice is sound, when its balances and amounts have room on a common grid. -/
theorem soundCall_of_fresh {host : Host} {numShards : Nat} {db : Option Tables} (he : -1074 ≤ e)
    (hdb : ∀ t, db = some t → Fine e t) {calls : List Call}
    (h : Along (step host) (FreshCall e host) calls (Session.start numShards db)) :
    Along (step host) SoundCall calls (Session.start numShards db) := by
  refine along_of_along (I := fun s => Unsent e s.manager s.moved) (fun c s hs hc => (hs.stepped he hc).1)
    (fun c s hs hc => (hs.stepped he hc).2) ?_ h
  refine ⟨recorded_start numShards db, List.nodup_nil, ?_, ?_, hdb⟩
  · intro txId hmem
    cases hmem
  · intro txId tx hget
    cases hget

end

end AbsoluteChain.Sharding
