import AbsoluteChain.Bridge
import AbsoluteChain.Json
import AbsoluteChain.Newest

/-!
# Locks on the bridge

The way out of the chain: `lock_and_bridge` takes coins from the sender and records a
lock, which `confirm_lock` or `confirm_incoming` confirms and `refund` pays back. The
calls come one after the other here, and each leaves its answer in a log.
-/

namespace KeyedTable.Table

variable {κ ρ M : Type} [LinearOrder κ] [AddCommGroup M]

theorem sum_update (t : Table κ ρ) (k : κ) (f : ρ → ρ) (g : ρ → M) :
    (t.update k f).sum g = t.sum g + (t.get? k).elim 0 fun r => g (f r) - g r := by
  unfold update
  cases h : t.get? k with
  | none => exact (add_zero _).symm
  | some r =>
    dsimp only
    rw [sum_put, h]
    exact add_sub_assoc _ _ _

end KeyedTable.Table

namespace AbsoluteChain

open Python KeyedTable Runs

/-- A bridge with what it reads from the configuration. `jsonFloat` is how the helper writes a number. -/
structure BridgeNode extends RustBridge where
  burnRate : ℚ
  burnAddress : String
  jsonFloat : ℚ → List Char

structure LockRequest where
  fromAddr : String
  toChain : String
  toAddr : String
  amount : Python.Num

inductive BridgeAnswer where
  | locked (txHash : String) (lock : BridgeLock) (amount burn : ℚ)
  | confirmed (txHash : String)
  | incoming (request : Incoming) (phase : Phase)
  | refunded (txHash : String) (lock : BridgeLock)
  | error (text : String)
  | raised (text : String)

def BridgeAnswer.lock? : BridgeAnswer → Option (String × BridgeLock)
  | .locked h lock _ _ => some (h, lock)
  | _ => none

def BridgeAnswer.refund? : BridgeAnswer → Option (String × BridgeLock)
  | .refunded h lock => some (h, lock)
  | _ => none

abbrev LockRows := List (String × BridgeLock)

/-- A call. `scan` is the table as the database orders it for the query of that call. -/
inductive BridgeOp where
  | lock (request : LockRequest) (now : Int) (clock : ℚ) (answers : Bool)
  | confirmLock (txHash : String) (helper : Bool) (scan : LockRows)
  | confirmIncoming (request : Incoming) (helper : Bool) (now : Int)
  | refund (txHash : String) (scan : LockRows)

namespace BridgeNode

variable (b : BridgeNode)

/-! ## Locking -/

def normalizeChain (chain : String) : String :=
  let key := b.host.lower (strip chain)
  if key = "eth" ∨ key = "ether" then "ethereum"
  else if key = "bnb" ∨ key = "binance" then "bsc"
  else if key = "sol" then "solana"
  else if key = "abs" then "absolute"
  else key

def supportedChains : List String := ["ethereum", "bsc", "solana", "absolute"]

def feeRate (chain : String) : ℚ :=
  if chain = "bsc" then 2 / 1000 else if chain = "solana" then 1 / 1000 else if chain = "absolute" then 5 / 1000 else 1 / 100

def makeTxHash (fromAddr toChain toAddr : String) (netAmount : ℚ) : String :=
  "0x" ++ sha256Hex (encode ("bridge:" ++ JsonText.dumps (JsonText.compact JsonText.escapeUnicode b.jsonFloat)
    (JsonText.dict [("from_chain", .str "absolute"), ("to_chain", .str toChain), ("from_addr", .str fromAddr),
      ("to_addr", .str toAddr), ("amount", .float netAmount)])))

def simulatorHash (fromAddr toChain toAddr : String) (netAmount clock : ℚ) : String :=
  String.ofList ((sha256Hex (encode ("absolute" ++ toChain ++ fromAddr ++ toAddr ++ b.host.strNum (.float netAmount) ++
    b.host.strNum (.float clock)))).toList.take 16)

def lockId (r : LockRequest) (netAmount clock : ℚ) (answers : Bool) : Except String String :=
  match b.mode with
  | .rust =>
    if answers then .ok (b.makeTxHash r.fromAddr (b.normalizeChain r.toChain) r.toAddr netAmount)
    else .error "rust bridge call failed"
  | .simulator => .ok (b.simulatorHash r.fromAddr (b.normalizeChain r.toChain) r.toAddr netAmount clock)
  | .unavailable => .error "bridge unavailable: rust binary missing or bridge mode invalid"

def fee (r : LockRequest) : ℚ := r.amount.toRat * feeRate (b.normalizeChain r.toChain)

def netAmount (r : LockRequest) : ℚ := r.amount.toRat - b.fee r

def bridgeBurn (r : LockRequest) : ℚ := b.fee r * b.burnRate

def debit (r : LockRequest) (db : BridgeDb) : BridgeDb :=
  { db with tables :=
      (db.tables.applyBalanceDelta r.fromAddr (-r.amount.toRat)).applyBalanceDelta b.burnAddress (b.bridgeBurn r) }

def lockOf (r : LockRequest) (now : Int) : BridgeLock :=
  { fromAddr := r.fromAddr, toChain := b.normalizeChain r.toChain, toAddr := r.toAddr, amount := b.netAmount r,
    status := .pending, createdAt := now }

/-- `INSERT OR REPLACE`. -/
def saveBridgeLock (txHash : String) (lock : BridgeLock) (db : BridgeDb) : BridgeDb :=
  { db with bridgeLocks := db.bridgeLocks.put txHash lock }

def lockAndBridge (r : LockRequest) (now : Int) (clock : ℚ) (answers : Bool) (db : BridgeDb) : BridgeAnswer × BridgeDb :=
  if b.normalizeChain r.toChain ∉ supportedChains then 
    (.error ("Unsupported chain: " ++ b.normalizeChain r.toChain ++ ". Supported: " ++ ", ".intercalate supportedChains), db)
  else if b.netAmount r ≤ 0 then (.error "Amount too small after fee", db)
  else if db.tables.getBalance r.fromAddr < r.amount.toRat then (.error "Insufficient balance", db)
  else
    match b.lockId r (b.netAmount r) clock answers with
    | .error text => (.error text, db)
    | .ok txHash =>
      if (numInts r.amount).all fun n => fitsInt64 (-n) then
        (.locked txHash (b.lockOf r now) r.amount.toRat (b.bridgeBurn r), saveBridgeLock txHash (b.lockOf r now) (b.debit r db))
      else (.raised "Python int too large to convert to SQLite INTEGER", db)

/-! ## The other calls -/

def getBridgeLocks (scan : LockRows) (limit : Nat) : LockRows := scan.take limit

def pendingLock (txHash : String) (rows : LockRows) : Option BridgeLock :=
  (rows.find? fun e => e.1 = txHash ∧ e.2.status = .pending).map Prod.snd

def confirmLock (txHash : String) (helper : Bool) (scan : LockRows) (db : BridgeDb) : BridgeAnswer × BridgeDb :=
  match pendingLock txHash (getBridgeLocks scan 1000) with
  | none => (.error "pending lock not found", db)
  | some _ =>
    let confirmed := (.confirmed txHash, RustBridge.confirmBridgeLock txHash db)
    match b.mode with
    | .rust => if helper then confirmed else (.error "rust confirm failed", db)
    | .simulator => confirmed
    | .unavailable => (.error "bridge unavailable: rust binary missing or bridge mode invalid", db)

def refund (txHash : String) (scan : LockRows) (db : BridgeDb) : BridgeAnswer × BridgeDb :=
  match pendingLock txHash (getBridgeLocks scan 50) with
  | none => (.error "Lock not found or already processed", db)
  | some lock =>
    (.refunded txHash lock,
      { db with
        tables := db.tables.applyBalanceDelta lock.fromAddr lock.amount
        bridgeLocks := db.bridgeLocks.update txHash fun row => { row with status := .refunded } })

def finish (r : Incoming) (helper : Bool) (now : Int) : Nat → Phase → BridgeDb → Phase × BridgeDb
  | 0, phase, db => (phase, db)
  | n + 1, phase, db =>
    let (phase, db) := b.toRustBridge.confirmIncoming ⟨r, phase⟩ helper now db
    finish r helper now n phase db

def confirmIncoming (r : Incoming) (helper : Bool) (now : Int) (db : BridgeDb) : BridgeAnswer × BridgeDb :=
  let (phase, db) := b.finish r helper now 5 .check db
  (.incoming r phase, db)

def call : BridgeOp → BridgeDb → BridgeAnswer × BridgeDb
  | .lock r now clock answers, db => b.lockAndBridge r now clock answers db
  | .confirmLock txHash helper scan, db => b.confirmLock txHash helper scan db
  | .confirmIncoming r helper now, db => b.confirmIncoming r helper now db
  | .refund txHash scan, db => refund txHash scan db

end BridgeNode

structure LockHistory where
  db : BridgeDb
  log : List BridgeAnswer

namespace BridgeNode

variable (b : BridgeNode)

def step (op : BridgeOp) (s : LockHistory) : LockHistory :=
  let r := b.call op s.db
  ⟨r.2, s.log ++ [r.1]⟩

/-! ## What the calls do -/

variable {b} {db : BridgeDb} {s : LockHistory} {txHash : String}

/-- The request passes every check of `confirm_incoming`. -/
def Credits (b : BridgeNode) (r : Incoming) (helper : Bool) (db : BridgeDb) : Prop :=
  ¬ RustBridge.hasBridgeCredit (b.bridgeCreditKey r) db ∧ b.refusal r helper = none ∧ (numInts r.amount).all fitsInt64

theorem confirmIncoming_cases (r : Incoming) (helper : Bool) (now : Int) (db : BridgeDb) :
    (Credits b r helper db ∧ b.confirmIncoming r helper now db = (.incoming r (.returned .confirmed),
      RustBridge.confirmBridgeLock r.txHash (b.saveBridgeCredit r now (RustBridge.updateBalance r db)))) ∨
    (¬ Credits b r helper db ∧ ∃ phase, phase ≠ .returned .confirmed ∧ b.confirmIncoming r helper now db = (.incoming r phase, db)) := by
  unfold Credits
  by_cases hkey : RustBridge.hasBridgeCredit (b.bridgeCreditKey r) db = true
  · refine .inr ⟨fun h => h.1 hkey, .returned .duplicate, by decide, ?_⟩
    simp [confirmIncoming, finish, RustBridge.confirmIncoming, hkey]
  · cases hrefusal : b.refusal r helper with
    | some text =>
      refine .inr ⟨fun h => (by cases h.2.1), .returned (.error text), by simp, ?_⟩
      simp [confirmIncoming, finish, RustBridge.confirmIncoming, hkey, hrefusal]
    | none =>
      by_cases hfits : (numInts r.amount).all fitsInt64 = true
      · refine .inl ⟨⟨hkey, rfl, hfits⟩, ?_⟩
        simp only [confirmIncoming, finish, RustBridge.confirmIncoming, hkey, hrefusal, hfits, if_true]
        rfl
      · refine .inr ⟨fun h => hfits h.2.2, .returned (.raised "Python int too large to convert to SQLite INTEGER"), by simp, ?_⟩
        simp only [confirmIncoming, finish, RustBridge.confirmIncoming, hkey, hrefusal, hfits]
        rfl

def recordsLock (b : BridgeNode) (r : LockRequest) (clock : ℚ) (answers : Bool) (db : BridgeDb) : Option String :=
  if b.normalizeChain r.toChain ∈ supportedChains ∧ 0 < b.netAmount r ∧ r.amount.toRat ≤ db.tables.getBalance r.fromAddr ∧
      ((numInts r.amount).all fun n => fitsInt64 (-n)) then
    (b.lockId r (b.netAmount r) clock answers).toOption
  else none

theorem lockAndBridge_cases (r : LockRequest) (now : Int) (clock : ℚ) (answers : Bool) (db : BridgeDb) :
    (∃ h, b.recordsLock r clock answers db = some h ∧ b.lockAndBridge r now clock answers db =
      (.locked h (b.lockOf r now) r.amount.toRat (b.bridgeBurn r), saveBridgeLock h (b.lockOf r now) (b.debit r db))) ∨
    (b.recordsLock r clock answers db = none ∧ ∃ text, b.lockAndBridge r now clock answers db = (.error text, db) ∨
      b.lockAndBridge r now clock answers db = (.raised text, db)) := by
  unfold lockAndBridge recordsLock
  by_cases hchain : b.normalizeChain r.toChain ∈ supportedChains
  · rw [if_neg (not_not.mpr hchain)]
    by_cases hnet : b.netAmount r ≤ 0
    · rw [if_pos hnet, if_neg fun h => absurd h.2.1 (not_lt.mpr hnet)]
      exact .inr ⟨rfl, _, .inl rfl⟩
    · rw [if_neg hnet]
      by_cases hbalance : db.tables.getBalance r.fromAddr < r.amount.toRat
      · rw [if_pos hbalance, if_neg fun h => absurd h.2.2.1 (not_le.mpr hbalance)]
        exact .inr ⟨rfl, _, .inl rfl⟩
      · rw [if_neg hbalance]
        cases hid : b.lockId r (b.netAmount r) clock answers with
        | error text =>
          refine .inr ⟨?_, text, .inl rfl⟩
          split <;> rfl
        | ok h =>
          dsimp only
          by_cases hfits : ((numInts r.amount).all fun n => fitsInt64 (-n)) = true
          · rw [if_pos ⟨hchain, not_le.mp hnet, not_lt.mp hbalance, hfits⟩, if_pos hfits]
            exact .inl ⟨h, rfl, rfl⟩
          · rw [if_neg hfits, if_neg fun h => hfits h.2.2.2]
            exact .inr ⟨rfl, _, .inr rfl⟩
  · rw [if_pos hchain, if_neg fun h => hchain h.1]
    exact .inr ⟨rfl, _, .inl rfl⟩

/-! ## The accounts of the locks -/

/-- What a call pays to whom. -/
def payments (b : BridgeNode) : BridgeAnswer → List (String × ℚ)
  | .locked _ lock amount burn => [(lock.fromAddr, -amount), (b.burnAddress, burn)]
  | .refunded _ lock => [(lock.fromAddr, lock.amount)]
  | .incoming r (.returned .confirmed) => [(r.recipient, r.amount.toRat)]
  | _ => []

def locksOf (log : List BridgeAnswer) : LockRows := log.filterMap BridgeAnswer.lock?

def refundsOf (log : List BridgeAnswer) : LockRows := log.filterMap BridgeAnswer.refund?

def total (rows : LockRows) : ℚ := (rows.map fun e => e.2.amount).sum

/-- What a record still holds. -/
def held (row : BridgeLock) : ℚ := if row.status = .refunded then 0 else row.amount

def createdAt (e : String × BridgeLock) : Int := e.2.createdAt

/-- The rows in an order in which the database may return them. -/
def Scans (db : BridgeDb) (scan : LockRows) : Prop := Newest.Scan createdAt db.bridgeLocks.rows scan

/-- How many records are as recent as a time. -/
def ahead (t : Int) (db : BridgeDb) : Nat := Newest.ahead createdAt t db.bridgeLocks.rows

structure Accounted (b : BridgeNode) (start : Tables) (s : LockHistory) : Prop where
  own : ((locksOf s.log).map Prod.fst).Nodup
  recorded : ∀ h, (s.db.bridgeLocks.get? h).isSome → h ∈ (locksOf s.log).map Prod.fst
  kept : ∀ h lock, (h, lock) ∈ locksOf s.log → ∃ status, s.db.bridgeLocks.get? h = some { lock with status := status }
  balanced : total (locksOf s.log) - total (refundsOf s.log) = s.db.bridgeLocks.sum held
  paid : s.db.tables = (s.log.flatMap b.payments).foldl (fun t p => t.applyBalanceDelta p.1 p.2) start
  refundable : ∀ h row, s.db.bridgeLocks.get? h = some row → row.status = .pending →
    ∀ scan, Scans s.db scan → (refund h scan s.db).1 = .refunded h row

/-- A record keeps what it says, and its status changes only from pending to another one. -/
def Moves (b : BridgeNode) (op : BridgeOp) (s : LockHistory) : Prop :=
  ∀ h row, s.db.bridgeLocks.get? h = some row → ∃ status, (b.step op s).db.bridgeLocks.get? h = some { row with status := status } ∧
    (status = row.status ∨ row.status = .pending)

/-- What the database returns to the calls. -/
def Delivered (op : BridgeOp) (s : LockHistory) : Prop :=
  match op with
  | .confirmLock _ _ scan => Scans s.db scan
  | .refund _ scan => Scans s.db scan
  | _ => True

/-- A lock gets an id that is not taken, when fewer than fifty records are as recent as it and as each
older pending one; and no deposit goes by the id of a refunded lock. -/
def Tidy (b : BridgeNode) (op : BridgeOp) (s : LockHistory) : Prop :=
  match op with
  | .lock r now clock answers => ∀ h, b.recordsLock r clock answers s.db = some h → s.db.bridgeLocks.get? h = none ∧
      ahead now s.db < 50 ∧ ∀ j row, s.db.bridgeLocks.get? j = some row → row.status = .pending → row.createdAt ≤ now →
        ahead row.createdAt s.db < 50
  | .confirmIncoming r helper _ => Credits b r helper s.db → ∀ row, s.db.bridgeLocks.get? r.txHash = some row → row.status ≠ .refunded
  | _ => True

/-! ## Which locks can be refunded -/

theorem pendingLock_some {rows : LockRows} {lock : BridgeLock} (h : pendingLock txHash rows = some lock) :
    (txHash, lock) ∈ rows ∧ lock.status = .pending := by
  obtain ⟨⟨j, row⟩, he, rfl⟩ := Option.map_eq_some_iff.mp h
  have hp := List.find?_some he
  simp only [decide_eq_true_eq] at hp
  exact ⟨hp.1 ▸ List.mem_of_find?_eq_some he, hp.2⟩

theorem nodup_rows (db : BridgeDb) : db.bridgeLocks.rows.Nodup :=
  db.bridgeLocks.ordered.imp fun hab he => absurd (he ▸ hab) (lt_irrefl _)

theorem refund_iff {scan : LockRows} (hscan : Scans db scan) {row : BridgeLock} (hrow : db.bridgeLocks.get? txHash = some row)
    (hp : row.status = .pending) : (refund txHash scan db).1 = .refunded txHash row ↔ (txHash, row) ∈ scan.take 50 := by
  unfold refund getBridgeLocks
  constructor
  · intro h
    cases hl : pendingLock txHash (scan.take 50) with
    | none =>
      rw [hl] at h
      cases h
    | some lock =>
      rw [hl] at h
      cases h
      exact (pendingLock_some hl).1
  · intro hin
    cases hl : pendingLock txHash (scan.take 50) with
    | none =>
      have hnone := List.find?_eq_none.mp (Option.map_eq_none_iff.mp hl) _ hin
      exact absurd (decide_eq_true ⟨rfl, hp⟩) hnone
    | some lock =>
      have hlock := (db.bridgeLocks.mem_rows_iff txHash lock).mp
        (hscan.1.mem_iff.mp (List.mem_of_mem_take (pendingLock_some hl).1))
      rw [hrow] at hlock
      cases hlock
      rfl

/-- Exactly the locks with at most fifty records as recent can be refunded whatever the order of a moment's records. -/
theorem refundable_iff {row : BridgeLock} (hrow : db.bridgeLocks.get? txHash = some row) (hp : row.status = .pending) :
    (∀ scan, Scans db scan → (refund txHash scan db).1 = .refunded txHash row) ↔ ahead row.createdAt db ≤ 50 := by
  refine (forall₂_congr fun scan hscan => refund_iff hscan hrow hp).trans ?_
  exact Newest.mem_take_iff (nodup_rows db) ((db.bridgeLocks.mem_rows_iff txHash row).mpr hrow)

theorem ahead_sum (t : Int) (db : BridgeDb) :
    (ahead t db : Int) = db.bridgeLocks.sum fun row => if t ≤ row.createdAt then 1 else 0 := by
  unfold ahead Newest.ahead Table.sum
  induction db.bridgeLocks.rows with
  | nil => rfl
  | cons e l ih =>
    rw [List.map_cons, List.sum_cons, List.countP_cons, ← ih]
    by_cases ht : t ≤ e.2.createdAt
    · simp [createdAt, ht, add_comm]
    · simp [createdAt, ht]

theorem ahead_save (h : db.bridgeLocks.get? txHash = none) (t : Int) (lock : BridgeLock) :
    ahead t (saveBridgeLock txHash lock db) = ahead t db + if t ≤ lock.createdAt then 1 else 0 := by
  have hsum : (ahead t (saveBridgeLock txHash lock db) : Int) = ahead t db + if t ≤ lock.createdAt then 1 else 0 := by
    rw [ahead_sum, ahead_sum]
    unfold saveBridgeLock
    rw [Table.sum_put, h]
    exact sub_zero _
  split at hsum
  · rw [if_pos ‹_›]
    omega
  · rw [if_neg ‹_›]
    omega

theorem ahead_status {db' : BridgeDb} {status : LockStatus}
    (h : db'.bridgeLocks = db.bridgeLocks.update txHash fun row => { row with status := status }) (t : Int) :
    ahead t db' = ahead t db := by
  have hsum : (ahead t db' : Int) = ahead t db := by
    rw [ahead_sum, ahead_sum, h, Table.sum_update]
    cases db.bridgeLocks.get? txHash with
    | none => exact add_zero _
    | some row => exact (congrArg _ (sub_self _)).trans (add_zero _)
  exact Int.ofNat.inj hsum

/-! ## The step -/

variable {start : Tables} {op : BridgeOp} {answer : BridgeAnswer}

theorem locksOf_append (log : List BridgeAnswer) (answer : BridgeAnswer) :
    locksOf (log ++ [answer]) = locksOf log ++ answer.lock?.toList := by
  unfold locksOf
  rw [List.filterMap_append]
  cases h : answer.lock? <;> simp [h]

theorem refundsOf_append (log : List BridgeAnswer) (answer : BridgeAnswer) :
    refundsOf (log ++ [answer]) = refundsOf log ++ answer.refund?.toList := by
  unfold refundsOf
  rw [List.filterMap_append]
  cases h : answer.refund? <;> simp [h]

theorem total_append (rows rows' : LockRows) : total (rows ++ rows') = total rows + total rows' := by
  unfold total
  rw [List.map_append, List.sum_append]

/-- A call that leaves the database alone. -/
theorem Accounted.idle (hs : Accounted b start s) (hl : answer.lock? = none) (hr : answer.refund? = none)
    (hp : b.payments answer = []) : Accounted b start ⟨s.db, s.log ++ [answer]⟩ := by
  have hlocks : locksOf (s.log ++ [answer]) = locksOf s.log := by
    rw [locksOf_append, hl]
    exact List.append_nil _
  have hrefunds : refundsOf (s.log ++ [answer]) = refundsOf s.log := by
    rw [refundsOf_append, hr]
    exact List.append_nil _
  constructor
  · rw [hlocks]
    exact hs.own
  · rw [hlocks]
    exact hs.recorded
  · rw [hlocks]
    exact hs.kept
  · rw [hlocks, hrefunds]
    exact hs.balanced
  · rw [List.flatMap_append, List.flatMap_singleton, hp, List.append_nil]
    exact hs.paid
  · exact hs.refundable

theorem Moves.idle {log : List BridgeAnswer} (h : b.step op s = ⟨s.db, log⟩) : Moves b op s := by
  intro j row hrow
  rw [h]
  exact ⟨row.status, hrow, .inl rfl⟩

theorem Accounted.closed (hs : Accounted b start s) {db' : BridgeDb} (txHash : String) (status : LockStatus)
    (hdb : db'.bridgeLocks = s.db.bridgeLocks.update txHash fun row => { row with status := status })
    (hstatus : status ≠ .pending) (hl : answer.lock? = none)
    (hr : total answer.refund?.toList = (s.db.bridgeLocks.get? txHash).elim 0 fun row => held row - held { row with status := status })
    (hp : db'.tables = (b.payments answer).foldl (fun t p => t.applyBalanceDelta p.1 p.2) s.db.tables) :
    Accounted b start ⟨db', s.log ++ [answer]⟩ := by
  have hlocks : locksOf (s.log ++ [answer]) = locksOf s.log := by
    rw [locksOf_append, hl]
    exact List.append_nil _
  -- one record changes, and only its status
  have hget : ∀ j, db'.bridgeLocks.get? j =
      if j = txHash then (s.db.bridgeLocks.get? txHash).map fun row => { row with status := status } else s.db.bridgeLocks.get? j := by
    intro j
    rw [hdb, Table.get_update]
  constructor
  · rw [hlocks]
    exact hs.own
  · intro j hj
    rw [hlocks]
    apply hs.recorded
    rw [hget] at hj
    split at hj
    · rename_i h
      rw [Option.isSome_map] at hj
      exact h ▸ hj
    · exact hj
  · intro j lock hj
    rw [hlocks] at hj
    obtain ⟨old, hold⟩ := hs.kept j lock hj
    dsimp only
    rw [hget]
    split
    · rename_i h
      rw [← h, hold]
      exact ⟨status, rfl⟩
    · exact ⟨old, hold⟩
  · dsimp only
    rw [hlocks, refundsOf_append, total_append, hr, hdb, Table.sum_update, ← hs.balanced]
    cases s.db.bridgeLocks.get? txHash with
    | none => simp
    | some row =>
      simp only [Option.elim_some]
      ring
  · rw [List.flatMap_append, List.flatMap_singleton, List.foldl_append, ← hs.paid]
    exact hp
  · intro j row hrow hpending
    have hold : s.db.bridgeLocks.get? j = some row := by
      have h := hrow
      dsimp only at h
      rw [hget] at h
      split at h
      · obtain ⟨old, -, rfl⟩ := Option.map_eq_some_iff.mp h
        exact absurd hpending hstatus
      · exact h
    dsimp only
    rw [refundable_iff hrow hpending, ahead_status hdb]
    exact (refundable_iff hold hpending).mp (hs.refundable j row hold hpending)

/-- Closing a record moves its status as it should unless the record was closed already. -/
theorem moves_iff (txHash : String) (status : LockStatus)
    (hdb : (b.step op s).db.bridgeLocks = s.db.bridgeLocks.update txHash fun row => { row with status := status }) :
    Moves b op s ↔ ∀ row, s.db.bridgeLocks.get? txHash = some row → status = row.status ∨ row.status = .pending := by
  unfold Moves
  constructor
  · intro h row hrow
    obtain ⟨new, hnew, hmove⟩ := h txHash row hrow
    rw [hdb, Table.get_update, if_pos rfl, hrow] at hnew
    cases hnew
    exact hmove
  · intro h j row hrow
    rw [hdb, Table.get_update]
    by_cases hj : j = txHash
    · subst hj
      rw [if_pos rfl, hrow]
      exact ⟨status, rfl, h row hrow⟩
    · rw [if_neg hj]
      exact ⟨row.status, hrow, .inl rfl⟩

def afterLock (b : BridgeNode) (r : LockRequest) (now : Int) (h : String) (s : LockHistory) : LockHistory :=
  ⟨saveBridgeLock h (b.lockOf r now) (b.debit r s.db), s.log ++ [.locked h (b.lockOf r now) r.amount.toRat (b.bridgeBurn r)]⟩

theorem get?_afterLock (r : LockRequest) (now : Int) (h j : String) :
    (b.afterLock r now h s).db.bridgeLocks.get? j = if j = h then some (b.lockOf r now) else s.db.bridgeLocks.get? j :=
  Table.get_put _ _ _ _

theorem locksOf_afterLock (r : LockRequest) (now : Int) (h : String) :
    locksOf (b.afterLock r now h s).log = locksOf s.log ++ [(h, b.lockOf r now)] :=
  locksOf_append _ _

theorem ahead_afterLock {h : String} (hnew : s.db.bridgeLocks.get? h = none) (r : LockRequest) (now t : Int) :
    ahead t (b.afterLock r now h s).db = ahead t s.db + if t ≤ now then 1 else 0 :=
  @ahead_save (b.debit r s.db) h hnew t (b.lockOf r now)

section afterLock
variable {r : LockRequest} {now : Int} {h : String}

/-- An id without a row has no entry in the log. -/
theorem Accounted.unlogged (hs : Accounted b start s) (hnew : s.db.bridgeLocks.get? h = none) :
    h ∉ (locksOf s.log).map Prod.fst := by
  intro hin
  obtain ⟨⟨j, lock⟩, hmem, rfl⟩ := List.mem_map.mp hin
  obtain ⟨status, hg⟩ := hs.kept j lock hmem
  rw [hg] at hnew
  cases hnew

theorem Accounted.fresh_of_afterLock (hs : Accounted b start s) (hn : Accounted b start (b.afterLock r now h s)) :
    s.db.bridgeLocks.get? h = none := by
  have hown := hn.own
  rw [locksOf_afterLock, List.map_append, List.nodup_append] at hown
  cases hg : s.db.bridgeLocks.get? h with
  | none => rfl
  | some row => exact absurd rfl (hown.2.2 h (hs.recorded h (by rw [hg]; rfl)) h List.mem_cons_self)

theorem Accounted.crowd_of_afterLock (hnew : s.db.bridgeLocks.get? h = none)
    (hn : Accounted b start (b.afterLock r now h s)) {j : String} {row : BridgeLock}
    (hrow : (b.afterLock r now h s).db.bridgeLocks.get? j = some row) (hp : row.status = .pending) :
    ahead row.createdAt s.db + (if row.createdAt ≤ now then 1 else 0) ≤ 50 := by
  rw [← ahead_afterLock hnew r]
  exact (refundable_iff hrow hp).mp (hn.refundable j row hrow hp)

theorem Accounted.room_of_afterLock (hnew : s.db.bridgeLocks.get? h = none)
    (hn : Accounted b start (b.afterLock r now h s)) : ahead now s.db < 50 ∧
      ∀ j row, s.db.bridgeLocks.get? j = some row → row.status = .pending → row.createdAt ≤ now → ahead row.createdAt s.db < 50 := by
  constructor
  · have hown := hn.crowd_of_afterLock hnew (by rw [get?_afterLock, if_pos rfl]) rfl
    rw [show (b.lockOf r now).createdAt = now from rfl, if_pos (le_refl _)] at hown
    omega
  · intro j row hrow hp hle
    have hj : j ≠ h := fun hj => by rw [hj, hnew] at hrow; cases hrow
    have hold := hn.crowd_of_afterLock hnew (by rw [get?_afterLock, if_neg hj, hrow]) hp
    rw [if_pos hle] at hold
    omega

theorem Accounted.own_afterLock (hs : Accounted b start s) (hnew : s.db.bridgeLocks.get? h = none) :
    ((locksOf (b.afterLock r now h s).log).map Prod.fst).Nodup := by
  rw [locksOf_afterLock, List.map_append, List.nodup_append]
  refine ⟨hs.own, List.nodup_singleton h, ?_⟩
  rintro a ha c hc rfl
  rw [List.mem_singleton.mp hc] at ha
  exact hs.unlogged hnew ha

theorem Accounted.recorded_afterLock (hs : Accounted b start s) {j : String}
    (hj : ((b.afterLock r now h s).db.bridgeLocks.get? j).isSome) :
    j ∈ (locksOf (b.afterLock r now h s).log).map Prod.fst := by
  rw [locksOf_afterLock, List.map_append]
  rw [get?_afterLock] at hj
  split at hj
  · rename_i hjh
    exact List.mem_append_right _ (hjh ▸ List.mem_cons_self)
  · exact List.mem_append_left _ (hs.recorded j hj)

theorem Accounted.kept_afterLock (hs : Accounted b start s) (hnew : s.db.bridgeLocks.get? h = none) {j : String}
    {lock : BridgeLock} (hj : (j, lock) ∈ locksOf (b.afterLock r now h s).log) :
    ∃ status, (b.afterLock r now h s).db.bridgeLocks.get? j = some { lock with status := status } := by
  rw [locksOf_afterLock] at hj
  rw [get?_afterLock]
  rcases List.mem_append.mp hj with hj | hj
  · have hjh : j ≠ h := fun hjh => hs.unlogged hnew (hjh ▸ List.mem_map_of_mem (f := Prod.fst) hj)
    rw [if_neg hjh]
    exact hs.kept j lock hj
  · rw [List.mem_singleton] at hj
    cases hj
    exact ⟨.pending, if_pos rfl⟩

theorem Accounted.balanced_afterLock (hs : Accounted b start s) (hnew : s.db.bridgeLocks.get? h = none) :
    total (locksOf (b.afterLock r now h s).log) - total (refundsOf (b.afterLock r now h s).log) =
      (b.afterLock r now h s).db.bridgeLocks.sum held := by
  have hrefunds : refundsOf (b.afterLock r now h s).log = refundsOf s.log :=
    (refundsOf_append _ _).trans (List.append_nil _)
  have hsum : (b.afterLock r now h s).db.bridgeLocks.sum held = s.db.bridgeLocks.sum held + b.netAmount r := by
    unfold afterLock saveBridgeLock
    dsimp only
    rw [Table.sum_put, show (b.debit r s.db).bridgeLocks = s.db.bridgeLocks from rfl, hnew]
    exact sub_zero _
  rw [locksOf_afterLock, total_append, hrefunds, hsum, ← hs.balanced]
  rw [show total [(h, b.lockOf r now)] = b.netAmount r from add_zero _]
  ring

theorem Accounted.paid_afterLock (hs : Accounted b start s) : (b.afterLock r now h s).db.tables =
    ((b.afterLock r now h s).log.flatMap b.payments).foldl (fun t p => t.applyBalanceDelta p.1 p.2) start := by
  have hlog : (b.afterLock r now h s).log.flatMap b.payments = s.log.flatMap b.payments ++
      [(r.fromAddr, -r.amount.toRat), (b.burnAddress, b.bridgeBurn r)] := by
    unfold afterLock
    rw [List.flatMap_append, List.flatMap_singleton]
    rfl
  rw [hlog, List.foldl_append, ← hs.paid]
  rfl

theorem Accounted.refundable_afterLock (hs : Accounted b start s) (hnew : s.db.bridgeLocks.get? h = none)
    (hroom : ahead now s.db < 50)
    (hothers : ∀ j row, s.db.bridgeLocks.get? j = some row → row.status = .pending → row.createdAt ≤ now →
      ahead row.createdAt s.db < 50) {j : String} {row : BridgeLock}
    (hrow : (b.afterLock r now h s).db.bridgeLocks.get? j = some row) (hp : row.status = .pending) :
    ∀ scan, Scans (b.afterLock r now h s).db scan →
      (refund j scan (b.afterLock r now h s).db).1 = .refunded j row := by
  rw [refundable_iff hrow hp, ahead_afterLock hnew]
  rw [get?_afterLock] at hrow
  split at hrow
  · cases hrow
    rw [show (b.lockOf r now).createdAt = now from rfl, if_pos (le_refl _)]
    omega
  · have hold := (refundable_iff hrow hp).mp (hs.refundable j row hrow hp)
    split
    · exact hothers j row hrow hp ‹_›
    · exact hold

theorem Accounted.afterLock_iff (hs : Accounted b start s) (r : LockRequest) (now : Int) (h : String) :
    Accounted b start (b.afterLock r now h s) ↔ s.db.bridgeLocks.get? h = none ∧ ahead now s.db < 50 ∧
      ∀ j row, s.db.bridgeLocks.get? j = some row → row.status = .pending → row.createdAt ≤ now → ahead row.createdAt s.db < 50 := by
  constructor
  · intro hn
    have hnew := hs.fresh_of_afterLock hn
    exact ⟨hnew, hn.room_of_afterLock hnew⟩
  · rintro ⟨hnew, hroom, hothers⟩
    exact ⟨hs.own_afterLock hnew, fun _ hj => hs.recorded_afterLock hj, fun _ _ hj => hs.kept_afterLock hnew hj,
      hs.balanced_afterLock hnew, hs.paid_afterLock, fun _ _ hrow hp => hs.refundable_afterLock hnew hroom hothers hrow hp⟩

end afterLock

theorem moves_afterLock {r : LockRequest} {now : Int} {h : String} (hnew : s.db.bridgeLocks.get? h = none)
    (hstep : b.step op s = b.afterLock r now h s) : Moves b op s := by
  intro j row hrow
  have hj : j ≠ h := fun hj => by rw [hj, hnew] at hrow; cases hrow
  rw [hstep, get?_afterLock, if_neg hj]
  exact ⟨row.status, hrow, .inl rfl⟩

theorem lock_step (hs : Accounted b start s) (r : LockRequest) (now : Int) (clock : ℚ) (answers : Bool) :
    Accounted b start (b.step (.lock r now clock answers) s) ∧ Moves b (.lock r now clock answers) s ↔
      Tidy b (.lock r now clock answers) s := by
  unfold Tidy
  dsimp only
  rcases lockAndBridge_cases (b := b) r now clock answers s.db with ⟨h, hid, hcall⟩ | ⟨hid, text, hcall⟩
  · have hstep : b.step (.lock r now clock answers) s = b.afterLock r now h s := by
      unfold step call afterLock
      dsimp only
      rw [hcall]
    rw [hstep, hs.afterLock_iff]
    constructor
    · rintro ⟨h', -⟩ j hj
      rw [hid] at hj
      cases hj
      exact h'
    · intro htidy
      exact ⟨htidy h hid, moves_afterLock (htidy h hid).1 hstep⟩
  · refine iff_of_true ?_ fun h hh => by rw [hid] at hh; cases hh
    obtain ⟨answer, hnext, hl, hr, hp⟩ : ∃ answer, b.step (.lock r now clock answers) s = ⟨s.db, s.log ++ [answer]⟩ ∧
        answer.lock? = none ∧ answer.refund? = none ∧ b.payments answer = [] := by
      unfold step call
      dsimp only
      rcases hcall with hcall | hcall
      · exact ⟨.error text, by rw [hcall], rfl, rfl, rfl⟩
      · exact ⟨.raised text, by rw [hcall], rfl, rfl, rfl⟩
    exact ⟨hnext ▸ hs.idle hl hr hp, Moves.idle hnext⟩

theorem confirmLock_step (hs : Accounted b start s) (h : String) (helper : Bool) {scan : LockRows} (hd : Scans s.db scan) :
    Accounted b start (b.step (.confirmLock h helper scan) s) ∧ Moves b (.confirmLock h helper scan) s := by
  have hstep : (∃ text, b.confirmLock h helper scan s.db = (.error text, s.db)) ∨
      b.confirmLock h helper scan s.db = (.confirmed h, RustBridge.confirmBridgeLock h s.db) ∧
        ∃ lock, s.db.bridgeLocks.get? h = some lock ∧ lock.status = .pending := by
    unfold confirmLock
    cases hl : pendingLock h (getBridgeLocks scan 1000) with
    | none => exact .inl ⟨_, rfl⟩
    | some lock =>
      have hlock := pendingLock_some hl
      have hrow := (s.db.bridgeLocks.mem_rows_iff h lock).mp (hd.1.mem_iff.mp (List.mem_of_mem_take hlock.1))
      cases b.mode with
      | rust =>
        cases helper with
        | true => exact .inr ⟨rfl, lock, hrow, hlock.2⟩
        | false => exact .inl ⟨_, rfl⟩
      | simulator => exact .inr ⟨rfl, lock, hrow, hlock.2⟩
      | unavailable => exact .inl ⟨_, rfl⟩
  rcases hstep with ⟨text, hcall⟩ | ⟨hcall, lock, hrow, hp⟩
  · have hnext : b.step (.confirmLock h helper scan) s = ⟨s.db, s.log ++ [.error text]⟩ := by
      unfold step call
      dsimp only
      rw [hcall]
    exact ⟨hnext ▸ hs.idle rfl rfl rfl, Moves.idle hnext⟩
  · have hnext : b.step (.confirmLock h helper scan) s =
        ⟨RustBridge.confirmBridgeLock h s.db, s.log ++ [.confirmed h]⟩ := by
      unfold step call
      dsimp only
      rw [hcall]
    constructor
    · rw [hnext]
      apply hs.closed h .confirmed rfl (by decide) rfl ?_ rfl
      rw [hrow]
      simp [total, held, hp, BridgeAnswer.refund?]
    · apply (moves_iff h .confirmed (by rw [hnext]; rfl)).mpr
      intro row hrow'
      rw [hrow] at hrow'
      cases hrow'
      exact .inr hp

theorem confirmIncoming_step (hs : Accounted b start s) (r : Incoming) (helper : Bool) (now : Int) :
    Accounted b start (b.step (.confirmIncoming r helper now) s) ∧ Moves b (.confirmIncoming r helper now) s ↔
      Tidy b (.confirmIncoming r helper now) s := by
  unfold Tidy
  dsimp only
  rcases confirmIncoming_cases (b := b) r helper now s.db with ⟨hcredits, hcall⟩ | ⟨hnot, phase, hphase, hcall⟩
  · have hnext : b.step (.confirmIncoming r helper now) s =
        ⟨RustBridge.confirmBridgeLock r.txHash (b.saveBridgeCredit r now (RustBridge.updateBalance r s.db)),
          s.log ++ [.incoming r (.returned .confirmed)]⟩ := by
      unfold step call
      dsimp only
      rw [hcall]
    have hmoves : Moves b (.confirmIncoming r helper now) s ↔ _ := moves_iff r.txHash .confirmed (by rw [hnext]; rfl)
    constructor
    · rintro ⟨-, hm⟩ - row hrow hrefunded
      rcases hmoves.mp hm row hrow with h | h
      · rw [hrefunded] at h
        cases h
      · rw [hrefunded] at h
        cases h
    · intro htidy
      have hopen := htidy hcredits
      constructor
      · rw [hnext]
        apply hs.closed r.txHash .confirmed rfl (by decide) rfl ?_ rfl
        cases hrow : s.db.bridgeLocks.get? r.txHash with
        | none => rfl
        | some row => simp [total, held, hopen row hrow, BridgeAnswer.refund?]
      · apply hmoves.mpr
        intro row hrow
        cases hstatus : row.status with
        | pending => exact .inr rfl
        | confirmed => exact .inl rfl
        | refunded => exact absurd hstatus (hopen row hrow)
  · refine iff_of_true ?_ fun h => absurd h hnot
    have hnext : b.step (.confirmIncoming r helper now) s = ⟨s.db, s.log ++ [.incoming r phase]⟩ := by
      unfold step call
      dsimp only
      rw [hcall]
    refine ⟨hnext ▸ hs.idle rfl rfl ?_, Moves.idle hnext⟩
    unfold payments
    split
    · rename_i h
      cases h
    · rename_i h
      cases h
    · rename_i h
      cases h
      exact absurd rfl hphase
    · rfl

theorem refund_step (hs : Accounted b start s) (h : String) {scan : LockRows} (hd : Scans s.db scan) :
    Accounted b start (b.step (.refund h scan) s) ∧ Moves b (.refund h scan) s := by
  cases hl : pendingLock h (getBridgeLocks scan 50) with
  | none =>
    have hnext : b.step (.refund h scan) s = ⟨s.db, s.log ++ [.error "Lock not found or already processed"]⟩ := by
      unfold step call refund
      simp only [hl]
    exact ⟨hnext ▸ hs.idle rfl rfl rfl, Moves.idle hnext⟩
  | some lock =>
    have hlock := pendingLock_some hl
    have hrow := (s.db.bridgeLocks.mem_rows_iff h lock).mp (hd.1.mem_iff.mp (List.mem_of_mem_take hlock.1))
    have hnext : b.step (.refund h scan) s =
        ⟨{ s.db with
            tables := s.db.tables.applyBalanceDelta lock.fromAddr lock.amount
            bridgeLocks := s.db.bridgeLocks.update h fun row => { row with status := .refunded } },
          s.log ++ [.refunded h lock]⟩ := by
      unfold step call refund
      simp only [hl]
    constructor
    · rw [hnext]
      apply hs.closed h .refunded rfl (by decide) rfl ?_ rfl
      rw [hrow]
      simp [total, held, hlock.2, BridgeAnswer.refund?]
    · apply (moves_iff h .refunded (by rw [hnext])).mpr
      intro row hrow'
      rw [hrow] at hrow'
      cases hrow'
      exact .inr hlock.2

theorem accounted_step (hs : Accounted b start s) (hd : Delivered op s) :
    Accounted b start (b.step op s) ∧ Moves b op s ↔ Tidy b op s := by
  cases op with
  | lock r now clock answers => exact lock_step hs r now clock answers
  | confirmLock h helper scan => exact iff_of_true (confirmLock_step hs h helper hd) trivial
  | confirmIncoming r helper now => exact confirmIncoming_step hs r helper now
  | refund h scan => exact iff_of_true (refund_step hs h hd) trivial

theorem accounted_start (b : BridgeNode) {db : BridgeDb} (h : db.bridgeLocks = .empty) : Accounted b db.tables ⟨db, []⟩ := by
  have hget : ∀ j, db.bridgeLocks.get? j = none := fun j => by rw [h]; rfl
  constructor
  · exact List.nodup_nil
  · intro j hj
    rw [hget] at hj
    cases hj
  · exact fun j lock hj => absurd hj List.not_mem_nil
  · dsimp only
    rw [h]
    exact sub_self _
  · rfl
  · intro j row hrow
    rw [hget] at hrow
    cases hrow

/-- In a run every lock has its own record, the records move as they should, what is locked less what was
refunded is what the records hold, and every pending lock can be refunded, exactly when the run is tidy. -/
theorem locks_accounted (b : BridgeNode) (db : BridgeDb) (hempty : db.bridgeLocks = .empty) (ops : List BridgeOp)
    (hd : Along b.step Delivered ops ⟨db, []⟩) :
    Along b.step (fun op s => Accounted b db.tables (b.step op s) ∧ Moves b op s) ops ⟨db, []⟩ ↔
      Along b.step (Tidy b) ops ⟨db, []⟩ := by
  have hstart := accounted_start b hempty
  generalize (⟨db, []⟩ : LockHistory) = s at hd hstart ⊢
  induction ops generalizing s with
  | nil => exact Iff.rfl
  | cons op ops ih =>
    have hstep := accounted_step hstart hd.1
    constructor
    · rintro ⟨h, hrest⟩
      exact ⟨hstep.mp h, (ih _ hd.2 h.1).mp hrest⟩
    · rintro ⟨h, hrest⟩
      have hnext := hstep.mpr h
      exact ⟨hnext, (ih _ hd.2 hnext.1).mpr hrest⟩

/-! ## Two equal locks -/

def sampleNode : BridgeNode :=
  { RustBridge.watched with burnRate := 2 / 100, burnAddress := "0xdead", jsonFloat := Host.plain.floatRepr }

def fundedBridge : BridgeDb := { BridgeDb.empty with tables := Tables.empty.applyBalanceDelta "alice" 1000 }

def sampleLock : LockRequest := { fromAddr := "alice", toChain := "eth", toAddr := "0xbob", amount := .float 100 }

theorem locks_accounted_first :
    Accounted sampleNode fundedBridge.tables (sampleNode.step (.lock sampleLock 0 0 true) ⟨fundedBridge, []⟩) := by
  refine ((locks_accounted sampleNode fundedBridge rfl [.lock sampleLock 0 0 true] ⟨trivial, trivial⟩).mpr ⟨?_, trivial⟩).1.1
  intro h _
  exact ⟨rfl, by decide +kernel, fun j row hrow => (by cases hrow)⟩

/-- The helper makes the id of what it is told, so the second lock takes the place of the first. -/
theorem equal_locks_collide : ¬ ∀ (b : BridgeNode) (db : BridgeDb) (ops : List BridgeOp), db.bridgeLocks = .empty →
    Along b.step Delivered ops ⟨db, []⟩ →
      Along b.step (fun op s => Accounted b db.tables (b.step op s) ∧ Moves b op s) ops ⟨db, []⟩ := by
  intro h
  obtain ⟨-, ⟨hsecond, -⟩, -⟩ := h sampleNode fundedBridge [.lock sampleLock 0 0 true, .lock sampleLock 1 0 true] rfl
    ⟨trivial, trivial, trivial⟩
  have hown := hsecond.own
  revert hown
  decide +kernel

end BridgeNode

end AbsoluteChain
