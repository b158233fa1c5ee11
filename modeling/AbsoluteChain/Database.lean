import AbsoluteChain.Act
import AbsoluteChain.Table
import AbsoluteChain.Txn
import AbsoluteChain.Chain

/-!
# The database

The tables of `storage/database.py` that block execution reads or writes, and the
statements issued on them. A helper that calls `conn.commit()` is a `committed`
statement, one that leaves the transaction open is a plain `statement`.
-/

namespace AbsoluteChain

open Python KeyedTable Transactions Actions

/-! ## Rows -/

/-- Contract storage; its column holds `json.dumps` of this dictionary. -/
abbrev Storage := Dict Nat Nat

structure Account where
  balance : ℚ
  nonce : Nat
  code : Option String
  storage : Option Storage
  deriving DecidableEq

structure TxRow where
  blockHeight : Int
  fromAddr : String
  toAddr : String
  value : Python.Num
  gas : Int
  gasUsed : Int
  fee : ℚ
  burned : ℚ
  nonce : Int
  txData : String
  status : Int
  timestamp : Int
  deriving DecidableEq

structure TxReceipt where
  blockHeight : Int
  blockHash : String
  fromAddr : String
  toAddr : String
  value : ℚ
  fee : ℚ
  burned : ℚ
  gasUsed : Int
  status : Int
  createdAt : Int
  deriving DecidableEq

structure Validator where
  stake : ℚ
  active : Bool
  slashed : Bool
  joinedAt : Int
  deriving DecidableEq

structure BurnRow where
  burnedAmount : ℚ
  totalBurned : ℚ
  deriving DecidableEq

structure ProposerAudit where
  blockHash : String
  proposer : String
  txCount : Int
  totalBurned : ℚ
  blockTs : Int
  recordedAt : Int
  deriving DecidableEq

structure EvmLogRow where
  contractAddress : String
  blockHeight : Int
  txHash : String
  logIndex : Nat
  topics : List Nat
  data : Bytes
  timestamp : Int
  deriving DecidableEq

structure StateRootMismatch where
  height : Int
  expectedRoot : String
  computedRoot : String
  source : String
  proposer : String
  createdAt : Int
  deriving DecidableEq

inductive PoolId where
  | founder | ecosystem | treasury | staking | mining
  deriving DecidableEq

structure PoolInfo where
  id : PoolId
  name : String
  locked : Bool
  total : ℚ
  released : ℚ
  spent : ℚ
  daoUnlocked : Bool
  daoVotes : Dict String Bool
  deriving DecidableEq

structure PoolLocksState where
  pools : Dict String PoolInfo
  stakingEpochsReleased : Int
  lastEpoch : Int
  deriving DecidableEq

structure Tables where
  accounts : Table String Account
  blocks : Table Int BlockDict
  transactions : Table String TxRow
  txReceipts : Table String TxReceipt
  burnStats : Table Int BurnRow
  proposerAudit : Table Int ProposerAudit
  validators : Table String Validator
  poolLocks : Option PoolLocksState
  evmLogs : List EvmLogRow
  stateRootMismatches : List StateRootMismatch
  deriving DecidableEq

def Tables.empty : Tables :=
  { accounts := .empty, blocks := .empty, transactions := .empty, txReceipts := .empty, burnStats := .empty,
    proposerAudit := .empty, validators := .empty, poolLocks := none, evmLogs := [], stateRootMismatches := [] }

abbrev Db := Store Tables

/-! ## Queries -/

namespace Tables

def getAccount (t : Tables) (address : String) : Option Account := t.accounts.get? address

def getBalance (t : Tables) (address : String) : ℚ := ((t.getAccount address).map Account.balance).getD 0

def getNonce (t : Tables) (address : String) : Nat := ((t.getAccount address).map Account.nonce).getD 0

def getTotalSupply (t : Tables) : ℚ := t.accounts.sum Account.balance

def getBlock (t : Tables) (height : Int) : Option BlockDict := t.blocks.get? height

def getLastBlock (t : Tables) : Option BlockDict := t.blocks.last?.map Prod.snd

/-- `COALESCE(MAX(height), 0)`. -/
def getChainTip (t : Tables) : Int := (t.blocks.last?.map Prod.fst).getD 0

def getValidators (t : Tables) : List (String × Validator) := t.validators.rows.filter fun v => v.2.active && !v.2.slashed

def getTotalBurned (t : Tables) : ℚ :=
  match t.burnStats.rows.map fun e => e.2.totalBurned with
  | [] => 0
  | q :: l => l.foldl max q

/-! ## Statements on accounts -/

def applyBalanceDelta (address : String) (delta : ℚ) (t : Tables) : Tables :=
  { t with accounts := t.accounts.upsert address fun
      | none => { balance := max 0 delta, nonce := 0, code := none, storage := none }
      | some a => { a with balance := max 0 (a.balance + delta) } }

def incrementNonce (address : String) (t : Tables) : Tables :=
  { t with accounts := t.accounts.upsert address fun
      | none => { balance := 0, nonce := 1, code := none, storage := none }
      | some a => { a with nonce := a.nonce + 1 } }

def saveAccount (address : String) (a : Account) (t : Tables) : Tables :=
  { t with accounts := t.accounts.put address a }

def updateAccountStorage (address : String) (storage : Storage) (t : Tables) : Tables :=
  { t with accounts := t.accounts.update address fun a => { a with storage := some storage } }

/-! ## Statements on the other tables -/

def slashValidator (address : String) (t : Tables) : Tables :=
  { t with validators := t.validators.update address fun v => { v with slashed := true, active := false } }

def setPoolLocks (state : PoolLocksState) (t : Tables) : Tables := { t with poolLocks := some state }

/-- `INSERT OR REPLACE` on a table keyed by height whose `hash` column is unique. -/
def putBlock (b : BlockDict) (t : Tables) : Tables :=
  { t with blocks := (t.blocks.keep fun _ r => r.hash ≠ b.hash).put b.height b }

def insertBurnRecord (height : Int) (amount : ℚ) (t : Tables) : Tables :=
  let row : BurnRow := { burnedAmount := amount, totalBurned := t.getTotalBurned + amount }
  { t with burnStats := t.burnStats.put height row }

def deleteBlocks (t : Tables) : Tables := { t with blocks := .empty }

def deleteBlocksAbove (cut : Int) (t : Tables) : Tables := { t with blocks := t.blocks.keep fun h _ => h ≤ cut }

def deleteAbove (cut : Int) (t : Tables) : Tables :=
  { t with
    transactions := t.transactions.keep fun _ r => r.blockHeight ≤ cut
    txReceipts := t.txReceipts.keep fun _ r => r.blockHeight ≤ cut
    proposerAudit := t.proposerAudit.keep fun h _ => h ≤ cut
    stateRootMismatches := t.stateRootMismatches.filter fun r => r.height ≤ cut
    burnStats := t.burnStats.keep fun h _ => h ≤ cut
    blocks := t.blocks.keep fun h _ => h ≤ cut }

def resetAccounts (alloc : Dict String Int) (t : Tables) : Tables :=
  let credit (acc : Table String Account) (e : String × Int) : Table String Account :=
    acc.put e.1 { balance := e.2, nonce := 0, code := none, storage := none }
  { t with accounts := alloc.foldl credit .empty }

end Tables

/-! ## Access through the connection -/

structure Fault where
  text : String
  roots : Option (String × String) := none
  deriving DecidableEq

instance : Coe String Fault := ⟨fun text => { text := text }⟩

def query {α : Type} (f : Tables → α) : Act Fault Db α := Act.read fun db => f db.live

def statement (f : Tables → Tables) : Act Fault Db Unit := Act.write (Store.exec f)

/-- A statement with its own `conn.commit()`. -/
def committed (f : Tables → Tables) : Act Fault Db Unit := Act.write (Store.write f)

def balanceDelta (address : String) (delta : ℚ) : Act Fault Db Unit := statement (Tables.applyBalanceDelta address delta)

def nonceIncrement (address : String) : Act Fault Db Unit := statement (Tables.incrementNonce address)

def updateBalance (address : String) (delta : ℚ) : Act Fault Db Unit := committed (Tables.applyBalanceDelta address delta)

def saveAccount (address : String) (a : Account) : Act Fault Db Unit := committed (Tables.saveAccount address a)

def updateAccountStorage (address : String) (storage : Storage) : Act Fault Db Unit :=
  committed (Tables.updateAccountStorage address storage)

/-- SQLite integers have 64 bits; binding a larger one raises. -/
def fitsInt64 (n : Int) : Bool := -9223372036854775808 ≤ n && n < 9223372036854775808

def bindInts (l : List Int) : Act Fault Db Unit :=
  if l.all fitsInt64 then pure () else Act.raise "Python int too large to convert to SQLite INTEGER"

structure EvmLog where
  topics : List Nat
  data : Bytes
  deriving DecidableEq

def Tables.appendEvmLogs (address : String) (logs : List EvmLog) (height : Int) (txHash : String) (ts : Int)
    (t : Tables) : Tables :=
  let base := t.evmLogs.countP fun r => r.contractAddress = address
  let row (i : Nat) (l : EvmLog) : EvmLogRow :=
    { contractAddress := address, blockHeight := height, txHash := txHash, logIndex := base + i, topics := l.topics,
      data := l.data, timestamp := ts }
  { t with evmLogs := t.evmLogs ++ logs.mapIdx row }

def saveEvmLogs (now : Int) (address : String) (logs : List EvmLog) (height : Int) (txHash : String) : Act Fault Db Unit :=
  if logs = [] then pure () else committed (Tables.appendEvmLogs address logs height txHash now)

def normalizeAddress (host : Host) (address : String) : String := host.lower (strip address)

/-! ## Persisting a block -/

def insertProposerAudit (host : Host) (now : Int) (b : BlockDict) : Act Fault Db Unit :=
  let row : ProposerAudit :=
    { blockHash := b.hash, proposer := normalizeAddress host (orElse b.miner "genesis"), txCount := b.txCount,
      totalBurned := b.totalBurned, blockTs := b.timestamp, recordedAt := now }
  statement fun t => { t with proposerAudit := t.proposerAudit.put b.height row }

def insertBlock (host : Host) (now : Int) (b : BlockDict) : Act Fault Db Unit := do
  bindInts [b.height, b.timestamp, b.txCount, b.gasUsed]
  statement (Tables.putBlock b)
  insertProposerAudit host now b

def txRow (host : Host) (tx : TxDict) : TxRow :=
  { blockHeight := tx.blockHeight, fromAddr := normalizeAddress host tx.fromAddr,
    toAddr := normalizeAddress host tx.toAddr, value := tx.value, gas := tx.gas, gasUsed := tx.gasUsed, fee := tx.fee,
    burned := tx.burned, nonce := tx.nonce, txData := tx.data, status := 1, timestamp := tx.timestamp }

def numInts : Python.Num → List Int
  | .int n => [n]
  | .float _ => []

def insertTransaction (host : Host) (tx : TxDict) : Act Fault Db Unit := do
  bindInts ([tx.blockHeight, tx.gas, tx.gasUsed, tx.nonce, tx.timestamp] ++ numInts tx.value)
  statement fun t => { t with transactions := t.transactions.put tx.hash (txRow host tx) }

def receiptRow (host : Host) (tx : TxDict) (blockHash : String) (blockHeight : Int) : TxReceipt :=
  { blockHeight := if tx.blockHeight = 0 then blockHeight else tx.blockHeight, blockHash := blockHash,
    fromAddr := normalizeAddress host tx.fromAddr, toAddr := normalizeAddress host tx.toAddr,
    value := tx.value.toRat, fee := tx.fee, burned := tx.burned, gasUsed := tx.gasUsed, status := 1,
    createdAt := tx.timestamp }

def insertTxReceipt (host : Host) (tx : TxDict) (blockHash : String) (blockHeight : Int) : Act Fault Db Unit := do
  if tx.hash = "" then pure ()
  else
    bindInts [tx.blockHeight, tx.gasUsed, tx.timestamp]
    statement fun t => { t with txReceipts := t.txReceipts.put tx.hash (receiptRow host tx blockHash blockHeight) }

def insertTransactions (host : Host) (blockHash : String) (blockHeight : Int) : List TxDict → Act Fault Db Unit
  | [] => pure ()
  | tx :: t => do
    insertTransaction host tx
    insertTxReceipt host tx blockHash blockHeight
    insertTransactions host blockHash blockHeight t

def persistBlockLocked (host : Host) (now : Int) (b : BlockDict) (txs : List TxDict) (burnedAmount : ℚ)
    (burnAddress : String) : Act Fault Db Unit := do
  insertBlock host now b
  insertTransactions host b.hash b.height txs
  Act.when (0 < burnedAmount) do
    statement (Tables.insertBurnRecord b.height burnedAmount)
    Act.when (burnAddress ≠ "") (statement (Tables.applyBalanceDelta burnAddress burnedAmount))

def recordStateRootMismatch (host : Host) (now height : Int) (expected computed source proposer : String) :
    Act Fault Db Unit := do
  bindInts [height]
  let row : StateRootMismatch :=
    { height := height, expectedRoot := expected, computedRoot := computed, source := source,
      proposer := normalizeAddress host proposer, createdAt := now }
  committed fun t => { t with stateRootMismatches := t.stateRootMismatches ++ [row] }

end AbsoluteChain
