import AbsoluteChain.EvmAdapter
import AbsoluteChain.Slashing
import AbsoluteChain.Wallet

/-!
# The chain

`core/blockchain.py`: validation and execution of transactions and blocks, import
from peers, and the reorganisation that replays the chain from its allocation.
-/

namespace AbsoluteChain

open Python JsonText Actions Transactions

structure Blockchain where
  host : Host
  config : Config
  poolLocks : Bool
  evm : Bool
  stateRootBaseline : Int

namespace Blockchain

def plain : Blockchain := { host := .plain, config := {}, poolLocks := false, evm := false, stateRootBaseline := 0 }

variable (c : Blockchain) (now : Int)

def adapter : EvmAdapter := { host := c.host, config := c.config, now := now }

/-! ## State root -/

def storageText (s : Storage) : String :=
  let entry (e : Nat × Nat) : List Char := '"' :: intChars e.1 ++ ['"', ':', ' '] ++ intChars e.2
  String.ofList ('{' :: List.intercalate [',', ' '] (s.map entry) ++ ['}'])

def accountRow (address : String) (a : Account) : Json ℚ :=
  let code := a.code.getD ""
  dict [("a", .str address), ("b", .float (roundTo 12 a.balance)), ("n", .int a.nonce),
    ("c", .str (if code = "" then "" else hashData code)), ("s", .str (hashData (storageText (a.storage.getD []))))]

def accountsJson (t : Tables) : Json ℚ := list (t.accounts.rows.map fun e => accountRow e.1 e.2)

def computeStateRoot (t : Tables) : String := hashData (c.host.compactJson (accountsJson t))

inductive RootMode where
  | strict | legacyWarn | skip
  deriving DecidableEq

def stateRootCheckMode (height : Int) (peerRoot : String) (preservePeer : Bool) : RootMode :=
  let peerRoot := strip peerRoot
  if ¬ c.config.verifyPeerStateRoot then .skip
  else if peerRoot = "" then .skip
  else if peerRoot.length < 64 then .legacyWarn
  else if preservePeer ∧ ¬ c.config.stateRootStrictP2p then .legacyWarn
  else if height ≤ c.stateRootBaseline then .legacyWarn
  else .strict

/-! ## Transactions -/

structure Charge where
  fee : ℚ
  burned : ℚ
  minerFee : ℚ

def charge (fee : ℚ) : Charge :=
  let burned := fee * c.config.burnRate
  { fee, burned, minerFee := fee - burned }

def gasFee (gas : Int) : ℚ := gas * c.config.gasPriceWei

def isDeployData (data : String) : Bool :=
  let deployData := strip data
  let hexBody := removeHexPrefixes deployData
  deployData ≠ "" ∧ 4 ≤ hexBody.length ∧ hexBody.length % 2 = 0

def isEvmDeployTx (t : Tables) (tx : Transaction) : Bool :=
  tx.data ≠ "" ∧ c.evm ∧ EvmAdapter.codeOf t tx.toAddr = none ∧ isDeployData tx.data

def validateEvmDeployBytecode (t : Tables) (tx : Transaction) : Except String Unit :=
  if isEvmDeployTx c t tx then
    match validateBytecodeHex tx.data with
    | .ok _ => .ok ()
    | .error name => .error ("unsupported_evm_bytecode:" ++ name)
  else .ok ()

def checkPool (t : Tables) (fromAddr : String) (amount balance : ℚ) : Except String Unit :=
  if c.poolLocks then
    match outgoingRefusal t fromAddr amount balance with
    | some reason => .error reason
    | none => .ok ()
  else .ok ()

def require (ok : Bool) (error : String) : Except String Unit := if ok then .ok () else .error error

def validateTransaction (t : Tables) (tx : Transaction) : Except String Unit := do
  require (tx.fromAddr ≠ "" ∧ tx.toAddr ≠ "") "missing_address"
  require (0 ≤ tx.value.toRat) "negative_value"
  require (c.config.baseGasPrice ≤ tx.gas) "gas_too_low"
  let expected := t.getNonce tx.fromAddr
  require (tx.nonce = expected) ("nonce_mismatch (got " ++ strInt tx.nonce ++ ", expected " ++ strInt expected ++ ")")
  let balance := t.getBalance tx.fromAddr
  let totalCost := tx.value.toRat + c.gasFee tx.gas
  require (totalCost ≤ balance) "insufficient_funds"
  c.checkPool t tx.fromAddr totalCost balance
  verifyTxSignature c.host c.config tx
  c.validateEvmDeployBytecode t tx

def precheck (t : Tables) (tx : Transaction) : Except String Unit := do
  require (tx.nonce = t.getNonce tx.fromAddr) "nonce_mismatch"
  let balance := t.getBalance tx.fromAddr
  let totalCost := tx.value.toRat + c.gasFee tx.gas
  require (totalCost ≤ balance) "insufficient_funds"
  c.checkPool t tx.fromAddr totalCost balance
  verifyTxSignature c.host c.config tx

def liftExcept {σ α : Type} (r : Except String α) : Act Fault σ α := fun s =>
  match r with
  | .ok a => (.ok a, s)
  | .error e => (.error e, s)

/-- How a transaction is executed: `tx.data` and the target account decide. -/
inductive Kind where
  | call | deploy | transfer
  deriving DecidableEq

def kindOf (t : Tables) (tx : Transaction) : Kind :=
  if tx.data ≠ "" ∧ c.evm then
    if EvmAdapter.codeOf t tx.toAddr ≠ none then .call
    else if isDeployData tx.data then .deploy
    else .transfer
  else .transfer

def feeRecipient (proposer : String) : String := orElse (orElse proposer c.config.minerAddress) "genesis"

def settle (tx : Transaction) (proposer : String) (ch : Charge) : Act Fault Db Unit := do
  balanceDelta proposer ch.minerFee
  Act.when (0 < ch.burned ∧ c.config.burnAddress ≠ "") (balanceDelta c.config.burnAddress ch.burned)
  nonceIncrement tx.fromAddr

def recordPoolOutgoing (fromAddr : String) (amount : ℚ) : Act Fault Db Unit :=
  Act.when c.poolLocks (recordOutgoing fromAddr amount)

def markApplied (tx : Transaction) (height : Int) (ch : Charge) (gasUsed : Int) : Transaction :=
  { tx with fee := ch.fee, burned := ch.burned, gasUsed := gasUsed, blockHeight := height }

def runContract (kind : Kind) (tx : Transaction) (height : Int) : Act Fault Db EvmAdapter.EvmResult :=
  let gasLimit := if tx.gas = 0 then c.config.evmGasLimit else tx.gas
  match kind with
  | .call => (c.adapter now).callContract tx.fromAddr tx.toAddr tx.data tx.value.toRat gasLimit
  | _ => (c.adapter now).deployContract tx.fromAddr (strip tx.data) tx.value.toRat gasLimit
      (strInt height ++ ":" ++ strInt tx.nonce ++ ":" ++ tx.hash)

def contractFailure : Kind → String
  | .call => "evm_call_failed"
  | _ => "evm_deploy_failed"

def contractShortfall : Kind → String
  | .call => "insufficient_funds_for_gas"
  | _ => "insufficient_funds_for_deploy"

def applyContract (kind : Kind) (tx : Transaction) (height : Int) (proposer : String) (senderBalance : ℚ) :
    Act Fault Db Transaction := do
  let res ← c.runContract now kind tx height
  if ¬ res.success then Act.raise (orElse res.error (contractFailure kind))
  else do
    let ch := c.charge (max (c.gasFee tx.gas) (c.gasFee res.gasUsed))
    if senderBalance < ch.fee + tx.value.toRat then Act.raise (contractShortfall kind)
    else do
      balanceDelta tx.fromAddr (-ch.fee)
      c.settle tx proposer ch
      c.recordPoolOutgoing tx.fromAddr (ch.fee + tx.value.toRat)
      pure (markApplied tx height ch (if res.gasUsed = 0 then tx.gas else res.gasUsed))

def applyTransfer (tx : Transaction) (height : Int) (proposer : String) : Act Fault Db Transaction := do
  let ch := c.charge (c.gasFee tx.gas)
  let totalCost := tx.value.toRat + ch.fee
  balanceDelta tx.fromAddr (-totalCost)
  balanceDelta tx.toAddr tx.value.toRat
  c.settle tx proposer ch
  c.recordPoolOutgoing tx.fromAddr totalCost
  pure (markApplied tx height ch tx.gas)

def applyTransaction (tx : Transaction) (height : Int) (proposer : String) : Act Fault Db Transaction := do
  let t ← query id
  liftExcept (c.precheck t tx)
  match c.kindOf t tx with
  | .transfer => c.applyTransfer tx height (c.feeRecipient proposer)
  | kind => c.applyContract now kind tx height (c.feeRecipient proposer) (t.getBalance tx.fromAddr)

def applyTransactions (height : Int) (proposer : String) : List Transaction → Act Fault Db (List Transaction)
  | [] => pure []
  | tx :: rest => do
    let tx' ← c.applyTransaction now tx height proposer
    let rest' ← applyTransactions height proposer rest
    pure (tx' :: rest')

def rewardFor (t : Tables) : ℚ :=
  let supply := t.getTotalSupply
  if c.config.maxSupply < supply + c.config.blockReward then max 0 (c.config.maxSupply - supply)
  else c.config.blockReward

def applyBlockReward (proposer : String) : Act Fault Db ℚ := do
  let reward ← query c.rewardFor
  Act.when (0 < reward) (balanceDelta proposer reward)
  pure reward

/-! ## Checks on a block -/

def validateBlockStructure (t : Tables) (b : Block) : Except String Unit :=
  match t.getLastBlock with
  | some last =>
    if b.height ≠ last.height + 1 then
      .error ("height_mismatch (got " ++ strInt b.height ++ ", expected " ++ strInt (last.height + 1) ++ ")")
    else if b.parentHash ≠ last.hash then .error "parent_hash_mismatch"
    else .ok ()
  | none => if b.height = 0 ∨ b.height = 1 then .ok () else .error "expected_genesis_height_0_or_1"

def verifyBlockProposer (t : Tables) (slashing : Option SlashingEngine) (b : Block) : Except String Unit :=
  if b.miner = "" ∨ b.miner = "genesis" then .ok ()
  else if (slashing.map fun e => decide (b.miner ∈ e.slashed)).getD false then .error "proposer_slashed"
  else if ¬ c.config.enforceProposer then .ok ()
  else
    let validators := t.getValidators
    if validators.length ≤ 1 then .ok ()
    else
      let own := [c.config.minerAddress, c.config.signingAddress].filter fun a => a ≠ ""
      let allowed := (validators.map Prod.fst ++ own).map c.host.lower
      if c.host.lower b.miner ∈ allowed then .ok () else .error "unauthorized_proposer"

def validateBlock (t : Tables) (slashing : Option SlashingEngine) (b : Block) : Except String Unit := do
  validateBlockStructure t b
  require (b.hash = b.computeHash) "invalid_hash"
  c.verifyBlockProposer t slashing b

/-! ## Adding a block -/

def checkPeerRoot (b : Block) (preserve : Bool) (computed : String) : Act Fault Node Unit :=
  if preserve ∧ b.stateRoot ≠ "" then
    let peerRoot := strip b.stateRoot
    if c.stateRootCheckMode b.height b.stateRoot preserve = .strict ∧ peerRoot ≠ computed then
      Act.raise
        { text := "state_root_mismatch expected=" ++ String.ofList (peerRoot.toList.take 16) ++ " computed=" ++
            String.ofList (computed.toList.take 16)
          roots := some (peerRoot, computed) }
    else pure ()
  else pure ()

def checkProposal (b : Block) : Act Fault Node Unit := do
  let slashing ← Act.read Node.slashing
  match slashing with
  | none => pure ()
  | some engine =>
    if b.miner = "" ∨ b.miner = "genesis" then pure ()
    else do
      let fresh ← recordProposal now b.miner b.height engine
      if fresh then pure () else Act.raise "double_proposal"

def sealBlock (b : Block) (txs : List Transaction) (root : String) (preserve : Bool) : Block :=
  let b' := { b with transactions := txs, totalBurned := (txs.map Transaction.burned).sum, stateRoot := root }
  { b' with hash := if preserve ∧ b.hash ≠ "" then b.hash else b'.computeHash }

def executeBlock (b : Block) (preserve : Bool) : Act Fault Node Block := do
  let txs ← onDb (c.applyTransactions now b.height b.miner b.transactions)
  let _ ← onDb (c.applyBlockReward b.miner)
  let root ← onDb (query c.computeStateRoot)
  c.checkPeerRoot b preserve root
  let b' := sealBlock b txs root preserve
  checkProposal now b'
  let stored : Block := { b' with transactions := b'.transactions.map fun tx => { tx with blockHeight := b.height } }
  onDb (persistBlockLocked c.host now stored.toDict (stored.transactions.map Transaction.toDict) stored.totalBurned
    (if 0 < stored.totalBurned then c.config.burnAddress else ""))
  pure stored

/-- The checks before any statement is issued. -/
def admitBlock (n : Node) (b : Block) : Except String Unit := do
  let t := n.db.live
  require (fitsInt64 b.height) "Python int too large to convert to SQLite INTEGER"
  require (t.getBlock b.height = none) "block_exists"
  validateBlockStructure t b
  c.verifyBlockProposer t n.slashing b
  verifyBlockTxSignatures c.host c.config b.transactions

def auditMismatch (b : Block) (preserve : Bool) (f : Fault) : Act Fault Node Unit :=
  match f.roots with
  | none => pure ()
  | some (peerRoot, computed) =>
    Act.attempt
      (onDb (recordStateRootMismatch c.host now b.height peerRoot computed (if preserve then "p2p" else "local") b.miner))
      fun _ => pure ()

def nestedTransaction : Fault := "cannot start a transaction within a transaction"

/-- `add_block`. It returns the block it stored; raising stands for `False`. -/
def addBlock (b : Block) (preserve : Bool) : Act Fault Node Block := do
  let n ← Act.read id
  liftExcept (c.admitBlock n b)
  Act.attempt (atomically nestedTransaction Node.dbPart (c.executeBlock now b preserve)) fun f => do
    c.auditMismatch now b preserve f
    Act.raise f

/-! ## Importing a peer's block -/

def fill {α : Type} (key other : Option α) : Option α := if key.isNone then other else key

def normalizeTxDict (d : PeerTx) : PeerTx :=
  { d with
    fromAddr := fill d.fromAddr d.fromShort
    toAddr := fill d.toAddr d.toShort
    value := fill d.value d.amount }

def normalizeBlockDict (d : PeerBlock) : PeerBlock :=
  { d with
    height := fill d.height d.number
    miner := fill d.miner d.proposer
    transactions := some ((d.transactions.getD []).map normalizeTxDict) }

def validateTransactionShape (d : PeerTx) : Except String Unit := do
  require (field d.hash d.txHash "" ≠ "" ∨ d.txHash.isSome) "Missing field: hash"
  require (field d.fromShort d.fromAddr "" ≠ "" ∨ d.fromAddr.isSome) "Missing field: from"
  require (field d.toShort d.toAddr "" ≠ "" ∨ d.toAddr.isSome) "Missing field: to"
  require d.nonce.isSome "Missing field: nonce"
  require (0 ≤ (field d.value d.amount (.int 0)).toRat) "Negative value"

def validateShapes : List PeerTx → Except String Unit
  | [] => .ok ()
  | d :: t =>
    match validateTransactionShape d with
    | .error msg => .error ("Invalid transaction " ++ field d.hash d.txHash "" ++ ": " ++ msg)
    | .ok _ => validateShapes t

def txRootMatches (claimed computed : String) : Bool := claimed.toList.isPrefixOf computed.toList

def blockValidator (d : PeerBlock) (parent : Option BlockDict) : Except String Unit := do
  let number := d.number.getD (d.height.getD 0)
  let txs := d.transactions.getD []
  require d.parentHash.isSome "Missing field: parent_hash"
  require d.timestamp.isSome "Missing field: timestamp"
  let timestamp := d.timestamp.getD 0
  require (number ≤ 1 ∨ parent.isSome) "Parent block not found"
  match parent with
  | none => require (timestamp ≤ now + 120) "Timestamp too far in future"
  | some p => do
    require (d.parentHash = some p.hash) "Parent hash mismatch"
    require (number = p.height + 1) ("Invalid block number: " ++ strInt number)
    require (timestamp ≤ now + 120) "Timestamp too far in future"
    require (p.timestamp ≤ timestamp) "Timestamp regressed"
  validateShapes txs
  let claimed := d.txRoot.getD ""
  let computed := merkleRoot (txs.map fun tx => field tx.hash tx.txHash "")
  require (claimed = "" ∨ txs = [] ∨ txRootMatches claimed computed) ("Tx root mismatch: expected " ++ computed)

def truncateAllBlocks : Act Fault Db Unit :=
  atomically nestedTransaction Act.Part.whole (statement Tables.deleteBlocks)

def truncateToHeight (height : Int) : Act Fault Db Unit :=
  atomically nestedTransaction Act.Part.whole do
    bindInts [height]
    statement (Tables.deleteBlocksAbove height)

def importFresh (d : PeerBlock) : Act Fault Node Block := do
  let last ← onDb (query Tables.getLastBlock)
  liftExcept (blockValidator now d last)
  c.addBlock now (Block.fromDict c.host now d) true

/-- `import_block`. A stored genesis block with another hash makes it drop the whole chain first. -/
def importBlock (block : PeerBlock) : Act Fault Node Block := do
  let d := normalizeBlockDict block
  let height := field d.height d.number 0
  liftExcept (require (fitsInt64 height) "Python int too large to convert to SQLite INTEGER")
  let existing ← onDb (query fun t => t.getBlock height)
  match existing with
  | none => c.importFresh now d
  | some e =>
    if height = 0 ∧ d.hash ≠ some e.hash then do
      onDb truncateAllBlocks
      c.importFresh now d
    else Act.raise "block_exists"

/-! ## Reorganisation -/

def replayBlocks : Nat → Int → Act Fault Db Unit
  | 0, _ => pure ()
  | n + 1, h => do
    let row ← query fun t => t.getBlock h
    match row with
    | none => Act.raise ("missing_block_at_replay_" ++ strInt h)
    | some d => do
      let b := Block.fromDict c.host now d.asPeer
      let _ ← c.applyTransactions now b.height b.miner b.transactions
      let _ ← c.applyBlockReward b.miner
      replayBlocks n (h + 1)

def checkReplayRoot (cut : Int) : Act Fault Db Unit := do
  let t ← query id
  match t.getBlock cut with
  | none => pure ()
  | some d =>
    if d.stateRoot ≠ "" ∧ d.stateRoot ≠ c.computeStateRoot t then Act.raise "reorg_state_root_mismatch" else pure ()

def replayFromGenesis (cut tip : Int) : Act Fault Db Unit := do
  bindInts [cut]
  Act.when (cut < tip) (statement (Tables.deleteAbove cut))
  statement (Tables.resetAccounts (genesisBalances c.config.founderAddress))
  c.replayBlocks now cut.toNat 1
  c.checkReplayRoot cut

def reorgToAncestor (floor ancestorHeight : Int) : Act Fault Db Unit := do
  if 0 < floor ∧ ancestorHeight < floor then Act.raise "reorg_below_finalized_floor"
  else do
    let tip ← query Tables.getChainTip
    if tip < ancestorHeight then pure ()
    else atomically nestedTransaction Act.Part.whole (c.replayFromGenesis now ancestorHeight tip)

def ensureStateAtTip (floor : Int) : Act Fault Db Unit := do
  let t ← query id
  let h := t.getChainTip
  if h ≤ 0 then pure ()
  else
    match t.getBlock h with
    | none => pure ()
    | some tip =>
      let expected := strip tip.stateRoot
      if expected = "" ∨ c.computeStateRoot t = expected then pure () else c.reorgToAncestor now floor h

end Blockchain

end AbsoluteChain
