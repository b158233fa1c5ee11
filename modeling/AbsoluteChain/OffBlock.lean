import AbsoluteChain.BridgeLocks
import AbsoluteChain.Doubles

/-!
# Balances outside blocks

`features/lightning.py`, `features/plasma.py` and `features/crypto_will.py` take coins
from an account with `update_balance`, keep a record of them in a table of their own,
and pay them back later. Each keeps its records in memory too, read when the node starts.
-/

namespace AbsoluteChain

open Python KeyedTable

/-! ## Records -/

inductive ChannelStatus where
  | open | closed
  deriving DecidableEq

structure LightningChannel where
  node1 : String
  node2 : String
  capacity : ℚ
  balance1 : ℚ
  balance2 : ℚ
  status : ChannelStatus
  createdAt : Int
  feeRate : ℚ

inductive DepositStatus where
  | confirmed | exiting | exited
  deriving DecidableEq

structure PlasmaDeposit where
  fromAddr : String
  amount : ℚ
  createdAt : Int
  status : DepositStatus

inductive ExitStatus where
  | pending | finalized
  deriving DecidableEq

structure PlasmaExit where
  depositId : String
  user : String
  amount : ℚ
  createdAt : Int
  status : ExitStatus

structure PlasmaTx where
  deposit : Bool
  fromAddr : String
  toAddr : String
  amount : ℚ

inductive WillStatus where
  | pending | cancelled | executed
  deriving DecidableEq

structure CryptoWill where
  owner : String
  heir : String
  amount : ℚ
  executionTime : Int
  createdAt : Int
  status : WillStatus

/-- The tables of the features. -/
structure Ledgers where
  lightningChannels : Table String LightningChannel
  plasmaDeposits : Table String PlasmaDeposit
  plasmaExits : Table String PlasmaExit
  plasmaBlocks : Table Nat (List PlasmaTx)
  plasmaPendingTxs : List PlasmaTx
  cryptoWills : Table String CryptoWill
  bridgeCredits : Table String BridgeCredit
  bridgeLocks : Table String BridgeLock

def Ledgers.empty : Ledgers :=
  { lightningChannels := .empty, plasmaDeposits := .empty, plasmaExits := .empty, plasmaBlocks := .empty,
    plasmaPendingTxs := [], cryptoWills := .empty, bridgeCredits := .empty, bridgeLocks := .empty }

structure Memory where
  channels : Table String LightningChannel
  deposits : Dict String PlasmaDeposit
  exitRequests : Table String PlasmaExit
  blocks : List (List PlasmaTx)
  pendingTxs : List PlasmaTx
  wills : Table String CryptoWill

structure Holdings where
  tables : Tables
  ledgers : Ledgers
  memory : Memory
  real : ℚ → ℚ := id

namespace Holdings

def updateBalance (address : String) (delta : ℚ) (s : Holdings) : Holdings :=
  { s with tables := s.tables.applyRealDelta s.real address delta }

def debit (address : String) (amount : ℚ) (s : Holdings) : Option Holdings :=
  if amount ≤ 0 ∨ s.tables.getBalance address < amount then none else some (s.updateBalance address (-amount))

def credit (address : String) (amount : ℚ) (s : Holdings) : Option Holdings :=
  if amount ≤ 0 then none else some (s.updateBalance address amount)

def saveChannel (id : String) (ch : LightningChannel) (s : Holdings) : Holdings :=
  { s with
    ledgers := { s.ledgers with lightningChannels := s.ledgers.lightningChannels.put id ch }
    memory := { s.memory with channels := s.memory.channels.put id ch } }

def saveDeposit (id : String) (dep : PlasmaDeposit) (s : Holdings) : Holdings :=
  { s with
    ledgers := { s.ledgers with plasmaDeposits := s.ledgers.plasmaDeposits.put id dep }
    memory := { s.memory with deposits := s.memory.deposits.set id dep } }

def saveExit (id : String) (ex : PlasmaExit) (s : Holdings) : Holdings :=
  { s with
    ledgers := { s.ledgers with plasmaExits := s.ledgers.plasmaExits.put id ex }
    memory := { s.memory with exitRequests := s.memory.exitRequests.put id ex } }

def setPending (txs : List PlasmaTx) (s : Holdings) : Holdings :=
  { s with
    ledgers := { s.ledgers with plasmaPendingTxs := txs.drop (txs.length - 200) }
    memory := { s.memory with pendingTxs := txs } }

theorem tables_setPending (txs : List PlasmaTx) (s : Holdings) : (s.setPending txs).tables = s.tables := by
  unfold setPending
  rfl

theorem real_setPending (txs : List PlasmaTx) (s : Holdings) : (s.setPending txs).real = s.real := by
  unfold setPending
  rfl

def saveBlock (txs : List PlasmaTx) (s : Holdings) : Holdings :=
  { s with
    ledgers := { s.ledgers with plasmaBlocks := s.ledgers.plasmaBlocks.put s.memory.blocks.length txs }
    memory := { s.memory with blocks := s.memory.blocks ++ [txs] } }

def saveWill (id : String) (w : CryptoWill) (s : Holdings) : Holdings :=
  { s with ledgers := { s.ledgers with cryptoWills := s.ledgers.cryptoWills.put id w } }

def holdWill (id : String) (w : CryptoWill) (s : Holdings) : Holdings :=
  { s with memory := { s.memory with wills := s.memory.wills.put id w } }

def dropWill (id : String) (s : Holdings) : Holdings :=
  { s with memory := { s.memory with wills := s.memory.wills.keep fun k _ => k ≠ id } }

end Holdings

structure Features where
  host : Host
  nodeAddress : String
  bridge : BridgeNode

namespace Features

variable (f : Features)

def shortId (parts : List String) (clock : ℚ) : String :=
  String.ofList ((sha256Hex (encode (String.join parts ++ f.host.strNum (.float clock)))).toList.take 16)

/-! ## Lightning -/

def minChannel : ℚ := 1

def maxChannel : ℚ := 10000

def openChannel (peerAddress : String) (capacity clock : ℚ) (now : Int) (s : Holdings) : Option String × Holdings :=
  if capacity < minChannel ∨ maxChannel < capacity then (none, s)
  else if s.tables.getBalance f.nodeAddress < capacity then (none, s)
  else
    let id := f.shortId [f.nodeAddress, peerAddress, f.host.strNum (.float capacity)] clock
    (some id, (s.updateBalance f.nodeAddress (-capacity)).saveChannel id
      { node1 := f.nodeAddress, node2 := peerAddress, capacity := capacity, balance1 := capacity, balance2 := 0,
        status := .open, createdAt := now, feeRate := 1 / 100000 })

def closeChannel (id : String) (s : Holdings) : Bool × Holdings :=
  match s.memory.channels.get? id with
  | none => (false, s)
  | some ch =>
    if ch.status ≠ .open then (false, s)
    else
      (true, ((s.updateBalance ch.node1 ch.balance1).updateBalance ch.node2 ch.balance2).saveChannel id
        { ch with status := .closed })

def pay (ch : LightningChannel) (toNode : String) (amount : ℚ) : Option LightningChannel :=
  let fee := amount * ch.feeRate
  if f.nodeAddress = ch.node1 then
    if toNode ≠ ch.node2 then none
    else if ch.balance1 < amount + fee then none
    else some { ch with balance1 := ch.balance1 - (amount + fee), balance2 := ch.balance2 + amount }
  else if f.nodeAddress = ch.node2 then
    if toNode ≠ ch.node1 then none
    else if ch.balance2 < amount + fee then none
    else some { ch with balance1 := ch.balance1 + amount, balance2 := ch.balance2 - (amount + fee) }
  else none

def sendPayment (id toNode : String) (amount clock : ℚ) (s : Holdings) : Option String × Holdings :=
  if amount ≤ 0 then (none, s)
  else
    match s.memory.channels.get? id with
    | none => (none, s)
    | some ch =>
      if ch.status ≠ .open then (none, s)
      else
        match f.pay ch toNode amount with
        | none => (none, s)
        | some ch' =>
          (some (f.shortId [id, f.nodeAddress, toNode, f.host.strNum (.float amount)] clock), s.saveChannel id ch')

/-! ## Plasma -/

def challengePeriod : ℚ := 7 * 86400

/-- What transactions of the side chain add to the balance of an address, one after the other. -/
def l2Moves (a : String) (txs : List PlasmaTx) : List ℚ :=
  txs.flatMap fun tx =>
    if tx.deposit then []
    else (if tx.fromAddr = a then [-tx.amount] else []) ++ (if tx.toAddr = a then [tx.amount] else [])

def l2Entries (a : String) (m : Memory) : List ℚ :=
  (m.deposits.filter fun e => e.2.fromAddr = a ∧ e.2.status = .confirmed).map (fun e => e.2.amount) ++
    m.blocks.flatMap (l2Moves a) ++ l2Moves a m.pendingTxs

def l2Balance (real : ℚ → ℚ) (a : String) (m : Memory) : ℚ :=
  (l2Entries a m).foldl (fun balance x => real (balance + x)) 0

def deposit (fromAddr : String) (amount : ℚ) (mainTxHash : String) (clock : ℚ) (now : Int) (s : Holdings) :
    Option String × Holdings :=
  match s.debit fromAddr amount with
  | none => (none, s)
  | some s =>
    let id := f.shortId [fromAddr, f.host.strNum (.float amount), mainTxHash] clock
    let tx := { deposit := true, fromAddr := fromAddr, toAddr := fromAddr, amount := amount }
    (some id, (s.saveDeposit id { fromAddr := fromAddr, amount := amount, createdAt := now, status := .confirmed }).setPending
      (s.memory.pendingTxs ++ [tx]))

def submitTransaction (fromAddr toAddr : String) (amount clock : ℚ) (s : Holdings) : Option String × Holdings :=
  if amount ≤ 0 ∨ fromAddr = "" ∨ toAddr = "" then (none, s)
  else if l2Balance s.real fromAddr s.memory < amount then (none, s)
  else
    let tx := { deposit := false, fromAddr := fromAddr, toAddr := toAddr, amount := amount }
    (some (f.shortId [fromAddr, toAddr, f.host.strNum (.float amount)] clock),
      s.setPending (s.memory.pendingTxs ++ [tx]))

def submitBlock (s : Holdings) : Bool × Holdings :=
  if s.memory.pendingTxs = [] then (false, s) else (true, (s.saveBlock s.memory.pendingTxs).setPending [])

def requestExit (depositId user : String) (clock : ℚ) (now : Int) (s : Holdings) : Option String × Holdings :=
  match s.memory.deposits.get? depositId with
  | none => (none, s)
  | some dep =>
    if dep.status ≠ .confirmed ∨ dep.fromAddr ≠ user then (none, s)
    else if l2Balance s.real user s.memory < dep.amount then (none, s)
    else
      let id := f.shortId [depositId, user] clock
      (some id, (s.saveExit id
        { depositId := depositId, user := user, amount := dep.amount, createdAt := now, status := .pending }).saveDeposit
          depositId { dep with status := .exiting })

def finalizeExit (id : String) (force : Bool) (clock : ℚ) (s : Holdings) : Bool × Holdings :=
  match s.memory.exitRequests.get? id with
  | none => (false, s)
  | some req =>
    if req.status ≠ .pending then (false, s)
    else if ¬ force ∧ clock - req.createdAt < challengePeriod then (false, s)
    else
      match s.credit req.user req.amount with
      | none => (false, s)
      | some s =>
        let s := match s.memory.deposits.get? req.depositId with
          | none => s
          | some dep => s.saveDeposit req.depositId { dep with status := .exited }
        (true, s.saveExit id { req with status := .finalized })

/-! ## Wills -/

def minDelay : Int := 86400

def maxDelay : Int := 31536000

def createWill (owner heir : String) (amount : ℚ) (executionDelay : Int) (clock : ℚ) (now : Int) (s : Holdings) :
    Option String × Holdings :=
  match s.debit owner amount with
  | none => (none, s)
  | some s =>
    let id := f.shortId [owner, heir, f.host.strNum (.float amount)] clock
    let w := { owner := owner, heir := heir, amount := amount,
               executionTime := now + max minDelay (min maxDelay executionDelay), createdAt := now, status := .pending }
    (some id, (s.holdWill id w).saveWill id w)

def cancelWill (id owner : String) (s : Holdings) : Bool × Holdings :=
  match s.memory.wills.get? id with
  | none => (false, s)
  | some w =>
    if w.owner ≠ owner ∨ w.status ≠ .pending then (false, s)
    else
      match s.credit owner w.amount with
      | none => (false, s)
      | some s => (true, (s.dropWill id).saveWill id { w with status := .cancelled })

def executeWill (id : String) (force : Bool) (now : Int) (s : Holdings) : Bool × Holdings :=
  match s.memory.wills.get? id with
  | none => (false, s)
  | some w =>
    if w.status ≠ .pending then (false, s)
    else if ¬ force ∧ now < w.executionTime then (false, s)
    else
      match s.credit w.heir w.amount with
      | none => (false, s)
      | some s => (true, (s.saveWill id { w with status := .executed }).dropWill id)

/-! ## The bridge -/

def bridgeCall (op : BridgeOp) (s : Holdings) : BridgeAnswer × Holdings :=
  let r := f.bridge.call op
    { tables := s.tables, bridgeCredits := s.ledgers.bridgeCredits, bridgeLocks := s.ledgers.bridgeLocks }
  (r.1, { s with
    tables := r.2.tables
    ledgers := { s.ledgers with bridgeCredits := r.2.bridgeCredits, bridgeLocks := r.2.bridgeLocks } })

end Features

/-! ## Starting -/

/-- Rows as the database orders them for the queries of a start. -/
structure Scans where
  deposits : List (String × PlasmaDeposit)
  exits : List (String × PlasmaExit)
  wills : List (String × CryptoWill)

/-- A dictionary filled in a loop, where the order of its keys plays no part. -/
def dictOf {ρ : Type} (rows : List (String × ρ)) : Table String ρ := rows.foldl (fun t e => t.put e.1 e.2) .empty

/-- `_load_from_db` of the three features; a side chain without blocks gets its first one. -/
def Ledgers.load (l : Ledgers) (scans : Scans) : Ledgers × Memory :=
  let blocks := (l.plasmaBlocks.rows.drop (l.plasmaBlocks.rows.length - 500)).map Prod.snd
  let memory : Memory :=
    { channels := l.lightningChannels
      deposits := (scans.deposits.take 500).foldl (fun d e => d.set e.1 e.2) []
      exitRequests := dictOf (scans.exits.take 500)
      blocks := if blocks = [] then [[]] else blocks
      pendingTxs := l.plasmaPendingTxs
      wills := dictOf ((scans.wills.take 500).filter fun e => e.2.status ≠ .cancelled) }
  (if blocks = [] then { l with plasmaBlocks := l.plasmaBlocks.put 0 [] } else l, memory)

/-- A change of balances outside blocks, with what its call reads beside the state. -/
inductive OffBlockOp where
  | openChannel (peerAddress : String) (capacity clock : ℚ) (now : Int)
  | closeChannel (id : String)
  | sendPayment (id toNode : String) (amount clock : ℚ)
  | deposit (fromAddr : String) (amount : ℚ) (mainTxHash : String) (clock : ℚ) (now : Int)
  | submitTransaction (fromAddr toAddr : String) (amount clock : ℚ)
  | submitBlock
  | requestExit (depositId user : String) (clock : ℚ) (now : Int)
  | finalizeExit (id : String) (force : Bool) (clock : ℚ)
  | createWill (owner heir : String) (amount : ℚ) (executionDelay : Int) (clock : ℚ) (now : Int)
  | cancelWill (id owner : String)
  | executeWill (id : String) (force : Bool) (now : Int)
  | bridge (op : BridgeOp)

def Features.apply (f : Features) : OffBlockOp → Holdings → Holdings
  | .openChannel peer capacity clock now, s => (f.openChannel peer capacity clock now s).2
  | .closeChannel id, s => (closeChannel id s).2
  | .sendPayment id toNode amount clock, s => (f.sendPayment id toNode amount clock s).2
  | .deposit fromAddr amount mainTxHash clock now, s => (f.deposit fromAddr amount mainTxHash clock now s).2
  | .submitTransaction fromAddr toAddr amount clock, s => (f.submitTransaction fromAddr toAddr amount clock s).2
  | .submitBlock, s => (submitBlock s).2
  | .requestExit depositId user clock now, s => (f.requestExit depositId user clock now s).2
  | .finalizeExit id force clock, s => (finalizeExit id force clock s).2
  | .createWill owner heir amount delay clock now, s => (f.createWill owner heir amount delay clock now s).2
  | .cancelWill id owner, s => (cancelWill id owner s).2
  | .executeWill id force now, s => (executeWill id force now s).2
  | .bridge op, s => (f.bridgeCall op s).2

/-! ## What the calls do to the accounts -/

/-- One table of accounts comes from another by payments, each with its rounding. -/
def Tables.Paid (t u : Tables) : Prop :=
  ∃ payments : List ((ℚ → ℚ) × String × ℚ), u = payments.foldl (fun t p => t.applyRealDelta p.1 p.2.1 p.2.2) t

namespace Tables.Paid

variable {t u v : Tables}

theorem refl (t : Tables) : t.Paid t := ⟨[], rfl⟩

theorem one (real : ℚ → ℚ) (a : String) (d : ℚ) (t : Tables) : t.Paid (t.applyRealDelta real a d) := ⟨[(real, a, d)], rfl⟩

theorem trans (h : t.Paid u) (h' : u.Paid v) : t.Paid v := by
  obtain ⟨ps, rfl⟩ := h
  obtain ⟨rs, rfl⟩ := h'
  exact ⟨ps ++ rs, by rw [List.foldl_append]⟩

theorem keeps {P : Tables → Prop} (hP : ∀ {t} real a d, P t → P (t.applyRealDelta real a d)) (h : t.Paid u) (ht : P t) :
    P u := by
  obtain ⟨ps, rfl⟩ := h
  induction ps generalizing t with
  | nil => exact ht
  | cons p ps ih => exact ih (hP p.1 p.2.1 p.2.2 ht)

end Tables.Paid

namespace Holdings

variable {s s' : Holdings} {address : String} {amount : ℚ}

theorem debit_some (h : s.debit address amount = some s') : s' = s.updateBalance address (-amount) := by
  unfold debit at h
  by_cases hno : amount ≤ 0 ∨ s.tables.getBalance address < amount
  · rw [if_pos hno] at h
    cases h
  · rw [if_neg hno] at h
    exact (Option.some.inj h).symm

theorem credit_some (h : s.credit address amount = some s') : s' = s.updateBalance address amount := by
  unfold credit at h
  by_cases hno : amount ≤ 0
  · rw [if_pos hno] at h
    cases h
  · rw [if_neg hno] at h
    exact (Option.some.inj h).symm

end Holdings

namespace Features

variable (f : Features) (s : Holdings)

theorem paid_openChannel (peer : String) (capacity clock : ℚ) (now : Int) :
    s.tables.Paid (f.openChannel peer capacity clock now s).2.tables := by
  unfold openChannel
  by_cases hsize : capacity < minChannel ∨ maxChannel < capacity
  · rw [if_pos hsize]
    exact .refl _
  · rw [if_neg hsize]
    by_cases hfunds : s.tables.getBalance f.nodeAddress < capacity
    · rw [if_pos hfunds]
      exact .refl _
    · rw [if_neg hfunds]
      exact .one _ _ _ _

theorem paid_closeChannel (id : String) : s.tables.Paid (closeChannel id s).2.tables := by
  unfold closeChannel
  cases s.memory.channels.get? id with
  | none => exact .refl _
  | some ch =>
    dsimp only
    by_cases hopen : ch.status ≠ .open
    · rw [if_pos hopen]
      exact .refl _
    · rw [if_neg hopen]
      exact (Tables.Paid.one _ _ _ _).trans (.one _ _ _ _)

theorem tables_sendPayment (id toNode : String) (amount clock : ℚ) :
    (f.sendPayment id toNode amount clock s).2.tables = s.tables := by
  unfold sendPayment
  by_cases hamount : amount ≤ 0
  · rw [if_pos hamount]
  · rw [if_neg hamount]
    cases s.memory.channels.get? id with
    | none => rfl
    | some ch =>
      dsimp only
      by_cases hopen : ch.status ≠ .open
      · rw [if_pos hopen]
      · rw [if_neg hopen]
        cases f.pay ch toNode amount with
        | none => rfl
        | some ch' => rfl

theorem paid_deposit (fromAddr : String) (amount : ℚ) (mainTxHash : String) (clock : ℚ) (now : Int) :
    s.tables.Paid (f.deposit fromAddr amount mainTxHash clock now s).2.tables := by
  unfold deposit
  cases hd : s.debit fromAddr amount with
  | none => exact .refl _
  | some s' =>
    rw [Holdings.debit_some hd]
    exact .one _ _ _ _

theorem tables_submitTransaction (fromAddr toAddr : String) (amount clock : ℚ) :
    (f.submitTransaction fromAddr toAddr amount clock s).2.tables = s.tables := by
  unfold submitTransaction
  by_cases hshape : amount ≤ 0 ∨ fromAddr = "" ∨ toAddr = ""
  · rw [if_pos hshape]
  · rw [if_neg hshape]
    by_cases hfunds : l2Balance s.real fromAddr s.memory < amount
    · rw [if_pos hfunds]
    · rw [if_neg hfunds]
      exact Holdings.tables_setPending _ _

theorem tables_submitBlock : (submitBlock s).2.tables = s.tables := by
  unfold submitBlock
  split
  · rfl
  · exact Holdings.tables_setPending _ _

theorem tables_requestExit (depositId user : String) (clock : ℚ) (now : Int) :
    (f.requestExit depositId user clock now s).2.tables = s.tables := by
  unfold requestExit
  cases s.memory.deposits.get? depositId with
  | none => rfl
  | some dep =>
    dsimp only
    by_cases hstatus : dep.status ≠ .confirmed ∨ dep.fromAddr ≠ user
    · rw [if_pos hstatus]
    · rw [if_neg hstatus]
      by_cases hfunds : l2Balance s.real user s.memory < dep.amount
      · rw [if_pos hfunds]
      · rw [if_neg hfunds]
        rfl

theorem paid_finalizeExit (id : String) (force : Bool) (clock : ℚ) :
    s.tables.Paid (finalizeExit id force clock s).2.tables := by
  unfold finalizeExit
  cases s.memory.exitRequests.get? id with
  | none => exact .refl _
  | some req =>
    dsimp only
    by_cases hstatus : req.status ≠ .pending
    · rw [if_pos hstatus]
      exact .refl _
    · rw [if_neg hstatus]
      by_cases hearly : ¬ force = true ∧ clock - req.createdAt < challengePeriod
      · rw [if_pos hearly]
        exact .refl _
      · rw [if_neg hearly]
        cases hc : s.credit req.user req.amount with
        | none => exact .refl _
        | some s' =>
          rw [Holdings.credit_some hc]
          dsimp only
          split
          · exact .one _ _ _ _
          · exact .one _ _ _ _

theorem paid_createWill (owner heir : String) (amount : ℚ) (delay : Int) (clock : ℚ) (now : Int) :
    s.tables.Paid (f.createWill owner heir amount delay clock now s).2.tables := by
  unfold createWill
  cases hd : s.debit owner amount with
  | none => exact .refl _
  | some s' =>
    rw [Holdings.debit_some hd]
    exact .one _ _ _ _

theorem paid_cancelWill (id owner : String) : s.tables.Paid (cancelWill id owner s).2.tables := by
  unfold cancelWill
  cases s.memory.wills.get? id with
  | none => exact .refl _
  | some w =>
    dsimp only
    by_cases hown : w.owner ≠ owner ∨ w.status ≠ .pending
    · rw [if_pos hown]
      exact .refl _
    · rw [if_neg hown]
      cases hc : s.credit owner w.amount with
      | none => exact .refl _
      | some s' =>
        rw [Holdings.credit_some hc]
        exact .one _ _ _ _

theorem paid_executeWill (id : String) (force : Bool) (now : Int) :
    s.tables.Paid (executeWill id force now s).2.tables := by
  unfold executeWill
  cases s.memory.wills.get? id with
  | none => exact .refl _
  | some w =>
    dsimp only
    by_cases hstatus : w.status ≠ .pending
    · rw [if_pos hstatus]
      exact .refl _
    · rw [if_neg hstatus]
      by_cases hearly : ¬ force = true ∧ now < w.executionTime
      · rw [if_pos hearly]
        exact .refl _
      · rw [if_neg hearly]
        cases hc : s.credit w.heir w.amount with
        | none => exact .refl _
        | some s' =>
          rw [Holdings.credit_some hc]
          exact .one _ _ _ _

theorem paid_bridgeCall (op : BridgeOp) : s.tables.Paid (f.bridgeCall op s).2.tables := by
  let db : BridgeDb :=
    { tables := s.tables, bridgeCredits := s.ledgers.bridgeCredits, bridgeLocks := s.ledgers.bridgeLocks }
  show db.tables.Paid (f.bridge.call op db).2.tables
  cases op with
  | lock r now clock answers =>
    rcases BridgeNode.lockAndBridge_cases  r now clock answers db with
      ⟨h, -, hrun⟩ | ⟨-, text, hrun | hrun⟩
    · rw [BridgeNode.call, hrun]
      exact (Tables.Paid.one id _ _ _).trans (.one id _ _ _)
    · rw [BridgeNode.call, hrun]
      exact .refl _
    · rw [BridgeNode.call, hrun]
      exact .refl _
  | confirmLock h helper scan =>
    have hkept : ∀ row : Option BridgeLock, row = BridgeNode.pendingLock h (BridgeNode.getBridgeLocks scan 1000) →
        (f.bridge.confirmLock h helper scan db).2.tables = db.tables := by
      intro row hrow
      unfold BridgeNode.confirmLock
      rw [← hrow]
      cases row with
      | none => rfl
      | some lock =>
        cases f.bridge.mode with
        | rust => cases helper <;> rfl
        | simulator => rfl
        | unavailable => rfl
    rw [BridgeNode.call, hkept _ rfl]
    exact .refl _
  | confirmIncoming r helper now =>
    rcases BridgeNode.confirmIncoming_cases  r helper now db with ⟨-, hrun⟩ | ⟨-, phase, -, hrun⟩
    · rw [BridgeNode.call, hrun]
      exact .one id _ _ _
    · rw [BridgeNode.call, hrun]
      exact .refl _
  | refund h scan =>
    rw [BridgeNode.call]
    unfold BridgeNode.refund
    cases BridgeNode.pendingLock h (BridgeNode.getBridgeLocks scan 50) with
    | none => exact .refl _
    | some lock => exact .one id _ _ _

/-- Whatever the call, the accounts change by payments and nothing else of the chain changes. -/
theorem paid_apply (op : OffBlockOp) : s.tables.Paid (f.apply op s).tables := by
  have hsame : ∀ {t : Tables}, t = s.tables → s.tables.Paid t := fun h => h ▸ .refl _
  cases op with
  | openChannel => exact paid_openChannel f s _ _ _ _
  | closeChannel => exact paid_closeChannel s _
  | sendPayment => exact hsame (tables_sendPayment f s _ _ _ _)
  | deposit => exact paid_deposit f s _ _ _ _ _
  | submitTransaction => exact hsame (tables_submitTransaction f s _ _ _ _)
  | submitBlock => exact hsame (tables_submitBlock s)
  | requestExit => exact hsame (tables_requestExit f s _ _ _ _)
  | finalizeExit => exact paid_finalizeExit s _ _ _
  | createWill => exact paid_createWill f s _ _ _ _ _ _
  | cancelWill => exact paid_cancelWill s _ _
  | executeWill => exact paid_executeWill s _ _ _
  | bridge => exact paid_bridgeCall f s _

end Features

/-! ## What is locked -/

namespace Ledgers

variable (l : Ledgers)

def locked : ℚ :=
  l.lightningChannels.sum (fun ch => if ch.status = .open then ch.balance1 + ch.balance2 else 0) +
    l.plasmaDeposits.sum (fun dep => if dep.status = .exited then 0 else dep.amount) +
    l.cryptoWills.sum (fun w => if w.status = .pending then w.amount else 0) +
    l.bridgeLocks.sum (fun row => if row.status = .pending then row.amount else 0)

/-- Whose coins a record locks. -/
def Locker (a : String) : Prop :=
  (∃ id ch, l.lightningChannels.get? id = some ch ∧ ch.status = .open ∧ ch.node1 = a) ∨
  (∃ id dep, l.plasmaDeposits.get? id = some dep ∧ dep.status ≠ .exited ∧ dep.fromAddr = a) ∨
  (∃ id w, l.cryptoWills.get? id = some w ∧ w.status = .pending ∧ w.owner = a) ∨
  (∃ h row, l.bridgeLocks.get? h = some row ∧ row.status = .pending ∧ row.fromAddr = a)

theorem channels_load (scans : Scans) : (l.load scans).1.lightningChannels = l.lightningChannels := by
  unfold load
  dsimp only
  split
  · rfl
  · rfl

/-- The start reads the records and rewrites none of them. -/
theorem locked_load (scans : Scans) : (l.load scans).1.locked = l.locked := by
  unfold load
  dsimp only
  split
  · rfl
  · rfl

theorem locked_putChannel {id : String} (h : l.lightningChannels.get? id = none) {ch : LightningChannel}
    (hopen : ch.status = .open) :
    ({ l with lightningChannels := l.lightningChannels.put id ch } : Ledgers).locked =
      l.locked + (ch.balance1 + ch.balance2) := by
  unfold locked
  simp only [Table.sum_put, h, hopen, if_true, Option.elim_none, sub_zero]
  ring

end Ledgers

theorem Features.openChannel_ok (f : Features) {peer : String} {capacity clock : ℚ} {now : Int} {s : Holdings}
    (hmin : minChannel ≤ capacity) (hmax : capacity ≤ maxChannel) (hfunds : capacity ≤ s.tables.getBalance f.nodeAddress) :
    ∃ id, f.openChannel peer capacity clock now s =
      (some id, (s.updateBalance f.nodeAddress (-capacity)).saveChannel id
        { node1 := f.nodeAddress, node2 := peer, capacity := capacity, balance1 := capacity, balance2 := 0,
          status := .open, createdAt := now, feeRate := 1 / 100000 }) := by
  have hsize : ¬ (capacity < minChannel ∨ maxChannel < capacity) := fun h => h.elim (not_lt.mpr hmin) (not_lt.mpr hmax)
  unfold openChannel
  rw [if_neg hsize, if_neg (not_lt.mpr hfunds)]
  exact ⟨_, rfl⟩

end AbsoluteChain
