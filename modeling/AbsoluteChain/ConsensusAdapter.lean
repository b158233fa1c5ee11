import AbsoluteChain.Blockchain
import AbsoluteChain.Engines
import AbsoluteChain.Runs

/-!
# The consensus adapter

`consensus/adapter.py` on a running node: what it does when a block was stored, an
attestation arrives or a block was forged, and what it reports as final. The
slashing engine is the one `add_block` consults.
-/

namespace AbsoluteChain

open Python Actions Transactions

structure ConsensusAdapter where
  engine : ConsensusEngine
  finality : FinalityEngine
  board : ConsensusEngineBeacon
  casper : ConsensusEngineCasper
  beacon : ConsensusEngineBeacon

namespace ConsensusAdapter

def start (epochs : EpochManager) : ConsensusAdapter :=
  { engine := .start, finality := .start, board := .start epochs, casper := .start epochs, beacon := .start epochs }

def getFinalizedFloorHeight (a : ConsensusAdapter) : Int :=
  a.finality.finalizedCheckpoints.foldl
    (fun floor epoch =>
      match a.finality.checkpoints.get? epoch with
      | none => floor
      | some checkpoint => if floor < checkpoint.blockNumber then checkpoint.blockNumber else floor) 0

def forkBlock (b : BlockDict) : ForkBlock :=
  { hash := b.hash, parent := if b.parentHash = "" then none else some b.parentHash, number := b.height }

def onNewBlock (stake : Option Int) (b : BlockDict) (a : ConsensusAdapter) : ConsensusAdapter :=
  let board := match stake with
    | none => a.board
    | some total => { a.board with finality := a.board.finality.setTotalStake total }.addBlock (forkBlock b)
  { a with
    finality := a.finality.processBlock b.height b.hash b.miner
    board := board
    casper := a.casper.addBlock (forkBlock b)
    beacon := a.beacon.addBlock (forkBlock b) }

end ConsensusAdapter

structure FullNode where
  node : Node
  adapter : ConsensusAdapter

namespace FullNode

def nodePart : Act.Part FullNode Node where
  get n := n.node
  set m n := { n with node := m }
  get_set _ _ := rfl
  set_get _ := rfl
  set_set _ _ _ := rfl

def onNode {α : Type} (m : Act Fault Node α) : Act Fault FullNode α := Act.on nodePart m

def slashingEngine (n : FullNode) : Option ConsensusEngineSlashing :=
  n.node.slashing.map fun e => { board := n.adapter.board, slashing := e }

def isFinalized (n : FullNode) (blockNumber : Int) : Bool :=
  decide (FinalityEngine.getEpoch blockNumber ∈ n.adapter.finality.finalizedCheckpoints) ||
    match n.node.db.live.getBlock blockNumber with
    | none => false
    | some b =>
      b.hash ≠ "" &&
        ((n.slashingEngine.map fun s => s.isFinalized b.hash).getD false || n.adapter.casper.isFinalized b.hash ||
          n.adapter.beacon.isFinalized b.hash)

def registerValidatorAll (address : String) (stake : ℚ) (n : FullNode) : FullNode :=
  let engine := (n.adapter.engine.addValidator address stake).2
  match n.slashingEngine with
  | none => { n with adapter := { n.adapter with engine := engine } }
  | some s =>
    let s := s.addValidator address (truncate stake)
    { node := { n.node with slashing := some s.slashing }
      adapter := { n.adapter with engine := engine, board := s.board } }

def syncFinalityValidatorCount (n : FullNode) : FullNode :=
  let stored : Int := n.node.db.live.getValidators.length
  let count : Int := if stored ≤ 0 then n.adapter.engine.validators.length else stored
  { n with adapter := { n.adapter with finality := n.adapter.finality.setActiveValidatorCount (max 1 count) } }

def start (epochs : EpochManager) (db : Db) : FullNode :=
  let engine : SlashingEngine := { proposals := [], slashed := [], events := [], persists := true }
  let n : FullNode := { node := { db := db, slashing := some engine }, adapter := .start epochs }
  (db.live.getValidators.foldl (fun n v => n.registerValidatorAll v.1 v.2.stake) n).syncFinalityValidatorCount

/-! ## Blocks -/

def emitNewBlock (b : Block) (n : FullNode) : FullNode :=
  { n with adapter := n.adapter.onNewBlock (n.node.slashing.map SlashingEngine.getTotalActiveStake) b.toDict }

variable (c : Blockchain) (now : Int)

def addBlock (b : Block) (preserve : Bool) : Act Fault FullNode Block := do
  let stored ← onNode (c.addBlock now b preserve)
  Act.write (emitNewBlock stored)
  pure stored

def importBlock (d : PeerBlock) : Act Fault FullNode Block := do
  let stored ← onNode (c.importBlock now d)
  Act.write (emitNewBlock stored)
  pure stored

def reorgToAncestor (height : Int) : Act Fault FullNode Unit := do
  let floor ← Act.read fun n : FullNode => n.adapter.getFinalizedFloorHeight
  onNode (onDb (c.reorgToAncestor now floor height))

def ensureStateAtTip : Act Fault FullNode Unit := do
  let floor ← Act.read fun n : FullNode => n.adapter.getFinalizedFloorHeight
  onNode (onDb (c.ensureStateAtTip now floor))

def truncateToHeight (height : Int) : Act Fault FullNode Unit := onNode (onDb (Blockchain.truncateToHeight height))

def settled (n : FullNode) (r : Except Fault Block × Node) : FullNode :=
  match r with
  | (.ok stored, node) => emitNewBlock stored { n with node := node }
  | (.error _, node) => { n with node := node }

theorem onNode_run {α : Type} (m : Act Fault Node α) (n : FullNode) :
    onNode m n = ((m n.node).1, { n with node := (m n.node).2 }) := rfl

theorem emit_run (m : Act Fault Node Block) (n : FullNode) :
    ((do
      let stored ← onNode m
      Act.write (emitNewBlock stored)
      pure stored : Act Fault FullNode Block) n).2 = n.settled (m n.node) := by
  rw [Act.bind_run, onNode_run]
  rcases m n.node with ⟨f | stored, node⟩ <;> rfl

theorem addBlock_run (b : Block) (preserve : Bool) (n : FullNode) :
    (addBlock c now b preserve n).2 = n.settled (c.addBlock now b preserve n.node) := emit_run _ n

theorem importBlock_run (d : PeerBlock) (n : FullNode) :
    (importBlock c now d n).2 = n.settled (c.importBlock now d n.node) := emit_run _ n

theorem settled_slashing (n : FullNode) (r : Except Fault Block × Node) : (n.settled r).node.slashing = r.2.slashing := by
  rcases r with ⟨f | stored, node⟩ <;> rfl

/-! ## Attestations and slots -/

def attestSlashing (validator blockHash : String) (slot : Int) : Act Fault FullNode Bool := do
  let engine ← Act.read slashingEngine
  match engine with
  | none => pure true
  | some s => do
    let r := s.onAttestation now validator blockHash slot
    Act.write fun n : FullNode =>
      { n with
        node := { n.node with slashing := some r.2.slashing }
        adapter := { n.adapter with board := r.2.board } }
    if r.2.slashing.slashed ≠ s.slashing.slashed ∧ s.slashing.persists then
      onNode (onDb (committed (Tables.slashValidator validator)))
    else pure ()
    pure r.1

def attest (validator blockHash : String) : Act Fault FullNode Bool := do
  let slot ← Act.read fun n : FullNode => n.adapter.engine.currentSlot
  let ok ← attestSlashing now validator blockHash slot
  if ok then do
    let engine ← Act.read fun n : FullNode => n.adapter.engine
    let r := engine.attest validator slot
    Act.write fun n : FullNode => { n with adapter := { n.adapter with engine := r.2 } }
    pure r.1
  else pure false

theorem attest_node (validator blockHash : String) (n : FullNode) :
    (attest now validator blockHash n).2.node =
      (attestSlashing now validator blockHash n.adapter.engine.currentSlot n).2.node := by
  unfold attest
  simp only [Act.bind_run, Act.read_run]
  rcases attestSlashing now validator blockHash n.adapter.engine.currentSlot n with ⟨f | ok, n₁⟩
  · rfl
  · cases ok with
    | true => rfl
    | false => rfl

def markBlockProduced (n : FullNode) : FullNode :=
  { n with adapter := { n.adapter with engine := n.adapter.engine.advanceSlot } }

/-! ## Events -/

/-- What may happen to a node. -/
inductive Event where
  | addBlock (now : Int) (b : Block) (preserve : Bool)
  | importBlock (now : Int) (d : PeerBlock)
  | attest (now : Int) (validator blockHash : String)
  | markBlockProduced
  | reorgToAncestor (now height : Int)
  | truncateToHeight (height : Int)

def Event.run (c : Blockchain) : Event → FullNode → FullNode
  | .addBlock now b preserve, n => (FullNode.addBlock c now b preserve n).2
  | .importBlock now d, n => (FullNode.importBlock c now d n).2
  | .attest now validator blockHash, n => (FullNode.attest now validator blockHash n).2
  | .markBlockProduced, n => n.markBlockProduced
  | .reorgToAncestor now height, n => (FullNode.reorgToAncestor c now height n).2
  | .truncateToHeight height, n => (FullNode.truncateToHeight height n).2

end FullNode

end AbsoluteChain
