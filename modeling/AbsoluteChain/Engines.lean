import AbsoluteChain.Finality

/-!
# Consensus engines

`consensus/engine_slashing.py`, `consensus/engine_beacon.py`,
`consensus/engine_casper.py` and `consensus_engine.py`.
-/

namespace AbsoluteChain

open Python

/-! ## Beacon -/

structure ConsensusEngineBeacon where
  lmd : LmdTable
  finality : BeaconFinality
  fork : ForkTree

namespace ConsensusEngineBeacon

def start (epochs : EpochManager) : ConsensusEngineBeacon :=
  { lmd := .empty, finality := .start epochs, fork := .empty }

variable (s : ConsensusEngineBeacon)

def addValidator (validator : String) (stake : Int) : ConsensusEngineBeacon :=
  let lmd := s.lmd.addValidator validator stake
  { s with lmd := lmd, finality := s.finality.setTotalStake lmd.totalStake }

def addBlock (b : ForkBlock) : ConsensusEngineBeacon := { s with fork := s.fork.addBlock b }

def onAttestation (validator blockHash : String) (slot : Int) : Bool × ConsensusEngineBeacon :=
  let r := s.lmd.update validator blockHash slot
  if r.1 then
    let stake := (r.2.validatorStake.get? validator).getD 0
    (true, { s with lmd := r.2, finality := s.finality.addVote blockHash slot stake })
  else (false, s)

def isFinalized (blockHash : String) : Bool :=
  match s.fork.blocks.get? blockHash with
  | none => false
  | some b => s.finality.isFinalized b.number

end ConsensusEngineBeacon

/-! ## Beacon with slashing -/

structure ConsensusEngineSlashing where
  board : ConsensusEngineBeacon
  slashing : SlashingEngine

namespace ConsensusEngineSlashing

def start (epochs : EpochManager) : ConsensusEngineSlashing :=
  { board := .start epochs, slashing := { proposals := [], slashed := [], events := [], persists := false } }

variable (s : ConsensusEngineSlashing)

def setTotalStake : ConsensusEngineSlashing :=
  { s with board := { s.board with finality := s.board.finality.setTotalStake s.slashing.getTotalActiveStake } }

def addValidator (validator : String) (stake : Int) : ConsensusEngineSlashing :=
  setTotalStake
    { board := { s.board with lmd := s.board.lmd.addValidator validator stake }
      slashing := s.slashing.registerValidator validator stake }

def addBlock (b : ForkBlock) : ConsensusEngineSlashing := { s with board := s.board.addBlock b }

def tally (validator blockHash : String) (slot stake : Int) : ConsensusEngineBeacon :=
  if 0 < stake then
    { s.board with
      lmd := (s.board.lmd.update validator blockHash slot).2
      finality :=
        if s.board.fork.blocks.contains blockHash then s.board.finality.addVote blockHash slot stake else s.board.finality }
  else s.board

def onAttestation (now : Int) (validator blockHash : String) (slot : Int) : Bool × ConsensusEngineSlashing :=
  let r := s.slashing.addVote now validator slot blockHash
  if r.1 then
    (true, setTotalStake { board := s.tally validator blockHash slot (r.2.getStake validator), slashing := r.2 })
  else (false, { s with slashing := r.2 })

def isFinalized (blockHash : String) : Bool := s.board.isFinalized blockHash

end ConsensusEngineSlashing

/-! ## Casper -/

structure ConsensusEngineCasper where
  lmd : LmdTable
  finality : CasperFinality
  epochs : EpochManager
  fork : ForkTree

namespace ConsensusEngineCasper

def start (epochs : EpochManager) : ConsensusEngineCasper :=
  { lmd := .empty, finality := .start, epochs := epochs, fork := .empty }

variable (s : ConsensusEngineCasper)

def addValidator (validator : String) (stake : Int) : ConsensusEngineCasper :=
  let lmd := s.lmd.addValidator validator stake
  { s with lmd := lmd, finality := s.finality.setTotalStake lmd.totalStake }

def addBlock (b : ForkBlock) : ConsensusEngineCasper := { s with fork := s.fork.addBlock b }

def onAttestation (validator blockHash : String) (slot : Int) : Bool × ConsensusEngineCasper :=
  let r := s.lmd.update validator blockHash slot
  match s.fork.blocks.get? blockHash with
  | none => (r.1, { s with lmd := r.2 })
  | some b =>
    let weight := (r.2.getWeights.get? blockHash).getD 0
    (r.1, { s with lmd := r.2, finality := s.finality.addVote (s.epochs.getEpoch b.number) blockHash weight })

def isFinalized (blockHash : String) : Bool :=
  match s.fork.blocks.get? blockHash with
  | none => false
  | some b => s.finality.isFinalized b.number s.epochs

end ConsensusEngineCasper

/-! ## Slots and attestations -/

structure PosValidator where
  stake : ℚ
  isActive : Bool := true
  attestations : Nat := 0
  blocksProposed : Nat := 0

structure ConsensusEngine where
  validators : Dict String PosValidator
  currentEpoch : Int
  currentSlot : Int
  attestations : Dict Int (List String)
  finalizedCheckpoints : List Int

namespace ConsensusEngine

def start : ConsensusEngine :=
  { validators := [], currentEpoch := 0, currentSlot := 0, attestations := [], finalizedCheckpoints := [] }

variable (s : ConsensusEngine)

def addValidator (address : String) (stake : ℚ) : Bool × ConsensusEngine :=
  if s.validators.contains address then (false, s)
  else (true, { s with validators := s.validators.set address { stake := stake } })

def attest (validator : String) (slot : Int) : Bool × ConsensusEngine :=
  match s.validators.get? validator with
  | none => (false, s)
  | some v =>
    if v.isActive then
      (true,
        { s with
          validators := s.validators.set validator { v with attestations := v.attestations + 1 }
          attestations := s.attestations.set slot (((s.attestations.get? slot).getD []) ++ [validator]) })
    else (false, s)

def finalizeCheckpoint : ConsensusEngine :=
  let total := s.validators.length
  if total = 0 then s
  else
    { s with finalizedCheckpoints := s.finalizedCheckpoints ++
        (s.attestations.filter fun e => 2 * total < 3 * e.2.length).map Prod.fst }

def advanceSlot : ConsensusEngine :=
  let s := { s with currentSlot := s.currentSlot + 1 }
  if s.currentSlot % 32 = 0 then { s with currentEpoch := s.currentEpoch + 1 }.finalizeCheckpoint else s

end ConsensusEngine

end AbsoluteChain
