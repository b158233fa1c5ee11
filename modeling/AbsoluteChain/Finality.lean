import AbsoluteChain.Binary64
import AbsoluteChain.ForkChoice

/-!
# Finality

`consensus/finality_beacon.py`, `consensus/finality_casper.py` and
`finality_engine.py`: votes summed by epoch, and the epochs they justify and finalise.
-/

namespace AbsoluteChain

open Python

/-- `max(votes.items(), key=lambda x: x[1])`: the first of the heaviest. -/
def heaviest : Dict String Int → Option (String × Int)
  | [] => none
  | e :: t => some (t.foldl (fun best x => if best.2 < x.2 then x else best) e)

/-- `int(total_stake * threshold_ratio)` for the ratio `2/3`, a product of doubles. -/
def twoThirds (totalStake : Int) : Int :=
  truncate (Binary64.round (Binary64.round totalStake * Binary64.round (2 / 3)))

/-! ## Beacon finality -/

structure BeaconFinality where
  epochs : EpochManager
  totalStake : Int
  votes : Dict Int (Dict String Int)
  justifiedCheckpoint : Option Int
  justifiedBlock : Option String
  finalizedCheckpoint : Option Int
  finalizedBlock : Option String
  justifiedEpochs : List Int
  finalizedEpochs : List Int
  justifiedBlocks : Dict Int String

namespace BeaconFinality

def start (epochs : EpochManager) : BeaconFinality :=
  { epochs := epochs, totalStake := 0, votes := [], justifiedCheckpoint := none, justifiedBlock := none,
    finalizedCheckpoint := none, finalizedBlock := none, justifiedEpochs := [], finalizedEpochs := [],
    justifiedBlocks := [] }

variable (f : BeaconFinality)

def setTotalStake (totalStake : Int) : BeaconFinality := { f with totalStake := totalStake }

def votesIn (epoch : Int) : Dict String Int := (f.votes.get? epoch).getD []

def justify (epoch : Int) (blockHash : String) : BeaconFinality :=
  let f : BeaconFinality :=
    { f with
      justifiedEpochs := epoch :: f.justifiedEpochs
      justifiedBlocks := f.justifiedBlocks.set epoch blockHash
      justifiedCheckpoint := some epoch
      justifiedBlock := some blockHash }
  if epoch - 1 ∈ f.justifiedEpochs ∧ epoch - 1 ∉ f.finalizedEpochs then
    { f with
      finalizedEpochs := (epoch - 1) :: f.finalizedEpochs
      finalizedCheckpoint := some (epoch - 1)
      finalizedBlock := f.justifiedBlocks.get? (epoch - 1) }
  else f

def evaluate (epoch : Int) : BeaconFinality :=
  match heaviest (f.votesIn epoch) with
  | none => f
  | some (blockHash, weight) =>
    if twoThirds f.totalStake ≤ weight ∧ epoch ∉ f.justifiedEpochs then f.justify epoch blockHash else f

def count (blockHash : String) (epoch weight : Int) : BeaconFinality :=
  let current := f.votesIn epoch
  { f with votes := f.votes.set epoch (current.set blockHash ((current.get? blockHash).getD 0 + weight)) }

def addVote (blockHash : String) (slot weight : Int) : BeaconFinality :=
  (f.count blockHash (f.epochs.getEpoch slot) weight).evaluate (f.epochs.getEpoch slot)

def isFinalized (blockNumber : Int) : Bool := f.epochs.getEpoch blockNumber ∈ f.finalizedEpochs

end BeaconFinality

/-! ## Casper finality -/

structure CasperFinality where
  epochVotes : Dict Int (Dict String Int)
  totalStake : Int
  justifiedEpochs : List Int
  finalizedEpochs : List Int
  justifiedBlocks : Dict Int String

namespace CasperFinality

def start : CasperFinality :=
  { epochVotes := [], totalStake := 0, justifiedEpochs := [], finalizedEpochs := [], justifiedBlocks := [] }

variable (f : CasperFinality)

def setTotalStake (totalStake : Int) : CasperFinality := { f with totalStake := totalStake }

def votesIn (epoch : Int) : Dict String Int := (f.epochVotes.get? epoch).getD []

def justifyEpoch (epoch : Int) (blockHash : String) : CasperFinality :=
  if epoch ∈ f.justifiedEpochs then f
  else
    { f with
      justifiedEpochs := epoch :: f.justifiedEpochs
      justifiedBlocks := f.justifiedBlocks.set epoch blockHash }

def tryFinalize (epoch : Int) : CasperFinality :=
  if epoch - 1 ∈ f.justifiedEpochs ∧ epoch - 1 ∉ f.finalizedEpochs then
    { f with finalizedEpochs := (epoch - 1) :: f.finalizedEpochs }
  else f

def evaluate (epoch : Int) : CasperFinality :=
  match heaviest (f.votesIn epoch) with
  | none => f
  | some (blockHash, weight) =>
    if twoThirds f.totalStake ≤ weight then (f.justifyEpoch epoch blockHash).tryFinalize epoch else f

def count (blockHash : String) (epoch weight : Int) : CasperFinality :=
  let current := f.votesIn epoch
  { f with epochVotes := f.epochVotes.set epoch (current.set blockHash ((current.get? blockHash).getD 0 + weight)) }

def addVote (epoch : Int) (blockHash : String) (weight : Int) : CasperFinality :=
  (f.count blockHash epoch weight).evaluate epoch

def isFinalized (blockNumber : Int) (epochs : EpochManager) : Bool := epochs.getEpoch blockNumber ∈ f.finalizedEpochs

end CasperFinality

/-! ## Checkpoints -/

structure Checkpoint where
  epoch : Int
  blockHash : String
  blockNumber : Int
  votes : Nat := 0
  isJustified : Bool := false
  isFinalized : Bool := false
  deriving DecidableEq

def epochLength : Int := 32

structure FinalityEngine where
  checkpoints : Dict Int Checkpoint
  votes : Dict Int (List String)
  justifiedCheckpoints : List Int
  finalizedCheckpoints : List Int
  currentEpoch : Int
  activeValidatorCount : Int

namespace FinalityEngine

def start : FinalityEngine :=
  { checkpoints := [], votes := [], justifiedCheckpoints := [], finalizedCheckpoints := [], currentEpoch := 0,
    activeValidatorCount := 1 }

variable (f : FinalityEngine)

def setActiveValidatorCount (count : Int) : FinalityEngine :=
  { f with activeValidatorCount := max 1 (if count = 0 then 1 else count) }

def getEpoch (blockNumber : Int) : Int := blockNumber / epochLength

def votesIn (epoch : Int) : List String := (f.votes.get? epoch).getD []

def createCheckpoint (blockNumber : Int) (blockHash : String) : FinalityEngine :=
  let epoch := getEpoch blockNumber
  if f.checkpoints.contains epoch then f
  else
    { f with checkpoints := f.checkpoints.set epoch { epoch := epoch, blockHash := blockHash, blockNumber := blockNumber } }

def countVote (validator : String) (epoch : Int) (checkpoint : Checkpoint) : FinalityEngine :=
  if validator ∈ f.votesIn epoch then f
  else
    { f with
      votes := f.votes.set epoch (f.votesIn epoch ++ [validator])
      checkpoints := f.checkpoints.set epoch { checkpoint with votes := checkpoint.votes + 1 } }

def checkJustified (epoch : Int) : FinalityEngine :=
  match f.checkpoints.get? epoch with
  | none => f
  | some checkpoint =>
    if 2 * max 1 f.activeValidatorCount ≤ 3 * checkpoint.votes ∧ ¬ checkpoint.isJustified then
      { f with
        checkpoints := f.checkpoints.set epoch { checkpoint with isJustified := true }
        justifiedCheckpoints := f.justifiedCheckpoints ++ [epoch] }
    else f

def addAttestation (validator : String) (targetEpoch : Int) (targetHash : String) : Bool × FinalityEngine :=
  match f.checkpoints.get? targetEpoch with
  | none => (false, f)
  | some checkpoint =>
    if checkpoint.blockHash ≠ targetHash then (false, f)
    else (true, (f.countVote validator targetEpoch checkpoint).checkJustified targetEpoch)

def finalizeCheckpoint (epoch : Int) : Bool × FinalityEngine :=
  if epoch ∉ f.justifiedCheckpoints ∨ epoch - 1 ∉ f.justifiedCheckpoints then (false, f)
  else
    match f.checkpoints.get? epoch with
    | none => (false, f)
    | some checkpoint =>
      if checkpoint.isFinalized then (false, f)
      else
        (true,
          { f with
            checkpoints := f.checkpoints.set epoch { checkpoint with isFinalized := true }
            finalizedCheckpoints := f.finalizedCheckpoints ++ [epoch] })

def epochRange (first last : Int) : List Int := (List.range (last + 1 - first).toNat).map fun i => first + i

def processBlock (blockNumber : Int) (blockHash validator : String) : FinalityEngine :=
  let epoch := getEpoch blockNumber
  let f := ((f.createCheckpoint blockNumber blockHash).addAttestation validator epoch blockHash).2
  let f := (epochRange f.currentEpoch epoch).foldl (fun f e => (f.finalizeCheckpoint e).2) f
  { f with currentEpoch := epoch }

end FinalityEngine

end AbsoluteChain
