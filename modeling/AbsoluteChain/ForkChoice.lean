import AbsoluteChain.Slashing

/-!
# Fork choice

`consensus/epoch.py`, `consensus/lmd.py` and the block tree that the three
consensus engines keep: the latest vote of each validator and the blocks fed so far.
-/

namespace AbsoluteChain

open Python

/-! ## Epochs -/

structure EpochManager where
  epochSize : Nat
  pos : 0 < epochSize

theorem epochSize_pos : 0 < 32 := by decide

def EpochManager.getEpoch (m : EpochManager) (blockNumber : Int) : Int := blockNumber / m.epochSize

/-! ## Latest votes -/

structure LmdTable where
  latestVote : Dict String (String × Int)
  validatorStake : Dict String Int

namespace LmdTable

variable (t : LmdTable)

def empty : LmdTable := { latestVote := [], validatorStake := [] }

def addValidator (validator : String) (stake : Int) : LmdTable :=
  { t with validatorStake := t.validatorStake.set validator stake }

def totalStake : Int := (t.validatorStake.map Prod.snd).sum

def update (validator blockHash : String) (slot : Int) : Bool × LmdTable :=
  if t.validatorStake.contains validator then
    let accepted := (true, { t with latestVote := t.latestVote.set validator (blockHash, slot) })
    match t.latestVote.get? validator with
    | none => accepted
    | some current => if current.2 < slot then accepted else (false, t)
  else (false, t)

def getWeights : Dict String Int :=
  t.latestVote.foldl
    (fun weights e => weights.set e.2.1 ((weights.get? e.2.1).getD 0 + (t.validatorStake.get? e.1).getD 0)) []

end LmdTable

/-! ## The block tree -/

structure ForkBlock where
  hash : String
  parent : Option String
  number : Int
  deriving DecidableEq

def ForkBlock.link (b : ForkBlock) : Option String := b.parent.filter fun p => p ≠ ""

theorem ForkBlock.parent_of_link {b : ForkBlock} {p : String} (h : b.link = some p) : b.parent = some p :=
  (Option.filter_eq_some_iff.mp h).1

structure TreeNode where
  parent : Option String
  children : List String
  number : Int

structure ForkTree where
  tree : Dict String TreeNode
  blocks : Dict String ForkBlock

namespace ForkTree

def empty : ForkTree := { tree := [], blocks := [] }

def children (f : ForkTree) (hash : String) : List String := ((f.tree.get? hash).map TreeNode.children).getD []

def addBlock (b : ForkBlock) (f : ForkTree) : ForkTree :=
  let tree :=
    if f.tree.contains b.hash then f.tree
    else f.tree.set b.hash { parent := b.parent, children := [], number := b.number }
  let tree :=
    match b.link with
    | none => tree
    | some parent =>
      let node := (tree.get? parent).getD { parent := none, children := [], number := 0 }
      tree.set parent { node with children := if b.hash ∈ node.children then node.children else node.children ++ [b.hash] }
  { tree := tree, blocks := f.blocks.set b.hash b }

end ForkTree

end AbsoluteChain
