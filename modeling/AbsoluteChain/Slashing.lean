import AbsoluteChain.Database

/-!
# Slashing

`consensus/slashing.py`: the votes and proposals on record, the stakes, and who is
slashed. The callback of a slash reaches the database of the node.
-/

namespace AbsoluteChain

open Python Actions

/-! ## The engine -/

inductive SlashReason where
  | doubleVote | doubleProposal | offline | invalidProposal | surroundVote
  deriving DecidableEq

def penalty : SlashReason → Int
  | .doubleVote => 100
  | .doubleProposal => 200
  | .offline => 10
  | .invalidProposal => 50
  | .surroundVote => 75

structure SlashEvent where
  validator : String
  reason : SlashReason
  epoch : Int
  timestamp : Int
  penalty : Int
  deriving DecidableEq

/-- `persists` says that the consensus adapter registered the callback that writes a slash to the database. -/
structure SlashingEngine where
  votes : Dict String (Dict Int String) := []
  proposals : List (Int × String)
  slashed : List String
  events : List SlashEvent
  stakes : Dict String Int := []
  persists : Bool
  deriving DecidableEq

namespace SlashingEngine

variable (e : SlashingEngine)

def registerValidator (validator : String) (stake : Int) : SlashingEngine :=
  { e with stakes := e.stakes.set validator stake }

def getStake (validator : String) : Int :=
  if validator ∈ e.slashed then 0 else (e.stakes.get? validator).getD 0

def getTotalActiveStake : Int := ((e.stakes.filter fun s => s.1 ∉ e.slashed).map Prod.snd).sum

def mark (now : Int) (validator : String) (reason : SlashReason) (epoch : Int) : SlashingEngine :=
  if validator ∈ e.slashed then e
  else
    { e with
      slashed := validator :: e.slashed
      events := e.events ++
        [{ validator := validator, reason := reason, epoch := epoch, timestamp := now, penalty := penalty reason }] }

def votesOf (validator : String) : Dict Int String := (e.votes.get? validator).getD []

def recordVote (now : Int) (validator : String) (slot : Int) (blockHash : String) : Bool × SlashingEngine :=
  if validator ∈ e.slashed then (false, e)
  else
    match (e.votesOf validator).get? slot with
    | some seen => if seen ≠ blockHash then (false, e.mark now validator .doubleVote slot) else (true, e)
    | none => (true, { e with votes := e.votes.set validator ((e.votesOf validator).set slot blockHash) })

def addVote (now : Int) (validator : String) (slot : Int) (blockHash : String) : Bool × SlashingEngine :=
  if validator ∈ e.slashed then (false, e) else e.recordVote now validator slot blockHash

end SlashingEngine

/-! ## The node -/

structure Node where
  db : Db
  slashing : Option SlashingEngine
  deriving DecidableEq

def Node.dbPart : Act.Part Node Db where
  get n := n.db
  set db n := { n with db := db }
  get_set _ _ := rfl
  set_get _ := rfl
  set_set _ _ _ := rfl

def onDb {α : Type} (m : Act Fault Db α) : Act Fault Node α := Act.on Node.dbPart m

def slash (now : Int) (validator : String) (reason : SlashReason) (epoch : Int) (e : SlashingEngine) : Act Fault Node Unit :=
  if validator ∈ e.slashed then pure ()
  else do
    let event : SlashEvent :=
      { validator := validator, reason := reason, epoch := epoch, timestamp := now, penalty := penalty reason }
    Act.write fun n => { n with slashing := some { e with slashed := validator :: e.slashed, events := e.events ++ [event] } }
    if e.persists then onDb (committed (Tables.slashValidator validator)) else pure ()

def recordProposal (now : Int) (validator : String) (height : Int) (e : SlashingEngine) : Act Fault Node Bool :=
  if validator ∈ e.slashed then pure false
  else if (height, validator) ∈ e.proposals then do
    slash now validator .doubleProposal (height / 32) e
    pure false
  else do
    Act.write fun n => { n with slashing := some { e with proposals := (height, validator) :: e.proposals } }
    pure true

end AbsoluteChain
