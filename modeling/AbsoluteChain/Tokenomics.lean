import AbsoluteChain.Binary64
import AbsoluteChain.Database

/-!
# Tokenomics and pool locks

The genesis allocation and the locks on the system pools, with the configuration
they and the chain read.
-/

namespace AbsoluteChain

open Python Actions

/-! ## Configuration -/

structure Config where
  chainId : Int := 77777
  networkName : String := "Absolute"
  maxSupply : ℚ := 221000000
  founderPercent : ℚ := 87 / 5
  founderAddress : String := ""
  founderInitials : String := "D.U.P."
  blockReward : ℚ := 50
  burnRate : ℚ := 1 / 50
  burnAddress : String := "0x000000000000000000000000000000000000dead"
  baseGasPrice : Int := 21000
  gasPriceWei : ℚ := 1 / 10000000
  minerAddress : String := ""
  signingAddress : String := ""
  minStake : ℚ := 1000
  requireSignatures : Bool := false
  enforceProposer : Bool := true
  verifyPeerStateRoot : Bool := true
  stateRootStrictP2p : Bool := true
  evmGasLimit : Int := 8000000
  deriving DecidableEq

/-! ## Genesis allocation -/

inductive ReleaseType where
  | genesis | mining | staking
  deriving DecidableEq

structure AllocationPool where
  id : PoolId
  name : String
  amountAbs : ℚ
  addressKey : String
  locked : Bool
  releaseType : ReleaseType

def maxSupplyAbs : ℚ := 221000000

def defaultFounderAddress : String := "0xbeb0962327d6f0ad8de263bd883bb184e88744a2"
def ecosystemAddress : String := "0xecosystem000000000000000000000000000001"
def treasuryAddress : String := "0xtreasury00000000000000000000000000001"
def stakingAddress : String := "0xstaking0000000000000000000000000000001"

def buildAllocations (founderAddress : String) : List AllocationPool :=
  [{ id := .founder, name := "Founder Allocation (D.U.P.)", amountAbs := 38454000,
     addressKey := orElse founderAddress defaultFounderAddress, locked := false, releaseType := .genesis },
   { id := .ecosystem, name := "Ecosystem & Development", amountAbs := 22100000,
     addressKey := ecosystemAddress, locked := true, releaseType := .genesis },
   { id := .treasury, name := "Community Treasury", amountAbs := 22100000,
     addressKey := treasuryAddress, locked := true, releaseType := .genesis },
   { id := .staking, name := "Staking Rewards Pool", amountAbs := 27846000,
     addressKey := stakingAddress, locked := true, releaseType := .staking },
   { id := .mining, name := "Mining Emission", amountAbs := 110500000,
     addressKey := "mining_pool", locked := false, releaseType := .mining }]

def genesisBalances (founderAddress : String) : Dict String Int :=
  (buildAllocations founderAddress).foldl
    (fun result pool => if pool.releaseType = .genesis then result.set pool.addressKey (truncate pool.amountAbs) else result)
    []

/-! ## Pool locks -/

def groupThousands : List Char → List Char
  | a :: b :: c :: d :: t => a :: b :: c :: ',' :: groupThousands (d :: t)
  | l => l

/-- `f"{q:,.2f}"`. -/
def formatMoney (q : ℚ) : String :=
  let cents := roundHalfEven (|q| * 100)
  let whole := (groupThousands (Nat.toDigits 10 (cents.toNat / 100)).reverse).reverse
  let frac := JsonText.intChars (cents % 100)
  String.ofList ((if q < 0 then ['-'] else []) ++ whole ++ '.' :: rjust 2 '0' frac)

def PoolId.text : PoolId → String
  | .founder => "founder"
  | .ecosystem => "ecosystem"
  | .treasury => "treasury"
  | .staking => "staking"
  | .mining => "mining"

/-- `PoolLockManager._ensure_state` on a database without the row. -/
def initialPoolLocks (founderAddress : String) : PoolLocksState :=
  let pools := (buildAllocations founderAddress).filter fun p => p.id = .ecosystem ∨ p.id = .treasury ∨ p.id = .staking
  { pools := pools.foldl (fun d p => d.set p.addressKey
      { id := p.id, name := p.name, locked := p.locked, total := p.amountAbs, released := 0, spent := 0,
        daoUnlocked := false, daoVotes := [] }) []
    stakingEpochsReleased := 0
    lastEpoch := -1 }

def Tables.lockedPools (t : Tables) : Dict String PoolInfo := (t.poolLocks.map PoolLocksState.pools).getD []

def PoolInfo.spendable (info : PoolInfo) (balance : ℚ) : ℚ :=
  match info.id with
  | .staking => max 0 (info.released - info.spent)
  | .ecosystem | .treasury => if info.daoUnlocked then max 0 (info.total - info.spent) else 0
  | _ => balance

def spendableBalance (t : Tables) (address : String) (balance : ℚ) : ℚ :=
  match t.lockedPools.get? address with
  | none => balance
  | some info => info.spendable balance

def outgoingRefusal (t : Tables) (fromAddr : String) (amount balance : ℚ) : Option String :=
  match t.lockedPools.get? fromAddr with
  | none => none
  | some info =>
    let spendable := info.spendable balance
    if spendable + 1 / 1000000000 < amount then
      if (info.id = .ecosystem ∨ info.id = .treasury) ∧ ¬ info.daoUnlocked then
        some (info.id.text ++ "_dao_locked: требуется голосование DAO")
      else if info.id = .staking then
        some ("staking_locked: доступно " ++ formatMoney spendable ++ " ABS (released " ++ formatMoney info.released ++
          ", spent " ++ formatMoney info.spent ++ ")")
      else some ("pool_locked: spendable=" ++ formatMoney spendable)
    else none

/-- `spent + float(amount)`, in doubles. The amount is a sum in doubles too. -/
def countSpent (spent amount : ℚ) : ℚ := Binary64.round (spent + Binary64.round amount)

def PoolLocksState.spend (state : PoolLocksState) (address : String) (info : PoolInfo) (amount : ℚ) : PoolLocksState :=
  { state with pools := state.pools.set address { info with spent := countSpent info.spent amount } }

def recordOutgoing (fromAddr : String) (amount : ℚ) : Act Fault Db Unit := do
  let state ← query Tables.poolLocks
  match state with
  | none => pure ()
  | some s =>
    match s.pools.get? fromAddr with
    | none => pure ()
    | some info => committed (Tables.setPoolLocks (s.spend fromAddr info amount))

end AbsoluteChain
