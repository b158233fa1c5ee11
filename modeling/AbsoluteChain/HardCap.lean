import AbsoluteChain.BridgeLocks
import AbsoluteChain.Creations
import AbsoluteChain.Nonces
import AbsoluteChain.Restart

/-!
# The hard cap

Only the block reward is cut to what `max_supply` leaves. Blocks, reorganisations and
deposits over the bridge keep the sum of all balances within it as long as nothing else
creates coins: every table that a commit makes durable on the way stays within the cap.
With all amounts on one grid and the cap below `2 ^ 53` units, no sum of doubles is rounded.
-/

namespace AbsoluteChain

open Python Actions Act Transactions KeyedTable Runs

/-! ## Tables within the cap -/

namespace Tables

structure Within (cap : ℚ) (t : Tables) : Prop where
  solvent : t.Solvent
  capped : t.getTotalSupply ≤ cap

variable {cap : ℚ} {t u : Tables}

theorem Within.congr (h : t.Within cap) (ha : u.accounts = t.accounts) : u.Within cap :=
  ⟨fun a => (balance_congr ha a).symm ▸ h.solvent a, (supply_congr ha).symm ▸ h.capped⟩

/-- A debit that is not positive creates nothing. -/
theorem supply_lowered (h : t.Solvent) (a : String) {delta : ℚ} (hd : delta ≤ 0) :
    (t.applyBalanceDelta a delta).getTotalSupply ≤ t.getTotalSupply := by
  have hclip : t.clipped a delta ≤ -delta := by
    have := h a
    apply max_le
    · linarith
    · linarith
  rw [supply_applyBalanceDelta]
  linarith

theorem supply_raised (h : t.Solvent) (a : String) {delta : ℚ} (hd : 0 ≤ delta) :
    (t.applyBalanceDelta a delta).getTotalSupply = t.getTotalSupply + delta := by
  rw [supply_applyBalanceDelta, h.clipped a hd, add_zero]

theorem Within.applyBalanceDelta (h : t.Within cap) (a : String) {delta : ℚ} (hd : t.getTotalSupply + delta ≤ cap) :
    (t.applyBalanceDelta a delta).Within cap := by
  refine ⟨h.solvent.applyBalanceDelta a delta, ?_⟩
  rcases le_total delta 0 with hneg | hpos
  · exact (supply_lowered h.solvent a hneg).trans h.capped
  · rw [supply_raised h.solvent a hpos]
    exact hd

structure Booked (e : ℤ) (cap : ℚ) (t : Tables) : Prop where
  within : t.Within cap
  gridded : t.Gridded e

variable {e : ℤ}

theorem Booked.congr (h : t.Booked e cap) (ha : u.accounts = t.accounts) : u.Booked e cap :=
  ⟨h.within.congr ha, h.gridded.congr ha⟩

theorem Booked.applyBalanceDelta (h : t.Booked e cap) (a : String) {delta : ℚ} (hm : Binary64.Multiple e delta)
    (hd : t.getTotalSupply + delta ≤ cap) : (t.applyBalanceDelta a delta).Booked e cap :=
  ⟨h.within.applyBalanceDelta a hd, h.gridded.applyBalanceDelta a hm⟩

end Tables

structure Config.OnGrid (e : ℤ) (config : Config) : Prop where
  normal : -1074 ≤ e
  whole : e ≤ 0
  cap : config.maxSupply < 2 ^ (e + 53)
  maxSupply : Binary64.Multiple e config.maxSupply
  reward : Binary64.Multiple e config.blockReward

structure Blockchain.Charge.OnGrid (e : ℤ) (ch : Blockchain.Charge) : Prop where
  fee : Binary64.Multiple e ch.fee
  burned : Binary64.Multiple e ch.burned

/-! ## Contract runs -/

namespace Movement

def OnGrid (e : ℤ) : Movement → Prop
  | .stay => True
  | .pay _ _ value => Binary64.Multiple e value
  | .endow _ _ opened => Binary64.Multiple e opened.balance
  | .destroy _ _ left => Binary64.Multiple e left.balance

variable {e : ℤ}

end Movement

namespace EvmAdapter

variable {e : EvmAdapter}

def Entry.value : Entry → ℚ
  | .call _ _ _ value _ => value
  | .deploy _ _ value _ _ => value

end EvmAdapter

/-! ## Transactions -/

namespace Blockchain

open EvmAdapter

variable {c : Blockchain} {now height : Int} {proposer : String} {tx : Transaction} {db : Db}

/-- A transaction that creates no coins: neither its value nor its gas is negative, and the contract it
runs takes only what is there, creates nothing, and leaves the sender the fee. All it moves is on the grid. -/
structure Fair (e : ℤ) (c : Blockchain) (now height : Int) (db : Db) (tx : Transaction) : Prop where
  value : 0 ≤ tx.value.toRat
  gas : 0 ≤ tx.gas
  whole : Binary64.Multiple e tx.value.toRat
  charge : (c.charge (c.gasFee tx.gas)).OnGrid e
  contract : ∀ entry, c.contractEntry db.live tx height = some entry →
    (∀ d ∈ entry.debits (c.adapter now) db, d.Covered) ∧ entry.minted (c.adapter now) db ≤ 0 ∧
    (∀ p ∈ entry.movements (c.adapter now) db, p.2.OnGrid e) ∧
    ∀ res db₁, entry.run (c.adapter now) db = (.ok res, db₁) → res.success →
      (c.contractCharge tx res.gasUsed).fee ≤ db₁.live.getBalance tx.fromAddr ∧ (c.contractCharge tx res.gasUsed).OnGrid e

def FairTxs (e : ℤ) (c : Blockchain) (now height : Int) (proposer : String) : List Transaction → Db → Prop
  | [], _ => True
  | tx :: rest, db => Fair e c now height db tx ∧
      ∀ tx' db', c.applyTransaction now tx height proposer db = (.ok tx', db') → FairTxs e c now height proposer rest db'

variable {e : ℤ} {cap : ℚ}

theorem settleDrift_nonpos {ch : Charge} {t : Tables} (ht : t.Solvent) (hm : 0 ≤ ch.minerFee) (hb : 0 ≤ ch.burned) :
    c.settleDrift proposer ch t ≤ 0 := by
  unfold settleDrift
  rw [ht.clipped _ hm]
  by_cases h : 0 < ch.burned ∧ c.config.burnAddress ≠ ""
  · rw [if_pos h, (ht.applyBalanceDelta _ _).clipped _ hb, add_zero]
  · rw [if_neg h]
    linarith

theorem within_transfer (hs : c.config.Sound) {t : Tables} (ht : t.Within cap) (hv : 0 ≤ tx.value.toRat)
    (hg : 0 ≤ tx.gas) (h : c.precheck t tx = .ok ()) :
    (c.transferTables tx proposer t).Within cap := by
  refine ⟨solvent_transferTables ht.solvent tx proposer, ?_⟩
  have hfee := gasFee_nonneg hs hg
  have hdebited := ht.solvent.applyBalanceDelta tx.fromAddr (-(tx.value.toRat + (c.charge (c.gasFee tx.gas)).fee))
  have hdrift : c.transferDrift tx proposer t ≤ 0 := by
    unfold transferDrift
    dsimp only
    rw [hdebited.clipped _ hv, zero_add]
    exact settleDrift_nonpos (hdebited.applyBalanceDelta _ _) (minerFee_nonneg hs hfee) (burned_nonneg hs hfee)
  rw [supply_transferTables proposer h]
  linarith [ht.capped]

variable {b b' : Block} {preserve : Bool} {n n' : Node}

def RoomForBurn (e : ℤ) (c : Blockchain) (now : Int) (b : Block) (db : Db) : Prop :=
  0 < c.burnedIn now b db → c.config.burnAddress ≠ "" → Binary64.Multiple e (c.burnedIn now b db) ∧
    db.live.getTotalSupply + c.config.blockReward + c.burnedIn now b db ≤ c.config.maxSupply

def FairReplay (e : ℤ) (c : Blockchain) (now : Int) : Nat → Int → Db → Prop
  | 0, _, _ => True
  | k + 1, h, db => ∀ d, db.live.getBlock h = some d →
      let b := Block.fromDict c.host now d.asPeer
      FairTxs e c now b.height b.miner b.transactions db ∧
        ∀ txs db', c.applyTransactions now b.height b.miner b.transactions db = (.ok txs, db') →
          FairReplay e c now k (h + 1) (c.applyBlockReward b.miner db').2

def genesisTables (c : Blockchain) : Tables := Tables.empty.resetAccounts (genesisBalances c.config.founderAddress)

theorem getAccount_reset (founder a : String) (t : Tables) : (t.resetAccounts (genesisBalances founder)).getAccount a =
    ((genesisBalances founder).get? a).map fun v : Int => { balance := v, nonce := 0, code := none, storage := none } := by
  have hrow := Table.get_foldl_put (fun v : Int => ({ balance := v, nonce := 0, code := none, storage := none } : Account))
    (genesisBalances_keyed founder) .empty a
  exact hrow.trans (Option.or_none ..)

theorem solvent_resetAccounts (founder : String) (t : Tables) : (t.resetAccounts (genesisBalances founder)).Solvent := by
  intro a
  unfold Tables.getBalance
  rw [getAccount_reset]
  cases hget : (genesisBalances founder).get? a with
  | none => exact le_rfl
  | some v => exact Int.cast_nonneg (genesisBalances_nonneg (Dict.mem_of_get? hget))

end Blockchain

/-! ## Runs -/

structure BridgedNode where
  node : Node
  bridgeCredits : Table String BridgeCredit
  bridgeLocks : Table String BridgeLock

def BridgedNode.bridgeDb (s : BridgedNode) : BridgeDb :=
  { tables := s.node.db.live, bridgeCredits := s.bridgeCredits, bridgeLocks := s.bridgeLocks }

def BridgedNode.withBridge (s : BridgedNode) (db : BridgeDb) : BridgedNode :=
  { node := { s.node with db := s.node.db.write fun _ => db.tables }, bridgeCredits := db.bridgeCredits,
    bridgeLocks := db.bridgeLocks }

inductive SupplyCall where
  | addBlock (now : Int) (b : Block) (preserve : Bool)
  | reorgToAncestor (now floor height : Int)
  | confirmIncoming (request : Incoming) (helper : Bool) (now : Int)

namespace SupplyCall

def run (c : Blockchain) (bridge : BridgeNode) : SupplyCall → BridgedNode → BridgedNode
  | .addBlock now b preserve, s => { s with node := (c.addBlock now b preserve s.node).2 }
  | .reorgToAncestor now floor height, s => { s with node := (onDb (c.reorgToAncestor now floor height) s.node).2 }
  | .confirmIncoming request helper now, s => s.withBridge (bridge.confirmIncoming request helper now s.bridgeDb).2

/-- Nothing but rewards creates coins: the transactions executed or replayed are fair, what a stored
block burns has room to be credited again, and so has a deposit that is credited. All amounts are on the grid. -/
def Fair (e : ℤ) (c : Blockchain) (bridge : BridgeNode) : SupplyCall → BridgedNode → Prop
  | .addBlock now b preserve, s =>
    (c.admitBlock s.node b = .ok () → Blockchain.FairTxs e c now b.height b.miner b.transactions s.node.db.opened) ∧
      ((c.addBlock now b preserve s.node).1.toOption.isSome → Blockchain.RoomForBurn e c now b s.node.db)
  | .reorgToAncestor now floor height, s =>
    ¬ Blockchain.ReorgRefused floor height s.node.db → height ≤ s.node.db.live.getChainTip →
      Blockchain.FairReplay e c now height.toNat 1 (c.replayDb height s.node.db)
  | .confirmIncoming request helper _, s => BridgeNode.Credits bridge request helper s.bridgeDb →
    Binary64.Multiple e request.amount.toRat ∧ s.node.db.live.getTotalSupply + request.amount.toRat ≤ c.config.maxSupply

variable {e : ℤ} {c : Blockchain} {bridge : BridgeNode}

/-- Between two calls no transaction is open and the balances are within the cap and on the grid. -/
structure Inv (e : ℤ) (c : Blockchain) (s : BridgedNode) : Prop where
  closed : s.node.db.pending = none
  booked : s.node.db.live.Booked e c.config.maxSupply

end SupplyCall

end AbsoluteChain
