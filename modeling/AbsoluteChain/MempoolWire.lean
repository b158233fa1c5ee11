import AbsoluteChain.Mempool

/-!
# Mempool transactions on the wire

`mempool_tx_to_wire` of `blockchain/mempool_wire.py` and `_ingest_peer_tx` of
`network/p2p_node.py`: what is left of a transaction that goes from one pool to another.
-/

namespace Python

def Num.toFloat (x : Num) : Num := .float x.toRat

end Python

namespace AbsoluteChain

open Python

/-! ## The two ends -/

/-- The dict of a transaction. Addresses, sums, data and hashes go under two names. -/
structure TxWire where
  hash : Option String
  txHash : Option String
  fromAddr : Option String
  from' : Option String
  toAddr : Option String
  to' : Option String
  value : Option Python.Num
  amount : Option Python.Num
  fee : Option ℚ
  nonce : Option Int
  signature : Option String
  publicKey : Option String
  data : Option String
  input : Option String
  gas : Option Int
  timestamp : Option ℚ

def mempoolTxToWire (tx : MempoolTransaction) : TxWire :=
  { hash := some tx.txHash
    txHash := some tx.txHash
    fromAddr := some tx.fromAddr
    from' := some tx.fromAddr
    toAddr := some tx.toAddr
    to' := some tx.toAddr
    value := some (Num.toFloat tx.amount)
    amount := some (Num.toFloat tx.amount)
    fee := some tx.fee
    nonce := some tx.nonce
    signature := some tx.signature
    publicKey := some tx.publicKey
    data := some tx.data
    input := none
    gas := some (if tx.gas = 0 then 21000 else tx.gas)
    timestamp := some tx.timestamp }

namespace TxWire

variable (d : TxWire)

def sum : Python.Num := Num.toFloat (field d.value d.amount (.int 0))

def units : Int := if d.gas.getD 0 = 0 then 21000 else d.gas.getD 0

def transaction (host : Host) (now : Int) : Transaction :=
  Transaction.init host now
    { fromAddr := field d.fromAddr d.from' "", toAddr := field d.toAddr d.to' "", value := d.sum, nonce := d.nonce.getD 0
      gas := d.units, data := field d.data d.input "", txHash := field d.hash d.txHash "", signature := d.signature.getD ""
      publicKey := d.publicKey.getD "", timestamp := 0 }

def entry (c : Blockchain) (now : Int) (clock : ℚ) : MempoolTransaction :=
  { txHash := (d.transaction c.host now).hash, fromAddr := field d.fromAddr d.from' "", toAddr := field d.toAddr d.to' ""
    amount := d.sum, fee := d.fee.getD (d.units * c.config.gasPriceWei), nonce := d.nonce.getD 0
    signature := d.signature.getD "", publicKey := d.publicKey.getD "", data := field d.data d.input "", gas := d.units
    timestamp := clock }

end TxWire

namespace Mempool

def ingestPeerTx (c : Blockchain) (tables : Tables) (now : Int) (clock : ℚ) (d : TxWire) (p : Mempool) : Bool × Mempool :=
  if (c.validateTransaction tables (d.transaction c.host now)).isOk then p.add c.host tables (d.entry c now clock)
  else (false, p)

/-- Two entries that Python takes for equal. -/
def SameEntry (e t : MempoolTransaction) : Prop := { e with amount := t.amount } = t ∧ e.amount.toRat = t.amount.toRat

def RoundTrips (c : Blockchain) (tables : Tables) (now : Int) (clock : ℚ) (p : Mempool) (t : MempoolTransaction) : Prop :=
  ∃ e, (p.ingestPeerTx c tables now clock (mempoolTxToWire t)).2.transactions.get? t.txHash = some e ∧ SameEntry e t

structure Valid (c : Blockchain) (tables : Tables) (p : Mempool) (t : MempoolTransaction) : Prop where
  chain : (c.validateTransaction tables (t.chainTx c)).isOk = true
  pool : p.Admits c.host tables t

/-! ## What a float changes -/

theorem signingValue_toFloat (v : Python.Num) : signingValue (Num.toFloat v) = signingValue v := by
  unfold signingValue
  cases v with
  | float q => rfl
  | int n =>
    have hint : ((n : Int) : ℚ) = (truncate (n : ℚ) : ℚ) := by
      unfold truncate
      simp
    show (if (n : ℚ) = (truncate (n : ℚ) : ℚ) then _ else _) = (if (n : ℚ) = (truncate (n : ℚ) : ℚ) then _ else _)
    rw [if_pos hint, if_pos hint]
    rfl

/-- The chain looks at the sum, not at how it is written, and not at clock or hash. -/
theorem validateTransaction_congr (c : Blockchain) (tables : Tables) {tx tx' : Transaction} (hfrom : tx'.fromAddr = tx.fromAddr)
    (hto : tx'.toAddr = tx.toAddr) (hvalue : tx'.value = Num.toFloat tx.value) (hnonce : tx'.nonce = tx.nonce)
    (hgas : tx'.gas = tx.gas) (hdata : tx'.data = tx.data) (hsignature : tx'.signature = tx.signature)
    (hkey : tx'.publicKey = tx.publicKey) : c.validateTransaction tables tx' = c.validateTransaction tables tx := by
  have hpayload : tx'.payload c.config.chainId = tx.payload c.config.chainId := by
    unfold Transaction.payload
    rw [hfrom, hto, hvalue, hnonce, hgas, hdata, hsignature, hkey, signingValue_toFloat]
  have hrat : tx'.value.toRat = tx.value.toRat := by
    rw [hvalue]
    rfl
  unfold Blockchain.validateTransaction verifyTxSignature Blockchain.validateEvmDeployBytecode Blockchain.isEvmDeployTx
  rw [hpayload, hrat, hfrom, hto, hnonce, hgas, hdata, hsignature, hkey]

def received (clock : ℚ) (t : MempoolTransaction) : MempoolTransaction :=
  { t with amount := Num.toFloat t.amount, gas := if t.gas = 0 then 21000 else t.gas, timestamp := clock }

theorem admits_received {c : Blockchain} {tables : Tables} {p : Mempool} {t : MempoolTransaction} (h : p.Admits c.host tables t)
    (hgas : t.gas ≠ 0) (clock : ℚ) : p.Admits c.host tables (received clock t) := by
  obtain ⟨hnew, hvalid, hsigned, hchain⟩ := h
  refine ⟨hnew, hvalid, ?_, ?_⟩
  · have hpayload : (received clock t).signed p.chainId = t.signed p.chainId := by
      unfold MempoolTransaction.signed received
      dsimp only
      rw [signingValue_toFloat, if_neg hgas, if_neg hgas]
    unfold MempoolTransaction.hasValidSignature at hsigned ⊢
    rw [hpayload]
    exact hsigned
  · unfold chainAccepts at hchain ⊢
    cases hc : p.blockchain with
    | none => rfl
    | some c' =>
      have hsame : c'.validateTransaction tables ((received clock t).chainTx c') =
          c'.validateTransaction tables (t.chainTx c') := by
        apply validateTransaction_congr
        · rfl
        · rfl
        · rfl
        · rfl
        · unfold MempoolTransaction.chainTx received
          dsimp only
          rw [if_neg hgas]
        · rfl
        · rfl
        · rfl
      rw [hc] at hchain
      dsimp only at hchain ⊢
      rw [hsame]
      exact hchain

theorem wire_units (t : MempoolTransaction) : (mempoolTxToWire t).units = if t.gas = 0 then 21000 else t.gas := by
  unfold TxWire.units mempoolTxToWire
  dsimp only
  rw [Option.getD_some]
  by_cases h : t.gas = 0
  · rw [if_pos h]
    rfl
  · rw [if_neg h, if_neg h]

theorem wire_entry {t : MempoolTransaction} (hhash : t.txHash ≠ "") (c : Blockchain) (now : Int) (clock : ℚ) :
    (mempoolTxToWire t).entry c now clock = received clock t := by
  unfold TxWire.entry TxWire.transaction
  rw [wire_units]
  unfold Transaction.init orElse
  dsimp only
  have hwire : field (mempoolTxToWire t).hash (mempoolTxToWire t).txHash "" = t.txHash := rfl
  rw [hwire, if_neg hhash]
  rfl

theorem wire_valid {t : MempoolTransaction} (hgas : t.gas ≠ 0) (c : Blockchain) (tables : Tables) (now : Int) :
    c.validateTransaction tables ((mempoolTxToWire t).transaction c.host now) = c.validateTransaction tables (t.chainTx c) := by
  apply validateTransaction_congr
  · rfl
  · rfl
  · rfl
  · rfl
  · show (mempoolTxToWire t).units = if t.gas = 0 then c.config.baseGasPrice else t.gas
    rw [wire_units, if_neg hgas, if_neg hgas]
  · rfl
  · rfl
  · rfl

theorem txHash_ne_empty {c : Blockchain} {tables : Tables} {p : Mempool} {t : MempoolTransaction} (h : p.Admits c.host tables t) :
    t.txHash ≠ "" := by
  intro hempty
  have hvalid := h.2.1
  unfold MempoolTransaction.validateMempoolTx at hvalid
  rw [hempty] at hvalid
  simp at hvalid

theorem get_store (p : Mempool) (tx : MempoolTransaction) : (p.store tx).transactions.get? tx.txHash = some tx :=
  Dict.get?_set_self _ _ _

/-- A transaction keeps all its fields on the way exactly when it names its gas and the peer reads on its clock
the time that the transaction has. -/
theorem wire_round_trip_iff {c : Blockchain} {tables : Tables} {p : Mempool} {t : MempoolTransaction} (now : Int) (clock : ℚ)
    (h : Valid c tables p t) : RoundTrips c tables now clock p t ↔ t.gas ≠ 0 ∧ clock = t.timestamp := by
  have hstored : ∀ {q : Mempool}, q = p.store (received clock t) → q.transactions.get? t.txHash = some (received clock t) := by
    rintro q rfl
    exact get_store p (received clock t)
  unfold RoundTrips ingestPeerTx
  rw [wire_entry (txHash_ne_empty h.pool)]
  constructor
  · rintro ⟨e, he, hsame, -⟩
    have hentry : e = received clock t := by
      have hnone : p.transactions.get? t.txHash = none := Option.not_isSome_iff_eq_none.mp (by
        have hnew := h.pool.1
        unfold Dict.contains at hnew
        rw [hnew]
        exact Bool.false_ne_true)
      split at he
      · by_cases hadmits : p.Admits c.host tables (received clock t)
        · rw [hstored (add_admitted hadmits)] at he
          exact (Option.some.inj he).symm
        · obtain ⟨n, hn⟩ := add_refused hadmits
          rw [hn] at he
          exact nomatch hnone.symm.trans he
      · exact nomatch hnone.symm.trans he
    rw [hentry] at hsame
    have hgas : (if t.gas = 0 then 21000 else t.gas) = t.gas := congrArg MempoolTransaction.gas hsame
    refine ⟨fun hzero => ?_, congrArg MempoolTransaction.timestamp hsame⟩
    rw [if_pos hzero, hzero] at hgas
    cases hgas
  · rintro ⟨hgas, hclock⟩
    rw [wire_valid hgas, if_pos h.chain, add_admitted (admits_received h.pool hgas clock)]
    refine ⟨received clock t, get_store p _, ?_, rfl⟩
    unfold received
    rw [if_neg hgas, hclock]

/-! ### A pool that takes a transfer -/

def gossipTables : Tables := Tables.empty.applyBalanceDelta "alice" 100

def gossipPool : Mempool := (start 10000 (1 / 10000)).setBlockchain .plain

theorem gossip_valid : Valid .plain gossipTables gossipPool (unsigned "x") where
  chain := by decide +kernel
  pool := ⟨by decide +kernel, by decide +kernel, by decide +kernel, by decide +kernel⟩

theorem wire_round_trip_punctual : Valid .plain gossipTables gossipPool (unsigned "x") ∧
    RoundTrips .plain gossipTables 5 0 gossipPool (unsigned "x") :=
  ⟨gossip_valid, (wire_round_trip_iff 5 0 gossip_valid).mpr ⟨by decide, rfl⟩⟩

/-- A peer whose clock reads 5 files a transaction of time 0 under time 5. -/
theorem wire_loses_timestamp : Valid .plain gossipTables gossipPool (unsigned "x") ∧
    ¬ RoundTrips .plain gossipTables 5 5 gossipPool (unsigned "x") := by
  refine ⟨gossip_valid, ?_⟩
  unfold RoundTrips ingestPeerTx
  rw [wire_entry (txHash_ne_empty gossip_valid.pool), wire_valid (by decide), if_pos gossip_valid.chain,
    add_admitted (admits_received gossip_valid.pool (by decide) 5)]
  rintro ⟨e, he, hsame, -⟩
  obtain rfl := Option.some.inj ((get_store gossipPool (received 5 (unsigned "x"))).symm.trans he)
  have htime : (5 : ℚ) = 0 := congrArg MempoolTransaction.timestamp hsame
  norm_num at htime

end Mempool

end AbsoluteChain
