import AbsoluteChain.Binary64
import AbsoluteChain.Digest
import AbsoluteChain.Json
import Mathlib.Data.String.Basic

/-!
# Transactions and blocks

The two structures of the chain, the dictionaries they are built from and turned
into, and the hashes they carry.
-/

namespace AbsoluteChain

open Python JsonText

/-! ## What lies outside the repository -/

/-- The interpreter and the libraries the node runs on: the text of a float,
`str.lower`, ECDSA verification of `(message, signature, public_key)`, and the
memory and the nesting depth beyond which the interpreter raises. -/
structure Host where
  floatRepr : ℚ → List Char
  lower : String → String
  verify : Bytes → Bytes → Bytes → Bool
  memoryLimit : Nat
  recursionLimit : Nat

/-- A host that writes whole amounts as Python does, lowers ASCII and accepts no signature. -/
def Host.plain : Host where
  floatRepr q := if q.den = 1 then intChars q.num ++ ['.', '0'] else intChars q.num ++ 'e' :: Nat.toDigits 10 q.den
  lower s := String.ofList (s.toList.map Char.toLower)
  verify _ _ _ := false
  memoryLimit := 2 ^ 30
  recursionLimit := 200

def strInt (n : Int) : String := String.ofList (intChars n)

def Host.strNum (host : Host) : Python.Num → String
  | .int n => strInt n
  | .float q => String.ofList (host.floatRepr q)

def sha256Hex (bs : Bytes) : String := Digest.sha256Hex bs

def hashData (s : String) : String := sha256Hex (encode s)

/-- `a or b` on text. -/
def orElse (a b : String) : String := if a = "" then b else a

/-! ## Transactions -/

structure Transaction where
  fromAddr : String
  toAddr : String
  value : Python.Num
  nonce : Int
  gas : Int
  data : String
  signature : String
  publicKey : String
  timestamp : Int
  hash : String
  blockHeight : Int
  gasUsed : Int
  fee : ℚ
  burned : ℚ
  deriving DecidableEq

def Transaction.computeHash (host : Host) (tx : Transaction) : String :=
  sha256Hex (encode (tx.fromAddr ++ tx.toAddr ++ host.strNum tx.value ++ strInt tx.nonce ++ strInt tx.gas ++
    tx.data ++ strInt tx.timestamp))

structure TxFields where
  fromAddr : String
  toAddr : String
  value : Python.Num
  nonce : Int
  gas : Int
  data : String
  txHash : String
  signature : String
  publicKey : String
  timestamp : Int

def Transaction.init (host : Host) (now : Int) (a : TxFields) : Transaction :=
  let tx : Transaction :=
    { fromAddr := a.fromAddr, toAddr := a.toAddr, value := a.value, nonce := a.nonce, gas := a.gas, data := a.data,
      signature := a.signature, publicKey := a.publicKey,
      timestamp := if a.timestamp = 0 then now else a.timestamp,
      hash := a.txHash, blockHeight := 0, gasUsed := a.gas, fee := 0, burned := 0 }
  { tx with hash := orElse a.txHash (tx.computeHash host) }

structure TxDict where
  hash : String
  fromAddr : String
  toAddr : String
  value : Python.Num
  nonce : Int
  gas : Int
  gasUsed : Int
  fee : ℚ
  burned : ℚ
  data : String
  signature : String
  publicKey : String
  timestamp : Int
  blockHeight : Int
  deriving DecidableEq

def Transaction.toDict (tx : Transaction) : TxDict :=
  { hash := tx.hash, fromAddr := tx.fromAddr, toAddr := tx.toAddr, value := tx.value, nonce := tx.nonce, gas := tx.gas,
    gasUsed := tx.gasUsed, fee := tx.fee, burned := tx.burned, data := tx.data, signature := tx.signature,
    publicKey := tx.publicKey, timestamp := tx.timestamp, blockHeight := tx.blockHeight }

/-- A transaction as a peer sends it. Any field may be missing, and some go under
two names: `from_addr` or `from`, `to_addr` or `to`, `value` or `amount`, `data`
or `tx_data`, `hash` or `tx_hash`. -/
structure PeerTx where
  hash : Option String := none
  txHash : Option String := none
  fromAddr : Option String := none
  fromShort : Option String := none
  toAddr : Option String := none
  toShort : Option String := none
  value : Option Python.Num := none
  amount : Option Python.Num := none
  nonce : Option Int := none
  gas : Option Int := none
  data : Option String := none
  txData : Option String := none
  signature : Option String := none
  publicKey : Option String := none
  timestamp : Option Int := none
  fee : Option ℚ := none
  burned : Option ℚ := none
  blockHeight : Option Int := none
  deriving DecidableEq

def field {α : Type} (key other : Option α) (default : α) : α := key.getD (other.getD default)

def Transaction.fromDict (host : Host) (now : Int) (d : PeerTx) : Transaction :=
  let tx := Transaction.init host now
    { fromAddr := field d.fromAddr d.fromShort "", toAddr := field d.toAddr d.toShort "",
      value := .float (field d.value d.amount (.int 0)).toRat, nonce := d.nonce.getD 0, gas := d.gas.getD 21000,
      data := field d.data d.txData "", txHash := field d.hash d.txHash "", signature := d.signature.getD "",
      publicKey := d.publicKey.getD "", timestamp := d.timestamp.getD 0 }
  { tx with fee := d.fee.getD 0, burned := d.burned.getD 0, blockHeight := d.blockHeight.getD 0 }

/-- A stored transaction read back as a dictionary. -/
def TxDict.asPeer (d : TxDict) : PeerTx :=
  { hash := some d.hash, fromAddr := some d.fromAddr, toAddr := some d.toAddr, value := some d.value,
    nonce := some d.nonce, gas := some d.gas, fee := some d.fee, burned := some d.burned, data := some d.data,
    signature := some d.signature, publicKey := some d.publicKey, timestamp := some d.timestamp,
    blockHeight := some d.blockHeight }

/-! ## Merkle root -/

/-- One level of the tree. The last node of an odd level is paired with itself. -/
def mergeLayer : List String → List String
  | [] => []
  | [x] => [hashData (x ++ x)]
  | x :: y :: t => hashData (x ++ y) :: mergeLayer t

/-- Levels are merged until one node is left, at most as often as the first level is long. -/
def mergeLayers : Nat → List String → String
  | _, [] => ""
  | _, [x] => x
  | 0, x :: _ => x
  | fuel + 1, x :: y :: t => mergeLayers fuel (mergeLayer (x :: y :: t))

theorem length_mergeLayer_le : ∀ l : List String, (mergeLayer l).length ≤ l.length
  | [] => le_rfl
  | [_] => le_rfl
  | _ :: _ :: t => by
    have := length_mergeLayer_le t
    simp only [mergeLayer, List.length_cons]
    omega

theorem length_mergeLayer_lt (x y : String) (t : List String) :
    (mergeLayer (x :: y :: t)).length < (x :: y :: t).length := by
  have := length_mergeLayer_le t
  simp only [mergeLayer, List.length_cons]
  omega

/-- As many rounds as there are leaves are enough: more change nothing. -/
theorem mergeLayers_enough (n : Nat) : ∀ l : List String, l.length ≤ n + 1 → mergeLayers n l = mergeLayers (n + 1) l := by
  induction n with
  | zero =>
    intro l hl
    match l, hl with
    | [], _ => rfl
    | [_], _ => rfl
  | succ n ih =>
    intro l hl
    match l, hl with
    | [], _ => rfl
    | [_], _ => rfl
    | x :: y :: t, hl =>
      have := length_mergeLayer_lt x y t
      exact ih _ (by omega)

def merkleRoot (items : List String) : String :=
  match items with
  | [] => hashData "empty"
  | _ => mergeLayers items.length (items.map hashData)

/-! ## Canonical serialisation -/

/-- `CanonicalSerializer` keeps integers and cuts floats to millionths, in doubles. -/
def canonicalNum : Python.Num → Int
  | .int n => n
  | .float q => truncate (Binary64.round (q * 1000000))

def canonicalTx (tx : Transaction) : Json Empty :=
  dict [("hash", .str tx.hash), ("from", .str tx.fromAddr), ("to", .str tx.toAddr),
    ("amount", .int (canonicalNum tx.value)), ("fee", .int (canonicalNum (.float tx.fee))), ("nonce", .int tx.nonce),
    ("timestamp", .int tx.timestamp)]

/-- `json.dumps(..., sort_keys=True, separators=(',', ':'), ensure_ascii=False)`. -/
def canonicalSerialize (v : Json Empty) : String := dumps (compact escapeUnicode Empty.elim) v

/-! ## Blocks -/

/-- `tx_root` and `tx_count` are set by the constructor from transactions whose hashes never
change afterwards, so they are functions of the list here. -/
structure Block where
  height : Int
  parentHash : String
  miner : String
  transactions : List Transaction
  timestamp : Int
  extraData : String
  stateRoot : String
  gasUsed : Int
  totalBurned : ℚ
  hash : String
  deriving DecidableEq

def computeTxRoot (txs : List Transaction) : String :=
  match txs with
  | [] => merkleRoot ["empty"]
  | _ => merkleRoot (txs.map Transaction.hash)

def Block.txRoot (b : Block) : String := computeTxRoot b.transactions

def Block.txCount (b : Block) : Nat := b.transactions.length

def Block.canonical (b : Block) : Json Empty :=
  dict [("height", .int b.height), ("parent_hash", .str b.parentHash), ("miner", .str b.miner),
    ("timestamp", .int b.timestamp), ("extra_data", .str b.extraData), ("state_root", .str b.stateRoot),
    ("transactions", list ((sortedBy Transaction.hash b.transactions).map canonicalTx))]

def Block.computeHash (b : Block) : String := sha256Hex (encode (canonicalSerialize b.canonical))

structure BlockFields where
  height : Int
  parentHash : String
  miner : String
  transactions : List Transaction
  timestamp : Int
  blockHash : String
  extraData : String
  stateRoot : String

def Block.init (now : Int) (a : BlockFields) : Block :=
  let b : Block :=
    { height := a.height, parentHash := a.parentHash, miner := a.miner, transactions := a.transactions,
      timestamp := if a.timestamp = 0 then now else a.timestamp, extraData := a.extraData, stateRoot := a.stateRoot,
      gasUsed := (a.transactions.map Transaction.gasUsed).sum, totalBurned := (a.transactions.map Transaction.burned).sum,
      hash := a.blockHash }
  { b with hash := orElse a.blockHash b.computeHash }

structure BlockDict where
  height : Int
  hash : String
  parentHash : String
  miner : String
  timestamp : Int
  txCount : Nat
  gasUsed : Int
  totalBurned : ℚ
  extraData : String
  stateRoot : String
  txRoot : String
  transactions : List TxDict
  deriving DecidableEq

def Block.toDict (b : Block) : BlockDict :=
  { height := b.height, hash := b.hash, parentHash := b.parentHash, miner := b.miner, timestamp := b.timestamp,
    txCount := b.txCount, gasUsed := b.gasUsed, totalBurned := b.totalBurned, extraData := b.extraData,
    stateRoot := b.stateRoot, txRoot := b.txRoot, transactions := b.transactions.map Transaction.toDict }

structure PeerBlock where
  height : Option Int := none
  number : Option Int := none
  parentHash : Option String := none
  miner : Option String := none
  proposer : Option String := none
  timestamp : Option Int := none
  hash : Option String := none
  blockHash : Option String := none
  extraData : Option String := none
  stateRoot : Option String := none
  txRoot : Option String := none
  totalBurned : Option ℚ := none
  transactions : Option (List PeerTx) := none
  deriving DecidableEq

/-- `"0" * 64`. -/
def genesisHash : String := String.ofList (List.replicate 64 '0')

def Block.fromDict (host : Host) (now : Int) (d : PeerBlock) : Block :=
  let b := Block.init now
    { height := field d.height d.number 0, parentHash := d.parentHash.getD genesisHash,
      miner := field d.miner d.proposer "",
      transactions := (d.transactions.getD []).map (Transaction.fromDict host now),
      timestamp := d.timestamp.getD 0, blockHash := field d.hash d.blockHash "",
      extraData := d.extraData.getD "", stateRoot := d.stateRoot.getD "" }
  { b with totalBurned := d.totalBurned.getD 0 }

def BlockDict.asPeer (d : BlockDict) : PeerBlock :=
  { height := some d.height, parentHash := some d.parentHash, miner := some d.miner, timestamp := some d.timestamp,
    hash := some d.hash, extraData := some d.extraData, stateRoot := some d.stateRoot, txRoot := some d.txRoot,
    totalBurned := some d.totalBurned, transactions := some (d.transactions.map TxDict.asPeer) }

end AbsoluteChain
