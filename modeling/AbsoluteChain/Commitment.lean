import AbsoluteChain.Atomicity
import AbsoluteChain.JsonSound
import AbsoluteChain.Numbers

/-!
# What a hash commits to

The canonical text of a block determines its header and, of each transaction in the
order of their hashes, seven values. Execution reads more than that, and acceptance
does not ask for the hash at all.
-/

namespace AbsoluteChain

open Python JsonText Actions Act Transactions KeyedTable

/-! ## The canonical text -/

structure TxCommitment where
  hash : String
  fromAddr : String
  toAddr : String
  amount : Int
  fee : Int
  nonce : Int
  timestamp : Int
  deriving DecidableEq

def Transaction.commitment (tx : Transaction) : TxCommitment :=
  { hash := tx.hash, fromAddr := tx.fromAddr, toAddr := tx.toAddr, amount := canonicalNum tx.value,
    fee := canonicalNum (.float tx.fee), nonce := tx.nonce, timestamp := tx.timestamp }

structure BlockCommitment where
  height : Int
  parentHash : String
  miner : String
  timestamp : Int
  extraData : String
  stateRoot : String
  transactions : List TxCommitment
  deriving DecidableEq

def Block.commitment (b : Block) : BlockCommitment :=
  { height := b.height, parentHash := b.parentHash, miner := b.miner, timestamp := b.timestamp,
    extraData := b.extraData, stateRoot := b.stateRoot,
    transactions := (sortedBy Transaction.hash b.transactions).map Transaction.commitment }

def Block.preimage (b : Block) : Bytes := encode (canonicalSerialize b.canonical)

/-- SHA-256 tells two inputs apart. -/
def NoCollision (x y : Bytes) : Prop := sha256Hex x = sha256Hex y → x = y

def TxCommitment.json (t : TxCommitment) : Json Empty :=
  dict [("hash", .str t.hash), ("from", .str t.fromAddr), ("to", .str t.toAddr), ("amount", .int t.amount),
    ("fee", .int t.fee), ("nonce", .int t.nonce), ("timestamp", .int t.timestamp)]

def BlockCommitment.json (b : BlockCommitment) : Json Empty :=
  dict [("height", .int b.height), ("parent_hash", .str b.parentHash), ("miner", .str b.miner),
    ("timestamp", .int b.timestamp), ("extra_data", .str b.extraData), ("state_root", .str b.stateRoot),
    ("transactions", list (b.transactions.map TxCommitment.json))]

theorem TxCommitment.json_inj {x y : TxCommitment} (h : x.json.sortKeys = y.json.sortKeys) : x = y := by
  have hv := sortKeys_dict (by rfl) h
  simp only [List.map_cons, List.map_nil, Json.sortKeys, List.cons.injEq, Json.str.injEq, Json.int.injEq] at hv
  obtain ⟨h₁, h₂, h₃, h₄, h₅, h₆, h₇, -⟩ := hv
  rw [TxCommitment.mk.injEq]
  exact ⟨h₁, h₂, h₃, h₄, h₅, h₆, h₇⟩

theorem BlockCommitment.json_inj {b₁ b₂ : BlockCommitment} (h : b₁.json.sortKeys = b₂.json.sortKeys) : b₁ = b₂ := by
  have hv := sortKeys_dict (by rfl) h
  simp only [List.map_cons, List.map_nil, List.cons.injEq, and_true] at hv
  obtain ⟨h₁, h₂, h₃, h₄, h₅, h₆, h₇⟩ := hv
  simp only [Json.sortKeys, Json.str.injEq, Json.int.injEq] at h₁ h₂ h₃ h₄ h₅ h₆
  have htxs := map_eq_of_sortKeys (g := id) (fun _ _ => TxCommitment.json_inj) (sortKeys_list h₇)
  rw [List.map_id, List.map_id] at htxs
  rw [BlockCommitment.mk.injEq]
  exact ⟨h₁, h₂, h₃, h₄, h₅, h₆, htxs⟩

theorem canonicalSerialize_inj {b₁ b₂ : BlockCommitment} (h : canonicalSerialize b₁.json = canonicalSerialize b₂.json) :
    b₁ = b₂ :=
  BlockCommitment.json_inj (dumps_inj (lawful_compact escapes_unicode (floatText_empty _)) h)

theorem canonical_eq (b : Block) : b.canonical = b.commitment.json := by
  show _ = dict [("height", .int b.height), ("parent_hash", .str b.parentHash), ("miner", .str b.miner),
    ("timestamp", .int b.timestamp), ("extra_data", .str b.extraData), ("state_root", .str b.stateRoot),
    ("transactions", list (((sortedBy Transaction.hash b.transactions).map Transaction.commitment).map TxCommitment.json))]
  rw [List.map_map]
  rfl

theorem canonical_congr {b₁ b₂ : Block} (h : b₁.commitment = b₂.commitment) : b₁.canonical = b₂.canonical := by
  rw [canonical_eq, canonical_eq, h]

theorem commitment_of_hash {b₁ b₂ : Block} (hc : NoCollision b₁.preimage b₂.preimage) (h : b₁.computeHash = b₂.computeHash) :
    b₁.commitment = b₂.commitment := by
  have htext : canonicalSerialize b₁.canonical = canonicalSerialize b₂.canonical := encode_inj (hc h)
  rw [canonical_eq, canonical_eq] at htext
  exact canonicalSerialize_inj htext

theorem hash_of_commitment {b₁ b₂ : Block} (h : b₁.commitment = b₂.commitment) : b₁.computeHash = b₂.computeHash := by
  unfold Block.computeHash
  rw [canonical_congr h]

/-! ## Blocks of arbitrary fields -/

/-- A transaction as `_compute_hash` of a block reads it. Amounts, fees and timestamps are what they were
constructed from: floats too, and `NaN`. -/
structure TxData where
  hash : String
  fromAddr : String
  toAddr : String
  value : Number
  fee : Number
  nonce : Int
  timestamp : Number

structure BlockData where
  height : Int
  parentHash : String
  miner : String
  timestamp : Number
  extraData : String
  stateRoot : String
  transactions : List TxData

def Host.strNumber (host : Host) : Number → String
  | .int n => strInt n
  | .float (.finite q) => String.ofList (host.floatRepr q)
  | .float (.infinite negative) => if negative then "-inf" else "inf"
  | .float .nan => "nan"

def Number.canonical : Number → Option Int
  | int n => some n
  | float (.finite q) =>
    if |Binary64.round (q * 1000000)| < 2 ^ 1024 then some (truncate (Binary64.round (q * 1000000))) else none
  | float _ => none

def TxData.commitment (tx : TxData) : Option TxCommitment := do
  let amount ← tx.value.canonical
  let fee ← tx.fee.canonical
  let timestamp ← tx.timestamp.canonical
  return { hash := tx.hash, fromAddr := tx.fromAddr, toAddr := tx.toAddr, amount, fee, nonce := tx.nonce, timestamp }

namespace BlockData

variable (host : Host) (b : BlockData)

def canonical : Option BlockCommitment := do
  let timestamp ← b.timestamp.canonical
  let transactions ← (sortedBy TxData.hash b.transactions).mapM TxData.commitment
  return { height := b.height, parentHash := b.parentHash, miner := b.miner, timestamp, extraData := b.extraData,
           stateRoot := b.stateRoot, transactions }

/-- `raw` of the fallback. -/
def joined : String :=
  strInt b.height ++ b.parentHash ++ b.miner ++ host.strNumber b.timestamp ++
    String.join (b.transactions.map TxData.hash) ++ b.extraData ++ b.stateRoot

def text : String :=
  match b.canonical with
  | some canonical => canonicalSerialize canonical.json
  | none => b.joined host

def computeHash : String := sha256Hex (encode (b.text host))

/-- What the hash covers. -/
def commitment : BlockCommitment ⊕ String :=
  match b.canonical with
  | some canonical => .inl canonical
  | none => .inr (b.joined host)

variable {host} {b₁ b₂ : BlockData}

end BlockData

/-! ### The blocks of the chain -/

/-- The amounts and the fee can be turned into millionths. -/
def Transaction.Canonical (tx : Transaction) : Prop :=
  (∀ q, tx.value = .float q → |Binary64.round (q * 1000000)| < 2 ^ 1024) ∧ |Binary64.round (tx.fee * 1000000)| < 2 ^ 1024

def Number.of : Python.Num → Number
  | .int n => .int n
  | .float q => .float (.finite q)

def Transaction.asData (tx : Transaction) : TxData :=
  { hash := tx.hash, fromAddr := tx.fromAddr, toAddr := tx.toAddr, value := .of tx.value, fee := .float (.finite tx.fee),
    nonce := tx.nonce, timestamp := .int tx.timestamp }

def Block.asData (b : Block) : BlockData :=
  { height := b.height, parentHash := b.parentHash, miner := b.miner, timestamp := .int b.timestamp, extraData := b.extraData,
    stateRoot := b.stateRoot, transactions := b.transactions.map Transaction.asData }

theorem Transaction.commitment_asData {tx : Transaction} (h : tx.Canonical) : tx.asData.commitment = some tx.commitment := by
  have hvalue : (Number.of tx.value).canonical = some (canonicalNum tx.value) := by
    cases hv : tx.value with
    | int n => rfl
    | float q => exact if_pos (h.1 q hv)
  have hfee : (Number.float (.finite tx.fee)).canonical = some (canonicalNum (.float tx.fee)) := if_pos h.2
  unfold TxData.commitment Transaction.asData
  rw [hvalue, hfee]
  rfl

theorem Block.computeHash_asData (host : Host) {b : Block} (h : ∀ tx ∈ b.transactions, tx.Canonical) :
    b.asData.computeHash host = b.computeHash := by
  have hsort : sortedBy TxData.hash (b.transactions.map Transaction.asData) =
      (sortedBy Transaction.hash b.transactions).map Transaction.asData := by
    refine (List.map_insertionSort _ _ _ _ fun x hx y hy => ?_).symm
    exact Iff.rfl
  have htxs : (sortedBy TxData.hash (b.transactions.map Transaction.asData)).mapM TxData.commitment =
      some ((sortedBy Transaction.hash b.transactions).map Transaction.commitment) := by
    rw [hsort]
    have hall : ∀ tx ∈ sortedBy Transaction.hash b.transactions, tx.Canonical := fun tx htx =>
      h tx ((List.perm_insertionSort _ _).mem_iff.mp htx)
    revert hall
    generalize sortedBy Transaction.hash b.transactions = txs
    intro hall
    induction txs with
    | nil => rfl
    | cons tx rest ih =>
      obtain ⟨hfirst, hrest⟩ := List.forall_mem_cons.mp hall
      rw [List.map_cons, List.mapM_cons, Transaction.commitment_asData hfirst, ih hrest]
      rfl
  have hcanonical : b.asData.canonical = some b.commitment := by
    unfold BlockData.canonical Block.asData
    dsimp only
    rw [htxs]
    rfl
  unfold BlockData.computeHash BlockData.text Block.computeHash
  rw [hcanonical, canonical_eq]

namespace Blockchain

variable {c : Blockchain} {now : Int}

/-- What `_apply_transaction` reads is the same. -/
structure SameFields (x y : Transaction) : Prop where
  fromAddr : x.fromAddr = y.fromAddr
  toAddr : x.toAddr = y.toAddr
  value : x.value = y.value
  nonce : x.nonce = y.nonce
  gas : x.gas = y.gas
  data : x.data = y.data

structure CommitmentsHold (host : Host) (executed : List Transaction) (b : Block) : Prop where
  hash : b.hash = b.computeHash
  txRoot : b.txRoot = merkleRoot (b.transactions.map Transaction.hash)
  txHashes : ∀ tx ∈ b.transactions, tx.hash = tx.computeHash host
  fields : List.Forall₂ SameFields executed b.transactions

def settled (c : Blockchain) (now : Int) (n : Node) (b : Block) : Block :=
  match c.applyTransactions now b.height b.miner b.transactions n.db.opened with
  | (.ok txs, db) => { b with transactions := txs, stateRoot := c.computeStateRoot (c.rewardTables b.miner db.live) }
  | (.error _, _) => b

structure SuppliedHashesMatch (c : Blockchain) (now : Int) (n : Node) (b : Block) (preserve : Bool) : Prop where
  hash : preserve = true → b.hash ≠ "" → b.hash = (c.settled now n b).computeHash
  txHashes : ∀ tx ∈ b.transactions, tx.hash = tx.computeHash c.host

def announced (c : Blockchain) (b : Block) : Block :=
  { b with
    transactions := b.transactions.map fun tx => { tx with fee := c.gasFee tx.gas }
    stateRoot := strip b.stateRoot }

def Ordinary (c : Blockchain) (now : Int) (n : Node) (b : Block) (preserve : Bool) : Prop :=
  c.Along now b.height b.miner (fun db tx => c.kindOf db.live tx = .transfer) b.transactions n.db.opened ∧
    preserve = true ∧ b.stateRoot ≠ "" ∧ c.stateRootCheckMode b.height b.stateRoot preserve = .strict

theorem txHashes_iff {height : Int} {proposer : String} {txs txs' : List Transaction} {db db' : Db}
    (h : TxSteps c now height proposer txs db txs' db') :
    (∀ tx ∈ txs', tx.hash = tx.computeHash c.host) ↔ ∀ tx ∈ txs, tx.hash = tx.computeHash c.host := by
  induction h with
  | nil => simp
  | @cons tx tx' rest rest' db db₁ db₂ step steps ih =>
    have hsame : (tx'.hash = tx'.computeHash c.host) ↔ (tx.hash = tx.computeHash c.host) := by
      rw [step.kept]
      rfl
    rw [List.forall_mem_cons, List.forall_mem_cons, hsame, ih]

theorem fields_kept {height : Int} {proposer : String} {txs txs' : List Transaction} {db db' : Db}
    (h : TxSteps c now height proposer txs db txs' db') : List.Forall₂ SameFields txs txs' := by
  refine h.kept.imp ?_
  intro tx tx' hkept
  rw [hkept]
  exact ⟨rfl, rfl, rfl, rfl, rfl, rfl⟩

theorem sorted_commitment (txs : List Transaction) :
    (sortedBy Transaction.hash txs).map Transaction.commitment = sortedBy TxCommitment.hash (txs.map Transaction.commitment) :=
  List.map_insertionSort _ _ _ _ fun _ _ _ _ => Iff.rfl

theorem commitment_transfers {height : Int} {proposer : String} {txs txs' : List Transaction} {db db' : Db}
    (h : c.applyTransactions now height proposer txs db = (.ok txs', db'))
    (hplain : c.Along now height proposer (fun db tx => c.kindOf db.live tx = .transfer) txs db) :
    txs'.map Transaction.commitment =
      (txs.map fun tx => { tx with fee := c.gasFee tx.gas }).map Transaction.commitment := by
  induction txs generalizing db txs' with
  | nil =>
    cases h
    rfl
  | cons tx rest ih =>
    unfold applyTransactions at h
    obtain ⟨tx', db₁, h₁, h⟩ := bind_ok.mp h
    obtain ⟨rest', db₂, h₂, h⟩ := bind_ok.mp h
    cases h
    obtain ⟨hkind, hrest⟩ := hplain
    rw [h₁] at hrest
    have hfirst : tx'.commitment = ({ tx with fee := c.gasFee tx.gas } : Transaction).commitment := by
      cases applyTransaction_ok h₁ with
      | transfer => rfl
      | contract _ kind => exact absurd hkind kind
    rw [List.map_cons, List.map_cons, List.map_cons, hfirst, ih h₂ hrest]

section
variable {n n' : Node} {b b' : Block} {preserve : Bool}

theorem Accepted.settled_eq (r : Accepted c now b preserve n b' n') :
    c.settled now n b = { b with transactions := r.txs, stateRoot := b'.stateRoot } := by
  unfold settled
  rw [← r.began, r.ran, r.stateRoot_eq]

theorem Accepted.computeHash_settled (r : Accepted c now b preserve n b' n') :
    (c.settled now n b).computeHash = b'.computeHash := by
  apply hash_of_commitment
  rw [r.settled_eq, ← r.transactions_eq]
  unfold Block.commitment
  rw [r.height_eq, congrArg Block.parentHash r.block_eq, congrArg Block.miner r.block_eq,
    congrArg Block.timestamp r.block_eq, congrArg Block.extraData r.block_eq]
  rfl

theorem commits_iff (r : Accepted c now b preserve n b' n') :
    CommitmentsHold c.host b.transactions b' ↔ SuppliedHashesMatch c now n b preserve := by
  have htxs : (∀ tx ∈ b'.transactions, tx.hash = tx.computeHash c.host) ↔
      ∀ tx ∈ b.transactions, tx.hash = tx.computeHash c.host := by
    rw [r.transactions_eq]
    exact txHashes_iff r.steps
  constructor
  · intro hc
    refine ⟨fun hp hne => ?_, htxs.mp hc.txHashes⟩
    rw [r.computeHash_settled, ← hc.hash, r.hash_eq, if_pos ⟨hp, hne⟩]
  · intro hs
    refine ⟨?_, ?_, htxs.mpr hs.txHashes, ?_⟩
    · rw [r.hash_eq]
      by_cases hk : preserve = true ∧ b.hash ≠ ""
      · rw [if_pos hk, ← r.computeHash_settled]
        exact hs.hash hk.1 hk.2
      · rw [if_neg hk]
    · unfold Block.txRoot computeTxRoot
      cases b'.transactions with
      | nil => simp only [merkleRoot, mergeLayers, List.map_cons, List.map_nil]
      | cons tx rest => rfl
    · rw [r.transactions_eq]
      exact fields_kept r.steps

theorem computeHash_announced (r : Accepted c now b preserve n b' n') (h : c.Ordinary now n b preserve) :
    (c.settled now n b).computeHash = (c.announced b).computeHash := by
  obtain ⟨hplain, hp, hroot, hmode⟩ := h
  apply hash_of_commitment
  have htxs := commitment_transfers r.ran (r.began ▸ hplain)
  rw [r.settled_eq, r.stateRoot_eq, ← r.rooted hp hroot hmode]
  unfold announced Block.commitment
  simp only [sorted_commitment, htxs]

end

/-! ### What a hash binds -/

def hashText (host : Host) (tx : Transaction) : String :=
  tx.fromAddr ++ tx.toAddr ++ host.strNum tx.value ++ strInt tx.nonce ++ strInt tx.gas ++ tx.data ++ strInt tx.timestamp

/-- What the hashes of a block say of a transaction: each field that its canonical form lists, and the joined text of
value, nonce, gas and data. -/
structure SameHashed (host : Host) (x y : Transaction) : Prop where
  commitment : x.commitment = y.commitment
  text : host.strNum x.value ++ strInt x.nonce ++ strInt x.gas ++ x.data = host.strNum y.value ++ strInt y.nonce ++ strInt y.gas ++ y.data

theorem SameHashed.data {host : Host} {x y : Transaction} (h : SameHashed host x y) (hvalue : x.value = y.value)
    (hgas : x.gas = y.gas) : x.data = y.data := by
  have hnonce : x.nonce = y.nonce := congrArg TxCommitment.nonce h.commitment
  have htext := congrArg String.toList h.text
  rw [hvalue, hgas, hnonce] at htext
  simp only [String.toList_append, List.append_cancel_left_eq] at htext
  exact String.toList_injective htext

theorem sameHashed_of_hash {host : Host} {x y : Transaction} (hc : NoCollision (encode (hashText host x)) (encode (hashText host y)))
    (hx : x.hash = x.computeHash host) (hy : y.hash = y.computeHash host) (h : x.commitment = y.commitment) :
    SameHashed host x y := by
  refine ⟨h, ?_⟩
  have hhash : x.computeHash host = y.computeHash host := by
    rw [← hx, ← hy]
    exact congrArg TxCommitment.hash h
  have htext := congrArg String.toList (encode_inj (hc hhash))
  have hfrom : x.fromAddr = y.fromAddr := congrArg TxCommitment.fromAddr h
  have hto : x.toAddr = y.toAddr := congrArg TxCommitment.toAddr h
  have htime : x.timestamp = y.timestamp := congrArg TxCommitment.timestamp h
  unfold hashText at htext
  rw [hfrom, hto, htime] at htext
  simp only [String.toList_append, List.append_assoc, List.append_cancel_left_eq] at htext
  apply String.toList_injective
  simp only [String.toList_append, List.append_assoc]
  have hcut := htext
  simp only [← List.append_assoc, List.append_cancel_right_eq] at hcut
  simpa only [List.append_assoc] using hcut

theorem sameHashed_blocks {host : Host} {executed executed' : List Transaction} {b x : Block}
    (hb : CommitmentsHold host executed b) (hx : CommitmentsHold host executed' x) (hhash : b.hash = x.hash)
    (hc : NoCollision b.preimage x.preimage)
    (hct : ∀ tx ∈ b.transactions, ∀ y ∈ x.transactions, NoCollision (encode (hashText host tx)) (encode (hashText host y))) :
    List.Forall₂ (SameHashed host) (sortedBy Transaction.hash b.transactions) (sortedBy Transaction.hash x.transactions) := by
  have hcommit := commitment_of_hash hc (hb.hash.symm.trans (hhash.trans hx.hash))
  have htxs : (sortedBy Transaction.hash b.transactions).map Transaction.commitment =
      (sortedBy Transaction.hash x.transactions).map Transaction.commitment := congrArg BlockCommitment.transactions hcommit
  have hmem : ∀ (l : List Transaction) tx, tx ∈ sortedBy Transaction.hash l → tx ∈ l := fun l tx htx =>
    (List.perm_insertionSort _ _).mem_iff.mp htx
  have hb' := fun tx htx => hb.txHashes tx (hmem _ tx htx)
  have hx' := fun tx htx => hx.txHashes tx (hmem _ tx htx)
  have hct' := fun tx htx y hy => hct tx (hmem _ tx htx) y (hmem _ y hy)
  revert htxs hb' hx' hct'
  generalize sortedBy Transaction.hash b.transactions = l
  generalize sortedBy Transaction.hash x.transactions = m
  intro htxs hb' hx' hct'
  induction l generalizing m with
  | nil =>
    rw [List.map_eq_nil_iff.mp htxs.symm]
    exact .nil
  | cons tx rest ih =>
    obtain ⟨y, ys, rfl, hy, hys⟩ := List.map_eq_cons_iff.mp htxs.symm
    refine .cons (sameHashed_of_hash (hct' tx List.mem_cons_self y List.mem_cons_self) (hb' tx List.mem_cons_self)
      (hx' y List.mem_cons_self) hy.symm) (ih ys hys.symm ?_ ?_ ?_)
    · exact fun z hz => hb' z (List.mem_cons_of_mem _ hz)
    · exact fun z hz => hx' z (List.mem_cons_of_mem _ hz)
    · exact fun z hz w hw => hct' z (List.mem_cons_of_mem _ hz) w (List.mem_cons_of_mem _ hw)

/-- An accepted block carries true commitments exactly when the hashes supplied with it were true already:
acceptance recomputes none of them. For an ordinary block that is read off the block, and a hash that holds binds
the fields that were executed. -/
theorem acceptance_commits {n n' : Node} {b b' : Block} {preserve : Bool} (h : Acceptance c now n b preserve b' n') :
    ∃ n₀, (n₀ = n ∨ n₀ = truncated n) ∧
      (CommitmentsHold c.host b.transactions b' ↔ SuppliedHashesMatch c now n₀ b preserve) ∧
      (c.Ordinary now n₀ b preserve → (CommitmentsHold c.host b.transactions b' ↔
        (b.hash ≠ "" → b.hash = (c.announced b).computeHash) ∧ ∀ tx ∈ b.transactions, tx.hash = tx.computeHash c.host)) ∧
      ∀ executed x, CommitmentsHold c.host b.transactions b' → CommitmentsHold c.host executed x → b'.hash = x.hash →
        NoCollision b'.preimage x.preimage →
        (∀ tx ∈ b'.transactions, ∀ y ∈ x.transactions, NoCollision (encode (hashText c.host tx)) (encode (hashText c.host y))) →
        List.Forall₂ (SameHashed c.host) (sortedBy Transaction.hash b'.transactions) (sortedBy Transaction.hash x.transactions) := by
  obtain ⟨n₀, hn₀, hrun⟩ := h.entered
  obtain ⟨r⟩ := addBlock_ok hrun
  refine ⟨n₀, hn₀, commits_iff r, ?_, ?_⟩
  · intro ho
    rw [commits_iff r]
    constructor
    · intro hs
      exact ⟨fun hne => (hs.hash ho.2.1 hne).trans (computeHash_announced r ho), hs.txHashes⟩
    · rintro ⟨hhash, htxs⟩
      exact ⟨fun _ hne => (hhash hne).trans (computeHash_announced r ho).symm, htxs⟩
  · intro executed x hb hx hhash hc hct
    exact sameHashed_blocks hb hx hhash hc hct

theorem computeHash_length (b : Block) : b.computeHash.length = 64 := Digest.sha256Hex_length _

def ownTx : Transaction :=
  let tx := { transferOf (.int 0) with fromAddr := "v", gas := 0 }
  { tx with hash := tx.computeHash .plain }

def ownBlock : Block := firstBlock [ownTx]

theorem acceptance_commits_own :
    ∃ b' n', plain.addBlock 2 ownBlock false (genesisNode none) = (.ok b', n') ∧
      CommitmentsHold plain.host ownBlock.transactions b' := by
  rcases hrun : plain.addBlock 2 ownBlock false (genesisNode none) with ⟨f | b', n'⟩
  · have hok : (plain.addBlock 2 ownBlock false (genesisNode none)).1.toOption.isSome = true := by decide +kernel
    rw [hrun] at hok
    cases hok
  · obtain ⟨n₀, -, hiff, -⟩ := acceptance_commits (.added hrun)
    refine ⟨b', n', rfl, hiff.mpr ⟨(fun hp => nomatch hp), ?_⟩⟩
    intro tx htx
    cases List.mem_singleton.mp htx
    rfl

def forgedBlock : PeerBlock :=
  { height := some 1, parentHash := some "g", miner := some "v", timestamp := some 2, hash := some "b",
    transactions := some [{ hash := some "t", fromAddr := some "v", toAddr := some "w", nonce := some 0, gas := some 0 }] }

theorem import_not_committed :
    ∃ b' n', plain.importBlock 2 forgedBlock (genesisNode none) = (.ok b', n') ∧
      b'.hash ≠ b'.computeHash ∧ ∃ tx ∈ b'.transactions, tx.hash ≠ tx.computeHash plain.host := by
  have hb : (plain.importBlock 2 forgedBlock (genesisNode none)).1.toOption.map Block.hash = some "b" := by
    decide +kernel
  have ht : (plain.importBlock 2 forgedBlock (genesisNode none)).1.toOption.map
      (fun b => b.transactions.map Transaction.hash) = some ["t"] := by decide +kernel
  rcases hrun : plain.importBlock 2 forgedBlock (genesisNode none) with ⟨f | b', n'⟩
  · rw [hrun] at hb
    cases hb
  · rw [hrun] at hb ht
    have hhash : b'.hash = "b" := Option.some.inj hb
    have htxs : b'.transactions.map Transaction.hash = ["t"] := Option.some.inj ht
    refine ⟨b', n', rfl, fun heq => ?_, ?_⟩
    · have hlen := computeHash_length b'
      rw [← heq, hhash] at hlen
      exact absurd hlen (by decide)
    · obtain ⟨tx, rest, hcons, htx, -⟩ := List.map_eq_cons_iff.mp htxs
      refine ⟨tx, by rw [hcons]; exact List.mem_cons_self .., fun heq => ?_⟩
      have hlen : (tx.computeHash plain.host).length = 64 := Digest.sha256Hex_length _
      rw [← heq, htx] at hlen
      exact absurd hlen (by decide)

end Blockchain

end AbsoluteChain
