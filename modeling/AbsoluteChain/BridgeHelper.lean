import AbsoluteChain.NativeRoot
import AbsoluteChain.ProofQueue

/-!
# Confirming a lock

`confirm_lock` asks the Rust helper, which the node starts with one JSON request. The
helper reads its environment and looks at the other chain before it answers, and what it
looks for has to be in the arguments that it was sent.
-/

namespace AbsoluteChain

open Python JsonText KeyedTable

/-! ## Numbers that the helper reads -/

namespace RustText

def isWhitespace (c : Char) : Bool :=
  let n := c.toNat
  (9 ≤ n && n ≤ 13) || n == 32 || n == 0x85 || n == 0xa0 || n == 0x1680 || (0x2000 ≤ n && n ≤ 0x200a) ||
    n == 0x2028 || n == 0x2029 || n == 0x202f || n == 0x205f || n == 0x3000

def trim (l : List Char) : List Char := ((l.dropWhile isWhitespace).reverse.dropWhile isWhitespace).reverse

/-- `from_str_radix` of an unsigned type whose values lie below `bound`. -/
def parseUnsigned (radix bound : Nat) (l : List Char) : Option Nat :=
  let digits := match l with
    | '+' :: t => t
    | t => t
  if digits = [] then none
  else
    (digits.foldlM (fun n c => (hexValue c).bind fun d => if d < radix then some (n * radix + d) else none) 0).bind fun n =>
      if n < bound then some n else none

end RustText

/-! ## The helper -/

/-- The helper with its environment, the answers of the network to `(url, method, params)`, and how it
lowers and writes texts and numbers. -/
structure BridgeHelper where
  lower : String → String
  jsonFloat : ℚ → List Char
  var : String → Option String
  rpcCall : String → String → List (Json ℚ) → Option (Json ℚ)

structure HelperResponse where
  txHash : String
  status : String
  source : String := "abs_bridge_bin_v4"
  chain : Option String
  proofId : Option String
  confirmations : Option Nat
  rpcUrl : Option String
  error : Option String

namespace BridgeHelper

open RustText

variable (h : BridgeHelper)

def rpcEnvKey (chain : String) : Option String :=
  let name := h.lower chain
  if name = "ethereum" ∨ name = "eth" then some "ETH_RPC_URL"
  else if name = "bsc" ∨ name = "binance" ∨ name = "bnb" then some "BSC_RPC_URL"
  else if name = "polygon" ∨ name = "matic" then some "POLYGON_RPC_URL"
  else none

def resolveRpc (chain : String) : Option String :=
  ((h.rpcEnvKey chain).bind h.var).filter fun url => url ≠ ""

def minConfirmations : Nat :=
  max (((h.var "BRIDGE_MIN_CONFIRMATIONS").bind fun s => parseUnsigned 10 (2 ^ 32) s.toList).getD 12) 1

def requireL1Proof : Bool :=
  match h.var "BRIDGE_REQUIRE_L1_PROOF" with
  | some v => h.lower v = "1" ∨ h.lower v = "true" ∨ h.lower v = "yes" ∨ h.lower v = "on"
  | none => false

def parseHexU64 : Json ℚ → Option Nat
  | .int n => if 0 ≤ n ∧ n < 2 ^ 64 then some n.toNat else none
  | .str s =>
    match trim s.toList with
    | '0' :: 'x' :: t => parseUnsigned 16 (2 ^ 64) t
    | '0' :: 'X' :: t => parseUnsigned 16 (2 ^ 64) t
    | t => parseUnsigned 10 (2 ^ 64) t
  | _ => none

def member (v : Json ℚ) (key : String) : Option (Json ℚ) :=
  match v with
  | .obj fields => fields.get? key
  | _ => none

def getTxConfirmations (rpcUrl txHash : String) : Option Nat := do
  let receipt ← h.rpcCall rpcUrl "eth_getTransactionReceipt" [.str txHash]
  let blockNum ← parseHexU64 (← member receipt "blockNumber")
  let head ← parseHexU64 (← h.rpcCall rpcUrl "eth_blockNumber" [])
  return if blockNum ≤ head then (head - blockNum + 1) % 2 ^ 32 else 0

def l1Arg (args : Json ℚ) (key : String) : Option String :=
  match member args key with
  | some (.str v) => if "0x".toList.isPrefixOf v.toList ∧ 10 ≤ (encode v).length then some v else none
  | _ => none

def l1TxFromArgs (args : Json ℚ) : Option String := (l1Arg args "l1_tx_hash").or (l1Arg args "proof_tx")

def argsText (args : Json ℚ) : String := dumps (compact escapeUnicode h.jsonFloat) args

def makeTxHash (command : String) (args : Json ℚ) : String :=
  "0x" ++ sha256Hex (encode (command ++ ":" ++ h.argsText args))

def makeProofId (command : String) (args : Json ℚ) : String :=
  "prf_" ++ String.ofList ((sha256Hex (encode ("proof:" ++ command ++ ":" ++ h.argsText args))).toList.take 24)

def verifyL1IfPresent (chain : Option String) (args : Json ℚ) : Except String Nat :=
  let need := h.minConfirmations
  let chainName := chain.getD "ethereum"
  let rpc := h.resolveRpc chainName
  match l1TxFromArgs args with
  | none =>
    if h.requireL1Proof then .error ("l1_tx_hash required for " ++ chainName)
    else if rpc.isSome then .error ("l1_tx_hash required when RPC configured for " ++ chainName)
    else .ok need
  | some l1Tx =>
    match rpc with
    | none => .error ("no RPC for chain " ++ chainName)
    | some rpc =>
      match h.getTxConfirmations rpc l1Tx with
      | none => .error "L1 RPC check failed"
      | some conf =>
        if conf < need then
          .error ("L1 confirmations " ++ toString conf ++ " < required " ++ toString need)
        else .ok conf

def chainOf (args : Json ℚ) : Option String :=
  match (member args "to_chain").or (member args "from_chain") with
  | some (.str s) => some s
  | _ => none

def handle (command : String) (args : Json ℚ) : HelperResponse :=
  let chain := chainOf args
  let rpc := chain.bind h.resolveRpc
  let l1Result := if command = "confirm" ∨ command = "incoming" then h.verifyL1IfPresent chain args
    else .ok h.minConfirmations
  match l1Result with
  | .error e =>
    { txHash := "", status := "error", chain := chain, proofId := none, confirmations := some h.minConfirmations,
      rpcUrl := rpc, error := some e }
  | .ok conf =>
    if command = "bridge" ∨ command = "lock" ∨ command = "confirm" ∨ command = "incoming" then
      { txHash := h.makeTxHash command args, status := "ok", chain := chain, proofId := some (h.makeProofId command args),
        confirmations := some conf, rpcUrl := rpc, error := none }
    else if command = "status" then
      { txHash := "", status := "ready", chain := chain, proofId := none, confirmations := some h.minConfirmations,
        rpcUrl := rpc, error := none }
    else
      { txHash := "", status := "error", chain := none, proofId := none, confirmations := none, rpcUrl := none,
        error := some ("unknown command: " ++ command) }

/-! ## The node's side -/

def callRustRaw (command : String) (args : Json ℚ) : Option HelperResponse :=
  let response := h.handle command args
  if response.error = none then some response else none

def callRustOk (command : String) (args : Json ℚ) : Bool :=
  match h.callRustRaw command args with
  | none => false
  | some out =>
    if out.status ≠ "ok" then false
    else if command = "confirm" ∨ command = "incoming" ∨ command = "status" then true
    else out.txHash ≠ ""

def confirms (txHash : String) : Bool := h.callRustOk "confirm" (dict [("tx_hash", .str txHash)])

/-! ## What the helper answers -/

variable {h}

/-- The request of a lock is answered with the hash that the node takes for its id. -/
theorem handle_bridge {b : BridgeNode} (hfloat : h.jsonFloat = b.jsonFloat) (fromAddr toChain toAddr : String) (net : ℚ) :
    (h.handle "bridge" (dict [("from_chain", .str "absolute"), ("to_chain", .str toChain), ("from_addr", .str fromAddr),
      ("to_addr", .str toAddr), ("amount", .float net)])).txHash = b.makeTxHash fromAddr toChain toAddr net := by
  have hcommand : ¬ ("bridge" = "confirm" ∨ "bridge" = "incoming") := by decide
  simp only [handle, if_neg hcommand, true_or, if_true, makeTxHash, argsText, hfloat]
  rfl

/-- The request of `confirm_lock` names neither a chain nor a transaction on it, so the helper takes the
chain to be Ethereum and refuses wherever it would have looked for the transaction. -/
theorem confirms_iff (txHash : String) :
    h.confirms txHash = true ↔ h.requireL1Proof = false ∧ h.resolveRpc "ethereum" = none := by
  have htx : l1TxFromArgs (dict [("tx_hash", .str txHash)]) = none := rfl
  have hchain : chainOf (dict [("tx_hash", .str txHash)]) = none := rfl
  unfold confirms callRustOk callRustRaw handle verifyL1IfPresent
  simp only [hchain, htx, true_or, if_true, Option.getD_none]
  cases h.requireL1Proof with
  | true => simp
  | false =>
    cases h.resolveRpc "ethereum" with
    | some url => simp
    | none => simp

end BridgeHelper

/-! ## Locks with a transaction on the other chain -/

namespace BridgeNode

/-- A pending lock whose queue entry names a transaction of the other chain that, wherever a URL is set
for that chain, has the confirmations the helper requires. -/
structure Confirmable (h : BridgeHelper) (queue : L1Queue) (db : BridgeDb) (txHash : String) (row : BridgeLock) : Prop where
  recorded : db.bridgeLocks.get? txHash = some row
  pending : row.status = .pending
  queued : ∃ e ∈ queue.outbound, e.absTxHash = txHash ∧ e.l1TxHash ≠ "" ∧ e.chain = row.toChain ∧
    ∀ url, h.resolveRpc e.chain = some url → ∃ n, h.getTxConfirmations url e.l1TxHash = some n ∧ h.minConfirmations ≤ n

/-- `confirm_lock` succeeds and the lock is confirmed, whatever order the database returns rows of one time in. -/
def Confirms (b : BridgeNode) (h : BridgeHelper) (db : BridgeDb) (txHash : String) (row : BridgeLock) : Prop :=
  ∀ scan, Scans db scan → (b.confirmLock txHash (h.confirms txHash) scan db).1 = .confirmed txHash ∧
    (b.confirmLock txHash (h.confirms txHash) scan db).2.bridgeLocks.get? txHash = some { row with status := .confirmed }

variable {b : BridgeNode} {db : BridgeDb} {txHash : String} {row : BridgeLock}

theorem pendingLock_isSome_iff {scan : LockRows} (hscan : Scans db scan) (hrow : db.bridgeLocks.get? txHash = some row)
    (hp : row.status = .pending) (n : Nat) :
    (pendingLock txHash (getBridgeLocks scan n)).isSome ↔ (txHash, row) ∈ scan.take n := by
  unfold getBridgeLocks
  constructor
  · intro h
    obtain ⟨lock, hlock⟩ := Option.isSome_iff_exists.mp h
    have hmem := (pendingLock_some hlock).1
    have hget := (db.bridgeLocks.mem_rows_iff txHash lock).mp (hscan.1.mem_iff.mp (List.mem_of_mem_take hmem))
    rw [hrow] at hget
    exact Option.some.inj hget ▸ hmem
  · intro hin
    unfold pendingLock
    rw [Option.isSome_map, List.find?_isSome]
    exact ⟨_, hin, decide_eq_true ⟨rfl, hp⟩⟩

theorem confirmLock_iff (hmode : b.mode = .rust) (helper : Bool) {scan : LockRows} (hscan : Scans db scan)
    (hrow : db.bridgeLocks.get? txHash = some row) (hp : row.status = .pending) :
    (b.confirmLock txHash helper scan db).1 = .confirmed txHash ∧
        (b.confirmLock txHash helper scan db).2.bridgeLocks.get? txHash = some { row with status := .confirmed } ↔
      helper = true ∧ (txHash, row) ∈ scan.take 1000 := by
  rw [← pendingLock_isSome_iff hscan hrow hp 1000]
  unfold confirmLock
  cases pendingLock txHash (getBridgeLocks scan 1000) with
  | none => simp
  | some lock =>
    cases helper with
    | false => simp [hmode]
    | true =>
      have hupdate : (RustBridge.confirmBridgeLock txHash db).bridgeLocks.get? txHash =
          some { row with status := .confirmed } := by
        simp [RustBridge.confirmBridgeLock, Table.get_update, hrow]
      simp [hmode, hupdate]

/-- In rust mode a confirmable lock is confirmed exactly when the node's environment asks for no proof and
sets no URL for Ethereum, and at most a thousand locks are as recent as it. -/
theorem confirms_lock_iff (b : BridgeNode) (h : BridgeHelper) (queue : L1Queue) (db : BridgeDb) (txHash : String)
    (row : BridgeLock) (hmode : b.mode = .rust) (hlock : Confirmable h queue db txHash row) :
    b.Confirms h db txHash row ↔
      h.requireL1Proof = false ∧ h.resolveRpc "ethereum" = none ∧ ahead row.createdAt db ≤ 1000 := by
  have hmem := (db.bridgeLocks.mem_rows_iff txHash row).mpr hlock.recorded
  have hnewest := @Newest.mem_take_iff _ createdAt _ (txHash, row) 1000 (nodup_rows db) hmem
  rw [← and_assoc, ← BridgeHelper.confirms_iff txHash]
  have hscans : b.Confirms h db txHash row ↔
      ∀ scan, Scans db scan → h.confirms txHash = true ∧ (txHash, row) ∈ scan.take 1000 :=
    forall₂_congr fun scan hscan => confirmLock_iff hmode _ hscan hlock.recorded hlock.pending
  rw [hscans]
  constructor
  · intro hall
    obtain ⟨scan, hscan, _⟩ := @Newest.exists_scan_last _ createdAt db.bridgeLocks.rows (txHash, row)
    exact ⟨(hall scan hscan).1, hnewest.mp fun scan hscan => (hall scan hscan).2⟩
  · exact fun hcond scan hscan => ⟨hcond.1, hnewest.mpr hcond.2 scan hscan⟩

/-! ### A lock with 21 confirmations -/

def deepHelper (vars : List (String × String)) : BridgeHelper :=
  { lower := Host.plain.lower, jsonFloat := Host.plain.floatRepr, var := fun name => vars.lookup name
    rpcCall := fun _ method _ =>
      if method = "eth_blockNumber" then some (.str "0x64") else some (dict [("blockNumber", .str "0x50")]) }

def lockHash : String := sampleNode.makeTxHash "alice" "ethereum" "0xbob" (sampleNode.netAmount sampleLock)

def lockedBridge : BridgeDb := saveBridgeLock lockHash (sampleNode.lockOf sampleLock 0) (sampleNode.debit sampleLock fundedBridge)

def lockedQueue : L1Queue :=
  L1Queue.empty.add (.outbound { absTxHash := lockHash, l1TxHash := "0x123456789a", chain := "ethereum", queuedAt := 0 })

theorem lockedBridge_eq : (sampleNode.lockAndBridge sampleLock 0 0 true fundedBridge).2 = lockedBridge := by
  have hchain : sampleNode.normalizeChain "eth" = "ethereum" := by decide
  have hrecords : sampleNode.recordsLock sampleLock 0 true fundedBridge = some lockHash := by
    unfold recordsLock
    rw [if_pos (by decide +kernel)]
    simp only [lockId, sampleLock, hchain]
    rfl
  rcases lockAndBridge_cases (b := sampleNode) sampleLock 0 0 true fundedBridge with hlocked | hnone
  · obtain ⟨txHash, htxHash, hcall⟩ := hlocked
    rw [hrecords] at htxHash
    rw [hcall, ← Option.some.inj htxHash]
    rfl
  · rw [hrecords] at hnone
    cases hnone.1

theorem confirmable_locked {vars : List (String × String)} (hmin : (deepHelper vars).minConfirmations ≤ 21) :
    Confirmable (deepHelper vars) lockedQueue lockedBridge lockHash (sampleNode.lockOf sampleLock 0) := by
  refine ⟨?_, rfl, ?_⟩
  · simp [lockedBridge, saveBridgeLock]
  · refine ⟨_, List.mem_singleton_self _, rfl, by decide, by decide, ?_⟩
    intro url _
    exact ⟨21, by rfl, hmin⟩

/-- Without a URL and without a demand for proofs the lock is confirmed. -/
theorem confirms_locked : sampleNode.Confirms (deepHelper []) lockedBridge lockHash (sampleNode.lockOf sampleLock 0) := by
  refine (confirms_lock_iff sampleNode (deepHelper []) lockedQueue lockedBridge lockHash (sampleNode.lockOf sampleLock 0) rfl
    (confirmable_locked (by decide))).mpr ⟨rfl, rfl, ?_⟩
  decide +kernel

/-- With a URL for Ethereum the helper asks for the hash that it was not sent. -/
theorem locked_not_confirmed :
    ¬ ∀ (b : BridgeNode) (h : BridgeHelper) (queue : L1Queue) (db : BridgeDb) (txHash : String) (row : BridgeLock),
      b.mode = .rust → Confirmable h queue db txHash row → b.Confirms h db txHash row := by
  intro hall
  let h := deepHelper [("ETH_RPC_URL", "http://l1")]
  have hlock := @confirmable_locked [("ETH_RPC_URL", "http://l1")] (by decide)
  have hconfirms := hall sampleNode h lockedQueue lockedBridge lockHash (sampleNode.lockOf sampleLock 0) rfl hlock
  obtain ⟨scan, hscan, _⟩ := @Newest.exists_scan_last _ createdAt lockedBridge.bridgeLocks.rows
    (lockHash, sampleNode.lockOf sampleLock 0)
  have hhelper := ((confirmLock_iff rfl _ hscan hlock.recorded hlock.pending).mp (hconfirms scan hscan)).1
  have hrpc := ((BridgeHelper.confirms_iff lockHash).mp hhelper).2
  exact absurd hrpc (by decide)

end BridgeNode

end AbsoluteChain
