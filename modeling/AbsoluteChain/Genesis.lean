import AbsoluteChain.Linkage

/-!
# The first block

`_ensure_genesis` stores a block of height 0 and credits the allocation of the
founder, who is the miner when the configuration names none. The block carries the
root of the in-memory state engine, which is half as long as every other one.
-/

namespace AbsoluteChain

open Python JsonText Actions Act Transactions KeyedTable

def Tables.setBalance (address : String) (balance : ℚ) (t : Tables) : Tables :=
  { t with accounts := t.accounts.upsert address fun
      | none => { balance := balance, nonce := 0, code := none, storage := none }
      | some a => { a with balance := balance } }

def saveBlock (host : Host) (now : Int) (b : BlockDict) : Act Fault Db Unit :=
  Act.attempt
    (do
      insertBlock host now b
      Act.write Store.commit)
    fun _ => Act.write Store.rollback

def setBalances : Dict String Int → Act Fault Db Unit
  | [] => pure ()
  | e :: alloc => do
    committed (Tables.setBalance e.1 e.2)
    setBalances alloc

def stateEngineRoot (alloc : Dict String Int) : String :=
  let payload : Json Empty := dict (alloc.map fun e => (e.1, dict [("balance", .int e.2), ("nonce", .int 0)]))
  String.ofList ((sha256Hex (encode (dumps (spaced escapeAscii Empty.elim) payload))).toList.take 32)

namespace Blockchain

variable (c : Blockchain) (now : Int)

def genesisFounder : String := orElse c.config.founderAddress c.config.minerAddress

/-- `_init_state_engine`: the miner's stake is not part of the accounts table. -/
def engineAlloc : Dict String Int :=
  let alloc := genesisBalances c.genesisFounder
  if c.config.minerAddress ≠ "" ∧ ¬ alloc.contains c.config.minerAddress then
    alloc.set c.config.minerAddress (truncate c.config.minStake)
  else alloc

def genesisExtraData : String :=
  let supply := (groupThousands (Nat.toDigits 10 (truncate maxSupplyAbs).toNat).reverse).reverse
  c.config.networkName ++ " Genesis | max_supply=" ++ String.ofList supply ++ " ABS | founder=" ++
    c.config.founderInitials ++ " " ++ String.ofList (c.host.floatRepr c.config.founderPercent) ++ "%"

def genesisBlock (engine : Bool) : Block :=
  Block.init now
    { height := 0, parentHash := genesisHash, miner := "genesis", transactions := [], timestamp := now, blockHash := "",
      extraData := c.genesisExtraData, stateRoot := if engine then stateEngineRoot c.engineAlloc else "" }

def ensureGenesis (engine : Bool) : Act Fault Db Unit := do
  let t ← query id
  Act.when (t.getChainTip = 0 ∧ t.getLastBlock = none) do
    saveBlock c.host now (c.genesisBlock now engine).toDict
    setBalances (genesisBalances c.genesisFounder)

end Blockchain

/-! ## The accounts it leaves -/

def Account.Bare (a : Account) : Prop := a = { balance := a.balance, nonce := 0, code := none, storage := none }

theorem accounts_setBalances (alloc : Dict String Int) {db : Db} (hc : db.pending = none)
    (hb : ∀ k a, db.file.accounts.get? k = some a → a.Bare) :
    ∃ db', setBalances alloc db = (.ok (), db') ∧ db'.pending = none ∧ db'.file =
      { db.file with
        accounts := alloc.foldl (fun acc e => acc.put e.1 { balance := e.2, nonce := 0, code := none, storage := none })
          db.file.accounts } := by
  induction alloc generalizing db with
  | nil => exact ⟨db, rfl, hc, rfl⟩
  | cons e alloc ih =>
    let row : Account := { balance := e.2, nonce := 0, code := none, storage := none }
    have hset : db.live.setBalance e.1 e.2 = { db.file with accounts := db.file.accounts.put e.1 row } := by
      have hlive : db.live = db.file := Store.live_closed hc
      rw [hlive]
      unfold Tables.setBalance Table.upsert
      cases ha : db.file.accounts.get? e.1 with
      | none => rfl
      | some a =>
        have hbare : a.Bare := hb e.1 a ha
        simp only
        rw [hbare]
    obtain ⟨db', hrun, hclosed, hfile⟩ := @ih (db.write (Tables.setBalance e.1 e.2)) rfl fun k a ha => by
      rw [Store.file_write, hset, Table.get_put] at ha
      by_cases hk : k = e.1
      · rw [if_pos hk] at ha
        cases ha
        rfl
      · rw [if_neg hk] at ha
        exact hb k a ha
    refine ⟨db', hrun, hclosed, ?_⟩
    rw [hfile, Store.file_write, hset]
    rfl

namespace Blockchain

variable {c : Blockchain} {now : Int}

theorem genesisBlock_timestamp (engine : Bool) : (c.genesisBlock now engine).timestamp = now := by
  show (if now = 0 then now else now) = now
  exact ite_self now

theorem saveBlock_run {host : Host} {b : BlockDict} (hb : [b.height, b.timestamp, b.txCount, b.gasUsed].all fitsInt64 = true)
    (db : Db) : saveBlock host now b db = (.ok (), (db.exec (storeBlock host now b)).commit) := by
  have hinsert : insertBlock host now b db = (.ok (), db.exec (storeBlock host now b)) := by
    unfold insertBlock
    rw [bind_run, bindInts_ok.mpr ⟨hb, rfl⟩]
    rfl
  unfold saveBlock attempt
  simp only [bind_run, hinsert, write_run]

theorem ensureGenesis_run (engine : Bool) {db : Db} (hc : db.pending = none) (hblocks : db.file.blocks = .empty)
    (hacc : db.file.accounts = .empty) (hnow : fitsInt64 now = true) :
    ∃ db', c.ensureGenesis now engine db = (.ok (), db') ∧ db'.pending = none ∧
      db'.file.blocks = Table.empty.put 0 (c.genesisBlock now engine).toDict ∧
      db'.file.accounts = (db.file.resetAccounts (genesisBalances c.genesisFounder)).accounts ∧
      db'.file.poolLocks = db.file.poolLocks := by
  have hlive : db.live = db.file := Store.live_closed hc
  have hlast : db.live.blocks.last? = none := by rw [hlive, hblocks]; rfl
  have hempty : db.live.getChainTip = 0 ∧ db.live.getLastBlock = none := by
    unfold Tables.getChainTip Tables.getLastBlock
    rw [hlast]
    exact ⟨rfl, rfl⟩
  have hfits : [(c.genesisBlock now engine).toDict.height, (c.genesisBlock now engine).toDict.timestamp,
      ((c.genesisBlock now engine).toDict.txCount : Int), (c.genesisBlock now engine).toDict.gasUsed].all fitsInt64 = true := by
    have ht : (c.genesisBlock now engine).toDict.timestamp = now := genesisBlock_timestamp engine
    rw [ht]
    have hzero : fitsInt64 0 = true := by decide
    show (fitsInt64 0 && (fitsInt64 now && (fitsInt64 0 && (fitsInt64 0 && true)))) = true
    rw [hzero, hnow]
    rfl
  let db₁ : Db := (db.exec (storeBlock c.host now (c.genesisBlock now engine).toDict)).commit
  have hfile : db₁.file = storeBlock c.host now (c.genesisBlock now engine).toDict db.file := by
    rw [← hlive]
    rfl
  obtain ⟨db', hrun, hclosed, hafter⟩ := @accounts_setBalances (genesisBalances c.genesisFounder) db₁ rfl fun k a ha => by
    rw [hfile] at ha
    have hnone : db.file.accounts.get? k = some a := ha
    rw [hacc] at hnone
    cases hnone
  refine ⟨db', ?_, hclosed, ?_, ?_, ?_⟩
  · unfold ensureGenesis
    simp only [bind_run, query_run, id, when_pos hempty]
    rw [saveBlock_run hfits]
    exact hrun
  · rw [hafter, hfile]
    show ((db.file.blocks.keep _).put _ _) = _
    rw [hblocks]
    rfl
  · rw [hafter, hfile]
    show (genesisBalances c.genesisFounder).foldl _ db.file.accounts = _
    rw [hacc]
    rfl
  · rw [hafter, hfile]
    rfl

theorem stateEngineRoot_length (alloc : Dict String Int) : (stateEngineRoot alloc).toList.length = 32 := by
  have hlen : (sha256Hex (encode (dumps (spaced escapeAscii Empty.elim)
      (dict (alloc.map fun e => (e.1, dict [("balance", .int e.2), ("nonce", .int 0)])))))).toList.length = 64 :=
    Digest.sha256Hex_length _
  simp only [stateEngineRoot, String.toList_ofList, List.length_take, hlen]
  rfl

theorem stateEngineRoot_ne_empty (alloc : Dict String Int) : stateEngineRoot alloc ≠ "" := by
  intro h
  have hlen := stateEngineRoot_length alloc
  rw [h] at hlen
  exact absurd hlen (by decide)

theorem stateEngineRoot_ne (alloc : Dict String Int) (t : Tables) : stateEngineRoot alloc ≠ c.computeStateRoot t := by
  intro h
  have hlen := stateEngineRoot_length alloc
  have hroot : (c.computeStateRoot t).toList.length = 64 := Digest.sha256Hex_length _
  rw [h, hroot] at hlen
  exact absurd hlen (by decide)

/-! ## A first start -/

def emptyDb : Db := { file := Tables.empty, pending := none }

def startNode (c : Blockchain) (slashing : Option SlashingEngine) : Node :=
  { db := (c.ensureGenesis 1 true emptyDb).2, slashing := slashing }

theorem startNode_rows (c : Blockchain) (slashing : Option SlashingEngine) :
    c.ensureGenesis 1 true emptyDb = (.ok (), (c.startNode slashing).db) ∧ (c.startNode slashing).db.pending = none ∧
    (c.startNode slashing).db.live.blocks = Table.empty.put 0 (c.genesisBlock 1 true).toDict ∧
    (c.startNode slashing).db.live.accounts = (Tables.empty.resetAccounts (genesisBalances c.genesisFounder)).accounts := by
  obtain ⟨db, hrun, hpending, hblocks, hacc, -⟩ := @ensureGenesis_run c 1 true emptyDb rfl rfl rfl (by decide)
  have hdb : (c.startNode slashing).db = db := by
    unfold startNode
    rw [hrun]
  have hlive : db.live = db.file := Store.live_closed hpending
  rw [hdb, hlive]
  exact ⟨hrun, hpending, hblocks, hacc⟩

end Blockchain

end AbsoluteChain
