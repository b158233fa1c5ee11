import AbsoluteChain.Creations
import AbsoluteChain.HexText

/-!
# Two ways to create a contract

`deploy_contract` and the hook behind `CREATE` run the same init code and then write the
new account each in its own way. One keeps the init code, the other what it returned, and
both write the value into the account before they move it there.
-/

namespace AbsoluteChain

open Python Actions Act Transactions KeyedTable

namespace EvmAdapter

/-! ## What a creation should leave -/

def storedCode (t : Tables) (address : String) : Option Bytes :=
  ((t.getAccount address).bind Account.code).bind fun c => bytesFromHex (removeHexPrefixes c)

def storedStorage (t : Tables) (address : String) : Option Storage := (t.getAccount address).bind Account.storage

/-- A creation that succeeded: the machine of its init code, the tables that the init code left, and those
of the whole creation. -/
structure Birth where
  address : String
  machine : Machine
  before : Tables
  after : Tables

structure Birth.Proper (e : EvmAdapter) (deployer : String) (value : ℚ) (b : Birth) : Prop where
  code : storedCode b.after b.address = some b.machine.returnData
  runs : b.machine.returnData ≠ [] → ∀ caller calldataHex paid gasLimit,
    ∃ fr, Entry.frame e b.after (.call caller b.address calldataHex paid gasLimit) = .ok fr ∧
      fr.code = b.machine.returnData
  storage : storedStorage b.after b.address = some b.machine.storage
  balance : b.after.getBalance b.address = b.before.getBalance b.address + value
  debit : b.after.getBalance deployer = b.before.getBalance deployer - value

/-- Both creations are proper and leave the same contract. -/
structure Agree (e : EvmAdapter) (deployer : String) (value : ℚ) (d c : Birth) : Prop where
  deployed : d.Proper e deployer value
  created : c.Proper e deployer value
  code : storedCode c.after c.address = storedCode d.after d.address
  storage : storedStorage c.after c.address = storedStorage d.after d.address

variable (e : EvmAdapter) (db : Db) (wei : Nat)

def deployed (deployer bytecodeHex : String) (gasLimit : Int) (salt : String) : Option Birth :=
  let entry := Entry.deploy deployer bytecodeHex (weiToAbs wei) gasLimit salt
  match Entry.frame e db.live entry with
  | .error _ => none
  | .ok fr =>
    match Entry.ran e db fr with
    | (.error _, _) => none
    | (.ok m, inner) =>
      if m.reverted then none
      else some { address := createdAddress (deployer ++ salt), machine := m, before := inner.live
                  after := (e.deployContract deployer bytecodeHex (weiToAbs wei) gasLimit salt db).2.live }

def created (depth : Nat) (ctx : EvmContext) (initCode : Bytes) (salt : Option Nat) : Option Birth :=
  match e.createFrame db.live ctx initCode wei salt with
  | none => none
  | some fr =>
    match e.runFrame (e.hooks depth) fr db with
    | (.error _, _) => none
    | (.ok m, inner) =>
      if m.reverted then none
      else some { address := createdAt ctx initCode salt, machine := m, before := inner.live
                  after := (e.contractCreateHook (e.hooks depth) ctx initCode wei salt db).2.live }

/-- The account that comes into being had the value already; and nothing is paid, or the deployer is
another account and can pay. -/
def Fits (deployer : String) (value : ℚ) (b : Birth) : Prop :=
  b.before.getBalance b.address = value ∧
    (value = 0 ∨ (b.address ≠ deployer ∧ value ≤ b.before.getBalance deployer))

/-! ## What a creation leaves -/

variable {e db wei}

structure Birth.Endowed (deployer : String) (value : ℚ) (code : String) (b : Birth) : Prop where
  accounts : b.after.accounts = ((Movement.endow deployer b.address
    { balance := value, nonce := 0, code := some code, storage := some b.machine.storage }).apply b.before).accounts

theorem columns_applyBalanceDelta (x a : String) (delta : ℚ) (t : Tables) :
    ((t.applyBalanceDelta x delta).getAccount a).bind Account.code = (t.getAccount a).bind Account.code ∧
      ((t.applyBalanceDelta x delta).getAccount a).bind Account.storage = (t.getAccount a).bind Account.storage := by
  unfold Tables.getAccount Tables.applyBalanceDelta
  simp only [Table.get_upsert]
  by_cases h : a = x
  · rw [if_pos h, h]
    cases t.accounts.get? x <;> exact ⟨rfl, rfl⟩
  · rw [if_neg h]
    exact ⟨rfl, rfl⟩

theorem columns_payApply (payer payee a : String) (value : ℚ) (t : Tables) :
    ((Movement.payApply payer payee value t).getAccount a).bind Account.code = (t.getAccount a).bind Account.code ∧
      ((Movement.payApply payer payee value t).getAccount a).bind Account.storage =
        (t.getAccount a).bind Account.storage := by
  unfold Movement.payApply
  by_cases hv : 0 < value
  · rw [if_pos hv]
    obtain ⟨hcode, hstorage⟩ := columns_applyBalanceDelta payee a value (t.applyBalanceDelta payer (-value))
    obtain ⟨hcode', hstorage'⟩ := columns_applyBalanceDelta payer a (-value) t
    exact ⟨hcode.trans hcode', hstorage.trans hstorage'⟩
  · rw [if_neg hv]
    exact ⟨rfl, rfl⟩

namespace Birth.Endowed

variable {deployer code : String} {value : ℚ} {b : Birth}

theorem getAccount (h : b.Endowed deployer value code) (x : String) :
    b.after.getAccount x = (Movement.payApply deployer b.address value (b.before.saveAccount b.address
      { balance := value, nonce := 0, code := some code, storage := some b.machine.storage })).getAccount x := by
  unfold Tables.getAccount
  rw [h.accounts]
  rfl

theorem storedCode (h : b.Endowed deployer value code) :
    storedCode b.after b.address = bytesFromHex (removeHexPrefixes code) := by
  unfold EvmAdapter.storedCode
  rw [h.getAccount, (columns_payApply _ _ _ _ _).1]
  unfold Tables.getAccount Tables.saveAccount
  rw [Table.get_put, if_pos rfl]
  rfl

theorem storedStorage (h : b.Endowed deployer value code) :
    storedStorage b.after b.address = some b.machine.storage := by
  unfold EvmAdapter.storedStorage
  rw [h.getAccount, (columns_payApply _ _ _ _ _).2]
  unfold Tables.getAccount Tables.saveAccount
  rw [Table.get_put, if_pos rfl]
  rfl

theorem getBalance (h : b.Endowed deployer value code) (x : String) :
    b.after.getBalance x = (Movement.payApply deployer b.address value (b.before.saveAccount b.address
      { balance := value, nonce := 0, code := some code, storage := some b.machine.storage })).getBalance x := by
  unfold Tables.getBalance
  rw [h.getAccount]

end Birth.Endowed

def creator : EvmContext := plain.makeContext Tables.empty "u" "a" [] 0

end EvmAdapter

end AbsoluteChain
