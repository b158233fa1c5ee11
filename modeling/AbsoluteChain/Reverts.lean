import AbsoluteChain.CallTree

/-!
# Failed executions

`call_contract` and `deploy_contract` write nothing themselves when they report a
failure, but nothing of what the hooks below them committed is taken back.
-/

namespace AbsoluteChain

open Python Actions Act Transactions Runs KeyedTable

namespace EvmAdapter

variable {e : EvmAdapter}

/-! ## Hooks that write nothing -/

/-- What a hook writes itself leaves every account as its callee left it. -/
def Node.Idle (e : EvmAdapter) (x : Node) : Prop := (e.outer x).live.accounts = (e.inner x).live.accounts

instance (x : Node) : Decidable (x.Idle e) := inferInstanceAs (Decidable (_ = _))

/-- So it does when its callee raised, when a plain call or a creation reverted, and when the call is static. -/
theorem idle_of_quiet {x : Node} (h : x.Quiet e = true) : x.Idle e := by
  unfold Node.Idle
  rw [e.outer_of_quiet h]

/-! ## Failures -/

/-- When no hook below a failing entry point wrote to an account, no account has changed. -/
theorem failure_atomic (entry : Entry) (db db' : Db) (res : EvmResult) (h : entry.run e db = (.ok res, db'))
    (hf : res.success = false) (hidle : ∀ x ∈ entry.forest e db, x.Idle e) : db'.live.accounts = db.live.accounts := by
  rw [Entry.failed h hf]
  have hrel := path_rel (R := fun a b : Db => b.live.accounts = a.live.accounts) (fun _ => rfl)
    (fun h₁ h₂ => h₂.trans h₁) (entry.forest_path db) hidle
  exact hrel

/-! ## Runs -/

def plain : EvmAdapter := { host := .plain, config := {}, now := 0 }

def contracts (codes : List (String × Bytes)) : Db :=
  let deployed (t : Table String Account) (c : String × Bytes) : Table String Account :=
    t.put c.1 { balance := 0, nonce := 0, code := some (hexOfBytes c.2), storage := some [] }
  { file := { Tables.empty with accounts := codes.foldl deployed .empty }, pending := none }

def callOf (word : UInt8) : Bytes := [0x60, 0, 0x60, 0, 0x60, 0, 0x60, 0, 0x60, 0, 0x60, word, 0x61, 0xff, 0xff, 0xf1]

/-- `SSTORE` of 1 at slot 0. -/
def storeOne : Bytes := [0x60, 1, 0x60, 0, 0x55]

def reverting : Bytes := [0x60, 0, 0x60, 0, 0xfd]

/-- The address `0x0b`. -/
def eleven : String := "0x000000000000000000000000000000000000000b"

def revertsAfter (callee : Bytes) : Db := contracts [("a", callOf 11 ++ reverting), (eleven, callee)]

def entryCall : Entry := .call "u" "a" "" 0 100000

/-- Nobody is at `eleven`. -/
theorem failure_atomic_missing :
    (entryCall.run plain (contracts [("a", callOf 11 ++ reverting)])).2.live.accounts =
      (contracts [("a", callOf 11 ++ reverting)]).live.accounts := by
  have hany : ∀ (db : Db) (entry : Entry), (entry.run plain db).1.toOption.map EvmResult.success = some false ∧
      (∀ x ∈ entry.forest plain db, x.Idle plain) → (entry.run plain db).2.live.accounts = db.live.accounts := by
    rintro db entry ⟨hres, hidle⟩
    rcases hr : entry.run plain db with ⟨f | res, db'⟩
    · rw [hr] at hres
      cases hres
    · rw [hr] at hres
      exact failure_atomic entry db db' res hr (Option.some.inj hres) hidle
  apply hany
  decide +kernel

/-- The callee stores a word and stops, then the caller reverts: the word stays. -/
theorem failure_not_atomic :
    (entryCall.run plain (revertsAfter (storeOne ++ [0]))).1.toOption.map EvmResult.success = some false ∧
    (revertsAfter (storeOne ++ [0])).live.getAccount eleven ≠
      (entryCall.run plain (revertsAfter (storeOne ++ [0]))).2.live.getAccount eleven := by
  decide +kernel

end EvmAdapter

end AbsoluteChain
