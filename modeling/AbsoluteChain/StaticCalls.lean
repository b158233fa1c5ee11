import AbsoluteChain.Reverts

/-!
# Static execution

`static_call`, `estimate_gas` and the frames entered through `STATICCALL` save nothing
themselves. The hooks below them are the ordinary ones, so whether the state is left
alone depends on what those write.
-/

namespace AbsoluteChain

open Python Actions Act Transactions Runs

namespace EvmAdapter

/-- What a hook writes itself was already there. -/
def Node.Silent (e : EvmAdapter) (x : Node) : Prop := (e.outer x).live = (e.inner x).live

theorem silent_of_quiet {e : EvmAdapter} {x : Node} (h : x.Quiet e = true) : x.Silent e := by
  unfold Node.Silent
  rw [e.outer_of_quiet h]

inductive StaticUse where
  | staticCall (contractAddr calldataHex : String) (gasLimit : Int)
  | estimateGas (contractAddr calldataHex : String)
  /-- A frame entered through `STATICCALL`. -/
  | frame (depth : Nat) (ctx : EvmContext) (args : CallArgs) (static : args.static = true)

section
variable (e : EvmAdapter)

def staticFrame (t : Tables) (contractAddr calldataHex : String) (gasLimit : Int) : Option SubFrame :=
  ((codeOf t contractAddr).bind fun c => bytesFromHex (removeHexPrefixes c)).map fun code =>
    e.entryFrame t code (storageOf t contractAddr) (e.gasOr gasLimit) "" contractAddr
      ((bytesFromHex (removeHexPrefixes calldataHex)).getD []) 0

namespace StaticUse

/-- The database that is left. -/
def after (db : Db) : StaticUse → Db
  | staticCall contractAddr calldataHex gasLimit => (e.staticCall contractAddr calldataHex gasLimit db).2
  | estimateGas contractAddr calldataHex => (e.estimateGas contractAddr calldataHex db).2
  | frame depth ctx args _ => (e.contractCallHook (e.hooks depth) ctx args db).2

def start (t : Tables) : StaticUse → Option (Nat × SubFrame)
  | staticCall contractAddr calldataHex gasLimit =>
    (e.staticFrame t contractAddr calldataHex gasLimit).map fun fr => (e.host.recursionLimit, fr)
  | estimateGas contractAddr calldataHex =>
    (e.staticFrame t contractAddr calldataHex e.config.evmGasLimit).map fun fr => (e.host.recursionLimit, fr)
  | frame depth ctx args _ => (e.callFrame t ctx args).map fun fr => (depth, fr)

/-- Every hook reached. -/
def forest (db : Db) (u : StaticUse) : List Node :=
  match u.start e db.live with
  | none => []
  | some (depth, fr) => e.forest depth fr db

end StaticUse

end

variable {e : EvmAdapter}

theorem staticCall_db (contractAddr calldataHex : String) (gasLimit : Int) (db : Db) :
    (e.staticCall contractAddr calldataHex gasLimit db).2 =
      match e.staticFrame db.live contractAddr calldataHex gasLimit with
      | none => db
      | some fr => (Entry.ran e db fr).2 := by
  unfold staticCall staticFrame
  simp only [bind_run, query, read_run]
  cases codeOf db.live contractAddr with
  | none => rfl
  | some codeHex =>
    dsimp only [Option.bind_some]
    cases bytesFromHex (removeHexPrefixes codeHex) with
    | none => rfl
    | some code =>
      simp only [bind_run, read_run, tryRunEvm_run, Option.map_some]
      rcases Entry.ran e db _ with ⟨f | m, db₁⟩ <;> rfl

theorem estimateGas_db (contractAddr calldataHex : String) (db : Db) :
    (e.estimateGas contractAddr calldataHex db).2 =
      (e.staticCall contractAddr calldataHex e.config.evmGasLimit db).2 := by
  unfold estimateGas
  rw [bind_run]
  rcases e.staticCall contractAddr calldataHex e.config.evmGasLimit db with ⟨f | res, db₁⟩ <;> rfl

theorem StaticUse.after_eq (u : StaticUse) (db : Db) :
    u.after e db =
      match u.start e db.live with
      | none => db
      | some (depth, fr) => (e.runFrame (e.hooks depth) fr db).2 := by
  cases u with
  | staticCall contractAddr calldataHex gasLimit =>
    refine (staticCall_db contractAddr calldataHex gasLimit db).trans ?_
    unfold start
    dsimp only
    cases e.staticFrame db.live contractAddr calldataHex gasLimit <;> rfl
  | estimateGas contractAddr calldataHex =>
    refine (estimateGas_db contractAddr calldataHex db).trans ((staticCall_db _ _ _ db).trans ?_)
    unfold start
    dsimp only
    cases e.staticFrame db.live contractAddr calldataHex e.config.evmGasLimit <;> rfl
  | frame depth ctx args static =>
    refine (congrArg Prod.snd (contractCallHook_run (e.hooks depth) ctx args db)).trans ?_
    unfold start
    dsimp only
    cases e.callFrame db.live ctx args with
    | none => rfl
    | some fr =>
      dsimp only [Option.map_some]
      rcases e.runFrame (e.hooks depth) fr db with ⟨f | m, db₁⟩
      · rfl
      · have hquiet : e.concludeCall ctx args m = pure () := e.concludeCall_quiet (by rw [static, Bool.true_or])
        dsimp only
        rw [hquiet]
        rfl

theorem StaticUse.forest_path (u : StaticUse) (db : Db) : Path e.inner e.outer db (u.forest e db) (u.after e db) := by
  rw [after_eq]
  unfold forest
  rcases u.start e db.live with _ | ⟨depth, fr⟩
  · rfl
  · exact e.forest_path depth fr db

/-- Static execution changes no table when no hook below it does. -/
theorem static_readOnly (u : StaticUse) (db : Db) (hsilent : ∀ x ∈ u.forest e db, x.Silent e) :
    (u.after e db).live = db.live := by
  have hrel := path_rel (R := fun a b : Db => b.live = a.live) (fun _ => rfl) (fun h₁ h₂ => h₂.trans h₁)
    (u.forest_path db) hsilent
  exact hrel

/-- The contract it calls does not exist. -/
theorem static_readOnly_missing :
    (StaticUse.after plain (contracts [("a", callOf 11)]) (.staticCall "a" "" 100000)).live =
      (contracts [("a", callOf 11)]).live := by
  have hany : ∀ (u : StaticUse) (db : Db), (∀ x ∈ u.forest plain db, x.Quiet plain = true) →
      (u.after plain db).live = db.live :=
    fun u db h => static_readOnly u db fun x hx => silent_of_quiet (h x hx)
  apply hany
  decide +kernel

/-- A static call of a contract that calls another: what the callee stores is saved. -/
theorem static_writes :
    let db := contracts [("a", callOf 11), (eleven, storeOne)]
    (plain.staticCall "a" "" 100000 db).2.live.getAccount eleven ≠ db.live.getAccount eleven := by
  decide +kernel

end EvmAdapter

end AbsoluteChain
