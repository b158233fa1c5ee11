import AbsoluteChain.EvmAdapter

/-!
# What contract execution leaves alone

The interpreter writes through its hooks only, and the hooks through five
statements. A frame that these respect is respected by every call and deploy,
however deep the calls nest.
-/

namespace AbsoluteChain

open Python Actions Act Transactions

/-! ## Frames of the interpreter -/

structure EvmFrame (e : EvmAdapter) (F : Frame Db) : Prop where
  balance : ∀ a d, Keeps F (updateBalance a d)
  storage : ∀ a s, Keeps F (updateAccountStorage a s)
  logs : ∀ a l h x, Keeps F (saveEvmLogs e.now a l h x)
  created : ∀ seed (acc : Account), acc.nonce = 0 → Keeps F (saveAccount (EvmAdapter.createdAddress seed) acc)
  selfDestruct : ∀ a b, Keeps F (e.selfDestructContract a b)

structure HooksKeep (F : Frame Db) (hooks : Hooks) (ctx : EvmContext) : Prop where
  call : ∀ a, Keeps F (hooks.call ctx a)
  create : ∀ code value salt, Keeps F (hooks.create ctx code value salt)
  selfDestruct : ∀ b, Keeps F (hooks.selfDestruct ctx b)

section interpreter
variable {F : Frame Db} {hooks : Hooks} {ctx : EvmContext} (hk : HooksKeep F hooks ctx)
variable {host : Host} {view : Tables → Callbacks} {code : Bytes}

theorem keeps_onMachine {α : Type} (m : MachineM α) : Keeps (F.pull Vm.dbPart) (onMachine m) :=
  keeps_on_other fun _ _ => rfl

theorem keeps_onVmDb {α : Type} {m : Act Fault Db α} (h : Keeps F m) : Keeps (F.pull Vm.dbPart) (onVmDb m) :=
  keeps_on h

include hk

theorem keeps_executeCall (mode : CallMode) : Keeps (F.pull Vm.dbPart) (executeCall host hooks ctx mode) := by
  unfold executeCall
  refine keeps_bind (keeps_onMachine _) fun p => ?_
  refine keeps_bind (keeps_onVmDb (hk.call _)) fun out => ?_
  exact keeps_onMachine _

theorem keeps_executeCreate (salted : Bool) : Keeps (F.pull Vm.dbPart) (executeCreate host hooks ctx salted) := by
  unfold executeCreate
  refine keeps_bind (keeps_onMachine _) fun a => ?_
  refine keeps_bind (keeps_onVmDb (hk.create _ _ _)) fun out => ?_
  exact keeps_onMachine _

theorem keeps_effectOp {op : Op} {m : Act Fault Vm Flow} (h : effectOp host hooks ctx op = some m) :
    Keeps (F.pull Vm.dbPart) m := by
  unfold effectOp at h
  split at h
  · cases h; exact keeps_executeCreate hk false
  · cases h; exact keeps_executeCreate hk true
  · cases h
    refine keeps_bind (keeps_onMachine _) fun b => ?_
    exact keeps_bind (keeps_onVmDb (hk.selfDestruct _)) fun _ => keeps_pure _
  · obtain ⟨mode, -, rfl⟩ := Option.map_eq_some_iff.mp h
    exact keeps_executeCall hk mode

theorem keeps_execOp (op : Op) : Keeps (F.pull Vm.dbPart) (execOp host view hooks ctx code op) := by
  unfold execOp
  split
  · rename_i m h
    exact keeps_effectOp hk h
  · exact keeps_bind (keeps_onVmDb (keeps_read _)) fun t => keeps_onMachine _

theorem keeps_runLoop (fuel : Nat) : Keeps (F.pull Vm.dbPart) (runLoop host view hooks ctx code fuel) := by
  induction fuel with
  | zero => exact keeps_raise _
  | succ fuel ih =>
    unfold runLoop
    refine keeps_bind (keeps_onMachine _) fun m => ?_
    split
    · exact keeps_pure _
    · refine keeps_bind (keeps_onMachine _) fun _ => ?_
      refine keeps_bind (keeps_execOp hk _) fun flow => ?_
      cases flow with
      | next => exact keeps_bind (keeps_onMachine _) fun _ => ih
      | jump dest => exact keeps_bind (keeps_onMachine _) fun _ => ih
      | halt => exact keeps_onMachine _

theorem keeps_executeBytecode (gasLimit : Int) (storage : Storage) :
    Keeps F (executeBytecode host view hooks ctx gasLimit storage code) := by
  intro db
  unfold executeBytecode
  have h := @keeps_runLoop F hooks ctx hk host view code (gasLimit.toNat + 1)
    { machine := Machine.start gasLimit storage, db := db }
  split
  · rename_i s hr
    rw [hr] at h; exact h
  · rename_i s hr
    rw [hr] at h; exact h

end interpreter

/-! ## Frames of the adapter -/

section adapter
variable {e : EvmAdapter} {F : Frame Db} (hF : EvmFrame e F)

theorem keeps_query {α : Type} (f : Tables → α) : Keeps F (query f) := keeps_read _

theorem keeps_runEvm {hooks : Hooks} {caller contractAddr : String} {calldata : Bytes} {value : Int}
    (hk : ∀ t, HooksKeep F hooks (e.makeContext t caller contractAddr calldata value)) (code : Bytes) (storage : Storage)
    (gasLimit : Int) : Keeps F (e.runEvm hooks code storage gasLimit caller contractAddr calldata value) := by
  intro db
  refine rel_bind (keeps_query _ db) fun ctx db₁ h => ?_
  obtain ⟨hctx, rfl⟩ := Prod.mk.inj h
  cases hctx
  exact keeps_executeBytecode (hk _) _ _ _

include hF

theorem keeps_moveValue (source target : String) (value : ℚ) : Keeps F (EvmAdapter.moveValue source target value) :=
  keeps_when fun _ => keeps_bind (hF.balance _ _) fun _ => hF.balance _ _

theorem keeps_persistLogs (a : String) (l : List EvmLog) : Keeps F (e.persistLogs a l) :=
  keeps_bind (keeps_query _) fun _ => hF.logs _ _ _ _

theorem keeps_contractCallHook {hooks : Hooks} (hk : ∀ ctx, HooksKeep F hooks ctx) (ctx : EvmContext) (a : CallArgs) :
    Keeps F (e.contractCallHook hooks ctx a) := by
  unfold EvmAdapter.contractCallHook
  refine keeps_bind (keeps_query _) fun code => ?_
  split
  · exact keeps_pure _
  · refine keeps_bind (keeps_query _) fun storage => ?_
    refine keeps_bind (keeps_runEvm (fun _ => hk _) _ _ _) fun m => ?_
    refine keeps_ite (fun _ => keeps_pure _) fun _ => ?_
    refine keeps_ite (fun _ => ?_) fun _ => keeps_ite (fun _ => keeps_pure _) fun _ => ?_
    · refine keeps_bind (hF.storage _ _) fun _ => ?_
      refine keeps_bind (keeps_when fun _ => keeps_moveValue hF _ _ _) fun _ => ?_
      exact keeps_bind (keeps_persistLogs hF _ _) fun _ => keeps_pure _
    · refine keeps_bind (hF.storage _ _) fun _ => ?_
      exact keeps_bind (keeps_moveValue hF _ _ _) fun _ => keeps_pure _

theorem keeps_contractCreateHook {hooks : Hooks} (hk : ∀ ctx, HooksKeep F hooks ctx) (ctx : EvmContext) (initCode : Bytes)
    (value : Nat) (salt : Option Nat) : Keeps F (e.contractCreateHook hooks ctx initCode value salt) := by
  unfold EvmAdapter.contractCreateHook
  refine keeps_ite (fun _ => keeps_pure _) fun _ => ?_
  refine keeps_bind (keeps_attempt (keeps_bind (keeps_runEvm (fun _ => hk _) _ _ _) fun _ => keeps_pure _)
    fun _ => keeps_pure _) fun result => ?_
  cases result with
  | none => exact keeps_pure _
  | some m =>
    refine keeps_ite (fun _ => keeps_pure _) fun _ => ?_
    refine keeps_bind (hF.created _ _ rfl) fun _ => ?_
    exact keeps_bind (keeps_moveValue hF _ _ _) fun _ => keeps_pure _

theorem keeps_hooks (depth : Nat) (ctx : EvmContext) : HooksKeep F (e.hooks depth) ctx := by
  induction depth generalizing ctx with
  | zero => exact ⟨fun _ => keeps_raise _, fun _ _ _ => keeps_raise _, fun _ => keeps_raise _⟩
  | succ depth ih =>
    exact ⟨keeps_contractCallHook hF ih ctx, keeps_contractCreateHook hF ih ctx, fun _ => hF.selfDestruct _ _⟩

theorem keeps_tryRunEvm (code : Bytes) (storage : Storage) (gasLimit : Int) (caller contractAddr : String)
    (calldata : Bytes) (value : ℚ) :
    Keeps F (e.tryRunEvm code storage gasLimit caller contractAddr calldata value) :=
  keeps_attempt (keeps_bind (keeps_runEvm (fun _ => keeps_hooks hF _ _) _ _ _) fun _ => keeps_pure _) fun _ => keeps_pure _

theorem keeps_deployContract (deployer bytecodeHex : String) (value : ℚ) (gasLimit : Int) (salt : String) :
    Keeps F (e.deployContract deployer bytecodeHex value gasLimit salt) := by
  unfold EvmAdapter.deployContract
  split
  · exact keeps_pure _
  · refine keeps_ite (fun _ => keeps_pure _) fun _ => ?_
    split
    · exact keeps_pure _
    · refine keeps_bind (keeps_tryRunEvm hF _ _ _ _ _ _ _) fun result => ?_
      cases result with
      | error err => exact keeps_pure _
      | ok m =>
        refine keeps_ite (fun _ => keeps_pure _) fun _ => ?_
        refine keeps_bind (hF.created _ _ rfl) fun _ => ?_
        refine keeps_bind (keeps_persistLogs hF _ _) fun _ => ?_
        exact keeps_bind (keeps_moveValue hF _ _ _) fun _ => keeps_pure _

theorem keeps_callContract (caller contractAddr calldataHex : String) (value : ℚ) (gasLimit : Int) :
    Keeps F (e.callContract caller contractAddr calldataHex value gasLimit) := by
  unfold EvmAdapter.callContract
  refine keeps_bind (keeps_query _) fun code => ?_
  cases code with
  | none => exact keeps_pure _
  | some codeHex =>
    dsimp only
    split
    · exact keeps_pure _
    · refine keeps_bind (keeps_query _) fun storage => ?_
      refine keeps_bind (keeps_tryRunEvm hF _ _ _ _ _ _ _) fun result => ?_
      cases result with
      | error err => exact keeps_pure _
      | ok m =>
        refine keeps_ite (fun _ => keeps_pure _) fun _ => ?_
        refine keeps_bind (hF.storage _ _) fun _ => ?_
        refine keeps_bind (keeps_persistLogs hF _ _) fun _ => ?_
        exact keeps_bind (keeps_moveValue hF _ _ _) fun _ => keeps_pure _

end adapter

/-! ## Frames of one quantity -/

theorem keeps_statement {γ : Type} {q : Tables → γ} {f : Tables → Tables} (h : ∀ t, q (f t) = q t) :
    Keeps (untouched q) (statement f) := keeps_exec h

theorem keeps_commit {γ : Type} {q : Tables → γ} {f : Tables → Tables} (h : ∀ t, q (f t) = q t) :
    Keeps (untouched q) (committed f) := keeps_committed h

/-- A quantity that no write to accounts or contract logs changes. -/
structure AccountFree {γ : Type} (q : Tables → γ) : Prop where
  accounts : ∀ t a, q { t with accounts := a } = q t
  evmLogs : ∀ t l, q { t with evmLogs := l } = q t

theorem AccountFree.evmFrame {γ : Type} {q : Tables → γ} (h : AccountFree q) (e : EvmAdapter) :
    EvmFrame e (untouched q) where
  balance _ _ := keeps_commit fun t => h.accounts t _
  storage _ _ := keeps_commit fun t => h.accounts t _
  logs _ _ _ _ := keeps_ite (fun _ => keeps_pure _) fun _ => keeps_commit fun t => h.evmLogs t _
  created _ _ _ := keeps_commit fun t => h.accounts t _
  selfDestruct a b := by
    unfold EvmAdapter.selfDestructContract
    refine keeps_bind (keeps_query _) fun account => ?_
    refine keeps_bind (keeps_when fun _ => keeps_bind (keeps_commit fun t => h.accounts t _) fun _ =>
      keeps_commit fun t => h.accounts t _) fun _ => ?_
    exact keeps_commit fun t => h.accounts t _

theorem accountFree_poolLocks : AccountFree Tables.poolLocks := ⟨fun _ _ => rfl, fun _ _ => rfl⟩

/-! ## Nonces -/

theorem Tables.nonce_applyBalanceDelta (a b : String) (delta : ℚ) (t : Tables) :
    (t.applyBalanceDelta a delta).getNonce b = t.getNonce b := by
  unfold getNonce getAccount applyBalanceDelta
  simp only [KeyedTable.Table.get_upsert]
  by_cases h : b = a
  · rw [if_pos h, ← h]
    cases t.accounts.get? b with
    | none => rfl
    | some x => rfl
  · rw [if_neg h]

theorem Tables.nonce_incrementNonce (a b : String) (t : Tables) :
    (t.incrementNonce a).getNonce b = if b = a then t.getNonce a + 1 else t.getNonce b := by
  unfold getNonce getAccount incrementNonce
  simp only [KeyedTable.Table.get_upsert]
  by_cases h : b = a
  · rw [if_pos h, if_pos h]
    cases t.accounts.get? a with
    | none => rfl
    | some x => rfl
  · rw [if_neg h, if_neg h]

theorem Tables.nonce_saveAccount (a b : String) (x : Account) (t : Tables) :
    (t.saveAccount a x).getNonce b = if b = a then x.nonce else t.getNonce b := by
  unfold getNonce getAccount saveAccount
  simp only [KeyedTable.Table.get_put]
  by_cases h : b = a
  · rw [if_pos h, if_pos h]
    rfl
  · rw [if_neg h, if_neg h]

theorem Tables.nonce_updateAccountStorage (a b : String) (s : Storage) (t : Tables) :
    (t.updateAccountStorage a s).getNonce b = t.getNonce b := by
  unfold getNonce getAccount updateAccountStorage
  simp only [KeyedTable.Table.get_update]
  by_cases h : b = a
  · rw [if_pos h, h]
    cases t.accounts.get? a with
    | none => rfl
    | some x => rfl
  · rw [if_neg h]

/-- Self-destruction writes the nonce back that it read, and commits. -/
theorem nonce_selfDestruct (e : EvmAdapter) (a b x : String) (db : Db) :
    (e.selfDestructContract a b db).2.live.getNonce x = db.live.getNonce x ∧
      (e.selfDestructContract a b db).2.file.getNonce x = db.live.getNonce x := by
  have hquery : query (fun t => t.getAccount (e.normalizeAddr a)) db = (.ok (db.live.getAccount (e.normalizeAddr a)), db) :=
    rfl
  unfold EvmAdapter.selfDestructContract
  rw [bind_of_ok hquery]
  generalize hacc : db.live.getAccount (e.normalizeAddr a) = account
  let pay : Act Fault Db Unit := Act.when (0 < (Option.map Account.balance account).getD 0) (do
    updateBalance (e.normalizeAddr b) ((Option.map Account.balance account).getD 0)
    updateBalance (e.normalizeAddr a) (-(Option.map Account.balance account).getD 0))
  have hpay : ∃ db₁, pay db = (.ok (), db₁) ∧ db₁.live.getNonce x = db.live.getNonce x := by
    by_cases hpos : 0 < (Option.map Account.balance account).getD 0
    · have hmove : pay = (do
          updateBalance (e.normalizeAddr b) ((Option.map Account.balance account).getD 0)
          updateBalance (e.normalizeAddr a) (-(Option.map Account.balance account).getD 0)) := if_pos hpos
      rw [hmove]
      refine ⟨_, rfl, ?_⟩
      simp only [Store.live_write, Tables.nonce_applyBalanceDelta]
    · have hnone : pay = Act.ret () := if_neg hpos
      rw [hnone]
      exact ⟨db, rfl, rfl⟩
  obtain ⟨db₁, hrun, hsame⟩ := hpay
  have hnonce : ∀ code storage, (db₁.live.saveAccount (e.normalizeAddr a)
      { balance := 0, nonce := (Option.map Account.nonce account).getD 0, code := code, storage := storage }).getNonce x =
        db.live.getNonce x := by
    intro code storage
    rw [Tables.nonce_saveAccount]
    by_cases hx : x = e.normalizeAddr a
    · rw [if_pos hx, hx]
      unfold Tables.getNonce
      rw [hacc]
    · rw [if_neg hx, hsame]
  rw [bind_of_ok hrun]
  exact ⟨hnonce _ _, hnonce _ _⟩

/-- A nonce stays as it is or starts again, when a contract is created over the account. -/
def nonceFrame : Frame Db where
  rel db db' := ∀ a, db'.live.getNonce a = db.live.getNonce a ∨ db'.live.getNonce a = 0
  refl _ _ := .inl rfl
  trans h₁ h₂ a := by
    rcases h₂ a with h | h
    · rcases h₁ a with h' | h'
      · exact .inl (h.trans h')
      · exact .inr (h.trans h')
    · exact .inr h

theorem nonce_evmFrame (e : EvmAdapter) : EvmFrame e nonceFrame where
  balance a d := keeps_write fun db b => .inl (Tables.nonce_applyBalanceDelta a b d db.live)
  storage a s := keeps_write fun db b => .inl (Tables.nonce_updateAccountStorage a b s db.live)
  logs a l h x := keeps_ite (fun _ => keeps_pure _) fun _ => keeps_write fun db b => .inl rfl
  created seed x hx := keeps_write fun db b => by
    rw [Store.live_write, Tables.nonce_saveAccount, hx]
    by_cases h : b = EvmAdapter.createdAddress seed
    · exact .inr (if_pos h)
    · exact .inl (if_neg h)
  selfDestruct a b := fun db x => .inl (nonce_selfDestruct e a b x db).1

end AbsoluteChain
