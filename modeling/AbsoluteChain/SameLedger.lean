import AbsoluteChain.PoolLocks
import AbsoluteChain.Replay

/-!
# Two nodes on the same chain

Execution reads accounts and stored blocks. The clock reaches nothing but the stored logs once there is
a block to take the time from, and the addresses of a node reach nothing at all.
-/

namespace Actions.Act

section
variable {ε σ σ' α β : Type} {R : σ → σ' → Prop}

/-- From related states the two programs return the same or raise the same, and end in related states. -/
def Matches (R : σ → σ' → Prop) (m : Act ε σ α) (n : Act ε σ' α) : Prop := ∀ s t, R s t → Alike Eq R (m s) (n t)

theorem matches_pure (a : α) : Matches R (pure a : Act ε σ α) (pure a : Act ε σ' α) := fun _ _ h => .ok rfl h

theorem matches_raise (e : ε) : Matches R (raise e : Act ε σ α) (raise e : Act ε σ' α) := fun _ _ h => .error h

theorem matches_read {f : σ → α} {g : σ' → α} (hfg : ∀ s t, R s t → f s = g t) :
    Matches R (read f : Act ε σ α) (read g : Act ε σ' α) := fun s t h => .ok (hfg s t h) h

theorem matches_write {f : σ → σ} {g : σ' → σ'} (hfg : ∀ s t, R s t → R (f s) (g t)) :
    Matches R (write f : Act ε σ Unit) (write g : Act ε σ' Unit) := fun s t h => .ok rfl (hfg s t h)

theorem matches_bind {m : Act ε σ α} {n : Act ε σ' α} {k : α → Act ε σ β} {l : α → Act ε σ' β}
    (hm : Matches R m n) (hk : ∀ a, Matches R (k a) (l a)) : Matches R (m >>= k) (n >>= l) := by
  intro s t h
  refine alike_bind (hm s t h) fun a b s₁ t₁ _ hab h₁ => ?_
  subst hab
  exact hk a s₁ t₁ h₁

/-- What is read may differ, as long as the rest does the same with it. -/
theorem matches_view {γ γ' : Type} {f : σ → γ} {g : σ' → γ'} {k : γ → Act ε σ α} {l : γ' → Act ε σ' α}
    (hkl : ∀ s t, R s t → Matches R (k (f s)) (l (g t))) : Matches R (read f >>= k) (read g >>= l) :=
  fun s t h => hkl s t h s t h

theorem matches_ite {p : Prop} [Decidable p] {m m' : Act ε σ α} {n n' : Act ε σ' α} (hm : Matches R m n)
    (hm' : Matches R m' n') : Matches R (if p then m else m') (if p then n else n') := by
  by_cases hp : p
  · rw [if_pos hp, if_pos hp]
    exact hm
  · rw [if_neg hp, if_neg hp]
    exact hm'

theorem matches_when {p : Prop} [Decidable p] {m : Act ε σ Unit} {n : Act ε σ' Unit} (hm : Matches R m n) :
    Matches R (when p m) (when p n) := matches_ite hm (matches_pure ())

theorem matches_attempt {m : Act ε σ α} {n : Act ε σ' α} {k : ε → Act ε σ α} {l : ε → Act ε σ' α} (hm : Matches R m n)
    (hk : ∀ e, Matches R (k e) (l e)) : Matches R (attempt m k) (attempt n l) :=
  fun s t h => alike_attempt (hm s t h) fun e s₁ t₁ h₁ => hk e s₁ t₁ h₁

theorem Matches.returned {m : Act ε σ α} {n : Act ε σ' α} (h : Matches R m n) {s s₁ : σ} {t : σ'} {a : α} (hr : R s t)
    (hm : m s = (.ok a, s₁)) : ∃ t₁, n t = (.ok a, t₁) ∧ R s₁ t₁ := by
  have halike := h s t hr
  rw [hm] at halike
  obtain ⟨b, t₁, hn, rfl, h₁⟩ := halike.returned
  exact ⟨t₁, hn, h₁⟩

end

end Actions.Act

namespace AbsoluteChain

open Python Actions Act Transactions

structure SameLedger (s t : Db) : Prop where
  accounts : t.live.accounts = s.live.accounts
  blocks : t.live.blocks = s.live.blocks
  started : s.live.blocks.last? ≠ none

/-! ## Statements -/

section
variable {s t : Db}

theorem SameLedger.getBalance (h : SameLedger s t) (a : String) : s.live.getBalance a = t.live.getBalance a := by
  unfold Tables.getBalance Tables.getAccount
  rw [h.accounts]

theorem matches_query {α : Type} {f g : Tables → α}
    (hfg : ∀ t u : Tables, u.accounts = t.accounts → u.blocks = t.blocks → f t = g u) :
    Matches SameLedger (query f) (query g) := matches_read fun _ _ h => hfg _ _ h.accounts h.blocks

/-- A statement on accounts, or on nothing that `SameLedger` sees. -/
structure OnAccounts (f g : Tables → Tables) : Prop where
  accounts : ∀ {t u : Tables}, u.accounts = t.accounts → (g u).accounts = (f t).accounts
  left : ∀ t, (f t).blocks = t.blocks
  right : ∀ t, (g t).blocks = t.blocks

theorem matches_statement {f g : Tables → Tables} (h : OnAccounts f g) :
    Matches SameLedger (statement f) (statement g) :=
  matches_write fun _ _ hr =>
    ⟨h.accounts hr.accounts, (h.right _).trans (hr.blocks.trans (h.left _).symm),
      by rw [Store.live_exec, h.left]; exact hr.started⟩

theorem matches_committed {f g : Tables → Tables} (h : OnAccounts f g) :
    Matches SameLedger (committed f) (committed g) :=
  matches_write fun _ _ hr =>
    ⟨h.accounts hr.accounts, (h.right _).trans (hr.blocks.trans (h.left _).symm),
      by rw [Store.live_write, h.left]; exact hr.started⟩

theorem onAccounts_delta (a : String) (d : ℚ) : OnAccounts (Tables.applyBalanceDelta a d) (Tables.applyBalanceDelta a d) :=
  ⟨fun h => accounts_applyBalanceDelta h a d, fun _ => rfl, fun _ => rfl⟩

theorem matches_updateBalance (a : String) (d : ℚ) : Matches SameLedger (updateBalance a d) (updateBalance a d) :=
  matches_committed (onAccounts_delta a d)

theorem matches_balanceDelta (a : String) (d : ℚ) : Matches SameLedger (balanceDelta a d) (balanceDelta a d) :=
  matches_statement (onAccounts_delta a d)

theorem matches_saveAccount (a : String) (x : Account) : Matches SameLedger (saveAccount a x) (saveAccount a x) :=
  matches_committed ⟨fun h => by unfold Tables.saveAccount; rw [h], fun _ => rfl, fun _ => rfl⟩

theorem matches_updateAccountStorage (a : String) (x : Storage) :
    Matches SameLedger (updateAccountStorage a x) (updateAccountStorage a x) :=
  matches_committed ⟨fun h => by unfold Tables.updateAccountStorage; rw [h], fun _ => rfl, fun _ => rfl⟩

theorem matches_nonceIncrement (a : String) : Matches SameLedger (nonceIncrement a) (nonceIncrement a) :=
  matches_statement ⟨fun h => by unfold Tables.incrementNonce; rw [h], fun _ => rfl, fun _ => rfl⟩

theorem matches_moveValue (source target : String) (value : ℚ) :
    Matches SameLedger (EvmAdapter.moveValue source target value) (EvmAdapter.moveValue source target value) :=
  matches_when (matches_bind (matches_updateBalance _ _) fun _ => matches_updateBalance _ _)

/-- Stored logs carry the time, but no account and no block does. -/
theorem matches_persistLogs (e e' : EvmAdapter) (a : String) (logs : List EvmLog) :
    Matches SameLedger (e.persistLogs a logs) (e'.persistLogs a logs) := by
  unfold EvmAdapter.persistLogs saveEvmLogs
  refine matches_view fun s t h => matches_ite (matches_pure ()) (matches_committed ⟨fun h => h, fun _ => rfl, fun _ => rfl⟩)

end

/-! ## The machine -/

/-- Interpreters at work on the same chain, in the same state. -/
structure SameRun (s t : Vm) : Prop where
  machine : t.machine = s.machine
  db : SameLedger s.db t.db

structure HooksMatch (hooks hooks' : Hooks) : Prop where
  call : ∀ ctx a, Matches SameLedger (hooks.call ctx a) (hooks'.call ctx a)
  create : ∀ ctx code value salt, Matches SameLedger (hooks.create ctx code value salt) (hooks'.create ctx code value salt)
  selfDestruct : ∀ ctx b, Matches SameLedger (hooks.selfDestruct ctx b) (hooks'.selfDestruct ctx b)

theorem matches_onMachine {α : Type} (m : MachineM α) : Matches SameRun (onMachine m) (onMachine m) := by
  intro s t h
  have hm : m t.machine = m s.machine := by rw [h.machine]
  unfold onMachine Act.on Vm.machinePart
  simp only [hm]
  rcases m s.machine with ⟨e | a, m'⟩
  · exact .error ⟨rfl, h.db⟩
  · exact .ok rfl ⟨rfl, h.db⟩

theorem matches_onVmDb {α : Type} {m n : Act Fault Db α} (hm : Matches SameLedger m n) :
    Matches SameRun (onVmDb m) (onVmDb n) := by
  intro s t h
  have halike := hm s.db t.db h.db
  unfold onVmDb Act.on Vm.dbPart
  simp only
  generalize m s.db = x at halike
  generalize n t.db = y at halike
  cases halike with
  | ok value state => exact .ok value ⟨h.machine, state⟩
  | error state => exact .error ⟨h.machine, state⟩

section
variable {host : Host} {view view' : Tables → Callbacks} {hooks hooks' : Hooks} {ctx : EvmContext} {code : Bytes}
  (hhooks : HooksMatch hooks hooks')
  (hview : ∀ t u : Tables, u.accounts = t.accounts → u.blocks = t.blocks → view' u = view t)
include hhooks

theorem matches_effectOp {op : Op} {m : Act Fault Vm Flow} (hm : effectOp host hooks ctx op = some m) :
    ∃ n, effectOp host hooks' ctx op = some n ∧ Matches SameRun m n := by
  have hcreate : ∀ salted, Matches SameRun (executeCreate host hooks ctx salted) (executeCreate host hooks' ctx salted) :=
    fun salted => matches_bind (matches_onMachine _) fun a =>
      matches_bind (matches_onVmDb (hhooks.create ctx _ _ _)) fun _ => matches_onMachine _
  have hcall : ∀ mode, Matches SameRun (executeCall host hooks ctx mode) (executeCall host hooks' ctx mode) :=
    fun mode => matches_bind (matches_onMachine _) fun p =>
      matches_bind (matches_onVmDb (hhooks.call ctx _)) fun _ => matches_onMachine _
  unfold effectOp at hm ⊢
  split at hm
  · cases hm
    exact ⟨_, rfl, hcreate false⟩
  · cases hm
    exact ⟨_, rfl, hcreate true⟩
  · cases hm
    refine ⟨_, rfl, matches_bind (matches_onMachine _) fun b => ?_⟩
    exact matches_bind (matches_onVmDb (hhooks.selfDestruct ctx _)) fun _ => matches_pure _
  · obtain ⟨mode, hmode, rfl⟩ := Option.map_eq_some_iff.mp hm
    exact ⟨_, by rw [hmode]; rfl, hcall mode⟩

include hview

theorem matches_execOp (op : Op) :
    Matches SameRun (execOp host view hooks ctx code op) (execOp host view' hooks' ctx code op) := by
  unfold execOp
  cases hm : effectOp host hooks ctx op with
  | some m =>
    obtain ⟨n, hn, hmatch⟩ := matches_effectOp hhooks hm
    rw [hn]
    exact hmatch
  | none =>
    have hn : effectOp host hooks' ctx op = none := by
      unfold effectOp at hm ⊢
      split at hm <;> first | cases hm | skip
      rw [Option.map_eq_none_iff] at hm ⊢
      exact hm
    rw [hn]
    intro s t h
    show Alike Eq SameRun (onMachine (machineOp host (view s.db.live) ctx code op) s)
      (onMachine (machineOp host (view' t.db.live) ctx code op) t)
    rw [hview _ _ h.db.accounts h.db.blocks]
    exact matches_onMachine _ s t h

theorem matches_runLoop (fuel : Nat) :
    Matches SameRun (runLoop host view hooks ctx code fuel) (runLoop host view' hooks' ctx code fuel) := by
  induction fuel with
  | zero => exact matches_raise _
  | succ fuel ih =>
    unfold runLoop
    refine matches_bind (matches_onMachine _) fun m => ?_
    cases code[m.pc]? with
    | none => exact matches_pure _
    | some b =>
      refine matches_bind (matches_onMachine _) fun _ => matches_bind (matches_execOp hhooks hview _) fun flow => ?_
      cases flow with
      | next => exact matches_bind (matches_onMachine _) fun _ => ih
      | jump dest => exact matches_bind (matches_onMachine _) fun _ => ih
      | halt => exact matches_onMachine _

theorem matches_executeBytecode (gasLimit : Int) (storage : Storage) :
    Matches SameLedger (executeBytecode host view hooks ctx gasLimit storage code)
      (executeBytecode host view' hooks' ctx gasLimit storage code) := by
  intro s t h
  have hloop := @matches_runLoop host view view' hooks hooks' ctx code hhooks hview (gasLimit.toNat + 1)
    { machine := Machine.start gasLimit storage, db := s } { machine := Machine.start gasLimit storage, db := t } ⟨rfl, h⟩
  unfold executeBytecode
  generalize runLoop host view hooks ctx code _ _ = x at hloop ⊢
  generalize runLoop host view' hooks' ctx code _ _ = y at hloop ⊢
  cases hloop with
  | ok _ state => exact .ok state.machine.symm state.db
  | error state => exact .error state.db

end

/-! ## The adapter -/

namespace EvmAdapter

def elsewhere (e : EvmAdapter) (minerAddress signingAddress : String) (now : Int) : EvmAdapter :=
  { e with config := { e.config with minerAddress, signingAddress }, now := now }

variable {e : EvmAdapter} {minerAddress signingAddress : String} {now' : Int}

theorem callbacks_congr {t u : Tables} (ha : u.accounts = t.accounts) (hb : u.blocks = t.blocks) :
    (e.elsewhere minerAddress signingAddress now').callbacks u = e.callbacks t := by
  have hbytes : (e.elsewhere minerAddress signingAddress now').codeBytes u = e.codeBytes t := by
    funext a
    unfold codeBytes
    rw [codeOf_accounts ha]
    rfl
  have hhash : blockHashWord u = blockHashWord t := by
    funext height
    unfold blockHashWord Tables.getChainTip Tables.getBlock
    rw [hb]
  unfold callbacks
  rw [hbytes, hhash]
  simp only [Tables.getBalance, Tables.getAccount, ha]

theorem makeContext_congr {s t : Db} (h : SameLedger s t) (caller contractAddr : String) (calldata : Bytes) (value : Int) :
    (e.elsewhere minerAddress signingAddress now').makeContext t.live caller contractAddr calldata value =
      e.makeContext s.live caller contractAddr calldata value := by
  unfold makeContext Tables.getChainTip Tables.getLastBlock
  rw [h.blocks]
  cases hl : s.live.blocks.last? with
  | none => exact absurd hl h.started
  | some last => rfl

section
variable {hooks hooks' : Hooks} (hhooks : HooksMatch hooks hooks')
include hhooks

theorem matches_runEvm (code : Bytes) (storage : Storage) (gasLimit : Int) (caller contractAddr : String) (calldata : Bytes)
    (value : Int) : Matches SameLedger (e.runEvm hooks code storage gasLimit caller contractAddr calldata value)
      ((e.elsewhere minerAddress signingAddress now').runEvm hooks' code storage gasLimit caller contractAddr calldata value) := by
  refine matches_view fun s t h => ?_
  dsimp only
  rw [makeContext_congr h]
  exact matches_executeBytecode hhooks (fun _ _ => callbacks_congr) gasLimit storage

theorem matches_contractCallHook (ctx : EvmContext) (a : CallArgs) :
    Matches SameLedger (e.contractCallHook hooks ctx a)
      ((e.elsewhere minerAddress signingAddress now').contractCallHook hooks' ctx a) := by
  have hnorm : ∀ x, (e.elsewhere minerAddress signingAddress now').normalizeAddr x = e.normalizeAddr x := fun _ => rfl
  have hgas : ∀ g, (e.elsewhere minerAddress signingAddress now').gasOr g = e.gasOr g := fun _ => rfl
  unfold contractCallHook
  simp only [hnorm, hgas]
  refine matches_bind (matches_query fun t u ha _ => by rw [codeOf_accounts ha]) fun code => ?_
  cases code.bind fun c => bytesFromHex (removeHexPrefixes c) with
  | none => exact matches_pure _
  | some bytecode =>
    refine matches_bind (matches_query fun t u ha _ => by rw [storageOf_accounts ha]) fun storage => ?_
    refine matches_bind (matches_runEvm hhooks _ _ _ _ _ _ _) fun m => ?_
    refine matches_ite (matches_pure _) (matches_ite ?_ (matches_ite (matches_pure _) ?_))
    · refine matches_bind (matches_updateAccountStorage _ _) fun _ => ?_
      refine matches_bind (matches_when (matches_moveValue _ _ _)) fun _ => ?_
      exact matches_bind (matches_persistLogs _ _ _ _) fun _ => matches_pure _
    · refine matches_bind (matches_updateAccountStorage _ _) fun _ => ?_
      exact matches_bind (matches_moveValue _ _ _) fun _ => matches_pure _

theorem matches_contractCreateHook (ctx : EvmContext) (initCode : Bytes) (value : Nat) (salt : Option Nat) :
    Matches SameLedger (e.contractCreateHook hooks ctx initCode value salt)
      ((e.elsewhere minerAddress signingAddress now').contractCreateHook hooks' ctx initCode value salt) := by
  unfold contractCreateHook
  refine matches_ite (matches_pure _) ?_
  refine matches_bind (matches_attempt (matches_bind (matches_runEvm hhooks _ _ _ _ _ _ _) fun m => matches_pure _)
    fun _ => matches_pure _) fun result => ?_
  cases result with
  | none => exact matches_pure _
  | some m =>
    refine matches_ite (matches_pure _) (matches_bind (matches_saveAccount _ _) fun _ => ?_)
    exact matches_bind (matches_moveValue _ _ _) fun _ => matches_pure _

end

theorem matches_selfDestruct (contractAddr beneficiary : String) :
    Matches SameLedger (e.selfDestructContract contractAddr beneficiary)
      ((e.elsewhere minerAddress signingAddress now').selfDestructContract contractAddr beneficiary) := by
  have hnorm : ∀ x, (e.elsewhere minerAddress signingAddress now').normalizeAddr x = e.normalizeAddr x := fun _ => rfl
  unfold selfDestructContract
  simp only [hnorm]
  refine matches_bind (matches_query fun t u ha _ => by unfold Tables.getAccount; rw [ha]) fun account => ?_
  refine matches_bind (matches_when ?_) fun _ => matches_saveAccount _ _
  exact matches_bind (matches_updateBalance _ _) fun _ => matches_updateBalance _ _

theorem hooksMatch (depth : Nat) :
    HooksMatch (e.hooks depth) ((e.elsewhere minerAddress signingAddress now').hooks depth) := by
  induction depth with
  | zero =>
    exact { call := fun _ _ => matches_raise _
            create := fun _ _ _ _ => matches_raise _
            selfDestruct := fun _ _ => matches_raise _ }
  | succ depth ih =>
    exact { call := fun ctx a => matches_contractCallHook ih ctx a
            create := fun ctx code value salt => matches_contractCreateHook ih ctx code value salt
            selfDestruct := fun ctx b => matches_selfDestruct ctx.address b }

theorem matches_tryRunEvm (code : Bytes) (storage : Storage) (gasLimit : Int) (caller contractAddr : String)
    (calldata : Bytes) (value : ℚ) : Matches SameLedger (e.tryRunEvm code storage gasLimit caller contractAddr calldata value)
      ((e.elsewhere minerAddress signingAddress now').tryRunEvm code storage gasLimit caller contractAddr calldata value) := by
  unfold tryRunEvm
  exact matches_attempt (matches_bind (matches_runEvm (hooksMatch _) _ _ _ _ _ _ _) fun _ => matches_pure _)
    fun _ => matches_pure _

theorem matches_deployContract (deployer bytecodeHex : String) (value : ℚ) (gasLimit : Int) (salt : String) :
    Matches SameLedger (e.deployContract deployer bytecodeHex value gasLimit salt)
      ((e.elsewhere minerAddress signingAddress now').deployContract deployer bytecodeHex value gasLimit salt) := by
  have hgas : ∀ g, (e.elsewhere minerAddress signingAddress now').gasOr g = e.gasOr g := fun _ => rfl
  unfold deployContract
  rw [hgas]
  cases bytesFromHex (removeHexPrefixes bytecodeHex) with
  | none => exact matches_pure _
  | some code =>
    dsimp only
    refine matches_ite (matches_pure _) ?_
    cases validateBytecodeHex bytecodeHex with
    | error detail => exact matches_pure _
    | ok _ =>
      refine matches_bind (matches_tryRunEvm _ _ _ _ _ _ _) fun result => ?_
      cases result with
      | error err => exact matches_pure _
      | ok m =>
        refine matches_ite (matches_pure _) (matches_bind (matches_saveAccount _ _) fun _ => ?_)
        refine matches_bind (matches_persistLogs _ _ _ _) fun _ => ?_
        exact matches_bind (matches_moveValue _ _ _) fun _ => matches_pure _

theorem matches_callContract (caller contractAddr calldataHex : String) (value : ℚ) (gasLimit : Int) :
    Matches SameLedger (e.callContract caller contractAddr calldataHex value gasLimit)
      ((e.elsewhere minerAddress signingAddress now').callContract caller contractAddr calldataHex value gasLimit) := by
  have hgas : ∀ g, (e.elsewhere minerAddress signingAddress now').gasOr g = e.gasOr g := fun _ => rfl
  unfold callContract
  rw [hgas]
  refine matches_bind (matches_query fun t u ha _ => by rw [codeOf_accounts ha]) fun codeHex => ?_
  cases codeHex with
  | none => exact matches_pure _
  | some codeHex =>
    dsimp only
    cases bytesFromHex (removeHexPrefixes codeHex) with
    | none => exact matches_pure _
    | some code =>
      refine matches_bind (matches_query fun t u ha _ => by rw [storageOf_accounts ha]) fun storage => ?_
      refine matches_bind (matches_tryRunEvm _ _ _ _ _ _ _) fun result => ?_
      cases result with
      | error err => exact matches_pure _
      | ok m =>
        refine matches_ite (matches_pure _) (matches_bind (matches_updateAccountStorage _ _) fun _ => ?_)
        refine matches_bind (matches_persistLogs _ _ _ _) fun _ => ?_
        exact matches_bind (matches_moveValue _ _ _) fun _ => matches_pure _

end EvmAdapter

/-! ## Transactions -/

/-- What a node has of its own: its addresses, and the height up to which roots are not compared. -/
structure Home where
  minerAddress : String
  signingAddress : String
  baseline : Int

/-- Two executions of one transaction charge and record the same. -/
structure SameOutcome (x y : Transaction) : Prop where
  fee : y.fee = x.fee
  burned : y.burned = x.burned
  gasUsed : y.gasUsed = x.gasUsed

namespace Blockchain

/-- The program on another node. -/
def elsewhere (c : Blockchain) (home : Home) : Blockchain :=
  { c with
    config := { c.config with minerAddress := home.minerAddress, signingAddress := home.signingAddress }
    stateRootBaseline := home.baseline }

section
variable {c : Blockchain} {home : Home} {now now' height : Int} {proposer : String} {tx y : Transaction} {s t : Db}
  (hx : SameTx tx y)
include hx

theorem matches_runContract (kind : Kind) :
    Matches SameLedger (c.runContract now kind tx height) ((c.elsewhere home).runContract now' kind y height) := by
  have hadapter : (c.elsewhere home).adapter now' = (c.adapter now).elsewhere home.minerAddress home.signingAddress now' := rfl
  have hlimit : (c.elsewhere home).config.evmGasLimit = c.config.evmGasLimit := rfl
  by_cases hk : kind = .call
  · subst hk
    simp only [runContract, hx.fromAddr, hx.toAddr, hx.data, hx.value, hx.gas, hadapter, hlimit]
    exact EvmAdapter.matches_callContract _ _ _ _ _
  · simp only [runContract_deploy hk, hx.fromAddr, hx.data, hx.value, hx.gas, hx.nonce, hx.hash, hadapter, hlimit]
    exact EvmAdapter.matches_deployContract _ _ _ _ _

theorem matches_settle (ch : Charge) :
    Matches SameLedger (c.settle tx proposer ch) ((c.elsewhere home).settle y proposer ch) := by
  unfold settle
  rw [hx.fromAddr]
  refine matches_bind (matches_balanceDelta _ _) fun _ => ?_
  exact matches_bind (matches_when (matches_balanceDelta _ _)) fun _ => matches_nonceIncrement _

omit hx in
theorem blocks_recordPool (a : String) (amount : ℚ) (db : Db) : (c.recordPool a amount db).live.blocks = db.live.blocks := by
  unfold recordPool
  cases c.poolSpending db.live a amount with
  | none => rfl
  | some p => rfl

omit hx in
/-- Pools are no part of what the two nodes share. -/
theorem matches_recordPoolOutgoing (a : String) (amount : ℚ) :
    Matches SameLedger (c.recordPoolOutgoing a amount) ((c.elsewhere home).recordPoolOutgoing a amount) := by
  intro s t h
  rw [recordPoolOutgoing_run, recordPoolOutgoing_run]
  refine .ok rfl ⟨?_, ?_, ?_⟩
  · rw [accounts_recordPool, accounts_recordPool]
    exact h.accounts
  · rw [blocks_recordPool, blocks_recordPool]
    exact h.blocks
  · rw [blocks_recordPool]
    exact h.started

theorem alike_transfer (h : SameLedger s t) : Alike SameOutcome SameLedger (c.applyTransfer tx height proposer s)
    ((c.elsewhere home).applyTransfer y height proposer t) := by
  unfold applyTransfer
  simp only [hx.fromAddr, hx.toAddr, hx.value, hx.gas]
  refine alike_bind (matches_balanceDelta _ _ s t h) fun _ _ s₁ t₁ _ _ h₁ => ?_
  refine alike_bind (matches_balanceDelta _ _ s₁ t₁ h₁) fun _ _ s₂ t₂ _ _ h₂ => ?_
  refine alike_bind (matches_settle hx _ s₂ t₂ h₂) fun _ _ s₃ t₃ _ _ h₃ => ?_
  exact alike_bind (matches_recordPoolOutgoing _ _ s₃ t₃ h₃) fun _ _ s₄ t₄ _ _ h₄ => alike_pure ⟨rfl, rfl, rfl⟩ h₄

theorem alike_contract (h : SameLedger s t) (kind : Kind) (balance : ℚ) :
    Alike SameOutcome SameLedger (c.applyContract now kind tx height proposer balance s)
      ((c.elsewhere home).applyContract now' kind y height proposer balance t) := by
  have hcharge : ∀ fee, (c.elsewhere home).charge fee = c.charge fee := fun _ => rfl
  have hfee : ∀ gas, (c.elsewhere home).gasFee gas = c.gasFee gas := fun _ => rfl
  unfold applyContract
  rw [hx.fromAddr, hx.value, hx.gas]
  refine alike_bind (matches_runContract hx kind s t h) fun res _ s₁ t₁ _ hres h₁ => ?_
  subst hres
  by_cases hsuccess : ¬ res.success = true
  · rw [if_pos hsuccess, if_pos hsuccess]
    exact alike_raise h₁
  · rw [if_neg hsuccess, if_neg hsuccess]
    simp only [hcharge, hfee]
    by_cases hfunds : balance < (c.charge (max (c.gasFee tx.gas) (c.gasFee res.gasUsed))).fee + tx.value.toRat
    · rw [if_pos hfunds, if_pos hfunds]
      exact alike_raise h₁
    · rw [if_neg hfunds, if_neg hfunds]
      refine alike_bind (matches_balanceDelta _ _ s₁ t₁ h₁) fun _ _ s₂ t₂ _ _ h₂ => ?_
      refine alike_bind (matches_settle hx _ s₂ t₂ h₂) fun _ _ s₃ t₃ _ _ h₃ => ?_
      exact alike_bind (matches_recordPoolOutgoing _ _ s₃ t₃ h₃) fun _ _ s₄ t₄ _ _ h₄ => alike_pure ⟨rfl, rfl, rfl⟩ h₄

/-- A transaction that passes the checks on both nodes ends alike on both, when they credit the fee to the same address. -/
theorem alike_transaction (h : SameLedger s t) (hfee : (c.elsewhere home).feeRecipient proposer = c.feeRecipient proposer)
    (hs : c.precheck s.live tx = .ok ()) (ht : (c.elsewhere home).precheck t.live y = .ok ()) :
    Alike SameOutcome SameLedger (c.applyTransaction now tx height proposer s)
      ((c.elsewhere home).applyTransaction now' y height proposer t) := by
  have hkind : (c.elsewhere home).kindOf t.live y = c.kindOf s.live tx := by
    unfold kindOf
    rw [hx.data, hx.toAddr, codeOf_accounts h.accounts]
    rfl
  have hbalance : t.live.getBalance y.fromAddr = s.live.getBalance tx.fromAddr := by
    rw [hx.fromAddr, h.getBalance]
  unfold applyTransaction
  simp only [bind_run (query id), query_run, id, hs, ht, hkind, hbalance, hfee, liftExcept, bind_run]
  cases c.kindOf s.live tx with
  | transfer => exact alike_transfer hx h
  | call => exact alike_contract hx h .call _
  | deploy => exact alike_contract hx h .deploy _

end

/-! ## Pools -/

section
variable {c : Blockchain} {home : Home} {now now' height : Int} {proposer : String} {t : Tables} {a : String} {amount balance : ℚ}

theorem checkPool_ok : c.checkPool t a amount balance = .ok () ↔
    (c.poolLocks = true → ∀ info, t.lockedPools.get? a = some info → amount ≤ info.spendable balance + 1 / 1000000000) := by
  unfold checkPool
  by_cases hc : c.poolLocks = true
  · rw [if_pos hc]
    simp only [hc, forall_const]
    cases hr : outgoingRefusal t a amount balance with
    | none => exact iff_of_true rfl fun info hinfo => outgoingRefusal_none hinfo hr
    | some reason =>
      refine iff_of_false (fun h => nomatch h) fun h => ?_
      unfold outgoingRefusal at hr
      cases hinfo : t.lockedPools.get? a with
      | none =>
        rw [hinfo] at hr
        cases hr
      | some info =>
        rw [hinfo] at hr
        simp only [if_neg (not_lt.mpr (h info hinfo))] at hr
        cases hr
  · rw [if_neg hc]
    exact iff_of_true rfl fun h => absurd h hc

/-- What a pool may spend is a matter of its releases, or all that it has. -/
theorem checkPool_amount (hle : amount ≤ balance) :
    c.checkPool t a amount balance = .ok () ↔ c.checkPool t a amount amount = .ok () := by
  rw [checkPool_ok, checkPool_ok]
  refine imp_congr_right fun _ => forall₂_congr fun info _ => ?_
  unfold PoolInfo.spendable
  cases info.id with
  | founder => exact iff_of_true (by dsimp only; linarith) (by dsimp only; linarith)
  | mining => exact iff_of_true (by dsimp only; linarith) (by dsimp only; linarith)
  | ecosystem => exact Iff.rfl
  | treasury => exact Iff.rfl
  | staking => exact Iff.rfl

theorem TxStep.pool_others {tx tx' : Transaction} {db db' : Db} (h : TxStep c now height proposer tx db tx' db')
    (ha : a ≠ tx.fromAddr) : c.checkPool db'.live a amount balance = .ok () ↔ c.checkPool db.live a amount balance = .ok () := by
  rw [checkPool_ok, checkPool_ok]
  refine imp_congr_right fun hc => ?_
  rw [h.spent hc a]
  simp only [h.sender, if_neg ha, Option.map_id']

def cost (c : Blockchain) (tx : Transaction) : ℚ := tx.value.toRat + c.gasFee tx.gas

/-- In a block without two transactions of one sender, the pools let each go before the block as at its turn. -/
theorem TxSteps.pools {txs txs' : List Transaction} {db db' : Db} (h : TxSteps c now height proposer txs db txs' db')
    (hpairs : txs.Pairwise fun x y => x.fromAddr ≠ y.fromAddr) :
    ∀ tx ∈ txs, c.checkPool db.live tx.fromAddr (c.cost tx) (c.cost tx) = .ok () := by
  induction h with
  | nil => exact fun _ h => nomatch h
  | cons step steps ih =>
    obtain ⟨hdistinct, hrest⟩ := List.pairwise_cons.mp hpairs
    obtain ⟨-, hfunds, hpool, -⟩ := precheck_ok.mp step.checks
    refine List.forall_mem_cons.mpr ⟨(checkPool_amount hfunds).mp hpool, fun y hy => ?_⟩
    exact (step.pool_others (hdistinct y hy).symm).mp (ih hrest y hy)

variable {tx y : Transaction} {s u : Db}

theorem precheck_elsewhere (h : SameLedger s u) (hx : SameTx tx y) (hs : c.precheck s.live tx = .ok ())
    (hpool : (c.elsewhere home).checkPool u.live y.fromAddr (c.cost y) (c.cost y) = .ok ()) :
    (c.elsewhere home).precheck u.live y = .ok () := by
  obtain ⟨hnonce, hfunds, -, hsigned⟩ := precheck_ok.mp hs
  have hsame : u.live.getNonce tx.fromAddr = s.live.getNonce tx.fromAddr := by
    unfold Tables.getNonce Tables.getAccount
    rw [h.accounts]
  have hfunds' : (c.elsewhere home).cost y ≤ u.live.getBalance y.fromAddr := by
    rw [hx.fromAddr, ← h.getBalance]
    unfold cost
    rw [hx.value, hx.gas]
    exact hfunds
  refine precheck_ok.mpr ⟨?_, hfunds', (checkPool_amount hfunds').mpr hpool, ?_⟩
  · rw [hx.nonce, hx.fromAddr, hsame]
    exact hnonce
  · unfold verifyTxSignature at hsigned ⊢
    rw [hx.signature, hx.publicKey, hx.payload]
    exact hsigned

theorem runs_elsewhere {txs ys txs' : List Transaction} {s' : Db} (hx : List.Forall₂ SameTx txs ys)
    (hpairs : ys.Pairwise fun x y => x.fromAddr ≠ y.fromAddr)
    (hfee : txs = [] ∨ (c.elsewhere home).feeRecipient proposer = c.feeRecipient proposer) (h : SameLedger s u)
    (hrun : c.applyTransactions now height proposer txs s = (.ok txs', s'))
    (hpool : ∀ y ∈ ys, (c.elsewhere home).checkPool u.live y.fromAddr (c.cost y) (c.cost y) = .ok ()) :
    ∃ ys' u', (c.elsewhere home).applyTransactions now' height proposer ys u = (.ok ys', u') ∧ SameLedger s' u' ∧
      List.Forall₂ SameOutcome txs' ys' := by
  induction hx generalizing s u txs' with
  | nil =>
    cases hrun
    exact ⟨[], u, rfl, h, .nil⟩
  | @cons tx y rest ys hx hrest ih =>
    obtain ⟨hdistinct, hpairs'⟩ := List.pairwise_cons.mp hpairs
    have hfee' := hfee.resolve_left (List.cons_ne_nil _ _)
    unfold applyTransactions at hrun
    obtain ⟨tx', s₁, h₁, k₁⟩ := bind_ok.mp hrun
    obtain ⟨rest', s₂, h₂, k₂⟩ := bind_ok.mp k₁
    obtain ⟨hout, rfl⟩ := Prod.mk.inj k₂
    obtain rfl := Except.ok.inj hout
    obtain ⟨hfirst, hlater⟩ := List.forall_mem_cons.mp hpool
    have hs := (applyTransaction_ok h₁).checks
    have halike := @alike_transaction c home now now' height proposer tx y s u hx h hfee' hs (precheck_elsewhere h hx hs hfirst)
    rw [h₁] at halike
    obtain ⟨y', u₁, hy, hsame, hu₁⟩ := halike.returned
    have hstep := applyTransaction_ok hy
    obtain ⟨ys', u', hys, hu', hsames⟩ := ih hpairs' (.inr hfee') hu₁ h₂ fun z hz =>
      (hstep.pool_others (hdistinct z hz).symm).mpr (hlater z hz)
    refine ⟨y' :: ys', u', ?_, hu', .cons hsame hsames⟩
    unfold applyTransactions
    exact bind_ok.mpr ⟨y', u₁, hy, bind_ok.mpr ⟨ys', u', hys, rfl⟩⟩

end

end Blockchain

end AbsoluteChain
