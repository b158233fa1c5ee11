import AbsoluteChain.SharedMemory
import AbsoluteChain.SubCalls

/-!
# Storage seen by re-entered contracts

Every frame works on a copy of its contract's storage and saves the whole copy when it
returns. The loads and stores of a call tree are those of one shared storage as long as
no frame starts while stores of its contract are pending, and none is resumed with a
copy that a frame below it has outdated.
-/

namespace AbsoluteChain

open Python Actions Act Transactions Runs SharedMemory KeyedTable

/-- The callee works on the caller's storage and hands it back. -/
def HookCall.adopted : HookCall → Bool
  | .call _ args => args.delegate || args.callcode
  | _ => false

namespace EvmAdapter

/-! ## Slots -/

def slot (st : Storage) (key : Nat) : Nat := (st.get? key).getD 0

def SameSlots (x y : Storage) : Prop := slot x = slot y

theorem slot_storeSlot (st : Storage) (key value : Nat) :
    slot (storeSlot st key value) = Function.update (slot st) key value := by
  funext j
  unfold slot storeSlot
  by_cases hzero : value = 0 ∧ st.contains key = true
  · rw [if_pos hzero, Dict.get?_erase, hzero.1]
    by_cases hj : j = key
    · rw [if_pos hj, hj, Function.update_self]
      rfl
    · rw [if_neg hj, Function.update_of_ne hj]
  · rw [if_neg hzero, Dict.get?_set]
    by_cases hj : j = key
    · rw [if_pos hj, hj, Function.update_self]
      rfl
    · rw [if_neg hj, Function.update_of_ne hj]

theorem sameSlots_iff (x y : Storage) : SameSlots x y ↔ ∀ key ∈ (x ++ y).map Prod.fst, slot x key = slot y key := by
  have hmissing : ∀ (st : Storage) (key : Nat), key ∉ st.map Prod.fst → slot st key = 0 := by
    intro st key hkey
    unfold slot Dict.get?
    rw [List.lookup_eq_none_iff.mpr]
    · rfl
    · intro p hp
      rw [bne_iff_ne]
      rintro rfl
      exact hkey (List.mem_map_of_mem hp)
  constructor
  · intro h key _
    exact congrFun h key
  · intro h
    funext key
    by_cases hkey : key ∈ (x ++ y).map Prod.fst
    · exact h key hkey
    · rw [List.map_append, List.mem_append, not_or] at hkey
      rw [hmissing x key hkey.1, hmissing y key hkey.2]

instance (x y : Storage) : Decidable (SameSlots x y) := decidable_of_iff' _ (sameSlots_iff x y)

/-! ## Accesses of one instruction -/

def ownAccess (op : Op) (m : Machine) : List (Access Nat Nat) :=
  match op, m.stack with
  | .sload, key :: _ => [.load key (slot m.storage key)]
  | .sstore, key :: value :: _ => [.store key value]
  | _, _ => []

section interpreter
variable {host : Host} {view : Tables → Callbacks} {hooks : Hooks} {ctx : EvmContext} {code : Bytes} {s : Vm}

theorem storage_sstore (cb : Callbacks) (m : Machine) :
    Replays (slot m.storage) (ownAccess .sstore m) (slot (machineOp host cb ctx code .sstore m).2.storage) := by
  have hrun : machineOp host cb ctx code .sstore = (pop >>= fun key => pop >>= fun value =>
    Act.write (fun m : Machine => { m with storage := storeSlot m.storage key value }) >>= fun _ => pure Flow.next) := rfl
  rw [hrun]
  unfold ownAccess
  simp only [bind_run, pop]
  cases hst : m.stack with
  | nil => exact .nil
  | cons key rest =>
    cases rest with
    | nil => exact .nil
    | cons value rest => exact ⟨⟨trivial, trivial⟩, slot_storeSlot m.storage key value⟩

theorem storage_create (salted : Bool) : (executeCreate host hooks ctx salted s).2.machine.storage = s.machine.storage := by
  have hkept := @keeps_prepareCreate _ machineFrame_storage.toInertFrame host salted s.machine
  have hcharge : ∀ gas : Int, Keeps (Frame.fixed Machine.storage) (chargeSubcallGas gas) := by
    intro gas m
    unfold chargeSubcallGas
    by_cases hg : 0 < gas
    · rw [if_pos hg]
      dsimp only
      by_cases hl : m.gasLimit < m.gasUsed + gas
      · rw [if_pos hl]
        rfl
      · rw [if_neg hl]
        rfl
    · rw [if_neg hg]
      rfl
  rcases hp : prepareCreate host salted s.machine with ⟨f | a, m₁⟩
  · rw [hp] at hkept
    unfold executeCreate
    rw [bind_run, onMachine_run, hp]
    exact hkept
  · rw [hp] at hkept
    rw [executeCreate_run hp]
    rcases hooks.create ctx a.initCode a.value a.salt s.db with ⟨f | out, db⟩
    · exact hkept
    · have hrest := keeps_bind (hcharge out.gasUsed) (fun _ : Unit => keeps_pushFlow machineFrame_storage.toInertFrame
        (if ¬ out.success ∨ out.reverted ∨ out.address = "" then 0 else addrInt host out.address)) m₁
      exact hrest.trans hkept

theorem storage_selfDestruct : (execOp host view hooks ctx code .selfDestruct s).2.machine.storage = s.machine.storage := by
  change ((onMachine pop >>= fun b => onVmDb (hooks.selfDestruct ctx (wordToAddr b)) >>= fun _ => pure Flow.halt)
    s).2.machine.storage = s.machine.storage
  have hkept := keeps_pop machineFrame_storage.toInertFrame s.machine
  rw [bind_run, onMachine_run]
  rcases hp : pop s.machine with ⟨f | b, m₁⟩
  · rw [hp] at hkept
    exact hkept
  · rw [hp] at hkept
    simp only [bind_run, onVmDb_run]
    rcases hooks.selfDestruct ctx (wordToAddr b) s.db with ⟨f | u, db⟩
    · exact hkept
    · exact hkept

theorem own_replays {op : Op} (hno : hookOf host ctx op s.machine = none) :
    Replays (slot s.machine.storage) (ownAccess op s.machine)
      (slot (execOp host view hooks ctx code op s).2.machine.storage) := by
  have hmachine : ∀ {op : Op}, op ≠ .sstore →
      (machineOp host (view s.db.live) ctx code op s.machine).2.storage = s.machine.storage :=
    fun hop => keeps_machineOp machineFrame_storage (view s.db.live) ctx hop s.machine
  have hcall : ∀ mode, (prepareCall host mode s.machine).1.toOption.map (fun p => HookCall.call ctx p.2) = none →
      (executeCall host hooks ctx mode s).2.machine.storage = s.machine.storage := by
    intro mode hnone
    have hkept := @keeps_prepareCall _ machineFrame_storage.toInertFrame host mode s.machine
    unfold executeCall
    rw [bind_run, onMachine_run]
    rcases hp : prepareCall host mode s.machine with ⟨f | p, m₁⟩
    · rw [hp] at hkept
      exact hkept
    · rw [hp] at hnone
      cases hnone
  have hsame : ∀ {st : Storage} {l : List (Access Nat Nat)}, st = s.machine.storage → l = [] →
      Replays (slot s.machine.storage) l (slot st) := by
    rintro st l rfl rfl
    exact .nil
  cases op with
  | sload =>
    unfold ownAccess
    cases hst : s.machine.stack with
    | nil => exact hsame (hmachine (by decide)) rfl
    | cons key rest =>
      refine ⟨⟨rfl, trivial⟩, congrArg slot ?_⟩
      exact @hmachine .sload (by decide)
  | sstore => exact storage_sstore (view s.db.live) s.machine
  | call => exact hsame (hcall _ hno) rfl
  | callCode => exact hsame (hcall _ hno) rfl
  | delegateCall => exact hsame (hcall _ hno) rfl
  | staticCall => exact hsame (hcall _ hno) rfl
  | create => exact hsame (storage_create false) rfl
  | create2 => exact hsame (storage_create true) rfl
  | selfDestruct => exact hsame storage_selfDestruct rfl
  | _ => exact hsame (hmachine (by rintro ⟨⟩)) rfl

/-- The three ways to reach a hook. -/
theorem hookOf_cases {op : Op} {m : Machine} {h : HookCall} (hh : hookOf host ctx op m = some h) :
    (∃ mode p m₁, callMode op = some mode ∧ prepareCall host mode m = (.ok p, m₁) ∧ h = .call ctx p.2) ∨
    (∃ salted a m₁, (∀ (s : Vm), execOp host view hooks ctx code op s = executeCreate host hooks ctx salted s) ∧
      prepareCreate host salted m = (.ok a, m₁) ∧ h = .create ctx a.initCode a.value a.salt) ∨
    (op = .selfDestruct ∧ ∃ b, h = .selfDestruct ctx b) := by
  have hcall : ∀ mode, callMode op = some mode →
      ((prepareCall host mode m).1.toOption.map fun p => HookCall.call ctx p.2) = some h →
      ∃ mode p m₁, callMode op = some mode ∧ prepareCall host mode m = (.ok p, m₁) ∧ h = .call ctx p.2 := by
    intro mode hm hsome
    rcases hp : prepareCall host mode m with ⟨f | p, m₁⟩
    · rw [hp] at hsome
      cases hsome
    · rw [hp] at hsome
      exact ⟨mode, p, m₁, hm, hp, (Option.some.inj hsome).symm⟩
  have hcreate : ∀ salted, (∀ (s : Vm), execOp host view hooks ctx code op s = executeCreate host hooks ctx salted s) →
      ((prepareCreate host salted m).1.toOption.map fun a => HookCall.create ctx a.initCode a.value a.salt) = some h →
      ∃ salted a m₁, (∀ (s : Vm), execOp host view hooks ctx code op s = executeCreate host hooks ctx salted s) ∧
        prepareCreate host salted m = (.ok a, m₁) ∧ h = .create ctx a.initCode a.value a.salt := by
    intro salted hop hsome
    rcases hp : prepareCreate host salted m with ⟨f | a, m₁⟩
    · rw [hp] at hsome
      cases hsome
    · rw [hp] at hsome
      exact ⟨salted, a, m₁, hop, hp, (Option.some.inj hsome).symm⟩
  cases op with
  | call => exact .inl (hcall _ rfl hh)
  | callCode => exact .inl (hcall _ rfl hh)
  | delegateCall => exact .inl (hcall _ rfl hh)
  | staticCall => exact .inl (hcall _ rfl hh)
  | create => exact .inr (.inl (hcreate false (fun _ => rfl) hh))
  | create2 => exact .inr (.inl (hcreate true (fun _ => rfl) hh))
  | selfDestruct =>
    obtain ⟨b, -, hb⟩ := Option.map_eq_some_iff.mp hh
    exact .inr (.inr ⟨rfl, _, hb.symm⟩)
  | _ => cases hh

theorem storage_call {mode : CallMode} {p : CallOperands × CallArgs} {m₁ : Machine}
    (hp : prepareCall host mode s.machine = (.ok p, m₁)) :
    (executeCall host hooks ctx mode s).2.machine.storage =
      match (hooks.call ctx p.2 s.db).1 with
      | .error _ => s.machine.storage
      | .ok out => if (mode.delegate || mode.callcode) = true then out.storage.getD s.machine.storage else s.machine.storage := by
  have hkept := keeps_apply (keeps_prepareCall machineFrame_storage.toInertFrame mode) hp
  change m₁.storage = s.machine.storage at hkept
  have hgas := (prepareCall_ok hp).1
  rw [executeCall_run hp]
  rcases hooks.call ctx p.2 s.db with ⟨f | out, db⟩
  · exact hkept
  · dsimp only
    rw [← hkept, onMachine_run]
    refine (finishCall_account ?_).2
    rw [hgas]
    exact fits_of_callGas _

end interpreter

/-! ## The storage column -/

def stored (a : String) (db : Db) : Storage := storageOf db.live a

section column
variable {e : EvmAdapter} {a b : String}

theorem stored_updateBalance (a b : String) (delta : ℚ) : Keeps (Frame.fixed (stored a)) (updateBalance b delta) := by
  refine keeps_write fun db => ?_
  change storageOf (db.live.applyBalanceDelta b delta) a = storageOf db.live a
  unfold storageOf Tables.getAccount Tables.applyBalanceDelta
  rw [Table.get_upsert]
  by_cases h : a = b
  · rw [if_pos h, h]
    cases db.live.accounts.get? b <;> rfl
  · rw [if_neg h]

theorem stored_updateAccountStorage (h : b ≠ a) (st : Storage) : Keeps (Frame.fixed (stored a)) (updateAccountStorage b st) := by
  refine keeps_write fun db => ?_
  change storageOf (db.live.updateAccountStorage b st) a = storageOf db.live a
  unfold storageOf Tables.getAccount Tables.updateAccountStorage
  rw [Table.get_update, if_neg h.symm]

theorem stored_saveAccount (h : b ≠ a) (x : Account) : Keeps (Frame.fixed (stored a)) (saveAccount b x) := by
  refine keeps_write fun db => ?_
  change storageOf (db.live.saveAccount b x) a = storageOf db.live a
  unfold storageOf Tables.getAccount Tables.saveAccount
  rw [Table.get_put, if_neg h.symm]

theorem stored_moveValue (a source target : String) (value : ℚ) : Keeps (Frame.fixed (stored a)) (moveValue source target value) :=
  keeps_when fun _ => keeps_bind (stored_updateBalance a _ _) fun _ => stored_updateBalance a _ _

theorem stored_persistLogs (a b : String) (logs : List EvmLog) : Keeps (Frame.fixed (stored a)) (e.persistLogs b logs) := by
  unfold persistLogs saveEvmLogs
  refine keeps_bind (keeps_query _) fun tip => keeps_ite (fun _ => keeps_pure _) fun _ => ?_
  exact keeps_write fun db => rfl

theorem stored_concludeCall {ctx : EvmContext} {args : CallArgs} (h : e.execAddr ctx args ≠ a) (m : Machine) :
    Keeps (Frame.fixed (stored a)) (e.concludeCall ctx args m) := by
  unfold execAddr at h
  refine keeps_ite (fun _ => keeps_pure _) fun _ => keeps_ite (fun hc => ?_) fun hc => keeps_ite (fun _ => keeps_pure _) fun _ => ?_
  · rw [if_pos hc] at h
    refine keeps_bind (stored_updateAccountStorage h _) fun _ => keeps_bind (keeps_when fun _ => ?_) fun _ => ?_
    · exact stored_moveValue a _ _ _
    · exact stored_persistLogs a _ _
  · rw [if_neg hc] at h
    exact keeps_bind (stored_updateAccountStorage h _) fun _ => stored_moveValue a _ _ _

theorem stored_concludeCreate {ctx : EvmContext} {initCode : Bytes} {value : Nat} {salt : Option Nat}
    (h : createdAt ctx initCode salt ≠ a) (m : Machine) :
    Keeps (Frame.fixed (stored a)) (concludeCreate ctx initCode value salt m) :=
  keeps_ite (fun _ => keeps_pure _) fun _ => keeps_bind (stored_saveAccount h _) fun _ => stored_moveValue a _ _ _

theorem stored_selfDestruct {contract : String} (h : e.normalizeAddr contract ≠ a) (beneficiary : String) :
    Keeps (Frame.fixed (stored a)) (e.selfDestructContract contract beneficiary) := by
  unfold selfDestructContract
  refine keeps_bind (keeps_query _) fun account => keeps_bind (keeps_when fun _ => ?_) fun _ => stored_saveAccount h _
  exact keeps_bind (stored_updateBalance a _ _) fun _ => stored_updateBalance a _ _

/-- A row that is there stays there. -/
def present (a : String) : Frame Db where
  rel db db' := (db.live.getAccount a).isSome = true → (db'.live.getAccount a).isSome = true
  refl _ := id
  trans h₁ h₂ h := h₂ (h₁ h)

theorem present_put {t : Tables} (x : Account) : (t.getAccount a).isSome = true → ((t.saveAccount b x).getAccount a).isSome = true := by
  intro h
  unfold Tables.getAccount Tables.saveAccount
  rw [Table.get_put]
  by_cases hab : a = b
  · rw [if_pos hab]
    rfl
  · rw [if_neg hab]
    exact h

theorem present_balance (b : String) (delta : ℚ) : Keeps (present a) (updateBalance b delta) := by
  refine keeps_write fun db h => ?_
  change ((db.live.applyBalanceDelta b delta).getAccount a).isSome = true
  unfold Tables.getAccount Tables.applyBalanceDelta
  rw [Table.get_upsert]
  by_cases hab : a = b
  · rw [if_pos hab]
    rfl
  · rw [if_neg hab]
    exact h

theorem present_evmFrame (e : EvmAdapter) (a : String) : EvmFrame e (present a) where
  balance b delta := present_balance b delta
  storage b st := by
    refine keeps_write fun db h => ?_
    change ((db.live.updateAccountStorage b st).getAccount a).isSome = true
    unfold Tables.getAccount Tables.updateAccountStorage
    rw [Table.get_update]
    by_cases hab : a = b
    · rw [if_pos hab, ← hab, Option.isSome_map]
      exact h
    · rw [if_neg hab]
      exact h
  logs b l h x := keeps_ite (fun _ => keeps_pure _) fun _ => keeps_write fun db => id
  created seed x _ := keeps_write fun db => present_put x
  selfDestruct contract beneficiary := by
    unfold selfDestructContract
    refine keeps_bind (keeps_query _) fun account => keeps_bind (keeps_when fun _ => ?_) fun _ => ?_
    · exact keeps_bind (present_balance _ _) fun _ => present_balance _ _
    · exact keeps_write fun db => present_put _

/-- A returning interpreter keeps the row of the contract it was started on. -/
theorem present_runFrame (depth : Nat) (fr : SubFrame) {db : Db} (h : (db.live.getAccount a).isSome = true) :
    ((e.runFrame (e.hooks depth) fr db).2.live.getAccount a).isSome = true :=
  keeps_executeBytecode (keeps_hooks (present_evmFrame e a) depth fr.ctx) fr.gas fr.storage db h

theorem stored_updated {db : Db} (st : Storage) (h : (db.live.getAccount a).isSome = true) :
    stored a (updateAccountStorage a st db).2 = st := by
  change storageOf (db.live.updateAccountStorage a st) a = st
  unfold Tables.getAccount at h
  unfold storageOf Tables.getAccount Tables.updateAccountStorage
  rw [Table.get_update, if_pos rfl]
  obtain ⟨x, hx⟩ := Option.isSome_iff_exists.mp h
  rw [hx]
  rfl

theorem stored_saved (x : Account) (db : Db) : stored a (saveAccount a x db).2 = x.storage.getD [] := by
  change storageOf (db.live.saveAccount a x) a = _
  unfold storageOf Tables.getAccount Tables.saveAccount
  rw [Table.get_put_same]
  rfl

end column

/-! ## Accesses of a call tree -/

section
variable (e : EvmAdapter) (a : String)

/-- The hook starts an interpreter on the storage of `a`. -/
def runsOn (x : Site) : Bool := (e.siteFrame x).any fun fr => fr.ctx.address = a

/-- Some hook below, or the hook itself, does. -/
def enters (depth : Nat) (x : Site) : Bool := (e.tree depth x).any fun y => e.runsOn a y.site

/-- The instructions of an interpreter. -/
def frameSteps (hooks : Hooks) (fr : SubFrame) (db : Db) : List (Op × Vm) :=
  steps e.host e.callbacks hooks fr.ctx fr.code (fr.gas.toNat + 1) { machine := Machine.start fr.gas fr.storage, db := db }

def accessesAt (ctx : EvmContext) (below : Site → List (Access Nat Nat)) (p : Op × Vm) : List (Access Nat Nat) :=
  (if ctx.address = a then ownAccess p.1 p.2.machine else []) ++
    (hookOf e.host ctx p.1 p.2.machine).elim [] fun h => below ⟨h, p.2.db⟩

def siteAccesses : Nat → Site → List (Access Nat Nat)
  | 0, _ => []
  | depth + 1, x =>
    match e.siteFrame x with
    | none => []
    | some fr => (e.frameSteps (e.hooks depth) fr x.db).flatMap (e.accessesAt a fr.ctx (siteAccesses depth))

def frameAccesses (depth : Nat) (fr : SubFrame) (db : Db) : List (Access Nat Nat) :=
  (e.frameSteps (e.hooks depth) fr db).flatMap (e.accessesAt a fr.ctx (e.siteAccesses a depth))

/-! ## No stale copies -/

/-- The state after an instruction. -/
def resumed (depth : Nat) (fr : SubFrame) (p : Op × Vm) : Vm :=
  (execOp e.host e.callbacks (e.hooks depth) fr.ctx fr.code p.1 p.2).2

/-- An interpreter on `a` reaches a hook below which another one on `a` starts only with all its stores saved,
and is resumed with the storage as it then is. A `DELEGATECALL` and a `CALLCODE` hand the storage back. -/
def Resumes (depth : Nat) (fr : SubFrame) (db : Db) : Prop :=
  ∀ p ∈ e.frameSteps (e.hooks depth) fr db, ∀ h ∈ (hookOf e.host fr.ctx p.1 p.2.machine).toList,
    e.enters a depth ⟨h, p.2.db⟩ = true →
      SameSlots p.2.machine.storage (stored a p.2.db) ∧
      (h.adopted = false → SameSlots (e.resumed depth fr p).machine.storage (stored a (e.resumed depth fr p).db))

instance (depth : Nat) (fr : SubFrame) (db : Db) : Decidable (e.Resumes a depth fr db) :=
  inferInstanceAs (Decidable (∀ p ∈ e.frameSteps (e.hooks depth) fr db, ∀ h ∈ Option.toList _, _ → _ ∧ (_ → _)))

/-- Nothing below a hook works on a stale copy of the storage of `a`: a `STATICCALL` leaves nothing to be saved,
nothing is created over stored slots, and `a` is not destroyed under another spelling. -/
def kept (x : Node) : HookCall → Prop
  | .call _ args => args.static = true → e.runsOn a x.site = true →
    ∀ st ∈ ((e.calleeResult x).bind fun r => r.toOption.map Machine.storage).toList, SameSlots st (stored a (e.inner x))
  | .create ctx initCode _ salt => createdAt ctx initCode salt = a → SameSlots [] (stored a x.site.db)
  | .selfDestruct ctx _ => e.normalizeAddr ctx.address = a → ctx.address = a

instance (x : Node) : ∀ hook, Decidable (e.kept a x hook)
  | .call _ _ => inferInstanceAs (Decidable (_ → _ → ∀ st ∈ Option.toList _, _))
  | .create _ _ _ _ => inferInstanceAs (Decidable (_ → _))
  | .selfDestruct _ _ => inferInstanceAs (Decidable (_ → _))

structure Node.Coherent (x : Node) : Prop where
  resumes : ∀ fr ∈ (e.siteFrame x.site).toList, fr.ctx.address = a → e.Resumes a x.depth fr x.site.db
  kept : e.kept a x x.site.hook

instance (x : Node) : Decidable (x.Coherent e a) :=
  decidable_of_iff ((∀ fr ∈ (e.siteFrame x.site).toList, fr.ctx.address = a → e.Resumes a x.depth fr x.site.db) ∧
    e.kept a x x.site.hook) ⟨fun h => ⟨h.1, h.2⟩, fun h => ⟨h.1, h.2⟩⟩

end

/-! ### One interpreter -/

section frame
variable {e : EvmAdapter} {a : String}

/-- What is shown of a hook: its accesses are those of one storage, if the caller does not hold it; when it is the
caller that hands over its storage, the same of what it is given back. -/
structure Shared (e : EvmAdapter) (a : String) (depth : Nat) (x : Site) : Prop where
  out : (x.hook.adopted = true ∨ (∃ ctx b, x.hook = .selfDestruct ctx b) → x.hook.ctx.address ≠ a) →
    Replays (slot (stored a x.db)) (e.siteAccesses a depth x) (slot (stored a (x.hook.after (e.hooks depth) x.db)))
  handed : ∀ ctx args, x.hook = .call ctx args → (args.delegate || args.callcode) = true → args.static = false →
    ctx.address = a → ∀ st : Storage, (e.enters a depth x = true → SameSlots st (stored a x.db)) →
    Replays (slot st) (e.siteAccesses a depth x)
      (slot (match ((e.hooks depth).call ctx args x.db).1 with
        | .error _ => st
        | .ok out => out.storage.getD st))
  quiet : e.enters a depth x = false → e.siteAccesses a depth x = []

theorem ownAccess_hook {host : Host} {ctx : EvmContext} {op : Op} {m : Machine} {h : HookCall}
    (hh : hookOf host ctx op m = some h) : ownAccess op m = [] := by
  cases op <;> first | rfl | cases hh

section step
variable {depth : Nat} {ctx : EvmContext} {code : Bytes} {op : Op} {s : Vm}

theorem accessesAt_hook {h : HookCall} (hh : hookOf e.host ctx op s.machine = some h) :
    e.accessesAt a ctx (e.siteAccesses a depth) (op, s) = e.siteAccesses a depth ⟨h, s.db⟩ := by
  unfold accessesAt
  rw [ownAccess_hook hh, ite_self, hh]
  rfl

theorem enters_selfDestruct {ctx : EvmContext} {b : String} {db : Db} :
    e.enters a depth ⟨.selfDestruct ctx b, db⟩ = false := by
  cases depth <;> rfl

/-- One instruction of an interpreter on `a`, seen in its own copy of the storage. -/
theorem own_step (ha : ctx.address = a)
    (hshared : ∀ h, hookOf e.host ctx op s.machine = some h → Shared e a depth ⟨h, s.db⟩)
    (hres : ∀ h, hookOf e.host ctx op s.machine = some h → e.enters a depth ⟨h, s.db⟩ = true →
      SameSlots s.machine.storage (stored a s.db) ∧
      (h.adopted = false →
        SameSlots (execOp e.host e.callbacks (e.hooks depth) ctx code op s).2.machine.storage
          (stored a (execOp e.host e.callbacks (e.hooks depth) ctx code op s).2.db))) :
    Replays (slot s.machine.storage) (e.accessesAt a ctx (e.siteAccesses a depth) (op, s))
      (slot (execOp e.host e.callbacks (e.hooks depth) ctx code op s).2.machine.storage) := by
  cases hh : hookOf e.host ctx op s.machine with
  | none =>
    unfold accessesAt
    rw [if_pos ha, hh, Option.elim_none, List.append_nil]
    exact own_replays hh
  | some h =>
    have hx := hshared h hh
    have hr := hres h hh
    rw [accessesAt_hook hh]
    -- the caller keeps its copy: either nothing below runs on `a`, or the copy is what is stored
    have hkeeps : h.adopted = false →
        (execOp e.host e.callbacks (e.hooks depth) ctx code op s).2.machine.storage = s.machine.storage →
        Replays (slot s.machine.storage) (e.siteAccesses a depth ⟨h, s.db⟩)
          (slot (execOp e.host e.callbacks (e.hooks depth) ctx code op s).2.machine.storage) := by
      intro hadopt hsame
      cases hent : e.enters a depth ⟨h, s.db⟩ with
      | false =>
        rw [hx.quiet hent, hsame]
        exact .nil
      | true =>
        obtain ⟨hbefore, hafter⟩ := hr hent
        have hdb := @execOp_db e.host e.callbacks (e.hooks depth) ctx code op s
        rw [hh] at hdb
        have hout := hx.out (by
          rintro (h' | ⟨ctx', b, rfl⟩)
          · rw [hadopt] at h'
            cases h'
          · rw [enters_selfDestruct] at hent
            cases hent)
        have hafter' := hafter hadopt
        unfold SameSlots at hbefore hafter'
        rw [hafter', hbefore, hdb]
        exact hout
    rcases @hookOf_cases e.host e.callbacks (e.hooks depth) ctx code op s.machine h hh with
      ⟨mode, p, m₁, hm, hp, rfl⟩ | ⟨salted, b, m₁, hop, hp, rfl⟩ | ⟨rfl, b, rfl⟩
    · obtain ⟨-, hdelegate, hstatic, hcallcode⟩ := prepareCall_ok hp
      have hstorage : (execOp e.host e.callbacks (e.hooks depth) ctx code op s).2.machine.storage = _ :=
        (congrArg (fun r : Except Fault Flow × Vm => r.2.machine.storage) (execOp_call hm)).trans (storage_call hp)
      cases hadopt : (mode.delegate || mode.callcode) with
      | false =>
        apply hkeeps
        · change (p.2.delegate || p.2.callcode) = false
          rw [hdelegate, hcallcode, hadopt]
        · rw [hstorage]
          rcases (e.hooks depth).call ctx p.2 s.db with ⟨f | out, db⟩
          · rfl
          · dsimp only
            rw [hadopt]
            rfl
      | true =>
        have hadopt' : (p.2.delegate || p.2.callcode) = true := by rw [hdelegate, hcallcode, hadopt]
        have hhanded := hx.handed ctx p.2 rfl hadopt' (hstatic.trans (adopts_storage hm hadopt)) ha s.machine.storage
          fun hent => (hr hent).1
        rw [hstorage]
        simp only [hadopt, if_true]
        exact hhanded
    · apply hkeeps rfl
      rw [hop]
      exact storage_create salted
    · exact hkeeps rfl storage_selfDestruct

/-- One instruction of an interpreter on another contract, seen in the storage column. -/
theorem other_step (ha : ctx.address ≠ a)
    (hshared : ∀ h, hookOf e.host ctx op s.machine = some h → Shared e a depth ⟨h, s.db⟩) :
    Replays (slot (stored a s.db)) (e.accessesAt a ctx (e.siteAccesses a depth) (op, s))
      (slot (stored a (execOp e.host e.callbacks (e.hooks depth) ctx code op s).2.db)) := by
  have hdb := @execOp_db e.host e.callbacks (e.hooks depth) ctx code op s
  rw [hdb]
  cases hh : hookOf e.host ctx op s.machine with
  | none =>
    unfold accessesAt
    rw [if_neg ha, hh]
    exact .nil
  | some h =>
    rw [accessesAt_hook hh]
    apply (hshared h hh).out
    intro _
    rw [hookOf_ctx hh]
    exact ha

end step

section run
variable {depth : Nat} {fr : SubFrame} {db db₁ : Db} {m : Machine}

theorem frameSteps_path (hrun : e.runFrame (e.hooks depth) fr db = (.ok m, db₁)) :
    Path (fun p : Op × Vm => p.2.data)
      (fun p => (execOp e.host e.callbacks (e.hooks depth) fr.ctx fr.code p.1 p.2).2.data) (fr.storage, db)
      (e.frameSteps (e.hooks depth) fr db) (m.storage, db₁) := by
  have hpath := @steps_path e.host e.callbacks (e.hooks depth) fr.ctx fr.code
    (fr.gas.toNat + 1) { machine := Machine.start fr.gas fr.storage, db := db }
  unfold runFrame executeBytecode at hrun
  rcases hr : runLoop e.host e.callbacks (e.hooks depth) fr.ctx fr.code (fr.gas.toNat + 1)
    { machine := Machine.start fr.gas fr.storage, db := db } with ⟨f | u, s⟩
  · rw [hr] at hrun
    cases hrun
  · rw [hr] at hrun hpath
    obtain ⟨hm, rfl⟩ := Prod.mk.inj hrun
    obtain rfl := Except.ok.inj hm
    exact hpath

variable (hsites : ∀ p ∈ e.frameSteps (e.hooks depth) fr db, ∀ h, hookOf e.host fr.ctx p.1 p.2.machine = some h →
  Shared e a depth ⟨h, p.2.db⟩)
include hsites

theorem frame_own (ha : fr.ctx.address = a) (hstart : SameSlots fr.storage (stored a db)) (hres : e.Resumes a depth fr db)
    (hrun : e.runFrame (e.hooks depth) fr db = (.ok m, db₁)) :
    Replays (slot (stored a db)) (e.frameAccesses a depth fr db) (slot m.storage) := by
  rw [← hstart]
  refine path_replays (fun d : Storage × Db => slot d.1) (frameSteps_path hrun) ?_
  rintro ⟨op, s⟩ hp
  apply own_step ha (hsites _ hp)
  intro h hh hent
  exact hres _ hp h (Option.mem_toList.mpr hh) hent

theorem frame_other (ha : fr.ctx.address ≠ a) (hrun : e.runFrame (e.hooks depth) fr db = (.ok m, db₁)) :
    Replays (slot (stored a db)) (e.frameAccesses a depth fr db) (slot (stored a db₁)) := by
  refine path_replays (fun d : Storage × Db => slot (stored a d.2)) (frameSteps_path hrun) ?_
  rintro ⟨op, s⟩ hp
  exact other_step ha (hsites _ hp)

end run

/-! ### The tree below a hook -/

theorem mem_tree_self (depth : Nat) (x : Site) : ⟨depth, x⟩ ∈ e.tree (depth + 1) x :=
  List.mem_append_right _ (List.mem_singleton_self _)

theorem mem_tree_below {depth : Nat} {x : Site} {fr : SubFrame} {p : Op × Vm} {h : HookCall} {y : Node}
    (hfr : e.siteFrame x = some fr) (hp : p ∈ e.frameSteps (e.hooks depth) fr x.db)
    (hh : hookOf e.host fr.ctx p.1 p.2.machine = some h) (hy : y ∈ e.tree depth ⟨h, p.2.db⟩) : y ∈ e.tree (depth + 1) x := by
  apply List.mem_append_left
  rw [hfr]
  refine List.mem_flatMap.mpr ⟨⟨h, p.2.db⟩, List.mem_filterMap.mpr ⟨p, hp, ?_⟩, hy⟩
  rw [hh]
  rfl

theorem siteAccesses_quiet {depth : Nat} {x : Site} (hent : e.enters a depth x = false) : e.siteAccesses a depth x = [] := by
  induction depth generalizing x with
  | zero => rfl
  | succ depth ih =>
    unfold siteAccesses
    cases hfr : e.siteFrame x with
    | none => rfl
    | some fr =>
      have hnone : ∀ y ∈ e.tree (depth + 1) x, e.runsOn a y.site = false := by
        intro y hy
        have hany := List.any_eq_false.mp hent y hy
        simpa using hany
      have hne : fr.ctx.address ≠ a := by
        have hself := hnone _ (mem_tree_self depth x)
        unfold runsOn at hself
        dsimp only at hself
        rw [hfr] at hself
        simpa using hself
      refine List.flatMap_eq_nil_iff.mpr ?_
      rintro ⟨op, s⟩ hp
      unfold accessesAt
      rw [if_neg hne, List.nil_append]
      cases hh : hookOf e.host fr.ctx op s.machine with
      | none => rfl
      | some h =>
        refine ih (List.any_eq_false.mpr fun y hy => ?_)
        rw [hnone y (mem_tree_below hfr hp hh hy)]
        exact Bool.false_ne_true

theorem callFrame_some {t : Tables} {ctx : EvmContext} {args : CallArgs} {fr : SubFrame}
    (h : e.callFrame t ctx args = some fr) :
    fr.ctx.address = e.execAddr ctx args ∧ fr.storage = storageOf t (e.execAddr ctx args) ∧
      (t.getAccount (e.normalizeAddr args.target)).isSome = true := by
  unfold callFrame at h
  obtain ⟨bytecode, hcode, rfl⟩ := Option.map_eq_some_iff.mp h
  refine ⟨rfl, rfl, ?_⟩
  obtain ⟨c, hc, -⟩ := Option.bind_eq_some_iff.mp hcode
  unfold codeOf at hc
  cases hacc : t.getAccount (e.normalizeAddr args.target) with
  | some x => rfl
  | none =>
    rw [hacc] at hc
    cases hc

theorem createFrame_some {t : Tables} {ctx : EvmContext} {initCode : Bytes} {value : Nat} {salt : Option Nat} {fr : SubFrame}
    (h : e.createFrame t ctx initCode value salt = some fr) :
    fr.ctx.address = createdAt ctx initCode salt ∧ fr.storage = [] := by
  unfold createFrame at h
  by_cases hd : createDeployer ctx = ""
  · rw [if_pos hd] at h
    cases h
  · rw [if_neg hd] at h
    obtain rfl := Option.some.inj h
    exact ⟨rfl, rfl⟩

section site
variable {depth : Nat} {x : Site} {fr : SubFrame} {db₁ : Db} {m : Machine}

theorem inner_of_run (hfr : e.siteFrame x = some fr) (hrun : e.runFrame (e.hooks depth) fr x.db = (.ok m, db₁)) :
    e.inner ⟨depth, x⟩ = db₁ := by
  unfold inner
  dsimp only
  rw [hfr]
  dsimp only
  rw [hrun]

theorem calleeResult_of_run (hfr : e.siteFrame x = some fr) (hrun : e.runFrame (e.hooks depth) fr x.db = (.ok m, db₁)) :
    e.calleeResult ⟨depth, x⟩ = some (.ok m) := by
  unfold calleeResult
  dsimp only
  rw [hfr, Option.map_some, hrun]

theorem shared_none (hfr : e.siteFrame x = none) (hkept : e.kept a ⟨depth, x⟩ x.hook) : Shared e a (depth + 1) x := by
  have hacc : e.siteAccesses a (depth + 1) x = [] := by
    unfold siteAccesses
    rw [hfr]
  have hres : e.calleeResult ⟨depth, x⟩ = none := by
    unfold calleeResult
    dsimp only
    rw [hfr]
    rfl
  have hinner : e.inner ⟨depth, x⟩ = x.db := by
    unfold inner
    dsimp only
    rw [hfr]
  refine ⟨fun hfree => ?_, fun ctx args hx hadopt hstatic ha st _ => ?_, siteAccesses_quiet⟩
  · have hstored : stored a (e.outer ⟨depth, x⟩) = stored a x.db := by
      obtain ⟨hook, db⟩ := x
      cases hook with
      | selfDestruct ctx b =>
        have hne : e.normalizeAddr ctx.address ≠ a := fun h => hfree (.inr ⟨ctx, b, rfl⟩) (hkept h)
        exact stored_selfDestruct hne b db
      | call ctx args =>
        rw [e.outer_of_quiet (by unfold Node.Quiet; rw [hres]), hinner]
      | create ctx initCode value salt =>
        rw [e.outer_of_quiet (by unfold Node.Quiet; rw [hres]), hinner]
    change Replays (slot (stored a x.db)) _ (slot (stored a (e.outer ⟨depth, x⟩)))
    rw [hacc, hstored]
    exact .nil
  · obtain ⟨hook, db⟩ := x
    obtain rfl : hook = .call ctx args := hx
    have hhook : (e.hooks (depth + 1)).call ctx args db = (.ok failedCall, db) := by
      refine (contractCallHook_run (e.hooks depth) ctx args db).trans ?_
      rw [show e.callFrame db.live ctx args = none from hfr]
    rw [hacc, hhook]
    exact .nil

theorem shared_own (hfr : e.siteFrame x = some fr) (hrun : e.runFrame (e.hooks depth) fr x.db = (.ok m, db₁))
    (hreverted : m.reverted = false) (ha : fr.ctx.address = a) (hkept : e.kept a ⟨depth, x⟩ x.hook)
    (hacc : Replays (slot (stored a x.db)) (e.siteAccesses a (depth + 1) x) (slot m.storage)) : Shared e a (depth + 1) x := by
  have hres := calleeResult_of_run hfr hrun
  have hinner := inner_of_run hfr hrun
  have hruns : e.runsOn a x = true := by
    unfold runsOn
    rw [hfr, Option.any_some, ha]
    exact decide_eq_true rfl
  have hent : e.enters a (depth + 1) x = true := List.any_eq_true.mpr ⟨_, mem_tree_self depth x, hruns⟩
  refine ⟨fun hfree => ?_, fun ctx args hx hadopt hstatic hctx st hst => ?_, siteAccesses_quiet⟩
  -- what the frame hands back is what is stored when it ends
  · have hstored : slot (stored a (e.outer ⟨depth, x⟩)) = slot m.storage := by
      rw [outer_eq, hinner]
      unfold ownWrites
      rw [hres]
      obtain ⟨hook, db⟩ := x
      cases hook with
      | selfDestruct ctx b => cases hfr
      | create ctx initCode value salt =>
        have hat : createdAt ctx initCode salt = a := (createFrame_some hfr).1.symm.trans ha
        dsimp only
        unfold concludeCreate
        rw [if_neg (by rw [hreverted]; exact Bool.false_ne_true), (returns_saveAccount _ _).run,
          (show stored a _ = stored a _ from stored_moveValue a _ _ _ _), hat, stored_saved]
        rfl
      | call ctx args =>
        obtain ⟨haddr, -, hrow⟩ := callFrame_some hfr
        have hexec : e.execAddr ctx args = a := haddr.symm.trans ha
        dsimp only
        unfold concludeCall
        by_cases hs : args.static = true
        · rw [if_pos hs]
          have hsame := hkept hs hruns m.storage (by rw [hres]; exact List.mem_singleton_self _)
          rw [hinner] at hsame
          exact hsame.symm
        · have hplain : (args.delegate || args.callcode) = false := by
            by_contra hadopt
            rw [Bool.not_eq_false] at hadopt
            apply hfree (.inl hadopt)
            unfold execAddr at hexec
            rwa [if_pos hadopt] at hexec
          have htarget : e.normalizeAddr args.target = a := by
            unfold execAddr at hexec
            rwa [if_neg (by rw [hplain]; exact Bool.false_ne_true)] at hexec
          have hpresent : (db₁.live.getAccount a).isSome = true := by
            have hkeep := present_runFrame (e := e) depth fr (htarget ▸ hrow)
            rwa [hrun] at hkeep
          rw [if_neg hs, if_neg (by rw [hplain]; exact Bool.false_ne_true),
            if_neg (by rw [hreverted]; exact Bool.false_ne_true), (returns_updateAccountStorage _ _).run,
            (show stored a _ = stored a _ from stored_moveValue a _ _ _ _), htarget, stored_updated _ hpresent]
    change Replays (slot (stored a x.db)) _ (slot (stored a (e.outer ⟨depth, x⟩)))
    rw [hstored]
    exact hacc
  · obtain ⟨hook, db⟩ := x
    obtain rfl : hook = .call ctx args := hx
    rw [hook_returned hfr hrun]
    dsimp only [callOut]
    rw [if_neg (by rw [hstatic]; exact Bool.false_ne_true), Option.getD_some, hst hent]
    exact hacc

theorem shared_other (hfr : e.siteFrame x = some fr) (hrun : e.runFrame (e.hooks depth) fr x.db = (.ok m, db₁))
    (ha : fr.ctx.address ≠ a)
    (hacc : Replays (slot (stored a x.db)) (e.siteAccesses a (depth + 1) x) (slot (stored a db₁))) :
    Shared e a (depth + 1) x := by
  have hres := calleeResult_of_run hfr hrun
  have hinner := inner_of_run hfr hrun
  refine ⟨fun _ => ?_, fun ctx args hx hadopt hstatic hctx st hst => ?_, siteAccesses_quiet⟩
  · have hstored : stored a (e.outer ⟨depth, x⟩) = stored a db₁ := by
      rw [outer_eq, hinner]
      unfold ownWrites
      rw [hres]
      obtain ⟨hook, db⟩ := x
      cases hook with
      | selfDestruct ctx b => cases hfr
      | create ctx initCode value salt =>
        have hat : createdAt ctx initCode salt ≠ a := fun h => ha ((createFrame_some hfr).1.trans h)
        exact stored_concludeCreate hat m db₁
      | call ctx args =>
        have hat : e.execAddr ctx args ≠ a := fun h => ha ((callFrame_some hfr).1.trans h)
        exact stored_concludeCall hat m db₁
    change Replays (slot (stored a x.db)) _ (slot (stored a (e.outer ⟨depth, x⟩)))
    rw [hstored]
    exact hacc
  · obtain ⟨hook, db⟩ := x
    obtain rfl : hook = .call ctx args := hx
    refine absurd ?_ ha
    rw [(callFrame_some hfr).1]
    unfold execAddr
    rw [if_pos hadopt]
    exact hctx

end site

theorem run_of_unfailed {depth : Nat} {x : Site} {fr : SubFrame} (hfr : e.siteFrame x = some fr)
    (h : ¬ (Node.mk depth x).Fails e) :
    ∃ m db₁, e.runFrame (e.hooks depth) fr x.db = (.ok m, db₁) ∧ m.reverted = false := by
  unfold Node.Fails calleeResult at h
  dsimp only at h
  rw [hfr, Option.map_some] at h
  rcases hrun : e.runFrame (e.hooks depth) fr x.db with ⟨f | m, db₁⟩
  · rw [hrun] at h
    exact absurd rfl h
  · rw [hrun] at h
    exact ⟨m, db₁, rfl, by simpa [failed] using h⟩

theorem site_shared {depth : Nat} {x : Site} (hok : ∀ y ∈ e.tree depth x, ¬ y.Fails e)
    (hco : ∀ y ∈ e.tree depth x, y.Coherent e a) : Shared e a depth x := by
  induction depth generalizing x with
  | zero =>
    obtain ⟨hook, db⟩ := x
    refine ⟨fun _ => ?_, fun ctx args _ _ _ _ st _ => .nil, fun _ => rfl⟩
    cases hook <;> exact .nil
  | succ depth ih =>
    have hself := hco _ (mem_tree_self depth x)
    cases hfr : e.siteFrame x with
    | none => exact shared_none hfr hself.kept
    | some fr =>
      obtain ⟨m, db₁, hrun, hreverted⟩ := run_of_unfailed hfr (hok _ (mem_tree_self depth x))
      have hsites : ∀ p ∈ e.frameSteps (e.hooks depth) fr x.db, ∀ h, hookOf e.host fr.ctx p.1 p.2.machine = some h →
          Shared e a depth ⟨h, p.2.db⟩ := by
        intro p hp h hh
        apply ih
        · exact fun y hy => hok y (mem_tree_below hfr hp hh hy)
        · exact fun y hy => hco y (mem_tree_below hfr hp hh hy)
      have hacc : e.siteAccesses a (depth + 1) x = e.frameAccesses a depth fr x.db := by
        conv_lhs => unfold siteAccesses
        rw [hfr]
        rfl
      by_cases ha : fr.ctx.address = a
      · have hstart : SameSlots fr.storage (stored a x.db) := by
          have hkept := hself.kept
          obtain ⟨hook, db⟩ := x
          cases hook with
          | selfDestruct ctx b => cases hfr
          | call ctx args =>
            obtain ⟨haddr, hstorage, -⟩ := callFrame_some hfr
            rw [hstorage, haddr.symm.trans ha]
            rfl
          | create ctx initCode value salt =>
            obtain ⟨haddr, hstorage⟩ := createFrame_some hfr
            rw [hstorage]
            exact hkept (haddr.symm.trans ha)
        have hres := hself.resumes fr (Option.mem_toList.mpr hfr) ha
        apply shared_own hfr hrun hreverted ha hself.kept
        rw [hacc]
        exact frame_own hsites ha hstart hres hrun
      · apply shared_other hfr hrun ha
        rw [hacc]
        exact frame_other hsites ha hrun

end frame

/-! ## Entry points -/

section
variable (e : EvmAdapter) (a : String)

def Entry.accesses (db : Db) (entry : Entry) : List (Access Nat Nat) :=
  match entry.frame e db.live with
  | .error _ => []
  | .ok fr => e.frameAccesses a e.host.recursionLimit fr db

/-- No interpreter works on a stale copy of the storage of `a`. -/
structure Entry.Coherent (db : Db) (entry : Entry) : Prop where
  below : ∀ x ∈ entry.forest e db, x.Coherent e a
  top : ∀ fr ∈ (entry.frame e db.live).toOption.toList, fr.ctx.address = a →
    SameSlots fr.storage (stored a db) ∧ e.Resumes a e.host.recursionLimit fr db

instance (db : Db) (entry : Entry) : Decidable (entry.Coherent e a db) :=
  decidable_of_iff ((∀ x ∈ entry.forest e db, x.Coherent e a) ∧
    ∀ fr ∈ (entry.frame e db.live).toOption.toList, fr.ctx.address = a →
      SameSlots fr.storage (stored a db) ∧ e.Resumes a e.host.recursionLimit fr db)
    ⟨fun h => ⟨h.1, h.2⟩, fun h => ⟨h.1, h.2⟩⟩

end

variable {e : EvmAdapter} {a : String}

theorem mem_forest {depth : Nat} {fr : SubFrame} {db : Db} {p : Op × Vm} {h : HookCall} {y : Node}
    (hp : p ∈ e.frameSteps (e.hooks depth) fr db) (hh : hookOf e.host fr.ctx p.1 p.2.machine = some h)
    (hy : y ∈ e.tree depth ⟨h, p.2.db⟩) : y ∈ e.forest depth fr db := by
  refine List.mem_flatMap.mpr ⟨⟨h, p.2.db⟩, List.mem_filterMap.mpr ⟨p, hp, ?_⟩, hy⟩
  rw [hh]
  rfl

theorem Entry.frame_call {t : Tables} {caller contractAddr calldataHex : String} {value : ℚ} {gasLimit : Int} {fr : SubFrame}
    (h : Entry.frame e t (.call caller contractAddr calldataHex value gasLimit) = .ok fr) :
    fr.ctx.address = contractAddr ∧ (t.getAccount contractAddr).isSome = true := by
  unfold Entry.frame at h
  dsimp only at h
  cases hc : codeOf t contractAddr with
  | none =>
    rw [hc] at h
    cases h
  | some codeHex =>
    rw [hc] at h
    dsimp only at h
    cases hb : bytesFromHex (removeHexPrefixes codeHex) with
    | none =>
      rw [hb] at h
      cases h
    | some code =>
      rw [hb] at h
      obtain rfl := Except.ok.inj h
      refine ⟨rfl, ?_⟩
      unfold codeOf at hc
      cases hacc : t.getAccount contractAddr with
      | some x => rfl
      | none =>
        rw [hacc] at hc
        cases hc

theorem Entry.frame_deploy {t : Tables} {deployer bytecodeHex salt : String} {value : ℚ} {gasLimit : Int} {fr : SubFrame}
    (h : Entry.frame e t (.deploy deployer bytecodeHex value gasLimit salt) = .ok fr) :
    fr.ctx.address = createdAddress (deployer ++ salt) := by
  unfold Entry.frame at h
  dsimp only at h
  cases hb : bytesFromHex (removeHexPrefixes bytecodeHex) with
  | none =>
    rw [hb] at h
    cases h
  | some code =>
    rw [hb] at h
    dsimp only at h
    by_cases hc : code = []
    · rw [if_pos hc] at h
      cases h
    · rw [if_neg hc] at h
      cases hv : validateBytecodeHex bytecodeHex with
      | error detail =>
        rw [hv] at h
        cases h
      | ok u =>
        rw [hv] at h
        obtain rfl := Except.ok.inj h
        rfl

theorem Entry.stored_conclude {entry : Entry} {db db₁ : Db} {fr : SubFrame} {m : Machine}
    (hfr : entry.frame e db.live = .ok fr) (hrow : (db.live.getAccount fr.ctx.address).isSome = true →
      (db₁.live.getAccount fr.ctx.address).isSome = true) (hreverted : m.reverted = false) :
    (fr.ctx.address = a → stored a (entry.conclude e m db₁).2 = m.storage) ∧
      (fr.ctx.address ≠ a → stored a (entry.conclude e m db₁).2 = stored a db₁) := by
  cases entry with
  | call caller contractAddr calldataHex value gasLimit =>
    obtain ⟨haddr, hpresent⟩ := Entry.frame_call hfr
    rw [haddr] at hrow ⊢
    unfold Entry.conclude
    dsimp only
    rw [if_neg (by rw [hreverted]; exact Bool.false_ne_true), (returns_updateAccountStorage _ _).run,
      (returns_persistLogs _ _).run, (show stored a _ = stored a _ from stored_moveValue a _ _ _ _),
      (show stored a _ = stored a _ from stored_persistLogs a _ _ _)]
    constructor
    · rintro rfl
      exact stored_updated _ (hrow hpresent)
    · intro hne
      exact stored_updateAccountStorage hne _ _
  | deploy deployer bytecodeHex value gasLimit salt =>
    rw [Entry.frame_deploy hfr]
    unfold Entry.conclude
    dsimp only
    rw [if_neg (by rw [hreverted]; exact Bool.false_ne_true), (returns_saveAccount _ _).run,
      (returns_persistLogs _ _).run, (show stored a _ = stored a _ from stored_moveValue a _ _ _ _),
      (show stored a _ = stored a _ from stored_persistLogs a _ _ _)]
    constructor
    · rintro rfl
      exact stored_saved _ _
    · intro hne
      exact stored_saveAccount hne _ _

/-- A run in which every interpreter succeeds and none works on a stale copy of the storage of `a`: every load of
`a` returns what the last store to the slot wrote, and so does the slot in the end. -/
theorem storage_shared (a : String) (entry : Entry) (db db' : Db) (res : EvmResult) (h : entry.run e db = (.ok res, db'))
    (hs : res.success = true) (hok : ∀ x ∈ entry.forest e db, ¬ x.Fails e) (hco : entry.Coherent e a db) :
    Consistent (slot (stored a db)) (entry.accesses e a db) ∧
      ∀ key, slot (stored a db') key = after (slot (stored a db)) (entry.accesses e a db) key := by
  suffices hreplays : Replays (slot (stored a db)) (entry.accesses e a db) (slot (stored a db')) from
    ⟨hreplays.1, fun key => congrFun hreplays.2 key⟩
  rw [Entry.run_eq] at h
  obtain ⟨hbelow, htop⟩ := hco
  unfold Entry.accesses
  unfold Entry.forest at hok hbelow
  cases hfr : entry.frame e db.live with
  | error err =>
    rw [hfr] at h
    obtain ⟨hres, -⟩ := Prod.mk.inj h
    obtain rfl := Except.ok.inj hres
    cases hs
  | ok fr =>
    rw [hfr] at h hok hbelow htop
    dsimp only at h hok hbelow ⊢
    rcases hrun : Entry.ran e db fr with ⟨f | m, db₁⟩
    · rw [hrun] at h
      obtain ⟨hres, -⟩ := Prod.mk.inj h
      obtain rfl := Except.ok.inj hres
      cases hs
    · rw [hrun] at h
      obtain ⟨hres, rfl⟩ := Prod.mk.inj h
      have hreverted : m.reverted = false := by
        obtain rfl := Except.ok.inj hres
        rw [Entry.result_success] at hs
        simpa using hs
      have hsites : ∀ p ∈ e.frameSteps (e.hooks e.host.recursionLimit) fr db, ∀ h,
          hookOf e.host fr.ctx p.1 p.2.machine = some h → Shared e a e.host.recursionLimit ⟨h, p.2.db⟩ := by
        intro p hp h hh
        apply site_shared
        · exact fun y hy => hok y (mem_forest hp hh hy)
        · exact fun y hy => hbelow y (mem_forest hp hh hy)
      have hrow : (db.live.getAccount fr.ctx.address).isSome = true →
          (db₁.live.getAccount fr.ctx.address).isSome = true := by
        intro hpresent
        have hkeep := present_runFrame (e := e) e.host.recursionLimit fr hpresent
        rwa [show e.runFrame (e.hooks e.host.recursionLimit) fr db = (.ok m, db₁) from hrun] at hkeep
      obtain ⟨hown, hother⟩ := Entry.stored_conclude (a := a) hfr hrow hreverted
      by_cases ha : fr.ctx.address = a
      · obtain ⟨hstart, hres'⟩ := htop fr (List.mem_singleton_self _) ha
        rw [hown ha]
        exact frame_own hsites ha hstart hres' hrun
      · rw [hother ha]
        exact frame_other hsites ha hrun

/-- The code of a `DELEGATECALL` to the contract at `0x0b`. -/
def delegating : Bytes := [0x60, 0, 0x60, 0, 0x60, 0, 0x60, 0, 0x60, 11, 0x61, 0xff, 0xff, 0xf4]

/-- The callee stores a word on behalf of its caller, who then loads it. -/
theorem storage_shared_delegate :
    let db := contracts [("a", delegating ++ [0x60, 0, 0x54]), (eleven, storeOne)]
    Consistent (slot (stored "a" db)) (entryCall.accesses plain "a" db) ∧
      ∀ key, slot (stored "a" (entryCall.run plain db).2) key =
        after (slot (stored "a" db)) (entryCall.accesses plain "a" db) key := by
  have hany : ∀ db : Db, (entryCall.run plain db).1.toOption.map EvmResult.success = some true ∧
      (∀ x ∈ entryCall.forest plain db, ¬ x.Fails plain) ∧ entryCall.Coherent plain "a" db →
      Consistent (slot (stored "a" db)) (entryCall.accesses plain "a" db) ∧
        ∀ key, slot (stored "a" (entryCall.run plain db).2) key =
          after (slot (stored "a" db)) (entryCall.accesses plain "a" db) key := by
    rintro db ⟨hres, hok, hco⟩
    rcases hr : entryCall.run plain db with ⟨f | res, db'⟩
    · rw [hr] at hres
      cases hres
    · rw [hr] at hres
      exact storage_shared "a" entryCall db db' res hr (Option.some.inj hres) hok hco
  apply hany
  decide +kernel

/-- The caller stores a word first: the delegate starts from the stored map, and the word is lost. -/
theorem storage_not_shared :
    let db := contracts [("a", storeOne ++ delegating), (eleven, [0])]
    (entryCall.run plain db).1.toOption.map EvmResult.success = some true ∧
      (∀ x ∈ entryCall.forest plain db, ¬ x.Fails plain) ∧
      slot (stored "a" (entryCall.run plain db).2) 0 ≠ after (slot (stored "a" db)) (entryCall.accesses plain "a" db) 0 := by
  decide +kernel

end EvmAdapter

end AbsoluteChain
