import AbsoluteChain.EvmValue

/-!
# Contract creation

The address of a new contract is a hash of what its creation is given, and the account
is saved there whatever stands at the address. Which contracts exist is therefore a
matter of what the creations of a run are given, across blocks, calls and nestings.
-/

namespace AbsoluteChain

open Python Actions Act Transactions Runs KeyedTable

namespace EvmAdapter

/-! ## The contracts of a state -/

theorem storageOf_applyBalanceDelta (a b : String) (delta : ℚ) (t : Tables) :
    storageOf (t.applyBalanceDelta a delta) b = storageOf t b := by
  unfold storageOf Tables.getAccount Tables.applyBalanceDelta
  simp only [Table.get_upsert]
  by_cases h : b = a
  · rw [if_pos h, h]
    cases t.accounts.get? a <;> rfl
  · rw [if_neg h]

theorem storageOf_saveAccount (a b : String) (x : Account) (t : Tables) (h : b ≠ a) :
    storageOf (t.saveAccount a x) b = storageOf t b := by
  unfold storageOf Tables.getAccount Tables.saveAccount
  simp only [Table.get_put, if_neg h]

theorem codeOf_saveAccount_same (a : String) (x : Account) (t : Tables) (hx : x.code = some "") :
    codeOf (t.saveAccount a x) a = none := by
  unfold codeOf Tables.getAccount Tables.saveAccount
  simp only [Table.get_put, if_true, Option.bind_some, hx]

theorem accounts_payApply (payer payee : String) (value : ℚ) {t u : Tables} (h : u.accounts = t.accounts) :
    (Movement.payApply payer payee value u).accounts = (Movement.payApply payer payee value t).accounts := by
  unfold Movement.payApply
  by_cases hv : 0 < value
  · simp only [if_pos hv, Tables.applyBalanceDelta, h]
  · simp only [if_neg hv, h]

/-- The durable contracts are those the connection reads: no change of code waits for a commit. -/
def SameCodes (db : Db) : Prop := ∀ a, codeOf db.file a = codeOf db.live a

/-- Outside of `S` no account gets or loses code, and every change of code is durable. -/
def codesFrame (S : String → Prop) : Frame Db where
  rel s t := SameCodes s → SameCodes t ∧ ∀ a, ¬ S a → codeOf t.live a = codeOf s.live a
  refl _ hs := ⟨hs, fun _ _ => rfl⟩
  trans h₁ h₂ hs := by
    obtain ⟨hmid, hfirst⟩ := h₁ hs
    obtain ⟨hend, hlast⟩ := h₂ hmid
    exact ⟨hend, fun a ha => (hlast a ha).trans (hfirst a ha)⟩

section codes
variable {e : EvmAdapter} {S : String → Prop}

theorem codes_committed {f : Tables → Tables} (h : ∀ t a, ¬ S a → codeOf (f t) a = codeOf t a) :
    Keeps (codesFrame S) (committed f) :=
  keeps_write fun s _ => ⟨fun _ => rfl, fun a ha => h s.live a ha⟩

theorem codes_statement {f : Tables → Tables} (h : ∀ t a, codeOf (f t) a = codeOf t a) :
    Keeps (codesFrame S) (statement f) :=
  keeps_write fun s hs => ⟨fun a => (hs a).trans (h s.live a).symm, fun a _ => h s.live a⟩

theorem codes_updateBalance (x : String) (delta : ℚ) : Keeps (codesFrame S) (updateBalance x delta) :=
  codes_committed fun t a _ => Blockchain.codeOf_applyBalanceDelta t x a delta

theorem codes_updateAccountStorage (x : String) (s : Storage) : Keeps (codesFrame S) (updateAccountStorage x s) :=
  codes_committed fun t a _ => codeOf_updateAccountStorage x a s t

theorem codes_saveAccount {x : String} (acc : Account) (hx : S x) : Keeps (codesFrame S) (saveAccount x acc) := by
  apply codes_committed
  intro t a ha
  exact codeOf_saveAccount x a acc t fun h => ha (h ▸ hx)

theorem codes_persistLogs (x : String) (l : List EvmLog) : Keeps (codesFrame S) (e.persistLogs x l) := by
  refine keeps_bind (keeps_query _) fun tip => keeps_ite (fun _ => keeps_pure _) fun _ => ?_
  exact codes_committed fun t a _ => rfl

theorem codes_moveValue (source target : String) (value : ℚ) : Keeps (codesFrame S) (moveValue source target value) :=
  keeps_when fun _ => keeps_bind (codes_updateBalance _ _) fun _ => codes_updateBalance _ _

theorem codes_concludeCall (ctx : EvmContext) (a : CallArgs) (m : Machine) :
    Keeps (codesFrame S) (e.concludeCall ctx a m) := by
  unfold concludeCall
  refine keeps_ite (fun _ => keeps_pure _) fun _ => keeps_ite (fun _ => ?_) fun _ => keeps_ite (fun _ => keeps_pure _) fun _ => ?_
  · refine keeps_bind (codes_updateAccountStorage _ _) fun _ => ?_
    exact keeps_bind (keeps_when fun _ => codes_moveValue _ _ _) fun _ => codes_persistLogs _ _
  · exact keeps_bind (codes_updateAccountStorage _ _) fun _ => codes_moveValue _ _ _

theorem codes_concludeCreate (ctx : EvmContext) (initCode : Bytes) (value : Nat) (salt : Option Nat) (m : Machine)
    (hS : ¬ m.reverted = true → S (createdAt ctx initCode salt)) :
    Keeps (codesFrame S) (concludeCreate ctx initCode value salt m) := by
  unfold concludeCreate
  refine keeps_ite (fun _ => keeps_pure _) fun hr => ?_
  exact keeps_bind (codes_saveAccount _ (hS hr)) fun _ => codes_moveValue _ _ _

theorem codes_selfDestruct {x : String} (beneficiary : String) (hS : S (e.normalizeAddr x)) :
    Keeps (codesFrame S) (e.selfDestructContract x beneficiary) := by
  unfold selfDestructContract
  refine keeps_bind (keeps_query _) fun account => ?_
  refine keeps_bind (keeps_when fun _ => ?_) fun _ => codes_saveAccount _ hS
  exact keeps_bind (codes_updateBalance _ _) fun _ => codes_updateBalance _ _

end codes

/-! ## Creations -/

/-- A creation that succeeded: what its address is hashed from, who pays the endowment, and how much it is. -/
structure Creation where
  seed : String
  creator : String
  value : ℚ
  deriving DecidableEq

def Creation.address (k : Creation) : String := createdAddress k.seed

def createSeed (ctx : EvmContext) (initCode : Bytes) (salt : Option Nat) : String :=
  match salt with
  | some s => "create2:" ++ createDeployer ctx ++ ":" ++ strInt s ++ ":" ++ hexOfBytes initCode
  | none => createDeployer ctx ++ strInt ctx.blockNumber ++ strInt initCode.length

def Node.creation (e : EvmAdapter) (x : Node) : Option Creation :=
  match x.site.hook, e.calleeResult x with
  | .create ctx initCode value salt, some (.ok m) =>
    if m.reverted then none
    else some { seed := createSeed ctx initCode salt, creator := createDeployer ctx, value := weiToAbs value }
  | _, _ => none

def Node.destroyed (e : EvmAdapter) (x : Node) : Option String :=
  match x.site.hook with
  | .selfDestruct ctx _ => some (e.normalizeAddr ctx.address)
  | _ => none

def Entry.creation (e : EvmAdapter) (db : Db) (entry : Entry) : Option Creation :=
  match entry, entry.frame e db.live with
  | .deploy deployer _ value _ salt, .ok fr =>
    match (Entry.ran e db fr).1 with
    | .error _ => none
    | .ok m => if m.reverted then none else some { seed := deployer ++ salt, creator := deployer, value }
  | _, _ => none

/-- A step of a run as far as contracts go. -/
structure Change where
  before : Db
  after : Db
  creation : Option Creation := none
  destroyed : Option String := none

def Change.fills (ch : Change) : Option String := ch.creation.map Creation.address

def Node.change (e : EvmAdapter) (x : Node) : Change :=
  { before := e.inner x, after := e.outer x, creation := x.creation e, destroyed := x.destroyed e }

def Entry.changes (e : EvmAdapter) (db : Db) (entry : Entry) : List Change :=
  (entry.forest e db).map (Node.change e) ++
    [{ before := entry.inner e db, after := (entry.run e db).2, creation := entry.creation e db }]

def Creation.Made (k : Creation) (t u : Tables) : Prop :=
  ∃ opened : Account, opened.balance = k.value ∧
    u.accounts = ((Movement.endow k.creator k.address opened).apply t).accounts

/-- A step gives code at most where it creates, takes code at most where it destroys, and makes what it records. -/
structure Change.Lawful (ch : Change) : Prop where
  codes : (codesFrame fun a => ch.fills = some a ∨ ch.destroyed = some a).rel ch.before ch.after
  cleared : ∀ a, ch.destroyed = some a → codeOf ch.after.live a = none
  made : ∀ k, ch.creation = some k → k.Made ch.before.live ch.after.live

variable {e : EvmAdapter}

theorem lawful_silent {db db' : Db} (h : (codesFrame fun _ => False).rel db db') :
    ({ before := db, after := db' } : Change).Lawful where
  codes hs := by
    obtain ⟨hsame, hcodes⟩ := h hs
    exact ⟨hsame, fun a _ => hcodes a not_false⟩
  cleared _ ha := by cases ha
  made _ hk := by cases hk

theorem lawful_node (x : Node) : (x.change e).Lawful := by
  unfold Node.change Node.creation Node.destroyed
  rw [outer_eq]
  unfold ownWrites
  cases x.site.hook with
  | call ctx a =>
    apply lawful_silent
    rcases e.calleeResult x with _ | f | m
    · exact (codesFrame _).refl _
    · exact (codesFrame _).refl _
    · exact codes_concludeCall ctx a m (e.inner x)
  | create ctx initCode value salt =>
    rcases e.calleeResult x with _ | f | m
    · exact lawful_silent ((codesFrame _).refl _)
    · exact lawful_silent ((codesFrame _).refl _)
    · dsimp only
      by_cases hr : m.reverted = true
      · rw [if_pos hr]
        exact lawful_silent (codes_concludeCreate ctx initCode value salt m (fun h => absurd hr h) (e.inner x))
      · rw [if_neg hr]
        refine ⟨?_, fun _ ha => (by cases ha), ?_⟩
        · exact codes_concludeCreate ctx initCode value salt m (fun _ => .inl rfl) (e.inner x)
        · intro k hk
          cases hk
          refine ⟨{ balance := weiToAbs value, nonce := 0, storage := some m.storage,
                    code := some (if m.returnData = [] then hexOfBytes initCode else hexOfBytes m.returnData) }, rfl, ?_⟩
          rw [live_concludeCreate, createMovement, if_neg hr]
          rfl
  | selfDestruct ctx beneficiary =>
    refine ⟨codes_selfDestruct beneficiary (.inr rfl) (e.inner x), ?_, fun _ hk => (by cases hk)⟩
    intro a ha
    cases ha
    rw [live_selfDestruct]
    exact codeOf_saveAccount_same _ _ _ rfl

theorem lawful_entry (entry : Entry) (db : Db) :
    ({ before := entry.inner e db, after := (entry.run e db).2, creation := entry.creation e db } : Change).Lawful := by
  rw [Entry.run_eq]
  unfold Entry.inner Entry.creation
  cases entry with
  | call caller contractAddr calldataHex value gasLimit =>
    apply lawful_silent
    cases (Entry.call caller contractAddr calldataHex value gasLimit).frame e db.live with
    | error err => exact (codesFrame _).refl _
    | ok fr =>
      dsimp only
      rcases Entry.ran e db fr with ⟨f | m, db₁⟩
      · exact (codesFrame _).refl _
      · refine keeps_ite (fun _ => keeps_pure _) (fun _ => ?_) db₁
        refine keeps_bind (codes_updateAccountStorage _ _) fun _ => ?_
        exact keeps_bind (codes_persistLogs _ _) fun _ => codes_moveValue _ _ _
  | deploy deployer bytecodeHex value gasLimit salt =>
    cases (Entry.deploy deployer bytecodeHex value gasLimit salt).frame e db.live with
    | error err => exact lawful_silent ((codesFrame _).refl _)
    | ok fr =>
      dsimp only
      rcases Entry.ran e db fr with ⟨f | m, db₁⟩
      · exact lawful_silent ((codesFrame _).refl _)
      · dsimp only
        unfold Entry.conclude
        dsimp only
        by_cases hr : m.reverted = true
        · rw [if_pos hr, if_pos hr]
          exact lawful_silent ((codesFrame _).refl _)
        · rw [if_neg hr, if_neg hr]
          refine ⟨?_, fun _ ha => (by cases ha), ?_⟩
          · refine keeps_bind (codes_saveAccount _ (.inl rfl)) (fun _ => ?_) db₁
            exact keeps_bind (codes_persistLogs _ _) fun _ => codes_moveValue _ _ _
          · intro k hk
            cases hk
            refine ⟨{ balance := value, nonce := 0, code := some bytecodeHex, storage := some m.storage }, rfl, ?_⟩
            rw [(returns_saveAccount _ _).run, (returns_persistLogs _ _).run, live_moveValue]
            exact accounts_payApply _ _ _ (accounts_persistLogs _ _ _)

end EvmAdapter

/-! ## Transactions -/

namespace Blockchain

open EvmAdapter

variable (c : Blockchain) (now : Int)

def contractEntry (t : Tables) (tx : Transaction) (height : Int) : Option Entry :=
  match c.precheck t tx with
  | .error _ => none
  | .ok _ =>
    let gasLimit := if tx.gas = 0 then c.config.evmGasLimit else tx.gas
    match c.kindOf t tx with
    | .transfer => none
    | .call => some (.call tx.fromAddr tx.toAddr tx.data tx.value.toRat gasLimit)
    | .deploy => some (.deploy tx.fromAddr (strip tx.data) tx.value.toRat gasLimit
        (strInt height ++ ":" ++ strInt tx.nonce ++ ":" ++ tx.hash))

variable {c now} {S : String → Prop}

theorem codes_settle (tx : Transaction) (proposer : String) (ch : Charge) :
    Keeps (codesFrame S) (c.settle tx proposer ch) := by
  have hdelta : ∀ a d, Keeps (codesFrame S) (balanceDelta a d) := fun a d =>
    codes_statement fun t x => codeOf_applyBalanceDelta t a x d
  unfold settle
  refine keeps_bind (hdelta _ _) fun _ => keeps_bind (keeps_when fun _ => hdelta _ _) fun _ => ?_
  exact codes_statement fun t x => codeOf_incrementNonce t tx.fromAddr x

theorem codes_recordPoolOutgoing (a : String) (amount : ℚ) : Keeps (codesFrame S) (c.recordPoolOutgoing a amount) := by
  unfold recordPoolOutgoing recordOutgoing
  refine keeps_when fun _ => keeps_bind (keeps_query _) fun state => ?_
  cases state with
  | none => exact keeps_pure _
  | some s =>
    dsimp only
    split
    · exact keeps_pure _
    · exact codes_committed fun t x _ => rfl

theorem codes_applyTransaction (tx : Transaction) (height : Int) (proposer : String) (db : Db) :
    match c.contractEntry db.live tx height with
    | none => (codesFrame S).rel db (c.applyTransaction now tx height proposer db).2
    | some entry =>
      (codesFrame S).rel (entry.run (c.adapter now) db).2 (c.applyTransaction now tx height proposer db).2 := by
  have hdelta : ∀ a d, Keeps (codesFrame S) (balanceDelta a d) := fun a d =>
    codes_statement fun t x => codeOf_applyBalanceDelta t a x d
  have hcontract : ∀ kind proposer balance, (codesFrame S).rel (c.runContract now kind tx height db).2
      (c.applyContract now kind tx height proposer balance db).2 := by
    intro kind proposer balance
    refine rel_tail (fun res => keeps_ite (fun _ => keeps_raise _) fun _ => keeps_ite (fun _ => keeps_raise _) fun _ => ?_) db
    refine keeps_bind (hdelta _ _) fun _ => keeps_bind (codes_settle _ _ _) fun _ => ?_
    exact keeps_bind (codes_recordPoolOutgoing _ _) fun _ => keeps_pure _
  unfold contractEntry applyTransaction
  simp only [bind_run, query_run, id_eq, liftExcept]
  cases c.precheck db.live tx with
  | error err => exact (codesFrame S).refl db
  | ok u =>
    dsimp only
    cases c.kindOf db.live tx with
    | call => exact hcontract .call _ _
    | deploy => exact hcontract .deploy _ _
    | transfer =>
      unfold applyTransfer
      refine keeps_bind (hdelta _ _) (fun _ => keeps_bind (hdelta _ _) fun _ => ?_) db
      refine keeps_bind (codes_settle _ _ _) fun _ => keeps_bind (codes_recordPoolOutgoing _ _) fun _ => ?_
      exact keeps_pure _

end Blockchain

/-! ## Runs -/

namespace EvmAdapter

structure CodeFree where
  step : Db → Db
  codes : ∀ db, (codesFrame fun _ => False).rel db (step db)

/-- A transfer, a reward, or a block that is stored. -/
def CodeFree.statement (f : Tables → Tables) (hf : ∀ t a, codeOf (f t) a = codeOf t a) : CodeFree :=
  ⟨Store.exec f, codes_statement hf⟩

def CodeFree.opened : CodeFree := ⟨Store.opened, fun _ hs => ⟨fun _ => rfl, fun a _ => hs a⟩⟩

def CodeFree.commit : CodeFree := ⟨Store.commit, fun _ _ => ⟨fun _ => rfl, fun _ _ => rfl⟩⟩

/-- A rejected block takes no code back: what gave it has committed. -/
def CodeFree.rollback : CodeFree := ⟨Store.rollback, fun _ hs => ⟨fun _ => rfl, fun a _ => hs a⟩⟩

inductive Event where
  | transaction (c : Blockchain) (now : Int) (tx : Transaction) (height : Int) (proposer : String)
  | contract (e : EvmAdapter) (entry : Entry)
  | other (o : CodeFree)

def Event.step : Event → Db → Db
  | .transaction c now tx height proposer, db => (c.applyTransaction now tx height proposer db).2
  | .contract e entry, db => (entry.run e db).2
  | .other o, db => o.step db

def Event.changes : Event → Db → List Change
  | .transaction c now tx height proposer, db =>
    let after := (c.applyTransaction now tx height proposer db).2
    match c.contractEntry db.live tx height with
    | none => [{ before := db, after }]
    | some entry => entry.changes (c.adapter now) db ++ [{ before := (entry.run (c.adapter now) db).2, after }]
  | .contract e entry, db => entry.changes e db
  | .other o, db => [{ before := db, after := o.step db }]

def changes : List Event → Db → List Change
  | [], _ => []
  | ev :: rest, db => ev.changes db ++ changes rest (ev.step db)

theorem Entry.changes_path (e : EvmAdapter) (entry : Entry) (db : Db) :
    Path Change.before Change.after db (entry.changes e db) (entry.run e db).2 :=
  path_append (path_map (entry.forest_path db)) ⟨rfl, rfl⟩

theorem Entry.changes_lawful (e : EvmAdapter) (entry : Entry) (db : Db) : ∀ ch ∈ entry.changes e db, ch.Lawful := by
  intro ch hch
  rcases List.mem_append.mp hch with hch | hch
  · obtain ⟨x, -, rfl⟩ := List.mem_map.mp hch
    exact lawful_node x
  · rw [List.mem_singleton.mp hch]
    exact lawful_entry entry db

theorem Event.changes_path (ev : Event) (db : Db) : Path Change.before Change.after db (ev.changes db) (ev.step db) := by
  cases ev with
  | contract e entry => exact entry.changes_path e db
  | other o => exact ⟨rfl, rfl⟩
  | transaction c now tx height proposer =>
    unfold Event.changes Event.step
    dsimp only
    cases c.contractEntry db.live tx height with
    | none => exact ⟨rfl, rfl⟩
    | some entry => exact path_append (entry.changes_path (c.adapter now) db) ⟨rfl, rfl⟩

theorem Event.changes_lawful (ev : Event) (db : Db) : ∀ ch ∈ ev.changes db, ch.Lawful := by
  cases ev with
  | contract e entry => exact entry.changes_lawful e db
  | other o =>
    intro ch hch
    rw [List.mem_singleton.mp hch]
    exact lawful_silent (o.codes db)
  | transaction c now tx height proposer =>
    have hafter := @Blockchain.codes_applyTransaction c now (fun _ => False) tx height proposer db
    unfold Event.changes
    dsimp only
    intro ch hch
    cases hentry : c.contractEntry db.live tx height with
    | none =>
      rw [hentry] at hch hafter
      rw [List.mem_singleton.mp hch]
      exact lawful_silent hafter
    | some entry =>
      rw [hentry] at hch hafter
      rcases List.mem_append.mp hch with hch | hch
      · exact entry.changes_lawful (c.adapter now) db ch hch
      · rw [List.mem_singleton.mp hch]
        exact lawful_silent hafter

theorem changes_path (events : List Event) (db : Db) :
    Path Change.before Change.after db (changes events db) (run Event.step events db) := by
  induction events generalizing db with
  | nil => rfl
  | cons ev rest ih => exact path_append (ev.changes_path db) (ih (ev.step db))

theorem changes_lawful (events : List Event) (db : Db) : ∀ ch ∈ changes events db, ch.Lawful := by
  induction events generalizing db with
  | nil => exact fun _ h => absurd h List.not_mem_nil
  | cons ev rest ih =>
    intro ch hch
    rcases List.mem_append.mp hch with hch | hch
    · exact ev.changes_lawful db ch hch
    · exact ih (ev.step db) ch hch

/-! ## When nothing is overwritten -/

/-- A creation finds no code at its address, keeps the coins that were there beside the endowment, and
replaces nothing of another contract; no address is used twice. -/
structure NeverOverwrites (l : List Change) : Prop where
  fresh : ∀ ch ∈ l, ∀ k, ch.creation = some k → codeOf ch.before.live k.address = none
  keeps : ∀ ch ∈ l, ∀ k, ch.creation = some k →
    ch.before.live.getBalance k.address + k.value ≤ ch.after.live.getBalance k.address
  distinct : (l.filterMap Change.fills).Nodup
  others : ∀ ch ∈ l, ∀ k, ch.creation = some k → ∀ x, codeOf ch.before.live x ≠ none →
    codeOf ch.after.live x = codeOf ch.before.live x ∧ storageOf ch.after.live x = storageOf ch.before.live x ∧
      (x ≠ k.creator → ch.after.live.getBalance x = ch.before.live.getBalance x)

/-- The address holds nothing, or at most an endowment that somebody else pays. -/
def Creation.Room (t : Tables) (k : Creation) : Prop :=
  t.getBalance k.address ≤ if 0 < k.value ∧ k.creator ≠ k.address then k.value else 0

/-- No seed is used twice, the seeds used do not collide, each address was free at the start or has been
cleared since, and has room when the account is saved. -/
structure Separate (t : Tables) (l : List Change) : Prop where
  seeds : ((l.filterMap Change.creation).map Creation.seed).Nodup
  digests : ∀ k ∈ l.filterMap Change.creation, ∀ k' ∈ l.filterMap Change.creation,
    createdAddress k.seed = createdAddress k'.seed → k.seed = k'.seed
  vacant : ∀ before ch after, l = before ++ ch :: after → ∀ k, ch.creation = some k →
    codeOf t k.address = none ∨ ∃ d ∈ before, d.destroyed = some k.address
  room : ∀ ch ∈ l, ∀ k, ch.creation = some k → k.Room ch.before.live

theorem Creation.Made.balance {k : Creation} {t u : Tables} (h : k.Made t u) :
    t.getBalance k.address + k.value ≤ u.getBalance k.address ↔ k.Room t := by
  obtain ⟨opened, hvalue, haccounts⟩ := h
  have hafter : u.getBalance k.address = if 0 < k.value ∧ k.creator ≠ k.address then k.value + k.value else k.value := by
    rw [Tables.balance_congr haccounts]
    unfold Movement.apply Movement.payApply
    dsimp only
    rw [hvalue]
    by_cases hv : 0 < k.value
    · simp only [if_pos hv, Tables.balance_applyBalanceDelta, Tables.balance_saveAccount, if_true, hvalue]
      by_cases hself : k.creator = k.address
      · simp only [hself, ne_eq, not_true, and_false, if_false, if_true]
        rw [add_neg_cancel, max_self, zero_add, max_eq_right hv.le]
      · rw [if_neg fun h => hself h.symm, if_pos ⟨hv, hself⟩, max_eq_right (by linarith)]
    · simp only [if_neg hv, Tables.balance_saveAccount, if_true, hvalue, if_neg fun h : 0 < k.value ∧ _ => hv h.1]
  unfold Room
  rw [hafter]
  by_cases hc : 0 < k.value ∧ k.creator ≠ k.address
  · rw [if_pos hc, if_pos hc]
    constructor <;> intro h <;> linarith
  · rw [if_neg hc, if_neg hc]
    constructor <;> intro h <;> linarith

theorem Creation.Made.others {k : Creation} {t u : Tables} (h : k.Made t u) {x : String} (hx : x ≠ k.address) :
    codeOf u x = codeOf t x ∧ storageOf u x = storageOf t x ∧ (x ≠ k.creator → u.getBalance x = t.getBalance x) := by
  obtain ⟨opened, hvalue, haccounts⟩ := h
  rw [Blockchain.codeOf_congr haccounts, Tables.balance_congr haccounts]
  have hstorage : storageOf u x = storageOf ((Movement.endow k.creator k.address opened).apply t) x := by
    unfold storageOf Tables.getAccount
    rw [haccounts]
  rw [hstorage]
  unfold Movement.apply Movement.payApply
  by_cases hv : 0 < opened.balance
  · simp only [if_pos hv, Blockchain.codeOf_applyBalanceDelta, storageOf_applyBalanceDelta,
      Tables.balance_applyBalanceDelta, if_neg hx, Tables.balance_saveAccount]
    refine ⟨codeOf_saveAccount _ _ _ _ hx, storageOf_saveAccount _ _ _ _ hx, ?_⟩
    intro hcreator
    rw [if_neg hcreator]
  · simp only [if_neg hv, Tables.balance_saveAccount, if_neg hx, implies_true, and_true]
    exact ⟨codeOf_saveAccount _ _ _ _ hx, storageOf_saveAccount _ _ _ _ hx⟩

/-- A state with no transaction open. -/
def atRest (t : Tables) : Db := { file := t, pending := none }

theorem fills_eq (l : List Change) :
    l.filterMap Change.fills = ((l.filterMap Change.creation).map Creation.seed).map createdAddress := by
  rw [List.map_map, List.map_filterMap]
  rfl

/-- Each step of a run is tidy: it begins in a state whose contracts are durable. -/
theorem changes_tidy (t : Tables) (events : List Event) : ∀ ch ∈ changes events (atRest t),
    Tidy Change.before Change.after (fun db a => codeOf db.live a ≠ none) Change.fills Change.destroyed ch := by
  have hlawful := changes_lawful events (atRest t)
  obtain ⟨hsame, -⟩ := path_inv (I := SameCodes) (changes_path events (atRest t)) (fun _ => rfl)
    fun ch hch hs => ((hlawful ch hch).codes hs).1
  intro ch hch
  have hcodes := ((hlawful ch hch).codes (hsame ch hch)).2
  refine ⟨?_, ?_⟩
  · intro a hclear _ hfull
    exact hfull ((hlawful ch hch).cleared a hclear)
  · intro a hclear hfill
    rw [hcodes a (not_or.mpr ⟨hfill, hclear⟩)]

/-- Creations overwrite nothing, whatever else happens between them, exactly when what they are given is
separate. -/
theorem creations_separate (t : Tables) (events : List Event) :
    NeverOverwrites (changes events (atRest t)) ↔ Separate t (changes events (atRest t)) := by
  have hpath := changes_path events (atRest t)
  have htidy := changes_tidy t events
  have hlawful := changes_lawful events (atRest t)
  generalize changes events (atRest t) = l at hpath htidy hlawful ⊢
  have hfind : (l.filterMap Change.fills).Nodup → ∀ before ch after, l = before ++ ch :: after → ∀ k,
      ch.creation = some k → (codeOf ch.before.live k.address = none ↔
        codeOf t k.address = none ∨ ∃ d ∈ before, d.destroyed = some k.address) := by
    intro hone before ch after hl k hk
    subst hl
    have hempty := finds_empty_iff hpath (fun d hd => htidy d (List.mem_append_left _ hd)) hone
      (show ch.fills = some k.address from congrArg (Option.map Creation.address) hk)
    simp only [ne_eq, not_not] at hempty
    exact hempty
  constructor
  · intro h
    have hnodup := h.distinct
    rw [fills_eq] at hnodup
    refine ⟨hnodup.of_map, ?_, ?_, ?_⟩
    · intro k hk k' hk' haddr
      exact List.inj_on_of_nodup_map hnodup (List.mem_map_of_mem hk) (List.mem_map_of_mem hk') haddr
    · intro before ch after hl k hk
      refine (hfind h.distinct before ch after hl k hk).mp (h.fresh ch ?_ k hk)
      rw [hl]
      exact List.mem_append_right _ List.mem_cons_self
    · intro ch hch k hk
      exact ((hlawful ch hch).made k hk).balance.mp (h.keeps ch hch k hk)
  · intro h
    have hnodup : (l.filterMap Change.fills).Nodup := by
      rw [fills_eq]
      refine h.seeds.map_on ?_
      intro x hx y hy hxy
      obtain ⟨k, hk, rfl⟩ := List.mem_map.mp hx
      obtain ⟨k', hk', rfl⟩ := List.mem_map.mp hy
      exact h.digests k hk k' hk' hxy
    have hfresh : ∀ ch ∈ l, ∀ k, ch.creation = some k → codeOf ch.before.live k.address = none := by
      intro ch hch k hk
      obtain ⟨before, after, hl⟩ := List.append_of_mem hch
      exact (hfind hnodup before ch after hl k hk).mpr (h.vacant before ch after hl k hk)
    refine ⟨hfresh, ?_, hnodup, ?_⟩
    · intro ch hch k hk
      exact ((hlawful ch hch).made k hk).balance.mpr (h.room ch hch k hk)
    · intro ch hch k hk x hx
      apply ((hlawful ch hch).made k hk).others
      rintro rfl
      exact hx (hfresh ch hch k hk)

def createTwice : Bytes := [0x60, 0, 0x60, 0, 0x60, 1, 0xf0, 0x60, 0, 0x60, 0, 0x60, 1, 0xf0, 0]

/-- Both contracts are saved at the same address: creator, block and length are the same. -/
theorem creation_overwrites :
    ¬ NeverOverwrites (changes [.contract plain entryCall] (atRest (contracts [("a", createTwice)]).file)) := by
  have htwice : (changes [.contract plain entryCall] (atRest (contracts [("a", createTwice)]).file)).filterMap
      Change.creation = [⟨"a01", "a", 0⟩, ⟨"a01", "a", 0⟩] := by
    decide +kernel
  intro h
  have hdistinct := h.distinct
  rw [fills_eq, htwice] at hdistinct
  exact (List.nodup_cons.mp hdistinct).1 List.mem_cons_self

end EvmAdapter

end AbsoluteChain
