import AbsoluteChain.Chain
import AbsoluteChain.Runs
import AbsoluteChain.Table

/-!
# Multi-signature wallets

The wallet of `features/multisig.py`. Calls of `confirm` may overlap: each takes one step
for each access to the shared records, and the executor runs between two steps of the
call that started it. A transaction is an object that its record and the running calls
refer to by its place on a heap.
-/

namespace AbsoluteChain

open Python KeyedTable Runs

inductive MultisigStatus where
  | pending
  | approved
  | executed
  | executionFailed
  deriving DecidableEq

/-- What the executor returns: a dict, with or without the key `success`, or something else. -/
inductive Execution where
  | dict (success : Option Bool)
  | other
  deriving DecidableEq

def Execution.succeeded : Execution → Bool
  | .dict success => success ≠ some false
  | .other => false

structure MultisigTransaction where
  txId : String
  toAddr : String
  amount : Python.Num
  createdAt : Int
  status : MultisigStatus
  executed : Bool
  executionResult : Option Execution
  required : Nat
  confirmations : List String
  deriving DecidableEq

def addUnique (unique : List String) (owner : String) : List String :=
  if owner ≠ "" ∧ owner ∉ unique then unique ++ [owner] else unique

def uniqueOwners (owners : List String) : List String := owners.foldl addUnique []

theorem nodup_concat {l : List String} {a : String} (h : l.Nodup) (ha : a ∉ l) : (l ++ [a]).Nodup := by
  rw [← List.concat_eq_append]
  exact h.concat ha

theorem uniqueOwners_nodup (owners : List String) : (uniqueOwners owners).Nodup := by
  unfold uniqueOwners
  suffices h : ∀ unique : List String, unique.Nodup → (owners.foldl addUnique unique).Nodup from h [] List.nodup_nil
  induction owners with
  | nil => exact fun _ h => h
  | cons owner rest ih =>
    intro unique h
    apply ih
    unfold addUnique
    split
    · rename_i hnew
      exact nodup_concat h hnew.2
    · exact h

/-- The executor answers the call that a call of `confirm`, named by its number, makes to it; `none` is an
exception. -/
structure MultiSigWallet where
  owners : List String
  required : Nat
  transactionExecutor : Option (Nat → Option Execution)
  walletId : String
  owners_nodup : owners.Nodup
  required_pos : 0 < required
  required_le : required ≤ owners.length

def MultiSigWallet.new (owners : List String) (required : Int) (transactionExecutor : Option (Nat → Option Execution))
    (timeNs : Int) : Except String MultiSigWallet :=
  let unique := uniqueOwners owners
  if unique = [] then .error "at least one owner required"
  else if h : required ≤ 0 ∨ (unique.length : Int) < required then
    .error "required confirmations must be between 1 and owner count"
  else
    .ok
      { owners := unique
        required := required.toNat
        transactionExecutor
        walletId := String.ofList ((sha256Hex (encode (String.intercalate "|" unique ++ ":" ++ strInt required ++ ":" ++
          strInt timeNs))).toList.take 16)
        owners_nodup := uniqueOwners_nodup owners
        required_pos := by omega
        required_le := by omega }

inductive ConfirmResponse where
  | error (text : String)
  | confirmed (txId : String) (confirmations required : Nat) (executed : Bool) (status : MultisigStatus) (duplicate : Bool)
  deriving DecidableEq

/-- Where a call of `confirm` is, with what it holds in its variables. -/
inductive Stage where
  | entered
  | found (tx : Nat)
  | unexecuted (tx : Nat)
  | counted (tx before : Nat)
  | added (tx before : Nat)
  | listed (tx before : Nat) (confirmations : List String)
  | written (tx before : Nat) (confirmations : List String)
  | executing (tx before confirmations : Nat)
  | returned (tx before confirmations : Nat) (execution : Execution)
  | marked (tx before confirmations : Nat) (execution : Execution)
  | statusSet (tx before confirmations : Nat) (execution : Execution)
  | settled (tx before confirmations : Nat)
  | done (response : ConfirmResponse)
  | raised
  deriving DecidableEq

namespace Stage

def tx? : Stage → Option Nat
  | .found tx | .unexecuted tx | .counted tx _ | .added tx _ | .listed tx _ _ | .written tx _ _ | .executing tx _ _ |
    .returned tx _ _ _ | .marked tx _ _ _ | .statusSet tx _ _ _ | .settled tx _ _ => some tx
  | .entered | .done _ | .raised => none

def listing? : Stage → Option (List String)
  | .listed _ _ confirmations | .written _ _ confirmations => some confirmations
  | _ => none

def inExecutor : Stage → Bool
  | .executing _ _ _ | .returned _ _ _ _ => true
  | _ => false

end Stage

structure ConfirmCall where
  txId : String
  owner : String
  stage : Stage
  deriving DecidableEq

structure WalletState where
  heap : List MultisigTransaction
  transactions : Table String Nat
  confirmations : Table String (List String)
  calls : List ConfirmCall
  additions : List (String × String)
  executorCalls : List (Nat × MultisigTransaction)

inductive WalletEvent where
  | createTransaction (toAddr : String) (amount : Python.Num) (now timeNs : Int)
  | confirm (txId owner : String)
  | advance (call : Nat)

namespace WalletState

def empty : WalletState :=
  { heap := [], transactions := .empty, confirmations := .empty, calls := [], additions := [], executorCalls := [] }

def setStage (call : Nat) (stage : Stage) (s : WalletState) : WalletState :=
  { s with calls := s.calls.modify call fun c => { c with stage } }

def modifyTx (tx : Nat) (f : MultisigTransaction → MultisigTransaction) (s : WalletState) : WalletState :=
  { s with heap := s.heap.modify tx f }

/-- The object behind a reference is always there. -/
def readTx (tx : Nat) (k : MultisigTransaction → WalletState) (s : WalletState) : WalletState :=
  match s.heap[tx]? with
  | some t => k t
  | none => s

def readConfirmations (c : ConfirmCall) (call : Nat) (k : List String → WalletState) (s : WalletState) : WalletState :=
  match s.confirmations.get? c.txId with
  | some owners => k owners
  | none => s.setStage call .raised

end WalletState

namespace MultiSigWallet

variable (host : Host) (w : MultiSigWallet)

def createTransaction (toAddr : String) (amount : Python.Num) (now timeNs : Int) (s : WalletState) :
    Except String MultisigTransaction × WalletState :=
  if toAddr = "" then (.error "recipient required", s)
  else if amount.toRat ≤ 0 then (.error "amount must be > 0", s)
  else
    let txId := "tx_" ++ String.ofList ((sha256Hex (encode (w.walletId ++ ":" ++ toAddr ++ ":" ++ host.strNum amount ++ ":" ++
      strInt s.transactions.rows.length ++ ":" ++ strInt timeNs))).toList.take 24)
    let tx : MultisigTransaction :=
      { txId, toAddr, amount, createdAt := now, status := .pending, executed := false, executionResult := none,
        required := w.required, confirmations := [] }
    (.ok tx,
      { s with
        heap := s.heap ++ [tx]
        transactions := s.transactions.put txId s.heap.length
        confirmations := s.confirmations.put txId [] })

def outcome (call : Nat) : Option Execution := w.transactionExecutor.bind fun execute => execute call

def advanceCall (call : Nat) (c : ConfirmCall) (s : WalletState) : WalletState :=
  match c.stage with
  | .entered =>
    if c.owner ∉ w.owners then s.setStage call (.done (.error "owner not authorized"))
    else
      match s.transactions.get? c.txId with
      | none => s.setStage call (.done (.error "transaction not found"))
      | some tx => s.setStage call (.found tx)
  | .found tx => s.readTx tx fun t =>
    if t.executed then s.setStage call (.done (.error "transaction already executed")) else s.setStage call (.unexecuted tx)
  | .unexecuted tx => s.readConfirmations c call fun owners => s.setStage call (.counted tx owners.length)
  | .counted tx before => s.readConfirmations c call fun owners =>
    let owners := if c.owner ∈ owners then owners else owners ++ [c.owner]
    { s.setStage call (.added tx before) with
      confirmations := s.confirmations.put c.txId owners
      additions := s.additions ++ [(c.txId, c.owner)] }
  | .added tx before => s.readConfirmations c call fun owners => s.setStage call (.listed tx before (sortedBy id owners))
  | .listed tx before confirmations =>
    (s.modifyTx tx fun t => { t with confirmations }).setStage call (.written tx before confirmations)
  | .written tx before confirmations =>
    if w.required ≤ confirmations.length then
      match w.transactionExecutor with
      | some _ => s.readTx tx fun t =>
        { s.setStage call (.executing tx before confirmations.length) with executorCalls := s.executorCalls ++ [(call, t)] }
      | none =>
        (s.modifyTx tx fun t => { t with status := .approved }).setStage call (.settled tx before confirmations.length)
    else s.setStage call (.settled tx before confirmations.length)
  | .executing tx before n =>
    match w.outcome call with
    | none => s.setStage call .raised
    | some execution => s.setStage call (.returned tx before n execution)
  | .returned tx before n execution =>
    if execution.succeeded then
      (s.modifyTx tx fun t => { t with executed := true }).setStage call (.marked tx before n execution)
    else
      (s.modifyTx tx fun t => { t with status := .executionFailed }).setStage call (.statusSet tx before n execution)
  | .marked tx before n execution =>
    (s.modifyTx tx fun t => { t with status := .executed }).setStage call (.statusSet tx before n execution)
  | .statusSet tx before n execution =>
    (s.modifyTx tx fun t => { t with executionResult := some execution }).setStage call (.settled tx before n)
  | .settled tx before n => s.readTx tx fun t =>
    s.setStage call (.done (.confirmed c.txId n w.required t.executed t.status (n = before)))
  | .done _ => s
  | .raised => s

def step : WalletEvent → WalletState → WalletState
  | .createTransaction toAddr amount now timeNs, s => (w.createTransaction host toAddr amount now timeNs s).2
  | .confirm txId owner, s => { s with calls := s.calls ++ [{ txId, owner, stage := .entered }] }
  | .advance call, s =>
    match s.calls[call]? with
    | some c => w.advanceCall call c s
    | none => s

/-! ## The property and the condition -/

def Executes (e : WalletEvent) (s : WalletState) (call : Nat) (t : MultisigTransaction) : Prop :=
  (w.step host e s).executorCalls = s.executorCalls ++ [(call, t)]

def Quorum (txId : String) (s : WalletState) : Prop :=
  ∃ owners : List String, owners.Nodup ∧ w.required ≤ owners.length ∧
    ∀ o ∈ owners, o ∈ w.owners ∧ (txId, o) ∈ s.additions

def Succeeds (call : Nat) : Prop := ∃ execution, w.outcome call = some execution ∧ execution.succeeded = true

def ExecutesOnce (e : WalletEvent) (s : WalletState) : Prop :=
  ∀ call t, w.Executes host e s call t → w.Quorum t.txId s ∧
    ∀ call' t', (call', t') ∈ s.executorCalls → t'.txId = t.txId → ¬ w.Succeeds call'

def Exclusive (e : WalletEvent) (s : WalletState) : Prop :=
  ∀ call t, w.Executes host e s call t → (∀ t' ∈ s.heap, t'.txId = t.txId → t'.executed = false) ∧
    ∀ call' c, s.calls[call']? = some c → c.txId = t.txId → c.stage.inExecutor = true → ¬ w.Succeeds call'

end MultiSigWallet

/-! ## What grows -/

namespace WalletState

/-- A reference to an object with this id. -/
def RefersTo (s : WalletState) (tx : Nat) (txId : String) : Prop := ∃ t, s.heap[tx]? = some t ∧ t.txId = txId

def IsExecuted (s : WalletState) (txId : String) : Prop := ∃ t ∈ s.heap, t.txId = txId ∧ t.executed = true

/-- Objects keep their ids and stay executed, and nothing is taken back from the two lists. -/
structure Grows (s s' : WalletState) : Prop where
  refers : ∀ tx txId, s.RefersTo tx txId → s'.RefersTo tx txId
  executed : ∀ txId, s.IsExecuted txId → s'.IsExecuted txId
  additions : s.additions ⊆ s'.additions
  executorCalls : s.executorCalls ⊆ s'.executorCalls

variable {s : WalletState}

theorem refers_modify {tx tx' : Nat} {txId : String} {f : MultisigTransaction → MultisigTransaction}
    (hf : ∀ t, (f t).txId = t.txId) (h : s.RefersTo tx txId) : (s.modifyTx tx' f).RefersTo tx txId := by
  obtain ⟨t, ht, hid⟩ := h
  refine ⟨if tx' = tx then f t else t, ?_, ?_⟩
  · show (s.heap.modify tx' f)[tx]? = _
    rw [List.getElem?_modify, ht]
    rfl
  · split
    · exact (hf t).trans hid
    · exact hid

theorem mem_modify {tx : Nat} {f : MultisigTransaction → MultisigTransaction} {t : MultisigTransaction}
    (h : t ∈ (s.modifyTx tx f).heap) : t ∈ s.heap ∨ ∃ t₀, s.heap[tx]? = some t₀ ∧ t = f t₀ := by
  obtain ⟨j, hj⟩ := List.mem_iff_getElem?.mp h
  change (s.heap.modify tx f)[j]? = some t at hj
  rw [List.getElem?_modify] at hj
  obtain ⟨t₀, ht₀, ht⟩ := Option.map_eq_some_iff.mp hj
  by_cases htx : tx = j
  · rw [if_pos htx] at ht
    rw [← htx] at ht₀
    exact .inr ⟨t₀, ht₀, ht.symm⟩
  · rw [if_neg htx] at ht
    exact .inl (List.mem_iff_getElem?.mpr ⟨j, ht ▸ ht₀⟩)

theorem executed_modify {tx : Nat} {txId : String} {f : MultisigTransaction → MultisigTransaction}
    (hf : ∀ t, (f t).txId = t.txId ∧ (t.executed = true → (f t).executed = true)) (h : s.IsExecuted txId) :
    (s.modifyTx tx f).IsExecuted txId := by
  obtain ⟨t, hmem, hid, hexec⟩ := h
  obtain ⟨j, hj⟩ := List.mem_iff_getElem?.mp hmem
  have hget : (s.heap.modify tx f)[j]? = some (if tx = j then f t else t) := by
    rw [List.getElem?_modify, hj]
    rfl
  refine ⟨_, List.mem_iff_getElem?.mpr ⟨j, hget⟩, ?_⟩
  split
  · exact ⟨(hf t).1.trans hid, (hf t).2 hexec⟩
  · exact ⟨hid, hexec⟩

theorem grows_modify (tx : Nat) {f : MultisigTransaction → MultisigTransaction}
    (hf : ∀ t, (f t).txId = t.txId ∧ (t.executed = true → (f t).executed = true)) : s.Grows (s.modifyTx tx f) where
  refers _ _ h := refers_modify (fun t => (hf t).1) h
  executed _ h := executed_modify hf h
  additions := List.Subset.refl _
  executorCalls := List.Subset.refl _

theorem grows_setStage (call : Nat) (stage : Stage) : s.Grows (s.setStage call stage) where
  refers _ _ h := h
  executed _ h := h
  additions := List.Subset.refl _
  executorCalls := List.Subset.refl _

theorem getElem_setStage {call : Nat} (stage : Stage) {c : ConfirmCall} (h : s.calls[call]? = some c) (call' : Nat) :
    (s.setStage call stage).calls[call']? = if call' = call then some { c with stage } else s.calls[call']? := by
  show (s.calls.modify call fun c => { c with stage })[call']? = _
  rw [List.getElem?_modify]
  by_cases hcall : call' = call
  · rw [if_pos hcall, hcall, h]
    simp
  · rw [if_neg hcall]
    simp [Ne.symm hcall]

end WalletState

/-! ## The invariant -/

namespace MultiSigWallet

open WalletState

structure CallOk (w : MultiSigWallet) (s : WalletState) (call : Nat) (c : ConfirmCall) : Prop where
  refers : ∀ tx, c.stage.tx? = some tx → c.owner ∈ w.owners ∧ s.RefersTo tx c.txId
  listing : ∀ l, c.stage.listing? = some l → l.Nodup ∧ ∀ o ∈ l, (c.txId, o) ∈ s.additions
  calling : c.stage.inExecutor = true → ∃ t, (call, t) ∈ s.executorCalls ∧ t.txId = c.txId
  answer : ∀ tx before n execution, c.stage = .returned tx before n execution → w.outcome call = some execution

theorem CallOk.mono {w : MultiSigWallet} {s s' : WalletState} {call : Nat} {c : ConfirmCall} (h : w.CallOk s call c)
    (hg : s.Grows s') : w.CallOk s' call c where
  refers tx htx := ⟨(h.refers tx htx).1, hg.refers _ _ (h.refers tx htx).2⟩
  listing l hl := ⟨(h.listing l hl).1, fun o ho => hg.additions ((h.listing l hl).2 o ho)⟩
  calling hin :=
    have ⟨t, ht, hid⟩ := h.calling hin
    ⟨t, hg.executorCalls ht, hid⟩
  answer := h.answer

/-- An object is marked when a call to the executor for it succeeded, and a call that succeeds is either going on
or has had its object marked. -/
structure Inv (w : MultiSigWallet) (s : WalletState) : Prop where
  calls : ∀ call c, s.calls[call]? = some c → w.CallOk s call c
  transactions : ∀ txId tx, s.transactions.get? txId = some tx → s.RefersTo tx txId
  confirmations : ∀ txId l, s.confirmations.get? txId = some l → l.Nodup ∧ ∀ o ∈ l, (txId, o) ∈ s.additions
  owners : ∀ txId o, (txId, o) ∈ s.additions → o ∈ w.owners
  started : ∀ call t, (call, t) ∈ s.executorCalls → w.Succeeds call →
    (∃ c, s.calls[call]? = some c ∧ c.txId = t.txId ∧ c.stage.inExecutor = true) ∨ s.IsExecuted t.txId
  executed : ∀ txId, s.IsExecuted txId → ∃ call t, (call, t) ∈ s.executorCalls ∧ t.txId = txId ∧ w.Succeeds call

variable {w : MultiSigWallet} {s : WalletState} {call : Nat} {c : ConfirmCall}

theorem inv_empty (w : MultiSigWallet) : w.Inv .empty where
  calls _ _ h := nomatch h
  transactions _ _ h := nomatch h
  confirmations _ _ h := nomatch h
  owners _ _ h := nomatch h
  started _ _ h := nomatch h
  executed _ h := nomatch h

theorem inv_setStage (h : w.Inv s) (hc : s.calls[call]? = some c) (stage : Stage)
    (hok : w.CallOk s call { c with stage })
    (hin : c.stage.inExecutor = true → w.Succeeds call → stage.inExecutor = true ∨ s.IsExecuted c.txId) :
    w.Inv (s.setStage call stage) where
  calls call' c' hc' := by
    rw [getElem_setStage stage hc] at hc'
    split at hc'
    · rename_i hcall
      obtain rfl := Option.some.inj hc'
      rw [hcall]
      exact hok.mono (grows_setStage _ _)
    · exact (h.calls _ _ hc').mono (grows_setStage _ _)
  transactions := h.transactions
  confirmations := h.confirmations
  owners := h.owners
  started call' t ht hsucc := by
    rcases h.started call' t ht hsucc with ⟨c', hc', hid, hflight⟩ | hexec
    · by_cases hcall : call' = call
      · rw [hcall] at hc' hsucc ⊢
        obtain rfl := Option.some.inj (hc.symm.trans hc')
        rcases hin hflight hsucc with hflight' | hexec
        · refine .inl ⟨{ c with stage }, ?_, hid, hflight'⟩
          rw [getElem_setStage stage hc, if_pos rfl]
        · exact .inr (hid ▸ hexec)
      · refine .inl ⟨c', ?_, hid, hflight⟩
        rw [getElem_setStage stage hc, if_neg hcall]
        exact hc'
    · exact .inr hexec
  executed := h.executed

theorem inv_rewrite (h : w.Inv s) (tx : Nat) {f : MultisigTransaction → MultisigTransaction} (hid : ∀ t, (f t).txId = t.txId)
    (hkeeps : ∀ t, t.executed = true → (f t).executed = true)
    (hmarks : ∀ t, s.heap[tx]? = some t → (f t).executed = true → t.executed = true ∨
      ∃ call t', (call, t') ∈ s.executorCalls ∧ t'.txId = t.txId ∧ w.Succeeds call) : w.Inv (s.modifyTx tx f) :=
  have hg : s.Grows (s.modifyTx tx f) := grows_modify tx fun t => ⟨hid t, hkeeps t⟩
  { calls := fun call c hc => (h.calls call c hc).mono hg
    transactions := fun txId tx htx => hg.refers _ _ (h.transactions txId tx htx)
    confirmations := h.confirmations
    owners := h.owners
    started := fun call t ht hsucc => (h.started call t ht hsucc).imp id (hg.executed _)
    executed := by
      rintro txId ⟨t, hmem, ht, hexec⟩
      rcases mem_modify hmem with hold | ⟨t₀, ht₀, rfl⟩
      · exact h.executed txId ⟨t, hold, ht, hexec⟩
      · rw [hid] at ht
        rcases hmarks t₀ ht₀ hexec with hbefore | hstarted
        · exact h.executed txId ⟨t₀, List.mem_iff_getElem?.mpr ⟨tx, ht₀⟩, ht, hbefore⟩
        · exact ht ▸ hstarted }

/-- A field that is neither the id nor the mark is written. -/
theorem inv_modify (h : w.Inv s) (tx : Nat) {f : MultisigTransaction → MultisigTransaction}
    (hf : ∀ t, (f t).txId = t.txId ∧ (f t).executed = t.executed) : w.Inv (s.modifyTx tx f) :=
  inv_rewrite h tx (fun t => (hf t).1) (fun t ht => (hf t).2.trans ht) fun t _ hexec => .inl ((hf t).2.symm.trans hexec)

theorem inv_mark (h : w.Inv s) {tx : Nat} {txId : String} (hrefers : s.RefersTo tx txId)
    (hstarted : ∃ call t, (call, t) ∈ s.executorCalls ∧ t.txId = txId ∧ w.Succeeds call) :
    w.Inv (s.modifyTx tx fun t => { t with executed := true }) ∧
      (s.modifyTx tx fun t => { t with executed := true }).IsExecuted txId := by
  obtain ⟨t₀, ht₀, hid₀⟩ := hrefers
  constructor
  · refine inv_rewrite h tx (fun _ => rfl) (fun _ _ => rfl) fun t ht _ => .inr ?_
    obtain rfl := Option.some.inj (ht₀.symm.trans ht)
    exact hid₀ ▸ hstarted
  · refine ⟨{ t₀ with executed := true }, List.mem_iff_getElem?.mpr ⟨tx, ?_⟩, hid₀, rfl⟩
    show (s.heap.modify tx fun t => { t with executed := true })[tx]? = _
    rw [List.getElem?_modify, ht₀]
    simp

theorem inv_add (h : w.Inv s) {txId owner : String} {l : List String} (hget : s.confirmations.get? txId = some l)
    (howner : owner ∈ w.owners) :
    w.Inv { s with
      confirmations := s.confirmations.put txId (if owner ∈ l then l else l ++ [owner])
      additions := s.additions ++ [(txId, owner)] } := by
  have hsub : s.additions ⊆ s.additions ++ [(txId, owner)] := List.subset_append_left _ _
  obtain ⟨hnodup, hall⟩ := h.confirmations txId l hget
  refine
    { calls := fun call c hc => (h.calls call c hc).mono ⟨fun _ _ h => h, fun _ h => h, hsub, List.Subset.refl _⟩
      transactions := h.transactions
      confirmations := ?_
      owners := ?_
      started := h.started
      executed := h.executed }
  · intro txId' l' hget'
    change (s.confirmations.put txId _).get? txId' = some l' at hget'
    rw [Table.get_put] at hget'
    by_cases hid : txId' = txId
    · rw [if_pos hid] at hget'
      obtain rfl := Option.some.inj hget'
      rw [hid]
      split
      · exact ⟨hnodup, fun o ho => hsub (hall o ho)⟩
      · rename_i hnew
        refine ⟨nodup_concat hnodup hnew, fun o ho => ?_⟩
        rcases List.mem_append.mp ho with ho | ho
        · exact hsub (hall o ho)
        · rw [List.mem_singleton.mp ho]
          exact List.mem_append_right _ (List.mem_singleton_self _)
    · rw [if_neg hid] at hget'
      obtain ⟨hnodup', hall'⟩ := h.confirmations txId' l' hget'
      exact ⟨hnodup', fun o ho => hsub (hall' o ho)⟩
  · intro txId' o ho
    rcases List.mem_append.mp ho with ho | ho
    · exact h.owners txId' o ho
    · cases List.mem_singleton.mp ho
      exact howner

theorem inv_start (h : w.Inv s) (hc : s.calls[call]? = some c) {tx before n : Nat} {t : MultisigTransaction}
    (hstage : c.stage.inExecutor = false) (howner : c.owner ∈ w.owners) (ht : s.heap[tx]? = some t) (hid : t.txId = c.txId) :
    w.Inv { s.setStage call (.executing tx before n) with executorCalls := s.executorCalls ++ [(call, t)] } := by
  have hsub : s.executorCalls ⊆ s.executorCalls ++ [(call, t)] := List.subset_append_left _ _
  have hlast : (call, t) ∈ s.executorCalls ++ [(call, t)] := List.mem_append_right _ (List.mem_singleton_self _)
  have hget := getElem_setStage (s := s) (.executing tx before n) hc
  refine
    { calls := ?_
      transactions := h.transactions
      confirmations := h.confirmations
      owners := h.owners
      started := ?_
      executed := ?_ }
  · intro call' c' hc'
    change (s.setStage call (.executing tx before n)).calls[call']? = some c' at hc'
    rw [hget] at hc'
    split at hc'
    · rename_i hcall
      obtain rfl := Option.some.inj hc'
      rw [hcall]
      exact
        { refers := fun tx' htx' => ⟨howner, t, Option.some.inj htx' ▸ ht, hid⟩
          listing := fun _ hl => nomatch hl
          calling := fun _ => ⟨t, hlast, hid⟩
          answer := fun _ _ _ _ hret => nomatch hret }
    · exact (h.calls _ _ hc').mono ⟨fun _ _ h => h, fun _ h => h, List.Subset.refl _, hsub⟩
  · intro call' t' ht' hsucc
    show (∃ c', (s.setStage call (.executing tx before n)).calls[call']? = some c' ∧ _) ∨ _
    rw [hget]
    by_cases hcall : call' = call
    · rw [if_pos hcall]
      rcases List.mem_append.mp ht' with hold | hnew
      · rcases h.started call' t' hold hsucc with ⟨c', hc', -, hflight⟩ | hexec
        · rw [hcall] at hc'
          obtain rfl := Option.some.inj (hc.symm.trans hc')
          rw [hstage] at hflight
          cases hflight
        · exact .inr hexec
      · cases List.mem_singleton.mp hnew
        exact .inl ⟨_, rfl, hid.symm, rfl⟩
    · rw [if_neg hcall]
      rcases List.mem_append.mp ht' with hold | hnew
      · exact h.started call' t' hold hsucc
      · exact absurd (congrArg Prod.fst (List.mem_singleton.mp hnew)) hcall
  · intro txId hexec
    obtain ⟨call', t', ht', hid', hsucc⟩ := h.executed txId hexec
    exact ⟨call', t', hsub ht', hid', hsucc⟩

theorem getElem_append {α : Type} {l : List α} {i : Nat} {a : α} (h : l[i]? = some a) (m : List α) :
    (l ++ m)[i]? = some a := by
  obtain ⟨hlt, -⟩ := List.getElem?_eq_some_iff.mp h
  rw [List.getElem?_append_left hlt]
  exact h

theorem inv_call (h : w.Inv s) (txId owner : String) :
    w.Inv { s with calls := s.calls ++ [{ txId, owner, stage := .entered }] } := by
  refine
    { calls := ?_
      transactions := h.transactions
      confirmations := h.confirmations
      owners := h.owners
      started := ?_
      executed := h.executed }
  · intro call c hc
    have hg : s.Grows { s with calls := s.calls ++ [{ txId, owner, stage := .entered }] } :=
      ⟨fun _ _ h => h, fun _ h => h, List.Subset.refl _, List.Subset.refl _⟩
    change (s.calls ++ [_])[call]? = some c at hc
    rw [List.getElem?_append] at hc
    split at hc
    · exact (h.calls call c hc).mono hg
    · obtain rfl := List.mem_singleton.mp (List.mem_of_getElem? hc)
      exact
        { refers := fun _ h => nomatch h
          listing := fun _ h => nomatch h
          calling := fun h => nomatch h
          answer := fun _ _ _ _ h => nomatch h }
  · intro call t ht hsucc
    refine (h.started call t ht hsucc).imp_left ?_
    rintro ⟨c, hc, hid, hflight⟩
    exact ⟨c, getElem_append hc _, hid, hflight⟩

theorem inv_create (h : w.Inv s) {t : MultisigTransaction} (ht : t.executed = false) :
    w.Inv { s with
      heap := s.heap ++ [t]
      transactions := s.transactions.put t.txId s.heap.length
      confirmations := s.confirmations.put t.txId [] } := by
  have hrefers : ∀ tx txId, s.RefersTo tx txId → ∃ t', (s.heap ++ [t])[tx]? = some t' ∧ t'.txId = txId := by
    rintro tx txId ⟨t', ht', hid⟩
    exact ⟨t', getElem_append ht' _, hid⟩
  have hexec : ∀ txId, s.IsExecuted txId → ∃ t' ∈ s.heap ++ [t], t'.txId = txId ∧ t'.executed = true := by
    rintro txId ⟨t', hmem, hid⟩
    exact ⟨t', List.mem_append_left _ hmem, hid⟩
  refine
    { calls := fun call c hc => (h.calls call c hc).mono ⟨hrefers, hexec, List.Subset.refl _, List.Subset.refl _⟩
      transactions := ?_
      confirmations := ?_
      owners := h.owners
      started := fun call t' ht' hsucc => (h.started call t' ht' hsucc).imp id (hexec _)
      executed := ?_ }
  · intro txId tx hget
    change (s.transactions.put t.txId s.heap.length).get? txId = some tx at hget
    rw [Table.get_put] at hget
    split at hget
    · rename_i hid
      obtain rfl := Option.some.inj hget
      exact ⟨t, List.getElem?_concat_length, hid.symm⟩
    · exact hrefers _ _ (h.transactions txId tx hget)
  · intro txId l hget
    change (s.confirmations.put t.txId []).get? txId = some l at hget
    rw [Table.get_put] at hget
    split at hget
    · obtain rfl := Option.some.inj hget
      exact ⟨List.nodup_nil, fun o ho => absurd ho List.not_mem_nil⟩
    · exact h.confirmations txId l hget
  · rintro txId ⟨t', hmem, hid, hexec'⟩
    rcases List.mem_append.mp hmem with hmem | hmem
    · exact h.executed txId ⟨t', hmem, hid, hexec'⟩
    · rw [List.mem_singleton.mp hmem, ht] at hexec'
      cases hexec'

theorem callOk_plain (stage : Stage) (hrefers : ∀ tx, stage.tx? = some tx → c.owner ∈ w.owners ∧ s.RefersTo tx c.txId)
    (hlisting : stage.listing? = none) (hout : stage.inExecutor = false) : w.CallOk s call { c with stage } where
  refers := hrefers
  listing l hl := nomatch hlisting.symm.trans hl
  calling hin := nomatch hout.symm.trans hin
  answer := by
    rintro tx before n execution rfl
    cases hout

theorem readConfirmations_cases (c : ConfirmCall) (call : Nat) (k : List String → WalletState) (s : WalletState) :
    s.readConfirmations c call k = s.setStage call .raised ∨
      ∃ l, s.confirmations.get? c.txId = some l ∧ s.readConfirmations c call k = k l := by
  unfold readConfirmations
  cases hget : s.confirmations.get? c.txId with
  | none => exact .inl rfl
  | some l => exact .inr ⟨l, rfl, rfl⟩

theorem readTx_eq {tx : Nat} {t : MultisigTransaction} (h : s.heap[tx]? = some t) (k : MultisigTransaction → WalletState) :
    s.readTx tx k = k t := by
  unfold readTx
  rw [h]

theorem inv_done (h : w.Inv s) (hc : s.calls[call]? = some c) (hout : c.stage.inExecutor = false)
    (r : ConfirmResponse) : w.Inv (s.setStage call (.done r)) :=
  inv_setStage h hc _ (callOk_plain _ (fun _ h => nomatch h) rfl rfl) fun hin => nomatch hout.symm.trans hin

theorem inv_raised (h : w.Inv s) (hc : s.calls[call]? = some c) (hout : c.stage.inExecutor = false) :
    w.Inv (s.setStage call .raised) :=
  inv_setStage h hc _ (callOk_plain _ (fun _ h => nomatch h) rfl rfl) fun hin => nomatch hout.symm.trans hin

theorem inv_plain {s' : WalletState} {tx : Nat} (h : w.Inv s') (hc : s.calls[call]? = some c) (hcalls : s'.calls = s.calls)
    (htx : c.stage.tx? = some tx) {stage : Stage} (hnext : stage.tx? = some tx) (hlisting : stage.listing? = none)
    (hout : stage.inExecutor = false) (hin : c.stage.inExecutor = true → w.Succeeds call → s'.IsExecuted c.txId) :
    w.Inv (s'.setStage call stage) := by
  have hc' : s'.calls[call]? = some c := by
    rw [hcalls]
    exact hc
  refine inv_setStage h hc' _ (callOk_plain _ ?_ hlisting hout) fun hflight hsucc => .inr (hin hflight hsucc)
  intro tx' htx'
  apply (h.calls call c hc').refers
  rw [htx, ← hnext]
  exact htx'

section stages
variable (h : w.Inv s) (hc : s.calls[call]? = some c)
include h hc

theorem inv_entered (hstage : c.stage = .entered) : w.Inv (w.advanceCall call c s) := by
  have hout : c.stage.inExecutor = false := by rw [hstage]; rfl
  unfold advanceCall
  simp only [hstage]
  by_cases howner : c.owner ∉ w.owners
  · rw [if_pos howner]
    exact inv_done h hc hout _
  · rw [if_neg howner]
    cases hget : s.transactions.get? c.txId with
    | none => exact inv_done h hc hout _
    | some tx =>
      refine inv_setStage h hc _ (callOk_plain _ ?_ rfl rfl) fun hin => nomatch hout.symm.trans hin
      intro tx' htx'
      cases htx'
      exact ⟨not_not.mp howner, h.transactions _ _ hget⟩

theorem inv_found {tx : Nat} (hstage : c.stage = .found tx) : w.Inv (w.advanceCall call c s) := by
  have hout : c.stage.inExecutor = false := by rw [hstage]; rfl
  obtain ⟨t, ht, -⟩ := ((h.calls call c hc).refers tx (by rw [hstage]; rfl)).2
  unfold advanceCall
  simp only [hstage]
  rw [readTx_eq ht]
  split
  · exact inv_done h hc hout _
  · exact inv_plain h hc rfl (by rw [hstage]; rfl) rfl rfl rfl fun hin => nomatch hout.symm.trans hin

theorem inv_unexecuted {tx : Nat} (hstage : c.stage = .unexecuted tx) : w.Inv (w.advanceCall call c s) := by
  have hout : c.stage.inExecutor = false := by rw [hstage]; rfl
  unfold advanceCall
  simp only [hstage]
  rcases readConfirmations_cases c call (fun owners => s.setStage call (.counted tx owners.length)) s with hr | ⟨l, -, hr⟩
  · rw [hr]
    exact inv_raised h hc hout
  · rw [hr]
    exact inv_plain h hc rfl (by rw [hstage]; rfl) rfl rfl rfl fun hin => nomatch hout.symm.trans hin

theorem inv_counted {tx before : Nat} (hstage : c.stage = .counted tx before) : w.Inv (w.advanceCall call c s) := by
  have hout : c.stage.inExecutor = false := by rw [hstage]; rfl
  unfold advanceCall readConfirmations
  simp only [hstage]
  cases hget : s.confirmations.get? c.txId with
  | none => exact inv_raised h hc hout
  | some l =>
    have hadd := inv_add h hget ((h.calls call c hc).refers tx (by rw [hstage]; rfl)).1
    exact @inv_plain w s call c _ tx hadd hc rfl (by rw [hstage]; rfl) (.added tx before) rfl rfl rfl fun hin =>
      nomatch hout.symm.trans hin

theorem inv_added {tx before : Nat} (hstage : c.stage = .added tx before) : w.Inv (w.advanceCall call c s) := by
  have hout : c.stage.inExecutor = false := by rw [hstage]; rfl
  have hok := h.calls call c hc
  unfold advanceCall readConfirmations
  simp only [hstage]
  cases hget : s.confirmations.get? c.txId with
  | none => exact inv_raised h hc hout
  | some l =>
    obtain ⟨hnodup, hall⟩ := h.confirmations _ l hget
    have hperm : (sortedBy id l).Perm l := List.perm_insertionSort _ l
    refine inv_setStage h hc _ ?_ fun hin => nomatch hout.symm.trans hin
    exact
      { refers := fun tx' htx' => hok.refers tx' (by rw [hstage]; exact htx')
        listing := by
          intro l' hl'
          cases hl'
          exact ⟨hperm.nodup_iff.mpr hnodup, fun o ho => hall o (hperm.mem_iff.mp ho)⟩
        calling := fun hin => nomatch hin
        answer := fun _ _ _ _ hret => nomatch hret }

theorem inv_listed {tx before : Nat} {l : List String} (hstage : c.stage = .listed tx before l) :
    w.Inv (w.advanceCall call c s) := by
  have hout : c.stage.inExecutor = false := by rw [hstage]; rfl
  have hmod := inv_modify h tx (f := fun t => { t with confirmations := l }) fun _ => ⟨rfl, rfl⟩
  have hok' := hmod.calls call c hc
  unfold advanceCall
  simp only [hstage]
  refine inv_setStage hmod hc _ ?_ fun hin => nomatch hout.symm.trans hin
  exact
    { refers := fun tx' htx' => hok'.refers tx' (by rw [hstage]; exact htx')
      listing := fun l' hl' => hok'.listing l' (by rw [hstage]; exact hl')
      calling := fun hin => nomatch hin
      answer := fun _ _ _ _ hret => nomatch hret }

theorem inv_written {tx before : Nat} {l : List String} (hstage : c.stage = .written tx before l) :
    w.Inv (w.advanceCall call c s) := by
  have hout : c.stage.inExecutor = false := by rw [hstage]; rfl
  obtain ⟨howner, t, ht, hid⟩ := (h.calls call c hc).refers tx (by rw [hstage]; rfl)
  unfold advanceCall
  simp only [hstage]
  split
  · cases w.transactionExecutor with
    | none =>
      have hmod := inv_modify h tx (f := fun t => { t with status := .approved }) fun _ => ⟨rfl, rfl⟩
      exact inv_plain hmod hc rfl (by rw [hstage]; rfl) rfl rfl rfl fun hin => nomatch hout.symm.trans hin
    | some execute =>
      dsimp only
      rw [readTx_eq ht]
      exact inv_start h hc hout howner ht hid
  · exact inv_plain h hc rfl (by rw [hstage]; rfl) rfl rfl rfl fun hin => nomatch hout.symm.trans hin

/-- The executor answers, or raises. -/
theorem inv_executing {tx before n : Nat} (hstage : c.stage = .executing tx before n) : w.Inv (w.advanceCall call c s) := by
  have hok := h.calls call c hc
  unfold advanceCall
  simp only [hstage]
  cases houtcome : w.outcome call with
  | none =>
    refine inv_setStage h hc _ (callOk_plain _ (fun _ h => nomatch h) rfl rfl) ?_
    rintro - ⟨execution, hexec, -⟩
    rw [houtcome] at hexec
    cases hexec
  | some execution =>
    refine inv_setStage h hc _ ?_ fun _ _ => .inl rfl
    exact
      { refers := fun tx' htx' => hok.refers tx' (by rw [hstage]; exact htx')
        listing := fun _ hl => nomatch hl
        calling := fun _ => hok.calling (by rw [hstage]; rfl)
        answer := by
          intro tx' before' n' execution' hret
          cases hret
          exact houtcome }

theorem inv_returned {tx before n : Nat} {execution : Execution} (hstage : c.stage = .returned tx before n execution) :
    w.Inv (w.advanceCall call c s) := by
  have hok := h.calls call c hc
  have hanswer := hok.answer _ _ _ _ hstage
  unfold advanceCall
  simp only [hstage]
  split
  · rename_i hsucc
    obtain ⟨t, ht, hid⟩ := hok.calling (by rw [hstage]; rfl)
    obtain ⟨hmark, hexec⟩ := inv_mark h (hok.refers tx (by rw [hstage]; rfl)).2 ⟨call, t, ht, hid, execution, hanswer, hsucc⟩
    exact inv_plain hmark hc rfl (by rw [hstage]; rfl) rfl rfl rfl fun _ _ => hexec
  · rename_i hfail
    have hmod := inv_modify h tx (f := fun t => { t with status := .executionFailed }) fun _ => ⟨rfl, rfl⟩
    refine inv_plain hmod hc rfl (by rw [hstage]; rfl) rfl rfl rfl ?_
    rintro - ⟨execution', hexec, hsucc⟩
    rw [hanswer] at hexec
    cases hexec
    exact absurd hsucc hfail

end stages

theorem inv_advanceCall (h : w.Inv s) (hc : s.calls[call]? = some c) : w.Inv (w.advanceCall call c s) := by
  cases hstage : c.stage with
  | entered => exact inv_entered h hc hstage
  | found tx => exact inv_found h hc hstage
  | unexecuted tx => exact inv_unexecuted h hc hstage
  | counted tx before => exact inv_counted h hc hstage
  | added tx before => exact inv_added h hc hstage
  | listed tx before l => exact inv_listed h hc hstage
  | written tx before l => exact inv_written h hc hstage
  | executing tx before n => exact inv_executing h hc hstage
  | returned tx before n execution => exact inv_returned h hc hstage
  | marked tx before n execution =>
    have hmod := inv_modify h tx (f := fun t => { t with status := .executed }) fun _ => ⟨rfl, rfl⟩
    unfold advanceCall
    simp only [hstage]
    exact inv_plain hmod hc rfl (by rw [hstage]; rfl) rfl rfl rfl fun hin => by rw [hstage] at hin; cases hin
  | statusSet tx before n execution =>
    have hmod := inv_modify h tx (f := fun t => { t with executionResult := some execution }) fun _ => ⟨rfl, rfl⟩
    unfold advanceCall
    simp only [hstage]
    exact inv_plain hmod hc rfl (by rw [hstage]; rfl) rfl rfl rfl fun hin => by rw [hstage] at hin; cases hin
  | settled tx before n =>
    obtain ⟨t, ht, -⟩ := ((h.calls call c hc).refers tx (by rw [hstage]; rfl)).2
    unfold advanceCall
    simp only [hstage]
    rw [readTx_eq ht]
    exact inv_done h hc (by rw [hstage]; rfl) _
  | done r =>
    unfold advanceCall
    simp only [hstage]
    exact h
  | raised =>
    unfold advanceCall
    simp only [hstage]
    exact h

theorem inv_step {host : Host} (e : WalletEvent) (h : w.Inv s) : w.Inv (w.step host e s) := by
  cases e with
  | createTransaction toAddr amount now timeNs =>
    unfold step createTransaction
    dsimp only
    split
    · exact h
    · split
      · exact h
      · exact inv_create h rfl
  | confirm txId owner => exact inv_call h txId owner
  | advance call =>
    unfold step
    dsimp only
    cases hc : s.calls[call]? with
    | none => exact h
    | some c => exact inv_advanceCall h hc

/-! ## When the executor is called -/

theorem executorCalls_readTx {tx : Nat} {k : MultisigTransaction → WalletState}
    (hk : ∀ t, (k t).executorCalls = s.executorCalls) : (s.readTx tx k).executorCalls = s.executorCalls := by
  unfold readTx
  split
  · exact hk _
  · rfl

theorem executorCalls_readConfirmations {k : List String → WalletState}
    (hk : ∀ l, (k l).executorCalls = s.executorCalls) : (s.readConfirmations c call k).executorCalls = s.executorCalls := by
  unfold readConfirmations
  split
  · exact hk _
  · rfl

theorem executorCalls_advanceCall (call : Nat) (c : ConfirmCall) (s : WalletState) :
    (w.advanceCall call c s).executorCalls = s.executorCalls ∨
      ∃ tx before l t, c.stage = .written tx before l ∧ w.required ≤ l.length ∧ s.heap[tx]? = some t ∧
        (w.advanceCall call c s).executorCalls = s.executorCalls ++ [(call, t)] := by
  unfold advanceCall
  cases hstage : c.stage with
  | entered =>
    dsimp only
    left
    split
    · rfl
    · split <;> rfl
  | found tx =>
    left
    apply executorCalls_readTx
    intro t
    split <;> rfl
  | unexecuted tx =>
    left
    apply executorCalls_readConfirmations
    exact fun _ => rfl
  | counted tx before =>
    left
    apply executorCalls_readConfirmations
    exact fun _ => rfl
  | added tx before =>
    left
    apply executorCalls_readConfirmations
    exact fun _ => rfl
  -- the only stage that hands a transaction to the executor
  | written tx before l =>
    dsimp only
    by_cases hquorum : w.required ≤ l.length
    · rw [if_pos hquorum]
      cases w.transactionExecutor with
      | none => exact .inl rfl
      | some execute =>
        dsimp only
        unfold readTx
        cases ht : s.heap[tx]? with
        | none => exact .inl rfl
        | some t => exact .inr ⟨tx, before, l, t, rfl, hquorum, ht, rfl⟩
    · rw [if_neg hquorum]
      exact .inl rfl
  | executing tx before n =>
    dsimp only
    left
    split <;> rfl
  | returned tx before n execution =>
    dsimp only
    left
    split <;> rfl
  | settled tx before n =>
    left
    apply executorCalls_readTx
    exact fun _ => rfl
  | listed | marked | statusSet | done | raised => exact .inl rfl

variable {host : Host} {e : WalletEvent} {t : MultisigTransaction}

theorem executes_written (h : w.Executes host e s call t) :
    ∃ c tx before l, s.calls[call]? = some c ∧ c.stage = .written tx before l ∧ w.required ≤ l.length ∧
      s.heap[tx]? = some t := by
  have hsame : ∀ {l : List (Nat × MultisigTransaction)}, l = l ++ [(call, t)] → False := fun hl =>
    List.cons_ne_nil _ _ (List.self_eq_append_right.mp hl)
  unfold Executes at h
  cases e with
  | createTransaction toAddr amount now timeNs =>
    unfold step createTransaction at h
    dsimp only at h
    split at h
    · exact (hsame h).elim
    · split at h
      · exact (hsame h).elim
      · exact (hsame h).elim
  | confirm txId owner => exact (hsame h).elim
  | advance call' =>
    unfold step at h
    dsimp only at h
    cases hc : s.calls[call']? with
    | none =>
      rw [hc] at h
      exact (hsame h).elim
    | some c =>
      rw [hc] at h
      rcases @executorCalls_advanceCall w call' c s with hr | ⟨tx, before, l, t', hstage, hquorum, ht', hr⟩
      · exact (hsame (hr.symm.trans h)).elim
      · have heq : (call', t') = (call, t) := List.singleton_inj.mp (List.append_cancel_left (hr.symm.trans h))
        cases heq
        exact ⟨c, tx, before, l, hc, hstage, hquorum, ht'⟩

theorem quorum_of_executes (h : w.Inv s) (hexec : w.Executes host e s call t) : w.Quorum t.txId s := by
  obtain ⟨c, tx, before, l, hc, hstage, hquorum, ht⟩ := executes_written hexec
  obtain ⟨-, t', ht', hid⟩ := (h.calls call c hc).refers tx (by rw [hstage]; rfl)
  obtain ⟨hnodup, hall⟩ := (h.calls call c hc).listing l (by rw [hstage]; rfl)
  obtain rfl := Option.some.inj (ht.symm.trans ht')
  refine ⟨l, hnodup, hquorum, fun o ho => ?_⟩
  have hadded := hall o ho
  rw [← hid] at hadded
  exact ⟨h.owners _ _ hadded, hadded⟩

theorem executesOnce_iff (e : WalletEvent) (h : w.Inv s) : w.ExecutesOnce host e s ↔ w.Exclusive host e s := by
  constructor
  · intro hone call t hexec
    obtain ⟨-, hearlier⟩ := hone call t hexec
    constructor
    · intro t' hmem hid
      by_contra hmarked
      obtain ⟨call', t'', ht'', hid', hsucc⟩ := h.executed t'.txId ⟨t', hmem, rfl, Bool.eq_true_of_not_eq_false hmarked⟩
      exact hearlier call' t'' ht'' (hid'.trans hid) hsucc
    · intro call' c hc hid hin
      obtain ⟨t', ht', hid'⟩ := (h.calls call' c hc).calling hin
      exact hearlier call' t' ht' (hid'.trans hid)
  · intro hexcl call t hexec
    obtain ⟨hunmarked, hfree⟩ := hexcl call t hexec
    refine ⟨quorum_of_executes h hexec, fun call' t' ht' hid hsucc => ?_⟩
    rcases h.started call' t' ht' hsucc with ⟨c, hc, hid', hin⟩ | ⟨t'', hmem, hid', hmarked⟩
    · exact hfree call' c hc (hid'.trans hid) hin hsucc
    · exact Bool.false_ne_true ((hunmarked t'' hmem (hid'.trans hid)).symm.trans hmarked)

/-- Over any calls that overlap in any way, the executor is called with a quorum and not again for a transaction
for which it succeeds, exactly when no call reaches it while the transaction is marked or in such a call. -/
theorem wallet_executes_once_iff (host : Host) (w : MultiSigWallet) (events : List WalletEvent) :
    Along (w.step host) (w.ExecutesOnce host) events .empty ↔ Along (w.step host) (w.Exclusive host) events .empty :=
  along_congr (fun e _ h => inv_step e h) (fun e _ h => executesOnce_iff e h) (inv_empty w)

theorem wallet_quorum (host : Host) (w : MultiSigWallet) (events : List WalletEvent) :
    Along (w.step host) (fun e s => ∀ call t, w.Executes host e s call t → w.Quorum t.txId s) events .empty :=
  along_of_inv (fun e _ h => inv_step e h) (fun _ _ h _ _ hexec => quorum_of_executes h hexec) events (inv_empty w)

/-! ## Two calls that overlap -/

def sharedWallet : MultiSigWallet where
  owners := ["0x1", "0x2"]
  required := 1
  transactionExecutor := some fun _ => some (.dict (some true))
  walletId := "w"
  owners_nodup := by decide
  required_pos := by decide
  required_le := by decide

def sharedTransfer (txId : String) : MultisigTransaction :=
  { txId, toAddr := "0x3", amount := .int 10, createdAt := 0, status := .pending, executed := false, executionResult := none,
    required := 1, confirmations := [] }

def overlapping (txId : String) : List WalletEvent :=
  .confirm txId "0x1" :: .confirm txId "0x2" :: List.replicate 7 (.advance 0) ++ List.replicate 6 (.advance 1)

def sharedCreation : WalletEvent := .createTransaction "0x3" (.int 10) 0 0

theorem overlapping_begins : ∃ txId, sharedWallet.step .plain sharedCreation .empty =
    { WalletState.empty with
      heap := [sharedTransfer txId]
      transactions := Table.empty.put txId 0
      confirmations := Table.empty.put txId [] } := by
  unfold step sharedCreation createTransaction
  dsimp only
  rw [if_neg (by decide), if_neg (by norm_num [Num.toRat])]
  exact ⟨_, rfl⟩

theorem wallet_executes_twice :
    ∃ txId, ¬ Along (sharedWallet.step .plain) (sharedWallet.ExecutesOnce .plain)
      (sharedCreation :: overlapping txId ++ [.advance 1]) .empty := by
  obtain ⟨txId, hbegin⟩ := overlapping_begins
  refine ⟨txId, fun h => ?_⟩
  obtain ⟨-, hrest⟩ := h
  rw [hbegin] at hrest
  obtain ⟨-, hone, -⟩ := along_append.mp hrest
  have hstate : run (sharedWallet.step .plain) (overlapping txId)
      { WalletState.empty with
        heap := [sharedTransfer txId]
        transactions := Table.empty.put txId 0
        confirmations := Table.empty.put txId [] } =
      { heap := [{ sharedTransfer txId with confirmations := ["0x1", "0x2"] }]
        transactions := Table.empty.put txId 0
        confirmations := (Table.empty.put txId []).put txId ["0x1"] |>.put txId ["0x1", "0x2"]
        calls := [⟨txId, "0x1", .executing 0 0 1⟩, ⟨txId, "0x2", .written 0 1 ["0x1", "0x2"]⟩]
        additions := [(txId, "0x1"), (txId, "0x2")]
        executorCalls := [(0, { sharedTransfer txId with confirmations := ["0x1"] })] } := by
    simp [overlapping, List.replicate, run, step, advanceCall, sharedWallet, sharedTransfer, WalletState.empty, readTx,
      readConfirmations, setStage, modifyTx, sortedBy, List.modify_cons]
  rw [hstate] at hone
  exact (hone 1 { sharedTransfer txId with confirmations := ["0x1", "0x2"] } rfl).2 0 _ (List.mem_singleton_self _) rfl
    ⟨_, rfl, rfl⟩

end MultiSigWallet

end AbsoluteChain
