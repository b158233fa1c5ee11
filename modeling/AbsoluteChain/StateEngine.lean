import AbsoluteChain.Chain
import AbsoluteChain.Numbers

/-!
# The in-memory state engine

`transition` of `execution/state_engine.py` applies a block to a copy of its accounts.
When it returns is read off the block and the balances, and so is every balance that it leaves.
-/

namespace AbsoluteChain

open Python JsonText

/-- An address; `none` stands for a transaction that names none. -/
abbrev AccountKey := Option String

structure AccountState where
  balance : Number
  nonce : Int
  codeHash : String
  storageRoot : String
  deriving DecidableEq

abbrev Accounts := Dict AccountKey AccountState

structure BlockState where
  accounts : Accounts
  blockNumber : Int
  blockHash : String
  parentHash : String
  stateRoot : String
  timestamp : Int
  deriving DecidableEq

structure EngineTransaction where
  from' : Option AccountKey
  fromAddr : Option AccountKey
  to' : Option AccountKey
  toAddr : Option AccountKey
  amount : Option (Option Number)
  value : Option (Option Number)
  nonce : Option (Option Number)

structure EngineBlock where
  number : Option Int
  hash : Option String
  parentHash : Option String
  timestamp : Option Int
  transactions : Option (List EngineTransaction)

inductive EngineError where
  | noState
  | insufficientBalance (sender : AccountKey)
  | invalidNonce (expected : Int) (got : Option Number)
  | keyError (key : String)
  | typeError
  deriving DecidableEq

structure StateEngine where
  state : Option BlockState

namespace EngineTransaction

variable (tx : EngineTransaction)

def sender : AccountKey := tx.from'.getD (tx.fromAddr.getD none)

def recipient : AccountKey := tx.to'.getD (tx.toAddr.getD none)

def sum : Option Number := tx.amount.getD (tx.value.getD (some (.int 0)))

end EngineTransaction

def AccountState.new : AccountState := { balance := .int 0, nonce := 0, codeHash := "", storageRoot := "" }

namespace Accounts

variable (accounts : Accounts)

def account (a : AccountKey) : AccountState := (accounts.get? a).getD .new

def ensure (a : AccountKey) : Accounts :=
  if accounts.contains a then accounts else accounts.set a .new

def applyTransaction (tx : EngineTransaction) : Except EngineError Accounts :=
  let accounts : Accounts := accounts.ensure tx.sender
  match tx.sum with
  | none => .error .typeError
  | some amount =>
    if (accounts.account tx.sender).balance.below amount then .error (.insufficientBalance tx.sender)
    else
      let expected := (accounts.account tx.sender).nonce
      let txNonce := tx.nonce.getD (some (.int expected))
      if txNonce.bind Number.real ≠ some (expected : ℚ) then .error (.invalidNonce expected txNonce)
      else
        let accounts : Accounts := accounts.set tx.sender
          { accounts.account tx.sender with
            balance := (accounts.account tx.sender).balance.sub amount
            nonce := expected + 1 }
        let accounts : Accounts := accounts.ensure tx.recipient
        .ok (accounts.set tx.recipient
          { accounts.account tx.recipient with balance := (accounts.account tx.recipient).balance.add amount })

def applyTransactions : Accounts → List EngineTransaction → Except EngineError Accounts
  | accounts, [] => .ok accounts
  | accounts, tx :: rest => do
    let accounts ← accounts.applyTransaction tx
    applyTransactions accounts rest

/-- `None` cannot be sorted among texts. -/
def Sortable (keys : List AccountKey) : Prop := none ∈ keys → ∀ k ∈ keys, k = none

instance (keys : List AccountKey) : Decidable (Sortable keys) := inferInstanceAs (Decidable (_ → _))

def computeStateRoot (host : Host) : Except EngineError String :=
  if Sortable (accounts.map Prod.fst) then
    let payload : Json Double := dict (accounts.map fun e =>
      (e.1.getD "null", dict [("balance", e.2.balance.json), ("nonce", .int e.2.nonce)]))
    let text := dumps (spaced escapeAscii (Double.text host.floatRepr)) payload
    .ok (String.ofList ((sha256Hex (encode text)).toList.take 32))
  else .error .typeError

end Accounts

def EngineBlock.transactionList (block : EngineBlock) : List EngineTransaction := block.transactions.getD []

def readKey {α : Type} (key : String) : Option α → Except EngineError α
  | some v => .ok v
  | none => .error (.keyError key)

namespace StateEngine

variable (host : Host)

def newState (block : EngineBlock) (accounts : Accounts) : Except EngineError BlockState := do
  let accounts ← accounts.applyTransactions block.transactionList
  let blockNumber ← readKey "number" block.number
  let blockHash ← readKey "hash" block.hash
  let parentHash ← readKey "parent_hash" block.parentHash
  let stateRoot ← accounts.computeStateRoot host
  let timestamp ← readKey "timestamp" block.timestamp
  return { accounts, blockNumber, blockHash, parentHash, stateRoot, timestamp }

def transition (block : EngineBlock) (engine : StateEngine) : Except EngineError BlockState × StateEngine :=
  match engine.state with
  | none => (.error .noState, engine)
  | some state =>
    match newState host block state.accounts with
    | .error e => (.error e, engine)
    | .ok state => (.ok state, { engine with state := some state })

end StateEngine

/-! ## What a block asks for -/

abbrev Balances := AccountKey → Number

namespace EngineTransaction

variable (tx : EngineTransaction)

def units : Number := tx.sum.getD (.int 0)

def debit (b : Balances) : Balances := fun a => if a = tx.sender then (b a).sub tx.units else b a

def credit (b : Balances) : Balances := fun a => if a = tx.recipient then (b a).add tx.units else b a

def post (b : Balances) : Balances := tx.credit (tx.debit b)

def stray (b : Balances) : ℚ :=
  ((b tx.sender).sub tx.units).value - ((b tx.sender).value - tx.units.value) +
    ((tx.debit b tx.recipient).add tx.units).value - ((tx.debit b tx.recipient).value + tx.units.value)

def Ready (available : Number) (next : Int) : Prop :=
  tx.sum.isSome = true ∧ available.below tx.units = false ∧ ∀ v, tx.nonce = some v → v.bind Number.real = some (next : ℚ)

def moves (a : AccountKey) : ℚ :=
  (if tx.recipient = a then tx.units.value else 0) - (if tx.sender = a then tx.units.value else 0)

end EngineTransaction

namespace Balances

def after : Balances → List EngineTransaction → Balances
  | b, [] => b
  | b, tx :: rest => after (tx.post b) rest

def strayed : Balances → List EngineTransaction → ℚ
  | _, [] => 0
  | b, tx :: rest => tx.stray b + strayed (tx.post b) rest

def Covers : Balances → (AccountKey → Int) → List EngineTransaction → Prop
  | _, _, [] => True
  | b, nonce, tx :: rest =>
    tx.Ready (b tx.sender) (nonce tx.sender) ∧
      Covers (tx.post b) (fun a => if a = tx.sender then nonce a + 1 else nonce a) rest

end Balances

def netOf (a : AccountKey) (txs : List EngineTransaction) : ℚ := (txs.map fun tx => tx.moves a).sum

def sentBy (a : AccountKey) (txs : List EngineTransaction) : Nat := txs.countP fun tx => tx.sender = a

namespace Accounts

variable (accounts : Accounts)

def balance : Balances := fun a => (accounts.account a).balance

def nonce (a : AccountKey) : Int := (accounts.account a).nonce

def total : ℚ := (accounts.map fun e => e.2.balance.value).sum

structure Effect (txs : List EngineTransaction) (accounts' : Accounts) : Prop where
  balance : accounts'.balance = accounts.balance.after txs
  nonce : ∀ a, accounts'.nonce a = accounts.nonce a + sentBy a txs
  total : accounts'.total = accounts.total + accounts.balance.strayed txs
  keys : ∀ k, k ∈ accounts'.map Prod.fst ↔
    k ∈ accounts.map Prod.fst ++ txs.map EngineTransaction.sender ++ txs.map EngineTransaction.recipient

variable {accounts}

theorem account_set (k a : AccountKey) (v : AccountState) :
    account (accounts.set k v) a = if a = k then v else accounts.account a := by
  unfold account
  rw [Dict.get?_set]
  split
  · rfl
  · rfl

theorem account_ensure (k a : AccountKey) : (accounts.ensure k).account a = accounts.account a := by
  unfold ensure
  split
  · rfl
  · rename_i hnew
    rw [account_set]
    split
    · rename_i hak
      unfold account
      rw [hak, Option.not_isSome_iff_eq_none.mp hnew]
      rfl
    · rfl

theorem total_set (k : AccountKey) (v : AccountState) :
    total (accounts.set k v) = accounts.total + v.balance.value - (accounts.balance k).value := by
  unfold total balance account
  induction accounts with
  | nil =>
    show v.balance.value + 0 = 0 + v.balance.value - (Number.int 0).value
    simp [Number.value, Number.real]
  | cons e rest ih =>
    obtain ⟨j, x⟩ := e
    unfold Dict.set
    by_cases hj : j = k
    · rw [if_pos hj, Dict.get?_cons, if_pos hj.symm]
      simp only [List.map_cons, List.sum_cons, Option.getD_some]
      ring
    · rw [if_neg hj, Dict.get?_cons, if_neg (Ne.symm hj)]
      simp only [List.map_cons, List.sum_cons]
      rw [ih]
      ring

theorem total_ensure (k : AccountKey) : (accounts.ensure k).total = accounts.total := by
  unfold ensure
  split
  · rfl
  · rename_i hnew
    rw [total_set]
    unfold balance account
    rw [Option.not_isSome_iff_eq_none.mp hnew]
    exact add_sub_cancel_right _ _

theorem mem_keys_set (k j : AccountKey) (v : AccountState) :
    j ∈ (accounts.set k v).map Prod.fst ↔ j ∈ accounts.map Prod.fst ∨ j = k := by
  rw [Dict.keys_set]
  split
  · rename_i hk
    constructor
    · exact Or.inl
    · rintro (hj | rfl)
      · exact hj
      · exact hk
  · rw [List.mem_append, List.mem_singleton]

theorem mem_keys_ensure (k j : AccountKey) :
    j ∈ (accounts.ensure k).map Prod.fst ↔ j ∈ accounts.map Prod.fst ∨ j = k := by
  unfold ensure
  split
  · rename_i hk
    constructor
    · exact Or.inl
    · rintro (hj | rfl)
      · exact hj
      · obtain ⟨v, hv⟩ := Option.isSome_iff_exists.mp hk
        exact List.mem_map.mpr ⟨(j, v), Dict.mem_of_get? hv, rfl⟩
  · exact mem_keys_set k j _

theorem effect_transfer (accounts : Accounts) {tx : EngineTransaction} {amount : Number} (hunits : tx.units = amount)
    {paid opened : Accounts}
    (hpaid : paid = (accounts.ensure tx.sender).set tx.sender
      { accounts.account tx.sender with
        balance := (accounts.account tx.sender).balance.sub amount
        nonce := (accounts.account tx.sender).nonce + 1 })
    (hopened : opened = paid.ensure tx.recipient) :
    accounts.Effect [tx] (opened.set tx.recipient
      { opened.account tx.recipient with balance := (opened.account tx.recipient).balance.add amount }) := by
  -- the accounts once the sender has paid and the recipient exists
  have hfrom : ∀ a, opened.account a = if a = tx.sender then
      { accounts.account tx.sender with
        balance := (accounts.account tx.sender).balance.sub amount
        nonce := (accounts.account tx.sender).nonce + 1 } else accounts.account a := by
    intro a
    rw [hopened, account_ensure, hpaid, account_set, account_ensure]
  have hdebit : ∀ a, (opened.account a).balance = tx.debit accounts.balance a := by
    intro a
    rw [hfrom a]
    unfold EngineTransaction.debit balance
    rw [hunits]
    by_cases hsender : a = tx.sender
    · rw [if_pos hsender, if_pos hsender, hsender]
    · rw [if_neg hsender, if_neg hsender]
  refine ⟨?_, ?_, ?_, ?_⟩
  · funext a
    show (account (opened.set _ _) a).balance = tx.credit (tx.debit accounts.balance) a
    rw [account_set]
    unfold EngineTransaction.credit
    by_cases hto : a = tx.recipient
    · rw [if_pos hto, if_pos hto, ← hdebit, hunits, hto]
    · rw [if_neg hto, if_neg hto, hdebit]
  -- the nonces
  · intro a
    unfold nonce sentBy
    have hnonce : (account (opened.set tx.recipient
        { opened.account tx.recipient with balance := (opened.account tx.recipient).balance.add amount }) a).nonce =
          (opened.account a).nonce := by
      rw [account_set]
      split
      · rename_i hto
        rw [hto]
      · rfl
    rw [hnonce, hfrom a]
    by_cases hsender : a = tx.sender
    · rw [if_pos hsender, hsender]
      simp
    · rw [if_neg hsender]
      simp [Ne.symm hsender]
  -- the total
  · have hopen : opened.total = accounts.total + ((accounts.balance tx.sender).sub amount).value -
        (accounts.balance tx.sender).value := by
      rw [hopened, total_ensure, hpaid, total_set, total_ensure]
      unfold balance
      rw [account_ensure]
    rw [total_set, hopen]
    show _ = accounts.total + (tx.stray accounts.balance + 0)
    unfold EngineTransaction.stray
    rw [← hdebit, hunits]
    unfold balance
    ring
  · intro k
    rw [mem_keys_set, hopened, mem_keys_ensure, hpaid, mem_keys_set, mem_keys_ensure]
    simp only [List.mem_append, List.map_singleton, List.mem_singleton]
    tauto

theorem applyTransaction_cases (accounts : Accounts) (tx : EngineTransaction) :
    (tx.Ready (accounts.balance tx.sender) (accounts.nonce tx.sender) ∧
      ∃ accounts', accounts.applyTransaction tx = .ok accounts' ∧ accounts.Effect [tx] accounts') ∨
    (¬ tx.Ready (accounts.balance tx.sender) (accounts.nonce tx.sender) ∧
      ∃ e, accounts.applyTransaction tx = .error e) := by
  unfold applyTransaction EngineTransaction.Ready
  dsimp only
  cases hsum : tx.sum with
  | none => exact .inr ⟨fun h => (nomatch h.1), _, rfl⟩
  | some amount =>
    dsimp only
    have hunits : tx.units = amount := by
      unfold EngineTransaction.units
      rw [hsum]
      rfl
    rw [account_ensure]
    by_cases hpoor : (accounts.account tx.sender).balance.below amount = true
    · rw [if_pos hpoor]
      refine .inr ⟨?_, _, rfl⟩
      rintro ⟨-, hfits, -⟩
      rw [hunits] at hfits
      exact absurd (hpoor.symm.trans hfits) (by decide)
    · rw [if_neg hpoor]
      have hnonce : (tx.nonce.getD (some (.int (accounts.account tx.sender).nonce))).bind Number.real =
          some ((accounts.account tx.sender).nonce : ℚ) ↔
          ∀ v, tx.nonce = some v → v.bind Number.real = some ((accounts.nonce tx.sender : Int) : ℚ) := by
        cases tx.nonce with
        | none => exact iff_of_true rfl fun _ h => nomatch h
        | some v => exact ⟨fun h _ hv => Option.some.inj hv ▸ h, fun h => h v rfl⟩
      by_cases hnext : ∀ v, tx.nonce = some v → v.bind Number.real = some ((accounts.nonce tx.sender : Int) : ℚ)
      · rw [if_neg (not_not.mpr (hnonce.mpr hnext))]
        refine .inl ⟨⟨rfl, hunits ▸ Bool.not_eq_true _ ▸ hpoor, hnext⟩, _, rfl, ?_⟩
        exact effect_transfer accounts hunits rfl rfl
      · rw [if_pos fun h => hnext (hnonce.mp h)]
        exact .inr ⟨fun h => hnext h.2.2, _, rfl⟩

theorem Effect.nil (accounts : Accounts) : accounts.Effect [] accounts where
  balance := rfl
  nonce _ := (add_zero _).symm
  total := (add_zero _).symm
  keys k := by simp

theorem Effect.cons {accounts accounts₁ accounts₂ : Accounts} {tx : EngineTransaction} {rest : List EngineTransaction}
    (h : accounts.Effect [tx] accounts₁) (h' : accounts₁.Effect rest accounts₂) : accounts.Effect (tx :: rest) accounts₂ where
  balance := by
    rw [h'.balance, h.balance]
    rfl
  nonce a := by
    rw [h'.nonce, h.nonce]
    unfold sentBy
    rw [List.countP_cons, List.countP_cons, List.countP_nil]
    push_cast
    ring
  total := by
    rw [h'.total, h.total, h.balance]
    show accounts.total + (tx.stray accounts.balance + 0) + _ = accounts.total + (tx.stray accounts.balance + _)
    rw [add_zero, add_assoc]
    rfl
  keys k := by
    rw [h'.keys]
    simp only [List.mem_append, h.keys, List.map_cons, List.mem_cons, List.map_nil, List.not_mem_nil, or_false]
    tauto

theorem applyTransactions_cases (accounts : Accounts) (txs : List EngineTransaction) :
    (accounts.balance.Covers accounts.nonce txs ∧
      ∃ accounts', accounts.applyTransactions txs = .ok accounts' ∧ accounts.Effect txs accounts') ∨
    (¬ accounts.balance.Covers accounts.nonce txs ∧ ∃ e, accounts.applyTransactions txs = .error e) := by
  induction txs generalizing accounts with
  | nil => exact .inl ⟨trivial, accounts, rfl, Effect.nil accounts⟩
  | cons tx rest ih =>
    unfold Balances.Covers applyTransactions
    rcases applyTransaction_cases accounts tx with ⟨hready, accounts₁, hok, heffect⟩ | ⟨hrefused, e, herr⟩
    · have hbalance : tx.post accounts.balance = accounts₁.balance := heffect.balance.symm
      have hnonce : (fun a => if a = tx.sender then accounts.nonce a + 1 else accounts.nonce a) = accounts₁.nonce := by
        funext a
        rw [heffect.nonce]
        unfold sentBy
        by_cases hsender : a = tx.sender
        · simp [hsender]
        · simp [hsender, Ne.symm hsender]
      rw [hok, hbalance, hnonce]
      rcases ih accounts₁ with ⟨hcovers, accounts₂, hrest, hall⟩ | ⟨hnot, e, herr⟩
      · exact .inl ⟨⟨hready, hcovers⟩, accounts₂, hrest, heffect.cons hall⟩
      · exact .inr ⟨fun hc => hnot hc.2, e, herr⟩
    · rw [herr]
      exact .inr ⟨fun hc => hrefused hc.1, e, rfl⟩

end Accounts

/-! ## Running balances -/

namespace Balances

variable {b : Balances} {txs : List EngineTransaction}

/-- Balances that are numbers in the end were so all along, and so were the sums. -/
theorem finite_of_after (h : ∀ a, (b.after txs a).real.isSome = true) :
    (∀ a, (b a).real.isSome = true) ∧ ∀ tx ∈ txs, tx.units.real.isSome = true := by
  induction txs generalizing b with
  | nil => exact ⟨h, fun _ hm => absurd hm List.not_mem_nil⟩
  | cons tx rest ih =>
    obtain ⟨hpost, hrest⟩ := ih h
    have hdebit : ∀ a, (tx.debit b a).real.isSome = true := by
      intro a
      have ha := hpost a
      unfold EngineTransaction.post EngineTransaction.credit at ha
      split at ha
      · exact (Number.finite_of_add ha).1
      · exact ha
    have hsender := hdebit tx.sender
    unfold EngineTransaction.debit at hsender
    rw [if_pos rfl] at hsender
    refine ⟨?_, ?_⟩
    · intro a
      have ha := hdebit a
      unfold EngineTransaction.debit at ha
      split at ha
      · exact (Number.finite_of_sub ha).1
      · exact ha
    · intro tx' htx'
      rcases List.mem_cons.mp htx' with rfl | hold
      · exact (Number.finite_of_sub hsender).2
      · exact hrest tx' hold

theorem finite_debit {tx : EngineTransaction} (hb : ∀ a, (b a).real.isSome = true) (hunits : tx.units.real.isSome = true) (a : AccountKey) :
    (tx.debit b a).real.isSome = true := by
  obtain ⟨q, hq⟩ := Option.isSome_iff_exists.mp hunits
  obtain ⟨p, hp⟩ := Option.isSome_iff_exists.mp (hb a)
  unfold EngineTransaction.debit
  split
  · rcases Number.real_sub hp hq with hsum | hsum
    · rw [hsum]
      rfl
    · rw [hsum]
      rfl
  · exact hb a

theorem finite_post {tx : EngineTransaction} (hb : ∀ a, (b a).real.isSome = true) (hunits : tx.units.real.isSome = true) (a : AccountKey) :
    (tx.post b a).real.isSome = true := by
  obtain ⟨q, hq⟩ := Option.isSome_iff_exists.mp hunits
  obtain ⟨p, hp⟩ := Option.isSome_iff_exists.mp (finite_debit hb hunits a)
  unfold EngineTransaction.post EngineTransaction.credit
  split
  · rcases Number.real_add hp hq with hsum | hsum
    · rw [hsum]
      rfl
    · rw [hsum]
      rfl
  · exact finite_debit hb hunits a

theorem finite_after (hb : ∀ a, (b a).real.isSome = true) (hunits : ∀ tx ∈ txs, tx.units.real.isSome = true) (a : AccountKey) :
    (b.after txs a).real.isSome = true := by
  induction txs generalizing b with
  | nil => exact hb a
  | cons tx rest ih =>
    exact ih (finite_post hb (hunits tx List.mem_cons_self)) fun tx' htx' => hunits tx' (List.mem_cons_of_mem _ htx')

theorem solvent_post {tx : EngineTransaction} {next : Int} {a : AccountKey} (hready : tx.Ready (b tx.sender) next)
    (hunits : tx.units.real.isSome = true) (hreceives : tx.recipient = a → 0 ≤ tx.units.value) (h : (b a).Solvent) :
    (tx.post b a).Solvent := by
  obtain ⟨q, hq⟩ := Option.isSome_iff_exists.mp hunits
  have hdebit : (tx.debit b a).Solvent := by
    unfold EngineTransaction.debit
    split
    · rename_i hsender
      rw [hsender] at h ⊢
      exact h.sub hq hready.2.1
    · exact h
  unfold EngineTransaction.post EngineTransaction.credit
  split
  · rename_i hto
    have hq0 := hreceives hto.symm
    rw [Number.value_eq hq] at hq0
    exact hdebit.add hq hq0
  · exact hdebit

theorem solvent_after {nonce : AccountKey → Int} {a : AccountKey} (hcovers : b.Covers nonce txs)
    (hunits : ∀ tx ∈ txs, tx.units.real.isSome = true) (hreceives : ∀ tx ∈ txs, tx.recipient = a → 0 ≤ tx.units.value)
    (h : (b a).Solvent) : (b.after txs a).Solvent := by
  induction txs generalizing b nonce with
  | nil => exact h
  | cons tx rest ih =>
    obtain ⟨hready, hrest⟩ := hcovers
    exact ih hrest (fun tx' htx' => hunits tx' (List.mem_cons_of_mem _ htx'))
      (fun tx' htx' => hreceives tx' (List.mem_cons_of_mem _ htx'))
      (solvent_post hready (hunits tx List.mem_cons_self) (hreceives tx List.mem_cons_self) h)

/-! ### Sums without roundings -/

/-- The two sums of a transaction are not rounded. -/
structure ExactAt (tx : EngineTransaction) (b : Balances) : Prop where
  units : tx.units.real.isSome = true
  debit : ((b tx.sender).sub tx.units).value = (b tx.sender).value - tx.units.value
  credit : ((tx.debit b tx.recipient).add tx.units).value = (tx.debit b tx.recipient).value + tx.units.value

def Exact : Balances → List EngineTransaction → Prop
  | _, [] => True
  | b, tx :: rest => ExactAt tx b ∧ Exact (tx.post b) rest

theorem ExactAt.stray {tx : EngineTransaction} (h : ExactAt tx b) : tx.stray b = 0 := by
  unfold EngineTransaction.stray
  rw [h.debit, h.credit]
  ring

theorem ExactAt.value_post {tx : EngineTransaction} (h : ExactAt tx b) (a : AccountKey) :
    (tx.post b a).value = (b a).value + tx.moves a := by
  have hdebit : (tx.debit b a).value = (b a).value - if tx.sender = a then tx.units.value else 0 := by
    unfold EngineTransaction.debit
    by_cases hsender : a = tx.sender
    · rw [if_pos hsender, if_pos hsender.symm, hsender, h.debit]
    · rw [if_neg hsender, if_neg (Ne.symm hsender), sub_zero]
  unfold EngineTransaction.post EngineTransaction.credit EngineTransaction.moves
  by_cases hto : a = tx.recipient
  · have hcredit := h.credit
    rw [← hto] at hcredit
    rw [if_pos hto, if_pos hto.symm, hcredit, hdebit]
    ring
  · rw [if_neg hto, if_neg (Ne.symm hto), hdebit]
    ring

theorem Exact.strayed (h : b.Exact txs) : b.strayed txs = 0 := by
  induction txs generalizing b with
  | nil => rfl
  | cons tx rest ih =>
    show tx.stray b + (tx.post b).strayed rest = 0
    rw [h.1.stray, ih h.2, add_zero]

theorem Exact.value_after (h : b.Exact txs) (a : AccountKey) : (b.after txs a).value = (b a).value + netOf a txs := by
  induction txs generalizing b with
  | nil => exact (add_zero _).symm
  | cons tx rest ih =>
    show ((tx.post b).after rest a).value = _
    rw [ih h.2, h.1.value_post, add_assoc]
    rfl

theorem Exact.finite (h : b.Exact txs) : ∀ tx ∈ txs, tx.units.real.isSome = true := by
  induction txs generalizing b with
  | nil => exact fun _ hm => absurd hm List.not_mem_nil
  | cons tx rest ih =>
    intro tx' htx'
    rcases List.mem_cons.mp htx' with rfl | hold
    · exact h.1.units
    · exact ih h.2 tx' hold

/-- Every balance and every sum is an `int`. -/
def Whole (b : Balances) (txs : List EngineTransaction) : Prop :=
  (∀ a, ∃ n, b a = .int n) ∧ ∀ tx ∈ txs, ∃ n, tx.units = .int n

/-- Every balance and every sum is a multiple of `2 ^ e`, and an account and all the sums together stay below
`2 ^ 53` of them. -/
structure Gridded (e : ℤ) (b : Balances) (txs : List EngineTransaction) : Prop where
  fine : -1074 ≤ e
  balances : ∀ a, ∃ p, (b a).real = some p ∧ Binary64.Multiple e p ∧
    |p| + (txs.map fun tx => |tx.units.value|).sum < 2 ^ (e + 53)
  units : ∀ tx ∈ txs, ∃ q, tx.units.real = some q ∧ Binary64.Multiple e q

theorem Whole.exact (h : Whole b txs) : b.Exact txs := by
  induction txs generalizing b with
  | nil => trivial
  | cons tx rest ih =>
    obtain ⟨hb, hunits⟩ := h
    obtain ⟨n, hn⟩ := hunits tx List.mem_cons_self
    have hdebit : ∀ a, ∃ m, tx.debit b a = .int m := by
      intro a
      obtain ⟨m, hm⟩ := hb a
      unfold EngineTransaction.debit
      split
      · exact ⟨m - n, Number.sub_int hm hn⟩
      · exact ⟨m, hm⟩
    have hpost : ∀ a, ∃ m, tx.post b a = .int m := by
      intro a
      obtain ⟨m, hm⟩ := hdebit a
      unfold EngineTransaction.post EngineTransaction.credit
      split
      · exact ⟨m + n, Number.add_int hm hn⟩
      · exact ⟨m, hm⟩
    refine ⟨⟨?_, ?_, ?_⟩, ih ⟨hpost, fun tx' htx' => hunits tx' (List.mem_cons_of_mem _ htx')⟩⟩
    · rw [hn]
      rfl
    · obtain ⟨m, hm⟩ := hb tx.sender
      rw [Number.sub_int hm hn, hm, hn]
      exact Int.cast_sub m n
    · obtain ⟨m, hm⟩ := hdebit tx.recipient
      rw [Number.add_int hm hn, hm, hn]
      exact Int.cast_add m n

theorem Gridded.exact {e : ℤ} (h : Gridded e b txs) : b.Exact txs := by
  induction txs generalizing b with
  | nil => trivial
  | cons tx rest ih =>
    obtain ⟨he, hb, hunits⟩ := h
    obtain ⟨q, hq, hqe⟩ := hunits tx List.mem_cons_self
    have hvalue := Number.value_eq hq
    have hrest : 0 ≤ (rest.map fun tx => |tx.units.value|).sum := by
      apply List.sum_nonneg
      intro x hx
      obtain ⟨tx', -, rfl⟩ := List.mem_map.mp hx
      exact abs_nonneg _
    simp only [List.map_cons, List.sum_cons, hvalue] at hb
    -- the bound counts a sum once, and an account that pays itself ends where it was
    have hdebit : ∀ a, ∃ d, (tx.debit b a).real = some d ∧ Binary64.Multiple e d ∧
        |d| + (rest.map fun tx => |tx.units.value|).sum < 2 ^ (e + 53) ∧
        |d + q| + (rest.map fun tx => |tx.units.value|).sum < 2 ^ (e + 53) := by
      intro a
      obtain ⟨p, hp, hpe, hsmall⟩ := hb a
      unfold EngineTransaction.debit
      split
      · have hdiff := abs_sub p q
        refine ⟨p - q, Number.real_sub_gridded he hp hq hpe hqe ?_ ?_ ?_, ?_, ?_, ?_⟩
        · linarith [abs_nonneg q]
        · linarith [abs_nonneg p]
        · linarith
        · rw [sub_eq_add_neg]
          exact hpe.add hqe.neg
        · linarith
        · rw [sub_add_cancel]
          linarith [abs_nonneg q]
      · have hsum := abs_add_le p q
        exact ⟨p, hp, hpe, by linarith [abs_nonneg q], by linarith⟩
    have hunit : |q| < 2 ^ (e + 53) := by
      obtain ⟨p, -, -, hsmall⟩ := hb tx.sender
      linarith [abs_nonneg p]
    have hcredit : ∀ a d, (tx.debit b a).real = some d → ((tx.debit b a).add tx.units).real = some (d + q) := by
      intro a d hd
      obtain ⟨d', hd', hde, hsmall, hsum⟩ := hdebit a
      cases hd.symm.trans hd'
      exact Number.real_add_gridded he hd hq hde hqe (by linarith) hunit (by linarith)
    refine ⟨⟨?_, ?_, ?_⟩, ih ⟨he, ?_, fun tx' htx' => hunits tx' (List.mem_cons_of_mem _ htx')⟩⟩
    · rw [hq]
      rfl
    · obtain ⟨p, hp, hpe, hsmall⟩ := hb tx.sender
      have hdiff := abs_sub p q
      rw [hvalue, Number.value_eq hp]
      apply Number.value_eq
      exact Number.real_sub_gridded he hp hq hpe hqe (by linarith [abs_nonneg q]) hunit (by linarith)
    · obtain ⟨d, hd, -⟩ := hdebit tx.recipient
      rw [hvalue, Number.value_eq hd]
      exact Number.value_eq (hcredit _ _ hd)
    · intro a
      obtain ⟨d, hd, hde, hsmall, hsum⟩ := hdebit a
      unfold EngineTransaction.post EngineTransaction.credit
      split
      · exact ⟨d + q, hcredit a d hd, hde.add hqe, hsum⟩
      · exact ⟨d, hd, hde, hsmall⟩

end Balances

namespace StateEngine

open Accounts

variable (host : Host)

/-- The block has its fields, its transactions can be applied one after the other, and the addresses can be
sorted. -/
structure Accepts (block : EngineBlock) (accounts : Accounts) : Prop where
  covers : accounts.balance.Covers accounts.nonce block.transactionList
  number : block.number.isSome = true
  hash : block.hash.isSome = true
  parentHash : block.parentHash.isSome = true
  timestamp : block.timestamp.isSome = true
  sortable : Sortable (accounts.map Prod.fst ++ block.transactionList.map EngineTransaction.sender ++
    block.transactionList.map EngineTransaction.recipient)

theorem sortable_congr {keys keys' : List AccountKey} (h : ∀ k, k ∈ keys ↔ k ∈ keys') : Sortable keys ↔ Sortable keys' := by
  unfold Sortable
  simp only [h]

theorem computeStateRoot_cases (accounts : Accounts) :
    (Sortable (accounts.map Prod.fst) ∧ ∃ root, accounts.computeStateRoot host = .ok root) ∨
      (¬ Sortable (accounts.map Prod.fst) ∧ accounts.computeStateRoot host = .error .typeError) := by
  unfold computeStateRoot
  by_cases h : Sortable (accounts.map Prod.fst)
  · rw [if_pos h]
    exact .inl ⟨h, _, rfl⟩
  · rw [if_neg h]
    exact .inr ⟨h, rfl⟩

theorem readKey_cases {α : Type} (key : String) (v : Option α) :
    (v.isSome = true ∧ ∃ a, readKey key v = .ok a) ∨ (¬ v.isSome = true ∧ ∃ e, readKey key v = .error e) := by
  cases v with
  | none => exact .inr ⟨fun h => (nomatch h), _, rfl⟩
  | some a => exact .inl ⟨rfl, a, rfl⟩

theorem newState_cases (block : EngineBlock) (accounts : Accounts) :
    (Accepts block accounts ∧ ∃ state, newState host block accounts = .ok state ∧
      accounts.Effect block.transactionList state.accounts) ∨
    (¬ Accepts block accounts ∧ ∃ e, newState host block accounts = .error e) := by
  unfold newState
  rcases applyTransactions_cases accounts block.transactionList with ⟨hcovers, accounts', hok, heffect⟩ | ⟨hnot, e, herr⟩
  · rw [hok]
    rcases readKey_cases "number" block.number with ⟨hnumber, number, hr⟩ | ⟨hnot, e, hr⟩
    · simp only [bind, Except.bind, hr]
      rcases readKey_cases "hash" block.hash with ⟨hhash, hash, hr⟩ | ⟨hnot, e, hr⟩
      · simp only [hr]
        rcases readKey_cases "parent_hash" block.parentHash with ⟨hparent, parent, hr⟩ | ⟨hnot, e, hr⟩
        · simp only [hr]
          rcases computeStateRoot_cases host accounts' with ⟨hsort, root, hr⟩ | ⟨hnot, hr⟩
          · simp only [hr]
            rcases readKey_cases "timestamp" block.timestamp with ⟨htime, time, hr⟩ | ⟨hnot, e, hr⟩
            · simp only [hr]
              exact .inl ⟨⟨hcovers, hnumber, hhash, hparent, htime, (sortable_congr heffect.keys).mp hsort⟩, _, rfl, heffect⟩
            · simp only [hr]
              exact .inr ⟨fun h => hnot h.timestamp, e, rfl⟩
          · simp only [hr]
            exact .inr ⟨fun h => hnot ((sortable_congr heffect.keys).mpr h.sortable), _, rfl⟩
        · simp only [hr]
          exact .inr ⟨fun h => hnot h.parentHash, e, rfl⟩
      · simp only [hr]
        exact .inr ⟨fun h => hnot h.hash, e, rfl⟩
    · simp only [bind, Except.bind, hr]
      exact .inr ⟨fun h => hnot h.number, e, rfl⟩
  · rw [herr]
    exact .inr ⟨fun h => hnot h.covers, e, rfl⟩

/-! ## What a transition keeps -/

/-- It raises and leaves the engine as it was, or moves no coins out of the accounts, leaves every balance a number
at or above zero and raises each nonce by the transactions sent. -/
def Settles (block : EngineBlock) (engine : StateEngine) : Prop :=
  match transition host block engine with
  | (.error _, after) => after = engine
  | (.ok state, after) => after.state = some state ∧ ∃ old, engine.state = some old ∧
    state.accounts.total = old.accounts.total ∧ (∀ a, (state.accounts.balance a).Solvent) ∧
    ∀ a, state.accounts.nonce a = old.accounts.nonce a + sentBy a block.transactionList

def Solvent (engine : StateEngine) : Prop := ∀ state, engine.state = some state → ∀ a, (state.accounts.balance a).Solvent

/-- The sums are finite, their roundings cancel out, and each account that a transaction gives a negative sum can
pay for it in the end. -/
structure Backed (block : EngineBlock) (b : Balances) : Prop where
  finite : ∀ tx ∈ block.transactionList, tx.units.real.isSome = true
  cancels : b.strayed block.transactionList = 0
  pays : ∀ tx ∈ block.transactionList, tx.units.value < 0 → 0 ≤ (b.after block.transactionList tx.recipient).value

theorem settles_iff {block : EngineBlock} {engine : StateEngine} (h : engine.Solvent) :
    engine.Settles host block ↔
      ∀ state, engine.state = some state → Accepts block state.accounts → Backed block state.accounts.balance := by
  unfold Settles transition
  cases hstate : engine.state with
  | none => exact iff_of_true rfl fun _ hs => nomatch hs
  | some old =>
    dsimp only
    rcases newState_cases host block old.accounts with ⟨haccepts, state, hok, heffect⟩ | ⟨hnot, e, herr⟩
    · rw [hok]
      constructor
      · rintro ⟨-, _, hold, htotal, hsolvent, -⟩ _ hs -
        cases hs
        cases hold
        rw [heffect.balance] at hsolvent
        rw [heffect.total] at htotal
        have hafter := fun a => (hsolvent a).choose_spec
        refine ⟨(@Balances.finite_of_after old.accounts.balance _ fun a => ?_).2, by linarith, ?_⟩
        · rw [(hafter a).1]
          rfl
        · intro tx _ _
          rw [Number.value_eq (hafter tx.recipient).1]
          exact (hafter tx.recipient).2
      · intro hbacked
        obtain ⟨hfinite, hcancels, hpays⟩ := hbacked old rfl haccepts
        refine ⟨rfl, old, rfl, ?_, ?_, heffect.nonce⟩
        · rw [heffect.total, hcancels, add_zero]
        intro a
        rw [heffect.balance]
        by_cases hreceives : ∀ tx ∈ block.transactionList, tx.recipient = a → 0 ≤ tx.units.value
        · exact Balances.solvent_after haccepts.covers hfinite hreceives (h old hstate a)
        · push Not at hreceives
          obtain ⟨tx, htx, hto, hneg⟩ := hreceives
          have hend := hpays tx htx hneg
          rw [hto] at hend
          have hnumbers : ∀ a, (old.accounts.balance a).real.isSome = true := by
            intro a
            obtain ⟨q, hq, -⟩ := h old hstate a
            rw [hq]
            rfl
          obtain ⟨q, hq⟩ := Option.isSome_iff_exists.mp (Balances.finite_after hnumbers hfinite a)
          rw [Number.value_eq hq] at hend
          exact ⟨q, hq, hend⟩
    · rw [herr]
      refine iff_of_true rfl ?_
      intro _ hs haccepts
      cases hs
      exact absurd haccepts hnot

/-- Settling is being backed. Where no sum is rounded that is read off the initial balances. -/
theorem settles_iff_backed (host : Host) (block : EngineBlock) {engine : StateEngine} (h : engine.Solvent) :
    (engine.Settles host block ↔
      ∀ state, engine.state = some state → Accepts block state.accounts → Backed block state.accounts.balance) ∧
    ∀ state, engine.state = some state →
      (Balances.Whole state.accounts.balance block.transactionList ∨
        ∃ e, Balances.Gridded e state.accounts.balance block.transactionList) →
      (Backed block state.accounts.balance ↔ ∀ tx ∈ block.transactionList, tx.units.value < 0 →
        0 ≤ (state.accounts.balance tx.recipient).value + netOf tx.recipient block.transactionList) := by
  refine ⟨settles_iff host h, ?_⟩
  intro state _ hplain
  have hexact : state.accounts.balance.Exact block.transactionList := by
    rcases hplain with hwhole | ⟨e, hgrid⟩
    · exact hwhole.exact
    · exact hgrid.exact
  constructor
  · intro hbacked tx htx hneg
    rw [← hexact.value_after]
    exact hbacked.pays tx htx hneg
  · intro hpays
    refine ⟨hexact.finite, hexact.strayed, ?_⟩
    intro tx htx hneg
    rw [hexact.value_after]
    exact hpays tx htx hneg

/-! ### A negative amount -/

def demand (amount : Int) : EngineBlock :=
  let tx : EngineTransaction :=
    { from' := some (some "bob"), fromAddr := none, to' := some (some "alice"), toAddr := none, amount := some (some (.int amount)),
      value := none, nonce := none }
  { number := some 1, hash := some "h", parentHash := some "g", timestamp := some 2, transactions := some [tx] }

def aliceAccounts (balance : Int) : Accounts := [(some "alice", { AccountState.new with balance := .int balance })]

def aliceEngine (balance : Int) : StateEngine :=
  { state := some
      { accounts := aliceAccounts balance, blockNumber := 0, blockHash := "g", parentHash := "", stateRoot := "", timestamp := 1 } }

theorem balance_alice (balance : Int) (a : AccountKey) :
    (aliceAccounts balance).balance a = .int (if a = some "alice" then balance else 0) := by
  unfold Accounts.balance account aliceAccounts
  rw [Dict.get?_cons]
  split
  · rfl
  · rfl

theorem aliceEngine_solvent {balance : Int} (h : 0 ≤ balance) : (aliceEngine balance).Solvent := by
  intro state hs a
  cases hs
  show ((aliceAccounts balance).balance a).Solvent
  rw [balance_alice]
  refine ⟨_, rfl, ?_⟩
  split
  · exact_mod_cast h
  · exact le_refl _

theorem settles_backed : (aliceEngine 10).Solvent ∧ (aliceEngine 10).Settles .plain (demand (-5)) := by
  have hsolvent := @aliceEngine_solvent 10 (by decide)
  have hboth := settles_iff_backed .plain (demand (-5)) hsolvent
  refine ⟨hsolvent, hboth.1.mpr ?_⟩
  intro state hs _
  refine (hboth.2 state hs (.inl ⟨?_, ?_⟩)).mpr ?_
  · intro a
    cases hs
    exact ⟨_, balance_alice 10 a⟩
  · intro tx htx
    cases List.mem_singleton.mp htx
    exact ⟨-5, rfl⟩
  · intro tx htx _
    cases List.mem_singleton.mp htx
    cases hs
    decide +kernel

theorem demand_accepted (balance : Int) : Accepts (demand (-5)) (aliceAccounts balance) where
  covers := by
    refine ⟨⟨rfl, ?_, fun _ h => nomatch h⟩, trivial⟩
    show Number.below ((aliceAccounts balance).balance (some "bob")) _ = false
    rw [balance_alice, if_neg (by decide)]
    decide +kernel
  number := rfl
  hash := rfl
  parentHash := rfl
  timestamp := rfl
  sortable := by
    intro h
    simp [demand, aliceAccounts, EngineBlock.transactionList, EngineTransaction.sender, EngineTransaction.recipient] at h

/-- A negative amount takes its sum from the recipient. -/
theorem demand_overdraws : (aliceEngine 0).Solvent ∧ ¬ (aliceEngine 0).Settles .plain (demand (-5)) := by
  have hsolvent := @aliceEngine_solvent 0 (le_refl _)
  refine ⟨hsolvent, fun h => ?_⟩
  have hbacked := (settles_iff .plain hsolvent).mp h _ rfl (demand_accepted 0)
  have hpays := hbacked.pays _ List.mem_cons_self (by decide +kernel)
  revert hpays
  decide +kernel

end StateEngine

end AbsoluteChain
