import AbsoluteChain.Debits
import AbsoluteChain.Doubles
import AbsoluteChain.Reverts

/-!
# Coins moved by contract code

Calls, creations, self-destructions and the entry points move coins with clamping
updates and by saving whole accounts. What each of them creates or loses is a function
of the balances it finds, and the sum over a call tree is the change of the supply. The
sums are exact; where none of them needs rounding, the doubles of the database follow them.
-/

namespace AbsoluteChain

open Python Actions Act Transactions KeyedTable Runs

/-! ## Supply and the statements of the adapter -/

namespace Tables

theorem supply_saveAccount (a : String) (x : Account) (t : Tables) :
    (t.saveAccount a x).getTotalSupply = t.getTotalSupply + (x.balance - t.getBalance a) := by
  unfold getTotalSupply saveAccount getBalance getAccount
  simp only [Table.sum_put]
  cases t.accounts.get? a with
  | none =>
    simp only [Option.elim_none, Option.map_none, Option.getD_none]
    ring
  | some y =>
    simp only [Option.elim_some, Option.map_some, Option.getD_some]
    ring

theorem supply_updateAccountStorage (a : String) (s : Storage) (t : Tables) :
    (t.updateAccountStorage a s).getTotalSupply = t.getTotalSupply := by
  unfold getTotalSupply updateAccountStorage Table.update
  cases h : t.accounts.get? a with
  | none => rfl
  | some y =>
    simp only [Table.sum_put, h, Option.elim_some]
    ring

structure SameCoins (t u : Tables) : Prop where
  balance : ∀ a, u.getBalance a = t.getBalance a
  supply : u.getTotalSupply = t.getTotalSupply

namespace SameCoins

variable {t u v : Tables}

theorem refl (t : Tables) : SameCoins t t := ⟨fun _ => rfl, rfl⟩

theorem symm (h : SameCoins t u) : SameCoins u t := ⟨fun a => (h.balance a).symm, h.supply.symm⟩

theorem trans (h : SameCoins t u) (k : SameCoins u v) : SameCoins t v :=
  ⟨fun a => (k.balance a).trans (h.balance a), k.supply.trans h.supply⟩

theorem of_accounts (h : u.accounts = t.accounts) : SameCoins t u := ⟨balance_congr h, supply_congr h⟩

theorem updateAccountStorage (a : String) (s : Storage) (t : Tables) : SameCoins t (t.updateAccountStorage a s) :=
  ⟨fun b => balance_updateAccountStorage a b s t, supply_updateAccountStorage a s t⟩

theorem applyBalanceDelta (h : SameCoins t u) (a : String) (delta : ℚ) :
    SameCoins (t.applyBalanceDelta a delta) (u.applyBalanceDelta a delta) := by
  constructor
  · intro b
    rw [balance_applyBalanceDelta, balance_applyBalanceDelta, h.balance, h.balance]
  · rw [supply_applyBalanceDelta, supply_applyBalanceDelta, h.supply, Tables.clipped, Tables.clipped, h.balance]

theorem saveAccount (h : SameCoins t u) (a : String) (x : Account) : SameCoins (t.saveAccount a x) (u.saveAccount a x) := by
  constructor
  · intro b
    rw [balance_saveAccount, balance_saveAccount, h.balance]
  · rw [supply_saveAccount, supply_saveAccount, h.supply, h.balance]

/-- A write of the database whose sum needs no rounding. -/
theorem applyRealDelta {real : ℚ → ℚ} (h : SameCoins t u) (a : String) {delta : ℚ}
    (hexact : real (t.getBalance a + delta) = t.getBalance a + delta) :
    SameCoins (t.applyBalanceDelta a delta) (u.applyRealDelta real a delta) := by
  have hgain : u.gained real a delta = max 0 (t.getBalance a + delta) - t.getBalance a := by
    rw [← h.balance] at hexact ⊢
    exact gained_unrounded hexact
  constructor
  · intro b
    rw [balance_applyRealDelta, balance_applyBalanceDelta, hgain, h.balance]
    by_cases hb : b = a
    · rw [if_pos hb, if_pos hb, hb]
      ring
    · rw [if_neg hb, if_neg hb, add_zero]
  · rw [supply_applyRealDelta, supply_applyBalanceDelta, hgain, h.supply, Tables.clipped, max_eq_add]
    ring

end SameCoins

end Tables

/-! ## Movements -/

/-- How a hook or an entry point moves coins. -/
inductive Movement where
  | stay
  | pay (payer payee : String) (value : ℚ)
  /-- A contract is saved with the value in it and is then paid the value. -/
  | endow (payer created : String) (opened : Account)
  | destroy (contract beneficiary : String) (left : Account)

structure Debit where
  tables : Tables
  account : String
  amount : ℚ

/-- The account holds what is taken from it. -/
def Debit.Covered (d : Debit) : Prop := d.amount ≤ d.tables.getBalance d.account

def Debit.Exact (d : Debit) : Prop :=
  (d.tables.applyBalanceDelta d.account (-d.amount)).getBalance d.account = d.tables.getBalance d.account - d.amount

namespace Movement

def payApply (payer payee : String) (value : ℚ) (t : Tables) : Tables :=
  if 0 < value then (t.applyBalanceDelta payer (-value)).applyBalanceDelta payee value else t

def apply (t : Tables) : Movement → Tables
  | stay => t
  | pay payer payee value => payApply payer payee value t
  | endow payer created opened => payApply payer created opened.balance (t.saveAccount created opened)
  | destroy contract beneficiary left =>
    let balance := t.getBalance contract
    let paid := if 0 < balance then
        (t.applyBalanceDelta beneficiary balance).applyBalanceDelta contract (-balance)
      else t
    paid.saveAccount contract left

def debits (t : Tables) : Movement → List Debit
  | stay => []
  | pay payer _ value => if 0 < value then [⟨t, payer, value⟩] else []
  | endow payer created opened =>
    if 0 < opened.balance then [⟨t.saveAccount created opened, payer, opened.balance⟩] else []
  | destroy contract beneficiary _ =>
    let balance := t.getBalance contract
    if 0 < balance then [⟨t.applyBalanceDelta beneficiary balance, contract, balance⟩] else []

def created (t : Tables) : Movement → ℚ
  | stay => 0
  | pay payer payee value => if 0 < value then (t.applyBalanceDelta payer (-value)).clipped payee value else 0
  | endow _ created opened => opened.balance - t.getBalance created
  | destroy contract beneficiary left =>
    let balance := t.getBalance contract
    if 0 < balance ∧ contract ≠ beneficiary then left.balance + t.clipped beneficiary balance
    else left.balance - balance

theorem supply_payApply {payer payee : String} {value : ℚ} {t : Tables}
    (hc : 0 < value → value ≤ t.getBalance payer) :
    (payApply payer payee value t).getTotalSupply = t.getTotalSupply +
      if 0 < value then (t.applyBalanceDelta payer (-value)).clipped payee value else 0 := by
  unfold payApply
  by_cases hv : 0 < value
  · have hdebit : t.clipped payer (-value) = 0 := Tables.clipped_eq_zero (by linarith [hc hv])
    simp only [if_pos hv, Tables.supply_applyBalanceDelta, hdebit]
    ring
  · simp only [if_neg hv, add_zero]

theorem clipped_endowed {payer created : String} {opened : Account} {t : Tables} (hv : 0 < opened.balance) :
    ((t.saveAccount created opened).applyBalanceDelta payer (-opened.balance)).clipped created opened.balance = 0 := by
  apply Tables.clipped_eq_zero
  rw [Tables.balance_applyBalanceDelta]
  by_cases hp : created = payer
  · rw [if_pos hp]
    have := le_max_left (0 : ℚ) ((t.saveAccount created opened).getBalance payer + -opened.balance)
    linarith
  · rw [if_neg hp, Tables.balance_saveAccount, if_pos rfl]
    linarith

theorem supply_apply {m : Movement} {t : Tables} (hc : ∀ d ∈ m.debits t, d.Covered) :
    (m.apply t).getTotalSupply = t.getTotalSupply + m.created t := by
  cases m with
  | stay => exact (add_zero _).symm
  | pay payer payee value =>
    apply supply_payApply
    intro hv
    exact hc ⟨t, payer, value⟩ (by simp [debits, hv])
  | endow payer created opened =>
    have hcovered : 0 < opened.balance → opened.balance ≤ (t.saveAccount created opened).getBalance payer := by
      intro hv
      exact hc ⟨t.saveAccount created opened, payer, opened.balance⟩ (by simp [debits, hv])
    have hpaid := @supply_payApply payer created opened.balance _ hcovered
    have hclip : (if 0 < opened.balance then
        ((t.saveAccount created opened).applyBalanceDelta payer (-opened.balance)).clipped created opened.balance
        else 0) = 0 := by
      by_cases hv : 0 < opened.balance
      · rw [if_pos hv, clipped_endowed hv]
      · rw [if_neg hv]
    unfold apply Movement.created
    rw [hpaid, hclip, Tables.supply_saveAccount, add_zero]
  | destroy contract beneficiary left =>
    unfold apply Movement.created
    by_cases hb : 0 < t.getBalance contract
    · by_cases hne : contract = beneficiary
      · subst hne
        have hcredit : t.clipped contract (t.getBalance contract) = 0 := Tables.clipped_eq_zero (by linarith)
        have hafter : (t.applyBalanceDelta contract (t.getBalance contract)).getBalance contract =
            t.getBalance contract + t.getBalance contract := by
          rw [Tables.balance_applyBalanceDelta, if_pos rfl, max_eq_right (by linarith)]
        have hdebit : (t.applyBalanceDelta contract (t.getBalance contract)).clipped contract
            (-t.getBalance contract) = 0 := Tables.clipped_eq_zero (by rw [hafter]; linarith)
        simp only [if_pos hb, ne_eq, not_true, and_false, if_false, Tables.supply_saveAccount,
          Tables.supply_applyBalanceDelta, hcredit, hdebit, Tables.balance_applyBalanceDelta, if_true]
        rw [max_eq_right (a := (0 : ℚ)) (b := t.getBalance contract + t.getBalance contract) (by linarith),
          max_eq_right (by linarith)]
        ring
      · have hafter : (t.applyBalanceDelta beneficiary (t.getBalance contract)).getBalance contract =
            t.getBalance contract := by
          rw [Tables.balance_applyBalanceDelta, if_neg hne]
        have hdebit : (t.applyBalanceDelta beneficiary (t.getBalance contract)).clipped contract
            (-t.getBalance contract) = 0 := Tables.clipped_eq_zero (by rw [hafter]; linarith)
        have hempty : ((t.applyBalanceDelta beneficiary (t.getBalance contract)).applyBalanceDelta contract
            (-t.getBalance contract)).getBalance contract = 0 := by
          rw [Tables.balance_applyBalanceDelta, if_pos rfl, hafter, add_neg_cancel, max_self]
        simp only [if_pos hb, if_pos (And.intro hb hne), Tables.supply_saveAccount, hempty,
          Tables.supply_applyBalanceDelta, hdebit]
        ring
    · simp only [if_neg hb, if_neg fun h : 0 < t.getBalance contract ∧ contract ≠ beneficiary => hb h.1,
        Tables.supply_saveAccount]

end Movement

namespace EvmAdapter

variable {e : EvmAdapter}

/-! ## Statements of the adapter -/

theorem live_moveValue (payer payee : String) (value : ℚ) (db : Db) :
    (moveValue payer payee value db).2.live = Movement.payApply payer payee value db.live := by
  unfold moveValue Movement.payApply Act.when
  by_cases hv : 0 < value
  · simp only [if_pos hv]
    rfl
  · simp only [if_neg hv]
    rfl

theorem accounts_persistLogs (a : String) (logs : List EvmLog) (db : Db) :
    (e.persistLogs a logs db).2.live.accounts = db.live.accounts := by
  unfold persistLogs saveEvmLogs
  simp only [bind_run, query_run]
  by_cases hl : logs = []
  · rw [if_pos hl]
    rfl
  · rw [if_neg hl]
    rfl

open Tables (SameCoins)

theorem SameCoins.payApply {t u : Tables} (h : SameCoins t u) (payer payee : String) (value : ℚ) :
    SameCoins (Movement.payApply payer payee value t) (Movement.payApply payer payee value u) := by
  unfold Movement.payApply
  by_cases hv : 0 < value
  · rw [if_pos hv, if_pos hv]
    exact (h.applyBalanceDelta payer (-value)).applyBalanceDelta payee value
  · rw [if_neg hv, if_neg hv]
    exact h

/-! ## What hooks and entry points move -/

def callMovement (e : EvmAdapter) (ctx : EvmContext) (a : CallArgs) (m : Machine) : Movement :=
  if a.static ∨ m.reverted ∨ (a.delegate ∧ ¬ a.callcode) then .stay
  else .pay ctx.address (e.normalizeAddr a.target) (weiToAbs (callValue a))

def createMovement (ctx : EvmContext) (initCode : Bytes) (value : Nat) (salt : Option Nat) (m : Machine) : Movement :=
  if m.reverted then .stay
  else
    let code := if m.returnData = [] then hexOfBytes initCode else hexOfBytes m.returnData
    .endow (createDeployer ctx) (createdAt ctx initCode salt)
      { balance := weiToAbs value, nonce := 0, code := some code, storage := some m.storage }

def Node.movement (e : EvmAdapter) (x : Node) : Movement :=
  match x.site.hook, e.calleeResult x with
  | .call ctx a, some (.ok m) => e.callMovement ctx a m
  | .create ctx initCode value salt, some (.ok m) => createMovement ctx initCode value salt m
  | .selfDestruct ctx beneficiary, _ =>
    let contract := e.normalizeAddr ctx.address
    .destroy contract (e.normalizeAddr beneficiary)
      { balance := 0, nonce := (((e.inner x).live.getAccount contract).map Account.nonce).getD 0, code := some "",
        storage := some [] }
  | _, _ => .stay

def Entry.moves (m : Machine) : Entry → Movement
  | .call caller contractAddr _ value _ => if m.reverted then .stay else .pay caller contractAddr value
  | .deploy deployer bytecodeHex value _ salt =>
    if m.reverted then .stay
    else .endow deployer (createdAddress (deployer ++ salt))
      { balance := value, nonce := 0, code := some bytecodeHex, storage := some m.storage }

def Entry.movement (e : EvmAdapter) (db : Db) (entry : Entry) : Movement :=
  match entry.frame e db.live with
  | .error _ => .stay
  | .ok fr =>
    match (Entry.ran e db fr).1 with
    | .error _ => .stay
    | .ok m => entry.moves m

/-- A payment made once the storage of the callee is stored. -/
theorem coins_paid (a : String) (storage : Storage) (payer payee : String) (value : ℚ) (db : Db) :
    SameCoins (Movement.payApply payer payee value db.live)
      (moveValue payer payee value (updateAccountStorage a storage db).2).2.live := by
  rw [live_moveValue]
  exact SameCoins.payApply (SameCoins.updateAccountStorage a storage db.live) payer payee value

theorem coins_concludeCall (ctx : EvmContext) (a : CallArgs) (m : Machine) (db : Db) :
    SameCoins ((e.callMovement ctx a m).apply db.live) (e.concludeCall ctx a m db).2.live := by
  unfold concludeCall callMovement
  by_cases hs : a.static = true
  · rw [if_pos hs, if_pos (Or.inl hs)]
    exact .refl _
  rw [if_neg hs]
  by_cases hc : (a.delegate || a.callcode) = true
  · rw [if_pos hc, (returns_updateAccountStorage _ _).run, (returns_when (returns_moveValue _ _ _)).run]
    refine SameCoins.trans ?_ (.of_accounts (accounts_persistLogs ctx.address m.logs _))
    by_cases hp : a.callcode = true ∧ ¬ m.reverted = true
    · have hpays : ¬ (a.static = true ∨ m.reverted = true ∨ (a.delegate = true ∧ ¬ a.callcode = true)) := by
        rintro (h | h | h)
        · exact hs h
        · exact hp.2 h
        · exact h.2 hp.1
      rw [if_neg hpays, Act.when, if_pos hp]
      exact coins_paid _ _ _ _ _ _
    · have hstays : a.static = true ∨ m.reverted = true ∨ (a.delegate = true ∧ ¬ a.callcode = true) := by
        rw [Bool.or_eq_true] at hc
        by_cases hr : m.reverted = true
        · exact .inr (.inl hr)
        · have hcall : ¬ a.callcode = true := fun h => hp ⟨h, hr⟩
          exact .inr (.inr ⟨hc.resolve_right hcall, hcall⟩)
      rw [if_pos hstays, Act.when, if_neg hp]
      exact SameCoins.updateAccountStorage _ _ _
  · rw [if_neg hc]
    rw [Bool.or_eq_true, not_or] at hc
    by_cases hr : m.reverted = true
    · rw [if_pos hr, if_pos (Or.inr (Or.inl hr))]
      exact .refl _
    · have hpays : ¬ (a.static = true ∨ m.reverted = true ∨ (a.delegate = true ∧ ¬ a.callcode = true)) := by
        rintro (h | h | h)
        · exact hs h
        · exact hr h
        · exact hc.1 h.1
      rw [if_neg hr, if_neg hpays, (returns_updateAccountStorage _ _).run, if_neg hc.1]
      exact coins_paid _ _ _ _ _ _

theorem live_concludeCreate (ctx : EvmContext) (initCode : Bytes) (value : Nat) (salt : Option Nat) (m : Machine) (db : Db) :
    (concludeCreate ctx initCode value salt m db).2.live = (createMovement ctx initCode value salt m).apply db.live := by
  unfold concludeCreate createMovement
  by_cases hr : m.reverted = true
  · rw [if_pos hr, if_pos hr]
    rfl
  · rw [if_neg hr, if_neg hr, (returns_saveAccount _ _).run, live_moveValue]
    rfl

theorem live_selfDestruct (contract beneficiary : String) (db : Db) :
    (e.selfDestructContract contract beneficiary db).2.live =
      (Movement.destroy (e.normalizeAddr contract) (e.normalizeAddr beneficiary)
        { balance := 0, nonce := ((db.live.getAccount (e.normalizeAddr contract)).map Account.nonce).getD 0,
          code := some "", storage := some [] }).apply db.live := by
  unfold selfDestructContract Movement.apply Act.when Tables.getBalance
  simp only [bind_run, query_run]
  by_cases hb : 0 < ((db.live.getAccount (e.normalizeAddr contract)).map Account.balance).getD 0
  · simp only [if_pos hb]
    rfl
  · simp only [if_neg hb]
    rfl

theorem coins_outer (x : Node) : SameCoins ((x.movement e).apply (e.inner x).live) (e.outer x).live := by
  rw [outer_eq]
  unfold ownWrites Node.movement
  cases x.site.hook with
  | selfDestruct ctx beneficiary =>
    simp only [live_selfDestruct]
    exact .refl _
  | call ctx a =>
    rcases e.calleeResult x with _ | f | m
    · exact .refl _
    · exact .refl _
    · exact coins_concludeCall ctx a m (e.inner x)
  | create ctx initCode value salt =>
    rcases e.calleeResult x with _ | f | m
    · exact .refl _
    · exact .refl _
    · simp only [live_concludeCreate]
      exact .refl _

theorem coins_conclude (entry : Entry) (m : Machine) (db : Db) :
    SameCoins ((entry.moves m).apply db.live) (entry.conclude e m db).2.live := by
  cases entry with
  | call caller contractAddr calldataHex value gasLimit =>
    unfold Entry.moves Entry.conclude
    dsimp only
    by_cases hr : m.reverted = true
    · rw [if_pos hr, if_pos hr]
      exact .refl _
    · rw [if_neg hr, if_neg hr, (returns_updateAccountStorage _ _).run, (returns_persistLogs _ _).run, live_moveValue]
      apply SameCoins.payApply
      exact (SameCoins.updateAccountStorage contractAddr m.storage db.live).trans
        (.of_accounts (accounts_persistLogs contractAddr m.logs _))
  | deploy deployer bytecodeHex value gasLimit salt =>
    unfold Entry.moves Entry.conclude
    dsimp only
    by_cases hr : m.reverted = true
    · rw [if_pos hr, if_pos hr]
      exact .refl _
    · rw [if_neg hr, if_neg hr, (returns_saveAccount _ _).run, (returns_persistLogs _ _).run, live_moveValue]
      apply SameCoins.payApply
      exact .of_accounts (accounts_persistLogs _ m.logs _)

theorem Entry.coins_run (entry : Entry) (db : Db) :
    SameCoins ((entry.movement e db).apply (entry.inner e db).live) (entry.run e db).2.live := by
  rw [Entry.run_eq]
  unfold Entry.movement Entry.inner
  cases entry.frame e db.live with
  | error err => exact .refl _
  | ok fr =>
    dsimp only
    rcases Entry.ran e db fr with ⟨f | m, db₁⟩
    · exact .refl _
    · exact coins_conclude entry m db₁

/-! ## Movements in double precision -/

end EvmAdapter

namespace Movement

open Tables (SameCoins)

variable (real : ℚ → ℚ)

end Movement

namespace EvmAdapter

open Tables (SameCoins)

variable {e : EvmAdapter}

/-! ## Conservation -/

def Entry.movements (e : EvmAdapter) (db : Db) (entry : Entry) : List (Tables × Movement) :=
  (entry.forest e db).map (fun x => ((e.inner x).live, x.movement e)) ++ [((entry.inner e db).live, entry.movement e db)]

def Entry.debits (e : EvmAdapter) (db : Db) (entry : Entry) : List Debit :=
  (entry.movements e db).flatMap fun p => p.2.debits p.1

def Entry.minted (e : EvmAdapter) (db : Db) (entry : Entry) : ℚ :=
  ((entry.movements e db).map fun p => p.2.created p.1).sum

theorem Entry.supply_run (entry : Entry) (db : Db) (hc : ∀ d ∈ entry.debits e db, d.Covered) :
    (entry.run e db).2.live.getTotalSupply = db.live.getTotalSupply + entry.minted e db := by
  have hmoved : ∀ p ∈ entry.movements e db, (p.2.apply p.1).getTotalSupply = p.1.getTotalSupply + p.2.created p.1 :=
    fun p hp => Movement.supply_apply fun d hd => hc d (List.mem_flatMap.mpr ⟨p, hp, hd⟩)
  have hbelow := path_sum (q := fun db : Db => db.live.getTotalSupply)
    (d := fun x : Node => (x.movement e).created (e.inner x).live) (entry.forest_path (e := e) db) (by
      intro x hx
      rw [(coins_outer x).supply]
      exact hmoved _ (List.mem_append_left _ (List.mem_map_of_mem hx)))
  have hown := hmoved _ (List.mem_append_right _ (List.mem_singleton_self _))
  rw [(entry.coins_run db).supply, hown, hbelow]
  unfold Entry.minted Entry.movements
  rw [List.map_append, List.sum_append, List.map_map, add_assoc]
  simp only [List.map_cons, List.map_nil, List.sum_cons, List.sum_nil, add_zero]
  rfl

end EvmAdapter

end AbsoluteChain
