import AbsoluteChain.Supply

/-!
# Who pays

Which accounts a transaction can take from. Contract code moves the coins of the
account it runs under and of its caller, so an account that holds no code and signs
nothing only ever gains.
-/

namespace AbsoluteChain

open Python Actions Act Transactions KeyedTable

/-! ## Statements on one account -/

theorem Tables.balance_saveAccount (a b : String) (x : Account) (t : Tables) :
    (t.saveAccount a x).getBalance b = if b = a then x.balance else t.getBalance b := by
  unfold getBalance getAccount saveAccount
  simp only [Table.get_put]
  by_cases h : b = a
  · rw [if_pos h, if_pos h]
    rfl
  · rw [if_neg h, if_neg h]

theorem Tables.balance_updateAccountStorage (a b : String) (s : Storage) (t : Tables) :
    (t.updateAccountStorage a s).getBalance b = t.getBalance b := by
  unfold getBalance getAccount updateAccountStorage
  simp only [Table.get_update]
  by_cases h : b = a
  · rw [if_pos h, h]
    cases t.accounts.get? a with
    | none => rfl
    | some x => rfl
  · rw [if_neg h]

theorem codeOf_saveAccount (a b : String) (x : Account) (t : Tables) (h : b ≠ a) :
    EvmAdapter.codeOf (t.saveAccount a x) b = EvmAdapter.codeOf t b := by
  unfold EvmAdapter.codeOf Tables.getAccount Tables.saveAccount
  simp only [Table.get_put, if_neg h]

theorem codeOf_updateAccountStorage (a b : String) (s : Storage) (t : Tables) :
    EvmAdapter.codeOf (t.updateAccountStorage a s) b = EvmAdapter.codeOf t b := by
  unfold EvmAdapter.codeOf Tables.getAccount Tables.updateAccountStorage
  simp only [Table.get_update]
  by_cases h : b = a
  · rw [if_pos h, h]
    cases t.accounts.get? a with
    | none => rfl
    | some x => rfl
  · rw [if_neg h]

theorem Tables.le_applyBalanceDelta {a b : String} {delta : ℚ} (h : b ≠ a ∨ 0 ≤ delta) (t : Tables) :
    t.getBalance b ≤ (t.applyBalanceDelta a delta).getBalance b := by
  rw [balance_applyBalanceDelta]
  by_cases hb : b = a
  · rw [if_pos hb, hb]
    have hd : 0 ≤ delta := h.resolve_left (not_not.mpr hb)
    exact le_trans (by linarith) (le_max_right _ _)
  · rw [if_neg hb]

/-! ## The frame -/

/-- Code may run under the address `x` without concerning `a`. -/
def Apart (e : EvmAdapter) (a x : String) : Prop := x ≠ a ∧ e.normalizeAddr x ≠ a

/-- No account that holds code is `a`, or taken for `a` by an instruction. -/
def NoContract (e : EvmAdapter) (a : String) (t : Tables) : Prop := ∀ x, EvmAdapter.codeOf t x ≠ none → Apart e a x

def unpaid (e : EvmAdapter) (a : String) : Frame Db where
  rel db db' := NoContract e a db.live → NoContract e a db'.live ∧ db.live.getBalance a ≤ db'.live.getBalance a
  refl _ h := ⟨h, le_refl _⟩
  trans h₁ h₂ h := ⟨(h₂ (h₁ h).1).1, (h₁ h).2.trans (h₂ (h₁ h).1).2⟩

/-- A context whose code takes nothing from `a`. -/
structure Clear (e : EvmAdapter) (a : String) (ctx : EvmContext) : Prop where
  address : Apart e a ctx.address
  caller : ctx.caller ≠ a

section statements
variable {e : EvmAdapter} {a : String}

theorem NoContract.congr {t u : Tables} (h : NoContract e a t)
    (hc : ∀ x, EvmAdapter.codeOf u x = EvmAdapter.codeOf t x) : NoContract e a u := by
  intro x hx
  rw [hc] at hx
  exact h x hx

theorem unpaid_updateBalance {x : String} {delta : ℚ} (h : x ≠ a ∨ 0 ≤ delta) :
    Keeps (unpaid e a) (updateBalance x delta) :=
  keeps_write fun db hn => ⟨hn.congr fun _ => Blockchain.codeOf_applyBalanceDelta _ _ _ _,
    Tables.le_applyBalanceDelta (h.imp_left Ne.symm) db.live⟩

theorem unpaid_updateAccountStorage (x : String) (s : Storage) : Keeps (unpaid e a) (updateAccountStorage x s) :=
  keeps_write fun db hn => ⟨hn.congr fun _ => codeOf_updateAccountStorage _ _ _ _,
    le_of_eq (Tables.balance_updateAccountStorage _ _ _ db.live).symm⟩

theorem unpaid_persistLogs (x : String) (l : List EvmLog) : Keeps (unpaid e a) (e.persistLogs x l) := by
  unfold EvmAdapter.persistLogs saveEvmLogs
  refine keeps_bind (keeps_query _) fun tip => keeps_ite (fun _ => keeps_pure _) fun _ => ?_
  exact keeps_write fun db hn => ⟨hn, le_refl _⟩

theorem noContract_saveAccount {x : String} {acc : Account} (hx : Apart e a x ∨ acc.code = some "") {t : Tables}
    (h : NoContract e a t) : NoContract e a (t.saveAccount x acc) := by
  intro y hy
  by_cases hyx : y = x
  · rw [hyx] at hy ⊢
    refine hx.resolve_right fun hcode => hy ?_
    simp [EvmAdapter.codeOf, Tables.getAccount, Tables.saveAccount, hcode]
  · rw [codeOf_saveAccount _ _ _ _ hyx] at hy
    exact h y hy

theorem unpaid_saveAccount {x : String} (hx : Apart e a x) (acc : Account) : Keeps (unpaid e a) (saveAccount x acc) := by
  refine keeps_write fun db hn => ⟨noContract_saveAccount (.inl hx) hn, ?_⟩
  rw [Store.live_write, Tables.balance_saveAccount, if_neg hx.1.symm]

theorem unpaid_moveValue {source target : String} (value : ℚ) (h : source ≠ a) :
    Keeps (unpaid e a) (EvmAdapter.moveValue source target value) := by
  unfold EvmAdapter.moveValue
  exact keeps_when fun hv => keeps_bind (unpaid_updateBalance (.inl h)) fun _ => unpaid_updateBalance (.inr (le_of_lt hv))

/-- Self-destruction pays out the account it runs under and leaves no code there. -/
theorem unpaid_selfDestruct {x : String} (hx : e.normalizeAddr x ≠ a) (beneficiary : String) :
    Keeps (unpaid e a) (e.selfDestructContract x beneficiary) := by
  unfold EvmAdapter.selfDestructContract
  refine keeps_bind (keeps_query _) fun account => keeps_bind (keeps_when fun hb => ?_) fun _ => ?_
  · exact keeps_bind (unpaid_updateBalance (.inr (le_of_lt hb))) fun _ => unpaid_updateBalance (.inl hx)
  · refine keeps_write fun db hn => ⟨noContract_saveAccount (.inr rfl) hn, ?_⟩
    rw [Store.live_write, Tables.balance_saveAccount, if_neg hx.symm]

/-- The frame says nothing of a state where `a` is a contract. -/
theorem unpaid_of_noContract {db db' : Db} (h : NoContract e a db.live → (unpaid e a).rel db db') :
    (unpaid e a).rel db db' := fun hn => h hn hn

end statements

def codeless (e : EvmAdapter) (a : String) : Frame Db where
  rel db db' := NoContract e a db.live → NoContract e a db'.live
  refl _ h := h
  trans h₁ h₂ h := h₂ (h₁ h)

/-! ## Transactions -/

namespace Blockchain

variable {c : Blockchain} {now : Int} {a : String}

theorem le_settleTables (hs : c.config.Sound) {fee : ℚ} (hf : 0 ≤ fee) (tx : Transaction) (proposer : String) (t : Tables) :
    t.getBalance a ≤ (c.settleTables tx proposer (c.charge fee) t).getBalance a := by
  have hminer := Tables.le_applyBalanceDelta (a := proposer) (b := a) (.inr (minerFee_nonneg hs hf)) t
  unfold settleTables
  by_cases hb : 0 < (c.charge fee).burned ∧ c.config.burnAddress ≠ ""
  · simp only [if_pos hb, Tables.balance_incrementNonce]
    exact hminer.trans (Tables.le_applyBalanceDelta (.inr (burned_nonneg hs hf)) _)
  · simp only [if_neg hb, Tables.balance_incrementNonce]
    exact hminer

theorem TxStep.nonce {height : Int} {proposer : String} {tx tx' : Transaction} {db db' : Db} (ha : tx.fromAddr ≠ a)
    (h : TxStep c now height proposer tx db tx' db') : db'.live.getNonce a ≤ db.live.getNonce a := by
  have hsettle : ∀ ch t, (c.settleTables tx (c.feeRecipient proposer) ch t).getNonce a = t.getNonce a := by
    intro ch t
    rw [nonce_settleTables, if_neg ha.symm]
  have hacc : ∀ {t u : Tables}, u.accounts = t.accounts → u.getNonce a = t.getNonce a := by
    intro t u h
    unfold Tables.getNonce Tables.getAccount
    rw [h]
  cases h with
  | transfer checks kind =>
    rw [hacc (accounts_recordPool _ _ _), Store.live_exec]
    unfold transferTables
    simp only [hsettle, Tables.nonce_applyBalanceDelta]
    exact le_refl _
  | @contract res db₁ checks kind run success funds =>
    have hrun : nonceFrame.rel db db₁ :=
      keeps_apply (keeps_runContract (fun _ => keeps_callContract (nonce_evmFrame _) _ _ _ _ _)
        (fun _ _ => keeps_deployContract (nonce_evmFrame _) _ _ _ _ _) _ _) run
    rw [hacc (accounts_recordPool _ _ _), Store.live_exec]
    unfold contractTables
    simp only [hsettle, Tables.nonce_applyBalanceDelta]
    rcases hrun a with h | h
    · exact le_of_eq h
    · rw [h]
      exact Nat.zero_le _

end Blockchain

end AbsoluteChain
