import AbsoluteChain.OwnBlocks

/-!
# Packing nonce runs

`_validate_tx_for_block` compares a nonce with the cursor and `validate_transaction` compares it
with the account. The cursor moves with the selected transactions and the account does not, so
of one sender's run the first transaction is selected and no other.
-/

namespace AbsoluteChain

open Python Transactions

namespace Blockchain

variable {c : Blockchain} {now : Int} {t : Tables} {s nodeVersion proposer : String} {txs run : List Transaction}

def charged (c : Blockchain) (t : Tables) (tx : Transaction) : Tables :=
  let cost := tx.value.toRat + c.gasFee tx.gas
  let paid := (t.applyBalanceDelta tx.fromAddr (-cost)).incrementNonce tx.fromAddr
  match c.poolSpending t tx.fromAddr cost with
  | none => paid
  | some locks => paid.setPoolLocks locks

def NonceRun (c : Blockchain) (s : String) : Tables → List Transaction → Prop
  | _, [] => True
  | t, tx :: rest => tx.fromAddr = s ∧ c.validateTransaction t tx = .ok () ∧ NonceRun c s (c.charged t tx) rest

theorem nonce_charged (t : Tables) (tx : Transaction) : (c.charged t tx).getNonce tx.fromAddr = t.getNonce tx.fromAddr + 1 := by
  have hpaid : ∀ delta, ((t.applyBalanceDelta tx.fromAddr delta).incrementNonce tx.fromAddr).getNonce tx.fromAddr =
      t.getNonce tx.fromAddr + 1 := by
    intro delta
    rw [Tables.nonce_incrementNonce, if_pos rfl, Tables.nonce_applyBalanceDelta]
  unfold charged
  dsimp only
  cases c.poolSpending t tx.fromAddr (tx.value.toRat + c.gasFee tx.gas) with
  | none => exact hpaid _
  | some locks => exact hpaid _

theorem nonce_valid {tx : Transaction} (h : c.validateTransaction t tx = .ok ()) : tx.nonce = t.getNonce tx.fromAddr :=
  (precheck_ok.mp (valid_prechecked h).2.2).1

theorem nonceRun_sender (h : c.NonceRun s t run) : ∀ tx ∈ run, tx.fromAddr = s := by
  induction run generalizing t with
  | nil => intro tx htx; cases htx
  | cons y rest ih =>
    intro tx htx
    cases htx with
    | head => exact h.1
    | tail _ htx => exact ih h.2.2 tx htx

/-- The nonces are consecutive and begin with the account's. -/
theorem nonceRun_nonces (h : c.NonceRun s t run) {i : Nat} {tx : Transaction} (hi : run[i]? = some tx) :
    tx.nonce = t.getNonce s + i := by
  induction run generalizing t i with
  | nil => cases hi
  | cons y rest ih =>
    obtain ⟨hs, hv, hrest⟩ := h
    cases i with
    | zero =>
      obtain rfl := Option.some.inj hi
      rw [nonce_valid hv, hs]
      simp
    | succ i =>
      have hnext := ih hrest hi
      have hone := @nonce_charged c t y
      rw [hs] at hone
      rw [hnext, hone]
      push_cast
      ring

/-! ## The selection loop -/

/-- The first valid transaction of a sender is selected, wherever the others stand. -/
theorem appliedTxs_keeps {cursor : Dict String Int} {tx : Transaction} (hvalid : c.validateTransaction t tx = .ok ())
    (hcursor : cursor.get? tx.fromAddr = none) (hmem : tx ∈ txs)
    (honly : ∀ y ∈ txs, y.fromAddr = tx.fromAddr → y.nonce = tx.nonce → y = tx) : tx ∈ c.appliedTxs t cursor txs := by
  induction txs generalizing cursor with
  | nil => cases hmem
  | cons y rest ih =>
    have hrest : ∀ z ∈ rest, z.fromAddr = tx.fromAddr → z.nonce = tx.nonce → z = tx :=
      fun z hz => honly z (List.mem_cons_of_mem y hz)
    by_cases hy : y = tx
    · have hchecked : c.validateTxForBlock t cursor y = .ok () := by
        rw [hy]
        simp only [validateTxForBlock, check_bind_ok, require_ok, decide_eq_true_eq, hcursor, Option.getD_none]
        exact ⟨nonce_valid hvalid, hvalid⟩
      unfold appliedTxs
      rw [hchecked, hy]
      exact List.mem_cons_self
    · have hlater : tx ∈ rest := (List.mem_cons.mp hmem).resolve_left fun h => hy h.symm
      unfold appliedTxs
      cases hv : c.validateTxForBlock t cursor y with
      | error e => exact ih hcursor hlater hrest
      | ok u =>
        have hyvalid := (validateTxForBlock_ok hv).2
        -- a selected transaction of the same sender would have the same nonce
        have hother : tx.fromAddr ≠ y.fromAddr := by
          intro hsame
          have hnonce : y.nonce = tx.nonce := by rw [nonce_valid hyvalid, nonce_valid hvalid, hsame]
          exact hy (honly y List.mem_cons_self hsame.symm hnonce)
        refine List.mem_cons_of_mem y (ih ?_ hlater hrest)
        rw [Dict.get?_set_of_ne _ hother]
        exact hcursor

theorem created_once (c : Blockchain) (now : Int) (t : Tables) (nodeVersion proposer : String) (txs : List Transaction)
    (s : String) : ((c.createBlock nodeVersion now txs proposer t).transactions.filter fun tx => tx.fromAddr = s).length ≤ 1 := by
  have hpairs := (@created_valid c now nodeVersion proposer txs t).2
  generalize (c.createBlock nodeVersion now txs proposer t).transactions = selected at hpairs ⊢
  have hown := hpairs.sublist (List.filter_sublist (p := fun tx => decide (tx.fromAddr = s)))
  have hsender : ∀ tx ∈ selected.filter fun tx => tx.fromAddr = s, tx.fromAddr = s :=
    fun tx htx => of_decide_eq_true (List.mem_filter.mp htx).2
  cases hfiltered : selected.filter fun tx => tx.fromAddr = s with
  | nil => simp
  | cons x rest =>
    cases rest with
    | nil => simp
    | cons y rest =>
      rw [hfiltered] at hown hsender
      have hne : x.fromAddr ≠ y.fromAddr := (List.pairwise_cons.mp hown).1 y List.mem_cons_self
      exact absurd ((hsender x (by simp)).trans (hsender y (by simp)).symm) hne

theorem created_run (c : Blockchain) (now : Int) (t : Tables) (nodeVersion proposer : String) (txs : List Transaction)
    (s : String) : c.NonceRun s t ((c.createBlock nodeVersion now txs proposer t).transactions.filter fun tx => tx.fromAddr = s) := by
  have hvalid := (@created_valid c now nodeVersion proposer txs t).1
  have honce := created_once c now t nodeVersion proposer txs s
  cases hfiltered : (c.createBlock nodeVersion now txs proposer t).transactions.filter fun tx => tx.fromAddr = s with
  | nil => trivial
  | cons x rest =>
    rw [hfiltered] at honce
    obtain rfl : rest = [] := List.length_eq_zero_iff.mp (by simpa using honce)
    have hx := List.mem_filter.mp (hfiltered ▸ List.mem_cons_self :
      x ∈ (c.createBlock nodeVersion now txs proposer t).transactions.filter fun tx => tx.fromAddr = s)
    exact ⟨of_decide_eq_true hx.2, hvalid x hx.1, trivial⟩

def pooledRun (t : Tables) (s : String) (n : Nat) (txs : List Transaction) : List Transaction :=
  txs.filter fun tx => tx.fromAddr = s ∧ t.getNonce s ≤ tx.nonce ∧ tx.nonce < t.getNonce s + n

/-- Of the pool's runs those of at most one transaction are packed, and what is packed of any sender is a
run. -/
theorem nonce_runs_packed (c : Blockchain) (now : Int) (t : Tables) (nodeVersion proposer : String) (txs : List Transaction) :
    (∀ s run, pooledRun t s run.length txs = run → c.NonceRun s t run →
      (run.Sublist (c.createBlock nodeVersion now txs proposer t).transactions ↔ run.length ≤ 1)) ∧
    ∀ s, c.NonceRun s t ((c.createBlock nodeVersion now txs proposer t).transactions.filter fun tx => tx.fromAddr = s) := by
  refine ⟨fun s run hpool hrun => ?_, created_run c now t nodeVersion proposer txs⟩
  constructor
  · intro hsub
    have hall : run.filter (fun tx => tx.fromAddr = s) = run :=
      List.filter_eq_self.mpr fun tx htx => decide_eq_true (nonceRun_sender hrun tx htx)
    calc run.length = (run.filter fun tx => tx.fromAddr = s).length := by rw [hall]
      _ ≤ ((c.createBlock nodeVersion now txs proposer t).transactions.filter fun tx => tx.fromAddr = s).length :=
        (hsub.filter _).length_le
      _ ≤ 1 := created_once c now t nodeVersion proposer txs s
  · intro hshort
    cases run with
    | nil => exact List.nil_sublist _
    | cons tx rest =>
      obtain rfl : rest = [] := List.length_eq_zero_iff.mp (by simpa using hshort)
      obtain ⟨rfl, hvalid, -⟩ := hrun
      have hin : ∀ y, y ∈ pooledRun t tx.fromAddr 1 txs ↔ y = tx := by
        intro y
        have hpool' : pooledRun t tx.fromAddr 1 txs = [tx] := hpool
        rw [hpool', List.mem_singleton]
      have hmem : tx ∈ txs := (List.mem_filter.mp ((hin tx).mpr rfl)).1
      refine List.singleton_sublist.mpr (appliedTxs_keeps hvalid rfl hmem fun y hy hs hn => (hin y).mp ?_)
      have hown := nonce_valid hvalid
      exact List.mem_filter.mpr ⟨hy, by simp only [decide_eq_true_eq]; exact ⟨hs, by omega, by push_cast; omega⟩⟩

/-- One transfer. -/
theorem nonce_runs_packed_single :
    [transferOf (.int 5)].Sublist (plain.createBlock "1" 2 [transferOf (.int 5)] "v" validatorNode.db.live).transactions := by
  have hpool : pooledRun validatorNode.db.live "a" 1 [transferOf (.int 5)] = [transferOf (.int 5)] := by decide +kernel
  have hvalid : plain.validateTransaction validatorNode.db.live (transferOf (.int 5)) = .ok () := by decide +kernel
  exact ((nonce_runs_packed plain 2 validatorNode.db.live "1" "v" [transferOf (.int 5)]).1 "a" [transferOf (.int 5)] hpool
    ⟨rfl, hvalid, trivial⟩).mpr le_rfl

def pairOf : List Transaction := [transferOf (.int 5), { transferOf (.int 5) with nonce := 1, hash := "t1" }]

/-- Only the first is selected. -/
theorem second_not_packed :
    pooledRun validatorNode.db.live "a" pairOf.length pairOf = pairOf ∧
    plain.NonceRun "a" validatorNode.db.live pairOf ∧
    ¬pairOf.Sublist (plain.createBlock "1" 2 pairOf "v" validatorNode.db.live).transactions := by
  have hvalid : plain.validateTransaction validatorNode.db.live (transferOf (.int 5)) = .ok () := by decide +kernel
  have hthen : plain.validateTransaction (plain.charged validatorNode.db.live (transferOf (.int 5)))
      { transferOf (.int 5) with nonce := 1, hash := "t1" } = .ok () := by decide +kernel
  have hpool : pooledRun validatorNode.db.live "a" pairOf.length pairOf = pairOf := by decide +kernel
  have hselected : (plain.createBlock "1" 2 pairOf "v" validatorNode.db.live).transactions.length = 1 := by decide +kernel
  refine ⟨hpool, ⟨rfl, hvalid, rfl, hthen, trivial⟩, fun h => ?_⟩
  have hlen := h.length_le
  rw [hselected] at hlen
  exact absurd hlen (by decide)

end Blockchain

end AbsoluteChain
