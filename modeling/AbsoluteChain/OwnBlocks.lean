import AbsoluteChain.Authorisation
import AbsoluteChain.Exclusion
import AbsoluteChain.Nonces
import AbsoluteChain.PoolLocks
import AbsoluteChain.RoundTrip
import AbsoluteChain.Spv

/-!
# Production

`create_block` validates each transaction against the stored state and runs no contract;
`add_block` gives up the whole block at the first transaction that fails.
-/

namespace AbsoluteChain

open Python Actions Act Transactions KeyedTable

namespace Blockchain

variable {c : Blockchain} {now : Int} {b : Block} {n : Node}

/-! ## Executing -/

/-- The transaction passes the checks that are made first, its integers fit, and the contract that it runs,
if any, ends without a failure and costs no more than its sender has. -/
structure Passes (c : Blockchain) (now height : Int) (db : Db) (tx : Transaction) : Prop where
  checks : c.precheck db.live tx = .ok ()
  columns : tx.columns.all fitsInt64 = true
  runs : c.kindOf db.live tx ≠ .transfer → ∃ res db₁, c.runContract now (c.kindOf db.live tx) tx height db = (.ok res, db₁) ∧
    res.success = true ∧ (c.contractCharge tx res.gasUsed).fee + tx.value.toRat ≤ db.live.getBalance tx.fromAddr ∧
    fitsInt64 res.gasUsed = true

section
variable {height : Int} {proposer : String} {tx tx' : Transaction} {db db' : Db}

theorem TxStep.ran (h : TxStep c now height proposer tx db tx' db') :
    c.applyTransaction now tx height proposer db = (.ok tx', db') := by
  cases h with
  | transfer checks kind =>
    unfold applyTransaction
    simp only [bind_run, query_run, id, checks, liftExcept, kind, applyTransfer_run]
  | @contract res db₁ checks kind run success funds =>
    have hcontract : c.applyContract now (c.kindOf db.live tx) tx height (c.feeRecipient proposer)
        (db.live.getBalance tx.fromAddr) db =
        (.ok (markApplied tx height (c.contractCharge tx res.gasUsed) (if res.gasUsed = 0 then tx.gas else res.gasUsed)),
          c.recordPool tx.fromAddr ((c.contractCharge tx res.gasUsed).fee + tx.value.toRat)
            (db₁.exec (c.contractTables tx (c.feeRecipient proposer) (c.contractCharge tx res.gasUsed)))) := by
      unfold applyContract
      rw [bind_of_ok run, if_neg (not_not.mpr success)]
      refine (congrFun (if_neg (not_lt.mpr funds)) _).trans ?_
      simp only [bind_run, balanceDelta, statement_run, settle_run, recordPoolOutgoing_run, exec_exec, pure_run]
      rfl
    unfold applyTransaction
    simp only [bind_run, query_run, id, checks, liftExcept]
    cases hk : c.kindOf db.live tx with
    | transfer => exact absurd hk kind
    | call =>
      rw [hk] at hcontract
      exact hcontract
    | deploy =>
      rw [hk] at hcontract
      exact hcontract

theorem columns_markApplied (hheight : fitsInt64 height = true) (ch : Charge) (g : Int) :
    (markApplied tx height ch g).toDict.columns.all fitsInt64 = true ↔ tx.columns.all fitsInt64 = true ∧ fitsInt64 g = true := by
  simp only [TxDict.columns, Transaction.columns, markApplied, Transaction.toDict, List.all_append, List.all_cons,
    List.all_nil, Bool.and_eq_true, hheight]
  tauto

theorem fits_recorded {g gas : Int} (hgas : fitsInt64 gas = true) :
    fitsInt64 (if g = 0 then gas else g) = true ↔ fitsInt64 g = true := by
  by_cases hg : g = 0
  · rw [if_pos hg, hg]
    exact iff_of_true hgas (by decide)
  · rw [if_neg hg]

theorem fits_gas (h : tx.columns.all fitsInt64 = true) : fitsInt64 tx.gas = true := by
  simp only [Transaction.columns, List.all_append, List.all_cons, Bool.and_eq_true] at h
  exact h.1.1

theorem applyTransaction_returns (hheight : fitsInt64 height = true) :
    (∃ tx' db', c.applyTransaction now tx height proposer db = (.ok tx', db') ∧ tx'.toDict.columns.all fitsInt64 = true) ↔
      c.Passes now height db tx := by
  constructor
  · rintro ⟨tx', db', h, hfits⟩
    cases applyTransaction_ok h with
    | transfer checks kind =>
      exact ⟨checks, ((columns_markApplied hheight _ _).mp hfits).1, fun hk => absurd kind hk⟩
    | @contract res db₁ checks kind run success funds =>
      obtain ⟨hcolumns, hgas⟩ := (columns_markApplied hheight _ _).mp hfits
      exact ⟨checks, hcolumns, fun _ => ⟨res, db₁, run, success, funds, (fits_recorded (fits_gas hcolumns)).mp hgas⟩⟩
  · intro h
    by_cases kind : c.kindOf db.live tx = .transfer
    · exact ⟨_, _, (TxStep.transfer h.checks kind).ran, (columns_markApplied hheight _ _).mpr ⟨h.columns, fits_gas h.columns⟩⟩
    · obtain ⟨res, db₁, run, success, funds, hgas⟩ := h.runs kind
      exact ⟨_, _, (TxStep.contract h.checks kind run success funds).ran,
        (columns_markApplied hheight _ _).mpr ⟨h.columns, (fits_recorded (fits_gas h.columns)).mpr hgas⟩⟩

theorem applyTransactions_returns (hheight : fitsInt64 height = true) {txs : List Transaction} :
    (∃ txs' db', c.applyTransactions now height proposer txs db = (.ok txs', db') ∧
      ∀ tx' ∈ txs', tx'.toDict.columns.all fitsInt64 = true) ↔ c.Along now height proposer (c.Passes now height) txs db := by
  induction txs generalizing db with
  | nil => exact iff_of_true ⟨[], db, rfl, fun _ h => nomatch h⟩ trivial
  | cons tx rest ih =>
    unfold applyTransactions Along
    constructor
    · rintro ⟨txs', db', h, hfits⟩
      obtain ⟨tx', db₁, h₁, k₁⟩ := bind_ok.mp h
      obtain ⟨rest', db₂, h₂, k₂⟩ := bind_ok.mp k₁
      obtain ⟨htxs, -⟩ := Prod.mk.inj k₂
      obtain rfl := Except.ok.inj htxs
      obtain ⟨hfirst, hlater⟩ := List.forall_mem_cons.mp hfits
      rw [h₁]
      exact ⟨(applyTransaction_returns hheight).mp ⟨tx', db₁, h₁, hfirst⟩, ih.mp ⟨rest', db₂, h₂, hlater⟩⟩
    · rintro ⟨hfirst, hlater⟩
      obtain ⟨tx', db₁, h₁, hfits₁⟩ := (@applyTransaction_returns c now height proposer tx db hheight).mpr hfirst
      rw [h₁] at hlater
      obtain ⟨rest', db₂, h₂, hfits₂⟩ := ih.mpr hlater
      exact ⟨tx' :: rest', db₂, bind_ok.mpr ⟨tx', db₁, h₁, bind_ok.mpr ⟨rest', db₂, h₂, rfl⟩⟩,
        List.forall_mem_cons.mpr ⟨hfits₁, hfits₂⟩⟩

end

/-! ## Selecting -/

section
variable {t : Tables} {tx : Transaction}

theorem valid_prechecked (h : c.validateTransaction t tx = .ok ()) :
    0 ≤ tx.value.toRat ∧ c.config.baseGasPrice ≤ tx.gas ∧ c.precheck t tx = .ok () := by
  obtain ⟨-, hvalue, hgas, hnonce, hfunds, hpool, hsigned, -⟩ := validateTransaction_ok.mp h
  exact ⟨hvalue, hgas, precheck_ok.mpr ⟨hnonce, hfunds, hpool, hsigned⟩⟩

theorem validateTxForBlock_ok {cursor : Dict String Int} (h : c.validateTxForBlock t cursor tx = .ok ()) :
    tx.nonce = (cursor.get? tx.fromAddr).getD (t.getNonce tx.fromAddr) ∧ c.validateTransaction t tx = .ok () := by
  simp only [validateTxForBlock, check_bind_ok, require_ok, decide_eq_true_eq] at h
  exact h

theorem appliedTxs_valid (cursor : Dict String Int) (txs : List Transaction) :
    (∀ tx ∈ c.appliedTxs t cursor txs, tx.nonce = (cursor.get? tx.fromAddr).getD (t.getNonce tx.fromAddr) ∧
      c.validateTransaction t tx = .ok ()) ∧
    (c.appliedTxs t cursor txs).Pairwise fun x y => x.fromAddr ≠ y.fromAddr := by
  induction txs generalizing cursor with
  | nil => exact ⟨(fun _ h => nomatch h), .nil⟩
  | cons tx rest ih =>
    unfold appliedTxs
    cases hv : c.validateTxForBlock t cursor tx with
    | error e => exact ih cursor
    | ok u =>
      obtain ⟨hnonce, hvalid⟩ := validateTxForBlock_ok hv
      obtain ⟨hlater, hpairs⟩ := ih (cursor.set tx.fromAddr (tx.nonce + 1))
      have hdistinct : ∀ y ∈ c.appliedTxs t (cursor.set tx.fromAddr (tx.nonce + 1)) rest, tx.fromAddr ≠ y.fromAddr := by
        intro y hy hsame
        obtain ⟨hcursor, hy'⟩ := hlater y hy
        have hstored := (precheck_ok.mp (valid_prechecked hy').2.2).1
        have hown := (precheck_ok.mp (valid_prechecked hvalid).2.2).1
        rw [← hsame] at hcursor hstored
        rw [Dict.get?_set_self] at hcursor
        have hnext : y.nonce = tx.nonce + 1 := hcursor
        omega
      refine ⟨List.forall_mem_cons.mpr ⟨⟨hnonce, hvalid⟩, fun y hy => ?_⟩, List.pairwise_cons.mpr ⟨hdistinct, hpairs⟩⟩
      obtain ⟨hcursor, hy'⟩ := hlater y hy
      rw [Dict.get?_set_of_ne _ (hdistinct y hy).symm] at hcursor
      exact ⟨hcursor, hy'⟩

end

section
variable {nodeVersion proposer : String} {txs : List Transaction}

theorem created_valid (t : Tables) :
    (∀ tx ∈ (c.createBlock nodeVersion now txs proposer t).transactions, c.validateTransaction t tx = .ok ()) ∧
      (c.createBlock nodeVersion now txs proposer t).transactions.Pairwise fun x y => x.fromAddr ≠ y.fromAddr := by
  obtain ⟨hvalid, hpairs⟩ := @appliedTxs_valid c t [] txs
  exact ⟨fun tx htx => (hvalid tx htx).2, hpairs⟩

end

/-! ## Plain transfers -/

section
variable {tx y : Transaction} {height : Int} {proposer : String} {db : Db}

end

/-! ## Blocks of one's own -/

/-- When a block of one's own is accepted: the integers fit, the proposer is not slashed and has not proposed
at this height, and each transaction passes at its turn. -/
structure Producible (c : Blockchain) (now : Int) (b : Block) (n : Node) : Prop where
  columns : b.columns.all fitsInt64 = true
  proposer : Unproposed b n
  transactions : c.Along now b.height b.miner (c.Passes now b.height) b.transactions n.db.opened

theorem addBlock_returns {preserve : Bool} : (∃ b' n', c.addBlock now b preserve n = (.ok b', n')) ↔
    c.admitBlock n b = .ok () ∧ n.db.pending = none ∧ ∃ b' n', c.blockBody now b preserve n = (.ok b', n') := by
  constructor
  · rintro ⟨b', n', h⟩
    obtain ⟨hadm, hclosed, n₁, hbody, -⟩ := addBlock_body h
    exact ⟨hadm, hclosed, b', n₁, hbody⟩
  · rintro ⟨hadm, hclosed, b', n₁, hbody⟩
    exact ⟨b', _, addBlock_accepted hadm hclosed hbody⟩

section
variable {nodeVersion proposer : String} {now' : Int} {txs : List Transaction}

end

def validatorNode : Node :=
  let genesis := Block.init 1
    { height := 0, parentHash := genesisHash, miner := "genesis", transactions := [], timestamp := 1, blockHash := "g",
      extraData := "", stateRoot := "" }
  let file := fundedNode.db.file.saveValidator 0 "v" 32
  { fundedNode with db := { file := { file with blocks := Table.empty.put 0 genesis.toDict }, pending := none } }

end Blockchain

end AbsoluteChain
