import AbsoluteChain.Replay
import AbsoluteChain.Runs
import AbsoluteChain.SyncLoss

/-!
# The tables of the chain

Rows of transactions, receipts, burns and proposers are written with a block and deleted
on four different ways back. What they have to do with the stored blocks, and the accounts
with the execution of these blocks, is one invariant.
-/

namespace AbsoluteChain

open Python Actions Act Transactions KeyedTable

/-! ## Rows and blocks -/

structure ChainRows where
  blocks : Table Int BlockDict
  transactions : Table String TxRow
  txReceipts : Table String TxReceipt
  burnStats : Table Int BurnRow
  proposerAudit : Table Int ProposerAudit

def Tables.chainRows (t : Tables) : ChainRows :=
  { blocks := t.blocks, transactions := t.transactions, txReceipts := t.txReceipts, burnStats := t.burnStats,
    proposerAudit := t.proposerAudit }

structure Recorded (host : Host) (t : Tables) : Prop where
  transaction : ∀ {hash r}, t.transactions.get? hash = some r →
    ∃ d x, t.getBlock r.blockHeight = some d ∧ x ∈ d.transactions ∧ x.hash = hash ∧ r = txRow host x
  receipt : ∀ {hash r}, t.txReceipts.get? hash = some r →
    ∃ d x, t.getBlock r.blockHeight = some d ∧ x ∈ d.transactions ∧ x.hash = hash ∧ r = receiptRow host x d.hash d.height
  burn : ∀ {h r}, t.burnStats.get? h = some r → ∃ d, t.getBlock h = some d ∧ 0 < d.totalBurned ∧ r.burnedAmount = d.totalBurned
  audit : ∀ {h r}, t.proposerAudit.get? h = some r → ∃ d, t.getBlock h = some d ∧ r.blockHash = d.hash
  stored : ∀ {h d x}, t.getBlock h = some d → x ∈ d.transactions →
    x.blockHeight = h ∧ t.transactions.get? x.hash = some (txRow host x) ∧
      t.txReceipts.get? x.hash = some (receiptRow host x d.hash d.height)

variable {host : Host} {t u : Tables}

theorem Recorded.congr (hr : Recorded host t) (h : u.chainRows = t.chainRows) : Recorded host u := by
  have hb : ∀ k, u.getBlock k = t.getBlock k := getBlock_congr (congrArg ChainRows.blocks h)
  have ht : u.transactions = t.transactions := congrArg ChainRows.transactions h
  have hc : u.txReceipts = t.txReceipts := congrArg ChainRows.txReceipts h
  have hs : u.burnStats = t.burnStats := congrArg ChainRows.burnStats h
  have ha : u.proposerAudit = t.proposerAudit := congrArg ChainRows.proposerAudit h
  refine ⟨fun hx => ?_, fun hx => ?_, fun hx => ?_, fun hx => ?_, fun hd hx => ?_⟩
  · rw [ht] at hx
    rw [hb]
    exact hr.transaction hx
  · rw [hc] at hx
    rw [hb]
    exact hr.receipt hx
  · rw [hs] at hx
    rw [hb]
    exact hr.burn hx
  · rw [ha] at hx
    rw [hb]
    exact hr.audit hx
  · rw [hb] at hd
    rw [ht, hc]
    exact hr.stored hd hx

theorem get_keep_of {κ ρ : Type} [LinearOrder κ] {a : Table κ ρ} {p : κ → ρ → Bool} {k : κ} {r : ρ}
    (h : (a.keep p).get? k = some r) : a.get? k = some r ∧ p k r = true := by
  rw [Table.get_keep] at h
  exact Option.filter_eq_some_iff.mp h

theorem Recorded.cut (hl : Linked t) (hr : Recorded host t) (cut : Int) : Recorded host (t.deleteAbove cut) := by
  have hblock : ∀ {k d}, (t.deleteAbove cut).getBlock k = some d → t.getBlock k = some d ∧ k ≤ cut := by
    intro k d hd
    obtain ⟨hd, hk⟩ := get_keep_of (a := t.blocks) hd
    exact ⟨hd, of_decide_eq_true hk⟩
  have hkept : ∀ {k d}, t.getBlock k = some d → k ≤ cut → (t.deleteAbove cut).getBlock k = some d := by
    intro k d hd hk
    rw [getBlock_deleteAbove, if_pos hk]
    exact hd
  refine ⟨fun hx => ?_, fun hx => ?_, fun hx => ?_, fun hx => ?_, fun {h d x} hd hx => ?_⟩
  · obtain ⟨hx, hk⟩ := get_keep_of (a := t.transactions) hx
    obtain ⟨d, x, hd, hmem, hhash, hrow⟩ := hr.transaction hx
    exact ⟨d, x, hkept hd (of_decide_eq_true hk), hmem, hhash, hrow⟩
  · obtain ⟨hx, hk⟩ := get_keep_of (a := t.txReceipts) hx
    obtain ⟨d, x, hd, hmem, hhash, hrow⟩ := hr.receipt hx
    exact ⟨d, x, hkept hd (of_decide_eq_true hk), hmem, hhash, hrow⟩
  · obtain ⟨hx, hk⟩ := get_keep_of (a := t.burnStats) hx
    obtain ⟨d, hd, hrow⟩ := hr.burn hx
    exact ⟨d, hkept hd (of_decide_eq_true hk), hrow⟩
  · obtain ⟨hx, hk⟩ := get_keep_of (a := t.proposerAudit) hx
    obtain ⟨d, hd, hrow⟩ := hr.audit hx
    exact ⟨d, hkept hd (of_decide_eq_true hk), hrow⟩
  · obtain ⟨hd, hk⟩ := hblock hd
    obtain ⟨hheight, htx, hreceipt⟩ := hr.stored hd hx
    refine ⟨hheight, ?_, ?_⟩
    · refine (Table.get_keep _ _ _).trans ?_
      rw [htx]
      exact Option.filter_eq_some_iff.mpr ⟨rfl, decide_eq_true (hheight.le.trans hk)⟩
    · refine (Table.get_keep _ _ _).trans ?_
      rw [hreceipt]
      refine Option.filter_eq_some_iff.mpr ⟨rfl, decide_eq_true ?_⟩
      unfold receiptRow
      dsimp only
      by_cases hzero : x.blockHeight = 0
      · rw [if_pos hzero, hl.keyed hd]
        exact hk
      · rw [if_neg hzero]
        exact hheight.le.trans hk

/-! ## Writing a block -/

theorem transactions_storeTx (blockHash : String) (blockHeight : Int) (tx : TxDict) (t : Tables) :
    (storeTx host blockHash blockHeight tx t).transactions = t.transactions.put tx.hash (txRow host tx) := by
  unfold storeTx
  split <;> rfl

theorem txReceipts_storeTx {blockHash : String} {blockHeight : Int} {tx : TxDict} (hne : tx.hash ≠ "") (t : Tables) :
    (storeTx host blockHash blockHeight tx t).txReceipts =
      t.txReceipts.put tx.hash (receiptRow host tx blockHash blockHeight) := by
  unfold storeTx
  rw [if_neg hne]

theorem storeTxs_get {blockHash : String} {blockHeight : Int} {txs : List TxDict} (hne : ∀ x ∈ txs, x.hash ≠ "")
    (hnodup : (txs.map TxDict.hash).Nodup) (t : Tables) :
    (∀ x ∈ txs, (storeTxs host blockHash blockHeight txs t).transactions.get? x.hash = some (txRow host x) ∧
      (storeTxs host blockHash blockHeight txs t).txReceipts.get? x.hash = some (receiptRow host x blockHash blockHeight)) ∧
    (∀ hash, hash ∉ txs.map TxDict.hash →
      (storeTxs host blockHash blockHeight txs t).transactions.get? hash = t.transactions.get? hash ∧
      (storeTxs host blockHash blockHeight txs t).txReceipts.get? hash = t.txReceipts.get? hash) := by
  induction txs generalizing t with
  | nil => exact ⟨fun x hx => absurd hx List.not_mem_nil, fun _ _ => ⟨rfl, rfl⟩⟩
  | cons y rest ih =>
    have hy := hne y List.mem_cons_self
    obtain ⟨hnew, hrest⟩ := List.nodup_cons.mp hnodup
    obtain ⟨h₁, h₂⟩ := ih (fun x hx => hne x (List.mem_cons_of_mem _ hx)) hrest (storeTx host blockHash blockHeight y t)
    have hfold : storeTxs host blockHash blockHeight (y :: rest) t =
        storeTxs host blockHash blockHeight rest (storeTx host blockHash blockHeight y t) := rfl
    rw [hfold]
    refine ⟨fun x hx => ?_, fun hash hhash => ?_⟩
    · rcases List.mem_cons.mp hx with rfl | hx
      · obtain ⟨h₃, h₄⟩ := h₂ x.hash hnew
        rw [h₃, h₄, transactions_storeTx, txReceipts_storeTx hy]
        exact ⟨Table.get_put_same _ _ _, Table.get_put_same _ _ _⟩
      · exact h₁ x hx
    · rw [List.map_cons, List.mem_cons, not_or] at hhash
      obtain ⟨h₃, h₄⟩ := h₂ hash hhash.2
      rw [h₃, h₄, transactions_storeTx, txReceipts_storeTx hy]
      exact ⟨Table.get_put_ne _ hhash.1 _, Table.get_put_ne _ hhash.1 _⟩

section persist
variable {now : Int} {d : BlockDict} {burnAddress : String}

theorem persist_rows (t : Tables) :
    (persistTables host now d d.transactions d.totalBurned burnAddress t).blocks = (t.putBlock d).blocks ∧
    (persistTables host now d d.transactions d.totalBurned burnAddress t).transactions =
      (storeTxs host d.hash d.height d.transactions (storeBlock host now d t)).transactions ∧
    (persistTables host now d d.transactions d.totalBurned burnAddress t).txReceipts =
      (storeTxs host d.hash d.height d.transactions (storeBlock host now d t)).txReceipts ∧
    (persistTables host now d d.transactions d.totalBurned burnAddress t).proposerAudit =
      t.proposerAudit.put d.height (proposerAuditRow host now d) ∧
    ∀ h, (persistTables host now d d.transactions d.totalBurned burnAddress t).burnStats.get? h =
      if 0 < d.totalBurned ∧ h = d.height then
        some { burnedAmount := d.totalBurned, totalBurned := t.getTotalBurned + d.totalBurned }
      else t.burnStats.get? h := by
  obtain ⟨h₁, h₂, h₃⟩ : (storeTxs host d.hash d.height d.transactions (storeBlock host now d t)).blocks =
        (storeBlock host now d t).blocks ∧
      (storeTxs host d.hash d.height d.transactions (storeBlock host now d t)).burnStats =
        (storeBlock host now d t).burnStats ∧
      (storeTxs host d.hash d.height d.transactions (storeBlock host now d t)).proposerAudit =
        (storeBlock host now d t).proposerAudit := by
    obtain ⟨transactions, receipts, hrows⟩ := storeTxs_rows host d.hash d.height d.transactions (storeBlock host now d t)
    rw [hrows]
    exact ⟨rfl, rfl, rfl⟩
  unfold persistTables burnTables
  by_cases hb : 0 < d.totalBurned
  · simp only [if_pos hb]
    have hrows : ∀ v : Tables, (if burnAddress ≠ "" then v.applyBalanceDelta burnAddress d.totalBurned else v).chainRows =
        v.chainRows := by
      intro v
      split <;> rfl
    have hv := hrows ((storeTxs host d.hash d.height d.transactions (storeBlock host now d t)).insertBurnRecord d.height
      d.totalBurned)
    refine ⟨(congrArg ChainRows.blocks hv).trans h₁, congrArg ChainRows.transactions hv, congrArg ChainRows.txReceipts hv,
      (congrArg ChainRows.proposerAudit hv).trans h₃, fun h => ?_⟩
    rw [show Tables.burnStats _ = _ from congrArg ChainRows.burnStats hv]
    refine (Table.get_put _ _ _ _).trans ?_
    by_cases hh : h = d.height
    · rw [if_pos hh, if_pos ⟨hb, hh⟩]
      unfold Tables.getTotalBurned
      rw [h₂]
      rfl
    · rw [if_neg hh, if_neg fun hc => hh hc.2]
      exact congrArg (fun s => s.get? h) h₂
  · simp only [if_neg hb]
    refine ⟨h₁, trivial, trivial, h₃, fun h => ?_⟩
    rw [if_neg fun hc => hb hc.1]
    exact congrArg (fun s => s.get? h) h₂

theorem Recorded.persist (hr : Recorded host t) (hfree : t.getBlock d.height = none)
    (hfresh : ∀ h e, t.getBlock h = some e → e.hash ≠ d.hash) (hplaced : ∀ x ∈ d.transactions, x.blockHeight = d.height)
    (hne : ∀ x ∈ d.transactions, x.hash ≠ "") (hnodup : (d.transactions.map TxDict.hash).Nodup)
    (hnew : ∀ h e x, t.getBlock h = some e → x ∈ e.transactions → x.hash ∉ d.transactions.map TxDict.hash) :
    Recorded host (persistTables host now d d.transactions d.totalBurned burnAddress t) := by
  obtain ⟨hblocks, htxs, hreceipts, haudit, hburn⟩ := @persist_rows host now d burnAddress t
  obtain ⟨hmine, hothers⟩ := @storeTxs_get host d.hash d.height _ hne hnodup
    (storeBlock host now d t)
  generalize persistTables host now d d.transactions d.totalBurned burnAddress t = u at hblocks htxs hreceipts haudit hburn ⊢
  -- the blocks: the new one on its own height, and those before it
  have hget : ∀ k, u.getBlock k = if k = d.height then some d else t.getBlock k := by
    intro k
    rw [getBlock_congr hblocks, getBlock_putBlock]
    by_cases hk : k = d.height
    · rw [if_pos hk, if_pos hk]
    · rw [if_neg hk, if_neg hk]
      cases hd : t.getBlock k with
      | none => rfl
      | some e => exact Option.filter_eq_some_iff.mpr ⟨rfl, decide_eq_true (hfresh k e hd)⟩
  have hself : u.getBlock d.height = some d := by rw [hget, if_pos rfl]
  have hold : ∀ {k e}, t.getBlock k = some e → u.getBlock k = some e := by
    intro k e he
    rw [hget, if_neg, he]
    intro hk
    rw [hk, hfree] at he
    cases he
  have hplace : ∀ x ∈ d.transactions, (receiptRow host x d.hash d.height).blockHeight = d.height := by
    intro x hx
    unfold receiptRow
    dsimp only
    split
    · rfl
    · exact hplaced x hx
  refine ⟨fun {hash r} hrow => ?_, fun {hash r} hrow => ?_, fun {h r} hrow => ?_, fun {h r} hrow => ?_,
    fun {h e x} he hx => ?_⟩
  -- the row of a transaction
  · rw [htxs] at hrow
    by_cases hmem : hash ∈ d.transactions.map TxDict.hash
    · obtain ⟨x, hx, rfl⟩ := List.mem_map.mp hmem
      rw [(hmine x hx).1] at hrow
      cases hrow
      exact ⟨d, x, by rw [show (txRow host x).blockHeight = x.blockHeight from rfl, hplaced x hx, hself], hx, rfl, rfl⟩
    · rw [(hothers hash hmem).1] at hrow
      obtain ⟨e, x, he, hx, hhash, hr'⟩ := hr.transaction hrow
      exact ⟨e, x, hold he, hx, hhash, hr'⟩
  -- the row of a receipt
  · rw [hreceipts] at hrow
    by_cases hmem : hash ∈ d.transactions.map TxDict.hash
    · obtain ⟨x, hx, rfl⟩ := List.mem_map.mp hmem
      rw [(hmine x hx).2] at hrow
      cases hrow
      exact ⟨d, x, by rw [hplace x hx, hself], hx, rfl, rfl⟩
    · rw [(hothers hash hmem).2] at hrow
      obtain ⟨e, x, he, hx, hhash, hr'⟩ := hr.receipt hrow
      exact ⟨e, x, hold he, hx, hhash, hr'⟩
  -- the row of a burn
  · rw [hburn] at hrow
    by_cases hh : 0 < d.totalBurned ∧ h = d.height
    · rw [if_pos hh] at hrow
      cases hrow
      exact ⟨d, by rw [hh.2, hself], hh.1, rfl⟩
    · rw [if_neg hh] at hrow
      obtain ⟨e, he, hr'⟩ := hr.burn hrow
      exact ⟨e, hold he, hr'⟩
  -- the row of the audit
  · rw [haudit, Table.get_put] at hrow
    by_cases hh : h = d.height
    · rw [if_pos hh] at hrow
      cases hrow
      exact ⟨d, by rw [hh, hself], rfl⟩
    · rw [if_neg hh] at hrow
      obtain ⟨e, he, hr'⟩ := hr.audit hrow
      exact ⟨e, hold he, hr'⟩
  -- every transaction of a stored block has its rows
  · rw [htxs, hreceipts]
    rw [hget] at he
    by_cases hh : h = d.height
    · rw [if_pos hh] at he
      cases he
      obtain ⟨h₁, h₂⟩ := hmine x hx
      exact ⟨(hplaced x hx).trans hh.symm, h₁, h₂⟩
    · rw [if_neg hh] at he
      obtain ⟨h₁, h₂⟩ := hothers x.hash (hnew h e x he hx)
      rw [h₁, h₂]
      exact hr.stored he hx

end persist

namespace Blockchain

variable {c : Blockchain} {now : Int}

/-! ## Executing the stored blocks -/

def allocated (c : Blockchain) : Table String Account :=
  (Tables.empty.resetAccounts (genesisBalances c.config.founderAddress)).accounts

/-- Executing the first `k` stored blocks, at any time and in any database that holds them, the allocation and
the pool locks, leads from the allocation to these accounts. -/
def Executes (c : Blockchain) (t : Tables) (k : ℕ) (accounts : Table String Account) : Prop :=
  ∀ now (db : Db), db.live.accounts = c.allocated → db.live.poolLocks = t.poolLocks →
    (∀ i : ℕ, i < k → db.live.getBlock (i + 1 : ℕ) = t.getBlock (i + 1 : ℕ)) →
    ∃ db', c.replayBlocks now k 1 db = (.ok (), db') ∧ db'.live.accounts = accounts ∧ db'.live.poolLocks = t.poolLocks

theorem Executes.congr {t u : Tables} {k : ℕ} {accounts : Table String Account} (h : c.Executes t k accounts)
    (hp : u.poolLocks = t.poolLocks) (hb : ∀ i : ℕ, i < k → u.getBlock (i + 1 : ℕ) = t.getBlock (i + 1 : ℕ)) :
    c.Executes u k accounts := by
  intro now db ha hlocks hblocks
  obtain ⟨db', hrun, haccounts, hend⟩ := h now db ha (hlocks.trans hp) fun i hi => (hblocks i hi).trans (hb i hi)
  exact ⟨db', hrun, haccounts, hend.trans hp.symm⟩

theorem executes_zero {t : Tables} : c.Executes t 0 c.allocated := fun _ db ha hp _ => ⟨db, rfl, ha, hp⟩

theorem replayBlocks_snoc {k : ℕ} {h : Int} {db db₁ db₂ db₃ : Db} {d : BlockDict} {txs : List Transaction} {reward : ℚ}
    (hrun : c.replayBlocks now k h db = (.ok (), db₁)) (hd : db₁.live.getBlock (h + k) = some d)
    (htxs : c.applyTransactions now (c.stored now d).height (c.stored now d).miner (c.stored now d).transactions db₁ =
      (.ok txs, db₂))
    (hreward : c.applyBlockReward (c.stored now d).miner db₂ = (.ok reward, db₃)) :
    c.replayBlocks now (k + 1) h db = (.ok (), db₃) := by
  induction k generalizing h db with
  | zero =>
    cases hrun
    have hrow : query (fun t => t.getBlock h) db₁ = (.ok (some d), db₁) := by
      rw [query_run]
      simpa using hd
    unfold replayBlocks
    refine (bind_of_ok hrow).trans ?_
    exact (bind_of_ok htxs).trans ((bind_of_ok hreward).trans rfl)
  | succ k ih =>
    unfold replayBlocks at hrun ⊢
    obtain ⟨row, db₄, hrow, hrun⟩ := bind_ok.mp hrun
    refine (bind_of_ok hrow).trans ?_
    cases row with
    | none => cases hrun
    | some e =>
      dsimp only at hrun ⊢
      obtain ⟨txs', db₅, htxs', hrun⟩ := bind_ok.mp hrun
      obtain ⟨reward', db₆, hreward', hrun⟩ := bind_ok.mp hrun
      refine (bind_of_ok htxs').trans ((bind_of_ok hreward').trans ?_)
      refine ih hrun ?_
      rw [show h + 1 + (k : ℤ) = h + ((k + 1 : ℕ) : ℤ) by push_cast; ring]
      exact hd

variable {n n' : Node} {b b' : Block} {preserve : Bool}

theorem Executes.accepted {k : ℕ} (he : c.Executes n.db.live k n.db.live.accounts) (hl : Linked n.db.live)
    (htip : n.db.live.getChainTip = k) (h : c.addBlock now b preserve n = (.ok b', n')) (hr : c.Replayable now b preserve n) :
    c.Executes n'.db.live (k + 1) n'.db.live.accounts := by
  obtain ⟨r⟩ := addBlock_ok h
  have hfresh := hr.fresh b' n' h
  obtain ⟨-, hkept⟩ := accepted_linked hl h hfresh
  obtain ⟨-, htop⟩ := accepted_tip hl h hfresh
  have hlocks := r.poolLocks hr.ordinary
  intro now' db ha hp hblocks
  obtain ⟨db₁, hrun, haccounts, hend⟩ := he now' db ha (hp.trans hlocks) fun i hi => by
    obtain ⟨e, hget⟩ := hl.exists_block (h := (i + 1 : ℕ)) (by omega) (by rw [htip]; omega)
    rw [hblocks i (by omega), hget, hkept _ e hget]
  obtain ⟨txs, db₂, reward, db₃, htxs, hreward, hagree⟩ := r.redo hr.named hr.silent hr.unburned
    (⟨haccounts, hend⟩ : Agree n.db db₁) now'
  have hstored : db₁.live.getBlock (1 + k) = some b'.toDict := by
    have hsame : db₁.live.blocks = db.live.blocks := (keeps_apply (keeps_replayBlocks executionFree_blocks _ _) hrun).1
    rw [getBlock_congr hsame, show (1 + (k : ℤ)) = ((k + 1 : ℕ) : ℤ) by push_cast; ring, hblocks k (by omega)]
    rw [htip] at htop
    rw [← htop]
    push_cast
    rfl
  exact ⟨db₃, replayBlocks_snoc hrun hstored htxs hreward, hagree.accounts, hagree.poolLocks⟩

/-! ## The invariant -/

/-- The rows belong to the stored blocks, and the accounts are the result of executing them. -/
def TablesMatch (c : Blockchain) (n : Node) : Prop :=
  Recorded c.host n.db.live ∧ c.Executes n.db.live n.db.live.getChainTip.toNat n.db.live.accounts

/-- With what a rollback needs: the same can be said of every lower height. -/
structure Kept (c : Blockchain) (n : Node) : Prop where
  closed : n.db.pending = none
  linked : Linked n.db.live
  recorded : Recorded c.host n.db.live
  executed : c.Executes n.db.live n.db.live.getChainTip.toNat n.db.live.accounts
  lower : ∀ k : ℕ, k ≤ n.db.live.getChainTip → ∃ accounts, c.Executes n.db.live k accounts

theorem Kept.same (hk : Kept c n) (hclosed : n'.db.pending = none) (hrows : n'.db.live.chainRows = n.db.live.chainRows)
    (haccounts : n'.db.live.accounts = n.db.live.accounts) (hlocks : n'.db.live.poolLocks = n.db.live.poolLocks) :
    Kept c n' := by
  have hblocks : n'.db.live.blocks = n.db.live.blocks := congrArg ChainRows.blocks hrows
  refine ⟨hclosed, hk.linked.congr hblocks, hk.recorded.congr hrows, ?_, fun k hle => ?_⟩
  · rw [chainTip_congr hblocks, haccounts]
    exact hk.executed.congr hlocks fun i _ => getBlock_congr hblocks _
  · rw [chainTip_congr hblocks] at hle
    obtain ⟨accounts, he⟩ := hk.lower k hle
    exact ⟨accounts, he.congr hlocks fun i _ => getBlock_congr hblocks _⟩

theorem executionFree_chainRows : ExecutionFree Tables.chainRows := ⟨⟨fun _ _ => rfl, fun _ _ => rfl⟩, fun _ _ => rfl⟩

/-! ### Accepted blocks -/

def NewTxs (b : Block) (n : Node) : Prop :=
  (b.transactions.map Transaction.hash).Nodup ∧
    ∀ h d x, n.db.live.getBlock h = some d → x ∈ d.transactions → x.hash ∉ b.transactions.map Transaction.hash

theorem rewardTables_rows (miner : String) (t : Tables) : (c.rewardTables miner t).chainRows = t.chainRows := by
  unfold rewardTables
  split <;> rfl

theorem Accepted.hashes (r : Accepted c now b preserve n b' n') :
    b'.toDict.transactions.map TxDict.hash = b.transactions.map Transaction.hash := by
  have hmap : b'.toDict.transactions.map TxDict.hash = r.txs.map Transaction.hash := by
    show (b'.transactions.map Transaction.toDict).map TxDict.hash = _
    rw [r.transactions_eq, List.map_map]
    rfl
  rw [hmap]
  have hkept := r.steps.kept
  generalize r.txs = txs at hkept
  generalize b.transactions = given at hkept
  induction hkept with
  | nil => rfl
  | cons h _ ih =>
    rw [List.map_cons, List.map_cons, ih, h]

theorem Accepted.placed (r : Accepted c now b preserve n b' n') {x : TxDict} (hx : x ∈ b'.toDict.transactions) :
    x.blockHeight = b'.toDict.height := by
  obtain ⟨tx, htx, rfl⟩ := List.mem_map.mp (show x ∈ b'.transactions.map Transaction.toDict from hx)
  have hheight : b'.toDict.height = b.height := r.height_eq
  rw [r.block] at htx
  obtain ⟨tx', -, rfl⟩ := List.mem_map.mp htx
  exact hheight.symm

theorem Kept.accepted (hk : Kept c n) (h : c.addBlock now b preserve n = (.ok b', n')) (hr : c.Replayable now b preserve n)
    (hnew : NewTxs b n) : Kept c n' := by
  obtain ⟨r⟩ := addBlock_ok h
  have hfresh := hr.fresh b' n' h
  obtain ⟨hlinked, hkept⟩ := accepted_linked hk.linked h hfresh
  obtain ⟨htip, -⟩ := accepted_tip hk.linked h hfresh
  have h₀ := hk.linked.tip_nonneg
  have hlocks := r.poolLocks hr.ordinary
  refine ⟨by rw [r.result], hlinked, ?_, ?_, fun k hle => ?_⟩
  · have hrows : (c.rewarded now b n.db).chainRows = n.db.live.chainRows := by
      rw [← r.rewarded_eq, rewardTables_rows, ← r.live_start]
      exact (keeps_apply (keeps_applyTransactions executionFree_chainRows _ _ _) r.ran).1
    have hget := getBlock_congr (congrArg ChainRows.blocks hrows : (c.rewarded now b n.db).blocks = n.db.live.blocks)
    rw [r.live_eq]
    refine Recorded.persist (d := b'.toDict) (hk.recorded.congr hrows) ?_ (fun k e he => ?_) (fun x hx => r.placed hx)
      (fun x hx => ?_) ?_ fun k e x he hx => ?_
    · rw [hget, show b'.toDict.height = b.height from r.height_eq]
      exact (admitBlock_ok r.admitted).free
    · rw [hget] at he
      exact hfresh k e he
    · have hmem : x.hash ∈ b.transactions.map Transaction.hash := by
        rw [← r.hashes]
        exact List.mem_map.mpr ⟨x, hx, rfl⟩
      obtain ⟨tx, htx, hhash⟩ := List.mem_map.mp hmem
      rw [← hhash]
      exact hr.named tx htx
    · rw [r.hashes]
      exact hnew.1
    · rw [hget] at he
      rw [r.hashes]
      exact hnew.2 k e x he hx
  · have he := hk.executed.accepted hk.linked (Int.toNat_of_nonneg h₀).symm h hr
    rw [htip, show (n.db.live.getChainTip + 1).toNat = n.db.live.getChainTip.toNat + 1 by omega]
    exact he
  · by_cases hlast : (k : ℤ) ≤ n.db.live.getChainTip
    · obtain ⟨accounts, he⟩ := hk.lower k hlast
      refine ⟨accounts, he.congr hlocks fun i hi => ?_⟩
      obtain ⟨e, hget⟩ := hk.linked.exists_block (h := (i + 1 : ℕ)) (by omega) (by push_cast; omega)
      rw [hget, hkept _ e hget]
    · have he := hk.executed.accepted hk.linked (Int.toNat_of_nonneg h₀).symm h hr
      rw [htip] at hle
      rw [show k = n.db.live.getChainTip.toNat + 1 by omega]
      exact ⟨_, he⟩

/-! ### Rejected blocks -/

theorem rejected_rows {f : Fault} (h : c.addBlock now b preserve n = (.error f, n')) :
    n'.db.live.chainRows = n.db.live.chainRows := by
  rcases rejected_view (q := Tables.chainRows) (fun _ _ => rfl) h with ⟨-, hsame⟩ | ⟨⟨-, hclosed⟩, hbody⟩
  · exact hsame
  · have hlive : n.db.opened.live = n.db.live := Store.live_opened hclosed
    have hfile := @executeBlock_file c now _ Tables.chainRows (fun _ _ => rfl) (fun _ _ => rfl) b preserve
      { n with db := n.db.opened } rfl (keeps_applyTransactions executionFree_chainRows _ _ _ _)
    exact hbody.trans (hfile.trans (congrArg Tables.chainRows hlive))

theorem Kept.rejected {f : Fault} (hk : Kept c n) (h : c.addBlock now b preserve n = (.error f, n'))
    (hq : c.admitBlock n b = .ok () → c.Quiet now b n) : Kept c n' := by
  have hclosed : n'.db.pending = none := by
    have := @idle_addBlock c now b preserve n hk.closed
    rwa [h] at this
  have hguarded : n'.db.live.guarded = n.db.live.guarded := by
    rcases addBlock_rejected h with ⟨-, hsame⟩ | ⟨⟨hadmitted, -⟩, -⟩
    · exact hsame
    · exact rejected_guarded h (hq hadmitted)
  exact hk.same hclosed (rejected_rows h) (congrArg Guarded.accounts hguarded) (congrArg Guarded.poolLocks hguarded)

/-! ### Imports and rollbacks -/

theorem Kept.reorganised {floor cut : Int} {db : Db} (hk : Kept c n) (hcut : 0 ≤ cut)
    (h : c.reorgToAncestor now floor cut n.db = (.ok (), db)) : Kept c { n with db := db } := by
  have hclosed : db.pending = none := by
    have := @idle_reorgToAncestor c now floor cut n.db hk.closed
    rwa [h] at this
  rcases reorg_returned hk.closed h with ⟨-, rfl⟩ | ⟨hle, db₀, db₁, hstart, hreplay, hend⟩
  · exact hk
  · have hget : ∀ k, db₀.live.getBlock k = if k ≤ cut then n.db.live.getBlock k else none := by
      intro k
      have hkept := reorg_kept hk.closed hk.linked h k
      have hsame : db₁.live.blocks = db₀.live.blocks := (keeps_apply (keeps_replayBlocks executionFree_blocks _ _) hreplay).1
      rw [← hkept, hend, getBlock_congr hsame]
    have hlinked₀ : Linked db₀.live := hk.linked.cut hcut hget
    -- what the rollback leaves of the rows
    have hrows₀ : Recorded c.host db₀.live := by
      rw [hstart]
      unfold replayStart
      by_cases hlt : cut < n.db.live.getChainTip
      · rw [if_pos hlt]
        exact (hk.recorded.cut hk.linked cut).congr rfl
      · rw [if_neg hlt]
        exact hk.recorded.congr rfl
    have hlocks₀ : db₀.live.poolLocks = n.db.live.poolLocks := by
      rw [hstart]
      unfold replayStart
      by_cases hlt : cut < n.db.live.getChainTip
      · rw [if_pos hlt]
        rfl
      · rw [if_neg hlt]
        rfl
    have hrows : db₁.live.chainRows = db₀.live.chainRows :=
      (keeps_apply (keeps_replayBlocks executionFree_chainRows _ _) hreplay).1
    have hblocks : db₁.live.blocks = db₀.live.blocks := congrArg ChainRows.blocks hrows
    -- the chain ends where it was cut
    have htip : db₁.live.getChainTip = cut := by
      rw [chainTip_congr hblocks]
      refine (Linked.tip_of_heights hcut fun k => ?_).1
      rw [hget]
      by_cases hk' : k ≤ cut
      · rw [if_pos hk', hk.linked.heights]
        omega
      · rw [if_neg hk']
        simp only [Option.isSome_none, Bool.false_eq_true, false_iff]
        omega
    have hsteps : ∀ k : ℕ, (k : ℤ) ≤ cut → ∀ i : ℕ, i < k → db₁.live.getBlock (i + 1 : ℕ) = n.db.live.getBlock (i + 1 : ℕ) := by
      intro k hle' i hi
      rw [getBlock_congr hblocks, hget, if_pos (by push_cast; omega)]
    -- the run of the rollback is one of those the invariant speaks about
    obtain ⟨accounts, he⟩ := hk.lower cut.toNat (by omega)
    obtain ⟨db₂, hrun, haccounts, hlocks⟩ := he now db₀ (by rw [hstart]; rfl) hlocks₀ fun i hi => by
      rw [hget, if_pos (by push_cast; omega)]
    rw [hreplay] at hrun
    obtain rfl : db₁ = db₂ := (Prod.mk.inj hrun).2
    refine ⟨hclosed, ?_, ?_, ?_, fun k hle' => ?_⟩
    · rw [show ({ n with db := db } : Node).db.live = db₁.live from hend]
      exact hlinked₀.congr hblocks
    · rw [show ({ n with db := db } : Node).db.live = db₁.live from hend]
      exact hrows₀.congr hrows
    · rw [show ({ n with db := db } : Node).db.live = db₁.live from hend, htip, haccounts]
      exact he.congr hlocks (hsteps _ (by omega))
    · rw [show ({ n with db := db } : Node).db.live = db₁.live from hend] at hle' ⊢
      rw [htip] at hle'
      obtain ⟨accounts', he'⟩ := hk.lower k (by omega)
      exact ⟨accounts', he'.congr hlocks (hsteps k hle')⟩

/-- A rollback that fails and has committed nothing. -/
theorem Kept.refused {floor cut : Int} {db : Db} {f : Fault} (hk : Kept c n)
    (h : c.reorgToAncestor now floor cut n.db = (.error f, db)) (hq : c.QuietReplay now cut n.db) :
    Kept c { n with db := db } := by
  have hclosed : db.pending = none := by
    have := @idle_reorgToAncestor c now floor cut n.db hk.closed
    rwa [h] at this
  have hlive : db.live = n.db.live := by
    rcases reorg_failed h with ⟨-, rfl⟩ | ⟨-, hbody⟩
    · rfl
    · rw [hbody, replayBody_quiet hk.closed hq]
      simp [Store.live, hk.closed]
  exact hk.same hclosed (congrArg Tables.chainRows hlive) (congrArg Tables.accounts hlive) (congrArg Tables.poolLocks hlive)

theorem Kept.truncated {height : Int} (hk : Kept c n) (hle : n.db.live.getChainTip ≤ height) :
    Kept c (onDb (truncateToHeight height) n).2 := by
  have hkeep : n.db.live.deleteBlocksAbove height = n.db.live := by
    have hblocks : n.db.live.blocks.keep (fun h _ => decide (h ≤ height)) = n.db.live.blocks := by
      refine Table.keep_eq_self fun k r hget => decide_eq_true ?_
      have := ((hk.linked.heights k).mp (Option.isSome_iff_exists.mpr ⟨r, hget⟩)).2
      omega
    unfold Tables.deleteBlocksAbove
    rw [hblocks]
  have hbegin : n.db.begin? = some n.db.opened := Store.begin_closed hk.closed
  have hopened : n.db.opened.live = n.db.live := Store.live_opened hk.closed
  have hend : (onDb (truncateToHeight height) n).2.db.pending = none ∧
      (onDb (truncateToHeight height) n).2.db.live = n.db.live := by
    rw [onDb_run]
    unfold truncateToHeight
    by_cases hfits : [height].all fitsInt64 = true
    · have hbody : (bindInts [height] >>= fun _ => statement (Tables.deleteBlocksAbove height)) n.db.opened =
          (.ok (), n.db.opened.exec (Tables.deleteBlocksAbove height)) :=
        (bind_of_ok (bindInts_ok.mpr ⟨hfits, rfl⟩)).trans (statement_run _ _)
      rw [atomically_returned (P := Part.whole) nestedTransaction hbegin hbody]
      refine ⟨rfl, ?_⟩
      show (n.db.opened.exec (Tables.deleteBlocksAbove height)).live = _
      rw [Store.live_exec, hopened, hkeep]
    · have hbody : (bindInts [height] >>= fun _ => statement (Tables.deleteBlocksAbove height)) n.db.opened =
          (.error "Python int too large to convert to SQLite INTEGER", n.db.opened) := by
        rw [bind_run]
        unfold bindInts
        rw [if_neg hfits]
        rfl
      rw [atomically_raised (P := Part.whole) nestedTransaction hbegin hbody]
      refine ⟨rfl, ?_⟩
      show n.db.opened.rollback.live = _
      simp [Store.live, Store.opened, Store.rollback, hk.closed]
  exact hk.same hend.1 (congrArg Tables.chainRows hend.2) (congrArg Tables.accounts hend.2) (congrArg Tables.poolLocks hend.2)

/-! ## Runs -/

inductive TableCall where
  | chain (call : Call)
  | truncateToHeight (height : Int)

def TableCall.run (c : Blockchain) : TableCall → Node → Node
  | .chain call, n => call.run c n
  | .truncateToHeight height, n => (onDb (Blockchain.truncateToHeight height) n).2

/-- An accepted block can be executed again and brings new transactions; one that is rejected once its execution has
begun has committed nothing. -/
def Orderly (c : Blockchain) (now : Int) (b : Block) (preserve : Bool) (n : Node) (accepted : Bool) : Prop :=
  if accepted then c.Replayable now b preserve n ∧ NewTxs b n else c.admitBlock n b = .ok () → c.Quiet now b n

def TableCall.Orderly (c : Blockchain) : TableCall → Node → Prop
  | .chain (.addBlock now b preserve), n => c.Orderly now b preserve n (c.addBlock now b preserve n).1.isOk
  | .chain (.importBlock now d), n =>
    ¬ Truncates d n ∧
      c.Orderly now (Block.fromDict c.host now (normalizeBlockDict d)) true n (c.importBlock now d n).1.isOk
  | .chain (.reorgToAncestor now floor height), n =>
    0 ≤ height ∧ ((onDb (c.reorgToAncestor now floor height) n).1.isOk = false → c.QuietReplay now height n.db)
  | .truncateToHeight height, n => n.db.live.getChainTip ≤ height

theorem Kept.step {call : TableCall} (hk : Kept c n) (ho : call.Orderly c n) : Kept c (call.run c n) := by
  cases call with
  | truncateToHeight height => exact hk.truncated ho
  | chain call =>
    cases call with
    | addBlock now b preserve =>
      have ho : c.Orderly now b preserve n (c.addBlock now b preserve n).1.isOk := ho
      show Kept c (c.addBlock now b preserve n).2
      rcases hrun : c.addBlock now b preserve n with ⟨f | b', n'⟩
      · rw [hrun] at ho
        exact hk.rejected hrun ho
      · rw [hrun] at ho
        exact hk.accepted hrun ho.1 ho.2
    | importBlock now d =>
      obtain ⟨ht, ho⟩ : ¬ Truncates d n ∧
        c.Orderly now (Block.fromDict c.host now (normalizeBlockDict d)) true n (c.importBlock now d n).1.isOk := ho
      show Kept c (c.importBlock now d n).2
      rcases hrun : c.importBlock now d n with ⟨f | b', n'⟩
      · rw [hrun] at ho
        rcases importBlock_rejected ht hrun with rfl | hadd
        · exact hk
        · exact hk.rejected hadd ho
      · rw [hrun] at ho
        obtain ⟨n₀, h₀, -, hadd⟩ := importBlock_ok hrun
        rcases h₀ with rfl | ⟨-, e, he, hne, hz⟩
        · exact hk.accepted hadd ho.1 ho.2
        · exact absurd ⟨hz, e, he, hne⟩ ht
    | reorgToAncestor now floor height =>
      obtain ⟨hcut, hq⟩ : 0 ≤ height ∧
        ((onDb (c.reorgToAncestor now floor height) n).1.isOk = false → c.QuietReplay now height n.db) := ho
      show Kept c (onDb (c.reorgToAncestor now floor height) n).2
      rw [onDb_run] at hq ⊢
      rcases hrun : c.reorgToAncestor now floor height n.db with ⟨f | u, db⟩
      · rw [hrun] at hq
        exact hk.refused hrun (hq rfl)
      · exact hk.reorganised hcut hrun

/-- A node that has a genesis block without transactions and the allocation, and nothing else. -/
structure FreshChain (c : Blockchain) (n : Node) : Prop where
  closed : n.db.pending = none
  accounts : n.db.live.accounts = c.allocated
  genesis : ∃ d, n.db.live.blocks = Table.empty.put 0 d ∧ d.height = 0 ∧ d.transactions = [] ∧
    ∀ h r, n.db.live.proposerAudit.get? h = some r → h = 0 ∧ r.blockHash = d.hash
  transactions : n.db.live.transactions = .empty
  txReceipts : n.db.live.txReceipts = .empty
  burnStats : n.db.live.burnStats = .empty

theorem FreshChain.kept (hg : FreshChain c n) : Kept c n := by
  obtain ⟨d, hblocks, hheight, hempty, haudit⟩ := hg.genesis
  have hl : Linked n.db.live := .single hblocks hheight
  have hget : ∀ k, n.db.live.getBlock k = if k = 0 then some d else none := by
    intro k
    unfold Tables.getBlock
    rw [hblocks]
    exact Table.get_put Table.empty k 0 d
  have htip : n.db.live.getChainTip = 0 := by
    refine (Linked.tip_of_heights (le_refl 0) fun k => ?_).1
    rw [hget]
    by_cases hk : k = 0
    · simp [hk]
    · simp only [if_neg hk, Option.isSome_none, Bool.false_eq_true, false_iff]
      omega
  refine ⟨hg.closed, hl, ⟨fun hx => ?_, fun hx => ?_, fun hx => ?_, fun {h r} hx => ?_, fun {h e x} he hx => ?_⟩, ?_, fun k hk => ?_⟩
  · rw [hg.transactions] at hx
    cases hx
  · rw [hg.txReceipts] at hx
    cases hx
  · rw [hg.burnStats] at hx
    cases hx
  · obtain ⟨rfl, hr⟩ := haudit h r hx
    exact ⟨d, by rw [hget, if_pos rfl], hr⟩
  · rw [hget] at he
    by_cases hh : h = 0
    · rw [if_pos hh] at he
      cases he
      rw [hempty] at hx
      cases hx
    · rw [if_neg hh] at he
      cases he
  · rw [htip, hg.accounts]
    exact executes_zero
  · rw [htip] at hk
    obtain rfl : k = 0 := by omega
    exact ⟨_, executes_zero⟩

/-- In every run of the four methods whose calls are orderly the tables match the stored chain in every state. -/
theorem tables_match {calls : List TableCall} (hg : FreshChain c n)
    (ho : Runs.Along (TableCall.run c) (TableCall.Orderly c) calls n) :
    Runs.Always (TableCall.run c) (TablesMatch c) calls n :=
  (Runs.always_of_along (fun _ _ hk ho => Kept.step hk ho) hg.kept ho).imp fun _ hk => ⟨hk.recorded, hk.executed⟩

/-! ### Runs from a small genesis -/

def allocatedNode : Node :=
  { genesisNode none with db := { file := { (genesisNode none).db.live with accounts := plain.allocated }, pending := none } }

theorem allocatedNode_fresh : FreshChain plain allocatedNode where
  closed := rfl
  accounts := rfl
  genesis := ⟨genesisRow, rfl, rfl, rfl, fun _ _ h => nomatch h⟩
  transactions := rfl
  txReceipts := rfl
  burnStats := rfl

theorem allocatedNode_get {h : Int} {d : BlockDict} (hd : allocatedNode.db.live.getBlock h = some d) : d = genesisRow := by
  have hd' : (if h = 0 then some genesisRow else none) = some d := by
    rw [← hd]
    exact (Table.get_put Table.empty h 0 genesisRow).symm
  split at hd'
  · exact (Option.some.inj hd').symm
  · cases hd'

def firstPayment : Transaction :=
  Transaction.init .plain 2
    { fromAddr := defaultFounderAddress, toAddr := "b", value := .int 5, nonce := 0, gas := 0, data := "", txHash := "t",
      signature := "", publicKey := "", timestamp := 2 }

theorem tables_match_first :
    (plain.addBlock 2 (firstBlock [firstPayment]) true allocatedNode).1.isOk = true ∧
    Runs.Always (TableCall.run plain) (TablesMatch plain) [.chain (.addBlock 2 (firstBlock [firstPayment]) true)]
      allocatedNode := by
  have hok : (plain.addBlock 2 (firstBlock [firstPayment]) true allocatedNode).1.isOk = true ∧
      (plain.addBlock 2 (firstBlock [firstPayment]) true allocatedNode).1.toOption.map Block.hash = some "b" := by
    decide +kernel
  obtain ⟨hok, hhash⟩ := hok
  have hsilent : plain.Along 2 1 "v" (plain.Silent 2 1) [firstPayment] allocatedNode.db.opened := ⟨trivial, trivial⟩
  have hreplayable : plain.Replayable 2 (firstBlock [firstPayment]) true allocatedNode := by
    refine { fresh := fun b' n' hrun h d hd => ?_, named := fun tx htx => ?_, ordinary := fun tx htx hlocks => ?_,
             silent := hsilent, unburned := .inr (le_of_eq (by decide +kernel)) }
    · rw [hrun] at hhash
      have hb : b'.hash = "b" := Option.some.inj hhash
      rw [allocatedNode_get hd, hb]
      decide
    · rw [List.mem_singleton.mp htx]
      decide
    · cases hlocks
  have horderly : TableCall.Orderly plain (.chain (.addBlock 2 (firstBlock [firstPayment]) true)) allocatedNode := by
    show plain.Orderly 2 (firstBlock [firstPayment]) true allocatedNode
      (plain.addBlock 2 (firstBlock [firstPayment]) true allocatedNode).1.isOk
    rw [hok]
    refine ⟨hreplayable, List.nodup_singleton _, fun h d x hd hx => ?_⟩
    rw [allocatedNode_get hd] at hx
    cases hx
  exact ⟨hok, tables_match allocatedNode_fresh ⟨horderly, trivial⟩⟩

/-- Dropping blocks leaves the rows that came with them, on both of the paths that drop blocks only; and a second
transaction with the same hash takes the row of the first. -/
theorem tables_differ :
    let pay (nonce : Int) := Transaction.init .plain 2
      { fromAddr := defaultFounderAddress, toAddr := "b", value := .int 5, nonce := nonce, gas := 21000, data := "",
        txHash := "t", signature := "", publicKey := "", timestamp := 2 }
    let foreign := { peerBlock 0 "x" "y" with timestamp := some 1000 }
    let run (calls : List TableCall) := Runs.run (TableCall.run plain) calls allocatedNode
    let blocks (n : Node) := n.db.live.blocks.rows.map fun e => (e.1, e.2.transactions.length)
    let audited (n : Node) := n.db.live.proposerAudit.rows.map Prod.fst
    let truncated := run [.chain (.addBlock 2 (firstBlock []) true), .truncateToHeight 0]
    let replaced := run [.chain (.addBlock 2 (firstBlock []) true), .chain (.importBlock 2 foreign)]
    let paid := run [.chain (.addBlock 2 (firstBlock [pay 0, pay 1]) true)]
    (blocks truncated = [(0, 0)] ∧ audited truncated = [1]) ∧ (blocks replaced = [] ∧ audited replaced = [1]) ∧
    (blocks paid = [(0, 0), (1, 2)] ∧ paid.db.live.transactions.rows.map Prod.fst = ["t"]) := by
  decide +kernel

end Blockchain

end AbsoluteChain
