import AbsoluteChain.Announced
import AbsoluteChain.SameLedger

/-!
# A block on the next node

A block that one node produced, imported by a node that was in the same state. Execution is the same on
both; what differs is what each node has of its own: the addresses it may propose under, the proposals
it has recorded, what its pools released, and its clock.
-/

namespace AbsoluteChain

open Python Actions Act Transactions KeyedTable

/-! ## Two nodes -/

def Node.punishes (n : Node) (a : String) : Prop := ∃ e, n.slashing = some e ∧ a ∈ e.slashed

structure SideBySide (m n : Node) : Prop where
  blocks : n.db.live.blocks = m.db.live.blocks
  accounts : n.db.live.accounts = m.db.live.accounts
  validators : n.db.live.validators = m.db.live.validators
  slashed : ∀ a, n.punishes a ↔ m.punishes a

namespace Blockchain

def TakesIn (c : Blockchain) (now : Int) (b : Block) (m n : Node) : Prop :=
  ∃ b' n', c.importBlock now b.toDict.asPeer n = (.ok b', n') ∧ n'.db.live.accounts = m.db.live.accounts ∧
    ∃ d e, n'.db.live.getBlock b.height = some d ∧ m.db.live.getBlock b.height = some e ∧ BlockDict.Same d e

/-- Whom a node lets propose. -/
def Recognises (c : Blockchain) (t : Tables) (miner : String) : Prop :=
  miner = "" ∨ miner = "genesis" ∨ c.config.enforceProposer = false ∨ t.getValidators.length ≤ 1 ∨
    c.host.lower miner ∈ (t.getValidators.map Prod.fst ++
      [c.config.minerAddress, c.config.signingAddress].filter fun a => a ≠ "").map c.host.lower

/-- What the importer has of its own lets the block in, and the block has nothing that reading it back changes. -/
structure Admits (c : Blockchain) (now : Int) (b : Block) (n : Node) : Prop where
  proposer : c.Recognises n.db.live b.miner
  unproposed : b.miner = "" ∨ b.miner = "genesis" ∨ ∀ e, n.slashing = some e → (b.height, b.miner) ∉ e.proposals
  pools : ∀ tx ∈ b.transactions,
    c.checkPool n.db.live tx.fromAddr (tx.value.toRat + c.gasFee tx.gas) (n.db.live.getBalance tx.fromAddr) = .ok ()
  clock : b.timestamp ≤ now + 120
  later : ∀ last, n.db.live.getLastBlock = some last → last.timestamp ≤ b.timestamp
  timestamp : b.timestamp ≠ 0 ∨ now = 0
  transactions : ∀ tx ∈ b.transactions, tx.hash ≠ "" ∧ (tx.timestamp ≠ 0 ∨ now = 0)
  gas : (b.transactions.map Transaction.gasUsed).sum = (b.transactions.map Transaction.gas).sum

section
variable {c : Blockchain} {now : Int} {b : Block} {n : Node}

theorem verifyBlockProposer_iff {t : Tables} {slashing : Option SlashingEngine} :
    c.verifyBlockProposer t slashing b = .ok () ↔ c.Recognises t b.miner ∧
      (b.miner = "" ∨ b.miner = "genesis" ∨ ∀ e, slashing = some e → b.miner ∉ e.slashed) := by
  unfold verifyBlockProposer Recognises
  by_cases hm : b.miner = "" ∨ b.miner = "genesis"
  · rw [if_pos hm]
    exact iff_of_true rfl ⟨hm.imp_right .inl, hm.imp_right .inl⟩
  · rw [if_neg hm]
    obtain ⟨h₁, h₂⟩ := not_or.mp hm
    have hs : (slashing.map fun e => decide (b.miner ∈ e.slashed)).getD false = true ↔
        ∃ e, slashing = some e ∧ b.miner ∈ e.slashed := by
      cases slashing with
      | none => simp
      | some e => simp
    by_cases hslashed : ∃ e, slashing = some e ∧ b.miner ∈ e.slashed
    · rw [if_pos (hs.mpr hslashed)]
      obtain ⟨e, he, hmem⟩ := hslashed
      refine iff_of_false (fun h => nomatch h) fun h => ?_
      exact ((h.2.resolve_left h₁).resolve_left h₂) e he hmem
    · rw [if_neg fun h => hslashed (hs.mp h)]
      have hfree : ∀ e, slashing = some e → b.miner ∉ e.slashed := fun e he hmem => hslashed ⟨e, he, hmem⟩
      simp only [h₁, h₂, false_or]
      rw [and_iff_left hfree]
      by_cases he : c.config.enforceProposer = true
      · rw [if_neg (not_not.mpr he)]
        simp only [he, Bool.true_eq_false, false_or]
        by_cases hl : t.getValidators.length ≤ 1
        · simp [hl]
        · simp only [hl, if_false, false_or]
          split
          · rename_i hmem
            exact iff_of_true rfl hmem
          · rename_i hmem
            exact iff_of_false (fun h => nomatch h) hmem
      · rw [if_pos he]
        exact iff_of_true rfl (.inl (by simpa using he))

theorem validateShapes_ok {txs : List PeerTx} :
    validateShapes txs = .ok () ↔ ∀ tx ∈ txs, validateTransactionShape tx = .ok () := by
  induction txs with
  | nil => exact iff_of_true rfl fun _ h => nomatch h
  | cons tx rest ih =>
    unfold validateShapes
    rw [List.forall_mem_cons]
    cases validateTransactionShape tx with
    | error msg => exact iff_of_false (fun h => nomatch h) fun h => nomatch h.1
    | ok u => exact ih.trans (iff_and_self.mpr fun _ => rfl)

theorem shape_own {tx : Transaction} (hv : 0 ≤ tx.value.toRat) :
    validateTransactionShape (normalizeTxDict tx.toDict.asPeer) = .ok () ↔ tx.hash ≠ "" := by
  simp only [validateTransactionShape, check_bind_ok, require_ok, decide_eq_true_eq]
  have hfields : (normalizeTxDict tx.toDict.asPeer).fromAddr.isSome = true ∧
      (normalizeTxDict tx.toDict.asPeer).toAddr.isSome = true ∧ (normalizeTxDict tx.toDict.asPeer).nonce.isSome = true ∧
      (normalizeTxDict tx.toDict.asPeer).txHash.isSome = false := ⟨rfl, rfl, rfl, rfl⟩
  obtain ⟨h₁, h₂, h₃, h₄⟩ := hfields
  have hvalue : 0 ≤ (field (normalizeTxDict tx.toDict.asPeer).value (normalizeTxDict tx.toDict.asPeer).amount (.int 0)).toRat := hv
  simp only [h₁, h₂, h₃, h₄, or_true, hvalue, and_true, Bool.false_eq_true, or_false]
  rfl

/-- What is checked of the dictionary of a block that was produced on top of the last one. -/
theorem blockValidator_own {p : BlockDict} (hparent : b.parentHash = p.hash) (hheight : b.height = p.height + 1)
    (hvalues : ∀ tx ∈ b.transactions, 0 ≤ tx.value.toRat) :
    blockValidator now (normalizeBlockDict b.toDict.asPeer) (some p) = .ok () ↔
      b.timestamp ≤ now + 120 ∧ p.timestamp ≤ b.timestamp ∧ ∀ tx ∈ b.transactions, tx.hash ≠ "" := by
  have htxs : (normalizeBlockDict b.toDict.asPeer).transactions =
      some (b.transactions.map fun tx => normalizeTxDict tx.toDict.asPeer) := by
    show some (((b.transactions.map Transaction.toDict).map TxDict.asPeer).map normalizeTxDict) = _
    rw [List.map_map, List.map_map]
    rfl
  have hfields : (normalizeBlockDict b.toDict.asPeer).parentHash = some b.parentHash ∧
      (normalizeBlockDict b.toDict.asPeer).timestamp = some b.timestamp ∧
      (normalizeBlockDict b.toDict.asPeer).number.getD ((normalizeBlockDict b.toDict.asPeer).height.getD 0) = b.height ∧
      (normalizeBlockDict b.toDict.asPeer).txRoot = some b.txRoot := ⟨rfl, rfl, rfl, rfl⟩
  obtain ⟨h₁, h₂, h₃, h₄⟩ := hfields
  have hshapes : validateShapes (b.transactions.map fun tx => normalizeTxDict tx.toDict.asPeer) = .ok () ↔
      ∀ tx ∈ b.transactions, tx.hash ≠ "" := by
    rw [validateShapes_ok, List.forall_mem_map]
    exact forall₂_congr fun tx htx => shape_own (hvalues tx htx)
  have hroot : b.txRoot = "" ∨ (b.transactions.map fun tx => normalizeTxDict tx.toDict.asPeer) = [] ∨
      txRootMatches b.txRoot (merkleRoot ((b.transactions.map fun tx => normalizeTxDict tx.toDict.asPeer).map
        fun tx => field tx.hash tx.txHash "")) = true := by
    cases hb : b.transactions with
    | nil => exact .inr (.inl rfl)
    | cons tx rest =>
      refine .inr (.inr ?_)
      have hhashes : ((tx :: rest).map fun tx => normalizeTxDict tx.toDict.asPeer).map (fun tx => field tx.hash tx.txHash "") =
          (tx :: rest).map Transaction.hash := by
        rw [List.map_map]
        rfl
      have hown : b.txRoot = merkleRoot ((tx :: rest).map Transaction.hash) := by
        unfold Block.txRoot
        rw [hb]
        rfl
      rw [hhashes, hown]
      unfold txRootMatches
      exact List.isPrefixOf_iff_prefix.mpr (List.prefix_refl _)
  simp only [blockValidator, check_bind_ok, require_ok, decide_eq_true_eq, htxs, h₁, h₂, h₃, h₄, Option.getD_some, Option.isSome_some,
    true_and, hparent, hheight, hshapes, hroot, and_true, or_true]

end

/-! ## The block read back -/

section
variable {α β : Type} {R S : α → β → Prop} {l : List α} {l' : List β}

theorem forall₂_both (hr : List.Forall₂ R l l') (hs : List.Forall₂ S l l') : List.Forall₂ (fun x y => R x y ∧ S x y) l l' := by
  induction hr with
  | nil => exact .nil
  | cons hr _ ih =>
    cases hs with
    | cons hs hrest => exact .cons ⟨hr, hs⟩ (ih hrest)

theorem forall_mem_iff {P : α → Prop} {Q : β → Prop} (h : List.Forall₂ R l l') (hpq : ∀ x y, R x y → (P x ↔ Q y)) :
    (∀ x ∈ l, P x) ↔ ∀ y ∈ l', Q y := by
  induction h with
  | nil => exact iff_of_true (fun _ h => nomatch h) fun _ h => nomatch h
  | cons hxy _ ih => rw [List.forall_mem_cons, List.forall_mem_cons, hpq _ _ hxy, ih]

theorem map_eq_of_forall₂ {γ : Type} {f : α → γ} {g : β → γ} (h : List.Forall₂ R l l') (hfg : ∀ x y, R x y → f x = g y) :
    l.map f = l'.map g := by
  rw [← List.forall₂_eq_eq_eq, List.forall₂_map_left_iff, List.forall₂_map_right_iff]
  exact h.imp hfg

end

section
variable {c c' : Blockchain} {now now' : Int} {b b' b'' : Block} {m m' n n' : Node}

theorem Accepted.timestamp_eq {preserve : Bool} (r : Accepted c now b preserve m b' m') : b'.timestamp = b.timestamp :=
  (congrArg Block.timestamp r.block_eq).trans rfl

theorem Accepted.gasUsed_eq {preserve : Bool} (r : Accepted c now b preserve m b' m') : b'.gasUsed = b.gasUsed :=
  (congrArg Block.gasUsed r.block_eq).trans rfl

theorem Accepted.extraData_eq {preserve : Bool} (r : Accepted c now b preserve m b' m') : b'.extraData = b.extraData :=
  (congrArg Block.extraData r.block_eq).trans rfl

def Reread (host : Host) (now height : Int) (x y : Transaction) : Prop :=
  y = { x.readBack host now with fee := y.fee, burned := y.burned, gasUsed := y.gasUsed, blockHeight := height }

theorem reread_of_steps {height : Int} {proposer : String} {ys : List Transaction} {s t : Db} (hhash : b'.hash ≠ "")
    (h : TxSteps c' now' height proposer (b'.readBack c.host now').transactions s ys t) :
    List.Forall₂ (Reread c.host now' height) b'.transactions ys := by
  have hkept := h.kept
  rw [readBack_block hhash] at hkept
  exact (List.forall₂_map_left_iff (f := Transaction.readBack c.host now')).mp hkept

theorem executed_same (r : Accepted c now b false m b' m') {ys : List Transaction}
    (hreread : List.Forall₂ (Reread c.host now' b'.height) b'.transactions ys)
    (hout : List.Forall₂ SameOutcome b'.transactions ys) (hnamed : ∀ tx ∈ b'.transactions, tx.hash ≠ "" ∧ (tx.timestamp ≠ 0 ∨ now' = 0)) :
    List.Forall₂ (fun x y => y = { x with value := .float x.value.toRat }) b'.transactions ys := by
  have hheights : ∀ x ∈ b'.transactions, x.blockHeight = b'.height := by
    rw [r.transactions_eq, r.height_eq]
    refine (forall_mem_iff (P := fun _ => True) r.steps.kept fun x y h => iff_of_true trivial ?_).mp fun _ _ => trivial
    rw [h]
  refine ((List.forall₂_and_left _ _).mpr ⟨fun x hx => And.intro (hnamed x hx) (hheights x hx), forall₂_both hreread hout⟩).imp ?_
  rintro x y ⟨⟨⟨hhash, htime⟩, hheight⟩, hread, hout⟩
  rw [hread, readBack_tx, hout.fee, hout.burned, hout.gasUsed, ← hheight]
  simp only [timestamp_self.mpr htime, (orElse_self (computeHash_ne_empty _)).mpr hhash]

variable (hhash : b'.hash ≠ "") (r : Accepted c now b false m b' m') (r' : Accepted c' now' (b'.readBack c.host now') true n b'' n')
include hhash r'

theorem Accepted.reread : List.Forall₂ (Reread c.host now' b'.height) b'.transactions b''.transactions := by
  have hreread := reread_of_steps hhash r'.steps
  rw [← r'.transactions_eq, readBack_block hhash] at hreread
  exact hreread

theorem Accepted.of_same_row (h : BlockDict.Same b''.toDict b'.toDict) :
    (∀ tx ∈ b'.transactions, tx.hash ≠ "" ∧ (tx.timestamp ≠ 0 ∨ now' = 0)) ∧ (b'.timestamp ≠ 0 ∨ now' = 0) ∧
      b'.gasUsed = (b'.transactions.map Transaction.gas).sum := by
  have hread := @readBack_block c.host now' b' hhash
  have hreread := Accepted.reread hhash r'
  have htimes : b''.timestamp = b'.timestamp := congrArg BlockDict.timestamp h.1
  have hused : b''.gasUsed = b'.gasUsed := congrArg BlockDict.gasUsed h.1
  rw [r'.timestamp_eq, hread] at htimes
  rw [r'.gasUsed_eq, hread] at hused
  have hrows : List.Forall₂ (fun x y : Transaction => y.hash = x.hash ∧ y.timestamp = x.timestamp) b'.transactions b''.transactions :=
    (List.forall₂_map_left_iff.mp (List.forall₂_map_right_iff.mp h.2)).flip.imp fun x y h =>
      ⟨congrArg TxDict.hash h.1, congrArg TxDict.timestamp h.1⟩
  refine ⟨(forall_mem_iff (Q := fun _ => True) (forall₂_both hreread hrows) ?_).mpr fun _ _ => trivial,
    timestamp_self.mp htimes, hused.symm⟩
  rintro x y ⟨hy, hhashes, htimes⟩
  rw [hy, readBack_tx] at hhashes htimes
  exact iff_of_true ⟨(orElse_self (computeHash_ne_empty _)).mp hhashes, timestamp_self.mp htimes⟩ trivial

include r

/-- The stored block is the producer's, when reading it back changes nothing and both executions charged the same. -/
theorem Accepted.same_row (hout : List.Forall₂ SameOutcome b'.transactions b''.transactions)
    (hroot : b''.stateRoot = b'.stateRoot) (hnamed : ∀ tx ∈ b'.transactions, tx.hash ≠ "" ∧ (tx.timestamp ≠ 0 ∨ now' = 0))
    (htime : b'.timestamp ≠ 0 ∨ now' = 0) (hgas : b'.gasUsed = (b'.transactions.map Transaction.gas).sum) :
    BlockDict.Same b''.toDict b'.toDict := by
  have hread := @readBack_block c.host now' b' hhash
  have hheight : b''.height = b'.height := r'.height_eq.trans (by rw [hread])
  have hburned : b''.totalBurned = b'.totalBurned := by
    rw [r'.totalBurned_eq, r.totalBurned_eq, ← r.transactions_eq, ← r'.transactions_eq,
      map_eq_of_forall₂ hout fun x y h => h.burned.symm]
  have hkept : b''.hash = b'.hash := by
    rw [r'.hash_eq, hread, if_pos ⟨rfl, hhash⟩]
  have htimes : b''.timestamp = b'.timestamp := by
    rw [r'.timestamp_eq, hread]
    exact timestamp_self.mpr htime
  have hused : b''.gasUsed = b'.gasUsed := by
    rw [r'.gasUsed_eq, hread, hgas]
  have hparent : b''.parentHash = b'.parentHash := r'.parentHash_eq.trans (by rw [hread])
  have hminer : b''.miner = b'.miner := r'.miner_eq.trans (by rw [hread])
  have hextra : b''.extraData = b'.extraData := r'.extraData_eq.trans (by rw [hread])
  have htxs := executed_same r (Accepted.reread hhash r') hout hnamed
  have hhashes : b''.transactions.map Transaction.hash = b'.transactions.map Transaction.hash :=
    (map_eq_of_forall₂ htxs fun x y h => by rw [h]).symm
  have hroots : b''.txRoot = b'.txRoot := by
    unfold Block.txRoot computeTxRoot
    generalize b'.transactions = l at htxs hhashes
    generalize b''.transactions = l' at htxs hhashes
    cases htxs with
    | nil => rfl
    | cons _ _ => exact congrArg merkleRoot hhashes
  have hcount : b''.txCount = b'.txCount := htxs.length_eq.symm
  refine ⟨?_, ?_⟩
  · simp only [Block.toDict, hheight, hkept, hparent, hminer, htimes, hcount, hused, hburned, hextra, hroot, hroots]
  · refine List.forall₂_map_left_iff.mpr (List.forall₂_map_right_iff.mpr (htxs.flip.imp ?_))
    rintro y x rfl
    exact ⟨rfl, rfl⟩

end

/-! ## Both executions -/

section
variable {c : Blockchain} {home : Home} {now now' : Int} {b b' : Block} {m m' n : Node}

theorem Accepted.unchanged_iff (r : Accepted c now b false m b' m') (hused : b.gasUsed = (b.transactions.map Transaction.gasUsed).sum) :
    ((∀ tx ∈ b'.transactions, tx.hash ≠ "" ∧ (tx.timestamp ≠ 0 ∨ now' = 0)) ∧ (b'.timestamp ≠ 0 ∨ now' = 0) ∧
      b'.gasUsed = (b'.transactions.map Transaction.gas).sum) ↔
    (∀ tx ∈ b.transactions, tx.hash ≠ "" ∧ (tx.timestamp ≠ 0 ∨ now' = 0)) ∧ (b.timestamp ≠ 0 ∨ now' = 0) ∧
      (b.transactions.map Transaction.gasUsed).sum = (b.transactions.map Transaction.gas).sum := by
  rw [r.transactions_eq, r.timestamp_eq, r.gasUsed_eq, hused]
  rw [map_eq_of_forall₂ (f := Transaction.gas) (g := Transaction.gas) r.steps.kept fun x y h => by rw [h]]
  refine and_congr_left fun _ => (forall_mem_iff r.steps.kept fun x y h => ?_).symm
  rw [h]

theorem sameLedger_opened (h : SideBySide m n) (hm : m.db.pending = none) (hn : n.db.pending = none)
    (hstarted : m.db.live.getLastBlock ≠ none) : SameLedger m.db.opened n.db.opened := by
  refine ⟨?_, ?_, ?_⟩
  · rw [Store.live_opened hm, Store.live_opened hn]
    exact h.accounts
  · rw [Store.live_opened hm, Store.live_opened hn]
    exact h.blocks
  · rw [Store.live_opened hm]
    intro hnone
    refine hstarted ?_
    unfold Tables.getLastBlock
    rw [hnone]
    rfl

theorem rewardTables_elsewhere {miner : String} {t u : Tables} (h : u.accounts = t.accounts) :
    ((c.elsewhere home).rewardTables miner u).accounts = (c.rewardTables miner t).accounts := by
  have hreward : (c.elsewhere home).rewardFor u = c.rewardFor t := by
    unfold rewardFor Tables.getTotalSupply
    rw [h]
    rfl
  unfold rewardTables
  rw [hreward]
  by_cases hpos : 0 < c.rewardFor t
  · rw [if_pos hpos, if_pos hpos]
    exact accounts_applyBalanceDelta h _ _
  · rw [if_neg hpos, if_neg hpos]
    exact h

variable (hbeside : SideBySide m n) (hclosed : n.db.pending = none) (hstarted : m.db.live.getLastBlock ≠ none)
  (hvalid : ∀ tx ∈ b.transactions, c.validateTransaction m.db.live tx = .ok ())
  (hpairs : b.transactions.Pairwise fun x y => x.fromAddr ≠ y.fromAddr)
  (hused : b.gasUsed = (b.transactions.map Transaction.gasUsed).sum)
  (r : Accepted c now b false m b' m')

include hbeside hvalid r in
/-- The pools of the importer, asked before the block or at each turn. -/
theorem pools_iff (hnamed : ∀ tx ∈ b.transactions, tx.hash ≠ "") :
    (∀ tx ∈ b.transactions, (c.elsewhere home).checkPool n.db.live tx.fromAddr
      (tx.value.toRat + (c.elsewhere home).gasFee tx.gas) (n.db.live.getBalance tx.fromAddr) = .ok ()) ↔
    ∀ y ∈ (b'.readBack c.host now').transactions,
      (c.elsewhere home).checkPool n.db.live y.fromAddr (c.cost y) (c.cost y) = .ok () := by
  have hcosts : ∀ tx ∈ b.transactions, c.cost tx ≤ n.db.live.getBalance tx.fromAddr := by
    intro tx htx
    rw [Tables.balance_congr hbeside.accounts]
    exact (precheck_ok.mp (valid_prechecked (hvalid tx htx)).2.2).2.1
  refine (forall₂_congr fun tx htx => checkPool_amount (hcosts tx htx)).trans
    (forall_mem_iff (r.sameTxs hnamed now') fun x y hxy => ?_)
  rw [hxy.fromAddr]
  unfold cost
  rw [hxy.value, hxy.gas]

include hpairs r in
theorem senders_apart (hnamed : ∀ tx ∈ b.transactions, tx.hash ≠ "") :
    (b'.readBack c.host now').transactions.Pairwise fun x y => x.fromAddr ≠ y.fromAddr := by
  have hsame := map_eq_of_forall₂ (f := Transaction.fromAddr) (g := Transaction.fromAddr) (r.sameTxs hnamed now')
    fun x y h => h.fromAddr.symm
  have hmapped := List.pairwise_map.mpr hpairs
  rw [hsame] at hmapped
  exact List.pairwise_map.mp hmapped

include hbeside hclosed hstarted hpairs r in
/-- The importer executes what the producer executed. -/
theorem execution_elsewhere (hhash : b'.hash ≠ "") (hnamed : ∀ tx ∈ b.transactions, tx.hash ≠ "")
    (hfee : b.transactions = [] ∨ (c.elsewhere home).feeRecipient b.miner = c.feeRecipient b.miner)
    (hpools : ∀ y ∈ (b'.readBack c.host now').transactions,
      (c.elsewhere home).checkPool n.db.live y.fromAddr (c.cost y) (c.cost y) = .ok ()) :
    ∃ ys u, (c.elsewhere home).applyTransactions now' (b'.readBack c.host now').height (b'.readBack c.host now').miner
        (b'.readBack c.host now').transactions n.db.opened = (.ok ys, u) ∧
      SameLedger r.applied u ∧ List.Forall₂ SameOutcome b'.transactions ys := by
  have hread := @readBack_block c.host now' b' hhash
  have hopened : n.db.opened.live = n.db.live := Store.live_opened hclosed
  have hheight : (b'.readBack c.host now').height = b.height := by
    rw [hread]
    exact r.height_eq
  have hminer : (b'.readBack c.host now').miner = b.miner := by
    rw [hread]
    exact r.miner_eq
  rw [hheight, hminer, r.transactions_eq]
  refine runs_elsewhere (r.sameTxs hnamed now') (senders_apart hpairs r hnamed) hfee ?_ r.ran ?_
  · rw [r.began]
    exact sameLedger_opened hbeside r.closed hclosed hstarted
  · rw [hopened]
    exact hpools

theorem accepted_columns {preserve : Bool} (h : c.addBlock now b preserve m = (.ok b', m')) :
    b.columns.all fitsInt64 = true ∧ ∀ tx ∈ b'.transactions, tx.toDict.columns.all fitsInt64 = true := by
  obtain ⟨r⟩ := addBlock_ok h
  obtain ⟨-, -, hbody⟩ := addBlock_returns.mp ⟨b', m', h⟩
  unfold blockBody at hbody
  obtain ⟨txs, db, hrun, -, -, hcolumns, hfits⟩ := executeBlock_returns.mp hbody
  have hsame := hrun.symm.trans r.run_opened
  obtain rfl : txs = r.txs := Except.ok.inj (congrArg Prod.fst hsame)
  rw [r.transactions_eq]
  exact ⟨hcolumns, hfits⟩

include hbeside r in
theorem unpunished : b.miner = "" ∨ b.miner = "genesis" ∨ ∀ e, n.slashing = some e → b.miner ∉ e.slashed := by
  have hproposer := (verifyBlockProposer_iff.mp (admitBlock_ok r.admitted).proposer).2
  refine hproposer.imp_right (Or.imp_right fun hfree e he hmem => ?_)
  obtain ⟨e', he', hmem'⟩ := (hbeside.slashed b.miner).mp ⟨e, he, hmem⟩
  exact hfree e' he' hmem'

include hbeside r in
/-- The block passes the checks that are made before it is executed. -/
theorem admitted_elsewhere (hhash : b'.hash ≠ "") (hnamed : ∀ tx ∈ b.transactions, tx.hash ≠ "")
    (hknown : (c.elsewhere home).Recognises n.db.live b.miner) :
    (c.elsewhere home).admitBlock n (b'.readBack c.host now') = .ok () := by
  have hread := @readBack_block c.host now' b' hhash
  have hadm := admitBlock_ok r.admitted
  have hheight : (b'.readBack c.host now').height = b.height := by
    rw [hread]
    exact r.height_eq
  have hparent : (b'.readBack c.host now').parentHash = b.parentHash := by
    rw [hread]
    exact r.parentHash_eq
  have hminer : (b'.readBack c.host now').miner = b.miner := by
    rw [hread]
    exact r.miner_eq
  have hfree : n.db.live.getBlock b.height = none := by
    rw [getBlock_congr hbeside.blocks]
    exact hadm.free
  have hstructure : validateBlockStructure n.db.live (b'.readBack c.host now') = .ok () := by
    have hplace := hadm.structured
    unfold validateBlockStructure Tables.getLastBlock at hplace ⊢
    rw [hheight, hparent, hbeside.blocks]
    exact hplace
  have hproposer : (c.elsewhere home).verifyBlockProposer n.db.live n.slashing (b'.readBack c.host now') = .ok () := by
    refine verifyBlockProposer_iff.mpr ?_
    rw [hminer]
    exact ⟨hknown, unpunished hbeside r⟩
  have hsigned : verifyBlockTxSignatures (c.elsewhere home).host (c.elsewhere home).config (b'.readBack c.host now').transactions =
      .ok () := by
    refine verifyBlockTxSignatures_ok.mpr ((forall_mem_iff (r.sameTxs hnamed now') fun x y hxy => ?_).mp
      (verifyBlockTxSignatures_ok.mp hadm.signatures))
    unfold verifyTxSignature
    rw [hxy.signature, hxy.publicKey, hxy.payload]
    exact Iff.rfl
  simp only [admitBlock, check_bind_ok, require_ok, decide_eq_true_eq, hheight]
  exact ⟨hadm.fits, hfree, hstructure, hproposer, hsigned⟩

theorem place_ok {t : Tables} {last : BlockDict} (hlast : t.getLastBlock = some last) (h : validateBlockStructure t b = .ok ()) :
    b.height = last.height + 1 ∧ b.parentHash = last.hash := by
  unfold validateBlockStructure at h
  rw [hlast] at h
  dsimp only at h
  by_cases hheight : b.height ≠ last.height + 1
  · rw [if_pos hheight] at h
    cases h
  · rw [if_neg hheight] at h
    by_cases hparent : b.parentHash ≠ last.hash
    · rw [if_pos hparent] at h
      cases h
    · exact ⟨not_not.mp hheight, not_not.mp hparent⟩

include hbeside hstarted hvalid r in
theorem checked_elsewhere : blockValidator now' (normalizeBlockDict b'.toDict.asPeer) n.db.live.getLastBlock = .ok () ↔
    b.timestamp ≤ now' + 120 ∧ (∀ last, n.db.live.getLastBlock = some last → last.timestamp ≤ b.timestamp) ∧
      ∀ tx ∈ b.transactions, tx.hash ≠ "" := by
  have hlast : n.db.live.getLastBlock = m.db.live.getLastBlock := by
    unfold Tables.getLastBlock
    rw [hbeside.blocks]
  rw [hlast]
  cases hl : m.db.live.getLastBlock with
  | none => exact absurd hl hstarted
  | some last =>
    obtain ⟨hheight, hparent⟩ := place_ok hl (admitBlock_ok r.admitted).structured
    have hvalues : ∀ tx ∈ b'.transactions, 0 ≤ tx.value.toRat := by
      rw [r.transactions_eq]
      refine (forall_mem_iff r.steps.kept fun x y h => ?_).mp fun tx htx => (valid_prechecked (hvalid tx htx)).1
      rw [h]
    rw [blockValidator_own (r.parentHash_eq.trans hparent) (r.height_eq.trans hheight) hvalues, r.timestamp_eq, r.transactions_eq]
    refine and_congr_right fun _ => and_congr ?_ (forall_mem_iff r.steps.kept fun x y h => by rw [h]).symm
    exact ⟨fun h last' he => Option.some.inj he ▸ h, fun h => h last rfl⟩

include hbeside hclosed hstarted hvalid hpairs hused in
theorem importable_elsewhere (h : c.addBlock now b false m = (.ok b', m')) (ha : (c.elsewhere home).Admits now' b n)
    (hfee : b.transactions = [] ∨ (c.elsewhere home).feeRecipient b.miner = c.feeRecipient b.miner) :
    (c.elsewhere home).Importable now' b'.toDict.asPeer n := by
  obtain ⟨r⟩ := addBlock_ok h
  have hhash := own_hash_ne_empty h
  -- what the block says once it has been read back
  have hread := @readBack_block c.host now' b' hhash
  have hnamed : ∀ tx ∈ b.transactions, tx.hash ≠ "" := fun tx htx => (ha.transactions tx htx).1
  obtain ⟨hnamed', htime, hgas⟩ := (r.unchanged_iff hused).mpr ⟨ha.transactions, ha.timestamp, ha.gas⟩
  have hpools := (@pools_iff c home now now' b b' m m' n hbeside hvalid r hnamed).mp ha.pools
  obtain ⟨ys, u, hrun, hsame, hout⟩ := execution_elsewhere hbeside hclosed hstarted hpairs r hhash hnamed hfee hpools
  obtain ⟨hcolumns, hrows⟩ := accepted_columns h
  have hadm := @admitted_elsewhere c home now now' b b' m m' n hbeside r hhash hnamed ha.proposer
  -- its integers
  have hblock : (b'.readBack c.host now').columns = b.columns := by
    have htimes : (b'.readBack c.host now').timestamp = b.timestamp := by
      rw [hread]
      exact (timestamp_self.mpr htime).trans r.timestamp_eq
    have hcount : (b'.readBack c.host now').txCount = b.txCount := by
      rw [hread]
      unfold Block.txCount
      rw [List.length_map, r.transactions_eq, r.steps.kept.length_eq]
    have hgases : (b'.readBack c.host now').gasUsed = b.gasUsed := by
      rw [hread, ← r.gasUsed_eq, hgas]
    have hheight : (b'.readBack c.host now').height = b.height := by
      rw [hread]
      exact r.height_eq
    unfold Block.columns
    rw [htimes, hcount, hgases, hheight]
  -- the integers of its transactions
  have hfits : ∀ y ∈ ys, y.toDict.columns.all fitsInt64 = true := by
    have hreread := reread_of_steps hhash (applyTransactions_ok hrun)
    have hheight : (b'.readBack c.host now').height = b'.height := by rw [hread]
    rw [hheight] at hreread
    refine (forall_mem_iff ((List.forall₂_and_left _ _).mpr ⟨hrows, executed_same r hreread hout hnamed'⟩) fun x y h => ?_).mp hrows
    refine iff_of_true h.1 ?_
    rw [h.2]
    have hx := h.1
    simp only [TxDict.columns, List.all_append, Bool.and_eq_true] at hx ⊢
    exact ⟨hx.1, rfl⟩
  -- its proposal
  have hproposer : Unproposed (b'.readBack c.host now') n := by
    have hplace : (b'.readBack c.host now').miner = b.miner ∧ (b'.readBack c.host now').height = b.height := by
      rw [hread]
      exact ⟨r.miner_eq, r.height_eq⟩
    unfold Unproposed
    rw [hplace.1, hplace.2]
    rcases ha.unproposed with hnone | hgenesis | hfresh
    · exact .inl hnone
    · exact .inr (.inl hgenesis)
    · exact (unpunished hbeside r).imp_right (Or.imp_right fun hfree e he => ⟨hfree e he, hfresh e he⟩)
  refine { checked := ?_, admitted := hadm, closed := hclosed, executed := ?_, rooted := fun txs db hrun' => ?_ }
  · exact (checked_elsewhere hbeside hstarted hvalid r).mpr ⟨ha.clock, ha.later, hnamed⟩
  · exact ⟨hblock ▸ hcolumns, hproposer, (applyTransactions_returns (admitBlock_ok hadm).fits).mp ⟨ys, u, hrun, hfits⟩⟩
  · have hdet := hrun.symm.trans hrun'
    obtain rfl : u = db := congrArg Prod.snd hdet
    intro _ _ _
    -- its state root
    have hroot : (Block.fromDict (c.elsewhere home).host now' b'.toDict.asPeer).stateRoot = b'.stateRoot := by
      show (b'.readBack c.host now').stateRoot = _
      rw [hread]
    have hminer : (Block.fromDict (c.elsewhere home).host now' b'.toDict.asPeer).miner = b.miner := by
      show (b'.readBack c.host now').miner = _
      rw [hread]
      exact r.miner_eq
    have hcomputed : (c.elsewhere home).computeStateRoot ((c.elsewhere home).rewardTables b.miner u.live) =
        c.computeStateRoot (c.rewardTables b.miner r.applied.live) :=
      computeStateRoot_congr (rewardTables_elsewhere hsame.accounts)
    rw [hroot, hminer, hcomputed, r.stateRoot_eq]
    exact strip_hashData _

theorem accepted_row {preserve : Bool} (r : Accepted c now b preserve m b' m') :
    m'.db.live.getBlock b'.height = some b'.toDict := by
  rw [getBlock_congr r.blocks, getBlock_putBlock]
  exact if_pos rfl

theorem importBlock_elsewhere (hbeside : SideBySide m n) (r : Accepted c now b false m b' m') :
    (c.elsewhere home).importBlock now' b'.toDict.asPeer n =
      (c.elsewhere home).importFresh now' (normalizeBlockDict b'.toDict.asPeer) n := by
  have hadm := admitBlock_ok r.admitted
  have hheight : (Block.fromDict (c.elsewhere home).host now' b'.toDict.asPeer).height = b.height := r.height_eq
  refine importBlock_free ?_ ?_
  · rw [hheight]
    exact hadm.fits
  · rw [hheight, getBlock_congr hbeside.blocks]
    exact hadm.free

include hbeside hclosed hstarted hvalid hpairs hused in
theorem takesIn_of_admits (h : c.addBlock now b false m = (.ok b', m')) (ha : (c.elsewhere home).Admits now' b n)
    (hfee : b.transactions = [] ∨ (c.elsewhere home).feeRecipient b.miner = c.feeRecipient b.miner) :
    (c.elsewhere home).TakesIn now' b' m' n := by
  have himportable := importable_elsewhere hbeside hclosed hstarted hvalid hpairs hused h ha hfee
  obtain ⟨b'', n', hfresh⟩ := importFresh_returns.mpr himportable
  obtain ⟨r⟩ := addBlock_ok h
  have hhash := own_hash_ne_empty h
  have hread := @readBack_block c.host now' b' hhash
  obtain ⟨-, hadd⟩ := importFresh_ok hfresh
  rw [fromDict_normalize] at hadd
  obtain ⟨r'⟩ : Nonempty (Accepted (c.elsewhere home) now' (b'.readBack c.host now') true n b'' n') := addBlock_ok hadd
  have hnamed : ∀ tx ∈ b.transactions, tx.hash ≠ "" := fun tx htx => (ha.transactions tx htx).1
  obtain ⟨hnamed', htime, hgas⟩ := (r.unchanged_iff hused).mpr ⟨ha.transactions, ha.timestamp, ha.gas⟩
  have hpools := (@pools_iff c home now now' b b' m m' n hbeside hvalid r hnamed).mp ha.pools
  obtain ⟨ys, u, hrun, hsame, hout⟩ := execution_elsewhere hbeside hclosed hstarted hpairs r hhash hnamed hfee hpools
  have hdet := hrun.symm.trans r'.run_opened
  obtain rfl : ys = r'.txs := Except.ok.inj (congrArg Prod.fst hdet)
  obtain rfl : u = r'.applied := congrArg Prod.snd hdet
  rw [← r'.transactions_eq] at hout
  have hminer : (b'.readBack c.host now').miner = b.miner := by
    rw [hread]
    exact r.miner_eq
  have hrewarded : ((c.elsewhere home).rewardTables (b'.readBack c.host now').miner r'.applied.live).accounts =
      (c.rewardTables b.miner r.applied.live).accounts := by
    rw [hminer]
    exact rewardTables_elsewhere hsame.accounts
  have hroot : b''.stateRoot = b'.stateRoot := by
    rw [r'.stateRoot_eq, r.stateRoot_eq]
    exact computeStateRoot_congr hrewarded
  have hrow := r.same_row hhash r' hout hroot hnamed' htime hgas
  have hburned : b''.totalBurned = b'.totalBurned := congrArg BlockDict.totalBurned hrow.1
  have hheight : b''.height = b'.height := congrArg BlockDict.height hrow.1
  have hstored := accepted_row r'
  rw [hheight] at hstored
  refine ⟨b'', n', (importBlock_elsewhere hbeside r).trans hfresh, ?_, _, _, hstored, accepted_row r, hrow⟩
  rw [r'.live_eq, r.live_eq, accounts_persisted, accounts_persisted, hburned, ← r'.rewarded_eq, ← r.rewarded_eq]
  have hburn : (c.elsewhere home).config.burnAddress = c.config.burnAddress := rfl
  rw [hburn]
  by_cases hpos : 0 < b'.totalBurned ∧ c.config.burnAddress ≠ ""
  · rw [if_pos hpos, if_pos hpos]
    exact accounts_applyBalanceDelta hrewarded _ _
  · rw [if_neg hpos, if_neg hpos]
    exact hrewarded

include hbeside hstarted hvalid hpairs hused in
theorem admits_of_takesIn (h : c.addBlock now b false m = (.ok b', m')) (ht : (c.elsewhere home).TakesIn now' b' m' n) :
    (c.elsewhere home).Admits now' b n := by
  obtain ⟨r⟩ := addBlock_ok h
  have hhash := own_hash_ne_empty h
  have hread := @readBack_block c.host now' b' hhash
  obtain ⟨b'', n', himport, -, d, e, hd, he, hrow⟩ := ht
  rw [importBlock_elsewhere hbeside r] at himport
  have himportable := importFresh_returns.mp ⟨b'', n', himport⟩
  obtain ⟨-, hadd⟩ := importFresh_ok himport
  rw [fromDict_normalize] at hadd
  obtain ⟨r'⟩ : Nonempty (Accepted (c.elsewhere home) now' (b'.readBack c.host now') true n b'' n') := addBlock_ok hadd
  have hplace : (b'.readBack c.host now').miner = b.miner ∧ (b'.readBack c.host now').height = b.height := by
    rw [hread]
    exact ⟨r.miner_eq, r.height_eq⟩
  have hheight : b''.height = b'.height := r'.height_eq.trans (hplace.2.trans r.height_eq.symm)
  have hstored := accepted_row r'
  rw [hheight, hd] at hstored
  obtain rfl := Option.some.inj hstored
  rw [accepted_row r] at he
  obtain rfl := Option.some.inj he
  obtain ⟨hnamed, htime, hgas⟩ := (r.unchanged_iff hused).mp (Accepted.of_same_row hhash r' hrow)
  have hnames : ∀ tx ∈ b.transactions, tx.hash ≠ "" := fun tx htx => (hnamed tx htx).1
  obtain ⟨hclock, hlater, -⟩ := (checked_elsewhere hbeside hstarted hvalid r).mp himportable.checked
  have hproposer := (verifyBlockProposer_iff.mp (admitBlock_ok r'.admitted).proposer).1
  rw [hplace.1] at hproposer
  have hfresh : Unproposed (b'.readBack c.host now') n := himportable.executed.proposer
  unfold Unproposed at hfresh
  rw [hplace.1, hplace.2] at hfresh
  refine { proposer := hproposer, unproposed := ?_, pools := ?_, clock := hclock, later := hlater, timestamp := htime,
           transactions := hnamed, gas := hgas }
  · exact hfresh.imp_right (Or.imp_right fun hfree e he => (hfree e he).2)
  · have hsenders : (b'.readBack c.host now').transactions.Pairwise fun x y => x.fromAddr ≠ y.fromAddr :=
      senders_apart hpairs r hnames
    have hpools := r'.steps.pools hsenders
    rw [r'.live_start] at hpools
    exact (pools_iff hbeside hvalid r hnames).mpr hpools

end

/-! ## Blocks of one's own -/

section
variable {c : Blockchain} {home : Home} {now now' : Int} {m m' n : Node} {b' : Block} {nodeVersion proposer : String}
  {created : Int} {txs : List Transaction}

/-- A block that its producer made and accepted is taken in by a node beside it only if that node admits it,
and it is whenever the two nodes credit its fees to the same address: a proposer that is named is that address. -/
theorem own_block_imported (hbeside : SideBySide m n) (hclosed : n.db.pending = none) (hstarted : m.db.live.getLastBlock ≠ none)
    (h : c.addBlock now (c.createBlock nodeVersion created txs proposer m.db.live) false m = (.ok b', m')) :
    ((c.elsewhere home).TakesIn now' b' m' n →
      (c.elsewhere home).Admits now' (c.createBlock nodeVersion created txs proposer m.db.live) n) ∧
    (proposer ≠ "" ∨ (c.createBlock nodeVersion created txs proposer m.db.live).transactions = [] ∨
        (c.elsewhere home).feeRecipient proposer = c.feeRecipient proposer →
      (c.elsewhere home).Admits now' (c.createBlock nodeVersion created txs proposer m.db.live) n →
      (c.elsewhere home).TakesIn now' b' m' n) := by
  obtain ⟨hvalid, hpairs⟩ := @created_valid c created nodeVersion proposer txs m.db.live
  refine ⟨fun ht => admits_of_takesIn hbeside hstarted hvalid hpairs rfl h ht, fun hfee ha => ?_⟩
  refine takesIn_of_admits hbeside hclosed hstarted hvalid hpairs rfl h ha ?_
  rcases hfee with hnamed | hempty | hsame
  · refine .inr ?_
    show orElse (orElse proposer home.minerAddress) "genesis" = orElse (orElse proposer c.config.minerAddress) "genesis"
    unfold orElse
    simp only [if_neg hnamed]
  · exact .inl hempty
  · exact .inr hsame

end

def nextHome : Home := { minerAddress := "w", signingAddress := "", baseline := 0 }

/-- A transfer, in a block by a proposer with no address on the importer. -/
theorem own_block_imported_transfer :
    ∃ b' m', plain.addBlock 2 (plain.createBlock "1" 2 [transferOf (.float 5)] "v" fundedNode.db.live) false fundedNode = (.ok b', m') ∧
      (plain.elsewhere nextHome).TakesIn 3 b' m' fundedNode := by
  have hok : (plain.addBlock 2 (plain.createBlock "1" 2 [transferOf (.float 5)] "v" fundedNode.db.live) false
      fundedNode).1.toOption.isSome = true := by decide +kernel
  rcases hrun : plain.addBlock 2 (plain.createBlock "1" 2 [transferOf (.float 5)] "v" fundedNode.db.live) false fundedNode with
    ⟨f | b', m'⟩
  · rw [hrun] at hok
    cases hok
  · refine ⟨b', m', rfl, (own_block_imported ⟨rfl, rfl, rfl, fun _ => Iff.rfl⟩ rfl (by decide +kernel) hrun).2 (.inl (by decide)) ?_⟩
    have hlast : ∀ last, fundedNode.db.live.getLastBlock = some last → last.timestamp = 1 := by
      intro last hl
      have hrow : fundedNode.db.live.getLastBlock = some genesisRow := rfl
      rw [hrow] at hl
      rw [← Option.some.inj hl]
      rfl
    have hfacts : (plain.createBlock "1" 2 [transferOf (.float 5)] "v" fundedNode.db.live).timestamp = 2 ∧
        (plain.createBlock "1" 2 [transferOf (.float 5)] "v" fundedNode.db.live).transactions = [transferOf (.float 5)] := by
      decide +kernel
    obtain ⟨htime, htxs⟩ := hfacts
    exact { proposer := .inr (.inr (.inr (.inl (by decide))))
            unproposed := .inr (.inr fun _ he => nomatch he)
            pools := fun tx _ => checkPool_ok.mpr fun hp => nomatch hp
            clock := by rw [htime]; decide
            later := fun last hl => by rw [htime, hlast last hl]; decide
            timestamp := .inl (by rw [htime]; decide)
            transactions := fun tx htx => by
              rw [htxs] at htx
              rw [List.mem_singleton.mp htx]
              exact ⟨by decide, .inl (by decide)⟩
            gas := by rw [htxs]; rfl }

def withPools : Blockchain := { plain with poolLocks := true }

/-- A follower: the staking address has received a hundred coins, and no epoch has been released. -/
def followerNode : Node :=
  { fundedNode with
    db := { fundedNode.db with file := (fundedNode.db.file.applyBalanceDelta stakingAddress 100).setPoolLocks (initialPoolLocks "") } }

def miningNode : Node := { followerNode with db := (onEpochBoundary 1 followerNode.db).2 }

def stakingTx : Transaction := { transferOf (.float 5) with fromAddr := stakingAddress }

/-- The node that released the epoch puts the transfer in a block and accepts it; the follower refuses the block. -/
theorem follower_refuses_staking :
    ∃ b' m', SideBySide miningNode followerNode ∧ followerNode.db.pending = none ∧ miningNode.db.live.getLastBlock ≠ none ∧
      withPools.addBlock 2 (withPools.createBlock "1" 2 [stakingTx] "v" miningNode.db.live) false miningNode = (.ok b', m') ∧
      ¬ (withPools.elsewhere nextHome).TakesIn 3 b' m' followerNode := by
  have hok : (withPools.addBlock 2 (withPools.createBlock "1" 2 [stakingTx] "v" miningNode.db.live) false
      miningNode).1.toOption.isSome = true := by decide +kernel
  have hbeside : SideBySide miningNode followerNode := ⟨rfl, rfl, rfl, fun _ => Iff.rfl⟩
  have hstarted : miningNode.db.live.getLastBlock ≠ none := by decide +kernel
  rcases hrun : withPools.addBlock 2 (withPools.createBlock "1" 2 [stakingTx] "v" miningNode.db.live) false miningNode with
    ⟨f | b', m'⟩
  · rw [hrun] at hok
    cases hok
  · refine ⟨b', m', hbeside, rfl, hstarted, rfl, fun ht => ?_⟩
    obtain ⟨hvalid, hpairs⟩ := @created_valid withPools 2 "1" "v" [stakingTx] miningNode.db.live
    have hpools := (admits_of_takesIn hbeside hstarted hvalid hpairs rfl hrun ht).pools
    have htxs : (withPools.createBlock "1" 2 [stakingTx] "v" miningNode.db.live).transactions = [stakingTx] := by decide +kernel
    rw [htxs] at hpools
    have hrefused : ((withPools.elsewhere nextHome).checkPool followerNode.db.live stakingTx.fromAddr
        (stakingTx.value.toRat + (withPools.elsewhere nextHome).gasFee stakingTx.gas)
        (followerNode.db.live.getBalance stakingTx.fromAddr)).toOption = none := by decide +kernel
    rw [hpools stakingTx (List.mem_singleton_self _)] at hrefused
    cases hrefused

end Blockchain

end AbsoluteChain
