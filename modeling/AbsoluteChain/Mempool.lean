import AbsoluteChain.Blockchain
import AbsoluteChain.Proposers
import AbsoluteChain.Runs

/-!
# The mempool

`blockchain/mempool.py` with the checks of `middleware/validators.py`: transactions kept
under the hash that they come with, and a tenth of them thrown out when the pool is full.
-/

namespace AbsoluteChain

open Python JsonText Runs

/-! ## Validators -/

def validateAddress (address : String) : Bool :=
  match address.toList with
  | '0' :: 'x' :: hexPart => hexPart.length = 40 && hexPart.all fun c => (hexValue c).isSome
  | _ => false

/-- `str(amount).split(".")[-1]`. -/
def lastPart (l : List Char) : List Char := (l.reverse.takeWhile fun c => c ≠ '.').reverse

def validateAmount (host : Host) (amount minAmount maxAmount : ℚ) : Bool :=
  0 < amount && minAmount ≤ amount && amount ≤ maxAmount && (lastPart (host.floatRepr amount)).length ≤ 8

/-! ## The pool -/

structure MempoolTransaction where
  txHash : String
  fromAddr : String
  toAddr : String
  amount : Python.Num
  fee : ℚ
  nonce : Int := 0
  signature : String := ""
  publicKey : String := ""
  data : String := ""
  gas : Int := 21000
  timestamp : ℚ
  deriving DecidableEq

namespace MempoolTransaction

variable (host : Host) (tx : MempoolTransaction)

def signed (chainId : Int) : SignedPayload :=
  { fromAddr := tx.fromAddr, toAddr := tx.toAddr, value := signingValue tx.amount, nonce := tx.nonce
    chainId := if chainId = 0 then 1 else chainId, signature := tx.signature, publicKey := tx.publicKey
    data := tx.data, gasLimit := if tx.gas = 0 then 21000 else tx.gas }

def hasValidSignature (chainId : Int) (requireSignatures : Bool) : Bool :=
  if tx.signature = "" then !requireSignatures
  else if tx.publicKey = "" then false
  else verifyTransactionSignature host (tx.signed chainId)

def validateMempoolTx (minFee : ℚ) : Bool :=
  tx.txHash ≠ "" && minFee ≤ tx.fee && (validateAddress tx.fromAddr || 5 ≤ tx.fromAddr.length) &&
    (validateAddress tx.toAddr || 5 ≤ tx.toAddr.length) && 0 ≤ tx.amount.toRat &&
    (tx.amount.toRat = 0 || validateAmount host tx.amount.toRat 0 1000000000)

def chainTx (c : Blockchain) : Transaction :=
  { fromAddr := tx.fromAddr, toAddr := tx.toAddr, value := tx.amount, nonce := tx.nonce
    gas := if tx.gas = 0 then c.config.baseGasPrice else tx.gas, data := tx.data, signature := tx.signature
    publicKey := tx.publicKey, timestamp := 0, hash := tx.txHash, blockHeight := 0
    gasUsed := if tx.gas = 0 then c.config.baseGasPrice else tx.gas, fee := 0, burned := 0 }

end MempoolTransaction

structure Mempool where
  transactions : Dict String MempoolTransaction
  maxSize : Nat := 10000
  minFee : ℚ := 1 / 10000
  rejectedCount : Nat := 0
  blockchain : Option Blockchain := none
  chainId : Int := 1
  requireSignatures : Bool := false

namespace Mempool

def start (maxSize : Nat) (minFee : ℚ) : Mempool :=
  { transactions := [], maxSize := maxSize, minFee := minFee }

variable (p : Mempool)

def setBlockchain (c : Blockchain) : Mempool :=
  { p with blockchain := some c, chainId := c.config.chainId, requireSignatures := c.config.requireSignatures }

def cleanup : Mempool :=
  if 5 * p.transactions.length < 4 * p.maxSize then p
  else
    let sorted := sortedBy MempoolTransaction.fee (p.transactions.map Prod.snd)
    let cheapest := sorted.take (p.transactions.length / 10)
    { p with transactions := cheapest.foldl (fun d tx => d.erase tx.txHash) p.transactions }

def store (tx : MempoolTransaction) : Mempool :=
  let p := if p.maxSize ≤ p.transactions.length then p.cleanup else p
  { p with transactions := p.transactions.set tx.txHash tx }

def chainAccepts (tables : Tables) (tx : MempoolTransaction) : Bool :=
  match p.blockchain with
  | none => true
  | some c => (c.validateTransaction tables (tx.chainTx c)).isOk

def add (host : Host) (tables : Tables) (tx : MempoolTransaction) : Bool × Mempool :=
  let rejected := (false, { p with rejectedCount := p.rejectedCount + 1 })
  if p.transactions.contains tx.txHash then (false, p)
  else if !tx.validateMempoolTx host p.minFee then rejected
  else if !tx.hasValidSignature host p.chainId p.requireSignatures then rejected
  else if !p.chainAccepts tables tx then rejected
  else (true, p.store tx)

def addRaw (tx : MempoolTransaction) : Bool × Mempool :=
  if p.transactions.contains tx.txHash then (false, p)
  else if tx.fee < p.minFee then (false, p)
  else (true, p.store tx)

/-- It says whether there was an entry. -/
def remove (txHash : String) : Bool × Mempool :=
  (p.transactions.contains txHash, { p with transactions := p.transactions.erase txHash })

/-! ## What the pool should hold -/

def SameSigned (chainId : Int) (a b : MempoolTransaction) : Prop :=
  a.signature ≠ "" ∧ a.signature = b.signature ∧ canonicalTxForHash (a.signed chainId) = canonicalTxForHash (b.signed chainId)

/-- No more than the pool may hold, and nothing signed under two hashes. -/
structure Sound : Prop where
  size : p.transactions.length ≤ p.maxSize
  once : ∀ a ∈ p.transactions, ∀ b ∈ p.transactions, SameSigned p.chainId a.2 b.2 → a.2.txHash = b.2.txHash

structure Filed : Prop where
  keyed : p.transactions.Keyed
  own : ∀ e ∈ p.transactions, e.2.txHash = e.1

def survivors : Dict String MempoolTransaction :=
  if p.maxSize ≤ p.transactions.length then p.cleanup.transactions else p.transactions

/-- There is room, or a tenth of the pool is a transaction at least; and what stays was not signed the same. -/
def Roomy (tx : MempoolTransaction) : Prop :=
  (p.transactions.length < p.maxSize ∨ 10 ≤ p.maxSize) ∧ ∀ e ∈ p.survivors, ¬ SameSigned p.chainId e.2 tx

/-- `add` takes the transaction. -/
def Admits (host : Host) (tables : Tables) (tx : MempoolTransaction) : Prop :=
  p.transactions.contains tx.txHash = false ∧ tx.validateMempoolTx host p.minFee = true ∧
    tx.hasValidSignature host p.chainId p.requireSignatures = true ∧ p.chainAccepts tables tx = true

def AdmitsRaw (tx : MempoolTransaction) : Prop := p.transactions.contains tx.txHash = false ∧ p.minFee ≤ tx.fee

inductive Call where
  | add (tables : Tables) (tx : MempoolTransaction)
  | addRaw (tx : MempoolTransaction)
  | remove (txHash : String)

def step (host : Host) : Call → Mempool → Mempool
  | .add tables tx, p => (p.add host tables tx).2
  | .addRaw tx, p => (p.addRaw tx).2
  | .remove txHash, p => (p.remove txHash).2

/-- A transaction that is taken finds room. -/
def Fits (host : Host) : Call → Mempool → Prop
  | .add tables tx, p => p.Admits host tables tx → p.Roomy tx
  | .addRaw tx, p => p.AdmitsRaw tx → p.Roomy tx
  | .remove _, _ => True

/-! ## The calls -/

variable {p} {host : Host} {tables : Tables} {tx : MempoolTransaction}

theorem add_admitted (h : p.Admits host tables tx) : (p.add host tables tx).2 = p.store tx := by
  obtain ⟨hnew, hvalid, hsigned, hchain⟩ := h
  unfold add
  simp only [hnew, hvalid, hsigned, hchain, Bool.false_eq_true, Bool.not_true, if_false]

theorem add_refused (h : ¬ p.Admits host tables tx) : ∃ n, (p.add host tables tx).2 = { p with rejectedCount := n } := by
  unfold add
  dsimp only
  split
  · exact ⟨p.rejectedCount, rfl⟩
  · rename_i hnew
    split
    · exact ⟨_, rfl⟩
    · rename_i hvalid
      split
      · exact ⟨_, rfl⟩
      · rename_i hsigned
        split
        · exact ⟨_, rfl⟩
        · rename_i hchain
          exfalso
          apply h
          simp only [Bool.not_eq_true', Bool.not_eq_false, Bool.not_eq_true] at hnew hvalid hsigned hchain
          exact ⟨hnew, hvalid, hsigned, hchain⟩

theorem addRaw_admitted (h : p.AdmitsRaw tx) : (p.addRaw tx).2 = p.store tx := by
  unfold addRaw
  rw [if_neg (by rw [h.1]; exact Bool.false_ne_true), if_neg (not_lt.mpr h.2)]

theorem addRaw_refused (h : ¬ p.AdmitsRaw tx) : (p.addRaw tx).2 = p := by
  unfold addRaw
  split
  · rfl
  · rename_i hnew
    split
    · rfl
    · rename_i hfee
      exact absurd ⟨Bool.not_eq_true _ ▸ hnew, not_lt.mp hfee⟩ h

/-! ## The cleanup -/

theorem length_erase {d : Dict String MempoolTransaction} (hd : d.Keyed) {k : String} (hk : k ∈ d.map Prod.fst) :
    (d.erase k).length + 1 = d.length := by
  have hcount : (d.map Prod.fst).count k = 1 := List.count_eq_one_of_mem hd hk
  have hsplit := List.length_eq_length_filter_add (l := d) (fun e => e.1 ≠ k)
  have hone : (d.filter fun e => !decide (e.1 ≠ k)).length = 1 := by
    rw [← hcount, List.count, List.countP_map, List.countP_eq_length_filter]
    congr 1
    refine List.filter_congr fun e _ => ?_
    by_cases he : e.1 = k
    · simp [he]
    · simp [he]
  unfold Dict.erase
  omega

theorem erase_sublist (d : Dict String MempoolTransaction) (k : String) : (d.erase k).Sublist d := List.filter_sublist

theorem erase_all (keys : List String) : ∀ d : Dict String MempoolTransaction, d.Keyed → keys.Nodup →
    (∀ k ∈ keys, k ∈ d.map Prod.fst) → (keys.foldl Dict.erase d).Sublist d ∧
      (keys.foldl Dict.erase d).length + keys.length = d.length := by
  induction keys with
  | nil => exact fun d _ _ _ => ⟨.refl d, rfl⟩
  | cons k keys ih =>
    intro d hd hkeys hin
    obtain ⟨hk, hkeys⟩ := List.nodup_cons.mp hkeys
    have hkeyed : (d.erase k).Keyed := hd.sublist ((erase_sublist d k).map Prod.fst)
    have hrest : ∀ j ∈ keys, j ∈ (d.erase k).map Prod.fst := by
      intro j hj
      obtain ⟨e, he, rfl⟩ := List.mem_map.mp (hin j (List.mem_cons_of_mem _ hj))
      refine List.mem_map_of_mem (List.mem_filter.mpr ⟨he, decide_eq_true ?_⟩)
      rintro rfl
      exact hk hj
    obtain ⟨hsub, hlen⟩ := ih (d.erase k) hkeyed hkeys hrest
    have hone := length_erase hd (hin k List.mem_cons_self)
    refine ⟨hsub.trans (erase_sublist d k), ?_⟩
    rw [List.foldl_cons, List.length_cons]
    omega

/-- A full pool loses a tenth of what it holds. -/
theorem cleanup_spec (h : p.Filed) (hfull : p.maxSize ≤ p.transactions.length) :
    p.cleanup.transactions.Sublist p.transactions ∧
      p.cleanup.transactions.length + p.transactions.length / 10 = p.transactions.length := by
  let sorted := sortedBy MempoolTransaction.fee (p.transactions.map Prod.snd)
  have hperm : sorted.Perm (p.transactions.map Prod.snd) := Miner.sortedBy_perm _ _
  have hown : (p.transactions.map Prod.snd).map MempoolTransaction.txHash = p.transactions.map Prod.fst := by
    rw [List.map_map]
    exact List.map_congr_left h.own
  have hhashes : (sorted.map MempoolTransaction.txHash).Perm (p.transactions.map Prod.fst) :=
    hown ▸ hperm.map MempoolTransaction.txHash
  let cheapest := (sorted.take (p.transactions.length / 10)).map MempoolTransaction.txHash
  have hsub : cheapest.Sublist (sorted.map MempoolTransaction.txHash) := (List.take_sublist _ _).map _
  have hlen : cheapest.length = p.transactions.length / 10 := by
    rw [List.length_map, List.length_take, hperm.length_eq, List.length_map]
    omega
  have hcleanup : p.cleanup.transactions = cheapest.foldl Dict.erase p.transactions := by
    unfold cleanup
    rw [if_neg (by omega), List.foldl_map]
  rw [hcleanup, ← hlen]
  apply erase_all cheapest p.transactions h.keyed
  · exact (hhashes.nodup_iff.mpr h.keyed).sublist hsub
  · exact fun k hk => hhashes.mem_iff.mp (hsub.subset hk)

theorem survivors_spec (h : p.Filed) : p.survivors.Sublist p.transactions ∧
    (p.transactions.length < p.maxSize → p.survivors.length = p.transactions.length) ∧
    (p.maxSize ≤ p.transactions.length →
      p.survivors.length + p.transactions.length / 10 = p.transactions.length) := by
  unfold survivors
  by_cases hfull : p.maxSize ≤ p.transactions.length
  · rw [if_pos hfull]
    obtain ⟨hsub, hlen⟩ := cleanup_spec h hfull
    exact ⟨hsub, fun hroom => absurd hfull (not_le.mpr hroom), fun _ => hlen⟩
  · rw [if_neg hfull]
    exact ⟨.refl _, fun _ => rfl, fun h => absurd h hfull⟩

/-! ## A stored transaction -/

theorem store_rest (p : Mempool) (tx : MempoolTransaction) :
    (p.store tx).maxSize = p.maxSize ∧ (p.store tx).chainId = p.chainId ∧
      (p.store tx).transactions = p.survivors.set tx.txHash tx := by
  have hcleanup : p.cleanup.maxSize = p.maxSize ∧ p.cleanup.chainId = p.chainId := by
    unfold cleanup
    split
    · exact ⟨rfl, rfl⟩
    · exact ⟨rfl, rfl⟩
  unfold store survivors
  by_cases hfull : p.maxSize ≤ p.transactions.length
  · simp only [if_pos hfull]
    exact ⟨hcleanup.1, hcleanup.2, trivial⟩
  · simp only [if_neg hfull]
    exact ⟨trivial, trivial, trivial⟩

section store
variable (h : p.Filed) (hnew : p.transactions.contains tx.txHash = false)
include h hnew

theorem new_survivor : tx.txHash ∉ p.survivors.map Prod.fst := by
  intro hin
  obtain ⟨e, he, heq⟩ := List.mem_map.mp hin
  have hget := h.keyed.get?_of_mem (k := e.1) (v := e.2) ((survivors_spec h).1.subset he)
  unfold Dict.contains at hnew
  rw [← heq, hget] at hnew
  cases hnew

theorem store_eq : (p.store tx).transactions = p.survivors ++ [(tx.txHash, tx)] := by
  rw [(store_rest p tx).2.2, Dict.set_of_not_mem (new_survivor h hnew)]

theorem filed_store : (p.store tx).Filed := by
  have hsub := (survivors_spec h).1
  constructor
  · rw [(store_rest p tx).2.2]
    exact Dict.Keyed.set (h.keyed.sublist (hsub.map Prod.fst)) _ _
  · intro e he
    rw [store_eq h hnew] at he
    rcases List.mem_append.mp he with he | he
    · exact h.own e (hsub.subset he)
    · rw [List.mem_singleton.mp he]

/-- The step lemma: a transaction that is stored leaves the pool as it should be exactly when it finds room. -/
theorem sound_store (hs : p.Sound) : (p.store tx).Sound ↔ p.Roomy tx := by
  obtain ⟨hsub, hroom, hfull⟩ := survivors_spec h
  obtain ⟨hmax, hchain, -⟩ := store_rest p tx
  have heq := store_eq h hnew
  have hlen : (p.store tx).transactions.length = p.survivors.length + 1 := by
    rw [heq, List.length_append]
    rfl
  have hsize := hs.size
  constructor
  · intro hsound
    have hle := hsound.size
    rw [hlen, hmax] at hle
    refine ⟨?_, fun e he hsame => ?_⟩
    · by_contra hno
      have := hfull (by omega)
      omega
    · have hmem : ∀ x ∈ p.survivors, x ∈ (p.store tx).transactions := fun x hx => heq ▸ List.mem_append_left _ hx
      have hself : (tx.txHash, tx) ∈ (p.store tx).transactions :=
        heq ▸ List.mem_append_right _ (List.mem_singleton_self _)
      have hhash := hsound.once e (hmem e he) (tx.txHash, tx) hself (hchain ▸ hsame)
      rw [h.own e (hsub.subset he)] at hhash
      exact new_survivor h hnew (List.mem_map.mpr ⟨e, he, hhash⟩)
  · rintro ⟨hfits, hfresh⟩
    constructor
    · rw [hlen, hmax]
      by_cases hlt : p.transactions.length < p.maxSize
      · have := hroom hlt
        omega
      · have := hfull (by omega)
        omega
    · intro a ha b hb hsame
      rw [hchain] at hsame
      rw [heq] at ha hb
      rcases List.mem_append.mp ha with ha | ha
      · rcases List.mem_append.mp hb with hb | hb
        · exact hs.once a (hsub.subset ha) b (hsub.subset hb) hsame
        · rw [List.mem_singleton.mp hb] at hsame
          exact absurd hsame (hfresh a ha)
      · rcases List.mem_append.mp hb with hb | hb
        · rw [List.mem_singleton.mp ha] at hsame
          have hback : SameSigned p.chainId b.2 tx := ⟨hsame.2.1 ▸ hsame.1, hsame.2.1.symm, hsame.2.2.symm⟩
          exact absurd hback (hfresh b hb)
        · rw [List.mem_singleton.mp ha, List.mem_singleton.mp hb]

end store

/-! ## Runs -/

theorem filed_step (e : Call) (h : p.Filed) : (step host e p).Filed := by
  cases e with
  | add tables tx =>
    by_cases ha : p.Admits host tables tx
    · rw [step, add_admitted ha]
      exact filed_store h ha.1
    · obtain ⟨n, hn⟩ := add_refused ha
      rw [step, hn]
      exact ⟨h.keyed, h.own⟩
  | addRaw tx =>
    by_cases ha : p.AdmitsRaw tx
    · rw [step, addRaw_admitted ha]
      exact filed_store h ha.1
    · rw [step, addRaw_refused ha]
      exact h
  | remove txHash =>
    have hsub := erase_sublist p.transactions txHash
    exact ⟨h.keyed.sublist (hsub.map Prod.fst), fun e he => h.own e (hsub.subset he)⟩

theorem sound_step (e : Call) (h : p.Filed) (hs : p.Sound) : (step host e p).Sound ↔ Fits host e p := by
  cases e with
  | add tables tx =>
    by_cases ha : p.Admits host tables tx
    · rw [step, add_admitted ha, sound_store h ha.1 hs]
      exact ⟨fun hroomy _ => hroomy, fun hfits => hfits ha⟩
    · obtain ⟨n, hn⟩ := add_refused ha
      rw [step, hn]
      exact iff_of_true ⟨hs.size, hs.once⟩ fun h => absurd h ha
  | addRaw tx =>
    by_cases ha : p.AdmitsRaw tx
    · rw [step, addRaw_admitted ha, sound_store h ha.1 hs]
      exact ⟨fun hroomy _ => hroomy, fun hfits => hfits ha⟩
    · rw [step, addRaw_refused ha]
      exact iff_of_true hs fun h => absurd h ha
  | remove txHash =>
    have hsub := erase_sublist p.transactions txHash
    refine iff_of_true ⟨?_, fun a ha b hb => hs.once a (hsub.subset ha) b (hsub.subset hb)⟩ trivial
    exact hsub.length_le.trans hs.size

def opened (maxSize : Nat) (minFee : ℚ) (chain : Option Blockchain) : Mempool :=
  match chain with
  | none => start maxSize minFee
  | some c => (start maxSize minFee).setBlockchain c

theorem opened_empty (maxSize : Nat) (minFee : ℚ) (chain : Option Blockchain) :
    (opened maxSize minFee chain).transactions = [] := by
  cases chain with
  | none => rfl
  | some c => rfl

/-- The pool stays as it should be in the runs whose transactions find room. -/
theorem admission_sound_iff_fits (host : Host) (maxSize : Nat) (minFee : ℚ) (chain : Option Blockchain) (calls : List Call) :
    Always (step host) Sound calls (opened maxSize minFee chain) ↔
      Along (step host) (Fits host) calls (opened maxSize minFee chain) := by
  have hempty := opened_empty maxSize minFee chain
  refine always_iff_along_of (I := fun p => p.Filed ∧ p.Sound) (fun _ h => h.2)
    (fun e _ h hf => ⟨filed_step e h.1, (sound_step e h.1 h.2).mpr hf⟩) (fun e _ h hs => (sound_step e h.1 h.2).mp hs) ?_
  refine ⟨⟨?_, ?_⟩, ?_, ?_⟩
  · rw [hempty]
    exact List.nodup_nil
  · rw [hempty]
    exact fun e he => absurd he List.not_mem_nil
  · rw [hempty]
    exact Nat.zero_le _
  · rw [hempty]
    exact fun a ha => absurd ha List.not_mem_nil

/-- A transfer without a signature. -/
def unsigned (hash : String) : MempoolTransaction :=
  { txHash := hash, fromAddr := "alice", toAddr := "bobby", amount := .int 5, fee := 1, timestamp := 0 }

def resent (hash : String) : MempoolTransaction := { unsigned hash with signature := "01", publicKey := "07" }

def lenient : Host := { Host.plain with verify := fun _ signature publicKey => signature = [1] ∧ publicKey = [7] }

/-- A pool of one transaction takes a second one; and one signed transfer is taken under two hashes. -/
theorem pool_overflows :
    ¬ Always (step lenient) Sound [.add .empty (unsigned "x"), .add .empty (unsigned "y")] (opened 1 0 none) ∧
    ¬ Always (step lenient) Sound [.add .empty (resent "x"), .add .empty (resent "y")] (opened 10000 0 none) := by
  constructor
  · intro h
    have hsize := h.last.size
    revert hsize
    decide +kernel
  · intro h
    have hboth : run (step lenient) [.add .empty (resent "x"), .add .empty (resent "y")] (opened 10000 0 none) =
        ((opened 10000 0 none).store (resent "x")).store (resent "y") := by
      have hx : (opened 10000 0 none).Admits lenient .empty (resent "x") :=
        ⟨by decide +kernel, by decide +kernel, by decide +kernel, by decide +kernel⟩
      have hy : ((opened 10000 0 none).store (resent "x")).Admits lenient .empty (resent "y") :=
        ⟨by decide +kernel, by decide +kernel, by decide +kernel, by decide +kernel⟩
      change (((opened 10000 0 none).add lenient .empty (resent "x")).2.add lenient .empty (resent "y")).2 = _
      rw [add_admitted hx, add_admitted hy]
    have hsame := h.last.once
    rw [hboth] at hsame
    have hhash := hsame ("x", resent "x") (by decide +kernel) ("y", resent "y") (by decide +kernel) ⟨by decide, rfl, rfl⟩
    revert hhash
    decide

end Mempool

end AbsoluteChain
