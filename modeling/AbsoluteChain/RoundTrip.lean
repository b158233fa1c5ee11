import AbsoluteChain.Commitment
import AbsoluteChain.Produce
import AbsoluteChain.Reverts
import AbsoluteChain.Supply

/-!
# Blocks read back

`Transaction.from_dict` turns the value into a float and drops the gas that was used; the
hash of a block tells integers from floats.
-/

namespace AbsoluteChain

open Python JsonText Actions Act Transactions KeyedTable

/-! ## Equal dictionaries -/

/-- Equal in every field, where the value may be `5` on one side and `5.0` on the other. -/
def TxDict.Same (d e : TxDict) : Prop := d = { e with value := d.value } ∧ d.value.toRat = e.value.toRat

def BlockDict.Same (d e : BlockDict) : Prop :=
  d = { e with transactions := d.transactions } ∧ List.Forall₂ TxDict.Same d.transactions e.transactions

/-! ## Reading back -/

section
variable (host : Host) (now : Int)

def Transaction.readBack (tx : Transaction) : Transaction := .fromDict host now tx.toDict.asPeer

def Block.readBack (b : Block) : Block := .fromDict host now b.toDict.asPeer

def Block.RoundTrips (b : Block) : Prop :=
  (b.readBack host now).computeHash = b.hash ∧ BlockDict.Same (b.readBack host now).toDict b.toDict

/-- What reading back keeps of a transaction: the recorded gas is the gas limit, an integral value is 0,
and the constructor had nothing to fill in. -/
structure Transaction.Kept (tx : Transaction) : Prop where
  hash : tx.hash ≠ ""
  timestamp : tx.timestamp ≠ 0 ∨ now = 0
  gas : tx.gasUsed = tx.gas
  value : ∀ n, tx.value = .int n → n = 0

structure Block.Kept (b : Block) : Prop where
  transactions : ∀ tx ∈ b.transactions, tx.Kept now
  timestamp : b.timestamp ≠ 0 ∨ now = 0
  gas : b.gasUsed = (b.transactions.map Transaction.gas).sum

end

section
variable {host : Host} {now : Int} {tx : Transaction} {b : Block}

theorem readBack_tx (tx : Transaction) : tx.readBack host now =
    { tx with
      value := .float tx.value.toRat
      timestamp := if tx.timestamp = 0 then now else tx.timestamp
      hash := orElse tx.hash (Transaction.computeHash host
        { tx with value := .float tx.value.toRat, timestamp := if tx.timestamp = 0 then now else tx.timestamp })
      gasUsed := tx.gas } := rfl

theorem computeHash_ne_empty (tx : Transaction) : tx.computeHash host ≠ "" := by
  intro h
  have hlen := congrArg String.length h
  rw [show (tx.computeHash host).length = 64 from Digest.sha256Hex_length _] at hlen
  cases hlen

theorem orElse_self {a d : String} (hd : d ≠ "") : orElse a d = a ↔ a ≠ "" := by
  unfold orElse
  by_cases h : a = ""
  · rw [if_pos h, h]
    exact iff_of_false hd fun hne => hne rfl
  · rw [if_neg h]
    exact iff_of_true rfl h

theorem timestamp_self {t : Int} : (if t = 0 then now else t) = t ↔ (t ≠ 0 ∨ now = 0) := by
  by_cases h : t = 0
  · rw [if_pos h, h]
    simp
  · rw [if_neg h]
    exact iff_of_true rfl (.inl h)

theorem same_tx_iff : TxDict.Same (tx.readBack host now).toDict tx.toDict ↔
    tx.hash ≠ "" ∧ (tx.timestamp ≠ 0 ∨ now = 0) ∧ tx.gasUsed = tx.gas := by
  rw [readBack_tx]
  simp only [TxDict.Same, Transaction.toDict, TxDict.mk.injEq, true_and, and_true]
  rw [timestamp_self, orElse_self (computeHash_ne_empty _)]
  constructor
  · rintro ⟨⟨hhash, hgas, htime⟩, -⟩
    exact ⟨hhash, htime, hgas.symm⟩
  · rintro ⟨hhash, htime, hgas⟩
    exact ⟨⟨hhash, hgas.symm, htime⟩, rfl⟩

theorem readBack_block (hhash : b.hash ≠ "") : b.readBack host now =
    { b with
      transactions := b.transactions.map (Transaction.readBack host now)
      timestamp := if b.timestamp = 0 then now else b.timestamp
      gasUsed := (b.transactions.map Transaction.gas).sum } := by
  have htxs : (b.toDict.transactions.map TxDict.asPeer).map (Transaction.fromDict host now) =
      b.transactions.map (Transaction.readBack host now) := by
    show ((b.transactions.map Transaction.toDict).map TxDict.asPeer).map (Transaction.fromDict host now) = _
    rw [List.map_map, List.map_map]
    rfl
  have hgas : ((b.transactions.map (Transaction.readBack host now)).map Transaction.gasUsed).sum =
      (b.transactions.map Transaction.gas).sum := by
    rw [List.map_map]
    rfl
  have hsum : b.readBack host now =
      { b with
        transactions := (b.toDict.transactions.map TxDict.asPeer).map (Transaction.fromDict host now)
        timestamp := if b.timestamp = 0 then now else b.timestamp
        gasUsed := (((b.toDict.transactions.map TxDict.asPeer).map (Transaction.fromDict host now)).map Transaction.gasUsed).sum
        hash := orElse b.hash _ } := rfl
  rw [hsum, htxs, hgas]
  unfold orElse
  rw [if_neg hhash]

theorem forall₂_readBack {R : TxDict → TxDict → Prop} (l : List Transaction) :
    List.Forall₂ R ((l.map (Transaction.readBack host now)).map Transaction.toDict) (l.map Transaction.toDict) ↔
      ∀ tx ∈ l, R (tx.readBack host now).toDict tx.toDict := by
  induction l with
  | nil => exact iff_of_true .nil fun _ h => nomatch h
  | cons tx l ih =>
    rw [List.map_cons, List.map_cons, List.map_cons, List.forall₂_cons, ih, List.forall_mem_cons]

theorem txRoot_readBack (h : ∀ tx ∈ b.transactions, tx.hash ≠ "") :
    computeTxRoot (b.transactions.map (Transaction.readBack host now)) = b.txRoot := by
  have hhashes : (b.transactions.map (Transaction.readBack host now)).map Transaction.hash = b.transactions.map Transaction.hash := by
    rw [List.map_map]
    refine List.map_congr_left fun tx htx => ?_
    show (tx.readBack host now).hash = tx.hash
    rw [readBack_tx]
    exact (orElse_self (computeHash_ne_empty _)).mpr (h tx htx)
  unfold Block.txRoot computeTxRoot
  cases hb : b.transactions with
  | nil => rfl
  | cons tx rest =>
    rw [hb] at hhashes
    exact congrArg merkleRoot hhashes

/-- When the dictionary is kept. -/
theorem same_block_iff (hhash : b.hash ≠ "") : BlockDict.Same (b.readBack host now).toDict b.toDict ↔
    (∀ tx ∈ b.transactions, tx.hash ≠ "" ∧ (tx.timestamp ≠ 0 ∨ now = 0) ∧ tx.gasUsed = tx.gas) ∧
    (b.timestamp ≠ 0 ∨ now = 0) ∧ b.gasUsed = (b.transactions.map Transaction.gas).sum := by
  have hsame : ∀ l : List Transaction, (∀ tx ∈ l, TxDict.Same (tx.readBack host now).toDict tx.toDict) ↔
      ∀ tx ∈ l, tx.hash ≠ "" ∧ (tx.timestamp ≠ 0 ∨ now = 0) ∧ tx.gasUsed = tx.gas :=
    fun l => forall₂_congr fun _ _ => same_tx_iff
  rw [readBack_block hhash]
  unfold BlockDict.Same
  simp only [Block.toDict, Block.txCount, Block.txRoot, BlockDict.mk.injEq, true_and, and_true, List.length_map]
  rw [forall₂_readBack, hsame, timestamp_self]
  constructor
  · rintro ⟨⟨htime, hgas, -⟩, htxs⟩
    exact ⟨htxs, htime, hgas.symm⟩
  · rintro ⟨htxs, htime, hgas⟩
    exact ⟨⟨htime, hgas.symm, txRoot_readBack fun tx htx => (htxs tx htx).1⟩, htxs⟩

/-! ## The hash -/

theorem truncate_neg (q : ℚ) : truncate (-q) = -truncate q := by
  unfold truncate
  rw [Rat.neg_num, Rat.neg_den, Int.neg_tdiv]

theorem le_truncate {k : Int} (hk : 0 ≤ k) {q : ℚ} (h : (k : ℚ) ≤ q) : k ≤ truncate q := by
  have hq : 0 ≤ q := le_trans (by exact_mod_cast hk) h
  have hnum : 0 ≤ q.num := Rat.num_nonneg.mpr hq
  unfold truncate
  rw [Int.tdiv_eq_ediv_of_nonneg hnum, Int.le_ediv_iff_mul_le (by exact_mod_cast q.den_pos)]
  have hden : (0 : ℚ) < q.den := by exact_mod_cast q.den_pos
  have hmul : (k : ℚ) * q.den ≤ q.num := by
    rw [← le_div_iff₀ hden, Rat.num_div_den]
    exact h
  exact_mod_cast hmul

/-- In millionths a positive integer is not what it was: a power of two lies between. -/
theorem lt_millionths {n : Int} (hn : 0 < n) : n < truncate (Binary64.round ((n : ℚ) * 1000000)) := by
  obtain ⟨m, rfl⟩ := Int.eq_ofNat_of_zero_le hn.le
  have hm : m ≠ 0 := by
    rintro rfl
    exact lt_irrefl _ hn
  have hlow : m < 2 ^ (m.log2 + 1) := Nat.lt_log2_self
  have hhigh : 2 ^ (m.log2 + 1) ≤ 2 * m := by
    have hself := Nat.log2_self_le hm
    rw [pow_succ]
    omega
  have hpower : Binary64.round (2 ^ (m.log2 + 1)) = 2 ^ (m.log2 + 1) := by
    refine @Binary64.round_multiple (m.log2 + 1 : ℕ) _ ⟨1, ?_⟩ (by omega) ?_
    · rw [zpow_natCast, Int.cast_one, one_mul]
    · rw [abs_of_pos (by positivity), ← zpow_natCast]
      exact zpow_lt_zpow_right₀ (by norm_num) (by omega)
  have hbetween : (2 : ℚ) ^ (m.log2 + 1) ≤ (m : ℚ) * 1000000 := by
    have hcast : (2 : ℚ) ^ (m.log2 + 1) ≤ 2 * m := by exact_mod_cast hhigh
    have hpos : (0 : ℚ) ≤ m := Nat.cast_nonneg m
    linarith
  have hround := Binary64.round_mono hbetween
  rw [hpower] at hround
  have hle : ((2 ^ (m.log2 + 1) : ℕ) : ℤ) ≤ truncate (Binary64.round ((m : ℚ) * 1000000)) :=
    le_truncate (by positivity) (by exact_mod_cast hround)
  have hlow' : (m : ℤ) < ((2 ^ (m.log2 + 1) : ℕ) : ℤ) := by exact_mod_cast hlow
  exact lt_of_lt_of_le hlow' hle

theorem canonicalNum_float (v : Python.Num) : canonicalNum (.float v.toRat) = canonicalNum v ↔ ∀ n, v = .int n → n = 0 := by
  cases v with
  | float q => exact iff_of_true rfl fun _ h => nomatch h
  | int n =>
    show truncate (Binary64.round ((n : ℚ) * 1000000)) = n ↔ _
    constructor
    · intro h m hm
      obtain rfl := Python.Num.int.inj hm
      rcases lt_trichotomy n 0 with hneg | hzero | hpos
      · have hlt := @lt_millionths (-n) (by omega)
        rw [Int.cast_neg, neg_mul, Binary64.round_neg, truncate_neg, h] at hlt
        exact absurd hlt (lt_irrefl _)
      · exact hzero
      · have hlt := lt_millionths hpos
        rw [h] at hlt
        exact absurd hlt (lt_irrefl _)
    · intro h
      rw [h n rfl]
      decide +kernel

theorem commitment_readBack (hhash : tx.hash ≠ "") (htime : tx.timestamp ≠ 0 ∨ now = 0) :
    (tx.readBack host now).commitment = tx.commitment ↔ ∀ n, tx.value = .int n → n = 0 := by
  rw [readBack_tx]
  unfold Transaction.commitment
  simp only [TxCommitment.mk.injEq, (orElse_self (computeHash_ne_empty _)).mpr hhash, timestamp_self.mpr htime, true_and,
    and_true]
  exact canonicalNum_float tx.value

theorem commitment_block (hhash : b.hash ≠ "") (htime : b.timestamp ≠ 0 ∨ now = 0)
    (htxs : ∀ tx ∈ b.transactions, tx.hash ≠ "" ∧ (tx.timestamp ≠ 0 ∨ now = 0)) :
    (b.readBack host now).commitment = b.commitment ↔ ∀ tx ∈ b.transactions, ∀ n, tx.value = .int n → n = 0 := by
  have hhashes : ∀ tx ∈ b.transactions, (tx.readBack host now).hash = tx.hash := fun tx htx =>
    (orElse_self (computeHash_ne_empty _)).mpr (htxs tx htx).1
  have hsort : sortedBy Transaction.hash (b.transactions.map (Transaction.readBack host now)) =
      (sortedBy Transaction.hash b.transactions).map (Transaction.readBack host now) := by
    refine (List.map_insertionSort _ _ _ _ fun x hx y hy => ?_).symm
    rw [hhashes x hx, hhashes y hy]
  have hmem : ∀ tx, tx ∈ sortedBy Transaction.hash b.transactions ↔ tx ∈ b.transactions := fun tx =>
    (List.perm_insertionSort _ b.transactions).mem_iff
  rw [readBack_block hhash]
  unfold Block.commitment
  simp only [BlockCommitment.mk.injEq, true_and, timestamp_self.mpr htime, hsort, List.map_map]
  rw [List.map_inj_left]
  simp only [hmem]
  exact forall₂_congr fun tx htx => commitment_readBack (htxs tx htx).1 (htxs tx htx).2

theorem roundTrips_iff (hown : b.hash = b.computeHash) (hc : NoCollision (b.readBack host now).preimage b.preimage) :
    b.RoundTrips host now ↔ b.Kept now := by
  have hhash : b.hash ≠ "" := by
    intro h
    have hlen := congrArg String.length h
    rw [hown, Blockchain.computeHash_length] at hlen
    cases hlen
  have hcommit : (b.readBack host now).computeHash = b.hash ↔ (b.readBack host now).commitment = b.commitment := by
    rw [hown]
    exact ⟨commitment_of_hash hc, hash_of_commitment⟩
  unfold Block.RoundTrips
  rw [hcommit, same_block_iff hhash]
  constructor
  · rintro ⟨hvalues, htxs, htime, hgas⟩
    have hnums := (commitment_block hhash htime fun tx htx => ⟨(htxs tx htx).1, (htxs tx htx).2.1⟩).mp hvalues
    exact ⟨fun tx htx => ⟨(htxs tx htx).1, (htxs tx htx).2.1, (htxs tx htx).2.2, hnums tx htx⟩, htime, hgas⟩
  · rintro ⟨htxs, htime, hgas⟩
    exact ⟨(commitment_block hhash htime fun tx htx => ⟨(htxs tx htx).hash, (htxs tx htx).timestamp⟩).mpr
      fun tx htx => (htxs tx htx).value, fun tx htx => ⟨(htxs tx htx).hash, (htxs tx htx).timestamp, (htxs tx htx).gas⟩, htime, hgas⟩

end

namespace Blockchain

/-- A block that was accepted without a peer's hash survives the round trip exactly when each of its
transactions records its gas limit as the gas used and has no integral value but 0. -/
theorem own_round_trip {c : Blockchain} {now now' : Int} {b b' : Block} {n n' : Node}
    (h : c.addBlock now b false n = (.ok b', n')) (hc : NoCollision (b'.readBack c.host now').preimage b'.preimage) :
    b'.RoundTrips c.host now' ↔ b'.Kept now' := by
  obtain ⟨r⟩ := addBlock_ok h
  refine roundTrips_iff ?_ hc
  rw [r.hash_eq]
  exact if_neg fun h => Bool.false_ne_true h.1

theorem own_hash_ne_empty {c : Blockchain} {now : Int} {b b' : Block} {n n' : Node}
    (h : c.addBlock now b false n = (.ok b', n')) : b'.hash ≠ "" := by
  obtain ⟨r⟩ := addBlock_ok h
  intro hempty
  rw [r.hash_eq, if_neg fun h => Bool.false_ne_true h.1] at hempty
  have hlen := congrArg String.length hempty
  rw [computeHash_length] at hlen
  cases hlen

def recorded (b : Block) : List Transaction × Int × Int := (b.transactions, b.timestamp, b.gasUsed)

theorem accepted_recorded {c : Blockchain} {now : Int} {b : Block} {n : Node} {r : List Transaction × Int × Int}
    (h : (c.addBlock now b false n).1.toOption.map recorded = some r) :
    ∃ b' n', c.addBlock now b false n = (.ok b', n') ∧ b'.transactions = r.1 ∧ b'.timestamp = r.2.1 ∧ b'.gasUsed = r.2.2 := by
  rcases hrun : c.addBlock now b false n with ⟨f | b', n'⟩
  · rw [hrun] at h
    cases h
  · rw [hrun] at h
    obtain rfl := Option.some.inj h
    exact ⟨b', n', rfl, rfl, rfl, rfl⟩

def paidTx (value : Python.Num) : Transaction :=
  { transferOf value with fee := 21 / 10000, burned := 21 / 500000, blockHeight := 1 }

/-- A transfer of `5.0`. -/
theorem own_round_trip_float :
    ∃ b' n', plain.addBlock 2 (plain.createBlock "1" 2 [transferOf (.float 5)] "v" fundedNode.db.live) false fundedNode =
      (.ok b', n') ∧ b'.RoundTrips Host.plain 3 := by
  obtain ⟨b', n', hrun, htxs, htime, hgas⟩ := @accepted_recorded plain 2
    (plain.createBlock "1" 2 [transferOf (.float 5)] "v" fundedNode.db.live) fundedNode ([paidTx (.float 5)], 2, 21000)
    (by decide +kernel)
  have hkept : b'.Kept 3 := by
    refine ⟨fun tx htx => ?_, .inl (by rw [htime]; decide), by rw [hgas, htxs]; rfl⟩
    rw [htxs] at htx
    obtain rfl := List.mem_singleton.mp htx
    exact ⟨by decide, .inl (by decide), rfl, fun n hn => nomatch hn⟩
  have hcommit : (b'.readBack Host.plain 3).commitment = b'.commitment :=
    (commitment_block (own_hash_ne_empty hrun) hkept.timestamp fun tx htx =>
      ⟨(hkept.transactions tx htx).hash, (hkept.transactions tx htx).timestamp⟩).mpr
        fun tx htx => (hkept.transactions tx htx).value
  have hc : NoCollision (b'.readBack Host.plain 3).preimage b'.preimage := by
    intro _
    unfold Block.preimage
    rw [canonical_congr hcommit]
  exact ⟨b', n', hrun, (own_round_trip hrun hc).mpr hkept⟩

def withEvm : Blockchain := { plain with evm := true }

def contractNode : Node :=
  let node := genesisNode none
  { node with db := { node.db with file := { node.db.file with
      accounts := ((EvmAdapter.contracts [("b", [0x60, 0])]).live.applyBalanceDelta "a" 100).accounts } } }

def callTx : Transaction := { transferOf (.float 0) with data := "00" }

/-- A call that used 3 of its 21000 gas comes back with 21000, and a transfer of the integer 5 with a
value that the hash takes for five millions. -/
theorem call_not_kept :
    (∃ b' n', withEvm.addBlock 2 (withEvm.createBlock "1" 2 [callTx] "v" contractNode.db.live) false contractNode = (.ok b', n') ∧
      ¬ b'.RoundTrips Host.plain 3) ∧
    ∃ b' n', plain.addBlock 2 (plain.createBlock "1" 2 [transferOf (.int 5)] "v" fundedNode.db.live) false fundedNode =
      (.ok b', n') ∧ (b'.readBack Host.plain 3).commitment ≠ b'.commitment := by
  refine ⟨?_, ?_⟩
  · obtain ⟨b', n', hrun, htxs, -⟩ := @accepted_recorded withEvm 2
      (withEvm.createBlock "1" 2 [callTx] "v" contractNode.db.live) contractNode
      ([{ callTx with fee := 21 / 10000, burned := 21 / 500000, gasUsed := 3, blockHeight := 1 }], 2, 21000) (by decide +kernel)
    refine ⟨b', n', hrun, fun h => ?_⟩
    obtain ⟨hkept, -⟩ := (same_block_iff (own_hash_ne_empty hrun)).mp h.2
    rw [htxs] at hkept
    exact absurd (hkept _ (List.mem_singleton_self _)).2.2 (by decide)
  · obtain ⟨b', n', hrun, htxs, htime, -⟩ := @accepted_recorded plain 2
      (plain.createBlock "1" 2 [transferOf (.int 5)] "v" fundedNode.db.live) fundedNode ([paidTx (.int 5)], 2, 21000)
      (by decide +kernel)
    refine ⟨b', n', hrun, fun h => ?_⟩
    have hvalues := (commitment_block (own_hash_ne_empty hrun) (.inl (by rw [htime]; decide)) fun tx htx => ?_).mp h
    · rw [htxs] at hvalues
      exact absurd (hvalues _ (List.mem_singleton_self _) 5 rfl) (by decide)
    · rw [htxs] at htx
      obtain rfl := List.mem_singleton.mp htx
      exact ⟨by decide, .inl (by decide)⟩

end Blockchain

end AbsoluteChain
