import AbsoluteChain.Supply

/-!
# Validation and execution

`validate_transaction` is asked about submitted transactions, `_apply_transaction`
about executed ones. What the second leaves unchecked is the same for every state:
the addresses, the sign of the value and the least gas.
-/

namespace AbsoluteChain

open Python Actions Act Transactions KeyedTable

/-! ## The bytecode of a deploy -/

theorem dropWhile_idem {α : Type} (p : α → Bool) (l : List α) : (l.dropWhile p).dropWhile p = l.dropWhile p := by
  induction l with
  | nil => rfl
  | cons a l ih =>
    by_cases h : p a = true
    · rw [List.dropWhile_cons_of_pos h, ih]
    · rw [List.dropWhile_cons_of_neg h, List.dropWhile_cons_of_neg h]

/-- Dropping from the right leaves the first element, when it stays at all, where it is. -/
theorem dropWhile_prefix {α : Type} (p : α → Bool) {l m : List α} (hl : l.dropWhile p = l) (hm : m <+: l) :
    m.dropWhile p = m := by
  cases m with
  | nil => rfl
  | cons a m =>
    obtain ⟨r, rfl⟩ := hm
    by_cases h : p a = true
    · rw [List.cons_append, List.dropWhile_cons_of_pos h] at hl
      have hlen := congrArg List.length hl
      have hle := (List.dropWhile_sublist p (l := m ++ r)).length_le
      rw [List.length_cons] at hlen
      omega
    · rw [List.dropWhile_cons_of_neg h]

theorem stripChars_idem (l : List Char) : stripChars (stripChars l) = stripChars l := by
  have hprefix : stripChars l <+: l.dropWhile isSpace := by
    unfold stripChars
    have hs : (l.dropWhile isSpace).reverse.dropWhile isSpace <:+ (l.dropWhile isSpace).reverse :=
      List.dropWhile_suffix _
    have hp := List.reverse_prefix.mpr hs
    rwa [List.reverse_reverse] at hp
  have hleft : (stripChars l).dropWhile isSpace = stripChars l :=
    dropWhile_prefix isSpace (dropWhile_idem _ _) hprefix
  have hunfold : stripChars (stripChars l) =
      (((stripChars l).dropWhile isSpace).reverse.dropWhile isSpace).reverse := rfl
  rw [hunfold, hleft]
  unfold stripChars
  rw [List.reverse_reverse, dropWhile_idem]

/-- The bytecode check strips its argument, so stripping it first makes no difference. -/
theorem validateBytecodeHex_strip (s : String) : validateBytecodeHex (strip s) = validateBytecodeHex s := by
  have hparse : parseBytecode (strip s) = parseBytecode s := by
    unfold parseBytecode strip
    rw [String.toList_ofList, stripChars_idem]
  unfold validateBytecodeHex
  rw [hparse]

theorem deployContract_checked {e : EvmAdapter} {deployer code salt : String} {value : ℚ} {gasLimit : Int}
    {res : EvmAdapter.EvmResult} {db db' : Db}
    (h : e.deployContract deployer code value gasLimit salt db = (.ok res, db')) (hs : res.success = true) :
    validateBytecodeHex code = .ok () := by
  unfold EvmAdapter.deployContract at h
  cases hb : bytesFromHex (removeHexPrefixes code) with
  | none =>
    rw [hb] at h
    cases h
    cases hs
  | some bytes =>
    rw [hb] at h
    by_cases hn : bytes = []
    · simp only [if_pos hn] at h
      cases h
      cases hs
    · simp only [if_neg hn] at h
      cases hv : validateBytecodeHex code with
      | error detail =>
        rw [hv] at h
        cases h
        cases hs
      | ok u => rfl

namespace Blockchain

variable {c : Blockchain} {now : Int}

theorem validateTransaction_ok {t : Tables} {tx : Transaction} :
    c.validateTransaction t tx = .ok () ↔
      (tx.fromAddr ≠ "" ∧ tx.toAddr ≠ "") ∧ 0 ≤ tx.value.toRat ∧ c.config.baseGasPrice ≤ tx.gas ∧
      tx.nonce = t.getNonce tx.fromAddr ∧
      tx.value.toRat + c.gasFee tx.gas ≤ t.getBalance tx.fromAddr ∧
      c.checkPool t tx.fromAddr (tx.value.toRat + c.gasFee tx.gas) (t.getBalance tx.fromAddr) = .ok () ∧
      verifyTxSignature c.host c.config tx = .ok () ∧ c.validateEvmDeployBytecode t tx = .ok () := by
  simp only [validateTransaction, check_bind_ok, require_ok, decide_eq_true_eq]

theorem TxStep.bytecode {height : Int} {proposer : String} {tx tx' : Transaction} {db db' : Db}
    (h : TxStep c now height proposer tx db tx' db') : c.validateEvmDeployBytecode db.live tx = .ok () := by
  unfold validateEvmDeployBytecode
  by_cases hd : c.isEvmDeployTx db.live tx = true
  · rw [if_pos hd]
    have hkind : c.kindOf db.live tx = .deploy := by
      simp only [isEvmDeployTx, decide_eq_true_eq] at hd
      obtain ⟨hdata, hevm, hcode, hdeploy⟩ := hd
      unfold kindOf
      rw [if_pos ⟨hdata, hevm⟩, if_neg (not_not.mpr hcode), if_pos hdeploy]
    cases h with
    | transfer checks kind =>
      rw [hkind] at kind
      cases kind
    | contract checks kind run success funds =>
      rw [hkind, runContract_deploy (by decide)] at run
      have hv := deployContract_checked run success
      rw [validateBytecodeHex_strip] at hv
      rw [hv]
  · rw [if_neg hd]

structure Submittable (c : Blockchain) (tx : Transaction) : Prop where
  fromAddr : tx.fromAddr ≠ ""
  toAddr : tx.toAddr ≠ ""
  value : 0 ≤ tx.value.toRat
  gas : c.config.baseGasPrice ≤ tx.gas

theorem TxStep.valid_iff {height : Int} {proposer : String} {tx tx' : Transaction} {db db' : Db}
    (h : TxStep c now height proposer tx db tx' db') :
    c.validateTransaction db.live tx = .ok () ↔ c.Submittable tx := by
  obtain ⟨hnonce, hfunds, hpool, hsig⟩ := precheck_ok.mp h.checks
  rw [validateTransaction_ok]
  constructor
  · rintro ⟨⟨hf, ht⟩, hv, hg, -⟩
    exact ⟨hf, ht, hv, hg⟩
  · rintro ⟨hf, ht, hv, hg⟩
    exact ⟨⟨hf, ht⟩, hv, hg, hnonce, hfunds, hpool, hsig, h.bytecode⟩

theorem along_valid_iff {height : Int} {proposer : String} {txs txs' : List Transaction} {db db' : Db}
    (h : c.applyTransactions now height proposer txs db = (.ok txs', db')) :
    c.Along now height proposer (fun db tx => c.validateTransaction db.live tx = .ok ()) txs db ↔
      ∀ tx ∈ txs, c.Submittable tx := by
  induction txs generalizing db txs' with
  | nil => simp [Along]
  | cons tx rest ih =>
    unfold applyTransactions at h
    obtain ⟨tx', db₁, h₁, h⟩ := bind_ok.mp h
    obtain ⟨rest', db₂, h₂, h⟩ := bind_ok.mp h
    cases h
    unfold Along
    rw [h₁, List.forall_mem_cons, (applyTransaction_ok h₁).valid_iff, ih h₂]

/-! ## Accepted blocks -/

variable {n n' : Node} {b b' : Block} {preserve : Bool}

/-- Every transaction of an accepted block would have been accepted on its own, at the tables it
was executed on, exactly when each has both addresses, a value that is not negative and the least
gas. Where the least gas is not negative, no value and no gas then is. -/
theorem acceptance_agrees (h : Acceptance c now n b preserve b' n') :
    ∃ n₀, (n₀ = n ∨ n₀ = truncated n) ∧ c.addBlock now b preserve n₀ = (.ok b', n') ∧
      (c.Along now b.height b.miner (fun db tx => c.validateTransaction db.live tx = .ok ()) b.transactions n₀.db.opened ↔
        ∀ tx ∈ b.transactions, c.Submittable tx) ∧
      (0 ≤ c.config.baseGasPrice → (∀ tx ∈ b.transactions, c.Submittable tx) →
        ∀ tx ∈ b.transactions, 0 ≤ tx.value.toRat ∧ 0 ≤ tx.gas) := by
  obtain ⟨n₀, h₀, ha⟩ := h.entered
  obtain ⟨r⟩ := addBlock_ok ha
  have hrun := r.ran
  rw [r.began] at hrun
  refine ⟨n₀, h₀, ha, along_valid_iff hrun, fun hgas hall tx htx => ?_⟩
  exact ⟨(hall tx htx).value, hgas.trans (hall tx htx).gas⟩

theorem acceptance_agrees_funded :
    ∃ n₀, (n₀ = fundedNode ∨ n₀ = truncated fundedNode) ∧
      plain.Along 2 1 "v" (fun db tx => plain.validateTransaction db.live tx = .ok ()) [transferOf (.int 5)] n₀.db.opened := by
  have hok : (plain.addBlock 2 (firstBlock [transferOf (.int 5)]) true fundedNode).1.toOption.isSome = true := by
    decide +kernel
  rcases hrun : plain.addBlock 2 (firstBlock [transferOf (.int 5)]) true fundedNode with ⟨f | b', n'⟩
  · rw [hrun] at hok
    cases hok
  · obtain ⟨n₀, h₀, -, hiff, -⟩ := acceptance_agrees (.added hrun)
    refine ⟨n₀, h₀, hiff.mpr fun tx htx => ?_⟩
    rw [List.mem_singleton.mp htx]
    exact ⟨by decide, by decide, by decide, by decide⟩

def negativeGasBlock : PeerBlock :=
  { height := some 1, parentHash := some "g", miner := some "v", timestamp := some 2, hash := some "b",
    transactions := some [{ hash := some "t", fromAddr := some "a", toAddr := some "w", nonce := some 0,
                            gas := some (-10000000) }] }

theorem import_accepts_negative_gas :
    let r := plain.importBlock 2 negativeGasBlock (genesisNode none)
    r.1.toOption.map (fun b => b.transactions.map fun tx => (tx.fromAddr, tx.gas)) = some [("a", -10000000)] ∧
    (genesisNode none).db.live.getBalance "a" = 0 ∧ r.2.db.live.getBalance "a" = 1 ∧
    (∀ t tx, tx.gas = -10000000 → plain.validateTransaction t tx ≠ .ok ()) := by
  refine ⟨by decide +kernel, by decide +kernel, by decide +kernel, fun t tx hgas hv => ?_⟩
  have hleast := (validateTransaction_ok.mp hv).2.2.1
  rw [hgas] at hleast
  exact absurd hleast (by decide)

end Blockchain

end AbsoluteChain
