import AbsoluteChain.Agreement
import AbsoluteChain.Payers
import AbsoluteChain.Positions

/-!
# Authorisation

What a verified signature says about the account that is debited. The two gates, one
transaction at a time and a block in a batch, agree; neither of them looks at the
address of the key.
-/

namespace AbsoluteChain

open Python JsonText Actions Act Transactions KeyedTable

/-! ## The batch -/

theorem collectBatch_eq (host : Host) (i : Nat) (ps : List SignedPayload) :
    collectBatch host i ps = Positions.collect i (ps.map (signatureMaterial host)) := by
  induction ps generalizing i with
  | nil => rfl
  | cons p rest ih =>
    unfold collectBatch
    rw [List.map_cons]
    cases signatureMaterial host p with
    | none => exact ih (i + 1)
    | some m => exact congrArg ((i, m) :: ·) (ih (i + 1))

theorem verifyTransactionSignaturesBatch_eq (host : Host) (ps : List SignedPayload) :
    verifyTransactionSignaturesBatch host ps = ps.map (verifyTransactionSignature host) := by
  have hzip : ∀ l : List (Nat × Bytes × Bytes × Bytes), (l.map Prod.fst).zip (verifyBatch host (l.map Prod.snd)) =
      l.map fun m => (m.1, host.verify m.2.1 m.2.2.1 m.2.2.2) := by
    intro l
    unfold verifyBatch
    rw [List.map_map, ← List.zip_map']
    rfl
  have h := Positions.scatter_collect (fun m => host.verify m.1 m.2.1 m.2.2) false (ps.map (signatureMaterial host))
  rw [List.length_map, List.map_map] at h
  unfold verifyTransactionSignaturesBatch
  simp only [hzip, collectBatch_eq]
  refine h.trans (List.map_congr_left fun p _ => ?_)
  unfold verifyTransactionSignature
  rw [Function.comp_apply]
  cases signatureMaterial host p with
  | none => rfl
  | some m => rfl

theorem firstInvalid_ok (f : Transaction → Bool) (txs : List Transaction) :
    firstInvalid (txs.zip (txs.map f)) = .ok () ↔ ∀ tx ∈ txs, f tx = true := by
  induction txs with
  | nil => simp [firstInvalid]
  | cons tx rest ih =>
    rw [List.map_cons, List.zip_cons_cons, List.forall_mem_cons]
    cases hf : f tx with
    | true => simp only [firstInvalid, ih, true_and]
    | false => simp [firstInvalid]

theorem collectSigned_ok {config : Config} {txs signed : List Transaction} :
    collectSigned config txs = .ok signed ↔
      signed = txs.filter (fun tx => tx.signature ≠ "") ∧
      ∀ tx ∈ txs, if tx.signature = "" then config.requireSignatures = false else tx.publicKey ≠ "" := by
  induction txs generalizing signed with
  | nil =>
    unfold collectSigned
    rw [Except.ok.injEq, eq_comm]
    simp
  | cons tx rest ih =>
    unfold collectSigned
    by_cases hs : tx.signature = ""
    · cases hr : config.requireSignatures with
      | true => simp [hs]
      | false => simp [hs, hr, ih]
    · by_cases hk : tx.publicKey = ""
      · simp [hs, hk]
      · simp only [if_neg hs, if_neg hk, except_bind_ok, List.forall_mem_cons, ih]
        simp only [pure, Except.pure, Except.ok.injEq]
        constructor
        · rintro ⟨l, ⟨hl, hrest⟩, rfl⟩
          refine ⟨?_, hk, hrest⟩
          simp [hs, hl]
        · rintro ⟨hsigned, -, hrest⟩
          exact ⟨_, ⟨rfl, hrest⟩, by rw [hsigned]; simp [hs]⟩

/-- The batch gate accepts a block exactly when the single check accepts each of its transactions. -/
theorem verifyBlockTxSignatures_ok {host : Host} {config : Config} {txs : List Transaction} :
    verifyBlockTxSignatures host config txs = .ok () ↔ ∀ tx ∈ txs, verifyTxSignature host config tx = .ok () := by
  have hsingle : ∀ tx, verifyTxSignature host config tx = .ok () ↔
      (if tx.signature = "" then config.requireSignatures = false else tx.publicKey ≠ "") ∧
        (tx.signature ≠ "" → verifyTransactionSignature host (tx.payload config.chainId) = true) := by
    intro tx
    unfold verifyTxSignature
    by_cases hs : tx.signature = ""
    · cases config.requireSignatures <;> simp [hs]
    · by_cases hk : tx.publicKey = ""
      · simp [hs, hk]
      · by_cases hv : verifyTransactionSignature host (tx.payload config.chainId) = true <;> simp [hs, hk, hv]
  unfold verifyBlockTxSignatures
  simp only [except_bind_ok, collectSigned_ok, verifyTransactionSignaturesBatch_eq, List.map_map]
  constructor
  · rintro ⟨signed, ⟨rfl, hshape⟩, hbatch⟩ tx htx
    refine (hsingle tx).mpr ⟨hshape tx htx, fun hs => ?_⟩
    exact (firstInvalid_ok _ _).mp hbatch tx (List.mem_filter.mpr ⟨htx, by simpa using hs⟩)
  · intro h
    refine ⟨_, ⟨rfl, fun tx htx => ((hsingle tx).mp (h tx htx)).1⟩, (firstInvalid_ok _ _).mpr fun tx htx => ?_⟩
    obtain ⟨hmem, hs⟩ := List.mem_filter.mp htx
    exact ((hsingle tx).mp (h tx hmem)).2 (by simpa using hs)

/-! ## Who signed -/

def SignedBy (c : Blockchain) (tx : Transaction) (a : String) : Prop :=
  ∃ message signature publicKey,
    signatureMaterial c.host (tx.payload c.config.chainId) = some (message, signature, publicKey) ∧
    c.host.verify message signature publicKey = true ∧ deriveAddress publicKey = a

def SenderBound (tx : Transaction) : Prop := (bytesFromHex tx.publicKey).map deriveAddress = some tx.fromAddr

theorem verifies_of_bytes {host : Host} {p : SignedPayload} {signature publicKey : Bytes}
    (hs : bytesFromHex p.signature = some signature) (hk : bytesFromHex p.publicKey = some publicKey)
    (hv : host.verify (encode (sha256Hex (encode (host.compactJson (canonicalTxForHash p))))) signature publicKey = true) :
    verifyTransactionSignature host p = true := by
  unfold verifyTransactionSignature signatureMaterial
  rw [hs, hk]
  exact hv

theorem verifyTxSignature_of {host : Host} {config : Config} {tx : Transaction} (hs : tx.signature ≠ "")
    (hk : tx.publicKey ≠ "") (hv : verifyTransactionSignature host (tx.payload config.chainId) = true) :
    verifyTxSignature host config tx = .ok () := by
  unfold verifyTxSignature
  rw [if_neg hs, if_neg hk, if_pos hv]

theorem verifyTxSignature_required {c : Blockchain} (hreq : c.config.requireSignatures = true) {tx : Transaction}
    (h : verifyTxSignature c.host c.config tx = .ok ()) :
    ∃ message signature publicKey,
      signatureMaterial c.host (tx.payload c.config.chainId) = some (message, signature, publicKey) ∧
      bytesFromHex tx.publicKey = some publicKey ∧ c.host.verify message signature publicKey = true := by
  unfold verifyTxSignature at h
  by_cases hs : tx.signature = ""
  · rw [if_pos hs, if_pos hreq] at h
    cases h
  · rw [if_neg hs] at h
    by_cases hk : tx.publicKey = ""
    · rw [if_pos hk] at h
      cases h
    · rw [if_neg hk] at h
      by_cases hv : verifyTransactionSignature c.host (tx.payload c.config.chainId) = true
      · unfold verifyTransactionSignature at hv
        cases hm : signatureMaterial c.host (tx.payload c.config.chainId) with
        | none => simp [hm] at hv
        | some m =>
          obtain ⟨message, signature, publicKey⟩ := m
          rw [hm] at hv
          refine ⟨message, signature, publicKey, rfl, ?_, hv⟩
          unfold signatureMaterial at hm
          cases hsig : bytesFromHex (tx.payload c.config.chainId).signature with
          | none => simp [hsig] at hm
          | some sig =>
            cases hkey : bytesFromHex (tx.payload c.config.chainId).publicKey with
            | none => simp [hsig, hkey] at hm
            | some key =>
              simp only [hsig, hkey, Option.some.injEq, Prod.mk.injEq] at hm
              rw [← hm.2.2]
              exact hkey
      · rw [if_neg hv] at h
        cases h

theorem signedBy_sender_iff {c : Blockchain} (hreq : c.config.requireSignatures = true) {tx : Transaction}
    (h : verifyTxSignature c.host c.config tx = .ok ()) : SignedBy c tx tx.fromAddr ↔ SenderBound tx := by
  obtain ⟨message, signature, publicKey, hm, hkey, hv⟩ := verifyTxSignature_required hreq h
  unfold SignedBy SenderBound
  rw [hkey, hm, Option.map_some, Option.some.injEq]
  constructor
  · rintro ⟨_, _, _, hsame, -, ha⟩
    cases hsame
    exact ha
  · intro ha
    exact ⟨message, signature, publicKey, rfl, hv, ha⟩

/-! ## Accepted transactions -/

namespace Blockchain

variable {c : Blockchain} {now : Int}

theorem along_nonce {height : Int} {proposer : String} {txs txs' : List Transaction} {db db' : Db}
    (h : c.applyTransactions now height proposer txs db = (.ok txs', db'))
    (hsigned : ∀ tx ∈ txs, SignedBy c tx tx.fromAddr) (a : String) :
    c.Along now height proposer (fun db tx =>
      db.live.getNonce a < (c.applyTransaction now tx height proposer db).2.live.getNonce a → SignedBy c tx a) txs db := by
  refine @along_of_run c now height proposer _ (fun txs _ => ∀ tx ∈ txs, SignedBy c tx tx.fromAddr) ?_ _ _ _ _ h hsigned
  intro tx rest db tx' db' hi hrun
  refine ⟨fun hlt => ?_, fun tx₁ htx₁ => hi tx₁ (List.mem_cons_of_mem _ htx₁)⟩
  by_cases ha : tx.fromAddr = a
  · rw [← ha]
    exact hi tx (List.mem_cons_self ..)
  · rw [hrun] at hlt
    exact absurd hlt (not_lt.mpr ((applyTransaction_ok hrun).nonce ha))

theorem along_debit {height : Int} {proposer : String} {txs txs' : List Transaction} {db db' : Db}
    (h : c.applyTransactions now height proposer txs db = (.ok txs', db')) (hs : c.config.Sound)
    (hsigned : ∀ tx ∈ txs, SignedBy c tx tx.fromAddr) (hpos : ∀ tx ∈ txs, 0 ≤ tx.value.toRat ∧ 0 ≤ tx.gas) {a : String}
    (hc : c.Along now height proposer (c.Spares now height a) txs db) (hn : NoContract (c.adapter now) a db.live) :
    c.Along now height proposer (fun db tx =>
      (c.applyTransaction now tx height proposer db).2.live.getBalance a < db.live.getBalance a → SignedBy c tx a) txs db := by
  refine @along_of_run c now height proposer _
    (fun txs db => (∀ tx ∈ txs, SignedBy c tx tx.fromAddr ∧ 0 ≤ tx.value.toRat ∧ 0 ≤ tx.gas) ∧
      c.Along now height proposer (c.Spares now height a) txs db ∧ NoContract (c.adapter now) a db.live) ?_ _ _ _ _ h
    ⟨fun tx htx => ⟨hsigned tx htx, hpos tx htx⟩, hc, hn⟩
  intro tx rest db tx' db' hinv hrun
  obtain ⟨htxs, ⟨hspares, hrest⟩, hn⟩ := hinv
  rw [hrun] at hrest
  have hstep := applyTransaction_ok hrun
  obtain ⟨hsig, hv, hg⟩ := htxs tx (List.mem_cons_self ..)
  refine ⟨fun hlt => ?_, fun tx₁ htx₁ => htxs tx₁ (List.mem_cons_of_mem _ htx₁), hrest, hstep.codeless hspares hn⟩
  by_cases ha : tx.fromAddr = a
  · rw [← ha]
    exact hsig
  · rw [hrun] at hlt
    exact absurd hlt (not_lt.mpr (hstep.unpaid hs hv hg hspares ha hn).2)

/-- With signatures required, a submitted or executed transaction is signed by its sender exactly
when its sender is the address of its key. Where that holds of a block, each of its transactions
advances only nonces that its signer owns and, amounts and gas not being negative, takes only from
its signer and from accounts that hold code or run a constructor. -/
theorem acceptance_authorised (hreq : c.config.requireSignatures = true) :
    (∀ t tx, c.validateTransaction t tx = .ok () → (SignedBy c tx tx.fromAddr ↔ SenderBound tx)) ∧
    ∀ {n n' : Node} {b b' : Block} {preserve : Bool}, Acceptance c now n b preserve b' n' →
      ((∀ tx ∈ b.transactions, SignedBy c tx tx.fromAddr) ↔ ∀ tx ∈ b.transactions, SenderBound tx) ∧
      ((∀ tx ∈ b.transactions, SenderBound tx) →
        ∃ n₀, (n₀ = n ∨ n₀ = truncated n) ∧ c.addBlock now b preserve n₀ = (.ok b', n') ∧ ∀ a,
          c.Along now b.height b.miner (fun db tx =>
            db.live.getNonce a < (c.applyTransaction now tx b.height b.miner db).2.live.getNonce a → SignedBy c tx a)
            b.transactions n₀.db.opened ∧
          (c.config.Sound → (∀ tx ∈ b.transactions, 0 ≤ tx.value.toRat ∧ 0 ≤ tx.gas) →
            c.Along now b.height b.miner (c.Spares now b.height a) b.transactions n₀.db.opened →
            NoContract (c.adapter now) a n.db.live →
            c.Along now b.height b.miner (fun db tx =>
              (c.applyTransaction now tx b.height b.miner db).2.live.getBalance a < db.live.getBalance a → SignedBy c tx a)
              b.transactions n₀.db.opened)) := by
  refine ⟨fun t tx hv => ?_, fun {n n' b b' preserve} h => ?_⟩
  · exact signedBy_sender_iff hreq (validateTransaction_ok.mp hv).2.2.2.2.2.2.1
  · obtain ⟨n₀, h₀, ha⟩ := h.entered
    obtain ⟨r⟩ := addBlock_ok ha
    have hsigs := verifyBlockTxSignatures_ok.mp (admitBlock_ok r.admitted).signatures
    have hiff : (∀ tx ∈ b.transactions, SignedBy c tx tx.fromAddr) ↔ ∀ tx ∈ b.transactions, SenderBound tx :=
      forall₂_congr fun tx htx => signedBy_sender_iff hreq (hsigs tx htx)
    refine ⟨hiff, fun hbound => ⟨n₀, h₀, ha, fun a => ?_⟩⟩
    have hrun := r.ran
    have hlive := r.live_start
    rw [r.began] at hrun hlive
    have hsigned := hiff.mpr hbound
    refine ⟨along_nonce hrun hsigned a, fun hs hpos hc hn => along_debit hrun hs hsigned hpos hc ?_⟩
    rw [hlive]
    rcases h₀ with rfl | rfl
    · exact hn
    · exact hn.congr fun x => rfl

/-! ### A key of one address and a sender of another -/

def sampleKey : String :=
  "79be667ef9dcbbac55a06295ce870b07029bfcdb2dce28d959f2815b16f81798483ada7726a3c4655da4fbfc0e1108a8fd17b448a68554199c47d08ffb10d4b8"

def sampleAddress : String := "0xb46a7a1a23f3897cc83a94521a96da5c23bc58db"

/-- The signatures of the key under the transfers of `a` and of its own address. -/
def forgedSignature : String :=
  "3045022100c6047f9441ed7d6d3045406e95c07cd85c778e4b8cef3ca7abac09b95c709ee502204fcf37f276f198dbbb8f1760530ed75c59524891a55d7d7f26373911c83d9609"

def boundSignature : String :=
  "3045022100c6047f9441ed7d6d3045406e95c07cd85c778e4b8cef3ca7abac09b95c709ee50220041be76dca87fcd3beb67b217c83080816560d69d0802b7dfaca84b3dd312bbf"

def signingHost : Host :=
  { Host.plain with
    verify := fun message signature publicKey =>
      natOfBytes publicKey =
          0x79be667ef9dcbbac55a06295ce870b07029bfcdb2dce28d959f2815b16f81798483ada7726a3c4655da4fbfc0e1108a8fd17b448a68554199c47d08ffb10d4b8 ∧
        ((natOfBytes signature =
              0x3045022100c6047f9441ed7d6d3045406e95c07cd85c778e4b8cef3ca7abac09b95c709ee502204fcf37f276f198dbbb8f1760530ed75c59524891a55d7d7f26373911c83d9609 ∧
            natOfBytes message =
              0x61306339353837623165356638643161373433306537336338376265653630343034376262383730633532633338383339636666376538646536376164343933) ∨
          (natOfBytes signature =
              0x3045022100c6047f9441ed7d6d3045406e95c07cd85c778e4b8cef3ca7abac09b95c709ee50220041be76dca87fcd3beb67b217c83080816560d69d0802b7dfaca84b3dd312bbf ∧
            natOfBytes message =
              0x35303333656431323334626231396664646235383364303835336162373739336561373437643965373433376364313630643365393434393234343436633262)) }

def signing : Blockchain := { plain with host := signingHost, config := { plain.config with requireSignatures := true } }

def signedTransfer (sender signature : String) : Transaction :=
  { transferOf (.int 5) with fromAddr := sender, signature := signature, publicKey := sampleKey }

def boundTransfer : Transaction := signedTransfer sampleAddress boundSignature

def forgedTransfer : Transaction := signedTransfer "a" forgedSignature

def signerNode : Node :=
  { fundedNode with db := { fundedNode.db with file := fundedNode.db.file.applyBalanceDelta sampleAddress 100 } }

theorem sampleKey_address : (bytesFromHex sampleKey).map deriveAddress = some sampleAddress := by
  have hchars : ∀ s, (bytesFromHex s).map deriveAddress = (bytesFromHexChars s.toList).map fun bs =>
      "0x" ++ String.ofList (((Digest.sha256Words bs).flatMap Digest.wordHex).drop 24) := by
    intro s
    unfold bytesFromHex
    refine congrArg (fun f => Option.map f (bytesFromHexChars s.toList)) (funext fun bs => ?_)
    unfold deriveAddress sha256Hex Digest.sha256Hex
    rw [String.toList_ofList]
  rw [hchars]
  unfold sampleKey
  rw [String.toList_ofList]
  decide +kernel

theorem signerNode_codeless (x : String) : EvmAdapter.codeOf signerNode.db.live x = none := by
  have hempty : EvmAdapter.codeOf (genesisNode none).db.live x = none := rfl
  have hfunded : EvmAdapter.codeOf fundedNode.db.live x = none := (codeOf_applyBalanceDelta _ _ _ _).trans hempty
  exact (codeOf_applyBalanceDelta _ _ _ _).trans hfunded

theorem acceptance_authorised_bound :
    SignedBy signing boundTransfer sampleAddress ∧
    ∃ n₀, (n₀ = signerNode ∨ n₀ = truncated signerNode) ∧
      signing.Along 2 1 "v" (fun db tx =>
        (signing.applyTransaction 2 tx 1 "v" db).2.live.getBalance "b" < db.live.getBalance "b" → SignedBy signing tx "b")
        [boundTransfer] n₀.db.opened := by
  have hok : (signing.addBlock 2 (firstBlock [boundTransfer]) true signerNode).1.toOption.isSome = true := by
    decide +kernel
  have hbound : ∀ tx ∈ (firstBlock [boundTransfer]).transactions, SenderBound tx := by
    intro tx htx
    rw [List.mem_singleton.mp htx]
    exact sampleKey_address
  rcases hrun : signing.addBlock 2 (firstBlock [boundTransfer]) true signerNode with ⟨f | b', n'⟩
  · rw [hrun] at hok
    cases hok
  · obtain ⟨hiff, hhence⟩ := (acceptance_authorised rfl).2 (.added hrun)
    obtain ⟨n₀, h₀, -, hclauses⟩ := hhence hbound
    refine ⟨hiff.mpr hbound boundTransfer (List.mem_singleton.mpr rfl), n₀, h₀, (hclauses "b").2 ?_ ?_ ?_ ?_⟩
    · exact ⟨by norm_num [signing, plain], by norm_num [signing, plain], by norm_num [signing, plain],
        by norm_num [signing, plain]⟩
    · intro tx htx
      rw [List.mem_singleton.mp htx]
      decide +kernel
    · exact ⟨spares_transfer (if_neg fun h => h.1 rfl), trivial⟩
    · intro x hx
      exact absurd (signerNode_codeless x) hx

/-- The key signs a transfer of somebody else's coins, and both gates let it through. -/
theorem forged_sender_accepted :
    let r := signing.addBlock 2 (firstBlock [forgedTransfer]) true signerNode
    r.1.toOption.isSome = true ∧ signerNode.db.live.getBalance "a" = 100 ∧ r.2.db.live.getBalance "a" < 100 ∧
      signerNode.db.live.getNonce "a" = 0 ∧ r.2.db.live.getNonce "a" = 1 ∧ ¬ SignedBy signing forgedTransfer "a" := by
  have hrun : (signing.addBlock 2 (firstBlock [forgedTransfer]) true signerNode).1.toOption.isSome = true ∧
      signerNode.db.live.getBalance "a" = 100 ∧
      (signing.addBlock 2 (firstBlock [forgedTransfer]) true signerNode).2.db.live.getBalance "a" < 100 ∧
      signerNode.db.live.getNonce "a" = 0 ∧
      (signing.addBlock 2 (firstBlock [forgedTransfer]) true signerNode).2.db.live.getNonce "a" = 1 := by
    decide +kernel
  refine ⟨hrun.1, hrun.2.1, hrun.2.2.1, hrun.2.2.2.1, hrun.2.2.2.2, ?_⟩
  rintro ⟨-, -, publicKey, -, -, ha⟩
  have hlen := congrArg (fun s : String => s.toList.head?) ha
  simp [deriveAddress] at hlen

end Blockchain

end AbsoluteChain
