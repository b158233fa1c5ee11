import AbsoluteChain.Authorisation
import AbsoluteChain.Counting
import AbsoluteChain.Storing

/-!
# Nonces

The nonce column counts the stored transactions of each sender. A block advances
it inside its transaction, so a commit on the way to a rejection leaves it ahead of
the chain, and a replay that does not go through leaves it behind.
-/

namespace AbsoluteChain

open Python Actions Act Transactions KeyedTable Counting

/-! ## Contract execution -/

def nonceFixed (a : String) (k : ℕ) : Frame Db where
  rel s t := s.live.getNonce a = k →
    t.live.getNonce a = k ∧ (t.file.getNonce a = s.file.getNonce a ∨ t.file.getNonce a = k)
  refl _ h := ⟨h, .inl rfl⟩
  trans h₁ h₂ h := by
    obtain ⟨hl₁, hf₁⟩ := h₁ h
    obtain ⟨hl₂, hf₂⟩ := h₂ hl₁
    refine ⟨hl₂, ?_⟩
    rcases hf₂ with hf | hf
    · rw [hf]
      exact hf₁
    · exact .inr hf

section frames
variable {a : String} {k : ℕ}

theorem fixed_committed {f : Tables → Tables} (h : ∀ t, t.getNonce a = k → (f t).getNonce a = k) :
    Keeps (nonceFixed a k) (committed f) := keeps_write fun db hl => ⟨h db.live hl, .inr (h db.live hl)⟩

theorem fixed_ownFrame (e : EvmAdapter) : EvmAdapter.OwnFrame e (nonceFixed a k) (fun b => b = a → k = 0) where
  balance x d := fixed_committed fun t h => (Tables.nonce_applyBalanceDelta x a d t).trans h
  storage x s := fixed_committed fun t h => (Tables.nonce_updateAccountStorage x a s t).trans h
  logs x l := keeps_bind (keeps_query _) fun _ => keeps_ite (fun _ => keeps_pure _) fun _ => fixed_committed fun t h => h
  created seed x hx hk := fixed_committed fun t h => by
    rw [Tables.nonce_saveAccount]
    by_cases ha : a = EvmAdapter.createdAddress seed
    · rw [if_pos ha, hx, hk ha.symm]
    · rw [if_neg ha, h]
  selfDestruct x b := fun db hl => by
    obtain ⟨hlive, hfile⟩ := nonce_selfDestruct e x b a db
    exact ⟨hlive.trans hl, .inr (hfile.trans hl)⟩

end frames

/-! ## Transactions -/

theorem nonce_congr {t u : Tables} (h : u.accounts = t.accounts) (a : String) : u.getNonce a = t.getNonce a := by
  unfold Tables.getNonce Tables.getAccount
  rw [h]

namespace Blockchain

variable {c : Blockchain} {now height : Int} {proposer : String} {tx tx' : Transaction} {db db' : Db}

def CreatesNew (c : Blockchain) (now height : Int) (db : Db) (tx : Transaction) : Prop :=
  ∀ entry, c.contractEntry db.live tx height = some entry →
    ∀ b ∈ entry.created (c.adapter now) db, db.live.getNonce b = 0

theorem createsNew_transfer (hk : c.kindOf db.live tx = .transfer) : c.CreatesNew now height db tx := fun entry hentry => by
  rw [contractEntry_transfer hk] at hentry
  cases hentry

theorem fixed_runContract (hp : c.precheck db.live tx = .ok ()) (hk : c.kindOf db.live tx ≠ .transfer)
    (hnew : c.CreatesNew now height db tx) (a : String) :
    (nonceFixed a (db.live.getNonce a)).rel db (c.runContract now (c.kindOf db.live tx) tx height db).2 := by
  obtain ⟨entry, hentry, -, heq⟩ := @contractEntry_ran c now height tx db.live hp hk
  rw [heq]
  refine (fixed_ownFrame _).run fun b hb hba => ?_
  rw [← hba]
  exact hnew entry hentry b hb

/-- A transaction carries its sender's count and advances it. -/
theorem TxStep.advances (h : TxStep c now height proposer tx db tx' db') (hnew : c.CreatesNew now height db tx) :
    tx.nonce = db.live.getNonce tx.fromAddr ∧ db'.live.getNonce = advance db.live.getNonce tx.fromAddr := by
  have hsettle : ∀ ch t, (c.settleTables tx (c.feeRecipient proposer) ch t).getNonce = advance t.getNonce tx.fromAddr := by
    intro ch t
    funext a
    rw [nonce_settleTables]
    by_cases ha : a = tx.fromAddr
    · rw [if_pos ha, ha, advance_same]
    · rw [if_neg ha, advance_ne _ ha]
  cases h with
  | transfer checks kind =>
    refine ⟨(precheck_ok.mp checks).1, ?_⟩
    funext a
    rw [nonce_congr (accounts_recordPool _ _ _), Store.live_exec]
    unfold transferTables
    rw [hsettle]
    unfold advance
    simp only [Tables.nonce_applyBalanceDelta]
  | @contract res db₁ checks kind run success funds =>
    refine ⟨(precheck_ok.mp checks).1, ?_⟩
    have hrun : db₁.live.getNonce = db.live.getNonce := by
      funext a
      have hfixed := fixed_runContract checks kind hnew a
      rw [run] at hfixed
      exact (hfixed rfl).1
    funext a
    rw [nonce_congr (accounts_recordPool _ _ _), Store.live_exec]
    unfold contractTables
    rw [hsettle, ← hrun]
    unfold advance
    simp only [Tables.nonce_applyBalanceDelta]

def sentOf (txs : List Transaction) : List (String × ℤ) := txs.map fun tx => (tx.fromAddr, tx.nonce)

theorem TxSteps.sent {txs txs' : List Transaction} (h : TxSteps c now height proposer txs db txs' db') :
    sentOf txs' = sentOf txs := by
  induction h with
  | nil => rfl
  | @cons tx tx' rest rest' db db₁ db₂ step steps ih =>
    show (tx'.fromAddr, tx'.nonce) :: sentOf rest' = (tx.fromAddr, tx.nonce) :: sentOf rest
    rw [ih, step.kept]

/-- The run lemma: the transactions of a block carry the counts one after the other. -/
theorem numbered_applyTransactions {txs txs' : List Transaction}
    (h : c.applyTransactions now height proposer txs db = (.ok txs', db'))
    (hnew : c.Along now height proposer (c.CreatesNew now height) txs db) :
    Numbered db.live.getNonce (sentOf txs) db'.live.getNonce := by
  induction txs generalizing db txs' with
  | nil =>
    cases h
    exact .nil _
  | cons tx rest ih =>
    unfold applyTransactions at h
    obtain ⟨tx₁, db₁, h₁, h⟩ := bind_ok.mp h
    obtain ⟨rest', db₂, h₂, h⟩ := bind_ok.mp h
    cases h
    obtain ⟨hhead, htail⟩ := hnew
    rw [h₁] at htail
    obtain ⟨hnonce, hnext⟩ := (applyTransaction_ok h₁).advances hhead
    have hrest := ih h₂ htail
    rw [hnext] at hrest
    show Numbered _ ((tx.fromAddr, tx.nonce) :: sentOf rest) _
    rw [hnonce]
    exact .cons _ hrest

end Blockchain

/-! ## What the chain holds -/

def BlockDict.sent (d : BlockDict) : List (String × ℤ) := d.transactions.map fun tx => (tx.fromAddr, tx.nonce)

def Tables.sent (t : Tables) : List (String × ℤ) :=
  (List.range (t.getChainTip + 1).toNat).flatMap fun h : ℕ => ((t.getBlock h).map BlockDict.sent).getD []

def Tables.noncesOf (t : Tables) (a : String) : List ℤ := (t.sent.filter fun e => e.1 = a).map Prod.snd

/-- The nonce column counts the stored transactions, and those carry the counts; the genesis block is empty. -/
structure Counted (t : Tables) : Prop where
  numbered : Numbered (fun _ => 0) t.sent t.getNonce
  genesis : ∀ d, t.getBlock 0 = some d → d.transactions = []

theorem sent_congr {t u : Tables} (h : u.blocks = t.blocks) : u.sent = t.sent := by
  unfold Tables.sent
  simp only [chainTip_congr h, getBlock_congr h]

theorem Counted.congr {t u : Tables} (h : Counted t) (hb : u.blocks = t.blocks) (hn : u.getNonce = t.getNonce) :
    Counted u where
  numbered := by
    rw [sent_congr hb, hn]
    exact h.numbered
  genesis d hd := h.genesis d (by rwa [getBlock_congr hb] at hd)

theorem sent_append {t u : Tables} {d : BlockDict} (hnonneg : 0 ≤ t.getChainTip)
    (htip : u.getChainTip = t.getChainTip + 1) (hkept : ∀ h, h ≤ t.getChainTip → u.getBlock h = t.getBlock h)
    (htop : u.getBlock (t.getChainTip + 1) = some d) : u.sent = t.sent ++ d.sent := by
  obtain ⟨n, hn⟩ := Int.eq_ofNat_of_zero_le hnonneg
  rw [hn] at htip hkept htop
  unfold Tables.sent
  rw [htip, hn, show ((n : ℤ) + 1).toNat = n + 1 by omega, show ((n : ℤ) + 1 + 1).toNat = (n + 1) + 1 by omega,
    List.range_succ (n := n + 1), List.flatMap_append]
  congr 1
  · refine List.flatMap_congr fun h hh => ?_
    rw [hkept h (by have := List.mem_range.mp hh; omega)]
  · simp only [List.flatMap_cons, List.flatMap_nil, List.append_nil]
    push_cast
    rw [htop]
    rfl

theorem sent_above {t : Tables} {n : ℕ} (htip : t.getChainTip = n) (hgen : ∀ d, t.getBlock 0 = some d → d.transactions = []) :
    t.sent = (List.range n).flatMap fun i : ℕ => ((t.getBlock (1 + i : ℤ)).map BlockDict.sent).getD [] := by
  have hzero : ((t.getBlock ((0 : ℕ) : ℤ)).map BlockDict.sent).getD [] = [] := by
    cases hd : t.getBlock ((0 : ℕ) : ℤ) with
    | none => rfl
    | some d =>
      show d.transactions.map _ = []
      rw [hgen d hd]
      rfl
  unfold Tables.sent
  rw [htip, show ((n : ℤ) + 1).toNat = n + 1 by omega, List.range_succ_eq_map, List.flatMap_cons, hzero, List.nil_append,
    List.flatMap_map]
  refine List.flatMap_congr fun i _ => ?_
  rw [show ((i.succ : ℕ) : ℤ) = 1 + i by push_cast; omega]

namespace Blockchain

variable {c : Blockchain} {now height : Int} {db db' : Db} {b b' : Block} {preserve : Bool} {n n' : Node}

def NewReplay (c : Blockchain) (now : Int) : Nat → Int → Db → Prop
  | 0, _, _ => True
  | k + 1, h, db => ∀ d, db.live.getBlock h = some d →
      let b := Block.fromDict c.host now d.asPeer
      c.Along now b.height b.miner (c.CreatesNew now b.height) b.transactions db ∧
        ∀ txs db', c.applyTransactions now b.height b.miner b.transactions db = (.ok txs, db') →
          NewReplay c now k (h + 1) (c.applyBlockReward b.miner db').2

theorem replayBlocks_numbered {k : ℕ} (hrun : c.replayBlocks now k height db = (.ok (), db'))
    (hnew : c.NewReplay now k height db) :
    Numbered db.live.getNonce
      ((List.range k).flatMap fun i : ℕ => ((db.live.getBlock (height + i)).map BlockDict.sent).getD []) db'.live.getNonce := by
  induction k generalizing height db with
  | zero =>
    cases hrun
    exact .nil _
  | succ k ih =>
    unfold replayBlocks at hrun
    simp only [bind_run, query_run] at hrun
    cases hd : db.live.getBlock height with
    | none =>
      rw [hd] at hrun
      cases hrun
    | some d =>
      rw [hd] at hrun
      obtain ⟨txs, db₁, htxs, hrun⟩ := bind_ok.mp hrun
      obtain ⟨reward, db₂, hreward, hrun⟩ := bind_ok.mp hrun
      have hsent : sentOf (Block.fromDict c.host now d.asPeer).transactions = d.sent := by
        show sentOf ((d.transactions.map TxDict.asPeer).map (Transaction.fromDict c.host now)) = _
        unfold sentOf BlockDict.sent
        rw [List.map_map, List.map_map]
        rfl
      obtain ⟨hblock, hreplay⟩ := hnew d hd
      have hfirst := numbered_applyTransactions htxs hblock
      have hsame : db₂.live.getNonce = db₁.live.getNonce := by
        have hlive := (applyBlockReward_ok hreward).2
        funext a
        rw [hlive]
        unfold rewardTables
        by_cases hpos : 0 < c.rewardFor db₁.live
        · rw [if_pos hpos, Tables.nonce_applyBalanceDelta]
        · rw [if_neg hpos]
      have hblocks : db₂.live.blocks = db.live.blocks :=
        (keeps_apply (keeps_applyBlockReward executionFree_blocks _) hreward).1.trans
          (keeps_apply (keeps_applyTransactions executionFree_blocks _ _ _) htxs).1
      have hshift : ∀ i : ℕ, height + 1 + (i : ℤ) = height + ((i + 1 : ℕ) : ℤ) := fun i => by push_cast; ring
      have hnext := hreplay txs db₁ htxs
      rw [hreward] at hnext
      have hrest := ih hrun hnext
      rw [hsame] at hrest
      rw [List.range_succ_eq_map, List.flatMap_cons, List.flatMap_map, Nat.cast_zero, add_zero, hd]
      refine Numbered.append (g := db₁.live.getNonce) ?_ ?_
      · show Numbered _ d.sent _
        rw [← hsent]
        exact hfirst
      · refine Eq.mp ?_ hrest
        congr 1
        refine List.flatMap_congr fun i _ => ?_
        rw [getBlock_congr hblocks, hshift]

/-! ## Accepted blocks -/

theorem nonce_rewardTables (miner : String) (t : Tables) : (c.rewardTables miner t).getNonce = t.getNonce := by
  funext a
  unfold rewardTables
  by_cases hpos : 0 < c.rewardFor t
  · rw [if_pos hpos, Tables.nonce_applyBalanceDelta]
  · rw [if_neg hpos]

theorem nonce_persisted (b : Block) (t : Tables) : (c.persisted now b t).getNonce = t.getNonce := by
  funext a
  have hacc := @accounts_persisted c now b t
  by_cases hburn : 0 < b.totalBurned ∧ c.config.burnAddress ≠ ""
  · rw [if_pos hburn] at hacc
    rw [nonce_congr hacc, Tables.nonce_applyBalanceDelta]
  · rw [if_neg hburn] at hacc
    exact nonce_congr hacc a

theorem accepted_counted (hl : Linked n.db.live) (hc : Counted n.db.live)
    (h : c.addBlock now b preserve n = (.ok b', n')) (hfresh : Fresh n b'.hash)
    (hnew : c.Along now b.height b.miner (c.CreatesNew now b.height) b.transactions n.db.opened) : Counted n'.db.live := by
  obtain ⟨r⟩ := addBlock_ok h
  obtain ⟨htip, htop⟩ := accepted_tip hl h hfresh
  have hkept := (accepted_linked hl h hfresh).2
  have hsame : ∀ k, k ≤ n.db.live.getChainTip → n'.db.live.getBlock k = n.db.live.getBlock k := by
    intro k hk
    by_cases hneg : 0 ≤ k
    · obtain ⟨d, hd⟩ := hl.exists_block hneg hk
      rw [hkept k d hd, hd]
    · rw [hl.none_below hneg, (accepted_linked hl h hfresh).1.none_below hneg]
  have hnonce : n'.db.live.getNonce = r.applied.live.getNonce := by
    rw [r.live_eq, nonce_persisted, ← r.rewarded_eq, nonce_rewardTables]
  have hsent : b'.toDict.sent = sentOf b.transactions := by
    show (b'.transactions.map Transaction.toDict).map _ = _
    rw [r.transactions_eq, List.map_map, ← r.steps.sent]
    rfl
  have hnumbered := numbered_applyTransactions r.ran (by rw [r.began]; exact hnew)
  rw [r.live_start, ← hsent, ← hnonce] at hnumbered
  have happend := sent_append hl.tip_nonneg htip hsame htop
  refine ⟨?_, ?_⟩
  · rw [happend]
    exact hc.numbered.append hnumbered
  · intro d hd
    rw [hsame 0 hl.tip_nonneg] at hd
    exact hc.genesis d hd

/-! ## Rejected blocks -/

/-- The transaction leaves no pending nonce durable: its sender is no locked pool, and it is a
transfer, or no nonce is pending yet and none is lost, or its contract commits nothing. -/
def Held (c : Blockchain) (now height : Int) (db : Db) (tx : Transaction) : Prop :=
  c.NoPool db.live tx ∧ (c.kindOf db.live tx = .transfer ∨
    ((∀ a, db.live.getNonce a = db.file.getNonce a) ∧ c.CreatesNew now height db tx) ∨
    (c.runContract now (c.kindOf db.live tx) tx height db).2.file = db.file)

/-- As long as the sender is no locked pool, nothing is made durable. -/
def ordinary (c : Blockchain) (tx : Transaction) : Frame Db where
  rel s t := c.NoPool s.live tx → c.NoPool t.live tx ∧ t.file = s.file
  refl _ h := ⟨h, rfl⟩
  trans h₁ h₂ h := ⟨(h₂ (h₁ h).1).1, (h₂ (h₁ h).1).2.trans (h₁ h).2⟩

theorem ordinary_statement {tx : Transaction} {f : Tables → Tables} (h : ∀ t, (f t).poolLocks = t.poolLocks) :
    Keeps (c.ordinary tx) (statement f) := keeps_write fun db hp => by
  refine ⟨fun hw => ?_, rfl⟩
  rw [Store.live_exec]
  unfold Tables.lockedPools
  rw [h]
  exact hp hw

theorem ordinary_recordPoolOutgoing (tx : Transaction) (amount : ℚ) :
    Keeps (c.ordinary tx) (c.recordPoolOutgoing tx.fromAddr amount) := by
  intro db hp
  rw [recordPoolOutgoing_run, recordPool_noPool hp]
  exact ⟨hp, rfl⟩

theorem applyContract_file {kind : Kind} {tx : Transaction} {proposer : String} {balance : ℚ} (hp : c.NoPool db.live tx) :
    (c.applyContract now kind tx height proposer balance db).2.file = (c.runContract now kind tx height db).2.file := by
  have hpool : (c.runContract now kind tx height db).2.live.poolLocks = db.live.poolLocks :=
    ((keeps_runContract (fun _ => keeps_callContract (accountFree_poolLocks.evmFrame _) _ _ _ _ _)
      (fun _ _ => keeps_deployContract (accountFree_poolLocks.evmFrame _) _ _ _ _ _) kind height) db).1
  unfold applyContract
  refine (rel_tail (F := c.ordinary tx) (fun res => ?_) db fun hw => ?_).2
  · refine keeps_ite (fun _ => keeps_raise _) fun _ => keeps_ite (fun _ => keeps_raise _) fun _ => ?_
    refine keeps_bind (ordinary_statement fun _ => rfl) fun _ => ?_
    refine keeps_bind ?_ fun _ => keeps_bind (ordinary_recordPoolOutgoing tx _) fun _ => keeps_pure _
    unfold settle
    refine keeps_bind (ordinary_statement fun _ => rfl) fun _ => ?_
    exact keeps_bind (keeps_when fun _ => ordinary_statement fun _ => rfl) fun _ => ordinary_statement fun _ => rfl
  · unfold Tables.lockedPools
    rw [hpool]
    exact hp hw

theorem held_applyTransaction {tx : Transaction} {proposer : String} (h : c.Held now height db tx) (a : String) :
    (c.applyTransaction now tx height proposer db).2.file.getNonce a = db.file.getNonce a := by
  obtain ⟨hp, hkind⟩ := h
  by_cases htransfer : c.kindOf db.live tx = .transfer
  · rcases @applyTransaction_uncommitted c now tx height proposer db htransfer hp with hr | hr
    · rw [hr]
    · rw [hr]
      rfl
  · unfold applyTransaction
    simp only [bind_run, query_run, id]
    cases hcheck : c.precheck db.live tx with
    | error e => rfl
    | ok u =>
      simp only [liftExcept]
      have hrun : (c.runContract now (c.kindOf db.live tx) tx height db).2.file.getNonce a = db.file.getNonce a := by
        rcases hkind with hk | ⟨hk, hnew⟩ | hk
        · exact absurd hk htransfer
        · rcases (fixed_runContract hcheck htransfer hnew a rfl).2 with hsame | hcommitted
          · exact hsame
          · exact hcommitted.trans (hk a)
        · rw [hk]
      rw [← hrun, ← applyContract_file hp]

/-- The run lemma: of a block whose transactions are all held nothing pending is made durable. -/
theorem held_applyTransactions {proposer : String} {txs : List Transaction}
    (h : c.Along now height proposer (c.Held now height) txs db) (a : String) :
    (c.applyTransactions now height proposer txs db).2.file.getNonce a = db.file.getNonce a := by
  induction txs generalizing db with
  | nil => rfl
  | cons tx rest ih =>
    obtain ⟨hhead, hrest⟩ := h
    have hstep := @held_applyTransaction c now height db tx proposer hhead a
    unfold applyTransactions
    refine rel_bind (F := Frame.fixed fun db : Db => db.file.getNonce a) hstep fun tx' db₁ h₁ => ?_
    rw [h₁] at hrest
    exact rel_bind (ih hrest) fun _ _ _ => (Frame.fixed _).refl _

theorem fixed_checkProposal {a : String} {k : ℕ} (b : Block) :
    Keeps ((nonceFixed a k).pull Node.dbPart) (checkProposal now b) :=
  keeps_checkProposal (fun _ => fixed_committed fun _ h => h) b

/-- What keeps a rejected block from leaving a nonce behind: its transactions are held, and the second
proposal of a miner, which is committed, is a block without transactions. -/
structure RejectHeld (c : Blockchain) (now : Int) (b : Block) (n : Node) : Prop where
  held : c.Along now b.height b.miner (c.Held now b.height) b.transactions n.db.opened
  proposal : (∀ engine, n.slashing = some engine → engine.persists = true → (b.height, b.miner) ∉ engine.proposals) ∨
    b.transactions = []

theorem blockBody_held (hclosed : n.db.pending = none) (h : c.RejectHeld now b n) (a : String) :
    (c.blockBody now b preserve n).2.db.file.getNonce a = n.db.live.getNonce a := by
  have hlive : n.db.live = n.db.file := Store.live_closed hclosed
  have hopened : n.db.opened.live = n.db.file := rfl
  have htxs : (c.applyTransactions now b.height b.miner b.transactions n.db.opened).2.file.getNonce a =
      n.db.file.getNonce a := held_applyTransactions h.held a
  rw [hlive]
  unfold blockBody executeBlock
  let F : Frame Node := Frame.fixed fun n => n.db.file.getNonce a
  refine rel_bind (F := F) (s := { n with db := n.db.opened }) htxs fun txs n₁ h₁ => ?_
  obtain ⟨db₁, ha, e₁⟩ := onDb_ok.mp h₁
  refine rel_bind (F := F) (congrArg (fun t : Tables => t.getNonce a) (applyBlockReward_plain b.miner n₁.db).1)
    fun reward n₂ h₂ => ?_
  refine rel_bind (F := F) rfl fun root n₃ h₃ => ?_
  have hroot : (c.checkPeerRoot b preserve root n₃).2 = n₃ := checkPeerRoot_node b preserve root n₃
  refine rel_bind (F := F) (by rw [hroot]; exact F.refl _) fun _ n₄ h₄ => ?_
  rw [h₄] at hroot
  simp only at hroot
  subst hroot
  obtain ⟨db₂, hr, e₂⟩ := onDb_ok.mp h₂
  obtain ⟨db₃, hq, e₃⟩ := onDb_ok.mp h₃
  -- the proposal is the only write that may be committed on its own
  have hproposal : (checkProposal now (sealBlock b txs root preserve) n₄).2.db.file.getNonce a = n₄.db.file.getNonce a := by
    rcases h.proposal with hnew | hempty
    · have hs : n₄.slashing = n.slashing := by rw [e₃, e₂, e₁]
      have hsame : (checkProposal now (sealBlock b txs root preserve) n₄).2.db = n₄.db :=
        checkProposal_uncommitted fun engine he hpers => hnew engine (hs ▸ he) hpers
      exact congrArg (fun db : Db => db.file.getNonce a) hsame
    · -- nothing is pending but the reward
      have hdb₁ : db₁ = n.db.opened := by
        rw [hempty] at ha
        exact (congrArg Prod.snd ha).symm
      have hdb₃ : n₄.db = db₂ := by
        obtain ⟨-, hq₂⟩ := Prod.mk.inj hq
        rw [e₃]
        show db₃ = db₂
        rw [← hq₂, e₂]
      have hreward := (applyBlockReward_ok hr).2
      have hfile : db₂.file = n.db.file := by
        have hplain := (applyBlockReward_plain (c := c) b.miner n₁.db).1
        rw [hr] at hplain
        rw [hplain, e₁, hdb₁]
        rfl
      have hk : n₄.db.live.getNonce a = n.db.file.getNonce a := by
        rw [hdb₃, hreward, nonce_rewardTables, e₁, hdb₁, hopened]
      have hfixed := (@fixed_checkProposal now a (n.db.file.getNonce a) (sealBlock b txs root preserve) n₄ hk).2
      rcases hfixed with hsame | hcommitted
      · exact hsame
      · rw [hdb₃, hfile]
        exact hcommitted
  refine rel_bind (F := F) hproposal fun _ n₅ h₅ => ?_
  exact rel_bind (F := F) (congrArg (fun t : Tables => t.getNonce a) (uncommitted_persist _ _ _ _ _ _ n₅.db))
    fun _ _ _ => rfl

theorem rejected_counted {f : Fault} (hclosed : n.db.pending = none) (hc : Counted n.db.live)
    (h : c.addBlock now b preserve n = (.error f, n')) (hheld : c.admitBlock n b = .ok () → c.RejectHeld now b n) :
    Counted n'.db.live := by
  refine hc.congr (addBlock_rejected_blocks h) ?_
  funext a
  rcases addBlock_rejected h with ⟨-, hsame⟩ | ⟨⟨hadmitted, -⟩, hbody⟩
  · exact nonce_congr (congrArg Guarded.accounts hsame) a
  · rw [nonce_congr (congrArg Guarded.accounts hbody) a]
    exact blockBody_held hclosed (hheld hadmitted) a

/-! ## Reorganisations -/

/-- A reorganisation that returns `True` has nothing to do or has replayed every block it keeps. -/
theorem reorg_replayed {floor cut : Int} (hclosed : db.pending = none)
    (h : c.reorgToAncestor now floor cut db = (.ok (), db')) :
    (db.live.getChainTip < cut ∧ db' = db) ∨
    (cut ≤ db.live.getChainTip ∧ ∃ db₁, c.replayBlocks now cut.toNat 1 (c.replayDb cut db) = (.ok (), db₁) ∧
      db'.live = db₁.live) := by
  unfold reorgToAncestor at h
  by_cases hfloor : 0 < floor ∧ cut < floor
  · rw [if_pos hfloor] at h
    cases h
  · rw [if_neg hfloor] at h
    simp only [bind_run, query_run] at h
    by_cases htip : db.live.getChainTip < cut
    · rw [if_pos htip] at h
      cases h
      exact .inl ⟨htip, rfl⟩
    · rw [if_neg htip] at h
      have hbegin : db.begin? = some db.opened := Store.begin_closed hclosed
      refine .inr ⟨not_lt.mp htip, ?_⟩
      rcases hbody : c.replayFromGenesis now cut db.live.getChainTip db.opened with ⟨e | u, db₂⟩
      · rw [atomically_raised (P := Part.whole) nestedTransaction hbegin hbody] at h
        cases h
      · rw [atomically_returned (P := Part.whole) nestedTransaction hbegin hbody] at h
        cases h
        unfold replayFromGenesis at hbody
        obtain ⟨_, db₃, hbind, hbody⟩ := bind_ok.mp hbody
        obtain ⟨-, rfl⟩ := bindInts_ok.mp hbind
        rw [bind_run, when_statement] at hbody
        simp only [bind_run, statement_run] at hbody
        obtain ⟨_, db₄, hreplay, hcheck⟩ := bind_ok.mp hbody
        have hend := congrArg Prod.snd hcheck
        rw [checkReplayRoot_db] at hend
        obtain rfl : db₄ = db₂ := hend
        rw [replayDb_opened cut hclosed] at hreplay
        exact ⟨db₄, hreplay, rfl⟩

theorem reorg_returned {floor cut : Int} (hclosed : db.pending = none)
    (h : c.reorgToAncestor now floor cut db = (.ok (), db')) :
    (db.live.getChainTip < cut ∧ db' = db) ∨
    (cut ≤ db.live.getChainTip ∧ ∃ db₀ db₁, db₀.live = c.replayStart cut db.live ∧
      c.replayBlocks now cut.toNat 1 db₀ = (.ok (), db₁) ∧ db'.live = db₁.live) :=
  (reorg_replayed hclosed h).imp_right fun hrun => hrun.imp_right fun hreplay =>
    hreplay.elim fun db₁ hdb₁ => ⟨c.replayDb cut db, db₁, rfl, hdb₁⟩

theorem getBlock_replayStart {t : Tables} {cut : Int} (hl : Linked t) (k : Int) :
    (c.replayStart cut t).getBlock k = if k ≤ cut then t.getBlock k else none := by
  unfold replayStart
  by_cases hlt : cut < t.getChainTip
  · rw [if_pos hlt]
    exact getBlock_deleteAbove _ _ _
  · rw [if_neg hlt]
    by_cases hk : k ≤ cut
    · rw [if_pos hk]
      rfl
    · rw [if_neg hk]
      exact hl.none_above (by omega)

theorem reorg_counted {floor cut : Int} (hclosed : db.pending = none) (hl : Linked db.live) (hc : Counted db.live)
    (hcut : 0 ≤ cut) (hnew : cut ≤ db.live.getChainTip → c.NewReplay now cut.toNat 1 (c.replayDb cut db))
    (h : c.reorgToAncestor now floor cut db = (.ok (), db')) : Counted db'.live := by
  rcases reorg_replayed hclosed h with ⟨-, rfl⟩ | ⟨hle, db₁, hreplay, hend⟩
  · exact hc
  · have hnumbered := replayBlocks_numbered hreplay (hnew hle)
    have hstart : (c.replayDb cut db).live = c.replayStart cut db.live := rfl
    generalize c.replayDb cut db = db₀ at hreplay hnumbered hstart
    have hget : ∀ k, db₀.live.getBlock k = if k ≤ cut then db.live.getBlock k else none := fun k => by
      rw [hstart, getBlock_replayStart hl]
    have hzero : ∀ a, db₀.live.getNonce a = 0 := fun a => by
      rw [hstart]
      exact nonce_resetAccounts _ _ _
    have hblocks : db₁.live.blocks = db₀.live.blocks := (keeps_apply (keeps_replayBlocks executionFree_blocks _ _) hreplay).1
    have hheights := hl.heights_of_cut hle fun k => (getBlock_congr hblocks k).trans (hget k)
    have htip : db₁.live.getChainTip = (cut.toNat : ℤ) := (Linked.tip_of_heights hcut hheights).1.trans (by omega)
    have hgen : ∀ d, db₁.live.getBlock 0 = some d → d.transactions = [] := fun d hd => by
      rw [getBlock_congr hblocks, hget, if_pos hcut] at hd
      exact hc.genesis d hd
    have hsent := sent_above htip hgen
    have hlist : db₁.live.sent = (List.range cut.toNat).flatMap
        fun i : ℕ => ((db₀.live.getBlock (1 + (i : ℤ))).map BlockDict.sent).getD [] := by
      rw [hsent]
      refine List.flatMap_congr fun i _ => ?_
      rw [getBlock_congr hblocks]
    rw [← hlist, show db₀.live.getNonce = fun _ => 0 from funext hzero] at hnumbered
    rw [hend]
    exact ⟨hnumbered, hgen⟩

/-! ## Runs -/

/-- What a call must meet. An accepted block is stored under a new hash, and what it creates is new; a block that is
rejected while it is executed leaves no nonce behind; a peer's genesis block does not replace the stored one; a
reorganisation goes not below genesis, creates new accounts only when it succeeds, and has otherwise replayed
transfers of ordinary senders only, or nothing. -/
def Call.Counts (c : Blockchain) : Call → Node → Prop
  | .addBlock now b preserve, n =>
    (∀ b' n', c.addBlock now b preserve n = (.ok b', n') →
      Fresh n b'.hash ∧ c.Along now b.height b.miner (c.CreatesNew now b.height) b.transactions n.db.opened) ∧
    (∀ f n', c.addBlock now b preserve n = (.error f, n') → c.admitBlock n b = .ok () → c.RejectHeld now b n)
  | .importBlock now d, n =>
    ¬ Truncates d n ∧
    (∀ b' n', c.importBlock now d n = (.ok b', n') →
      let b := Block.fromDict c.host now (normalizeBlockDict d)
      Fresh n b'.hash ∧ c.Along now b.height b.miner (c.CreatesNew now b.height) b.transactions n.db.opened) ∧
    (∀ f n', c.importBlock now d n = (.error f, n') →
      c.admitBlock n (Block.fromDict c.host now (normalizeBlockDict d)) = .ok () →
      c.RejectHeld now (Block.fromDict c.host now (normalizeBlockDict d)) n)
  | .reorgToAncestor now floor height, n =>
    0 ≤ height ∧
    (∀ db', c.reorgToAncestor now floor height n.db = (.ok (), db') → height ≤ n.db.live.getChainTip →
      c.NewReplay now height.toNat 1 (c.replayDb height n.db)) ∧
    ∀ f db', c.reorgToAncestor now floor height n.db = (.error f, db') →
      ReorgRefused floor height n.db ∨ c.QuietReplay now height n.db

def AllCount (c : Blockchain) : List Call → Node → Prop
  | [], _ => True
  | call :: rest, n => call.Counts c n ∧ AllCount c rest (call.run c n)

/-- The step lemma. -/
theorem call_counted {call : Call} (hclosed : n.db.pending = none) (hl : Linked n.db.live) (hc : Counted n.db.live)
    (hs : call.Counts c n) : Linked (call.run c n).db.live ∧ Counted (call.run c n).db.live := by
  have hsound : call.Sound c n := by
    cases call with
    | addBlock now b preserve => exact fun b' n' h => (hs.1 b' n' h).1
    | importBlock now d => exact ⟨hs.1, fun b' n' h => (hs.2.1 b' n' h).1⟩
    | reorgToAncestor now floor height => exact hs.1
  refine ⟨(call_linked hclosed hl hsound).1, ?_⟩
  cases call with
  | addBlock now b preserve =>
    rcases hrun : c.addBlock now b preserve n with ⟨f | b', n'⟩
    · simp only [Call.run, hrun]
      exact rejected_counted hclosed hc hrun (hs.2 f n' hrun)
    · simp only [Call.run, hrun]
      obtain ⟨hfresh, hnew⟩ := hs.1 b' n' hrun
      exact accepted_counted hl hc hrun hfresh hnew
  | importBlock now d =>
    rcases hrun : c.importBlock now d n with ⟨f | b', n'⟩
    · simp only [Call.run, hrun]
      rcases importBlock_rejected hs.1 hrun with rfl | hadd
      · exact hc
      · exact rejected_counted hclosed hc hadd (hs.2.2 f n' hrun)
    · simp only [Call.run, hrun]
      obtain ⟨hfresh, hnew⟩ := hs.2.1 b' n' hrun
      obtain ⟨n₀, h₀, -, hadd⟩ := importBlock_ok hrun
      rcases h₀ with rfl | ⟨-, e, he, hne, hz⟩
      · exact accepted_counted hl hc hadd hfresh hnew
      · exact absurd ⟨hz, e, he, hne⟩ hs.1
  | reorgToAncestor now floor height =>
    show Counted (c.reorgToAncestor now floor height n.db).2.live
    rcases hrun : c.reorgToAncestor now floor height n.db with ⟨f | u, db'⟩
    · have hguarded : db'.live.guarded = n.db.live.guarded := by
        rcases hs.2.2 f db' hrun with hrefused | hquiet
        · rcases reorg_failed hrun with ⟨-, rfl⟩ | ⟨hn, -⟩
          · rfl
          · exact absurd hrefused hn
        · exact reorg_guarded hrun hquiet
      exact hc.congr (congrArg Guarded.blocks hguarded) (funext (nonce_congr (congrArg Guarded.accounts hguarded)))
    · exact reorg_counted hclosed hl hc hs.1 (hs.2.1 db' hrun) hrun

theorem calls_counted {calls : List Call} (hclosed : n.db.pending = none) (hl : Linked n.db.live)
    (hc : Counted n.db.live) (hs : AllCount c calls n) : Counted (runCalls c calls n).db.live := by
  induction calls generalizing n with
  | nil => exact hc
  | cons call rest ih =>
    obtain ⟨hlinked, hcounted⟩ := call_counted hclosed hl hc hs.1
    exact ih (idle_call call hclosed) hlinked hcounted hs.2

/-- A node before its first block. -/
structure AtGenesis (t : Tables) : Prop where
  row : ∃ d, t.blocks = Table.empty.put 0 d ∧ d.height = 0 ∧ d.transactions = []
  nonces : ∀ a, t.getNonce a = 0

theorem AtGenesis.counted {t : Tables} (h : AtGenesis t) : Linked t ∧ Counted t := by
  obtain ⟨d, hrow, hheight, hempty⟩ := h.row
  have hgen : ∀ e, t.getBlock 0 = some e → e.transactions = [] := fun e he => by
    unfold Tables.getBlock at he
    rw [hrow, Table.get_put_same] at he
    cases he
    exact hempty
  have htip : t.getChainTip = (0 : ℕ) := by
    unfold Tables.getChainTip
    rw [hrow]
    rfl
  have hsent : t.sent = [] := sent_above htip hgen
  have hzero : t.getNonce = fun _ => 0 := funext h.nonces
  refine ⟨.single hrow hheight, ?_, hgen⟩
  rw [hsent, hzero]
  exact .nil _

theorem atGenesis_ensured {engine : Bool} {start : ℤ} (hstart : fitsInt64 start = true) {fresh db : Db}
    (hclosed : fresh.pending = none) (hblocks : fresh.file.blocks = .empty) (haccounts : fresh.file.accounts = .empty)
    (hgen : c.ensureGenesis start engine fresh = (.ok (), db)) : AtGenesis db.live ∧ db.pending = none := by
  obtain ⟨db₀, hrun, hpending, hgenesis, hacc, -⟩ := ensureGenesis_run (c := c) engine hclosed hblocks haccounts hstart
  obtain rfl : db₀ = db := congrArg Prod.snd (hrun.symm.trans hgen)
  have hlive : db₀.live = db₀.file := Store.live_closed hpending
  refine ⟨⟨⟨_, by rw [hlive]; exact hgenesis, rfl, rfl⟩, fun a => ?_⟩, hpending⟩
  rw [hlive, nonce_congr hacc]
  exact nonce_resetAccounts _ _ _

/-- Along the stored chain the nonces of a sender are `0, 1, ..` up to its nonce, after every run of
calls that meet the condition, and so no sender has two stored transactions with one nonce. -/
theorem nonces_sequential {calls : List Call} (hclosed : n.db.pending = none) (hgen : AtGenesis n.db.live)
    (hs : AllCount c calls n) :
    (∀ a, (runCalls c calls n).db.live.noncesOf a =
      (List.range ((runCalls c calls n).db.live.getNonce a)).map Int.ofNat) ∧
    (runCalls c calls n).db.live.sent.Nodup := by
  obtain ⟨hlinked, hcounted⟩ := hgen.counted
  have hend := calls_counted hclosed hlinked hcounted hs
  exact ⟨fun a => hend.numbered.all_numbers a, hend.numbered.nodup⟩

/-! ### A second proposal -/

theorem checkProposal_second {engine : SlashingEngine} (hminer : ¬ (b.miner = "" ∨ b.miner = "genesis"))
    (hengine : n.slashing = some engine) (hpersists : engine.persists = true) (hinnocent : b.miner ∉ engine.slashed)
    (hproposed : (b.height, b.miner) ∈ engine.proposals) :
    ∃ slashing, checkProposal now b n =
      (.error "double_proposal", { db := n.db.write (Tables.slashValidator b.miner), slashing := slashing }) := by
  unfold checkProposal
  simp only [bind_run, read_run, hengine, if_neg hminer, recordProposal, slash, if_neg hinnocent, if_pos hproposed,
    if_pos hpersists]
  exact ⟨_, rfl⟩

theorem second_proposal_commits {engine : SlashingEngine} {txs : List Transaction} {db₁ : Db}
    (hadm : c.admitBlock n b = .ok ()) (hclosed : n.db.pending = none)
    (happly : c.applyTransactions now b.height b.miner b.transactions n.db.opened = (.ok txs, db₁))
    (hroot : b.stateRoot = "") (hminer : ¬ (b.miner = "" ∨ b.miner = "genesis")) (hengine : n.slashing = some engine)
    (hpersists : engine.persists = true) (hinnocent : b.miner ∉ engine.slashed)
    (hproposed : (b.height, b.miner) ∈ engine.proposals) :
    (c.addBlock now b preserve n).1 = .error "double_proposal" ∧
      (c.addBlock now b preserve n).2.db.live.accounts = (c.rewardTables b.miner db₁.live).accounts := by
  obtain ⟨db₂, hreward, hlive⟩ : ∃ db₂, c.applyBlockReward b.miner db₁ = (.ok (c.rewardFor db₁.live), db₂) ∧
      db₂.live = c.rewardTables b.miner db₁.live := by
    have hrun := applyBlockReward_run (c := c) b.miner db₁
    exact ⟨_, hrun, (applyBlockReward_ok hrun).2⟩
  have hpeer : ∀ root, c.checkPeerRoot b preserve root = pure () := fun root => if_neg fun h => h.2 hroot
  let root := c.computeStateRoot db₂.live
  obtain ⟨slashing, hproposal⟩ := @checkProposal_second now (sealBlock b txs root preserve) { db := db₂, slashing := n.slashing }
    engine hminer hengine hpersists hinnocent hproposed
  have hbody : c.blockBody now b preserve n = (.error "double_proposal",
      { db := db₂.write (Tables.slashValidator b.miner), slashing := slashing }) := by
    unfold blockBody executeBlock
    refine (bind_of_ok (onDb_ok.mpr ⟨db₁, happly, rfl⟩)).trans ?_
    refine (bind_of_ok (onDb_ok.mpr ⟨db₂, hreward, rfl⟩)).trans ?_
    refine (bind_of_ok (onDb_ok.mpr ⟨db₂, query_run _ _, rfl⟩)).trans ?_
    rw [hpeer]
    refine (bind_of_ok (pure_run () _)).trans ?_
    rw [bind_run, hproposal]
    rfl
  rw [addBlock_raised hadm hclosed hbody rfl]
  refine ⟨rfl, ?_⟩
  rw [← hlive]
  rfl

theorem applyTransactions_transfer {tx : Transaction} {height : Int} {proposer : String} {db : Db}
    (hcheck : c.precheck db.live tx = .ok ()) (hkind : c.kindOf db.live tx = .transfer) (hpool : c.poolLocks ≠ true) :
    c.applyTransactions now height proposer [tx] db =
      (.ok [markApplied tx height (c.charge (c.gasFee tx.gas)) tx.gas],
        db.exec (c.transferTables tx (c.feeRecipient proposer))) := by
  have hstep : c.applyTransaction now tx height proposer db =
      (.ok (markApplied tx height (c.charge (c.gasFee tx.gas)) tx.gas),
        db.exec (c.transferTables tx (c.feeRecipient proposer))) := by
    unfold applyTransaction
    simp only [bind_run, query_run, id, hcheck, liftExcept, hkind, applyTransfer_run]
    rw [recordPool_noPool fun hp => absurd hp hpool]
  unfold applyTransactions
  rw [bind_run, hstep]
  rfl

/-! ### A transfer that counts and one that does not -/

theorem fundedNode_atGenesis : AtGenesis fundedNode.db.live := by
  refine ⟨⟨genesisRow, rfl, rfl, rfl⟩, fun a => ?_⟩
  have hgenesis : fundedNode.db.live.getNonce a = (genesisNode none).db.live.getNonce a := Tables.nonce_applyBalanceDelta _ _ _ _
  rw [hgenesis]
  rfl

theorem nonces_sequential_first :
    (runCalls plain [.addBlock 2 (firstBlock [transferOf (.int 5)]) true] fundedNode).db.live.noncesOf "a" = [0] := by
  have heval : (plain.addBlock 2 (firstBlock [transferOf (.int 5)]) true fundedNode).1.toOption.isSome = true ∧
      (plain.addBlock 2 (firstBlock [transferOf (.int 5)]) true fundedNode).2.db.live.getNonce "a" = 1 := by decide +kernel
  rcases hrun : plain.addBlock 2 (firstBlock [transferOf (.int 5)]) true fundedNode with ⟨f | b', n'⟩
  · rw [hrun] at heval
    cases heval.1
  · obtain ⟨r⟩ := addBlock_ok hrun
    have hhash : b'.hash = "b" := by
      rw [r.hash_eq]
      exact if_pos ⟨rfl, by decide⟩
    have hfresh : Fresh fundedNode b'.hash := by
      intro h d hd
      have hd' : (Table.empty.put (0 : ℤ) genesisRow).get? h = some d := hd
      rw [Table.get_put] at hd'
      by_cases hh : h = 0
      · rw [if_pos hh] at hd'
        cases hd'
        rw [hhash]
        decide
      · rw [if_neg hh] at hd'
        cases hd'
    have hcounts : AllCount plain [.addBlock 2 (firstBlock [transferOf (.int 5)]) true] fundedNode := by
      refine ⟨⟨fun b₂ n₂ h₂ => ?_, fun f n₂ h₂ => ?_⟩, trivial⟩
      · have hsame := hrun.symm.trans h₂
        cases hsame
        exact ⟨hfresh, createsNew_transfer (if_neg fun h => h.1 rfl), trivial⟩
      · cases hrun.symm.trans h₂
    have hall := (nonces_sequential rfl fundedNode_atGenesis hcounts).1 "a"
    have hcall : runCalls plain [.addBlock 2 (firstBlock [transferOf (.int 5)]) true] fundedNode =
        (plain.addBlock 2 (firstBlock [transferOf (.int 5)]) true fundedNode).2 := rfl
    rw [hcall] at hall ⊢
    exact hall.trans (by rw [heval.2]; rfl)

def signedChain : Blockchain := { signing with config := { signing.config with founderAddress := sampleAddress } }

def founderNode : Node :=
  signedChain.startNode (some { proposals := [], slashed := [], events := [], persists := true })

def overlongBlock : Block :=
  { firstBlock [] with parentHash := (signedChain.genesisBlock 1 true).hash, timestamp := 9223372036854775808 }

def transferBlock : Block := { firstBlock [boundTransfer] with parentHash := (signedChain.genesisBlock 1 true).hash }

def proposedNode : Node :=
  let raised := (signedChain.blockBody 2 overlongBlock true founderNode).2
  { raised with db := raised.db.rollback }

/-- The body of `add_block` raised, and not about a state root. -/
def raisesPlainly : Except Fault Block → Bool
  | .error f => f.roots.isNone
  | .ok _ => false

theorem overlongBlock_raises : ∃ f, signedChain.addBlock 2 overlongBlock true founderNode = (.error f, proposedNode) := by
  obtain ⟨-, hpending, hblocks, -⟩ := startNode_rows signedChain founderNode.slashing
  have hadm : signedChain.admitBlock founderNode overlongBlock = .ok () :=
    admitBlock_genesis hblocks rfl rfl rfl (by decide) (by decide)
  have hraised : raisesPlainly (signedChain.blockBody 2 overlongBlock true founderNode).1 = true := by decide +kernel
  rcases hbody : signedChain.blockBody 2 overlongBlock true founderNode with ⟨f | b', n⟩
  · rw [hbody] at hraised
    refine ⟨f, (addBlock_raised hadm hpending hbody (Option.isNone_iff_eq_none.mp hraised)).trans ?_⟩
    unfold proposedNode
    rw [hbody]
  · rw [hbody] at hraised
    cases hraised

/-! The signature check on the characters of its texts: a `decide` on the whole of it would decode them first. -/

theorem boundTexts_bytes :
    (bytesFromHex sampleKey).map natOfBytes =
      some 0x79be667ef9dcbbac55a06295ce870b07029bfcdb2dce28d959f2815b16f81798483ada7726a3c4655da4fbfc0e1108a8fd17b448a68554199c47d08ffb10d4b8 ∧
    (bytesFromHex boundSignature).map natOfBytes =
      some 0x3045022100c6047f9441ed7d6d3045406e95c07cd85c778e4b8cef3ca7abac09b95c709ee50220041be76dca87fcd3beb67b217c83080816560d69d0802b7dfaca84b3dd312bbf ∧
    natOfBytes (encode (sha256Hex (encode (signedChain.host.compactJson
      (canonicalTxForHash (boundTransfer.payload signedChain.config.chainId)))))) =
      0x35303333656431323334626231396664646235383364303835336162373739336561373437643965373433376364313630643365393434393234343436633262 ∧
    boundTransfer.signature ≠ "" ∧ boundTransfer.publicKey ≠ "" := by
  unfold bytesFromHex sampleKey boundSignature Host.compactJson JsonText.dumps sha256Hex Digest.sha256Hex
  rw [String.toList_ofList, String.toList_ofList, encode_ofList, encode_ofList]
  decide +kernel

theorem signedChain_verifies {message signature publicKey : Bytes}
    (hk : natOfBytes publicKey =
      0x79be667ef9dcbbac55a06295ce870b07029bfcdb2dce28d959f2815b16f81798483ada7726a3c4655da4fbfc0e1108a8fd17b448a68554199c47d08ffb10d4b8)
    (hs : natOfBytes signature =
      0x3045022100c6047f9441ed7d6d3045406e95c07cd85c778e4b8cef3ca7abac09b95c709ee50220041be76dca87fcd3beb67b217c83080816560d69d0802b7dfaca84b3dd312bbf)
    (hm : natOfBytes message =
      0x35303333656431323334626231396664646235383364303835336162373739336561373437643965373433376364313630643365393434393234343436633262) :
    signedChain.host.verify message signature publicKey = true := decide_eq_true ⟨hk, .inr ⟨hs, hm⟩⟩

theorem boundTransfer_verified : verifyTxSignature signedChain.host signedChain.config boundTransfer = .ok () := by
  obtain ⟨hkeyBytes, hsignatureBytes, hmessage, hsigned, hkeyed⟩ := boundTexts_bytes
  obtain ⟨publicKey, hkey, hk⟩ := Option.map_eq_some_iff.mp hkeyBytes
  obtain ⟨signature, hsignature, hs⟩ := Option.map_eq_some_iff.mp hsignatureBytes
  refine verifyTxSignature_of hsigned hkeyed ?_
  exact verifies_of_bytes hsignature hkey (signedChain_verifies hk hs hmessage)

theorem proposedNode_admits :
    signedChain.verifyBlockProposer proposedNode.db.live proposedNode.slashing transferBlock = .ok () ∧
    proposedNode.db.live.getNonce sampleAddress = 0 ∧
    boundTransfer.value.toRat + signedChain.gasFee boundTransfer.gas ≤ proposedNode.db.live.getBalance sampleAddress ∧
    proposedNode.slashing.map SlashingEngine.proposals = some [(1, "v")] ∧
    proposedNode.slashing.map SlashingEngine.slashed = some [] ∧
    proposedNode.slashing.map SlashingEngine.persists = some true := by
  decide +kernel

theorem proposedNode_closed : proposedNode.db.pending = none := rfl

theorem proposedNode_blocks :
    proposedNode.db.live.blocks = Table.empty.put 0 (signedChain.genesisBlock 1 true).toDict := by
  obtain ⟨f, hrun⟩ := overlongBlock_raises
  exact (addBlock_rejected_blocks hrun).trans (startNode_rows signedChain founderNode.slashing).2.2.1

theorem boundTransfer_sender : boundTransfer.fromAddr = sampleAddress := rfl

theorem boundTransfer_plain : signedChain.kindOf proposedNode.db.opened.live boundTransfer = .transfer :=
  if_neg fun h => h.1 rfl

theorem boundTransfer_admitted : signedChain.precheck proposedNode.db.opened.live boundTransfer = .ok () := by
  obtain ⟨-, hnonce, hfunds, -⟩ := proposedNode_admits
  have hopened : proposedNode.db.opened.live = proposedNode.db.live := Store.live_opened proposedNode_closed
  have hzero : boundTransfer.nonce = ((0 : ℕ) : ℤ) := rfl
  rw [hopened]
  refine precheck_ok.mpr ⟨?_, ?_, if_neg (by decide), boundTransfer_verified⟩
  · rw [hzero, boundTransfer_sender, hnonce]
  · rw [boundTransfer_sender]
    exact hfunds

theorem transferBlock_admitted : signedChain.admitBlock proposedNode transferBlock = .ok () :=
  admitBlock_genesis proposedNode_blocks rfl rfl rfl proposedNode_admits.1 (verifyBlockTxSignatures_ok.mpr fun tx htx => by
    rw [List.mem_singleton.mp htx]
    exact boundTransfer_verified)

/-- Two blocks of `v`: the first cannot be stored, the second is rejected as a double proposal, and the nonce of its
sender stays without a transaction. -/
theorem nonce_without_transaction :
    let calls : List Call := [.addBlock 2 overlongBlock true, .addBlock 2 transferBlock true]
    signedChain.config.requireSignatures = true ∧ AtGenesis founderNode.db.live ∧
      (runCalls signedChain calls founderNode).db.live.noncesOf sampleAddress = [] ∧
      (runCalls signedChain calls founderNode).db.live.getNonce sampleAddress = 1 := by
  obtain ⟨-, hnonce, -, hproposals, hslashed, hpersists⟩ := proposedNode_admits
  obtain ⟨hgen, -, -, -⟩ := startNode_rows signedChain founderNode.slashing
  have hgenesis : AtGenesis founderNode.db.live := (atGenesis_ensured (by decide) rfl rfl rfl hgen).1
  obtain ⟨f, hfirst⟩ := overlongBlock_raises
  obtain ⟨engine, hengine⟩ : ∃ engine, proposedNode.slashing = some engine := by
    cases h : proposedNode.slashing with
    | none =>
      rw [h] at hproposals
      cases hproposals
    | some engine => exact ⟨engine, rfl⟩
  rw [hengine] at hproposals hslashed hpersists
  have happlied := @applyTransactions_transfer signedChain 2 boundTransfer 1 "v" proposedNode.db.opened
    boundTransfer_admitted boundTransfer_plain (by decide)
  obtain ⟨hrejected, hacc⟩ := @second_proposal_commits signedChain 2 transferBlock true proposedNode engine
    _ _ transferBlock_admitted proposedNode_closed happlied rfl (by decide) hengine (Option.some.inj hpersists)
    (by rw [Option.some.inj hslashed]; exact List.not_mem_nil)
    (by rw [Option.some.inj hproposals]; exact List.mem_singleton.mpr rfl)
  have hcalls : ∀ (c : Blockchain) (a b : Block) (n : Node),
      runCalls c [.addBlock 2 a true, .addBlock 2 b true] n = (c.addBlock 2 b true (c.addBlock 2 a true n).2).2 :=
    fun _ _ _ _ => rfl
  dsimp only
  rw [hcalls, hfirst]
  refine ⟨rfl, hgenesis, ?_, ?_⟩
  · have htip : proposedNode.db.live.getChainTip = (0 : ℕ) := by
      unfold Tables.getChainTip
      rw [proposedNode_blocks]
      rfl
    have hsent : proposedNode.db.live.sent = [] := sent_above htip fun e he => by
      unfold Tables.getBlock at he
      rw [proposedNode_blocks, Table.get_put_same] at he
      obtain rfl := Option.some.inj he
      rfl
    rcases hrun : signedChain.addBlock 2 transferBlock true proposedNode with ⟨f | b', n'⟩
    · unfold Tables.noncesOf
      rw [sent_congr (addBlock_rejected_blocks hrun), hsent]
      rfl
    · rw [hrun] at hrejected
      cases hrejected
  · have hopened : proposedNode.db.opened.live = proposedNode.db.live := Store.live_opened proposedNode_closed
    rw [nonce_congr hacc, nonce_rewardTables, Store.live_exec, transferTables, nonce_settleTables,
      Tables.nonce_applyBalanceDelta, Tables.nonce_applyBalanceDelta, hopened, boundTransfer_sender, hnonce, if_pos rfl]

end Blockchain

end AbsoluteChain
