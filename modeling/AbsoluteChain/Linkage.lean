import AbsoluteChain.Atomicity

/-!
# The chain of blocks

Which blocks are stored after any sequence of added and imported blocks and
reorganisations. Execution never touches the table of blocks; storing a block does,
and the replacing insert also drops a block with the same hash.
-/

namespace AbsoluteChain

open Python Actions Act Transactions KeyedTable

/-! ## Storing and dropping blocks -/

theorem getBlock_putBlock (b : BlockDict) (t : Tables) (h : Int) :
    (t.putBlock b).getBlock h = if h = b.height then some b else (t.getBlock h).filter fun r => decide (r.hash ≠ b.hash) := by
  unfold Tables.getBlock Tables.putBlock
  simp only [Table.get_put, Table.get_keep]

theorem getBlock_congr {t u : Tables} (h : u.blocks = t.blocks) (k : Int) : u.getBlock k = t.getBlock k := by
  unfold Tables.getBlock
  rw [h]

theorem chainTip_congr {t u : Tables} (h : u.blocks = t.blocks) : u.getChainTip = t.getChainTip := by
  unfold Tables.getChainTip
  rw [h]

structure Linked (t : Tables) : Prop where
  heights : ∀ h, (t.getBlock h).isSome = true ↔ 0 ≤ h ∧ h ≤ t.getChainTip
  keyed : ∀ {h d}, t.getBlock h = some d → d.height = h
  parents : ∀ {h d p}, t.getBlock (h + 1) = some d → t.getBlock h = some p → d.parentHash = p.hash
  distinct : ∀ {h k d e}, t.getBlock h = some d → t.getBlock k = some e → d.hash = e.hash → h = k

namespace Linked

variable {t u : Tables}

theorem congr (hl : Linked t) (h : u.blocks = t.blocks) : Linked u where
  heights k := by
    rw [getBlock_congr h, chainTip_congr h]
    exact hl.heights k
  keyed hd := by
    rw [getBlock_congr h] at hd
    exact hl.keyed hd
  parents hd hp := by
    rw [getBlock_congr h] at hd hp
    exact hl.parents hd hp
  distinct hd he := by
    rw [getBlock_congr h] at hd he
    exact hl.distinct hd he

theorem tip_of_heights {tip : Int} (h₀ : 0 ≤ tip) (hs : ∀ h, (t.getBlock h).isSome = true ↔ 0 ≤ h ∧ h ≤ tip) :
    t.getChainTip = tip ∧ t.getLastBlock = t.getBlock tip := by
  obtain ⟨d, hd⟩ := Option.isSome_iff_exists.mp ((hs tip).mpr ⟨h₀, le_refl _⟩)
  have hlast : t.blocks.last? = some (tip, d) :=
    Table.last_of_max hd fun j r hj => ((hs j).mp (Option.isSome_iff_exists.mpr ⟨r, hj⟩)).2
  unfold Tables.getChainTip Tables.getLastBlock
  rw [hlast, hd]
  exact ⟨rfl, rfl⟩

theorem tip_nonneg (hl : Linked t) : 0 ≤ t.getChainTip := by
  have h := hl.heights t.getChainTip
  by_contra hneg
  have hempty : t.blocks = .empty := by
    refine Table.ext_get fun k => ?_
    cases hk : t.blocks.get? k with
    | none => rfl
    | some d =>
      have := (hl.heights k).mp (by rw [Tables.getBlock, hk]; rfl)
      omega
  unfold Tables.getChainTip at hneg
  rw [hempty] at hneg
  exact hneg (le_refl _)

theorem exists_block (hl : Linked t) {h : Int} (h₀ : 0 ≤ h) (hle : h ≤ t.getChainTip) : ∃ d, t.getBlock h = some d :=
  Option.isSome_iff_exists.mp ((hl.heights h).mpr ⟨h₀, hle⟩)

theorem none_above (hl : Linked t) {h : Int} (habove : t.getChainTip < h) : t.getBlock h = none := by
  by_contra hsome
  have := ((hl.heights h).mp (Option.isSome_iff_ne_none.mpr hsome)).2
  omega

theorem none_below (hl : Linked t) {h : Int} (hbelow : ¬ 0 ≤ h) : t.getBlock h = none := by
  by_contra hsome
  exact hbelow ((hl.heights h).mp (Option.isSome_iff_ne_none.mpr hsome)).1

theorem last (hl : Linked t) : t.getLastBlock = t.getBlock t.getChainTip := (tip_of_heights hl.tip_nonneg hl.heights).2

theorem heights_of_cut (hl : Linked t) {cut : Int} (hle : cut ≤ t.getChainTip)
    (hget : ∀ k, u.getBlock k = if k ≤ cut then t.getBlock k else none) (k : Int) :
    (u.getBlock k).isSome = true ↔ 0 ≤ k ∧ k ≤ cut := by
  rw [hget]
  by_cases hk : k ≤ cut
  · rw [if_pos hk, hl.heights]
    omega
  · rw [if_neg hk]
    simp only [Option.isSome_none, Bool.false_eq_true, false_iff]
    omega

theorem single {d : BlockDict} (h : t.blocks = Table.empty.put 0 d) (hd : d.height = 0) : Linked t := by
  have hget : ∀ k, t.getBlock k = if k = 0 then some d else none := by
    intro k
    unfold Tables.getBlock
    rw [h]
    exact Table.get_put Table.empty k 0 d
  have hsome : ∀ {k e}, t.getBlock k = some e → k = 0 ∧ e = d := by
    intro k e he
    rw [hget] at he
    by_cases hk : k = 0
    · rw [if_pos hk] at he
      cases he
      exact ⟨hk, rfl⟩
    · rw [if_neg hk] at he
      cases he
  have hheights : ∀ k, (t.getBlock k).isSome = true ↔ 0 ≤ k ∧ k ≤ 0 := by
    intro k
    rw [hget]
    by_cases hk : k = 0
    · simp [hk]
    · simp only [if_neg hk, Option.isSome_none, Bool.false_eq_true, false_iff]
      omega
  have htip := (tip_of_heights (le_refl 0) hheights).1
  refine ⟨by rw [htip]; exact hheights, fun he => ?_, fun he hp => ?_, fun he hf _ => ?_⟩
  · obtain ⟨rfl, rfl⟩ := hsome he
    exact hd
  · have h₁ := (hsome he).1
    have h₂ := (hsome hp).1
    omega
  · exact (hsome he).1.trans (hsome hf).1.symm

theorem put (hl : Linked t) {b : BlockDict} {last : BlockDict} (hlast : t.getLastBlock = some last)
    (hheight : b.height = last.height + 1) (hparent : b.parentHash = last.hash)
    (hfresh : ∀ h d, t.getBlock h = some d → d.hash ≠ b.hash) :
    Linked (t.putBlock b) ∧ ∀ h d, t.getBlock h = some d → (t.putBlock b).getBlock h = some d := by
  have htip : t.getBlock t.getChainTip = some last := by rw [← hl.last, hlast]
  have htop : b.height = t.getChainTip + 1 := by rw [hheight, hl.keyed htip]
  -- the row of the new block, and the rows before it
  have hget : ∀ h, (t.putBlock b).getBlock h = if h = b.height then some b else t.getBlock h := by
    intro h
    rw [getBlock_putBlock]
    by_cases hh : h = b.height
    · rw [if_pos hh, if_pos hh]
    · rw [if_neg hh, if_neg hh]
      cases hd : t.getBlock h with
      | none => rfl
      | some d => simp [hfresh h d hd]
  have hkept : ∀ h d, t.getBlock h = some d → (t.putBlock b).getBlock h = some d := by
    intro h d hd
    have := ((hl.heights h).mp (Option.isSome_iff_exists.mpr ⟨d, hd⟩)).2
    rw [hget, if_neg (by omega), hd]
  have hheights : ∀ h, ((t.putBlock b).getBlock h).isSome = true ↔ 0 ≤ h ∧ h ≤ t.getChainTip + 1 := by
    intro h
    have h₀ := hl.tip_nonneg
    rw [hget]
    by_cases hh : h = b.height
    · rw [if_pos hh]
      simp only [Option.isSome_some, true_iff]
      omega
    · rw [if_neg hh, hl.heights]
      omega
  have htip' := (tip_of_heights (by have := hl.tip_nonneg; omega) hheights).1
  refine ⟨⟨?_, ?_, ?_, ?_⟩, hkept⟩
  · rw [htip']
    exact hheights
  · intro h d hd
    rw [hget] at hd
    by_cases hh : h = b.height
    · rw [if_pos hh] at hd
      cases hd
      exact hh.symm
    · rw [if_neg hh] at hd
      exact hl.keyed hd
  -- the parent of the new block is the last one before it
  · intro h d p hd hp
    rw [hget] at hd hp
    have hp' : t.getBlock h = some p := by
      by_cases hh : h = b.height
      · rw [if_neg (by omega)] at hd
        have := ((hl.heights (h + 1)).mp (Option.isSome_iff_exists.mpr ⟨d, hd⟩)).2
        omega
      · rwa [if_neg hh] at hp
    by_cases hh : h + 1 = b.height
    · rw [if_pos hh] at hd
      cases hd
      rw [show h = t.getChainTip by omega, htip] at hp'
      cases hp'
      exact hparent
    · rw [if_neg hh] at hd
      exact hl.parents hd hp'
  -- the new hash is on no other row
  · intro h k d e hd he hhash
    rw [hget] at hd he
    by_cases hh : h = b.height
    · rw [if_pos hh] at hd
      cases hd
      by_cases hk : k = b.height
      · exact hh.trans hk.symm
      · rw [if_neg hk] at he
        exact absurd hhash.symm (hfresh k e he)
    · rw [if_neg hh] at hd
      by_cases hk : k = b.height
      · rw [if_pos hk] at he
        cases he
        exact absurd hhash (hfresh h d hd)
      · rw [if_neg hk] at he
        exact hl.distinct hd he hhash

/-- What is left below a height that is not negative is linked. -/
theorem cut (hl : Linked t) {cut : Int} (hc : 0 ≤ cut)
    (hu : ∀ h, u.getBlock h = if h ≤ cut then t.getBlock h else none) : Linked u := by
  have hsome : ∀ {h d}, u.getBlock h = some d → h ≤ cut ∧ t.getBlock h = some d := by
    intro h d hd
    rw [hu] at hd
    by_cases hh : h ≤ cut
    · rw [if_pos hh] at hd
      exact ⟨hh, hd⟩
    · rw [if_neg hh] at hd
      cases hd
  have hheights : ∀ h, (u.getBlock h).isSome = true ↔ 0 ≤ h ∧ h ≤ min cut t.getChainTip := by
    intro h
    rw [hu]
    by_cases hh : h ≤ cut
    · rw [if_pos hh, hl.heights]
      omega
    · rw [if_neg hh]
      simp only [Option.isSome_none, Bool.false_eq_true, false_iff]
      omega
  have htip := (tip_of_heights (le_min hc hl.tip_nonneg) hheights).1
  refine ⟨by rw [htip]; exact hheights, fun hd => hl.keyed (hsome hd).2, fun hd hp => ?_, fun hd he => ?_⟩
  · exact hl.parents (hsome hd).2 (hsome hp).2
  · exact hl.distinct (hsome hd).2 (hsome he).2

end Linked

theorem getBlock_deleteAbove (cut : Int) (t : Tables) (h : Int) :
    (t.deleteAbove cut).getBlock h = if h ≤ cut then t.getBlock h else none := by
  have hkeep : (t.deleteAbove cut).getBlock h = (t.getBlock h).filter fun _ => decide (h ≤ cut) := Table.get_keep _ _ _
  rw [hkeep]
  by_cases hh : h ≤ cut
  · rw [if_pos hh]
    cases t.getBlock h <;> simp [hh]
  · rw [if_neg hh]
    cases t.getBlock h <;> simp [hh]

namespace Blockchain

variable {c : Blockchain} {now : Int}

/-! ## Blocks and execution -/

theorem keeps_checkPeerRoot {F : Frame Node} (b : Block) (preserve : Bool) (root : String) :
    Keeps F (c.checkPeerRoot b preserve root) := by
  unfold checkPeerRoot
  exact keeps_ite (fun _ => keeps_ite (fun _ => keeps_raise _) fun _ => keeps_pure _) fun _ => keeps_pure _

theorem keeps_checkProposal {F : Frame Db} (hF : ∀ a, Keeps F (committed (Tables.slashValidator a))) (b : Block) :
    Keeps (Frame.pull Node.dbPart F) (checkProposal now b) := by
  have hslashing : ∀ e, Keeps (Frame.pull Node.dbPart F)
      (Act.write fun n : Node => { n with slashing := e } : Act Fault Node Unit) := fun e => keeps_write fun n => F.refl n.db
  unfold checkProposal
  refine keeps_bind (keeps_read _) fun slashing => ?_
  cases slashing with
  | none => exact keeps_pure _
  | some engine =>
    refine keeps_ite (fun _ => keeps_pure _) fun _ => keeps_bind ?_ fun fresh => ?_
    · unfold recordProposal slash
      refine keeps_ite (fun _ => keeps_pure _) fun _ => keeps_ite (fun _ => ?_) fun _ => ?_
      · refine keeps_bind (keeps_ite (fun _ => keeps_pure _) fun _ => ?_) fun _ => keeps_pure _
        refine keeps_bind (hslashing _) fun _ => keeps_ite (fun _ => ?_) fun _ => keeps_pure _
        exact keeps_on (hF _)
      · exact keeps_bind (hslashing _) fun _ => keeps_pure _
    · exact keeps_ite (fun _ => keeps_pure _) fun _ => keeps_raise _

/-- What the transactions of a block leave alone, its whole execution leaves alone: whatever is committed
on the way, nothing new of it is durable. -/
theorem executeBlock_file {γ : Type} {q : Tables → γ} (haccounts : ∀ t a, q { t with accounts := a } = q t)
    (hslash : ∀ t a, q (t.slashValidator a) = q t) {b : Block} {preserve : Bool} {n : Node}
    (hn : q n.db.file = q n.db.live)
    (htxs : (untouched q).rel n.db (c.applyTransactions now b.height b.miner b.transactions n.db).2) :
    q (c.executeBlock now b preserve n).2.db.file = q n.db.live := by
  let F : Frame Node := Frame.pull Node.dbPart (untouched q)
  have hend : ∀ m, F.rel n m → q m.db.file = q n.db.live := by
    intro m h
    rcases h.2 with h | h
    · exact h.trans hn
    · exact h
  let R : Node → Prop := fun m => q m.db.file = q n.db.live
  unfold executeBlock
  have h₁ : F.rel n (onDb (c.applyTransactions now b.height b.miner b.transactions) n).2 := htxs
  refine after_bind (R := R) h₁ (fun txs n₁ r₁ => ?_) hend
  have e₁ : F.rel n n₁ := by
    rw [r₁] at h₁
    exact h₁
  have h₂ : Keeps F (onDb (c.applyBlockReward b.miner)) := keeps_on (keeps_reward haccounts _)
  refine after_bind (R := R) (F.trans e₁ (h₂ n₁)) (fun reward n₂ r₂ => ?_) hend
  have e₂ := F.trans e₁ (keeps_apply h₂ r₂)
  have h₃ : Keeps F (onDb (query c.computeStateRoot)) := keeps_on (keeps_query _)
  refine after_bind (R := R) (F.trans e₂ (h₃ n₂)) (fun root n₃ r₃ => ?_) hend
  have e₃ := F.trans e₂ (keeps_apply h₃ r₃)
  have h₄ : Keeps F (c.checkPeerRoot b preserve root) := keeps_checkPeerRoot _ _ _
  refine after_bind (R := R) (F.trans e₃ (h₄ n₃)) (fun _ n₄ r₄ => ?_) hend
  have e₄ := F.trans e₃ (keeps_apply h₄ r₄)
  have h₅ : Keeps F (checkProposal now (sealBlock b txs root preserve)) :=
    keeps_checkProposal (fun a => keeps_commit fun t => hslash t a) _
  refine after_bind (R := R) (F.trans e₄ (h₅ n₄)) (fun _ n₅ r₅ => ?_) hend
  have e₅ := F.trans e₄ (keeps_apply h₅ r₅)
  -- storing the block opens no commit: a failure in it leaves the file alone
  refine after_bind (Q := R) (R := R) ?_ (fun _ n₆ r₆ => ?_) fun _ h => h
  · exact (congrArg q (uncommitted_persist _ _ _ _ _ _ n₅.db)).trans (hend n₅ e₅)
  · obtain ⟨db, hdb, rfl⟩ := onDb_ok.mp r₆
    exact (congrArg q (keeps_apply (uncommitted_persist _ _ _ _ _ _) hdb)).trans (hend n₅ e₅)

theorem executeBlock_blocks {b : Block} {preserve : Bool} {n : Node} (hn : n.db.file.blocks = n.db.live.blocks) :
    (c.executeBlock now b preserve n).2.db.file.blocks = n.db.live.blocks :=
  executeBlock_file (q := Tables.blocks) (fun _ _ => rfl) (fun _ _ => rfl) hn
    (keeps_applyTransactions executionFree_blocks _ _ _ n.db)

theorem blocks_persisted (b : Block) (t : Tables) : (c.persisted now b t).blocks = (t.putBlock b.toDict).blocks := by
  have hstore : (storeTxs c.host b.toDict.hash b.toDict.height (b.transactions.map Transaction.toDict)
      (storeBlock c.host now b.toDict t)).blocks = (t.putBlock b.toDict).blocks := by
    obtain ⟨transactions, receipts, hrows⟩ := storeTxs_rows c.host b.toDict.hash b.toDict.height
      (b.transactions.map Transaction.toDict) (storeBlock c.host now b.toDict t)
    rw [hrows]
    rfl
  unfold persisted persistTables burnTables
  by_cases hb : 0 < b.totalBurned
  · simp only [if_pos hb]
    split
    · exact hstore
    · exact hstore
  · simp only [if_neg hb]
    exact hstore

theorem rewardTables_blocks (miner : String) (t : Tables) : (c.rewardTables miner t).blocks = t.blocks := by
  unfold rewardTables
  split <;> rfl

variable {n n' : Node} {b b' : Block} {preserve : Bool}

theorem Accepted.blocks (r : Accepted c now b preserve n b' n') :
    n'.db.live.blocks = (n.db.live.putBlock b'.toDict).blocks := by
  have hrun := keeps_apply (@keeps_applyTransactions c now _ _ executionFree_blocks b.height b.miner
    b.transactions) r.ran
  have hlive : n'.db.live = c.persisted now b' (c.rewardTables b.miner r.applied.live) := by
    rw [r.result]
    rfl
  have hput : ∀ {t u : Tables}, u.blocks = t.blocks → (u.putBlock b'.toDict).blocks = (t.putBlock b'.toDict).blocks := by
    intro t u h
    unfold Tables.putBlock
    rw [h]
  rw [hlive, blocks_persisted]
  refine hput ?_
  rw [rewardTables_blocks, ← r.live_start]
  exact hrun.1

theorem addBlock_rejected_blocks {f : Fault} (h : c.addBlock now b preserve n = (.error f, n')) :
    n'.db.live.blocks = n.db.live.blocks := by
  rcases addBlock_rejected h with ⟨-, hsame⟩ | ⟨⟨-, hclosed⟩, hbody⟩
  · exact congrArg Guarded.blocks hsame
  · have hlive : n.db.opened.live = n.db.live := Store.live_opened hclosed
    have hblocks := @executeBlock_blocks c now b preserve { n with db := n.db.opened } rfl
    exact (congrArg Guarded.blocks hbody).trans (hblocks.trans (congrArg Tables.blocks hlive))

/-! ## Reorganisations -/

def within (S : Tables → Prop) : Frame Db where
  rel db db' := S db.file ∧ S db.live → S db'.file ∧ S db'.live
  refl _ h := h
  trans h₁ h₂ h := h₂ (h₁ h)

theorem within_of_untouched {γ α : Type} {q : Tables → γ} {S : Tables → Prop} {m : Act Fault Db α}
    (hS : ∀ {t u}, q u = q t → S t → S u) (h : Keeps (untouched q) m) : Keeps (within S) m := by
  rintro db ⟨hfile, hlive⟩
  obtain ⟨h₁, h₂⟩ := h db
  refine ⟨?_, hS h₁ hlive⟩
  rcases h₂ with h₂ | h₂
  · exact hS h₂ hfile
  · exact hS h₂ hlive

theorem within_statement {S : Tables → Prop} {f : Tables → Tables} (h : ∀ t, S t → S (f t)) :
    Keeps (within S) (statement f) := by
  rintro db ⟨hfile, hlive⟩
  exact ⟨hfile, h _ hlive⟩

theorem within_atomically {S : Tables → Prop} {α : Type} {body : Act Fault Db α} (h : Keeps (within S) body) :
    Keeps (within S) (atomically nestedTransaction Part.whole body) := by
  rintro db ⟨hfile, hlive⟩
  cases hb : db.begin? with
  | none =>
    rw [atomically_refused (P := Part.whole) nestedTransaction hb]
    exact ⟨hfile, hlive⟩
  | some db₁ =>
    obtain ⟨-, rfl⟩ := Store.begin_eq_some hb
    rcases hr : body db.opened with ⟨e | a, db₂⟩
    · rw [atomically_raised (P := Part.whole) nestedTransaction hb hr]
      have h₂ := keeps_apply h hr ⟨hfile, hfile⟩
      exact ⟨h₂.1, h₂.1⟩
    · rw [atomically_returned (P := Part.whole) nestedTransaction hb hr]
      have h₂ := keeps_apply h hr ⟨hfile, hfile⟩
      exact ⟨h₂.2, h₂.2⟩

theorem keeps_replayBlocks {γ : Type} {q : Tables → γ} (hq : ExecutionFree q) (k : Nat) (h : Int) :
    Keeps (untouched q) (c.replayBlocks now k h) := by
  induction k generalizing h with
  | zero => exact keeps_pure _
  | succ k ih =>
    unfold replayBlocks
    refine keeps_bind (keeps_query _) fun row => ?_
    cases row with
    | none => exact keeps_raise _
    | some d =>
      refine keeps_bind (keeps_applyTransactions hq _ _ _) fun _ => ?_
      exact keeps_bind (keeps_applyBlockReward hq _) fun _ => ih _

theorem reorg_blocks (floor cut : Int) (db : Db) (hfile : db.file.blocks = db.live.blocks) :
    (c.reorgToAncestor now floor cut db).2.live.blocks = db.live.blocks ∨
      (c.reorgToAncestor now floor cut db).2.live.blocks = (db.live.deleteAbove cut).blocks := by
  let S (t : Tables) : Prop := t.blocks = db.live.blocks ∨ t.blocks = (db.live.deleteAbove cut).blocks
  have hS : ∀ {t u : Tables}, u.blocks = t.blocks → S t → S u := fun h hs => hs.imp h.trans h.trans
  have hdelete : ∀ t, S t → S (t.deleteAbove cut) := by
    intro t ht
    right
    have hkeep : (t.deleteAbove cut).blocks = t.blocks.keep fun h _ => decide (h ≤ cut) := rfl
    rcases ht with h | h
    · rw [hkeep, h]
      rfl
    · rw [hkeep, h]
      refine Table.keep_eq_self fun k r hk => ?_
      have hcut : (db.live.deleteAbove cut).getBlock k = some r := hk
      rw [getBlock_deleteAbove] at hcut
      by_cases hle : k ≤ cut
      · exact decide_eq_true hle
      · rw [if_neg hle] at hcut
        cases hcut
  have hbody : ∀ tip, Keeps (within S) (c.replayFromGenesis now cut tip) := by
    intro tip
    unfold replayFromGenesis bindInts checkReplayRoot
    refine keeps_bind (keeps_ite (fun _ => keeps_pure _) fun _ => keeps_raise _) fun _ => ?_
    refine keeps_bind (keeps_when fun _ => within_statement hdelete) fun _ => ?_
    refine keeps_bind (within_statement fun t ht => hS rfl ht) fun _ => ?_
    refine keeps_bind (within_of_untouched hS (keeps_replayBlocks executionFree_blocks _ _)) fun _ => ?_
    refine keeps_bind (keeps_query _) fun t => ?_
    cases t.getBlock cut with
    | none => exact keeps_pure _
    | some d => exact keeps_ite (fun _ => keeps_raise _) fun _ => keeps_pure _
  have hall : Keeps (within S) (c.reorgToAncestor now floor cut) := by
    unfold reorgToAncestor
    refine keeps_ite (fun _ => keeps_raise _) fun _ => keeps_bind (keeps_query _) fun tip => ?_
    exact keeps_ite (fun _ => keeps_pure _) fun _ => within_atomically (hbody tip)
  exact (hall db ⟨.inl hfile, .inl rfl⟩).2

/-! ## Imports -/

/-- A block of height 0 with another hash than the stored one: the import drops every block first. -/
def Truncates (d : PeerBlock) (n : Node) : Prop :=
  field (normalizeBlockDict d).height (normalizeBlockDict d).number 0 = 0 ∧
    ∃ e, n.db.live.getBlock 0 = some e ∧ (normalizeBlockDict d).hash ≠ some e.hash

theorem importFresh_rejected {d : PeerBlock} {f : Fault} (h : c.importFresh now d n = (.error f, n')) :
    n' = n ∨ c.addBlock now (Block.fromDict c.host now d) true n = (.error f, n') := by
  unfold importFresh at h
  simp only [bind_run, onDb_run, query_run, liftExcept] at h
  cases hv : blockValidator now d n.db.live.getLastBlock with
  | error e =>
    simp only [hv] at h
    cases h
    exact .inl rfl
  | ok u =>
    simp only [hv] at h
    exact .inr h

theorem importFresh_rejected_blocks {d : PeerBlock} {f : Fault} (h : c.importFresh now d n = (.error f, n')) :
    n'.db.live.blocks = n.db.live.blocks := by
  rcases importFresh_rejected h with rfl | hadd
  · rfl
  · exact addBlock_rejected_blocks hadd

theorem importBlock_rejected {d : PeerBlock} {f : Fault} (ht : ¬ Truncates d n) (h : c.importBlock now d n = (.error f, n')) :
    n' = n ∨ c.addBlock now (Block.fromDict c.host now (normalizeBlockDict d)) true n = (.error f, n') := by
  unfold importBlock at h
  simp only [bind_run, onDb_run, query_run, liftExcept, require] at h
  by_cases hfits : fitsInt64 (field (normalizeBlockDict d).height (normalizeBlockDict d).number 0) = true
  · simp only [if_pos hfits] at h
    cases he : n.db.live.getBlock (field (normalizeBlockDict d).height (normalizeBlockDict d).number 0) with
    | none =>
      rw [he] at h
      exact importFresh_rejected h
    | some e =>
      rw [he] at h
      by_cases hg : field (normalizeBlockDict d).height (normalizeBlockDict d).number 0 = 0 ∧
          (normalizeBlockDict d).hash ≠ some e.hash
      · refine absurd ⟨hg.1, e, ?_, hg.2⟩ ht
        rw [← hg.1]
        exact he
      · simp only [if_neg hg] at h
        cases h
        exact .inl rfl
  · simp only [if_neg hfits] at h
    cases h
    exact .inl rfl

theorem importBlock_rejected_blocks {d : PeerBlock} {f : Fault} (ht : ¬ Truncates d n)
    (h : c.importBlock now d n = (.error f, n')) : n'.db.live.blocks = n.db.live.blocks := by
  rcases importBlock_rejected ht h with rfl | hadd
  · rfl
  · exact addBlock_rejected_blocks hadd

/-! ## Runs -/

inductive Call where
  | addBlock (now : Int) (b : Block) (preserve : Bool)
  | importBlock (now : Int) (d : PeerBlock)
  | reorgToAncestor (now floor height : Int)

def Call.run (c : Blockchain) : Call → Node → Node
  | .addBlock now b preserve, n => (c.addBlock now b preserve n).2
  | .importBlock now d, n => (c.importBlock now d n).2
  | .reorgToAncestor now floor height, n => (onDb (c.reorgToAncestor now floor height) n).2

def Call.isReorg : Call → Bool
  | .reorgToAncestor .. => true
  | _ => false

def Fresh (n : Node) (hash : String) : Prop := ∀ h d, n.db.live.getBlock h = some d → d.hash ≠ hash

def Call.Sound (c : Blockchain) : Call → Node → Prop
  | .addBlock now b preserve, n => ∀ b' n', c.addBlock now b preserve n = (.ok b', n') → Fresh n b'.hash
  | .importBlock now d, n =>
    ¬ Truncates d n ∧ ∀ b' n', c.importBlock now d n = (.ok b', n') → Fresh n b'.hash
  | .reorgToAncestor _ _ height, _ => 0 ≤ height

def runCalls (c : Blockchain) (calls : List Call) (n : Node) : Node := calls.foldl (fun n call => call.run c n) n

def AllSound (c : Blockchain) : List Call → Node → Prop
  | [], _ => True
  | call :: rest, n => call.Sound c n ∧ AllSound c rest (call.run c n)

theorem structured_linked {t : Tables} (hl : Linked t) (h : validateBlockStructure t b = .ok ()) :
    ∃ last, t.getLastBlock = some last ∧ b.height = last.height + 1 ∧ b.parentHash = last.hash ∧
      b.height = t.getChainTip + 1 := by
  obtain ⟨last, hlast⟩ := hl.exists_block hl.tip_nonneg (le_refl _)
  have hget : t.getLastBlock = some last := hl.last.trans hlast
  unfold validateBlockStructure at h
  simp only [hget] at h
  by_cases hh : b.height = last.height + 1
  · by_cases hp : b.parentHash = last.hash
    · exact ⟨last, hget, hh, hp, by rw [hh, hl.keyed hlast]⟩
    · rw [if_neg (not_not.mpr hh), if_pos hp] at h
      cases h
  · rw [if_pos hh] at h
    cases h

theorem accepted_linked (hl : Linked n.db.live) (h : c.addBlock now b preserve n = (.ok b', n')) (hf : Fresh n b'.hash) :
    Linked n'.db.live ∧ ∀ h d, n.db.live.getBlock h = some d → n'.db.live.getBlock h = some d := by
  obtain ⟨r⟩ := addBlock_ok h
  obtain ⟨last, hlast, hheight, hparent, -⟩ := structured_linked hl (admitBlock_ok r.admitted).structured
  obtain ⟨hlinked, hkept⟩ := @Linked.put _ hl b'.toDict _ hlast (r.height_eq.trans hheight) (r.parentHash_eq.trans hparent) hf
  refine ⟨hlinked.congr r.blocks, fun h d hd => ?_⟩
  rw [getBlock_congr r.blocks]
  exact hkept h d hd

theorem accepted_tip (hl : Linked n.db.live) (h : c.addBlock now b preserve n = (.ok b', n')) (hf : Fresh n b'.hash) :
    n'.db.live.getChainTip = n.db.live.getChainTip + 1 ∧
      n'.db.live.getBlock (n.db.live.getChainTip + 1) = some b'.toDict := by
  obtain ⟨r⟩ := addBlock_ok h
  obtain ⟨-, -, -, -, htop⟩ := structured_linked hl (admitBlock_ok r.admitted).structured
  have hheight : b'.toDict.height = n.db.live.getChainTip + 1 := r.height_eq.trans htop
  have hget : ∀ k, n'.db.live.getBlock k = if k = n.db.live.getChainTip + 1 then some b'.toDict else
      (n.db.live.getBlock k).filter fun d => decide (d.hash ≠ b'.toDict.hash) := fun k => by
    rw [getBlock_congr r.blocks, getBlock_putBlock, hheight]
  have hblock : n'.db.live.getBlock (n.db.live.getChainTip + 1) = some b'.toDict := by rw [hget, if_pos rfl]
  have hlinked := (accepted_linked hl h hf).1
  refine ⟨le_antisymm ?_ ((hlinked.heights _).mp (by rw [hblock]; rfl)).2, hblock⟩
  by_contra hover
  have hsome := (hlinked.heights _).mpr ⟨hlinked.tip_nonneg, le_refl _⟩
  rw [hget, if_neg (by omega)] at hsome
  cases hd : n.db.live.getBlock n'.db.live.getChainTip with
  | none =>
    rw [hd] at hsome
    cases hsome
  | some d =>
    have := ((hl.heights _).mp (by rw [hd]; rfl : (n.db.live.getBlock n'.db.live.getChainTip).isSome = true)).2
    omega

/-! ### Transactions of the database between calls -/

theorem idle_bindInts (l : List Int) : Keeps idle (bindInts l) := keeps_ite (fun _ => keeps_pure _) fun _ => keeps_raise _

theorem idle_addBlock (b : Block) (preserve : Bool) : Keeps (Frame.pull Node.dbPart idle) (c.addBlock now b preserve) := by
  have haudit : ∀ f, Keeps (Frame.pull Node.dbPart idle) (c.auditMismatch now b preserve f) := by
    intro f
    unfold auditMismatch
    cases f.roots with
    | none => exact keeps_pure _
    | some r =>
      refine keeps_attempt (keeps_on ?_) fun _ => keeps_pure _
      exact keeps_bind (idle_bindInts _) fun _ => idle_write _
  unfold addBlock
  refine keeps_bind (keeps_read _) fun n => keeps_bind (keeps_liftExcept _) fun _ => ?_
  exact keeps_attempt (idle_atomically _ _ _) fun f => keeps_bind (haudit f) fun _ => keeps_raise _

theorem idle_importBlock (d : PeerBlock) : Keeps (Frame.pull Node.dbPart idle) (c.importBlock now d) := by
  have hfresh : ∀ d, Keeps (Frame.pull Node.dbPart idle) (c.importFresh now d) := fun d =>
    keeps_bind (keeps_on (keeps_query _)) fun _ => keeps_bind (keeps_liftExcept _) fun _ => idle_addBlock _ _
  unfold importBlock
  refine keeps_bind (keeps_liftExcept _) fun _ => keeps_bind (keeps_on (keeps_query _)) fun existing => ?_
  cases existing with
  | none => exact hfresh _
  | some e =>
    refine keeps_ite (fun _ => keeps_bind (keeps_on ?_) fun _ => hfresh _) fun _ => keeps_raise _
    exact idle_atomically nestedTransaction Part.whole _

theorem idle_reorgToAncestor (floor height : Int) : Keeps idle (c.reorgToAncestor now floor height) := by
  unfold reorgToAncestor
  refine keeps_ite (fun _ => keeps_raise _) fun _ => keeps_bind (keeps_query _) fun tip => ?_
  exact keeps_ite (fun _ => keeps_pure _) fun _ => idle_atomically nestedTransaction Part.whole _

theorem idle_call (call : Call) {n : Node} (h : n.db.pending = none) : (call.run c n).db.pending = none := by
  cases call with
  | addBlock now b preserve => exact idle_addBlock b preserve n h
  | importBlock now d => exact idle_importBlock d n h
  | reorgToAncestor now floor height => exact idle_reorgToAncestor floor height n.db h

/-- The step lemma: a call whose condition holds keeps the chain linked, and only a
reorganisation drops blocks. -/
theorem call_linked {call : Call} {n : Node} (hclosed : n.db.pending = none) (hl : Linked n.db.live)
    (hs : call.Sound c n) :
    Linked (call.run c n).db.live ∧
      (call.isReorg = false → ∀ h d, n.db.live.getBlock h = some d → (call.run c n).db.live.getBlock h = some d) := by
  have hsame : ∀ {n' : Node}, n'.db.live.blocks = n.db.live.blocks →
      Linked n'.db.live ∧ ∀ h d, n.db.live.getBlock h = some d → n'.db.live.getBlock h = some d := fun hb =>
    ⟨hl.congr hb, fun h d hd => by rw [getBlock_congr hb]; exact hd⟩
  cases call with
  | addBlock now b preserve =>
    rcases hrun : c.addBlock now b preserve n with ⟨f | b', n'⟩
    · obtain ⟨hlinked, hkept⟩ := hsame (addBlock_rejected_blocks hrun)
      simp only [Call.run, hrun]
      exact ⟨hlinked, fun _ => hkept⟩
    · obtain ⟨hlinked, hkept⟩ := accepted_linked hl hrun (hs b' n' hrun)
      simp only [Call.run, hrun]
      exact ⟨hlinked, fun _ => hkept⟩
  | importBlock now d =>
    rcases hrun : c.importBlock now d n with ⟨f | b', n'⟩
    · obtain ⟨hlinked, hkept⟩ := hsame (importBlock_rejected_blocks hs.1 hrun)
      simp only [Call.run, hrun]
      exact ⟨hlinked, fun _ => hkept⟩
    · obtain ⟨n₀, h₀, -, ha⟩ := importBlock_ok hrun
      rcases h₀ with rfl | ⟨-, e, he, hne, hz⟩
      · obtain ⟨hlinked, hkept⟩ := accepted_linked hl ha (hs.2 b' n' hrun)
        simp only [Call.run, hrun]
        exact ⟨hlinked, fun _ => hkept⟩
      · exact absurd ⟨hz, e, he, hne⟩ hs.1
  | reorgToAncestor now floor height =>
    refine ⟨?_, fun h => nomatch h⟩
    have hfile : n.db.file.blocks = n.db.live.blocks := congrArg Tables.blocks (Store.live_closed hclosed).symm
    rcases @reorg_blocks c now floor height n.db hfile with hb | hb
    · exact hl.congr hb
    · refine hl.cut hs fun h => ?_
      rw [← getBlock_deleteAbove]
      exact getBlock_congr hb h

/-- The run theorem: induction on the calls. Every state reached is linked, and from it no call
but a reorganisation removes or replaces a stored block. -/
theorem calls_linked {n : Node} (hclosed : n.db.pending = none) (hl : Linked n.db.live) {calls : List Call}
    (hs : AllSound c calls n) :
    Linked (runCalls c calls n).db.live ∧
      ∀ call : Call, call.isReorg = false → call.Sound c (runCalls c calls n) →
        ∀ h d, (runCalls c calls n).db.live.getBlock h = some d →
          (call.run c (runCalls c calls n)).db.live.getBlock h = some d := by
  induction calls generalizing n with
  | nil => exact ⟨hl, fun call hr hc => (call_linked hclosed hl hc).2 hr⟩
  | cons call rest ih => exact ih (idle_call call hclosed) (call_linked hclosed hl hs.1).1 hs.2

theorem genesisNode_linked (slashing : Option SlashingEngine) : Linked (genesisNode slashing).db.live := .single rfl rfl

theorem firstBlock_fresh (b' : Block) (n' : Node)
    (hrun : plain.addBlock 2 (firstBlock []) true (genesisNode none) = (.ok b', n')) : Fresh (genesisNode none) b'.hash := by
  intro h d hd
  have hhash : (plain.addBlock 2 (firstBlock []) true (genesisNode none)).1.toOption.map Block.hash = some "b" := by
    decide +kernel
  rw [hrun] at hhash
  have hb : b'.hash = "b" := Option.some.inj hhash
  have hd' : (if h = 0 then some genesisRow else none) = some d := by
    rw [← hd]
    exact (Table.get_put Table.empty h 0 genesisRow).symm
  rw [hb]
  by_cases hh : h = 0
  · rw [if_pos hh] at hd'
    cases hd'
    decide
  · rw [if_neg hh] at hd'
    cases hd'

theorem calls_linked_first :
    Linked (runCalls plain [.addBlock 2 (firstBlock []) true] (genesisNode none)).db.live ∧
    (runCalls plain [.addBlock 2 (firstBlock []) true] (genesisNode none)).db.live.getChainTip = 1 := by
  have hsound : AllSound plain [.addBlock 2 (firstBlock []) true] (genesisNode none) := ⟨firstBlock_fresh, trivial⟩
  exact ⟨(calls_linked rfl (genesisNode_linked none) hsound).1, by decide +kernel⟩

def peerBlock (height : Int) (parentHash hash : String) : PeerBlock :=
  { height := some height, parentHash := some parentHash, miner := some "v", timestamp := some 2, hash := some hash,
    transactions := some [] }

/-- An accepted block with the hash of the genesis block removes it, and a block of height 0 that
is itself rejected removes every block. -/
theorem import_unlinks :
    let duplicate := plain.importBlock 2 (peerBlock 1 "g" "g") (genesisNode none)
    let late := plain.importBlock 2 { peerBlock 0 "x" "y" with timestamp := some 1000 } (genesisNode none)
    (genesisNode none).db.live.blocks.rows.map Prod.fst = [0] ∧
    (duplicate.1.toOption.isSome = true ∧ duplicate.2.db.live.blocks.rows.map Prod.fst = [1]) ∧
    (late.1 = .error "Timestamp too far in future" ∧ late.2.db.live.blocks.rows.map Prod.fst = []) := by
  decide +kernel

end Blockchain

end AbsoluteChain
