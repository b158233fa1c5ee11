import AbsoluteChain.Replay

/-!
# A restart

Every start compares the founder's balance with the genesis allocation, tops it up
when it is short, and then replays the chain if the accounts have not the root of
the tip. A top-up is undone only by a replay that goes through.
-/

namespace KeyedTable.Table

open Python

variable {κ ρ β : Type} [LinearOrder κ]

theorem get_foldl_put (f : β → ρ) {l : Dict κ β} (hl : l.Keyed) (t : Table κ ρ) (k : κ) :
    (l.foldl (fun acc e => acc.put e.1 (f e.2)) t).get? k = ((l.get? k).map f).or (t.get? k) := by
  induction l generalizing t with
  | nil => rfl
  | cons e l ih =>
    obtain ⟨a, v⟩ := e
    obtain ⟨hnew, hrest⟩ := List.nodup_cons.mp hl
    rw [List.foldl_cons, ih hrest, get_put, Dict.get?_cons]
    by_cases hk : k = a
    · have hnone : Dict.get? l k = none := by
        by_contra hsome
        obtain ⟨w, hw⟩ := Option.ne_none_iff_exists'.mp hsome
        exact hnew (List.mem_map.mpr ⟨(k, w), Dict.mem_of_get? hw, hk⟩)
      rw [if_pos hk, if_pos hk, hnone]
      rfl
    · rw [if_neg hk, if_neg hk]

end KeyedTable.Table

namespace AbsoluteChain

open Python Actions Act Transactions KeyedTable

structure DataDir where
  db : Db
  genesisAllocApplied : Bool

def DataDir.dbPart : Act.Part DataDir Db where
  get := DataDir.db
  set db d := { d with db := db }
  get_set _ _ := rfl
  set_get _ := rfl
  set_set _ _ _ := rfl

def founderAmountAbs : Int := 38454000

def resolveFounderAddress (founderAddress minerAddress : String) : String :=
  orElse (orElse founderAddress minerAddress) defaultFounderAddress

/-- The test of `_apply_genesis_allocation`. -/
def Tables.Short (t : Tables) (address : String) (amount : Int) : Prop :=
  t.getBalance address < amount * (99 / 100)

instance (t : Tables) (address : String) (amount : Int) : Decidable (t.Short address amount) :=
  inferInstanceAs (Decidable (_ < _))

def topUp (address : String) (amount : Int) : Act Fault Db Unit := do
  let t ← query id
  Act.when (t.Short address amount) (committed (Tables.setBalance address amount))

def topUps : Dict String Int → Act Fault Db Unit
  | [] => pure ()
  | e :: alloc => do
    topUp e.1 e.2
    topUps alloc

namespace Blockchain

variable (c : Blockchain) (now : Int)

def resolvedFounder : String := resolveFounderAddress c.config.founderAddress c.config.minerAddress

def founderExpected : Int := ((genesisBalances c.resolvedFounder).get? c.resolvedFounder).getD founderAmountAbs

def applyGenesisAllocation : Act Fault DataDir Unit := do
  let applied ← Act.read DataDir.genesisAllocApplied
  if applied then Act.on DataDir.dbPart (topUp c.resolvedFounder c.founderExpected)
  else do
    Act.on DataDir.dbPart (topUps (genesisBalances c.resolvedFounder))
    Act.write fun d => { d with genesisAllocApplied := true }

/-- The start of a node, as far as it touches the accounts. No block is finalized yet, and what
`ensure_state_at_tip` returns is not looked at. -/
def startUp : Act Fault DataDir Unit := do
  c.applyGenesisAllocation
  Act.on DataDir.dbPart do
    let tip ← query Tables.getChainTip
    Act.when (0 < tip) (Act.attempt (c.ensureStateAtTip now 0) fun _ => pure ())

/-- The founder's balance is under 99 % of its share. -/
def FounderShort (t : Tables) : Prop := t.Short c.resolvedFounder c.founderExpected

/-- The first start credits the founder that a replay credits. -/
def OneFounder (first : Blockchain) : Prop :=
  genesisBalances first.genesisFounder = genesisBalances c.config.founderAddress ∧
  genesisBalances c.resolvedFounder = genesisBalances c.config.founderAddress

end Blockchain

/-! ## The allocation -/

theorem genesisBalances_eq (founder : String) : genesisBalances founder =
    ((Dict.set [] (orElse founder defaultFounderAddress) founderAmountAbs).set ecosystemAddress 22100000).set
      treasuryAddress 22100000 := by
  have hfounder : truncate 38454000 = founderAmountAbs := by decide
  have hpool : truncate 22100000 = 22100000 := by decide
  unfold genesisBalances buildAllocations
  simp only [List.foldl, reduceCtorEq, if_true, if_false, hfounder, hpool]

theorem genesisBalances_keyed (founder : String) : (genesisBalances founder).Keyed := by
  have hnil : Dict.Keyed ([] : Dict String Int) := List.nodup_nil
  rw [genesisBalances_eq]
  exact ((hnil.set _ _).set _ _).set _ _

theorem genesisBalances_nonneg {founder : String} {e : String × Int} (h : e ∈ genesisBalances founder) : 0 ≤ e.2 := by
  rw [genesisBalances_eq] at h
  rcases Dict.mem_set h with h | rfl
  · rcases Dict.mem_set h with h | rfl
    · rcases Dict.mem_set h with h | rfl
      · cases h
      · show 0 ≤ founderAmountAbs
        decide
    · show (0 : ℤ) ≤ 22100000
      decide
  · show (0 : ℤ) ≤ 22100000
    decide

theorem orElse_ne_empty {s t : String} (ht : t ≠ "") : orElse s t ≠ "" := by
  unfold orElse
  by_cases hs : s = ""
  · rw [if_pos hs]
    exact ht
  · rw [if_neg hs]
    exact hs

/-- The founder has a share of its own, even when it is one of the pools. -/
theorem Blockchain.founderExpected_mem (c : Blockchain) :
    (c.resolvedFounder, c.founderExpected) ∈ genesisBalances c.resolvedFounder := by
  have hname : c.resolvedFounder ≠ "" := orElse_ne_empty (by decide)
  obtain ⟨amount, hamount⟩ : ∃ amount, (genesisBalances c.resolvedFounder).get? c.resolvedFounder = some amount := by
    rw [genesisBalances_eq, show orElse c.resolvedFounder defaultFounderAddress = c.resolvedFounder from if_neg hname,
      Dict.get?_set, Dict.get?_set, Dict.get?_set, if_pos rfl]
    by_cases ht : c.resolvedFounder = treasuryAddress
    · exact ⟨_, if_pos ht⟩
    · rw [if_neg ht]
      by_cases he : c.resolvedFounder = ecosystemAddress
      · exact ⟨_, if_pos he⟩
      · exact ⟨_, if_neg he⟩
  have hexpected : c.founderExpected = amount := by
    unfold Blockchain.founderExpected
    rw [hamount]
    rfl
  rw [hexpected]
  exact Dict.mem_of_get? hamount

/-- Right after the allocation nobody is short of a share. -/
theorem not_short_of_allocated {t u : Tables} {founder : String}
    (h : t.accounts = (u.resetAccounts (genesisBalances founder)).accounts) {e : String × Int}
    (he : e ∈ genesisBalances founder) : ¬ t.Short e.1 e.2 := by
  have hrow : t.getAccount e.1 = some { balance := e.2, nonce := 0, code := none, storage := none } := by
    have hput := Table.get_foldl_put
      (fun v : Int => ({ balance := v, nonce := 0, code := none, storage := none } : Account))
      (genesisBalances_keyed founder) .empty e.1
    unfold Tables.getAccount
    rw [h]
    refine hput.trans ?_
    rw [(genesisBalances_keyed founder).get?_of_mem he]
    rfl
  have hnonneg : (0 : ℚ) ≤ e.2 := Int.cast_nonneg (genesisBalances_nonneg he)
  unfold Tables.Short Tables.getBalance
  rw [hrow]
  show ¬ (e.2 : ℚ) < e.2 * (99 / 100)
  linarith

/-! ## The top-ups -/

theorem blocks_setBalance (address : String) (balance : ℚ) (db : Db) :
    (db.write (Tables.setBalance address balance)).live.blocks = db.live.blocks := rfl

theorem topUp_full {address : String} {amount : Int} {db : Db} (h : ¬ db.live.Short address amount) :
    topUp address amount db = (.ok (), db) := by
  unfold topUp
  simp only [bind_run, query_run, id, when_neg h, pure_run]

theorem topUp_short {address : String} {amount : Int} {db : Db} (h : db.live.Short address amount) :
    topUp address amount db = (.ok (), db.write (Tables.setBalance address amount)) := by
  unfold topUp
  simp only [bind_run, query_run, id, when_pos h]
  rfl

theorem topUps_full {alloc : Dict String Int} {db : Db} (h : ∀ e ∈ alloc, ¬ db.live.Short e.1 e.2) :
    topUps alloc db = (.ok (), db) := by
  induction alloc with
  | nil => rfl
  | cons e alloc ih =>
    unfold topUps
    rw [bind_run, topUp_full (h e (List.mem_cons_self ..))]
    exact ih fun e' he' => h e' (List.mem_cons_of_mem _ he')

theorem topUps_blocks (alloc : Dict String Int) {db : Db} (hclosed : db.pending = none) :
    ∃ db', topUps alloc db = (.ok (), db') ∧ db'.pending = none ∧ db'.live.blocks = db.live.blocks := by
  induction alloc generalizing db with
  | nil => exact ⟨db, rfl, hclosed, rfl⟩
  | cons e alloc ih =>
    unfold topUps
    by_cases hs : db.live.Short e.1 e.2
    · obtain ⟨db', hrun, hpending, hblocks⟩ := @ih (db.write (Tables.setBalance e.1 e.2)) rfl
      refine ⟨db', ?_, hpending, hblocks.trans rfl⟩
      rw [bind_run, topUp_short hs]
      exact hrun
    · obtain ⟨db', hrun, hpending, hblocks⟩ := ih hclosed
      refine ⟨db', ?_, hpending, hblocks⟩
      rw [bind_run, topUp_full hs]
      exact hrun

namespace Blockchain

variable {c first : Blockchain} {now : Int} {len : ℕ}

theorem applyGenesisAllocation_applied {db db' : Db}
    (h : topUp c.resolvedFounder c.founderExpected db = (.ok (), db')) :
    c.applyGenesisAllocation ⟨db, true⟩ = (.ok (), ⟨db', true⟩) := by
  unfold applyGenesisAllocation
  simp only [bind_run, read_run, if_true]
  unfold Act.on
  rw [show DataDir.dbPart.get (⟨db, true⟩ : DataDir) = db from rfl, h]
  rfl

theorem applyGenesisAllocation_first {db db' : Db} (h : topUps (genesisBalances c.resolvedFounder) db = (.ok (), db')) :
    c.applyGenesisAllocation ⟨db, false⟩ = (.ok (), ⟨db', true⟩) := by
  unfold applyGenesisAllocation
  simp only [bind_run, read_run, Bool.false_eq_true, if_false]
  unfold Act.on
  rw [show DataDir.dbPart.get (⟨db, false⟩ : DataDir) = db from rfl, h]
  rfl

theorem startUp_idle {db : Db} (hfull : ¬ c.FounderShort db.live) (hroot : c.TipRoot db.live) :
    c.startUp now ⟨db, true⟩ = (.ok (), ⟨db, true⟩) := by
  have happly : c.applyGenesisAllocation ⟨db, true⟩ = (.ok (), ⟨db, true⟩) :=
    applyGenesisAllocation_applied (topUp_full hfull)
  unfold startUp
  refine (bind_of_ok happly).trans ?_
  unfold Act.on Act.when
  simp only [bind_run, query_run]
  by_cases htip : 0 < db.live.getChainTip
  · rw [show DataDir.dbPart.get (⟨db, true⟩ : DataDir) = db from rfl, if_pos htip]
    unfold Act.attempt
    rw [hroot.ensureStateAtTip]
    rfl
  · rw [show DataDir.dbPart.get (⟨db, true⟩ : DataDir) = db from rfl, if_neg htip]
    rfl

theorem startUp_short {db : Db} (hshort : c.FounderShort db.live) (htip : 0 < db.live.getChainTip) {d : BlockDict}
    (hd : db.live.getBlock db.live.getChainTip = some d) :
    c.startUp now ⟨db, true⟩ = (.ok (),
      ⟨if strip d.stateRoot = "" ∨
          c.computeStateRoot (db.live.setBalance c.resolvedFounder c.founderExpected) = strip d.stateRoot then
        db.write (Tables.setBalance c.resolvedFounder c.founderExpected)
      else (c.reorgToAncestor now 0 db.live.getChainTip
        (db.write (Tables.setBalance c.resolvedFounder c.founderExpected))).2, true⟩) := by
  let db₁ : Db := db.write (Tables.setBalance c.resolvedFounder c.founderExpected)
  have happly : c.applyGenesisAllocation ⟨db, true⟩ = (.ok (), ⟨db₁, true⟩) :=
    applyGenesisAllocation_applied (topUp_short hshort)
  have hlive : db₁.live = db.live.setBalance c.resolvedFounder c.founderExpected := rfl
  have htip₁ : db₁.live.getChainTip = db.live.getChainTip := rfl
  have hd₁ : db₁.live.getBlock db.live.getChainTip = some d := hd
  have hensure : c.ensureStateAtTip now 0 db₁ =
      if strip d.stateRoot = "" ∨ c.computeStateRoot db₁.live = strip d.stateRoot then (.ok (), db₁)
      else c.reorgToAncestor now 0 db.live.getChainTip db₁ := by
    unfold ensureStateAtTip
    simp only [bind_run, query_run, id, htip₁, if_neg (not_le.mpr htip), hd₁]
    split <;> rfl
  unfold startUp
  refine (bind_of_ok happly).trans ?_
  unfold Act.on Act.when
  simp only [bind_run, query_run]
  rw [show DataDir.dbPart.get (⟨db₁, true⟩ : DataDir) = db₁ from rfl, htip₁, if_pos htip]
  unfold Act.attempt
  rw [hensure, ← hlive]
  by_cases hroot : strip d.stateRoot = "" ∨ c.computeStateRoot db₁.live = strip d.stateRoot
  · rw [if_pos hroot, if_pos hroot]
    rfl
  · rw [if_neg hroot, if_neg hroot]
    show _ = ((.ok (), ⟨(c.reorgToAncestor now 0 db.live.getChainTip db₁).2, true⟩) : Except Fault Unit × DataDir)
    rcases c.reorgToAncestor now 0 db.live.getChainTip db₁ with ⟨f | u, db₂⟩
    · rfl
    · rfl

theorem startUp_short_cases {db : Db} (hshort : c.FounderShort db.live) (htip : db.live.getChainTip = 1) {d : BlockDict}
    (hd : db.live.getBlock 1 = some d) :
    ∃ db', c.startUp now ⟨db, true⟩ = (.ok (), ⟨db', true⟩) ∧
      (db' = db.write (Tables.setBalance c.resolvedFounder c.founderExpected) ∨
        db' = (c.reorgToAncestor now 0 1 (db.write (Tables.setBalance c.resolvedFounder c.founderExpected))).2) := by
  have hrun := @startUp_short c now db hshort (by rw [htip]; decide) d (by rw [htip]; exact hd)
  rw [htip] at hrun
  refine ⟨_, hrun, ?_⟩
  split
  · exact .inl rfl
  · exact .inr rfl

theorem growth_quiet (g : Growth c len)
    (h : ∀ i, i < len → ¬ c.BurnShows (c.burnedIn (g.now i) (g.block i) (g.nodes i).db)
      (c.rewarded (g.now i) (g.block i) (g.nodes i).db)) {k : ℕ} (hk : k ≤ len) : QuietRun c (g.nodes 0) (g.nodes k) := by
  induction k with
  | zero => exact .refl _
  | succ k ih => exact .accepted (ih (Nat.le_of_succ_le hk)) (g.accepts k hk) (h k hk)

theorem firstStart_blocks {engine : Bool} {start : ℤ} (hstart : fitsInt64 start = true) {fresh db₀ db : Db}
    (hclosed : fresh.pending = none) (hblocks : fresh.file.blocks = .empty) (haccounts : fresh.file.accounts = .empty)
    (hgen : first.ensureGenesis start engine fresh = (.ok (), db₀))
    (halloc : c.applyGenesisAllocation ⟨db₀, false⟩ = (.ok (), ⟨db, true⟩)) :
    db.live.blocks = Table.empty.put 0 (first.genesisBlock start engine).toDict := by
  obtain ⟨db₁, hrun, hpending, hgenesis, -⟩ := ensureGenesis_run (c := first) engine hclosed hblocks haccounts hstart
  obtain rfl : db₁ = db₀ := congrArg Prod.snd (hrun.symm.trans hgen)
  obtain ⟨db₂, htops, -, hkept⟩ := topUps_blocks (genesisBalances c.resolvedFounder) hpending
  obtain rfl : db₂ = db := congrArg (fun r => r.2.db) ((applyGenesisAllocation_first htops).symm.trans halloc)
  have hlive : db₁.live = db₁.file := Store.live_closed hpending
  rw [hkept, hlive, hgenesis]

theorem firstStart_full (hone : c.OneFounder first) {engine : Bool} {start : ℤ} (hstart : fitsInt64 start = true)
    {fresh db₀ db : Db} (hclosed : fresh.pending = none) (hblocks : fresh.file.blocks = .empty)
    (haccounts : fresh.file.accounts = .empty) (hgen : first.ensureGenesis start engine fresh = (.ok (), db₀))
    (halloc : c.applyGenesisAllocation ⟨db₀, false⟩ = (.ok (), ⟨db, true⟩)) :
    db = db₀ ∧ ¬ c.FounderShort db.live := by
  obtain ⟨db₁, hrun, hpending, -, hacc, -⟩ := ensureGenesis_run (c := first) engine hclosed hblocks haccounts hstart
  obtain rfl : db₁ = db₀ := congrArg Prod.snd (hrun.symm.trans hgen)
  have hlive : db₁.live = db₁.file := Store.live_closed hpending
  rw [← hlive, hone.1, ← hone.2] at hacc
  have hfull : ∀ e ∈ genesisBalances c.resolvedFounder, ¬ db₁.live.Short e.1 e.2 :=
    fun e he => not_short_of_allocated hacc he
  have hresult := applyGenesisAllocation_first (topUps_full hfull)
  obtain rfl : db₁ = db := congrArg (fun r => r.2.db) (hresult.symm.trans halloc)
  exact ⟨rfl, hfull (c.resolvedFounder, c.founderExpected) c.founderExpected_mem⟩

theorem Grown.tipRoot {g : Growth c len} (hg : Grown g len)
    (hs : ∀ i, i < len → c.Replayable (g.now i) (g.block i) (g.preserve i) (g.nodes i)) :
    c.TipRoot (g.nodes len).db.live := by
  intro hpos d hd
  cases len with
  | zero =>
    rw [hg.tip] at hpos
    exact absurd hpos (lt_irrefl _)
  | succ k =>
    rw [hg.tip, hg.blocks k (Nat.lt_succ_self k)] at hd
    obtain rfl := Option.some.inj hd
    right
    have hroot := (hg.root hs (Nat.lt_succ_self k)).1
    show _ = strip (g.stored k).stateRoot
    rw [hroot]
    exact (strip_hashData _).symm

/-- A restart leaves the accounts of a grown chain alone when the founder still has its share and no
block has shown its burn twice, or when the chain can be replayed and a top-up would be noticed. -/
theorem restart_neutral (g : Growth c len) {engine : Bool} {start : ℤ} (hstart : fitsInt64 start = true)
    {fresh db₀ : Db} (hclosed : fresh.pending = none) (hblocks : fresh.file.blocks = .empty)
    (haccounts : fresh.file.accounts = .empty) (hgen : first.ensureGenesis start engine fresh = (.ok (), db₀))
    (halloc : c.applyGenesisAllocation ⟨db₀, false⟩ = (.ok (), ⟨(g.nodes 0).db, true⟩))
    (hcond :
      (¬ c.FounderShort (g.nodes len).db.live ∧
        ∀ i, i < len → ¬ c.BurnShows (c.burnedIn (g.now i) (g.block i) (g.nodes i).db)
          (c.rewarded (g.now i) (g.block i) (g.nodes i).db)) ∨
      (c.OneFounder first ∧
        (∀ i, i < len → c.Replayable (g.now i) (g.block i) (g.preserve i) (g.nodes i)) ∧
        (c.FounderShort (g.nodes len).db.live →
          c.computeStateRoot ((g.nodes len).db.live.setBalance c.resolvedFounder c.founderExpected) ≠
            c.computeStateRoot (g.nodes len).db.live))) :
    ∃ d, c.startUp now ⟨(g.nodes len).db, true⟩ = (.ok (), d) ∧
      d.db.live.accounts = (g.nodes len).db.live.accounts := by
  have hgenesis := firstStart_blocks hstart hclosed hblocks haccounts hgen halloc
  rcases hcond with ⟨hfull, hquiet⟩ | ⟨hone, hs, hnoticed⟩
  -- no burn shows, so the root of the tip is that of the accounts
  · have hlinked : Linked (g.nodes 0).db.live := .single hgenesis rfl
    have hroot := (growth_quiet g hquiet (le_refl len)).tipRoot (fun h d hd => hlinked.keyed hd) fun hpos => by
      have htip : (g.nodes 0).db.live.getChainTip = 0 := by
        unfold Tables.getChainTip
        rw [hgenesis]
        rfl
      rw [htip] at hpos
      exact absurd hpos (lt_irrefl _)
    exact ⟨_, startUp_idle hfull hroot.2, rfl⟩
  · obtain ⟨hsame, hstocked⟩ := firstStart_full hone hstart hclosed hblocks haccounts hgen halloc
    rw [← hsame] at hgen
    obtain ⟨hg, hbase, -⟩ := grown_of_genesis g hstart hclosed hblocks haccounts hgen hone.1 hs
    by_cases hshort : c.FounderShort (g.nodes len).db.live
    · cases len with
      | zero => exact absurd hshort hstocked
      | succ k =>
        have hlt : k < k + 1 := Nat.lt_succ_self k
        have htip : 0 < (g.nodes (k + 1)).db.live.getChainTip := by
          rw [hg.tip]
          push_cast
          omega
        have hd : (g.nodes (k + 1)).db.live.getBlock (g.nodes (k + 1)).db.live.getChainTip =
            some (g.stored k).toDict := by
          rw [hg.tip]
          exact hg.blocks k hlt
        have hroot := (hg.root hs hlt).1
        have hstrip : strip (g.stored k).toDict.stateRoot = c.computeStateRoot (g.nodes (k + 1)).db.live := by
          show strip (g.stored k).stateRoot = _
          rw [hroot]
          exact strip_hashData _
        -- the top-up of the founder is noticed
        have hdrift : ¬ (strip (g.stored k).toDict.stateRoot = "" ∨
            c.computeStateRoot ((g.nodes (k + 1)).db.live.setBalance c.resolvedFounder c.founderExpected) =
              strip (g.stored k).toDict.stateRoot) := by
          rw [hstrip]
          rintro (hempty | heq)
          · have hlen : (c.computeStateRoot (g.nodes (k + 1)).db.live).toList.length = 64 := Digest.sha256Hex_length _
            rw [hempty] at hlen
            cases hlen
          · exact hnoticed hshort heq
        have hfloor : ¬ (0 < (0 : ℤ) ∧ ((k + 1 : ℕ) : ℤ) < 0) := fun h => absurd h.1 (lt_irrefl _)
        -- and the replay takes it back
        let topped : Db := (g.nodes (k + 1)).db.write (Tables.setBalance c.resolvedFounder c.founderExpected)
        have hstored : ∀ d, (g.nodes (k + 1)).db.live.getBlock (k + 1 : ℕ) = some d → d.stateRoot = "" ∨
            d.stateRoot = c.computeStateRoot (g.nodes (k + 1)).db.live := by
          intro d hd'
          rw [hg.blocks k hlt] at hd'
          cases hd'
          exact .inr hroot
        obtain ⟨db', hreorg, -, hacc, -⟩ := @Grown.replays c (k + 1) g hg hs hbase (k + 1) (le_refl _) hstored
          (hg.root hs hlt).2 0 now hfloor topped rfl rfl rfl
        have hrun := @startUp_short c now (g.nodes (k + 1)).db hshort htip _ hd
        rw [if_neg hdrift, hg.tip, hreorg] at hrun
        exact ⟨_, hrun, hacc⟩
    · exact ⟨_, startUp_idle hshort (hg.tipRoot hs), rfl⟩

theorem freshNode_allocated : plain.applyGenesisAllocation ⟨(freshNode true).db, false⟩ =
    (.ok (), ⟨(freshNode true).db, true⟩) :=
  applyGenesisAllocation_first (topUps_full fun _ he => not_short_of_allocated (freshNode_blocks true).2.2 he)

theorem restart_neutral_second : ∃ (g : Growth plain 1) (d : DataDir), g.nodes 0 = freshNode true ∧
    (g.nodes 1).db.live.getBalance "v" = 50 ∧ plain.startUp 3 ⟨(g.nodes 1).db, true⟩ = (.ok (), d) ∧
    d.db.live.accounts = (g.nodes 1).db.live.accounts := by
  obtain ⟨g, hstart, hrun, hreward, hfounder, hs⟩ := second_growth
  have halloc : plain.applyGenesisAllocation ⟨(freshNode true).db, false⟩ = (.ok (), ⟨(g.nodes 0).db, true⟩) := by
    rw [hstart]
    exact freshNode_allocated
  have hfull : ¬ plain.FounderShort (g.nodes 1).db.live := by
    have hname : plain.resolvedFounder = defaultFounderAddress := by decide
    have hshare : plain.founderExpected = 38454000 := by decide
    unfold FounderShort Tables.Short
    rw [hname, hshare, hfounder]
    norm_num
  have hone : plain.OneFounder plain := ⟨genesisBalances_founder (.inr (.inl rfl)), by decide⟩
  obtain ⟨d, hup, hacc⟩ := @restart_neutral plain plain 3 1 g true 1 (by decide) emptyDb (freshNode true).db rfl rfl rfl
    (freshNode_run true) halloc (.inr ⟨hone, hs, fun hshort => absurd hshort hfull⟩)
  exact ⟨g, d, hstart, hreward, hup, hacc⟩

def minerFounder : Blockchain := { plain with config := { plain.config with minerAddress := "m" } }

def minerNode : Node := { db := (minerFounder.ensureGenesis 1 true emptyDb).2, slashing := none }

theorem minerNode_run : minerFounder.ensureGenesis 1 true emptyDb = (.ok (), minerNode.db) ∧
    minerNode.db.live.blocks = Table.empty.put 0 (minerFounder.genesisBlock 1 true).toDict ∧
    minerNode.db.pending = none ∧ minerNode.db.live.accounts =
      (minerNode.db.live.resetAccounts (genesisBalances minerFounder.resolvedFounder)).accounts := by
  obtain ⟨db, hrun, hpending, hblocks, hacc, -⟩ := @ensureGenesis_run minerFounder 1 true emptyDb rfl rfl rfl (by decide)
  have hdb : minerNode.db = db := congrArg Prod.snd hrun
  have hlive : db.live = db.file := Store.live_closed hpending
  have hname : minerFounder.genesisFounder = minerFounder.resolvedFounder := by decide
  rw [hdb, hlive, ← hname]
  exact ⟨hrun, hblocks, hpending, hacc.trans (accounts_resetAccounts _ _ _)⟩

def spendBlock : Block :=
  { firstBlock [{ transferOf (.int 1000000) with fromAddr := "m" }] with
    parentHash := (minerFounder.genesisBlock 1 true).hash, miner := "m" }

def minerSpent : Node := (minerFounder.blockBody 2 spendBlock true minerNode).2

def spentBlock : Block := (minerFounder.blockBody 2 spendBlock true minerNode).1.toOption.getD spendBlock

def spentDb : Db := minerSpent.db.commit

theorem spendBlock_accepted :
    minerFounder.addBlock 2 spendBlock true minerNode = (.ok spentBlock, { minerSpent with db := spentDb }) := by
  have hadmitted : minerFounder.admitBlock minerNode spendBlock = .ok () :=
    admitBlock_genesis minerNode_run.2.1 rfl rfl rfl (by decide) (by decide)
  have hok : (minerFounder.blockBody 2 spendBlock true minerNode).1.toOption.isSome = true := by decide +kernel
  rcases hrun : minerFounder.blockBody 2 spendBlock true minerNode with ⟨f | b', n₁⟩
  · rw [hrun] at hok
    cases hok
  · refine (addBlock_accepted hadmitted minerNode_run.2.2.1 hrun).trans ?_
    unfold spentDb minerSpent spentBlock
    rw [hrun]
    rfl

theorem spentDb_balance : spentDb.live.getBalance "m" = 18727024999979 / 500000 ∧
    spentDb.live.getBalance "b" = 1000000 := by decide +kernel

/-- A replay stops at the first block when one of its transactions does not go through. -/
theorem reorg_stuck {db db' : Db} (hclosed : db.pending = none) (htip : db.live.getChainTip = 1) {d : BlockDict}
    (hd : db.live.getBlock 1 = some d) {f : Fault}
    (hfail : c.applyTransactions now (Block.fromDict c.host now d.asPeer).height (Block.fromDict c.host now d.asPeer).miner
      (Block.fromDict c.host now d.asPeer).transactions
      (db.opened.exec (Tables.resetAccounts (genesisBalances c.config.founderAddress))) = (.error f, db')) :
    c.reorgToAncestor now 0 1 db = (.error f, db'.rollback) := by
  have hstart : (db.opened.exec (Tables.resetAccounts (genesisBalances c.config.founderAddress))).live.getBlock 1 =
      some d := by
    have hopened : db.opened.live = db.live := Store.live_opened hclosed
    show (db.opened.live.resetAccounts _).getBlock 1 = some d
    rw [hopened]
    exact hd
  have hbody : c.replayFromGenesis now 1 1 db.opened = (.error f, db') := by
    unfold replayFromGenesis
    have hbind : bindInts [1] db.opened = (.ok (), db.opened) := bindInts_ok.mpr ⟨by decide, rfl⟩
    refine (bind_of_ok hbind).trans ?_
    rw [when_neg (lt_irrefl (1 : ℤ))]
    refine (bind_of_ok (pure_run () _)).trans ?_
    refine (bind_of_ok (statement_run _ _)).trans ?_
    show (c.replayBlocks now 1 1 >>= _) _ = _
    unfold replayBlocks
    simp only [bind_run, query_run, hstart, hfail]
  unfold reorgToAncestor
  rw [if_neg (fun h => absurd h.1 (lt_irrefl (0 : ℤ)))]
  simp only [bind_run, query_run]
  rw [htip, if_neg (lt_irrefl (1 : ℤ))]
  exact atomically_raised (P := Part.whole) nestedTransaction (Store.begin_closed hclosed) hbody

def toppedDb : Db := spentDb.write (Tables.setBalance minerFounder.resolvedFounder minerFounder.founderExpected)

def replayedBlock : Block := Block.fromDict minerFounder.host 3 spentBlock.toDict.asPeer

def replayedTxs : Except Fault (List Transaction) × Db :=
  minerFounder.applyTransactions 3 replayedBlock.height replayedBlock.miner replayedBlock.transactions
    (toppedDb.opened.exec (Tables.resetAccounts (genesisBalances minerFounder.config.founderAddress)))

theorem toppedDb_balance : toppedDb.live.getBalance "m" = 38454000 ∧ toppedDb.live.getBalance "b" = 1000000 := by
  decide +kernel

theorem replayedTxs_stuck : replayedTxs.1.toOption.isSome = false ∧
    replayedTxs.2.rollback.live.getBalance "m" = 38454000 ∧ replayedTxs.2.rollback.live.getBalance "b" = 1000000 := by
  decide +kernel

theorem spentDb_chain : spentDb.live.getChainTip = 1 ∧ spentDb.live.getBlock 1 = some spentBlock.toDict := by
  obtain ⟨r⟩ := addBlock_ok spendBlock_accepted
  have hlinked : Linked minerNode.db.live := .single minerNode_run.2.1 rfl
  have hkeyed : Keyed minerNode.db.live := fun h d hd => hlinked.keyed hd
  have hheight : spentBlock.toDict.height = spendBlock.height := r.height_eq
  obtain ⟨htip, hblock⟩ := tip_putBlock hkeyed (admitBlock_ok r.admitted).structured hheight
  exact ⟨(chainTip_congr r.blocks).trans htip, (getBlock_congr r.blocks 1).trans hblock⟩

theorem spentDb_short : minerFounder.FounderShort spentDb.live := by
  have hname : minerFounder.resolvedFounder = "m" := by decide
  have hshare : minerFounder.founderExpected = 38454000 := by decide
  unfold FounderShort Tables.Short
  rw [hname, hshare, spentDb_balance.1]
  norm_num

theorem toppedDb_chain : toppedDb.live.getChainTip = 1 ∧ toppedDb.live.getBlock 1 = some spentBlock.toDict := by
  have hblocks : toppedDb.live.blocks = spentDb.live.blocks := blocks_setBalance _ _ _
  exact ⟨(chainTip_congr hblocks).trans spentDb_chain.1, (getBlock_congr hblocks 1).trans spentDb_chain.2⟩

theorem toppedDb_replay : (minerFounder.reorgToAncestor 3 0 1 toppedDb).2 = replayedTxs.2.rollback := by
  have hnone := replayedTxs_stuck.1
  have hrun : replayedTxs = (replayedTxs.1, replayedTxs.2) := Prod.mk.eta.symm
  cases hout : replayedTxs.1 with
  | error f =>
    rw [hout] at hrun
    exact congrArg Prod.snd (@reorg_stuck minerFounder 3 toppedDb replayedTxs.2 rfl toppedDb_chain.1 _ toppedDb_chain.2 f hrun)
  | ok txs =>
    rw [hout] at hnone
    cases hnone

/-- The miner spends and the node starts again: the replay has another founder and stops, and the
top-up stays. -/
theorem restart_creates_coins :
    ∃ b' n d, minerFounder.ensureGenesis 1 true emptyDb = (.ok (), minerNode.db) ∧
      minerFounder.applyGenesisAllocation ⟨minerNode.db, false⟩ = (.ok (), ⟨minerNode.db, true⟩) ∧
      minerFounder.addBlock 2 spendBlock true minerNode = (.ok b', n) ∧
      minerFounder.startUp 3 ⟨n.db, true⟩ = (.ok (), d) ∧
      n.db.live.getBalance "m" = 18727024999979 / 500000 ∧ d.db.live.getBalance "m" = 38454000 ∧
      n.db.live.getBalance "b" = 1000000 ∧ d.db.live.getBalance "b" = 1000000 := by
  obtain ⟨hgen, -, -, hacc⟩ := minerNode_run
  have halloc := @applyGenesisAllocation_first minerFounder _ _ (topUps_full fun e he => not_short_of_allocated hacc he)
  obtain ⟨db', hup, hdb⟩ := @startUp_short_cases minerFounder 3 spentDb spentDb_short spentDb_chain.1 _ spentDb_chain.2
  have hend : db'.live.getBalance "m" = 38454000 ∧ db'.live.getBalance "b" = 1000000 := by
    rcases hdb with rfl | rfl
    · exact toppedDb_balance
    · have hreplay := replayedTxs_stuck.2
      rw [← toppedDb_replay] at hreplay
      exact hreplay
  exact ⟨spentBlock, _, ⟨db', true⟩, hgen, halloc, spendBlock_accepted, hup, spentDb_balance.1, hend.1, spentDb_balance.2, hend.2⟩

end Blockchain

end AbsoluteChain
