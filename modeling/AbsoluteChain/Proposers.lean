import AbsoluteChain.Checkpoints

/-!
# Proposers

How the mining loop of `main.py` chooses who proposes the next block:
`consensus/validator_selection.py`, the fallbacks, and the seed and slot counter
that a node keeps in memory while it runs.
-/

namespace AbsoluteChain

open Python Actions Transactions Runs Blockchain

/-! ## Validator selection -/

structure ValidatorSelection where
  entropySeed : String
  epoch : Int
  deriving DecidableEq

/-- `int(s, 16)` of a digest. -/
def hexNat (s : String) : Nat := (parseHexDigits 0 s.toList).getD 0

namespace ValidatorSelection

def start : ValidatorSelection := { entropySeed := hashData "genesis", epoch := 0 }

variable (s : ValidatorSelection)

def updateSeed (blockHash : String) : ValidatorSelection :=
  { s with entropySeed := hashData (s.entropySeed ++ blockHash) }

def hashInt (parts : List String) : Nat :=
  hexNat (hashData ("|".intercalate (s.entropySeed :: strInt s.epoch :: parts)))

def canonicalValidators (validators : Dict String ℚ) : List (String × Int) :=
  sortedBy Prod.fst (validators.map fun e => (e.1, max 0 (truncate e.2)))

def selectProposer (validators : Dict String ℚ) (slot : Int) : Option String :=
  ((sortedBy (fun e => s.hashInt ["proposer", strInt slot, e.1]) (canonicalValidators validators)).head?).map Prod.fst

def pick (target : Int) : Int → List (String × Int) → Option String
  | _, [] => none
  | cumulative, (validator, stake) :: rest =>
    if target < cumulative + stake then some validator else pick target (cumulative + stake) rest

def selectProposerWeighted (validators : Dict String ℚ) (slot : Int) : Option String :=
  let canonical := canonicalValidators validators
  let totalStake := (canonical.map Prod.snd).sum
  if totalStake = 0 then s.selectProposer validators slot
  else
    match pick ((s.hashInt ["weighted-proposer", strInt slot] : Int) % totalStake) 0 canonical with
    | some validator => some validator
    | none => canonical.head?.map Prod.fst

end ValidatorSelection

/-! ## The engine's own choice -/

namespace ConsensusEngine

variable (s : ConsensusEngine)

def active : List (String × PosValidator) := s.validators.filter fun e => e.2.isActive

def getTotalStake : ℚ := (s.active.map fun e => e.2.stake).sum

def deterministicPick (totalStake : ℚ) : ℚ :=
  let digest := hashData ("abs-proposer:" ++ strInt s.currentEpoch ++ ":" ++ strInt s.currentSlot)
  (hexNat (String.ofList (digest.toList.take 16)) : ℚ) / 16 ^ 16 * totalStake

def reach (target : ℚ) : ℚ → List (String × PosValidator) → Option String
  | _, [] => none
  | current, (address, v) :: rest =>
    if target ≤ current + v.stake then some address else reach target (current + v.stake) rest

def selectProposer : Option String :=
  if s.getTotalStake = 0 then none
  else reach (s.deterministicPick s.getTotalStake) 0 (sortedBy Prod.fst s.active)

end ConsensusEngine

/-! ## A mining node -/

/-- How a node is set up to mine. Its own addresses are `chain.config.minerAddress`,
`chain.config.signingAddress` and the wallet; `mineOnly` is what the devnet manifest says. -/
structure MiningSetup where
  chain : Blockchain
  epochs : EpochManager
  wallet : Option String
  testnetExpectedValidators : Int
  mineOnly : List String

/-- A node while it runs. The loop writes the last proposer into the configuration. -/
structure Miner where
  full : FullNode
  selection : ValidatorSelection
  minerAddress : String

def tipHash (db : Db) : Option String :=
  match db.live.getLastBlock with
  | none => none
  | some last => if last.hash = "" then none else some last.hash

namespace Miner

variable (m : MiningSetup)

/-- A node that comes up on a database. -/
def boot (db : Db) : Miner :=
  { full := .start m.epochs db
    selection := match tipHash db with
      | none => .start
      | some hash => ValidatorSelection.start.updateSeed hash
    minerAddress := m.chain.config.minerAddress }

def chain (n : Miner) : Blockchain :=
  { m.chain with config := { m.chain.config with minerAddress := n.minerAddress } }

def stakes (n : Miner) : Dict String ℚ := n.full.node.db.live.getValidators.map fun v => (v.1, v.2.stake)

def multiValidatorDevnet : Bool := 3 ≤ m.testnetExpectedValidators

def mayMine (address : String) : Bool := m.chain.host.lower address ∈ m.mineOnly

def candidates (validators : Dict String ℚ) : Dict String ℚ :=
  if multiValidatorDevnet m ∧ m.mineOnly ≠ [] then validators.filter fun v => mayMine m v.1 else validators

def currentSlot (n : Miner) : Int := n.full.adapter.engine.currentSlot

def fallback (n : Miner) : String :=
  let own := orElse n.minerAddress "genesis"
  if n.full.adapter.engine.validators = [] then own else orElse (n.full.adapter.engine.selectProposer.getD "") own

def nextProposer (n : Miner) : String :=
  let validators := n.stakes
  let solo := if m.chain.config.signingAddress ≠ "" ∧ m.wallet.isSome ∧ validators.length ≤ 1 then
    m.chain.config.signingAddress else ""
  let drawn :=
    if candidates m validators = [] then none
    else n.selection.selectProposerWeighted (candidates m validators) n.currentSlot
  let proposer := orElse solo (orElse (drawn.getD "") n.fallback)
  if multiValidatorDevnet m ∧ m.mineOnly ≠ [] ∧ ¬ mayMine m proposer then
    let eligible := (validators.filter fun v => mayMine m v.1).map Prod.fst
    if eligible = [] then proposer else eligible.getD (n.currentSlot % eligible.length).toNat proposer
  else proposer

def forge (now : Int) (b : Block) (proposer : String) (n : Miner) : Miner :=
  let n := { n with minerAddress := if proposer = "genesis" then n.minerAddress else proposer }
  match FullNode.addBlock (n.chain m) now b false n.full with
  | (.error _, full) => { n with full := full }
  | (.ok stored, full) =>
    { n with
      full := (FullNode.attest now proposer stored.hash full).2.markBlockProduced
      selection := n.selection.updateSeed stored.hash }

/-- What may happen to a node: it comes up on a database, forges a block, imports one or is reorganised. -/
inductive Event where
  | start (db : Db)
  | forge (now : Int) (b : Block) (proposer : String)
  | importBlock (now : Int) (d : PeerBlock)
  | reorgToAncestor (now height : Int)

def Event.run : Event → Miner → Miner
  | .start db, _ => boot m db
  | .forge now b proposer, n => n.forge m now b proposer
  | .importBlock now d, n => { n with full := (FullNode.importBlock (n.chain m) now d n.full).2 }
  | .reorgToAncestor now height, n => { n with full := (FullNode.reorgToAncestor (n.chain m) now height n.full).2 }

/-! ## What a node remembers -/

/-- What the seed and the slot are made of: the tip a node came up on and the blocks it forged since. -/
structure Memory where
  tip : Option String
  forged : List String
  deriving DecidableEq

namespace Memory

def selection (k : Memory) : ValidatorSelection :=
  k.forged.foldl ValidatorSelection.updateSeed
    (match k.tip with
    | none => .start
    | some hash => ValidatorSelection.start.updateSeed hash)

def slot (k : Memory) : Int := k.forged.length

def next (e : Event) (n : Miner) (k : Memory) : Memory :=
  match e with
  | .start db => { tip := tipHash db, forged := [] }
  | .forge now b proposer =>
    let n := { n with minerAddress := if proposer = "genesis" then n.minerAddress else proposer }
    match (FullNode.addBlock (n.chain m) now b false n.full).1 with
    | .error _ => k
    | .ok stored => { k with forged := k.forged ++ [stored.hash] }
  | .importBlock _ _ => k
  | .reorgToAncestor _ _ => k

def after (db : Db) (events : List Event) : Memory :=
  (events.foldl (fun s e => (e.run m s.1, next m e s.1 s.2)) (boot m db, { tip := tipHash db, forged := [] })).2

end Memory

variable {m : MiningSetup} {n : Miner} {k : Memory}

structure Recalls (n : Miner) (k : Memory) : Prop where
  selection : n.selection = k.selection
  slot : n.currentSlot = k.slot

theorem currentSlot_advance (s : ConsensusEngine) : s.advanceSlot.currentSlot = s.currentSlot + 1 := by
  unfold ConsensusEngine.advanceSlot ConsensusEngine.finalizeCheckpoint
  dsimp only
  split
  · split <;> rfl
  · rfl

theorem currentSlot_vote (s : ConsensusEngine) (v : String) (slot : Int) :
    (s.attest v slot).2.currentSlot = s.currentSlot := by
  unfold ConsensusEngine.attest
  split
  · rfl
  · split <;> rfl

theorem currentSlot_attest (now : Int) (v hash : String) (f : FullNode) :
    (FullNode.attest now v hash f).2.adapter.engine.currentSlot = f.adapter.engine.currentSlot := by
  obtain ⟨board, hboard⟩ := FullNode.attestSlashing_board now v hash f.adapter.engine.currentSlot f
  unfold FullNode.attest
  simp only [Act.bind_run, Act.read_run]
  rcases hr : FullNode.attestSlashing now v hash f.adapter.engine.currentSlot f with ⟨e | ok, f₁⟩
  · rw [hr] at hboard
    have hadapter : f₁.adapter = { f.adapter with board := board } := hboard
    show f₁.adapter.engine.currentSlot = _
    rw [hadapter]
  · rw [hr] at hboard
    have hadapter : f₁.adapter = { f.adapter with board := board } := hboard
    have hslot : f₁.adapter.engine.currentSlot = f.adapter.engine.currentSlot := by rw [hadapter]
    cases ok with
    | true => exact (currentSlot_vote _ _ _).trans hslot
    | false => exact hslot

theorem engine_settled (f : FullNode) (r : Except Fault Block × Node) : (f.settled r).adapter.engine = f.adapter.engine := by
  rcases r with ⟨e | stored, node⟩ <;> rfl

theorem registerValidatorAll_kept (address : String) (stake : ℚ) (f : FullNode) :
    (f.registerValidatorAll address stake).node.db = f.node.db ∧
      (f.registerValidatorAll address stake).adapter.engine.currentSlot = f.adapter.engine.currentSlot := by
  have hadd : (f.adapter.engine.addValidator address stake).2.currentSlot = f.adapter.engine.currentSlot := by
    unfold ConsensusEngine.addValidator
    split <;> rfl
  unfold FullNode.registerValidatorAll
  dsimp only
  split
  · exact ⟨rfl, hadd⟩
  · exact ⟨rfl, hadd⟩

theorem start_kept (epochs : EpochManager) (db : Db) :
    (FullNode.start epochs db).node.db = db ∧ (FullNode.start epochs db).adapter.engine.currentSlot = 0 := by
  have hfold : ∀ (l : List (String × Validator)) (f : FullNode),
      (l.foldl (fun n v => n.registerValidatorAll v.1 v.2.stake) f).node.db = f.node.db ∧
        (l.foldl (fun n v => n.registerValidatorAll v.1 v.2.stake) f).adapter.engine.currentSlot =
          f.adapter.engine.currentSlot := by
    intro l
    induction l with
    | nil => exact fun f => ⟨rfl, rfl⟩
    | cons v l ih =>
      intro f
      obtain ⟨hdb, hslot⟩ := registerValidatorAll_kept v.1 v.2.stake f
      obtain ⟨hdb', hslot'⟩ := ih (f.registerValidatorAll v.1 v.2.stake)
      exact ⟨hdb'.trans hdb, hslot'.trans hslot⟩
  exact hfold _ _

theorem boot_db (db : Db) : (boot m db).full.node.db = db := (start_kept _ db).1

theorem recalls_boot (db : Db) : Recalls (boot m db) { tip := tipHash db, forged := [] } :=
  ⟨rfl, (start_kept _ _).2⟩

theorem recalls_step (e : Event) (h : Recalls n k) : Recalls (e.run m n) (Memory.next m e n k) := by
  cases e with
  | start db => exact recalls_boot db
  | importBlock now d =>
    refine ⟨h.selection, Eq.trans ?_ h.slot⟩
    show (FullNode.importBlock (n.chain m) now d n.full).2.adapter.engine.currentSlot = _
    rw [FullNode.importBlock_run, engine_settled]
    rfl
  | reorgToAncestor now height => exact ⟨h.selection, h.slot⟩
  | forge now b proposer =>
    unfold Event.run Memory.next forge
    dsimp only
    generalize hn : Miner.mk n.full n.selection (if proposer = "genesis" then n.minerAddress else proposer) = n₁
    have hslot : (FullNode.addBlock (n₁.chain m) now b false n.full).2.adapter.engine.currentSlot = k.slot := by
      rw [FullNode.addBlock_run, engine_settled]
      exact h.slot
    rcases hr : FullNode.addBlock (n₁.chain m) now b false n.full with ⟨f | stored, full⟩
    · rw [hr] at hslot
      exact ⟨h.selection, hslot⟩
    · rw [hr] at hslot
      constructor
      · show n.selection.updateSeed stored.hash = _
        rw [h.selection]
        unfold Memory.selection
        rw [List.foldl_append]
        rfl
      · show (FullNode.attest now proposer stored.hash full).2.markBlockProduced.adapter.engine.currentSlot = _
        refine (currentSlot_advance _).trans ?_
        rw [currentSlot_attest, hslot]
        unfold Memory.slot
        rw [List.length_append, List.length_singleton, Nat.cast_add, Nat.cast_one]

theorem recalls_run (db : Db) (events : List Event) : Recalls (run (Event.run m) events (boot m db)) (Memory.after m db events) := by
  have hrun : ∀ (events : List Event) (n : Miner) (k : Memory), Recalls n k →
      Recalls (run (Event.run m) events n)
        (events.foldl (fun s e => (e.run m s.1, Memory.next m e s.1 s.2)) (n, k)).2 := by
    intro events
    induction events with
    | nil => exact fun n k h => h
    | cons e rest ih => exact fun n k h => ih _ _ (recalls_step e h)
  exact hrun events _ _ (recalls_boot db)

/-! ## Two nodes -/

/-- Somebody may be drawn: the manifest does not exclude every active validator, and none has an empty name. -/
structure Drawable (m : MiningSetup) (validators : Dict String ℚ) : Prop where
  candidates : candidates m validators ≠ []
  named : ∀ e ∈ validators, e.1 ≠ ""

theorem pick_mem {target cumulative : Int} {l : List (String × Int)} {v : String}
    (h : ValidatorSelection.pick target cumulative l = some v) : v ∈ l.map Prod.fst := by
  induction l generalizing cumulative with
  | nil => cases h
  | cons e l ih =>
    unfold ValidatorSelection.pick at h
    split at h
    · cases h
      exact List.mem_cons_self
    · exact List.mem_cons_of_mem _ (ih h)

theorem sortedBy_perm {α κ : Type} [LinearOrder κ] (key : α → κ) (l : List α) : (sortedBy key l).Perm l :=
  List.perm_insertionSort _ l

theorem mem_canonical {validators : Dict String ℚ} {e : String × Int}
    (h : e ∈ ValidatorSelection.canonicalValidators validators) : e.1 ∈ validators.map Prod.fst := by
  obtain ⟨d, hd, rfl⟩ := List.mem_map.mp ((sortedBy_perm _ _).mem_iff.mp h)
  exact List.mem_map_of_mem hd

/-- Somebody is drawn, and only from among the candidates. -/
theorem selectProposerWeighted_mem (s : ValidatorSelection) {validators : Dict String ℚ} (hne : validators ≠ []) (slot : Int) :
    ∃ v, s.selectProposerWeighted validators slot = some v ∧ v ∈ validators.map Prod.fst := by
  have hlen : 0 < (ValidatorSelection.canonicalValidators validators).length := by
    unfold ValidatorSelection.canonicalValidators
    rw [(sortedBy_perm _ _).length_eq, List.length_map]
    exact List.length_pos_iff.mpr hne
  obtain ⟨e, rest, hcons⟩ : ∃ e rest, ValidatorSelection.canonicalValidators validators = e :: rest :=
    List.exists_cons_of_length_pos hlen
  unfold ValidatorSelection.selectProposerWeighted
  dsimp only
  split
  · unfold ValidatorSelection.selectProposer
    have hperm := sortedBy_perm (fun e => s.hashInt ["proposer", strInt slot, e.1])
      (ValidatorSelection.canonicalValidators validators)
    generalize sortedBy (fun e => s.hashInt ["proposer", strInt slot, e.1])
      (ValidatorSelection.canonicalValidators validators) = ranked at hperm ⊢
    obtain ⟨d, rest', rfl⟩ : ∃ d rest', ranked = d :: rest' :=
      List.exists_cons_of_length_pos (hperm.length_eq ▸ hlen)
    exact ⟨d.1, rfl, mem_canonical (hperm.mem_iff.mp List.mem_cons_self)⟩
  · split
    · rename_i v hv
      refine ⟨v, rfl, ?_⟩
      obtain ⟨d, hd, rfl⟩ := List.mem_map.mp (pick_mem hv)
      exact mem_canonical hd
    · rw [hcons]
      exact ⟨e.1, rfl, mem_canonical (hcons ▸ List.mem_cons_self)⟩

theorem nextProposer_drawn (htwo : 2 ≤ n.stakes.length) (hdraw : Drawable m n.stakes) :
    some (n.nextProposer m) = n.selection.selectProposerWeighted (candidates m n.stakes) n.currentSlot := by
  obtain ⟨v, hv, hmem⟩ := selectProposerWeighted_mem n.selection hdraw.candidates n.currentSlot
  obtain ⟨e, he, rfl⟩ := List.mem_map.mp hmem
  have hin : e ∈ n.stakes := by
    unfold candidates at he
    split at he
    · exact List.mem_of_mem_filter he
    · exact he
  have hmine : ¬ (multiValidatorDevnet m ∧ m.mineOnly ≠ [] ∧ ¬ mayMine m e.1) := by
    rintro ⟨hdev, hman, hout⟩
    unfold candidates at he
    rw [if_pos ⟨hdev, hman⟩] at he
    exact hout (List.mem_filter.mp he).2
  have hsolo : ¬ (m.chain.config.signingAddress ≠ "" ∧ m.wallet.isSome ∧ n.stakes.length ≤ 1) := by
    rintro ⟨-, -, hone⟩
    omega
  have hfirst : orElse "" (orElse e.1 n.fallback) = e.1 := by
    unfold orElse
    rw [if_pos rfl, if_neg (hdraw.named e hin)]
  unfold nextProposer
  dsimp only
  rw [if_neg hsolo, if_neg hdraw.candidates, hv, Option.getD_some, hfirst, if_neg hmine]

/-- Two nodes whose starts and forged blocks since agree draw the same proposer, whatever else they went through. -/
theorem proposers_agree (m₁ m₂ : MiningSetup) (db₁ db₂ : Db) (events₁ events₂ : List Event) (n₁ n₂ : Miner)
    (hrun₁ : run (Event.run m₁) events₁ (boot m₁ db₁) = n₁) (hrun₂ : run (Event.run m₂) events₂ (boot m₂ db₂) = n₂)
    (hhost : m₁.chain.host = m₂.chain.host)
    (hdevnet : m₁.testnetExpectedValidators = m₂.testnetExpectedValidators) (hmanifest : m₁.mineOnly = m₂.mineOnly)
    (hstakes : n₁.stakes = n₂.stakes) (htwo : 2 ≤ n₁.stakes.length) (hdraw : Drawable m₁ n₁.stakes)
    (hmemory : Memory.after m₁ db₁ events₁ = Memory.after m₂ db₂ events₂) :
    n₁.nextProposer m₁ = n₂.nextProposer m₂ := by
  have hcandidates : candidates m₁ n₁.stakes = candidates m₂ n₂.stakes := by
    unfold candidates multiValidatorDevnet mayMine
    rw [hhost, hdevnet, hmanifest, hstakes]
  have hdraw₂ : Drawable m₂ n₂.stakes := ⟨hcandidates ▸ hdraw.candidates, hstakes ▸ hdraw.named⟩
  have h₁ := hrun₁ ▸ recalls_run (m := m₁) db₁ events₁
  have h₂ := hrun₂ ▸ recalls_run (m := m₂) db₂ events₂
  have hselection : n₁.selection = n₂.selection := by rw [h₁.selection, h₂.selection, hmemory]
  have hslot : n₁.currentSlot = n₂.currentSlot := by rw [h₁.slot, h₂.slot, hmemory]
  apply Option.some.inj
  rw [nextProposer_drawn htwo hdraw, nextProposer_drawn (hstakes ▸ htwo) hdraw₂, hcandidates, hselection, hslot]

/-! ## A restart on the same chain -/

def miningSetup : MiningSetup :=
  { chain := plain, epochs := ⟨32, epochSize_pos⟩, wallet := none, testnetExpectedValidators := 0, mineOnly := [] }

def twoValidators : Db :=
  let t := (genesisNode none).db.live
  let row : Validator := { stake := 30, active := true, slashed := false, joinedAt := 0 }
  { file := { t with validators := (t.validators.put "v" row).put "w" row }, pending := none }

def importer : Miner := run (Event.run miningSetup) [.importBlock 2 (peerBlock 1 "g" "x")] (boot miningSetup twoValidators)

theorem proposers_agree_imported :
    (run (Event.run miningSetup) [.importBlock 2 (peerBlock 1 "g" "x")] (boot miningSetup twoValidators)).nextProposer
      miningSetup =
    (run (Event.run miningSetup) [.reorgToAncestor 2 0, .importBlock 2 (peerBlock 1 "g" "x")]
      (boot miningSetup twoValidators)).nextProposer miningSetup := by
  have hmemory : ∀ now d height, Memory.after miningSetup twoValidators [.importBlock now d] =
      Memory.after miningSetup twoValidators [.reorgToAncestor now height, .importBlock now d] :=
    fun _ _ _ => rfl
  refine proposers_agree miningSetup miningSetup twoValidators twoValidators [.importBlock 2 (peerBlock 1 "g" "x")]
    [.reorgToAncestor 2 0, .importBlock 2 (peerBlock 1 "g" "x")] _ _ rfl rfl rfl rfl rfl ?_ ?_ ⟨?_, ?_⟩ (hmemory _ _ _)
  · decide +kernel
  · decide +kernel
  · decide +kernel
  · decide +kernel

theorem proposers_disagree : ¬ ∀ (m : MiningSetup) (db : Db) (events₁ events₂ : List Event),
    (run (Event.run m) events₁ (boot m db)).full.node.db.live.blocks =
      (run (Event.run m) events₂ (boot m db)).full.node.db.live.blocks →
    (run (Event.run m) events₁ (boot m db)).stakes = (run (Event.run m) events₂ (boot m db)).stakes →
    2 ≤ (run (Event.run m) events₁ (boot m db)).stakes.length →
    (run (Event.run m) events₁ (boot m db)).nextProposer m = (run (Event.run m) events₂ (boot m db)).nextProposer m := by
  intro h
  have hdb : (boot miningSetup importer.full.node.db).full.node.db = importer.full.node.db := boot_db _
  have hstakes : importer.stakes = (boot miningSetup importer.full.node.db).stakes := by
    unfold stakes
    rw [hdb]
  have hsame := h miningSetup twoValidators [.importBlock 2 (peerBlock 1 "g" "x")]
    [.importBlock 2 (peerBlock 1 "g" "x"), .start importer.full.node.db]
    (congrArg (fun db : Db => db.live.blocks) hdb.symm) hstakes (by decide +kernel)
  have hw : importer.nextProposer miningSetup = "w" := by decide +kernel
  have hv : (boot miningSetup importer.full.node.db).nextProposer miningSetup = "v" := by decide +kernel
  exact absurd (hw.symm.trans (hsame.trans hv)) (by decide)

end Miner

end AbsoluteChain
