import AbsoluteChain.FinalityAgreement
import AbsoluteChain.HonestValidators

/-!
# Irreversible finality

When does a block that the adapter reports final stay stored and stay final? What
the engines finalised only grows; the stored block can go in a reorganisation that
the floor does not stop, in a truncation, or to another block of the same hash.
-/

namespace AbsoluteChain

open Python Actions Actions.Act Transactions Blockchain Runs

/-! ## What the engines finalised -/

theorem BeaconFinality.addVote_grows (f : BeaconFinality) (blockHash : String) (slot weight : Int) :
    ∀ e ∈ f.finalizedEpochs, e ∈ (f.addVote blockHash slot weight).finalizedEpochs := by
  intro e he
  have hjustify : ∀ (g : BeaconFinality) epoch h, e ∈ g.finalizedEpochs → e ∈ (g.justify epoch h).finalizedEpochs := by
    intro g epoch h hg
    rw [justify_finalizedEpochs]
    split
    · exact List.mem_cons_of_mem _ hg
    · exact hg
  unfold addVote evaluate
  split
  · exact he
  · split
    · exact hjustify _ _ _ he
    · exact he

namespace FinalityEngine

variable (f : FinalityEngine)

theorem createCheckpoint_finalized (blockNumber : Int) (blockHash : String) :
    (f.createCheckpoint blockNumber blockHash).finalizedCheckpoints = f.finalizedCheckpoints := by
  unfold createCheckpoint
  dsimp only
  split <;> rfl

theorem addAttestation_finalized (validator : String) (epoch : Int) (hash : String) :
    (f.addAttestation validator epoch hash).2.finalizedCheckpoints = f.finalizedCheckpoints := by
  have hcount : ∀ cp, (f.countVote validator epoch cp).finalizedCheckpoints = f.finalizedCheckpoints := by
    intro cp
    unfold countVote
    split <;> rfl
  have hcheck : ∀ g : FinalityEngine, (g.checkJustified epoch).finalizedCheckpoints = g.finalizedCheckpoints := by
    intro g
    unfold checkJustified
    split
    · rfl
    · split <;> rfl
  unfold addAttestation
  split
  · rfl
  · split
    · rfl
    · exact (hcheck _).trans (hcount _)

theorem finalizeCheckpoint_grows (epoch : Int) :
    ∀ e ∈ f.finalizedCheckpoints, e ∈ (f.finalizeCheckpoint epoch).2.finalizedCheckpoints := by
  intro e he
  unfold finalizeCheckpoint
  split
  · exact he
  · split
    · exact he
    · split
      · exact he
      · exact List.mem_append_left _ he

theorem processBlock_grows (blockNumber : Int) (blockHash validator : String) :
    ∀ e ∈ f.finalizedCheckpoints, e ∈ (f.processBlock blockNumber blockHash validator).finalizedCheckpoints := by
  intro e he
  have hfold : ∀ (l : List Int) (g : FinalityEngine), e ∈ g.finalizedCheckpoints →
      e ∈ (l.foldl (fun g e => (g.finalizeCheckpoint e).2) g).finalizedCheckpoints := by
    intro l
    induction l with
    | nil => intro g hg; exact hg
    | cons a l ih => intro g hg; exact ih _ (finalizeCheckpoint_grows g a e hg)
  unfold processBlock
  refine hfold _ _ ?_
  rw [addAttestation_finalized, createCheckpoint_finalized]
  exact he

end FinalityEngine

/-! ## Reports that last -/

/-- A board reports a block again as long as it is fed under the same number. -/
theorem ConsensusEngineBeacon.isFinalized_of_grows {s s' : ConsensusEngineBeacon} {hash : String}
    (hfork : s'.fork.blocks.get? hash = s.fork.blocks.get? hash) (hepochs : s'.finality.epochs = s.finality.epochs)
    (hgrows : ∀ e ∈ s.finality.finalizedEpochs, e ∈ s'.finality.finalizedEpochs) (h : s.isFinalized hash = true) :
    s'.isFinalized hash = true := by
  unfold isFinalized at h ⊢
  rw [hfork]
  cases hb : s.fork.blocks.get? hash with
  | none =>
    rw [hb] at h
    cases h
  | some b =>
    rw [hb] at h
    unfold BeaconFinality.isFinalized at h ⊢
    rw [hepochs]
    exact decide_eq_true (hgrows _ (of_decide_eq_true h))

/-- What an adapter reported final is still reported by another one, for blocks of this hash. -/
structure ConsensusAdapter.Outlasts (a a' : ConsensusAdapter) (hash : String) : Prop where
  checkpoints : ∀ e ∈ a.finality.finalizedCheckpoints, e ∈ a'.finality.finalizedCheckpoints
  board : a.board.isFinalized hash = true → a'.board.isFinalized hash = true
  casper : a.casper.isFinalized hash = true → a'.casper.isFinalized hash = true
  beacon : a.beacon.isFinalized hash = true → a'.beacon.isFinalized hash = true

theorem ConsensusAdapter.Outlasts.refl (a : ConsensusAdapter) (hash : String) : a.Outlasts a hash :=
  ⟨fun _ h => h, fun h => h, fun h => h, fun h => h⟩

theorem ForkTree.get_addBlock (t : ForkTree) {b : ForkBlock} {hash : String} (h : hash ≠ b.hash) :
    (t.addBlock b).blocks.get? hash = t.blocks.get? hash := Dict.get?_set_of_ne _ h _

theorem ConsensusAdapter.onNewBlock_outlasts (a : ConsensusAdapter) (stake : Option Int) {b : BlockDict} {hash : String}
    (h : hash ≠ b.hash) : a.Outlasts (a.onNewBlock stake b) hash where
  checkpoints := FinalityEngine.processBlock_grows _ _ _ _
  board := by
    cases stake with
    | none => exact fun h => h
    | some total =>
      exact ConsensusEngineBeacon.isFinalized_of_grows (ForkTree.get_addBlock _ h) rfl fun _ he => he
  casper := by
    intro hf
    unfold ConsensusEngineCasper.isFinalized at hf ⊢
    have hsame : (a.onNewBlock stake b).casper.fork.blocks.get? hash = a.casper.fork.blocks.get? hash :=
      ForkTree.get_addBlock _ h
    rw [hsame]
    exact hf
  beacon := ConsensusEngineBeacon.isFinalized_of_grows (ForkTree.get_addBlock _ h) rfl fun _ he => he

namespace FullNode

variable {c : Blockchain} {n n' : FullNode} {h : Int} {d : BlockDict}

/-- The block `d` is stored at height `h`, and the adapter reports `h` final. -/
def Final (h : Int) (d : BlockDict) (n : FullNode) : Prop :=
  n.node.db.live.getBlock h = some d ∧ n.isFinalized h = true

theorem Final.keep (hf : Final h d n) (hstored : n'.node.db.live.getBlock h = some d)
    (hslashing : n'.node.slashing.isSome = n.node.slashing.isSome) (ha : n.adapter.Outlasts n'.adapter d.hash) :
    Final h d n' := by
  obtain ⟨hd, hfinal⟩ := hf
  refine ⟨hstored, ?_⟩
  unfold isFinalized at hfinal ⊢
  rw [hd] at hfinal
  rw [hstored]
  simp only [Bool.or_eq_true, Bool.and_eq_true, decide_eq_true_eq] at hfinal ⊢
  have hboard : ((n.slashingEngine.map fun s => s.isFinalized d.hash).getD false) = true →
      ((n'.slashingEngine.map fun s => s.isFinalized d.hash).getD false) = true := by
    unfold slashingEngine ConsensusEngineSlashing.isFinalized
    cases hs : n.node.slashing with
    | none => intro h; cases h
    | some e =>
      rw [hs] at hslashing
      obtain ⟨e', he'⟩ := Option.isSome_iff_exists.mp hslashing
      rw [he']
      exact ha.board
  rcases hfinal with hcheck | ⟨hne, hreport⟩
  · exact .inl (ha.checkpoints _ hcheck)
  · exact .inr ⟨hne, hreport.imp (Or.imp hboard ha.casper) ha.beacon⟩

/-! ## Blocks that come in -/

end FullNode

namespace Blockchain

variable {c : Blockchain} {now : Int} {n n' : Node}

theorem storeProposed_ok {b b' : Block} (h : c.storeProposed now b n = (.ok b', n')) :
    b'.hash = b.hash ∧ b'.height = b.height ∧ b'.miner = b.miner := by
  unfold storeProposed at h
  obtain ⟨_, n₁, -, h₁⟩ := bind_ok.mp h
  obtain ⟨_, n₂, -, h₂⟩ := bind_ok.mp h₁
  obtain ⟨hb, -⟩ := Prod.mk.inj h₂
  cases hb
  exact ⟨rfl, rfl, rfl⟩

theorem handed_of_ok {b b' : Block} {preserve : Bool} (h : c.addBlock now b preserve n = (.ok b', n')) :
    ∃ b₀, c.handed now b preserve n = some b₀ ∧ b'.hash = b₀.hash ∧ b'.height = b₀.height ∧ b'.miner = b₀.miner := by
  obtain ⟨hadm, hclosed, n₁, hbody, -⟩ := addBlock_body h
  rw [executeBlock_eq] at hbody
  obtain ⟨b₀, n₂, hprepared, hstored⟩ := bind_ok.mp hbody
  refine ⟨b₀, ?_, storeProposed_ok hstored⟩
  unfold handed
  rw [hadm, Store.begin_closed hclosed]
  exact congrArg (fun r => r.1.toOption) hprepared

theorem importBlock_entered {d : PeerBlock} {b' : Block} (h : c.importBlock now d n = (.ok b', n')) :
    ∃ m, importNode now d n = some m ∧ (m = n ∨ (m = truncated n ∧ Truncates d n)) ∧
      c.addBlock now (Block.fromDict c.host now (normalizeBlockDict d)) true m = (.ok b', n') := by
  unfold importBlock at h
  obtain ⟨u, hfits, h₁⟩ := liftExcept_bind_ok.mp h
  have hfits : fitsInt64 (field (normalizeBlockDict d).height (normalizeBlockDict d).number 0) = true := require_ok.mp hfits
  simp only [bind_run, onDb_run, query_run] at h₁
  unfold importNode
  simp only [if_pos hfits]
  cases he : n.db.live.getBlock (field (normalizeBlockDict d).height (normalizeBlockDict d).number 0) with
  | none =>
    rw [he] at h₁
    obtain ⟨hv, ha⟩ := importFresh_ok h₁
    refine ⟨n, ?_, .inl rfl, ha⟩
    simp only [hv]
  | some e =>
    rw [he] at h₁
    by_cases hg : field (normalizeBlockDict d).height (normalizeBlockDict d).number 0 = 0 ∧
        (normalizeBlockDict d).hash ≠ some e.hash
    · simp only [if_pos hg] at h₁
      obtain ⟨_, n₁, ht, h₂⟩ := bind_ok.mp h₁
      obtain ⟨hclosed, rfl⟩ := truncateAllBlocks_ok ht
      obtain ⟨hv, ha⟩ := importFresh_ok h₂
      refine ⟨truncated n, ?_, .inr ⟨rfl, hg.1, e, ?_, hg.2⟩, ha⟩
      · simp only [if_pos (And.intro hg.1 (And.intro hg.2 hclosed)), hv]
      · rw [← hg.1]
        exact he
    · simp only [if_neg hg] at h₁
      cases h₁

end Blockchain

namespace FullNode

variable {c : Blockchain} {n n' : FullNode} {h : Int} {d : BlockDict} {now : Int}

theorem Final.settled {b : Block} {preserve : Bool} (hf : Final h d n)
    (hfresh : ∀ b₀, c.handed now b preserve n.node = some b₀ → d.hash ≠ b₀.hash) :
    Final h d (n.settled (c.addBlock now b preserve n.node)) := by
  have hslashing := @addBlock_slashing c now b preserve n.node
  have hsome : (c.addBlock now b preserve n.node).2.slashing.isSome = n.node.slashing.isSome := by
    rw [hslashing]
    split
    · rfl
    · exact Option.isSome_map
  rcases hr : c.addBlock now b preserve n.node with ⟨f | b', n₁⟩
  · rw [hr] at hsome
    refine hf.keep ?_ hsome (.refl _ _)
    exact (getBlock_congr (addBlock_rejected_blocks hr) h).trans hf.1
  · rw [hr] at hsome
    obtain ⟨b₀, hb₀, hhash, -⟩ := handed_of_ok hr
    have hne : d.hash ≠ b'.toDict.hash := by
      intro he
      exact hfresh b₀ hb₀ (he.trans hhash)
    refine hf.keep ?_ hsome (ConsensusAdapter.onNewBlock_outlasts _ _ hne)
    obtain ⟨r⟩ := addBlock_ok hr
    refine (getBlock_congr r.blocks h).trans ?_
    rw [getBlock_putBlock]
    by_cases hh : h = b'.toDict.height
    · have hfree := (admitBlock_ok r.admitted).free
      have hheight : b.height = h := (r.height_eq.symm.trans hh.symm)
      rw [hheight, hf.1] at hfree
      cases hfree
    · rw [if_neg hh, hf.1]
      exact Option.filter_some_pos (by simpa using hne)

/-! ## Attestations -/

theorem onAttestation_outlasts (s : ConsensusEngineSlashing) (validator blockHash : String) (slot : Int) {hash : String}
    (hf : s.isFinalized hash = true) : (s.onAttestation now validator blockHash slot).2.isFinalized hash = true := by
  have htally : ∀ stake, (s.tally validator blockHash slot stake).isFinalized hash = true := by
    intro stake
    unfold ConsensusEngineSlashing.tally
    by_cases hs : 0 < stake
    · rw [if_pos hs]
      by_cases hb : s.board.fork.blocks.contains blockHash = true
      · refine ConsensusEngineBeacon.isFinalized_of_grows (s := s.board) rfl ?_ ?_ hf
        · simp only [if_pos hb, BeaconFinality.addVote_epochs]
        · simp only [if_pos hb]
          exact BeaconFinality.addVote_grows _ _ _ _
      · refine ConsensusEngineBeacon.isFinalized_of_grows (s := s.board) rfl ?_ ?_ hf
        · simp only [if_neg hb]
        · simp only [if_neg hb]
          exact fun _ he => he
    · rw [if_neg hs]
      exact hf
  unfold ConsensusEngineSlashing.onAttestation
  dsimp only
  split
  · exact ConsensusEngineBeacon.isFinalized_of_grows rfl rfl (fun _ he => he) (htally _)
  · exact hf

theorem attestSlashing_keeps (validator blockHash : String) (slot : Int) (n : FullNode) (hash : String) :
    (attestSlashing now validator blockHash slot n).2.node.db.live.blocks = n.node.db.live.blocks ∧
      n.adapter.Outlasts (attestSlashing now validator blockHash slot n).2.adapter hash := by
  unfold attestSlashing
  simp only [bind_run, read_run, slashingEngine]
  cases hs : n.node.slashing with
  | none => exact ⟨rfl, .refl _ _⟩
  | some e =>
    simp only [Option.map_some, bind_run, write_run]
    have hout : n.adapter.Outlasts { n.adapter with board :=
        ((ConsensusEngineSlashing.mk n.adapter.board e).onAttestation now validator blockHash slot).2.board } hash :=
      { ConsensusAdapter.Outlasts.refl _ _ with board := onAttestation_outlasts ⟨n.adapter.board, e⟩ validator blockHash slot }
    split
    · exact ⟨rfl, hout⟩
    · exact ⟨rfl, hout⟩

theorem Final.attest (hf : Final h d n) (validator blockHash : String) :
    Final h d (FullNode.attest now validator blockHash n).2 := by
  have hvoted : Final h d (attestSlashing now validator blockHash n.adapter.engine.currentSlot n).2 := by
    obtain ⟨hblocks, hout⟩ := @attestSlashing_keeps now validator blockHash n.adapter.engine.currentSlot n d.hash
    refine hf.keep ((getBlock_congr hblocks h).trans hf.1) ?_ hout
    rw [attestSlashing_slashing]
    exact Option.isSome_map
  unfold FullNode.attest
  simp only [bind_run, read_run]
  rcases hr : attestSlashing now validator blockHash n.adapter.engine.currentSlot n with ⟨f | ok, n₁⟩
  · rw [hr] at hvoted
    exact hvoted
  · rw [hr] at hvoted
    cases ok with
    | true => exact hvoted.keep hvoted.1 rfl ⟨fun _ he => he, fun he => he, fun he => he, fun he => he⟩
    | false => exact hvoted

/-! ## Runs -/

/-- The event is no way around finality: a block that comes in has not the hash of a final block, a
peer's genesis block does not drop a chain with a final block, a rollback is stopped by the floor
or keeps every final block, and a truncation, which no floor stops, keeps every final block. -/
def Sparing (c : Blockchain) (ev : Event) (n : FullNode) : Prop :=
  (∀ b, ev.proposal c n.node = some b → ∀ h d, Final h d n → d.hash ≠ b.hash) ∧
  match ev with
  | .importBlock _ peer => Truncates peer n.node → ∀ h d, ¬ Final h d n
  | .reorgToAncestor _ height =>
    (0 < n.adapter.getFinalizedFloorHeight ∧ height < n.adapter.getFinalizedFloorHeight) ∨ ∀ h d, Final h d n → h ≤ height
  | .truncateToHeight height => ∀ h d, Final h d n → h ≤ height
  | _ => True

/-- An open transaction refuses a rollback and a truncation. -/
theorem begin_refused {db : Db} {t : Tables} (h : db.pending = some t) : db.begin? = none := by
  simp [Store.begin?, h]

theorem reorg_refused {height : Int}
    (hfloor : 0 < n.adapter.getFinalizedFloorHeight ∧ height < n.adapter.getFinalizedFloorHeight) :
    (reorgToAncestor c now height n).2 = n := by
  have hrefused : Blockchain.reorgToAncestor c now n.adapter.getFinalizedFloorHeight height =
      (raise "reorg_below_finalized_floor" : Act Fault Db Unit) := if_pos hfloor
  unfold reorgToAncestor
  rw [bind_run, read_run]
  simp only [hrefused]
  rfl

theorem reorg_below {height : Int} (hd : n.node.db.live.getBlock h = some d) (hle : h ≤ height) :
    (reorgToAncestor c now height n).2.node.db.live.getBlock h = some d := by
  have hblocks : ∀ floor, (c.reorgToAncestor now floor height n.node.db).2.live.blocks = n.node.db.live.blocks ∨
      (c.reorgToAncestor now floor height n.node.db).2.live.blocks = (n.node.db.live.deleteAbove height).blocks := by
    intro floor
    cases hp : n.node.db.pending with
    | none => exact reorg_blocks floor height n.node.db (by simp [Store.live, hp])
    | some t =>
      left
      unfold Blockchain.reorgToAncestor
      split
      · rfl
      · rw [bind_run, query_run]
        dsimp only
        split
        · rfl
        · rw [atomically_refused (P := Part.whole) nestedTransaction (begin_refused hp)]
  rcases hblocks n.adapter.getFinalizedFloorHeight with hb | hb
  · exact (getBlock_congr hb h).trans hd
  · refine (getBlock_congr hb h).trans ?_
    rw [getBlock_deleteAbove, if_pos hle]
    exact hd

/-- So does a truncation. -/
theorem truncate_below {height : Int} (hd : n.node.db.live.getBlock h = some d) (hle : h ≤ height) :
    (truncateToHeight height n).2.node.db.live.getBlock h = some d := by
  let S (t : Tables) : Prop := t.getBlock h = some d
  have hdelete : ∀ t : Tables, S t → S (t.deleteBlocksAbove height) := by
    intro t ht
    have hcut : (t.deleteBlocksAbove height).getBlock h = (t.deleteAbove height).getBlock h := rfl
    refine hcut.trans ?_
    rw [getBlock_deleteAbove, if_pos hle]
    exact ht
  have hbody : Keeps (within S) (Blockchain.truncateToHeight height) := by
    unfold Blockchain.truncateToHeight bindInts
    refine within_atomically (keeps_bind ?_ fun _ => within_statement hdelete)
    exact keeps_ite (fun _ => keeps_pure _) fun _ => keeps_raise _
  change (Blockchain.truncateToHeight height n.node.db).2.live.getBlock h = some d
  cases hp : n.node.db.pending with
  | none =>
    have hfile : n.node.db.file = n.node.db.live := (Store.live_closed hp).symm
    exact (hbody n.node.db ⟨(congrArg (fun t => t.getBlock h) hfile).trans hd, hd⟩).2
  | some t =>
    unfold Blockchain.truncateToHeight
    rw [atomically_refused (P := Part.whole) nestedTransaction (begin_refused hp)]
    exact hd

theorem Final.step {ev : Event} (hf : Final h d n) (hs : Sparing c ev n) :
    Final h d (ev.run c n) := by
  obtain ⟨hfresh, hs⟩ := hs
  cases ev with
  | addBlock now b preserve =>
    rw [Event.run, addBlock_run]
    exact hf.settled fun b₀ hb₀ => hfresh b₀ hb₀ h d hf
  | importBlock now peer =>
    have ht : ¬ Truncates peer n.node := fun ht => hs ht h d hf
    rw [Event.run, importBlock_run]
    have hslashing := @importBlock_slashing c now peer n.node
    rcases hr : c.importBlock now peer n.node with ⟨f | b', n₁⟩
    · have hsome : n₁.slashing.isSome = n.node.slashing.isSome := by
        rw [hr] at hslashing
        rw [hslashing]
        split
        · rfl
        · exact Option.isSome_map
      refine hf.keep ?_ hsome (.refl _ _)
      exact (getBlock_congr (importBlock_rejected_blocks ht hr) h).trans hf.1
    · obtain ⟨m, hnode, rfl | ⟨-, hdrop⟩, hadded⟩ := importBlock_entered hr
      swap
      · exact absurd hdrop ht
      rw [← hadded]
      refine hf.settled fun b₀ hb₀ => hfresh b₀ ?_ h d hf
      change (importNode now peer n.node).bind _ = some b₀
      rw [hnode]
      exact hb₀
  | attest now validator blockHash => exact hf.attest validator blockHash
  | markBlockProduced => exact hf.keep hf.1 rfl ⟨fun _ he => he, fun he => he, fun he => he, fun he => he⟩
  | reorgToAncestor now height =>
    rcases hs with hfloor | hall
    · rw [Event.run, reorg_refused hfloor]
      exact hf
    · exact hf.keep (reorg_below hf.1 (hall h d hf)) rfl (.refl _ _)
  | truncateToHeight height => exact hf.keep (truncate_below hf.1 (hs h d hf)) rfl (.refl _ _)

/-- The run theorem: in a run of sparing events, a block once reported final stays stored and
final from then on. -/
theorem finality_irreversible (c : Blockchain) (earlier later : List Event) (n : FullNode)
    (hs : Along (Event.run c) (Sparing c) (earlier ++ later) n) (h : Int) (d : BlockDict)
    (hf : Final h d (run (Event.run c) earlier n)) :
    Always (Event.run c) (Final h d) later (run (Event.run c) earlier n) :=
  always_of_along (fun _ _ hf hs => Final.step hf hs) hf (along_append.mp hs).2

/-- One epoch passes between two attestations of `v` for block 1; epoch 0 is then final. -/
def finalising : List Event :=
  [importOf 1 "g" "x" "v", .attest 2 "v" "x"] ++ List.replicate 32 .markBlockProduced ++ [.attest 2 "v" "x"]

def finalNode : FullNode := run (Event.run plain) finalising solo

/-- A rollback to the tip or above it drops nothing. -/
theorem Sparing.rollback {height : Int} (hrows : ∀ r ∈ n.node.db.live.blocks.rows, r.1 ≤ height) :
    Sparing c (.reorgToAncestor now height) n := by
  refine ⟨fun _ hb => ?_, .inr fun h d hf => ?_⟩
  · cases hb
  · exact hrows _ ((KeyedTable.Table.mem_rows_iff _ h d).mpr hf.1)

theorem finality_irreversible_tip :
    ∃ d : BlockDict, d.hash = "x" ∧ Always (Event.run plain) (Final 1 d) [.reorgToAncestor 2 1] finalNode := by
  have hany : ∀ n : FullNode, (n.node.db.live.getBlock 1).map BlockDict.hash = some "x" →
      (∀ r ∈ n.node.db.live.blocks.rows, r.1 ≤ 1) → n.isFinalized 1 = true →
      ∃ d : BlockDict, d.hash = "x" ∧ Always (Event.run plain) (Final 1 d) [.reorgToAncestor 2 1] n := by
    intro n hhash hrows hfinal
    obtain ⟨d, hd, hx⟩ := Option.map_eq_some_iff.mp hhash
    have hs : Along (Event.run plain) (Sparing plain) [.reorgToAncestor 2 1] n := ⟨.rollback hrows, trivial⟩
    exact ⟨d, hx, finality_irreversible plain [] [.reorgToAncestor 2 1] n hs 1 d ⟨hd, hfinal⟩⟩
  apply hany finalNode
  · decide +kernel
  · decide +kernel
  · decide +kernel

/-- Block 1 is reported final while the floor is still 0: another genesis block and a truncation remove it. -/
theorem finality_reverted :
    ((finalNode.node.db.live.getBlock 1).map BlockDict.hash = some "x" ∧ finalNode.isFinalized 1 = true ∧
      finalNode.adapter.getFinalizedFloorHeight = 0) ∧
    (((importOf 0 genesisHash "h" "genesis").run plain finalNode).node.db.live.getBlock 1 = none ∧
      ((importOf 0 genesisHash "h" "genesis").run plain finalNode).isFinalized 1 = false) ∧
    ((Event.truncateToHeight 0).run plain finalNode).node.db.live.getBlock 1 = none ∧
      ((Event.truncateToHeight 0).run plain finalNode).isFinalized 1 = false := by
  decide +kernel

end FullNode

end AbsoluteChain
