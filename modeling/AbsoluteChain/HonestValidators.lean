import AbsoluteChain.ConsensusAdapter
import AbsoluteChain.Linkage

/-!
# Honest validators

Which events make the slashing engine of a node mark a validator. Evidence is a
second proposal at a height on record, with whatever hash, or another vote in a
slot on record, and the slot is the node's own counter.
-/

namespace AbsoluteChain

open Python Actions Actions.Act Transactions

/-! ## The engine -/

namespace SlashingEngine

variable {e : SlashingEngine} {now : Int} {v w : String}

def propose (e : SlashingEngine) (now : Int) (validator : String) (height : Int) : SlashingEngine :=
  if validator ∈ e.slashed then e
  else if (height, validator) ∈ e.proposals then e.mark now validator .doubleProposal (height / 32)
  else { e with proposals := (height, validator) :: e.proposals }

theorem mem_mark {reason : SlashReason} {epoch : Int} :
    v ∈ (e.mark now w reason epoch).slashed ↔ v = w ∨ v ∈ e.slashed := by
  unfold mark
  by_cases hw : w ∈ e.slashed
  · rw [if_pos hw]
    constructor
    · exact .inr
    · rintro (rfl | h)
      · exact hw
      · exact h
  · rw [if_neg hw]
    exact List.mem_cons

theorem mem_propose {height : Int} (hv : v ∉ e.slashed) :
    v ∈ (e.propose now w height).slashed ↔ w = v ∧ (height, v) ∈ e.proposals := by
  unfold propose
  by_cases hw : w ∈ e.slashed
  · rw [if_pos hw]
    constructor
    · intro h; exact absurd h hv
    · rintro ⟨rfl, -⟩; exact absurd hw hv
  · rw [if_neg hw]
    by_cases hp : (height, w) ∈ e.proposals
    · rw [if_pos hp, mem_mark]
      constructor
      · rintro (rfl | h)
        · exact ⟨rfl, hp⟩
        · exact absurd h hv
      · rintro ⟨rfl, -⟩; exact .inl rfl
    · rw [if_neg hp]
      constructor
      · intro h; exact absurd h hv
      · rintro ⟨rfl, h⟩; exact absurd h hp

theorem mem_addVote {slot : Int} {blockHash : String} (hv : v ∉ e.slashed) :
    v ∈ (e.addVote now w slot blockHash).2.slashed ↔
      w = v ∧ ∃ seen, (e.votesOf v).get? slot = some seen ∧ seen ≠ blockHash := by
  unfold addVote recordVote
  by_cases hw : w ∈ e.slashed
  · rw [if_pos hw]
    constructor
    · intro h; exact absurd h hv
    · rintro ⟨rfl, -⟩; exact absurd hw hv
  · rw [if_neg hw, if_neg hw]
    cases hg : (e.votesOf w).get? slot with
    | none =>
      constructor
      · intro h; exact absurd h hv
      · rintro ⟨rfl, seen, hs, -⟩
        rw [hg] at hs
        cases hs
    | some seen =>
      by_cases hne : seen ≠ blockHash
      · simp only [if_pos hne]
        rw [mem_mark]
        constructor
        · rintro (rfl | h)
          · exact ⟨rfl, seen, hg, hne⟩
          · exact absurd h hv
        · rintro ⟨rfl, -⟩; exact .inl rfl
      · simp only [if_neg hne]
        constructor
        · intro h; exact absurd h hv
        · rintro ⟨rfl, seen', hs, h⟩
          rw [hg] at hs
          cases hs
          exact absurd h hne

end SlashingEngine

/-! ## Blocks on their way to `record_proposal` -/

namespace Blockchain

variable (c : Blockchain) (now : Int)

def prepareBlock (b : Block) (preserve : Bool) : Act Fault Node Block := do
  let txs ← onDb (c.applyTransactions now b.height b.miner b.transactions)
  let _ ← onDb (c.applyBlockReward b.miner)
  let root ← onDb (query c.computeStateRoot)
  c.checkPeerRoot b preserve root
  pure (sealBlock b txs root preserve)

def storeProposed (b : Block) : Act Fault Node Block := do
  checkProposal now b
  let stored : Block := { b with transactions := b.transactions.map fun tx => { tx with blockHeight := b.height } }
  onDb (persistBlockLocked c.host now stored.toDict (stored.transactions.map Transaction.toDict) stored.totalBurned
    (if 0 < stored.totalBurned then c.config.burnAddress else ""))
  pure stored

theorem executeBlock_eq (b : Block) (preserve : Bool) :
    c.executeBlock now b preserve = c.prepareBlock now b preserve >>= c.storeProposed now := by
  unfold executeBlock prepareBlock storeProposed
  simp only [bind_assoc, pure_bind]
  rfl

/-- The block that an `add_block` hands to `record_proposal`, when it comes that far. -/
def handed (b : Block) (preserve : Bool) (n : Node) : Option Block :=
  match c.admitBlock n b, n.db.begin? with
  | .ok _, some db => (c.prepareBlock now b preserve { n with db := db }).1.toOption
  | _, _ => none

def importNode (block : PeerBlock) (n : Node) : Option Node :=
  let d := normalizeBlockDict block
  let height := field d.height d.number 0
  let checked (m : Node) : Option Node :=
    match blockValidator now d m.db.live.getLastBlock with
    | .ok _ => some m
    | .error _ => none
  if fitsInt64 height then
    match n.db.live.getBlock height with
    | none => checked n
    | some e => if height = 0 ∧ d.hash ≠ some e.hash ∧ n.db.pending = none then checked (truncated n) else none
  else none

variable {c now} {n n' : Node}

def slashingFrame : Frame Node := Frame.fixed Node.slashing

theorem onDb_slashing {α : Type} (m : Act Fault Db α) : Keeps slashingFrame (onDb m) := fun _ => rfl

def proposed (now : Int) (b : Block) (e : SlashingEngine) : SlashingEngine :=
  if b.miner = "" ∨ b.miner = "genesis" then e else e.propose now b.miner b.height

theorem checkProposal_slashing (b : Block) (n : Node) :
    (checkProposal now b n).2.slashing = n.slashing.map (proposed now b) := by
  unfold checkProposal
  simp only [bind_run, read_run]
  cases hs : n.slashing with
  | none => exact hs
  | some e =>
    by_cases hm : b.miner = "" ∨ b.miner = "genesis"
    · simp only [if_pos hm, proposed, Option.map_some]
      exact hs
    · simp only [if_neg hm, proposed, Option.map_some, recordProposal, SlashingEngine.propose]
      by_cases h₁ : b.miner ∈ e.slashed
      · simp only [if_pos h₁, bind_run, pure_run]
        exact hs
      · by_cases h₂ : (b.height, b.miner) ∈ e.proposals
        · simp only [if_neg h₁, if_pos h₂, slash, SlashingEngine.mark]
          by_cases hp : e.persists = true
          · simp only [if_pos hp]
            rfl
          · simp only [if_neg hp]
            rfl
        · simp only [if_neg h₁, if_neg h₂]
          rfl

theorem storeProposed_slashing (b : Block) (n : Node) :
    (c.storeProposed now b n).2.slashing = n.slashing.map (proposed now b) := by
  have hstep := @checkProposal_slashing now b n
  unfold storeProposed
  rw [bind_run]
  rcases hr : checkProposal now b n with ⟨f | u, n₁⟩
  · rw [hr] at hstep
    exact hstep
  · rw [hr] at hstep
    exact (keeps_bind (onDb_slashing _) (fun _ => keeps_pure _) n₁).trans hstep

theorem prepareBlock_slashing (b : Block) (preserve : Bool) : Keeps slashingFrame (c.prepareBlock now b preserve) := by
  unfold prepareBlock checkPeerRoot
  refine keeps_bind (onDb_slashing _) fun txs => keeps_bind (onDb_slashing _) fun _ => ?_
  refine keeps_bind (onDb_slashing _) fun root => keeps_bind ?_ fun _ => keeps_pure _
  refine keeps_ite (fun _ => ?_) fun _ => keeps_pure _
  exact keeps_ite (fun _ => keeps_raise _) fun _ => keeps_pure _

theorem executeBlock_slashing (b : Block) (preserve : Bool) (n : Node) :
    (c.executeBlock now b preserve n).2.slashing =
      match (c.prepareBlock now b preserve n).1.toOption with
      | none => n.slashing
      | some b' => n.slashing.map (proposed now b') := by
  have hkept := @prepareBlock_slashing c now b preserve n
  rw [executeBlock_eq, bind_run]
  rcases hr : c.prepareBlock now b preserve n with ⟨f | b', n₁⟩
  · rw [hr] at hkept
    exact hkept
  · rw [hr] at hkept
    have hn₁ : n₁.slashing = n.slashing := hkept
    change (c.storeProposed now b' n₁).2.slashing = n.slashing.map (proposed now b')
    rw [storeProposed_slashing, hn₁]

theorem auditMismatch_slashing (b : Block) (preserve : Bool) (f : Fault) :
    Keeps slashingFrame (c.auditMismatch now b preserve f) := by
  unfold auditMismatch
  cases f.roots with
  | none => exact keeps_pure _
  | some r => exact keeps_attempt (onDb_slashing _) fun _ => keeps_pure _

theorem addBlock_slashing (b : Block) (preserve : Bool) (n : Node) :
    (c.addBlock now b preserve n).2.slashing =
      match c.handed now b preserve n with
      | none => n.slashing
      | some b' => n.slashing.map (proposed now b') := by
  have hraise : ∀ f (n₁ : Node),
      ((c.auditMismatch now b preserve f >>= fun _ => raise f : Act Fault Node Block) n₁).2.slashing = n₁.slashing :=
    fun f n₁ => keeps_bind (auditMismatch_slashing b preserve f) (fun _ => keeps_raise _) n₁
  unfold addBlock handed
  simp only [bind_run, read_run, id, liftExcept]
  cases hadm : c.admitBlock n b with
  | error e => rfl
  | ok u =>
    simp only [attempt]
    cases hbegin : n.db.begin? with
    | none =>
      rw [atomically_refused (P := Node.dbPart) nestedTransaction hbegin]
      exact hraise _ n
    | some db =>
      have hbody := @executeBlock_slashing c now b preserve { n with db := db }
      rcases hr : c.executeBlock now b preserve (Node.dbPart.set db n) with ⟨f | b₁, n₁⟩
      · rw [atomically_raised (P := Node.dbPart) nestedTransaction hbegin hr]
        refine (hraise f _).trans ?_
        exact (congrArg (fun x => x.2.slashing) hr).symm.trans hbody
      · rw [atomically_returned (P := Node.dbPart) nestedTransaction hbegin hr]
        exact (congrArg (fun x => x.2.slashing) hr).symm.trans hbody

theorem importFresh_slashing (d : PeerBlock) (n : Node) :
    (c.importFresh now d n).2.slashing =
      match blockValidator now d n.db.live.getLastBlock with
      | .error _ => n.slashing
      | .ok _ => (c.addBlock now (Block.fromDict c.host now d) true n).2.slashing := by
  unfold importFresh
  simp only [bind_run, onDb_run, query_run, liftExcept]
  cases blockValidator now d n.db.live.getLastBlock <;> rfl

theorem importBlock_slashing (d : PeerBlock) (n : Node) :
    (c.importBlock now d n).2.slashing =
      match (importNode now d n).bind (c.handed now (Block.fromDict c.host now (normalizeBlockDict d)) true) with
      | none => n.slashing
      | some b' => n.slashing.map (proposed now b') := by
  have hfresh : ∀ m : Node, (c.importFresh now (normalizeBlockDict d) m).2.slashing =
      match (match blockValidator now (normalizeBlockDict d) m.db.live.getLastBlock with
          | .ok _ => some m
          | .error _ => none).bind (c.handed now (Block.fromDict c.host now (normalizeBlockDict d)) true) with
      | none => m.slashing
      | some b' => m.slashing.map (proposed now b') := by
    intro m
    rw [importFresh_slashing]
    cases blockValidator now (normalizeBlockDict d) m.db.live.getLastBlock with
    | error e => rfl
    | ok u => exact addBlock_slashing _ _ _
  unfold importBlock importNode
  simp only [bind_run, onDb_run, query_run, liftExcept, require]
  by_cases hfits : fitsInt64 (field (normalizeBlockDict d).height (normalizeBlockDict d).number 0) = true
  · simp only [if_pos hfits]
    cases he : n.db.live.getBlock (field (normalizeBlockDict d).height (normalizeBlockDict d).number 0) with
    | none => exact hfresh n
    | some e =>
      by_cases hg : field (normalizeBlockDict d).height (normalizeBlockDict d).number 0 = 0 ∧
          (normalizeBlockDict d).hash ≠ some e.hash
      · by_cases hp : n.db.pending = none
        · simp only [if_pos hg, if_pos (And.intro hg.1 (And.intro hg.2 hp)), bind_run, onDb_run, truncateAllBlocks_run hp]
          exact hfresh (truncated n)
        · have htruncate : truncateAllBlocks n.db = (.error nestedTransaction, n.db) :=
            atomically_refused (P := Part.whole) nestedTransaction (Store.begin_open hp)
          simp only [if_pos hg, if_neg fun h => hp (And.right (And.right h)), bind_run, onDb_run, htruncate]
          rfl
      · simp only [if_neg hg, if_neg fun h => hg (And.intro (And.left h) (And.left (And.right h)))]
        rfl
  · simp only [if_neg hfits]
    rfl

end Blockchain

/-! ## Events -/

namespace FullNode

open Blockchain Runs

variable {c : Blockchain} {v : String}

def Event.proposal (c : Blockchain) : Event → Node → Option Block
  | .addBlock now b preserve, n => c.handed now b preserve n
  | .importBlock now d, n =>
    (importNode now d n).bind (c.handed now (Block.fromDict c.host now (normalizeBlockDict d)) true)
  | _, _ => none

def Event.judge (c : Blockchain) (ev : Event) (n : FullNode) (e : SlashingEngine) : SlashingEngine :=
  match ev with
  | .addBlock now _ _ | .importBlock now _ => (ev.proposal c n.node).elim e fun b => proposed now b e
  | .attest now validator blockHash => (e.addVote now validator n.adapter.engine.currentSlot blockHash).2
  | _ => e

theorem attestSlashing_slashing (now : Int) (validator blockHash : String) (slot : Int) (n : FullNode) :
    (attestSlashing now validator blockHash slot n).2.node.slashing =
      n.node.slashing.map fun e => (e.addVote now validator slot blockHash).2 := by
  unfold attestSlashing
  simp only [bind_run, read_run, slashingEngine]
  cases hs : n.node.slashing with
  | none => exact hs
  | some e =>
    have hvote : ((ConsensusEngineSlashing.mk n.adapter.board e).onAttestation now validator blockHash slot).2.slashing =
        (e.addVote now validator slot blockHash).2 := by
      unfold ConsensusEngineSlashing.onAttestation
      by_cases hr : (e.addVote now validator slot blockHash).1 = true
      · rw [if_pos hr]
        rfl
      · rw [if_neg hr]
    simp only [Option.map_some, bind_run, write_run, hvote]
    split <;> rfl

/-- The step lemma for the engine. -/
theorem run_slashing (ev : Event) (n : FullNode) : (ev.run c n).node.slashing = n.node.slashing.map (ev.judge c n) := by
  have hid : n.node.slashing = n.node.slashing.map id := Option.map_id_apply.symm
  cases ev with
  | addBlock now b preserve =>
    have hstep := @addBlock_slashing c now b preserve n.node
    have hrun := congrArg (fun m : FullNode => m.node.slashing) (addBlock_run c now b preserve n)
    refine hrun.trans ((settled_slashing n _).trans (hstep.trans ?_))
    change _ = n.node.slashing.map fun e => (c.handed now b preserve n.node).elim e fun b => proposed now b e
    cases c.handed now b preserve n.node with
    | none => exact hid
    | some b' => rfl
  | importBlock now d =>
    have hstep := @importBlock_slashing c now d n.node
    have hrun := congrArg (fun m : FullNode => m.node.slashing) (importBlock_run c now d n)
    refine hrun.trans ((settled_slashing n _).trans (hstep.trans ?_))
    let handed := (importNode now d n.node).bind (c.handed now (Block.fromDict c.host now (normalizeBlockDict d)) true)
    change _ = n.node.slashing.map fun e => handed.elim e fun b => proposed now b e
    change (match handed with | none => _ | some b' => _) = _
    cases handed with
    | none => exact hid
    | some b' => rfl
  | attest now validator blockHash =>
    have hstep := attestSlashing_slashing now validator blockHash n.adapter.engine.currentSlot n
    rw [← attest_node] at hstep
    exact hstep
  | markBlockProduced => exact hid
  | reorgToAncestor now height => exact hid
  | truncateToHeight height => exact hid

/-! ## Who stays unslashed -/

def NotSlashed (v : String) (n : FullNode) : Prop := ∀ e, n.node.slashing = some e → v ∉ e.slashed

/-- The event brings no evidence against `v`: a block of `v` that reaches `record_proposal` is at a
height where no proposal of `v` is on record, and an attestation of `v` arrives in a slot of the
node where no vote of `v` for another block is on record. -/
def Harmless (c : Blockchain) (v : String) (ev : Event) (n : FullNode) : Prop :=
  ∀ e, n.node.slashing = some e →
    (∀ b, ev.proposal c n.node = some b → b.miner = v → v ≠ "" → v ≠ "genesis" → (b.height, v) ∉ e.proposals) ∧
    ∀ now blockHash, ev = .attest now v blockHash →
      ∀ seen, (e.votesOf v).get? n.adapter.engine.currentSlot = some seen → seen = blockHash

theorem mem_proposed {b : Block} {now : Int} {e : SlashingEngine} (hv : v ∉ e.slashed) :
    v ∈ (proposed now b e).slashed ↔ b.miner = v ∧ v ≠ "" ∧ v ≠ "genesis" ∧ (b.height, v) ∈ e.proposals := by
  unfold proposed
  by_cases hm : b.miner = "" ∨ b.miner = "genesis"
  · rw [if_pos hm]
    constructor
    · intro h; exact absurd h hv
    · rintro ⟨rfl, h₁, h₂, -⟩
      rcases hm with h | h
      · exact absurd h h₁
      · exact absurd h h₂
  · rw [if_neg hm, SlashingEngine.mem_propose hv]
    constructor
    · rintro ⟨rfl, h⟩; exact ⟨rfl, fun h₁ => hm (.inl h₁), fun h₂ => hm (.inr h₂), h⟩
    · rintro ⟨rfl, -, -, h⟩; exact ⟨rfl, h⟩

theorem mem_judge {ev : Event} {n : FullNode} {e : SlashingEngine} (hv : v ∉ e.slashed) :
    v ∈ (ev.judge c n e).slashed ↔
      (∃ b, ev.proposal c n.node = some b ∧ b.miner = v ∧ v ≠ "" ∧ v ≠ "genesis" ∧ (b.height, v) ∈ e.proposals) ∨
      ∃ now blockHash seen, ev = .attest now v blockHash ∧
        (e.votesOf v).get? n.adapter.engine.currentSlot = some seen ∧ seen ≠ blockHash := by
  have helim : ∀ (now : Int) (handed : Option Block), v ∈ (handed.elim e fun b => proposed now b e).slashed ↔
      ∃ b, handed = some b ∧ b.miner = v ∧ v ≠ "" ∧ v ≠ "genesis" ∧ (b.height, v) ∈ e.proposals := by
    intro now handed
    cases handed with
    | none => exact iff_of_false hv fun ⟨_, h, _⟩ => nomatch h
    | some b =>
      refine (mem_proposed hv).trans ⟨fun h => ⟨b, rfl, h⟩, ?_⟩
      rintro ⟨_, h, hb⟩
      cases h
      exact hb
  cases ev with
  | addBlock now b preserve =>
    refine (helim now _).trans ⟨.inl, ?_⟩
    rintro (h | ⟨_, _, _, h, -⟩)
    · exact h
    · cases h
  | importBlock now d =>
    refine (helim now _).trans ⟨.inl, ?_⟩
    rintro (h | ⟨_, _, _, h, -⟩)
    · exact h
    · cases h
  | attest now w blockHash =>
    refine (SlashingEngine.mem_addVote hv).trans ⟨?_, ?_⟩
    · rintro ⟨rfl, seen, hs, hne⟩
      exact .inr ⟨now, blockHash, seen, rfl, hs, hne⟩
    · rintro (⟨_, h, -⟩ | ⟨_, _, seen, h, hs, hne⟩)
      · cases h
      · cases h
        exact ⟨rfl, seen, hs, hne⟩
  | _ =>
    refine iff_of_false hv ?_
    rintro (⟨_, h, -⟩ | ⟨_, _, _, h, -⟩)
    · cases h
    · cases h

/-- The step lemma: a validator stays unslashed exactly when the event brings no evidence. -/
theorem notSlashed_step (ev : Event) (n : FullNode) (h : NotSlashed v n) :
    NotSlashed v (ev.run c n) ↔ Harmless c v ev n := by
  unfold NotSlashed Harmless
  rw [run_slashing]
  cases hs : n.node.slashing with
  | none =>
    refine iff_of_true (fun e he => ?_) fun e he => ?_
    · cases he
    · cases he
  | some e =>
    have hv : v ∉ e.slashed := h e hs
    have hiff : (∀ e', (some e).map (ev.judge c n) = some e' → v ∉ e'.slashed) ↔ v ∉ (ev.judge c n e).slashed := by
      constructor
      · intro h; exact h _ rfl
      · rintro h _ he
        cases he
        exact h
    rw [hiff, mem_judge hv]
    constructor
    · intro hno e' he'
      cases he'
      refine ⟨fun b hb hm h₁ h₂ hp => hno (.inl ⟨b, hb, hm, h₁, h₂, hp⟩), ?_⟩
      intro now blockHash hev seen hseen
      by_contra hne
      exact hno (.inr ⟨now, blockHash, seen, hev, hseen, hne⟩)
    · intro hno hyes
      obtain ⟨hprop, hvote⟩ := hno e rfl
      rcases hyes with ⟨b, hb, hm, h₁, h₂, hp⟩ | ⟨now, blockHash, seen, hev, hseen, hne⟩
      · exact hprop b hb hm h₁ h₂ hp
      · exact hne (hvote now blockHash hev seen hseen)

/-- The run theorem. It needs no honesty: a validator is never slashed in a run exactly when no
event of it brings evidence. -/
theorem unslashed_iff_harmless (c : Blockchain) (v : String) (events : List Event) (n : FullNode) (h : NotSlashed v n) :
    Always (Event.run c) (NotSlashed v) events n ↔ Along (Event.run c) (Harmless c v) events n :=
  always_iff_along notSlashed_step h

/-! ## Honest runs -/

def proposals (c : Blockchain) : List Event → FullNode → List Block
  | [], _ => []
  | ev :: rest, n => (ev.proposal c n.node).toList ++ proposals c rest (ev.run c n)

def Event.attestedBy (v : String) : Event → Option String
  | .attest _ validator blockHash => if validator = v then some blockHash else none
  | _ => none

def Honest (c : Blockchain) (v : String) (events : List Event) (n : FullNode) : Prop :=
  let blocks := proposals c events n
  let attested := events.filterMap (Event.attestedBy v)
  (∀ b ∈ blocks, ∀ b' ∈ blocks, b.miner = v → b'.miner = v → b.height = b'.height → b.hash = b'.hash) ∧
    ∀ b ∈ blocks, ∀ b' ∈ blocks, b.hash ∈ attested → b'.hash ∈ attested → b.height = b'.height → b.hash = b'.hash

instance (c : Blockchain) (v : String) (events : List Event) (n : FullNode) : Decidable (Honest c v events n) :=
  inferInstanceAs (Decidable (_ ∧ _))

def solo : FullNode :=
  let t := (genesisNode none).db.live
  let row : Validator := { stake := 100, active := true, slashed := false, joinedAt := 0 }
  FullNode.start ⟨32, epochSize_pos⟩ { file := { t with validators := t.validators.put "v" row }, pending := none }

def importOf (height : Int) (parentHash hash miner : String) : Event :=
  .importBlock 2 { peerBlock height parentHash hash with miner := some miner }

/-- Block 1 of `v`, another genesis block and the first one again, and the same block 1 again. -/
def reimport : List Event :=
  [importOf 1 "g" "x" "v", importOf 0 genesisHash "h" "genesis", importOf 0 genesisHash "g" "genesis", importOf 1 "g" "x" "v"]

def twoHeights : List Event := [importOf 1 "g" "x" "w", .attest 2 "v" "x", importOf 2 "x" "y" "w", .attest 2 "v" "y"]

def slashedIn (n : FullNode) : List String := (n.node.slashing.map SlashingEngine.slashed).getD []

theorem notSlashed_iff (n : FullNode) : NotSlashed v n ↔ v ∉ slashedIn n := by
  unfold NotSlashed slashedIn
  cases n.node.slashing with
  | none => exact iff_of_true (fun _ h => nomatch h) List.not_mem_nil
  | some e =>
    constructor
    · intro h; exact h e rfl
    · rintro h _ he
      cases he
      exact h

theorem unslashed_iff_harmless_solo :
    Along (Event.run plain) (Harmless plain "v") [importOf 1 "g" "x" "v", .attest 2 "v" "x"] solo := by
  refine (unslashed_iff_harmless plain "v" _ solo ((notSlashed_iff _).mpr ?_)).mp ⟨?_, ?_, ?_⟩
  · decide +kernel
  · exact (notSlashed_iff _).mpr (by decide +kernel)
  · exact (notSlashed_iff _).mpr (by decide +kernel)
  · exact (notSlashed_iff _).mpr (by decide +kernel)

/-- Evidence outlives the chain, and two blocks of different heights may arrive in one slot. -/
theorem honest_slashed :
    (Honest plain "v" reimport solo ∧ ¬ Always (Event.run plain) (NotSlashed "v") reimport solo) ∧
    (Honest plain "v" twoHeights solo ∧ ¬ Always (Event.run plain) (NotSlashed "v") twoHeights solo) := by
  have hslashed : ∀ events, "v" ∈ slashedIn (run (Event.run plain) events solo) →
      ¬ Always (Event.run plain) (NotSlashed "v") events solo :=
    fun events hmem hall => (notSlashed_iff _).mp hall.last hmem
  exact ⟨⟨by decide +kernel, hslashed _ (by decide +kernel)⟩, by decide +kernel, hslashed _ (by decide +kernel)⟩

end FullNode

end AbsoluteChain
