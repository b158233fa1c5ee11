import AbsoluteChain.StakeChoice

/-!
# Exclusion of slashed validators

Whether an address that the slashing engine has slashed can still be selected as the
proposer, or be the miner of an accepted block, under any spelling of it.
-/

namespace AbsoluteChain

open Python Actions Act Transactions Runs KeyedTable

/-! ## Rows of validators -/

/-- The validator has a row that counts. -/
def Tables.Active (t : Tables) (address : String) : Prop := address ∈ t.getValidators.map Prod.fst

theorem Tables.active_iff {t : Tables} {a : String} :
    t.Active a ↔ ∃ v, t.validators.get? a = some v ∧ (v.active && !v.slashed) = true := by
  unfold Tables.Active Tables.getValidators
  rw [List.mem_map]
  constructor
  · rintro ⟨⟨b, v⟩, hv, rfl⟩
    obtain ⟨hmem, hon⟩ := List.mem_filter.mp hv
    exact ⟨v, (Table.mem_rows_iff _ _ _).mp hmem, hon⟩
  · rintro ⟨v, hv, hon⟩
    exact ⟨(a, v), List.mem_filter.mpr ⟨(Table.mem_rows_iff _ _ _).mpr hv, hon⟩, rfl⟩

theorem Tables.active_slashValidator (t : Tables) (v a : String) :
    (t.slashValidator v).Active a ↔ t.Active a ∧ a ≠ v := by
  rw [Tables.active_iff, Tables.active_iff]
  unfold Tables.slashValidator
  dsimp only
  rw [Table.get_update]
  by_cases ha : a = v
  · rw [if_pos ha]
    constructor
    · rintro ⟨w, hw, hon⟩
      obtain ⟨x, -, rfl⟩ := Option.map_eq_some_iff.mp hw
      cases hon
    · rintro ⟨-, hne⟩
      exact absurd ha hne
  · rw [if_neg ha]
    constructor
    · exact fun h => ⟨h, ha⟩
    · exact And.left

theorem Tables.active_congr {t u : Tables} (h : u.validators = t.validators) (a : String) : u.Active a ↔ t.Active a := by
  unfold Tables.Active Tables.getValidators
  rw [h]

theorem Tables.two_active {t : Tables} {a b : String} (ha : t.Active a) (hb : t.Active b) (h : a ≠ b) :
    2 ≤ t.getValidators.length := by
  unfold Tables.Active at ha hb
  rw [← List.length_map (f := Prod.fst)]
  match hl : t.getValidators.map Prod.fst with
  | [] =>
    rw [hl] at ha
    cases ha
  | [x] =>
    rw [hl] at ha hb
    exact absurd ((List.mem_singleton.mp ha).trans (List.mem_singleton.mp hb).symm) h
  | x :: y :: rest => exact Nat.le_add_left 2 _

theorem Tables.active_two {t : Tables} (h : ¬ t.getValidators.length ≤ 1) : ∃ a b, a ≠ b ∧ t.Active a ∧ t.Active b := by
  have hordered : Ordered t.getValidators := t.validators.ordered.sublist List.filter_sublist
  unfold Tables.Active
  match hl : t.getValidators with
  | [] =>
    rw [hl] at h
    exact absurd (Nat.zero_le 1) h
  | [x] =>
    rw [hl] at h
    exact absurd (le_refl 1) h
  | x :: y :: rest =>
    rw [hl] at hordered
    exact ⟨x.1, y.1, ne_of_lt (hordered.head_lt y List.mem_cons_self), List.mem_cons_self,
      List.mem_cons_of_mem _ List.mem_cons_self⟩

def Tables.saveValidator (now : Int) (address : String) (stake : ℚ) (t : Tables) : Tables :=
  { t with
    validators := t.validators.upsert address fun
      | none => { stake := stake, active := true, slashed := false, joinedAt := now }
      | some v => { v with stake := stake } }

/-- A new row counts, an old one counts as before. -/
theorem Tables.active_saveValidator (now : Int) (address : String) (stake : ℚ) (t : Tables) (a : String) :
    (t.Active a → (t.saveValidator now address stake).Active a) ∧
      ((t.saveValidator now address stake).Active a → t.Active a ∨ a = address) := by
  rw [Tables.active_iff, Tables.active_iff]
  unfold Tables.saveValidator
  dsimp only
  rw [Table.get_upsert]
  by_cases ha : a = address
  · subst ha
    rw [if_pos rfl]
    refine ⟨?_, fun _ => .inr rfl⟩
    rintro ⟨v, hv, hon⟩
    exact ⟨{ v with stake := stake }, by rw [hv], hon⟩
  · rw [if_neg ha]
    exact ⟨id, .inl⟩

/-! ## A frame for invariants -/

def holding {σ : Type} (I : σ → Prop) : Frame σ where
  rel s t := I s → I t
  refl _ := id
  trans h₁ h₂ h := h₂ (h₁ h)

section holding
variable {S : Tables → Prop} (hS : ∀ {t u : Tables}, u.validators = t.validators → S t → S u)

theorem within_committed {f : Tables → Tables} (h : ∀ t, S t → S (f t)) : Keeps (Blockchain.within S) (committed f) :=
  keeps_write fun db hs => ⟨h db.live hs.2, h db.live hs.2⟩

theorem within_bindInts (l : List Int) : Keeps (Blockchain.within S) (bindInts l) :=
  keeps_ite (fun _ => keeps_pure _) fun _ => keeps_raise _

include hS

theorem within_insertTransactions (host : Host) (blockHash : String) (blockHeight : Int) (txs : List TxDict) :
    Keeps (Blockchain.within S) (insertTransactions host blockHash blockHeight txs) := by
  induction txs with
  | nil => exact keeps_pure _
  | cons tx rest ih =>
    have hrow : ∀ f : Tables → Tables, (∀ t, (f t).validators = t.validators) → Keeps (Blockchain.within S) (statement f) :=
      fun f hf => Blockchain.within_statement fun t ht => hS (hf t) ht
    refine keeps_bind (keeps_bind (within_bindInts _) fun _ => hrow _ fun _ => rfl) fun _ => ?_
    refine keeps_bind (keeps_ite (fun _ => keeps_pure _) fun _ => ?_) fun _ => ih
    exact keeps_bind (within_bindInts _) fun _ => hrow _ fun _ => rfl

theorem within_persist (host : Host) (now : Int) (b : BlockDict) (txs : List TxDict) (burned : ℚ) (burnAddress : String) :
    Keeps (Blockchain.within S) (persistBlockLocked host now b txs burned burnAddress) := by
  have hrow : ∀ f : Tables → Tables, (∀ t, (f t).validators = t.validators) → Keeps (Blockchain.within S) (statement f) :=
    fun f hf => Blockchain.within_statement fun t ht => hS (hf t) ht
  unfold persistBlockLocked insertBlock insertProposerAudit
  refine keeps_bind (keeps_bind (within_bindInts _) fun _ => ?_) fun _ => ?_
  · exact keeps_bind (hrow _ fun _ => rfl) fun _ => hrow _ fun _ => rfl
  · refine keeps_bind (within_insertTransactions hS _ _ _ _) fun _ => ?_
    refine keeps_when fun _ => keeps_bind (hrow _ fun _ => rfl) fun _ => ?_
    exact keeps_when fun _ => hrow _ fun _ => rfl

end holding

/-! ## Slashed validators lose their rows -/

def Node.slashed (n : Node) : List String := (n.slashing.map SlashingEngine.slashed).getD []

/-- Since the slashed were `before` and the rows that count those of `A`, the rows have gone that belong to
the newly slashed, and no others. -/
structure Tracked (before : List String) (A : String → Prop) (n : Node) : Prop where
  persists : ∀ e, n.slashing = some e → e.persists = true
  grown : ∀ v ∈ before, v ∈ n.slashed
  live : ∀ a, n.db.live.Active a ↔ A a ∧ (a ∈ n.slashed → a ∈ before)
  file : ∀ a, n.db.file.Active a ↔ A a ∧ (a ∈ n.slashed → a ∈ before)

section tracked
variable {before : List String} {A : String → Prop} {n : Node}

theorem Tracked.record {e e' : SlashingEngine} (h : Tracked before A n) (he : n.slashing = some e)
    (hslashed : e'.slashed = e.slashed) (hpersists : e'.persists = e.persists) :
    Tracked before A { n with slashing := some e' } := by
  have hsame : Node.slashed { n with slashing := some e' } = n.slashed := by
    unfold Node.slashed
    rw [he]
    exact hslashed
  refine ⟨?_, ?_, ?_, ?_⟩
  · rintro _ hsome
    cases hsome
    exact hpersists.trans (h.persists e he)
  · rw [hsame]
    exact h.grown
  · rw [hsame]
    exact h.live
  · rw [hsame]
    exact h.file

theorem Tracked.slash {n : Node} {e e' : SlashingEngine} {w : String} (h : Tracked before A n) (he : n.slashing = some e)
    (hw : w ∉ e.slashed) (hslashed : e'.slashed = w :: e.slashed) (hpersists : e'.persists = e.persists) :
    Tracked before A { db := n.db.write (Tables.slashValidator w), slashing := some e' } := by
  have hbefore : n.slashed = e.slashed := by
    unfold Node.slashed
    rw [he]
    rfl
  have hold : w ∉ before := fun hin => hw (hbefore ▸ h.grown w hin)
  have hrow : ∀ a, (n.db.live.slashValidator w).Active a ↔ A a ∧ (a ∈ e'.slashed → a ∈ before) := by
    intro a
    rw [Tables.active_slashValidator, h.live, hbefore, hslashed]
    constructor
    · rintro ⟨⟨ha, hin⟩, hne⟩
      refine ⟨ha, fun hmem => ?_⟩
      rcases List.mem_cons.mp hmem with heq | hmem
      · exact absurd heq hne
      · exact hin hmem
    · rintro ⟨ha, hin⟩
      refine ⟨⟨ha, fun hmem => hin (List.mem_cons_of_mem _ hmem)⟩, ?_⟩
      rintro rfl
      exact hold (hin List.mem_cons_self)
  refine ⟨?_, ?_, hrow, hrow⟩
  · rintro _ hsome
    cases hsome
    exact hpersists.trans (h.persists e he)
  · intro v hv
    show v ∈ e'.slashed
    rw [hslashed]
    exact List.mem_cons_of_mem _ (hbefore ▸ h.grown v hv)

end tracked

namespace Blockchain

variable {c : Blockchain} {now : Int} {before : List String} {A : String → Prop}

theorem executionFree_validators : ExecutionFree Tables.validators := ⟨⟨fun _ _ => rfl, fun _ _ => rfl⟩, fun _ _ => rfl⟩

theorem tracked_onDb {α : Type} {m : Act Fault Db α}
    (h : ∀ S : Tables → Prop, (∀ {t u : Tables}, u.validators = t.validators → S t → S u) → Keeps (within S) m) :
    Keeps (holding (Tracked before A)) (onDb m) := by
  rintro n ⟨hpersists, hgrown, hlive, hfile⟩
  obtain ⟨hfile', hlive'⟩ := h (fun t => ∀ a, t.Active a ↔ A a ∧ (a ∈ n.slashed → a ∈ before))
    (fun hv hs a => (Tables.active_congr hv a).trans (hs a)) n.db ⟨hfile, hlive⟩
  exact ⟨hpersists, hgrown, hlive', hfile'⟩

theorem tracked_execution {α : Type} {m : Act Fault Db α} (h : Keeps (untouched Tables.validators) m) :
    Keeps (holding (Tracked before A)) (onDb m) := tracked_onDb fun _ hS => within_of_untouched hS h

theorem tracked_checkProposal (b : Block) : Keeps (holding (Tracked before A)) (checkProposal now b) := by
  intro n h
  unfold checkProposal
  simp only [bind_run, read_run]
  cases hs : n.slashing with
  | none => exact h
  | some e =>
    by_cases hm : b.miner = "" ∨ b.miner = "genesis"
    · simp only [if_pos hm]
      exact h
    · simp only [if_neg hm, recordProposal]
      by_cases h₁ : b.miner ∈ e.slashed
      · simp only [if_pos h₁, bind_run, pure_run]
        exact h
      · by_cases h₂ : (b.height, b.miner) ∈ e.proposals
        · simp only [if_neg h₁, if_pos h₂, slash, if_pos (h.persists e hs)]
          exact h.slash hs h₁ rfl rfl
        · simp only [if_neg h₁, if_neg h₂]
          exact h.record hs rfl rfl

theorem tracked_executeBlock (b : Block) (preserve : Bool) : Keeps (holding (Tracked before A)) (c.executeBlock now b preserve) := by
  unfold executeBlock
  refine keeps_bind (tracked_execution (keeps_applyTransactions executionFree_validators _ _ _)) fun txs => ?_
  refine keeps_bind (tracked_execution (keeps_applyBlockReward executionFree_validators _)) fun _ => ?_
  refine keeps_bind (tracked_execution (keeps_query _)) fun root => ?_
  refine keeps_bind (keeps_checkPeerRoot _ _ _) fun _ => keeps_bind (tracked_checkProposal _) fun _ => ?_
  exact keeps_bind (tracked_onDb fun _ hS => within_persist hS _ _ _ _ _ _) fun _ => keeps_pure _

/-- A rollback gives the rows that are durable, and those are the same. -/
theorem tracked_atomically {α : Type} {body : Act Fault Node α} (h : Keeps (holding (Tracked before A)) body) :
    Keeps (holding (Tracked before A)) (atomically nestedTransaction Node.dbPart body) := by
  intro n hn
  cases hb : n.db.begin? with
  | none =>
    rw [atomically_refused (P := Node.dbPart) nestedTransaction hb]
    exact hn
  | some db =>
    obtain ⟨hlive, hfile⟩ := Store.live_begin hb
    have hopened : Tracked before A (Node.dbPart.set db n) := by
      refine ⟨hn.persists, hn.grown, ?_, ?_⟩
      · show ∀ a, db.live.Active a ↔ _
        rw [hlive]
        exact hn.live
      · show ∀ a, db.file.Active a ↔ _
        rw [hfile]
        exact hn.live
    rcases hr : body (Node.dbPart.set db n) with ⟨e | x, n₁⟩
    · rw [atomically_raised (P := Node.dbPart) nestedTransaction hb hr]
      have h₁ := keeps_apply h hr hopened
      exact ⟨h₁.persists, h₁.grown, h₁.file, h₁.file⟩
    · rw [atomically_returned (P := Node.dbPart) nestedTransaction hb hr]
      have h₁ := keeps_apply h hr hopened
      exact ⟨h₁.persists, h₁.grown, h₁.live, h₁.live⟩

theorem tracked_addBlock (b : Block) (preserve : Bool) : Keeps (holding (Tracked before A)) (c.addBlock now b preserve) := by
  have haudit : ∀ f, Keeps (holding (Tracked before A)) (c.auditMismatch now b preserve f) := by
    intro f
    unfold auditMismatch
    cases f.roots with
    | none => exact keeps_pure _
    | some r =>
      refine keeps_attempt (tracked_onDb fun S hS => ?_) fun _ => keeps_pure _
      exact keeps_bind (within_bindInts _) fun _ => within_committed fun t ht => hS (t := t) rfl ht
  unfold addBlock
  refine keeps_bind (keeps_read _) fun n => keeps_bind (keeps_liftExcept _) fun _ => ?_
  exact keeps_attempt (tracked_atomically (tracked_executeBlock b preserve)) fun f => keeps_bind (haudit f) fun _ => keeps_raise _

theorem tracked_importBlock (d : PeerBlock) : Keeps (holding (Tracked before A)) (c.importBlock now d) := by
  have hfresh : ∀ d, Keeps (holding (Tracked before A)) (c.importFresh now d) := fun d =>
    keeps_bind (tracked_execution (keeps_query _)) fun _ => keeps_bind (keeps_liftExcept _) fun _ => tracked_addBlock _ _
  unfold importBlock
  refine keeps_bind (keeps_liftExcept _) fun _ => keeps_bind (tracked_execution (keeps_query _)) fun row => ?_
  cases row with
  | none => exact hfresh _
  | some e =>
    refine keeps_ite (fun _ => keeps_bind (tracked_onDb fun S hS => ?_) fun _ => hfresh _) fun _ => keeps_raise _
    exact within_atomically (within_statement fun t ht => hS (t := t) rfl ht)

theorem tracked_reorg (floor height : Int) : Keeps (holding (Tracked before A)) (onDb (c.reorgToAncestor now floor height)) := by
  refine tracked_onDb fun S hS => ?_
  unfold reorgToAncestor replayFromGenesis checkReplayRoot
  refine keeps_ite (fun _ => keeps_raise _) fun _ => keeps_bind (keeps_query _) fun tip => ?_
  refine keeps_ite (fun _ => keeps_pure _) fun _ => within_atomically ?_
  refine keeps_bind (within_bindInts _) fun _ => ?_
  refine keeps_bind (keeps_when fun _ => within_statement fun t ht => hS (t := t) rfl ht) fun _ => ?_
  refine keeps_bind (within_statement fun t ht => hS (t := t) rfl ht) fun _ => ?_
  refine keeps_bind (within_of_untouched hS (keeps_replayBlocks executionFree_validators _ _)) fun _ => ?_
  refine keeps_bind (keeps_query _) fun t => ?_
  cases t.getBlock height with
  | none => exact keeps_pure _
  | some d => exact keeps_ite (fun _ => keeps_raise _) fun _ => keeps_pure _

end Blockchain

/-! ## Events of a node -/

namespace FullNode

open Blockchain

variable {c : Blockchain} {before : List String} {A : String → Prop} {n : FullNode}

theorem settled_node (n : FullNode) (r : Except Fault Block × Node) : (n.settled r).node = r.2 := by
  rcases r with ⟨f | stored, node⟩ <;> rfl

theorem addVote_marks (e : SlashingEngine) (now : Int) (v : String) (slot : Int) (hash : String) :
    (e.addVote now v slot hash).2.persists = e.persists ∧
      ((e.addVote now v slot hash).2.slashed = e.slashed ∨
        v ∉ e.slashed ∧ (e.addVote now v slot hash).2.slashed = v :: e.slashed) := by
  unfold SlashingEngine.addVote SlashingEngine.recordVote SlashingEngine.mark
  by_cases hv : v ∈ e.slashed
  · rw [if_pos hv]
    exact ⟨rfl, .inl rfl⟩
  · rw [if_neg hv, if_neg hv, if_neg hv]
    cases (e.votesOf v).get? slot with
    | none => exact ⟨rfl, .inl rfl⟩
    | some seen =>
      dsimp only
      by_cases hne : seen ≠ hash
      · rw [if_pos hne]
        exact ⟨rfl, .inr ⟨hv, rfl⟩⟩
      · rw [if_neg hne]
        exact ⟨rfl, .inl rfl⟩

theorem tracked_attestSlashing (now : Int) (validator blockHash : String) (slot : Int) (h : Tracked before A n.node) :
    Tracked before A (attestSlashing now validator blockHash slot n).2.node := by
  have hvote : ∀ e : SlashingEngine,
      ((ConsensusEngineSlashing.mk n.adapter.board e).onAttestation now validator blockHash slot).2.slashing =
        (e.addVote now validator slot blockHash).2 := by
    intro e
    unfold ConsensusEngineSlashing.onAttestation
    by_cases hr : (e.addVote now validator slot blockHash).1 = true
    · rw [if_pos hr]
      rfl
    · rw [if_neg hr]
  unfold attestSlashing
  simp only [bind_run, read_run, slashingEngine]
  cases hs : n.node.slashing with
  | none => exact h
  | some e =>
    obtain ⟨hpersists, hmark⟩ := addVote_marks e now validator slot blockHash
    simp only [Option.map_some, bind_run, write_run, hvote]
    rcases hmark with hsame | ⟨hnew, hmark⟩
    · have hno : ¬ ((e.addVote now validator slot blockHash).2.slashed ≠ e.slashed ∧ e.persists = true) :=
        fun hp => hp.1 hsame
      rw [if_neg hno]
      exact h.record hs hsame hpersists
    · have hne : (e.addVote now validator slot blockHash).2.slashed ≠ e.slashed := by
        rw [hmark]
        exact List.cons_ne_self _ _
      rw [if_pos ⟨hne, h.persists e hs⟩]
      exact h.slash hs hnew hmark hpersists

theorem tracked_run (ev : Event) (h : Tracked before A n.node) : Tracked before A (ev.run c n).node := by
  cases ev with
  | addBlock now b preserve =>
    have hrun := congrArg FullNode.node (addBlock_run c now b preserve n)
    rw [settled_node] at hrun
    show Tracked before A (FullNode.addBlock c now b preserve n).2.node
    rw [hrun]
    exact tracked_addBlock b preserve n.node h
  | importBlock now d =>
    have hrun := congrArg FullNode.node (importBlock_run c now d n)
    rw [settled_node] at hrun
    show Tracked before A (FullNode.importBlock c now d n).2.node
    rw [hrun]
    exact tracked_importBlock d n.node h
  | attest now validator blockHash =>
    show Tracked before A (FullNode.attest now validator blockHash n).2.node
    rw [attest_node]
    exact tracked_attestSlashing now validator blockHash n.adapter.engine.currentSlot h
  | markBlockProduced => exact h
  | reorgToAncestor now height => exact tracked_reorg _ height n.node h
  | truncateToHeight height =>
    refine tracked_onDb (fun S hS => ?_) n.node h
    exact within_atomically (keeps_bind (within_bindInts _) fun _ => within_statement fun t ht => hS (t := t) rfl ht)

theorem proposed_marks (now : Int) (b : Block) (e : SlashingEngine) :
    (proposed now b e).slashed = e.slashed ∨ b.miner ∉ e.slashed ∧ (proposed now b e).slashed = b.miner :: e.slashed := by
  unfold proposed SlashingEngine.propose SlashingEngine.mark
  by_cases hm : b.miner = "" ∨ b.miner = "genesis"
  · rw [if_pos hm]
    exact .inl rfl
  · rw [if_neg hm]
    by_cases hs : b.miner ∈ e.slashed
    · rw [if_pos hs]
      exact .inl rfl
    · rw [if_neg hs, if_neg hs]
      by_cases hp : (b.height, b.miner) ∈ e.proposals
      · rw [if_pos hp]
        exact .inr ⟨hs, rfl⟩
      · rw [if_neg hp]
        exact .inl rfl

theorem judge_marks (ev : Event) (n : FullNode) (e : SlashingEngine) :
    (ev.judge c n e).slashed = e.slashed ∨ ∃ w, w ∉ e.slashed ∧ (ev.judge c n e).slashed = w :: e.slashed := by
  have hblock : ∀ (now : Int) (b : Option Block), (b.elim e fun b => proposed now b e).slashed = e.slashed ∨
      ∃ w, w ∉ e.slashed ∧ (b.elim e fun b => proposed now b e).slashed = w :: e.slashed := by
    intro now b
    cases b with
    | none => exact .inl rfl
    | some b => exact (proposed_marks now b e).imp id fun h => ⟨b.miner, h⟩
  cases ev with
  | addBlock now b preserve => exact hblock now _
  | importBlock now d => exact hblock now _
  | attest now v hash => exact (addVote_marks e now v _ hash).2.imp id fun h => ⟨v, h⟩
  | markBlockProduced => exact .inl rfl
  | reorgToAncestor now height => exact .inl rfl
  | truncateToHeight height => exact .inl rfl

theorem run_marks (ev : Event) (n : FullNode) : (ev.run c n).node.slashed = n.node.slashed ∨
    ∃ w, w ∉ n.node.slashed ∧ (ev.run c n).node.slashed = w :: n.node.slashed := by
  unfold Node.slashed
  rw [run_slashing]
  cases n.node.slashing with
  | none => exact .inl rfl
  | some e => exact judge_marks ev n e

/-! ## The proposer engine -/

theorem registered_run (ev : Event) (n : FullNode) : (ev.run c n).registered = n.registered := by
  cases ev with
  | addBlock now b preserve =>
    exact (congrArg registered (addBlock_run c now b preserve n)).trans (settled_registered n _)
  | importBlock now d => exact (congrArg registered (importBlock_run c now d n)).trans (settled_registered n _)
  | attest now v hash => exact (attest_kept now v hash n).2.2
  | markBlockProduced => exact congrArg (List.map Prod.fst) (advanceSlot_validators n.adapter.engine)
  | reorgToAncestor now height => rfl
  | truncateToHeight height => rfl

end FullNode

/-- A replaced value goes unnoticed where the new one reads as the old one. -/
theorem filterMap_set {κ β γ : Type} [DecidableEq κ] {read : κ × β → Option γ} {k : κ} {v w : β}
    (h : read (k, w) = read (k, v)) {d : Dict κ β} (hv : d.get? k = some v) :
    (d.set k w).filterMap read = d.filterMap read := by
  induction d with
  | nil => cases hv
  | cons e t ih =>
    obtain ⟨a, x⟩ := e
    rw [Dict.get?_cons] at hv
    unfold Dict.set
    by_cases ha : a = k
    · subst ha
      rw [if_pos rfl] at hv
      cases hv
      rw [if_pos rfl, List.filterMap_cons, List.filterMap_cons, h]
    · rw [if_neg fun he => ha he.symm] at hv
      rw [if_neg ha, List.filterMap_cons, List.filterMap_cons, ih hv]

theorem contains_of_key {κ β : Type} [DecidableEq κ] {d : Dict κ β} {k : κ} (h : k ∈ d.map Prod.fst) :
    d.contains k = true := by
  unfold Dict.contains
  induction d with
  | nil => cases h
  | cons e t ih =>
    obtain ⟨a, x⟩ := e
    rw [Dict.get?_cons]
    by_cases ha : k = a
    · rw [if_pos ha]
      rfl
    · rw [if_neg ha]
      rcases List.mem_cons.mp h with he | ht
      · exact absurd he ha
      · exact ih ht

namespace ConsensusEngine

def shares (s : ConsensusEngine) : List (String × ℚ) :=
  s.validators.filterMap fun e => if e.2.isActive then some (e.1, e.2.stake) else none

def Shareless (s : ConsensusEngine) (address : String) : Prop :=
  ∀ e ∈ s.shares, e.1 = address → e.2 ≤ 0 ∧ ∃ d ∈ s.shares, d.1 < address

section shares
variable {s : ConsensusEngine}

theorem mem_shares {e : String × ℚ} :
    e ∈ s.shares ↔ ∃ d ∈ sortedBy Prod.fst s.active, (d.1, d.2.stake) = e := by
  have hread : ∀ d : String × PosValidator, (if d.2.isActive then some (d.1, d.2.stake) else none) = some e ↔
      d.2.isActive = true ∧ (d.1, d.2.stake) = e := by
    intro d
    by_cases ha : d.2.isActive = true
    · rw [if_pos ha, Option.some_inj]
      exact (and_iff_right ha).symm
    · rw [if_neg ha]
      exact ⟨(fun h => by cases h), fun h => absurd h.1 ha⟩
  have hactive : ∀ d, d ∈ sortedBy Prod.fst s.active ↔ d ∈ s.validators ∧ d.2.isActive = true :=
    fun d => (Miner.sortedBy_perm _ _).mem_iff.trans List.mem_filter
  unfold shares
  rw [List.mem_filterMap]
  constructor
  · rintro ⟨d, hd, he⟩
    obtain ⟨ha, he⟩ := (hread d).mp he
    exact ⟨d, (hactive d).mpr ⟨hd, ha⟩, he⟩
  · rintro ⟨d, hd, he⟩
    obtain ⟨hd, ha⟩ := (hactive d).mp hd
    exact ⟨d, hd, (hread d).mpr ⟨ha, he⟩⟩

theorem reach_split {target : ℚ} {a : String} {l : List (String × PosValidator)} {current : ℚ}
    (h : reach target current l = some a) : ∃ first e rest, l = first ++ e :: rest ∧ e.1 = a ∧
      (first = [] ∨ current + (first.map fun d => d.2.stake).sum < target) ∧
      target ≤ current + (first.map fun d => d.2.stake).sum + e.2.stake := by
  induction l generalizing current with
  | nil => cases h
  | cons e l ih =>
    obtain ⟨b, v⟩ := e
    unfold reach at h
    by_cases ht : target ≤ current + v.stake
    · rw [if_pos ht] at h
      refine ⟨[], (b, v), l, rfl, Option.some.inj h, .inl rfl, ?_⟩
      rw [List.map_nil, List.sum_nil, add_zero]
      exact ht
    · rw [if_neg ht] at h
      obtain ⟨first, e, rest, rfl, ha, hlow, hhigh⟩ := ih h
      refine ⟨(b, v) :: first, e, rest, rfl, ha, .inr ?_, ?_⟩
      · rw [List.map_cons, List.sum_cons, ← add_assoc]
        rcases hlow with rfl | hlow
        · rw [List.map_nil, List.sum_nil, add_zero]
          exact not_le.mp ht
        · exact hlow
      · rw [List.map_cons, List.sum_cons, ← add_assoc]
        exact hhigh

theorem reach_found {target : ℚ} {e : String × PosValidator} {rest first : List (String × PosValidator)} {current : ℚ}
    (hnonneg : ∀ d ∈ first, 0 ≤ d.2.stake) (hlow : current + (first.map fun d => d.2.stake).sum < target)
    (hhigh : target ≤ current + (first.map fun d => d.2.stake).sum + e.2.stake) :
    reach target current (first ++ e :: rest) = some e.1 := by
  induction first generalizing current with
  | nil =>
    rw [List.map_nil, List.sum_nil, add_zero] at hhigh
    rw [List.nil_append]
    unfold reach
    exact if_pos hhigh
  | cons d first ih =>
    rw [List.map_cons, List.sum_cons, ← add_assoc] at hlow hhigh
    have hrest : 0 ≤ (first.map fun d => d.2.stake).sum := by
      apply List.sum_nonneg
      intro x hx
      obtain ⟨y, hy, rfl⟩ := List.mem_map.mp hx
      exact hnonneg y (List.mem_cons_of_mem _ hy)
    have hskip : ¬ target ≤ current + d.2.stake := by linarith
    rw [List.cons_append]
    unfold reach
    rw [if_neg hskip]
    exact ih (fun y hy => hnonneg y (List.mem_cons_of_mem _ hy)) hlow hhigh

/-- No target is above the sum before a validator and at most that sum with a stake of nothing. -/
theorem Shareless.unreached {a : String} {target : ℚ} (h : s.Shareless a) :
    reach target 0 (sortedBy Prod.fst s.active) ≠ some a := by
  intro hr
  obtain ⟨first, e, rest, hl, rfl, hlow, hhigh⟩ := reach_split hr
  have hin : (e.1, e.2.stake) ∈ s.shares :=
    mem_shares.mpr ⟨e, by rw [hl]; exact List.mem_append_right _ List.mem_cons_self, rfl⟩
  obtain ⟨hstake, d, hd, hbefore⟩ := h _ hin rfl
  rcases hlow with rfl | hlow
  · obtain ⟨x, hx, rfl⟩ := mem_shares.mp hd
    have hleast := (head_sortedBy hl).2 x ((Miner.sortedBy_perm _ _).mem_iff.mp hx)
    exact absurd hbefore (not_lt.mpr hleast)
  · have hstake' : e.2.stake ≤ 0 := hstake
    linarith

theorem Shareless.unselected {a : String} (h : s.Shareless a) : s.selectProposer ≠ some a := by
  unfold selectProposer
  by_cases ht : s.getTotalStake = 0
  · rw [if_pos ht]
    exact fun hr => nomatch hr
  · rw [if_neg ht]
    exact h.unreached

theorem picksOf_empty {a : String} (hnonneg : ∀ e ∈ s.shares, 0 ≤ e.2) (hpos : 0 < s.getTotalStake) :
    s.picksOf a = ∅ ↔ s.Shareless a := by
  constructor
  · intro hnone
    rintro ⟨b, stake⟩ hb rfl
    obtain ⟨e, he, heq⟩ := mem_shares.mp hb
    cases heq
    obtain ⟨first, rest, hl⟩ := List.append_of_mem he
    have hstakes : ∀ d ∈ first ++ e :: rest, 0 ≤ d.2.stake := fun d hd =>
      hnonneg _ (mem_shares.mpr ⟨d, hl ▸ hd, rfl⟩)
    have hsum : ∀ l : List (String × PosValidator), (∀ d ∈ l, 0 ≤ d.2.stake) → 0 ≤ (l.map fun d => d.2.stake).sum := by
      intro l hl
      apply List.sum_nonneg
      intro x hx
      obtain ⟨y, hy, rfl⟩ := List.mem_map.mp hx
      exact hl y hy
    have hfirst := hsum first fun d hd => hstakes d (List.mem_append_left _ hd)
    have hrest := hsum rest fun d hd => hstakes d (List.mem_append_right _ (List.mem_cons_of_mem _ hd))
    have htotal : s.getTotalStake =
        (first.map fun d => d.2.stake).sum + (e.2.stake + (rest.map fun d => d.2.stake).sum) := by
      rw [← sum_sorted, hl, List.map_append, List.sum_append, List.map_cons, List.sum_cons]
    constructor
    · -- a stake leaves room for a target
      by_contra hstake
      have hstake' : 0 < e.2.stake := not_le.mp hstake
      have hpick : (first.map fun d => d.2.stake).sum + e.2.stake / 2 ∈ s.picksOf e.1 := by
        refine ⟨by linarith, by linarith, ?_⟩
        rw [hl]
        refine reach_found (fun d hd => hstakes d (List.mem_append_left _ hd)) ?_ ?_
        · linarith
        · linarith
      rw [hnone] at hpick
      exact hpick
    · -- the first in the order is reached by a target of zero
      by_contra hfirst'
      have hleast : ∀ d ∈ s.shares, e.1 ≤ d.1 := fun d hd => not_lt.mp fun hlt => hfirst' ⟨d, hd, hlt⟩
      have hpick : (0 : ℚ) ∈ s.picksOf e.1 := by
        refine ⟨le_refl 0, hpos, ?_⟩
        cases hsorted : sortedBy Prod.fst s.active with
        | nil =>
          rw [hsorted] at he
          cases he
        | cons d l =>
          have hd : d ∈ sortedBy Prod.fst s.active := by rw [hsorted]; exact List.mem_cons_self
          have hnot : 0 ≤ 0 + d.2.stake := by
            rw [zero_add]
            exact hstakes d (hl ▸ hd)
          have hsame : d.1 = e.1 := le_antisymm ((head_sortedBy hsorted).2 e ((Miner.sortedBy_perm _ _).mem_iff.mp he))
            (hleast _ (mem_shares.mpr ⟨d, hd, rfl⟩))
          unfold reach
          rw [if_pos hnot, hsame]
      rw [hnone] at hpick
      exact hpick
  · intro h
    apply Set.eq_empty_of_forall_notMem
    rintro target ⟨-, -, hr⟩
    exact h.unreached hr

theorem attest_shares (s : ConsensusEngine) (validator : String) (slot : Int) :
    (s.attest validator slot).2.shares = s.shares := by
  unfold attest
  cases hv : s.validators.get? validator with
  | none => rfl
  | some v =>
    dsimp only
    split
    · exact filterMap_set (by rfl) hv
    · rfl

theorem addValidator_shares (s : ConsensusEngine) (address : String) (stake : ℚ) {e : String × ℚ} :
    (e ∈ s.shares → e ∈ (s.addValidator address stake).2.shares) ∧
      (e ∈ (s.addValidator address stake).2.shares → e ∈ s.shares ∨ e.1 = address ∧ address ∉ s.validators.map Prod.fst) := by
  unfold addValidator
  by_cases hin : s.validators.contains address = true
  · rw [if_pos hin]
    exact ⟨id, .inl⟩
  · have hnot : address ∉ s.validators.map Prod.fst := fun hmem => hin (contains_of_key hmem)
    rw [if_neg hin]
    unfold shares
    dsimp only
    rw [Dict.set_of_not_mem hnot, List.filterMap_append, List.mem_append]
    refine ⟨.inl, fun h => h.imp id fun hnew => ?_⟩
    obtain ⟨d, hd, he⟩ := List.mem_filterMap.mp hnew
    rw [List.mem_singleton.mp hd] at he
    cases he
    exact ⟨rfl, hnot⟩

theorem Shareless.addValidator {a : String} (h : s.Shareless a) {address : String} (stake : ℚ)
    (hne : address = a → address ∈ s.validators.map Prod.fst) : (s.addValidator address stake).2.Shareless a := by
  intro e he ha
  rcases (addValidator_shares s address stake).2 he with hold | ⟨hnew, hnot⟩
  · obtain ⟨hstake, d, hd, hbefore⟩ := h e hold ha
    exact ⟨hstake, d, (addValidator_shares s address stake).1 hd, hbefore⟩
  · exact absurd (hne (hnew.symm.trans ha)) hnot

end shares

end ConsensusEngine

theorem FullNode.shares_run {c : Blockchain} (ev : FullNode.Event) (n : FullNode) :
    (ev.run c n).adapter.engine.shares = n.adapter.engine.shares := by
  have hsettled : ∀ r : Except Fault Block × Node, (n.settled r).adapter.engine.shares = n.adapter.engine.shares := by
    rintro ⟨f | b', n₁⟩ <;> rfl
  cases ev with
  | addBlock now b preserve =>
    exact (congrArg (fun n => n.adapter.engine.shares) (addBlock_run c now b preserve n)).trans (hsettled _)
  | importBlock now d => exact (congrArg (fun n => n.adapter.engine.shares) (importBlock_run c now d n)).trans (hsettled _)
  | attest now v hash =>
    show (attest now v hash n).2.adapter.engine.shares = _
    obtain ⟨board, hadapter | hadapter⟩ := attest_adapter now v hash n
    · rw [hadapter]
    · rw [hadapter]
      exact ConsensusEngine.attest_shares _ _ _
  | markBlockProduced =>
    exact congrArg (List.filterMap fun e => if e.2.isActive then some (e.1, e.2.stake) else none)
      (advanceSlot_validators n.adapter.engine)
  | reorgToAncestor now height => rfl
  | truncateToHeight height => rfl

def FullNode.selectProposer (c : Blockchain) (n : FullNode) : String :=
  let own := orElse c.config.minerAddress "genesis"
  if n.adapter.engine.validators = [] then own else n.adapter.engine.selectProposer.getD own

def FullNode.addValidator (now : Int) (address : String) (stake : ℚ) (n : FullNode) : FullNode :=
  let r := n.adapter.engine.addValidator address stake
  if r.1 then
    let n : FullNode :=
      { node := { n.node with db := n.node.db.write (Tables.saveValidator now address stake) }
        adapter := { n.adapter with engine := r.2 } }
    match n.slashingEngine with
    | none => n.syncFinalityValidatorCount
    | some s =>
      let s := s.addValidator address (truncate stake)
      FullNode.syncFinalityValidatorCount
        { node := { n.node with slashing := some s.slashing }
          adapter := { n.adapter with board := s.board } }
  else n

theorem FullNode.selectProposer_cases (c : Blockchain) (n : FullNode) :
    n.selectProposer c = orElse c.config.minerAddress "genesis" ∨ n.adapter.engine.selectProposer = some (n.selectProposer c) := by
  unfold selectProposer
  by_cases he : n.adapter.engine.validators = []
  · exact .inl (if_pos he)
  · dsimp only
    rw [if_neg he]
    cases h : n.adapter.engine.selectProposer with
    | none => exact .inl rfl
    | some a => exact .inr rfl

/-! ## A node that runs -/

structure Station where
  full : FullNode
  minerAddress : String

namespace Station

open FullNode Blockchain

variable (c : Blockchain)

def chain (s : Station) : Blockchain := { c with config := { c.config with minerAddress := s.minerAddress } }

def start (epochs : EpochManager) (db : Db) : Station :=
  { full := .start epochs db, minerAddress := c.config.minerAddress }

/-- What may happen: an event of the node, a new validator, or the mining loop naming the next proposer. -/
inductive Event where
  | node (ev : FullNode.Event)
  | addValidator (now : Int) (address : String) (stake : ℚ)
  | mineAs (address : String)

def Event.run : Event → Station → Station
  | .node ev, s => { s with full := ev.run (s.chain c) s.full }
  | .addValidator now address stake, s => { s with full := s.full.addValidator now address stake }
  | .mineAs address, s => { s with minerAddress := address }

/-- No slashed validator is the next proposer, and no block of one is accepted, however it is spelled. -/
def Excluded (s : Station) : Prop := ∀ v ∈ s.full.node.slashed,
  c.host.lower (s.full.selectProposer (s.chain c)) ≠ c.host.lower v ∧
  ∀ now b preserve, c.host.lower b.miner = c.host.lower v →
    ∀ b' n', (s.chain c).addBlock now b preserve s.full.node ≠ (.ok b', n')

/-- Proposers are checked, two rows are left that count, and neither a row nor an own address spells `v`. -/
structure Enclosed (left : String → Prop) (v : String) (s : Station) : Prop where
  checked : c.config.enforceProposer = true
  others : ∃ a b, a ≠ b ∧ left a ∧ left b
  rows : ∀ a, left a → c.host.lower a ≠ c.host.lower v
  own : c.host.lower s.minerAddress ≠ c.host.lower v ∧ c.host.lower c.config.signingAddress ≠ c.host.lower v

/-- With these addresses slashed and these rows left, no spelling of `v` passes as a proposer. -/
def Barred (gone left : String → Prop) (v : String) (s : Station) : Prop :=
  (∀ a, c.host.lower a = c.host.lower v → gone a) ∨ Enclosed c left v s

/-- No check lets these names fail. -/
def Named (v : String) : Prop := c.host.lower "" ≠ c.host.lower v ∧ c.host.lower "genesis" ≠ c.host.lower v

/-- No spelling of `v` may be chosen: it is not the node's own address and has no part in the draws. -/
structure Unchosen (v : String) (s : Station) : Prop where
  named : Named c v
  own : c.host.lower s.minerAddress ≠ c.host.lower v
  shareless : ∀ a, c.host.lower a = c.host.lower v → s.full.adapter.engine.Shareless a

/-- Whoever an event slashes may not be chosen, and all that are slashed then are barred; no slashed address
comes back, neither as a new validator nor as the miner. -/
def Careful : Event → Station → Prop
  | .node ev, s => ∀ w ∉ s.full.node.slashed, ¬ Harmless (s.chain c) w ev s.full →
      Unchosen c w s ∧ ∀ v, v ∈ s.full.node.slashed ∨ v = w →
        Barred c (fun a => a ∈ s.full.node.slashed ∨ a = w) (fun a => s.full.node.db.live.Active a ∧ a ≠ w) v s
  | .addValidator _ address _, s =>
      ∀ v ∈ s.full.node.slashed, c.host.lower address = c.host.lower v → address ∈ s.full.registered
  | .mineAs address, s => ∀ v ∈ s.full.node.slashed, c.host.lower address ≠ c.host.lower v

/-- What keeps a slashed validator out. -/
structure Shut (v : String) (s : Station) : Prop where
  unchosen : Unchosen c v s
  barred : Barred c (· ∈ s.full.node.slashed) s.full.node.db.live.Active v s

structure Guarded (s : Station) : Prop where
  persists : ∀ e, s.full.node.slashing = some e → e.persists = true
  durable : ∀ a, s.full.node.db.file.Active a ↔ s.full.node.db.live.Active a
  shut : ∀ v ∈ s.full.node.slashed, Shut c v s

variable {c} {s : Station}

theorem Guarded.tracked (h : Guarded c s) : Tracked s.full.node.slashed s.full.node.db.live.Active s.full.node where
  persists := h.persists
  grown _ hv := hv
  live _ := ⟨fun ha => ⟨ha, id⟩, And.left⟩
  file a := (h.durable a).trans ⟨fun ha => ⟨ha, id⟩, And.left⟩

theorem Barred.mono {gone gone' left left' : String → Prop} {v : String} {s' : Station} (h : Barred c gone left v s)
    (hgone : ∀ a, gone a → gone' a) (hless : ∀ a, left' a → left a)
    (hothers : (∃ a b, a ≠ b ∧ left a ∧ left b) → ∃ a b, a ≠ b ∧ left' a ∧ left' b)
    (hminer : s'.minerAddress = s.minerAddress) : Barred c gone' left' v s' := by
  rcases h with h | h
  · exact .inl fun a ha => hgone a (h a ha)
  · refine .inr ⟨h.checked, hothers h.others, fun a ha => h.rows a (hless a ha), ?_⟩
    rw [hminer]
    exact h.own

theorem Unchosen.keep {v : String} {f : FullNode} (h : Unchosen c v s)
    (hshares : f.adapter.engine.shares = s.full.adapter.engine.shares) : Unchosen c v { s with full := f } where
  named := h.named
  own := h.own
  shareless a ha := by
    show f.adapter.engine.Shareless a
    unfold ConsensusEngine.Shareless
    rw [hshares]
    exact h.shareless a ha

theorem Guarded.event {ev : FullNode.Event} (h : Guarded c s) (hc : Careful c (.node ev) s) :
    Guarded c (Event.run c (.node ev) s) := by
  have ht := tracked_run (c := s.chain c) ev h.tracked
  have hshares := shares_run (c := s.chain c) ev s.full
  have hless : ∀ a, (ev.run (s.chain c) s.full).node.db.live.Active a → s.full.node.db.live.Active a :=
    fun a ha => ((ht.live a).mp ha).1
  refine ⟨ht.persists, fun a => (ht.file a).trans (ht.live a).symm, ?_⟩
  show ∀ v ∈ (ev.run (s.chain c) s.full).node.slashed, _
  rcases run_marks (c := s.chain c) ev s.full with hsame | ⟨w, hnew, hmark⟩
  · have hkept : ∀ a, s.full.node.db.live.Active a → (ev.run (s.chain c) s.full).node.db.live.Active a := by
      intro a ha
      refine (ht.live a).mpr ⟨ha, fun hin => ?_⟩
      rw [hsame] at hin
      exact hin
    rw [hsame]
    intro v hv
    refine ⟨(h.shut v hv).unchosen.keep hshares, (h.shut v hv).barred.mono (fun a ha => ?_) hless ?_ rfl⟩
    · show a ∈ (ev.run (s.chain c) s.full).node.slashed
      rw [hsame]
      exact ha
    · rintro ⟨a, b, hne, ha, hb⟩
      exact ⟨a, b, hne, hkept a ha, hkept b hb⟩
  · -- `w` is slashed by the event, so there is evidence against it
    have hevidence : ¬ Harmless (s.chain c) w ev s.full := by
      intro hharmless
      have hnot := (notSlashed_step (c := s.chain c) ev s.full ((notSlashed_iff s.full).mpr hnew)).mpr hharmless
      refine (notSlashed_iff _).mp hnot ?_
      show w ∈ (ev.run (s.chain c) s.full).node.slashed
      rw [hmark]
      exact List.mem_cons_self
    obtain ⟨hunchosen, hbarred⟩ := hc w hnew hevidence
    -- whoever stays active is none but `w`
    have hleft : ∀ a, (ev.run (s.chain c) s.full).node.db.live.Active a ↔ s.full.node.db.live.Active a ∧ a ≠ w := by
      intro a
      rw [ht.live a, hmark]
      constructor
      · rintro ⟨ha, hin⟩
        refine ⟨ha, ?_⟩
        rintro rfl
        exact hnew (hin List.mem_cons_self)
      · rintro ⟨ha, hne⟩
        exact ⟨ha, fun hin => (List.mem_cons.mp hin).resolve_left hne⟩
    rw [hmark]
    intro v hv
    have hwas : v ∈ s.full.node.slashed ∨ v = w := (List.mem_cons.mp hv).symm
    refine ⟨?_, (hbarred v hwas).mono (fun a ha => ?_) (fun a ha => (hleft a).mp ha) ?_ rfl⟩
    · rcases hwas with hv | rfl
      · exact (h.shut v hv).unchosen.keep hshares
      · exact hunchosen.keep hshares
    · show a ∈ (ev.run (s.chain c) s.full).node.slashed
      rw [hmark]
      exact List.mem_cons.mpr ha.symm
    · rintro ⟨a, b, hne, ha, hb⟩
      exact ⟨a, b, hne, (hleft a).mpr ha, (hleft b).mpr hb⟩

/-- What a registration changes, when it is accepted. -/
theorem addValidator_cases (now : Int) (address : String) (stake : ℚ) (n : FullNode) :
    n.addValidator now address stake = n ∨
      (address ∉ n.registered ∧
        (n.addValidator now address stake).node.db = n.node.db.write (Tables.saveValidator now address stake) ∧
        (n.addValidator now address stake).node.slashing =
          n.node.slashing.map (fun e => e.registerValidator address (truncate stake)) ∧
        (n.addValidator now address stake).adapter.engine = (n.adapter.engine.addValidator address stake).2) := by
  unfold FullNode.addValidator
  by_cases hr : (n.adapter.engine.addValidator address stake).1 = true
  · right
    have hnew : address ∉ n.registered := by
      intro hin
      unfold ConsensusEngine.addValidator at hr
      rw [if_pos (contains_of_key hin)] at hr
      cases hr
    simp only [hr, if_true]
    cases hs : n.node.slashing with
    | none =>
      simp only [slashingEngine, Option.map_none]
      exact ⟨hnew, rfl, rfl, rfl⟩
    | some e =>
      simp only [slashingEngine, Option.map_some]
      exact ⟨hnew, rfl, rfl, rfl⟩
  · left
    simp only [hr, if_false, Bool.false_eq_true]

theorem Guarded.addValidator {now : Int} {address : String} {stake : ℚ} (h : Guarded c s)
    (hc : Careful c (.addValidator now address stake) s) : Guarded c (Event.run c (.addValidator now address stake) s) := by
  rcases addValidator_cases now address stake s.full with hsame | ⟨hnew, hdb, hslashing, hengine⟩
  · have hrun : Event.run c (.addValidator now address stake) s = s :=
      congrArg (fun f => ({ s with full := f } : Station)) hsame
    rw [hrun]
    exact h
  · have hother : ∀ v ∈ s.full.node.slashed, c.host.lower address ≠ c.host.lower v :=
      fun v hv heq => hnew (hc v hv heq)
    have hslashed : (s.full.addValidator now address stake).node.slashed = s.full.node.slashed := by
      unfold Node.slashed
      rw [hslashing]
      cases s.full.node.slashing <;> rfl
    have hlive : (s.full.addValidator now address stake).node.db.live =
        s.full.node.db.live.saveValidator now address stake := by rw [hdb, Store.live_write]
    have hrows := Tables.active_saveValidator now address stake s.full.node.db.live
    refine ⟨?_, ?_, ?_⟩
    · intro e he
      have hsome := hslashing.symm.trans he
      obtain ⟨e', he', rfl⟩ := Option.map_eq_some_iff.mp hsome
      exact h.persists e' he'
    · intro a
      show (s.full.addValidator now address stake).node.db.file.Active a ↔
        (s.full.addValidator now address stake).node.db.live.Active a
      rw [hdb]
      rfl
    · show ∀ v ∈ (s.full.addValidator now address stake).node.slashed, _
      rw [hslashed]
      intro v hv
      obtain ⟨⟨hnamed, hown, hshareless⟩, hbarred⟩ := h.shut v hv
      refine ⟨⟨hnamed, hown, fun a ha => ?_⟩, ?_⟩
      · show ConsensusEngine.Shareless (s.full.addValidator now address stake).adapter.engine a
        rw [hengine]
        exact (hshareless a ha).addValidator stake fun heq => absurd (heq ▸ ha) (hother v hv)
      · show Barred c (· ∈ (s.full.addValidator now address stake).node.slashed)
          (s.full.addValidator now address stake).node.db.live.Active v _
        rw [hslashed, hlive]
        rcases hbarred with hall | ⟨hchecked, ⟨a, b, hne, ha, hb⟩, hold, hsigning⟩
        · exact .inl hall
        · refine .inr ⟨hchecked, ⟨a, b, hne, (hrows a).1 ha, (hrows b).1 hb⟩, fun x hx => ?_, hsigning⟩
          rcases (hrows x).2 hx with hx | rfl
          · exact hold x hx
          · exact hother v hv

theorem Guarded.step {ev : Event} (h : Guarded c s) (hc : Careful c ev s) : Guarded c (Event.run c ev s) := by
  cases ev with
  | node ev => exact h.event hc
  | addValidator now address stake => exact h.addValidator hc
  | mineAs address =>
    refine ⟨h.persists, h.durable, fun v hv => ?_⟩
    obtain ⟨⟨hnamed, hown, hshareless⟩, hbarred⟩ := h.shut v hv
    refine ⟨⟨hnamed, hc v hv, hshareless⟩, hbarred.imp id fun he => ?_⟩
    exact ⟨he.checked, he.others, he.rows, hc v hv, he.own.2⟩

theorem refused_iff {v : String} :
    (∀ b : Block, c.host.lower b.miner = c.host.lower v →
      (s.chain c).verifyBlockProposer s.full.node.db.live s.full.node.slashing b ≠ .ok ()) ↔
    Named c v ∧ Barred c (· ∈ s.full.node.slashed) s.full.node.db.live.Active v s := by
  -- what the check of the slashed addresses reads
  have hslashed : ∀ b : Block, (s.full.node.slashing.map fun e => decide (b.miner ∈ e.slashed)).getD false = true ↔
      b.miner ∈ s.full.node.slashed := by
    intro b
    unfold Node.slashed
    cases s.full.node.slashing with
    | none => exact ⟨(fun h => by cases h), fun h => absurd h List.not_mem_nil⟩
    | some e => exact decide_eq_true_iff
  unfold verifyBlockProposer
  constructor
  · intro h
    have hnamed : Named c v :=
      ⟨fun heq => h { firstBlock [] with miner := "" } heq rfl, fun heq => h { firstBlock [] with miner := "genesis" } heq rfl⟩
    refine ⟨hnamed, ?_⟩
    by_cases hall : ∀ a, c.host.lower a = c.host.lower v → a ∈ s.full.node.slashed
    · exact .inl hall
    · -- a spelling that is not slashed is left to the check of the proposers
      rw [not_forall] at hall
      obtain ⟨a, hall⟩ := hall
      obtain ⟨ha, hfree⟩ := Classical.not_imp.mp hall
      have hblock := h { firstBlock [] with miner := a } ha
      have hminer : ¬ (a = "" ∨ a = "genesis") := by
        rintro (rfl | rfl)
        · exact hnamed.1 ha
        · exact hnamed.2 ha
      rw [if_neg hminer, if_neg (fun hin => hfree ((hslashed _).mp hin))] at hblock
      have hchecked : (s.chain c).config.enforceProposer = true := by
        by_contra hoff
        exact hblock (if_pos hoff)
      rw [if_neg (not_not.mpr hchecked)] at hblock
      dsimp only at hblock
      have htwo : ¬ s.full.node.db.live.getValidators.length ≤ 1 := fun hone => hblock (if_pos hone)
      rw [if_neg htwo] at hblock
      have hout := fun hin => hblock (if_pos hin)
      have hnot : ∀ x, x ∈ s.full.node.db.live.getValidators.map Prod.fst ++
          ([s.minerAddress, c.config.signingAddress].filter fun a => a ≠ "") → c.host.lower x ≠ c.host.lower v :=
        fun x hx heq => hout (List.mem_map.mpr ⟨x, hx, heq.trans ha.symm⟩)
      have hown : ∀ x ∈ [s.minerAddress, c.config.signingAddress], c.host.lower x ≠ c.host.lower v := by
        intro x hx
        by_cases hempty : x = ""
        · rw [hempty]
          exact hnamed.1
        · exact hnot x (List.mem_append_right _ (List.mem_filter.mpr ⟨hx, decide_eq_true hempty⟩))
      -- none of the proposers that the check knows is a spelling of `v`
      refine .inr ⟨hchecked, Tables.active_two htwo, fun x hx => hnot x (List.mem_append_left _ hx), ?_, ?_⟩
      · exact hown _ List.mem_cons_self
      · exact hown _ (List.mem_cons_of_mem _ (List.mem_singleton_self _))
  · rintro ⟨hnamed, hbarred⟩ b hb
    have hminer : ¬ (b.miner = "" ∨ b.miner = "genesis") := by
      rintro (hm | hm)
      · exact hnamed.1 (hm ▸ hb)
      · exact hnamed.2 (hm ▸ hb)
    rw [if_neg hminer]
    -- either check turns every spelling away
    rcases hbarred with hall | ⟨hchecked, ⟨x, y, hne, hx, hy⟩, hrows, hown⟩
    · rw [if_pos ((hslashed b).mpr (hall _ hb))]
      exact fun hr => nomatch hr
    · have htwo : ¬ s.full.node.db.live.getValidators.length ≤ 1 := by
        have hlen := Tables.two_active hx hy hne
        omega
      split
      · exact fun hr => nomatch hr
      · have hon : ¬ ¬ (s.chain c).config.enforceProposer = true := not_not.mpr hchecked
        rw [if_neg hon]
        dsimp only
        rw [if_neg htwo, if_neg ?_]
        · exact fun hr => nomatch hr
        · intro hin
          obtain ⟨a, ha, heq⟩ := List.mem_map.mp hin
          have heq' : c.host.lower a = c.host.lower v := heq.trans hb
          rcases List.mem_append.mp ha with ha | ha
          · exact hrows a ha heq'
          · have hmem := (List.mem_filter.mp ha).1
            rcases List.mem_cons.mp hmem with rfl | hmem
            · exact hown.1 heq'
            · rw [List.mem_singleton.mp hmem] at heq'
              exact hown.2 heq'

theorem Guarded.excluded (h : Guarded c s) : Excluded c s := by
  intro v hv
  obtain ⟨⟨hnamed, hminer, hshareless⟩, hbarred⟩ := h.shut v hv
  refine ⟨?_, fun now b preserve hb b' n' hrun => ?_⟩
  · rcases selectProposer_cases (s.chain c) s.full with hown | hchosen
    · rw [hown]
      unfold orElse
      split
      · exact hnamed.2
      · exact hminer
    · exact fun heq => (hshareless _ heq).unselected hchosen
  · obtain ⟨r⟩ := addBlock_ok hrun
    exact refused_iff.mpr ⟨hnamed, hbarred⟩ b hb (admitBlock_ok r.admitted).proposer

theorem guarded_start (epochs : EpochManager) {db : Db} (hclosed : db.pending = none) : Guarded c (start c epochs db) := by
  have hslashing : ∃ e, (FullNode.start epochs db).node.slashing = some e ∧ e.slashed = [] ∧ e.persists = true := by
    refine foldl_induction (P := fun n : FullNode => ∃ e, n.node.slashing = some e ∧ e.slashed = [] ∧ e.persists = true)
      (fun n v hn => ?_) db.live.getValidators ⟨_, rfl, rfl, rfl⟩
    obtain ⟨e, he, hnone, hpersists⟩ := hn
    unfold registerValidatorAll slashingEngine
    simp only [he, Option.map_some]
    exact ⟨_, rfl, hnone, hpersists⟩
  obtain ⟨e, he, hnone, hpersists⟩ := hslashing
  have hdb := (Miner.start_kept epochs db).1
  refine ⟨?_, fun a => ?_, ?_⟩
  · intro e' he'
    have hsame : e = e' := Option.some.inj (he.symm.trans he')
    exact hsame ▸ hpersists
  · show (FullNode.start epochs db).node.db.file.Active a ↔ (FullNode.start epochs db).node.db.live.Active a
    rw [hdb]
    simp only [Store.live, hclosed, Option.getD_none]
  · have hempty : (FullNode.start epochs db).node.slashed = [] := by
      unfold Node.slashed
      rw [he]
      exact hnone
    show ∀ v ∈ (FullNode.start epochs db).node.slashed, _
    rw [hempty]
    exact fun v hv => absurd hv List.not_mem_nil

/-- Along a run in which whoever is slashed may not be chosen and is barred, the slashed stay out. The proposer
check refuses every spelling of an address only if it is barred, and without a negative stake only the
shareless are drawn by no pick. -/
theorem slashed_excluded {epochs : EpochManager} {db : Db} {events : List Event} (hclosed : db.pending = none)
    (h : Along (Event.run c) (Careful c) events (start c epochs db)) :
    Always (Event.run c) (Excluded c) events (start c epochs db) ∧
      (∀ (s : Station) (v : String), (∀ b : Block, c.host.lower b.miner = c.host.lower v →
          (s.chain c).verifyBlockProposer s.full.node.db.live s.full.node.slashing b ≠ .ok ()) ↔
        Named c v ∧ Barred c (· ∈ s.full.node.slashed) s.full.node.db.live.Active v s) ∧
      ∀ (e : ConsensusEngine) (a : String), (∀ d ∈ e.shares, 0 ≤ d.2) → 0 < e.getTotalStake →
        (e.picksOf a = ∅ ↔ e.Shareless a) := by
  have hall := always_of_along (fun _ _ hs hc => hs.step hc) (guarded_start epochs hclosed) h
  exact ⟨hall.imp fun _ hs => hs.excluded, fun _ _ => refused_iff,
    fun _ _ hnonneg hpos => ConsensusEngine.picksOf_empty hnonneg hpos⟩

/-! ### A slashed validator without a stake and one with a stake -/

/-- Two votes in one slot for different blocks. -/
def doubleVote (v : String) : List Event := [.node (.attest 0 v "x"), .node (.attest 0 v "y")]

theorem harmless_vote {c : Blockchain} {v w hash : String} {n : FullNode} {now : Int}
    (h : ∀ e, n.node.slashing = some e → v = w → (e.votesOf v).get? n.adapter.engine.currentSlot = none) :
    Harmless c v (.attest now w hash) n := by
  intro e he
  refine ⟨(fun b hb => nomatch hb), fun now' hash' hev seen hseen => ?_⟩
  cases hev
  rw [h e he rfl] at hseen
  cases hseen

def threeValidators : Db :=
  let t := Miner.twoValidators.file
  let row : Validator := { stake := 0, active := true, slashed := false, joinedAt := 0 }
  { file := { t with validators := t.validators.put "z" row }, pending := none }

def threeSeats : Station := start plain ⟨32, epochSize_pos⟩ threeValidators

def voted : Station := Event.run plain (.node (.attest 0 "z" "x")) threeSeats

theorem voted_unchosen : Unchosen plain "z" voted where
  named := by unfold Named; decide +kernel
  own := by decide +kernel
  shareless a ha := by
    have hshares : voted.full.adapter.engine.shares = [("v", 30), ("w", 30), ("z", 0)] := by decide +kernel
    unfold ConsensusEngine.Shareless
    rw [hshares]
    have hnames : ∀ e ∈ [("v", (30 : ℚ)), ("w", 30), ("z", 0)], plain.host.lower e.1 = plain.host.lower "z" →
        e.2 ≤ 0 ∧ e.1 = "z" := by decide +kernel
    rintro e he rfl
    obtain ⟨hstake, hz⟩ := hnames e he ha
    refine ⟨hstake, ("v", 30), List.mem_cons_self, ?_⟩
    rw [hz]
    decide +kernel

theorem voted_rows : voted.full.node.db.live.getValidators.map Prod.fst = ["v", "w", "z"] := by decide +kernel

theorem voted_barred : Barred plain (fun a => a ∈ voted.full.node.slashed ∨ a = "z")
    (fun a => voted.full.node.db.live.Active a ∧ a ≠ "z") "z" voted := by
  refine .inr ⟨rfl, ⟨"v", "w", by decide, ⟨?_, by decide⟩, ?_, by decide⟩, ?_, by decide +kernel⟩
  · unfold Tables.Active
    rw [voted_rows]
    exact List.mem_cons_self
  · unfold Tables.Active
    rw [voted_rows]
    exact List.mem_cons_of_mem _ List.mem_cons_self
  · rintro a ⟨ha, hne⟩
    unfold Tables.Active at ha
    rw [voted_rows] at ha
    have hnames : ∀ b ∈ ["v", "w", "z"], b ≠ "z" → plain.host.lower b ≠ plain.host.lower "z" := by decide +kernel
    exact hnames a ha hne

theorem slashed_excluded_stakeless :
    Always (Event.run plain) (Excluded plain)
      [.node (.attest 0 "z" "x"), .node (.attest 0 "z" "y"), .node .markBlockProduced] threeSeats ∧
    "z" ∈ (run (Event.run plain) (doubleVote "z") threeSeats).full.node.slashed ∧ "z" ∈ threeSeats.full.registered := by
  have hcareful : Along (Event.run plain) (Careful plain)
      [.node (.attest 0 "z" "x"), .node (.attest 0 "z" "y"), .node .markBlockProduced] threeSeats := by
    refine ⟨?_, ?_, ?_, trivial⟩
    · intro v _ hevidence
      refine absurd (harmless_vote fun e he _ => ?_) hevidence
      have hvotes : threeSeats.full.node.slashing.map SlashingEngine.votes = some [] := by decide +kernel
      have he' : threeSeats.full.node.slashing = some e := he
      rw [he'] at hvotes
      unfold SlashingEngine.votesOf
      rw [Option.some.inj hvotes]
      rfl
    · intro w _ hevidence
      have hw : w = "z" := by
        by_contra hne
        exact hevidence (harmless_vote fun _ _ heq => absurd heq hne)
      subst hw
      refine ⟨voted_unchosen, fun v hv => ?_⟩
      have hnone : voted.full.node.slashed = [] := by decide +kernel
      rcases hv with hv | rfl
      · have hv' : v ∈ voted.full.node.slashed := hv
        rw [hnone] at hv'
        cases hv'
      · exact voted_barred
    · intro v _ hevidence
      exact absurd (fun e _ => ⟨(fun b hb => nomatch hb), fun now' hash' hev => nomatch hev⟩) hevidence
  exact ⟨(slashed_excluded rfl hcareful).1, by decide +kernel, by decide +kernel⟩

def oneValidator : Db :=
  let t := (Blockchain.genesisNode none).db.live
  let row : Validator := { stake := 100, active := true, slashed := false, joinedAt := 0 }
  { file := { t with validators := t.validators.put "v" row }, pending := none }

def marked : Station := run (Event.run plain) (doubleVote "v") (start plain ⟨32, epochSize_pos⟩ oneValidator)

theorem slashed_not_excluded :
    "v" ∈ marked.full.node.slashed ∧ marked.full.selectProposer (marked.chain plain) = "v" ∧
      ((marked.chain plain).addBlock 2 { firstBlock [] with miner := "V" } true marked.full.node).1.toOption.isSome = true ∧
      ¬ Always (Event.run plain) (Excluded plain) (doubleVote "v") (start plain ⟨32, by decide⟩ oneValidator) := by
  have hslashed : "v" ∈ marked.full.node.slashed := by decide +kernel
  have hselect : marked.full.selectProposer (marked.chain plain) = "v" := by decide +kernel
  refine ⟨hslashed, hselect, by decide +kernel, fun h => ?_⟩
  exact (h.last "v" hslashed).1 (congrArg plain.host.lower hselect)

end Station

end AbsoluteChain
