import AbsoluteChain.Exclusion
import AbsoluteChain.WireFlood

/-!
# Announcing validators

A node announces its validator to its peers. A peer with no row for it, in any spelling, registers it and passes the
announcement on. Registrations flood the network while every node keeps executing blocks, attesting and slashing.
-/

namespace AbsoluteChain.ValidatorGossip

open Python Actions Act Transactions Runs KeyedTable Blockchain

/-! ## Rows -/

def stakeOf (t : Tables) (a : String) : Option ℚ := (t.validators.get? a).map Validator.stake

theorem stakeOf_slashValidator (t : Tables) (v a : String) : stakeOf (t.slashValidator v) a = stakeOf t a := by
  unfold stakeOf Tables.slashValidator
  dsimp only
  rw [Table.get_update]
  by_cases ha : a = v
  · rw [if_pos ha, ha, Option.map_map]
    rfl
  · rw [if_neg ha]

theorem stakeOf_saveValidator (now : Int) (address : String) (stake : ℚ) (t : Tables) (a : String) :
    stakeOf (t.saveValidator now address stake) a = if a = address then some stake else stakeOf t a := by
  unfold stakeOf Tables.saveValidator
  dsimp only
  rw [Table.get_upsert]
  by_cases ha : a = address
  · subst ha
    rw [if_pos rfl, if_pos rfl]
    cases t.validators.get? a <;> rfl
  · rw [if_neg ha, if_neg ha]

theorem stakeOf_ne_none {t : Tables} {a : String} : stakeOf t a ≠ none ↔ ∃ v, (a, v) ∈ t.validators.rows := by
  unfold stakeOf
  rw [Option.ne_none_iff_isSome, Option.isSome_map, Option.isSome_iff_exists]
  exact exists_congr fun v => (Table.mem_rows_iff _ _ _).symm

def Rows (stakes : String → Option ℚ) (t : Tables) : Prop := ∀ a, stakeOf t a = stakes a

/-! ## What a node does keeps the rows -/

section frames
variable {stakes : String → Option ℚ} {c : Blockchain} {now : Int}

def rowsFrame (stakes : String → Option ℚ) : Frame Node := (within (Rows stakes)).pull Node.dbPart

theorem rows_congr {t u : Tables} (h : u.validators = t.validators) (ht : Rows stakes t) : Rows stakes u := by
  intro a
  rw [← ht a]
  unfold stakeOf
  rw [h]

theorem rows_slashValidator (v : String) (t : Tables) (ht : Rows stakes t) : Rows stakes (t.slashValidator v) :=
  fun a => (stakeOf_slashValidator t v a).trans (ht a)

theorem rows_onDb {α : Type} {m : Act Fault Db α} (h : Keeps (within (Rows stakes)) m) :
    Keeps (rowsFrame stakes) (onDb m) := keeps_on h

theorem rows_execution {α : Type} {m : Act Fault Db α} (h : Keeps (untouched Tables.validators) m) :
    Keeps (rowsFrame stakes) (onDb m) := rows_onDb (within_of_untouched rows_congr h)

theorem rows_checkProposal (b : Block) : Keeps (rowsFrame stakes) (checkProposal now b) := by
  unfold checkProposal
  refine keeps_bind (keeps_read _) fun slashing => ?_
  cases slashing with
  | none => exact keeps_pure _
  | some e =>
    refine keeps_ite (fun _ => keeps_pure _) fun _ =>
      keeps_bind ?_ fun _ => keeps_ite (fun _ => keeps_pure _) fun _ => keeps_raise _
    unfold recordProposal slash
    refine keeps_ite (fun _ => keeps_pure _) fun _ => keeps_ite (fun _ => ?_) fun _ => ?_
    · refine keeps_bind (keeps_ite (fun _ => keeps_pure _) fun _ => ?_) fun _ => keeps_pure _
      refine keeps_bind (keeps_write fun n h => h) fun _ => keeps_ite (fun _ => ?_) fun _ => keeps_pure _
      exact rows_onDb (within_committed (rows_slashValidator _))
    · exact keeps_bind (keeps_write fun n h => h) fun _ => keeps_pure _

theorem rows_executeBlock (b : Block) (preserve : Bool) : Keeps (rowsFrame stakes) (c.executeBlock now b preserve) := by
  unfold executeBlock
  refine keeps_bind (rows_execution (keeps_applyTransactions executionFree_validators _ _ _)) fun txs => ?_
  refine keeps_bind (rows_execution (keeps_applyBlockReward executionFree_validators _)) fun _ => ?_
  refine keeps_bind (rows_execution (keeps_query _)) fun root => ?_
  refine keeps_bind (keeps_checkPeerRoot _ _ _) fun _ => keeps_bind (rows_checkProposal _) fun _ => ?_
  exact keeps_bind (rows_onDb (within_persist rows_congr _ _ _ _ _ _)) fun _ => keeps_pure _

theorem rows_atomically {α : Type} {body : Act Fault Node α} (h : Keeps (rowsFrame stakes) body) :
    Keeps (rowsFrame stakes) (atomically nestedTransaction Node.dbPart body) := by
  rintro n ⟨hfile, hlive⟩
  cases hb : n.db.begin? with
  | none =>
    rw [atomically_refused (P := Node.dbPart) nestedTransaction hb]
    exact ⟨hfile, hlive⟩
  | some db =>
    obtain ⟨-, rfl⟩ := Store.begin_eq_some hb
    rcases hr : body (Node.dbPart.set n.db.opened n) with ⟨e | x, n₁⟩
    · rw [atomically_raised (P := Node.dbPart) nestedTransaction hb hr]
      have h₁ := keeps_apply h hr ⟨hfile, hfile⟩
      exact ⟨h₁.1, h₁.1⟩
    · rw [atomically_returned (P := Node.dbPart) nestedTransaction hb hr]
      have h₁ := keeps_apply h hr ⟨hfile, hfile⟩
      exact ⟨h₁.2, h₁.2⟩

theorem rows_addBlock (b : Block) (preserve : Bool) : Keeps (rowsFrame stakes) (c.addBlock now b preserve) := by
  have haudit : ∀ f, Keeps (rowsFrame stakes) (c.auditMismatch now b preserve f) := by
    intro f
    unfold auditMismatch
    cases f.roots with
    | none => exact keeps_pure _
    | some r =>
      refine keeps_attempt (rows_onDb ?_) fun _ => keeps_pure _
      exact keeps_bind (within_bindInts _) fun _ => within_committed fun t ht => rows_congr (t := t) rfl ht
  unfold addBlock
  refine keeps_bind (keeps_read _) fun n => keeps_bind (keeps_liftExcept _) fun _ => ?_
  exact keeps_attempt (rows_atomically (rows_executeBlock b preserve)) fun f =>
    keeps_bind (haudit f) fun _ => keeps_raise _

theorem rows_importBlock (d : PeerBlock) : Keeps (rowsFrame stakes) (c.importBlock now d) := by
  have hfresh : ∀ d, Keeps (rowsFrame stakes) (c.importFresh now d) := fun d =>
    keeps_bind (rows_execution (keeps_query _)) fun _ => keeps_bind (keeps_liftExcept _) fun _ => rows_addBlock _ _
  unfold importBlock
  refine keeps_bind (keeps_liftExcept _) fun _ => keeps_bind (rows_execution (keeps_query _)) fun row => ?_
  cases row with
  | none => exact hfresh _
  | some e =>
    refine keeps_ite (fun _ => keeps_bind (rows_onDb ?_) fun _ => hfresh _) fun _ => keeps_raise _
    exact within_atomically (within_statement fun t ht => rows_congr (t := t) rfl ht)

theorem rows_reorg (floor height : Int) : Keeps (rowsFrame stakes) (onDb (c.reorgToAncestor now floor height)) := by
  refine rows_onDb ?_
  unfold reorgToAncestor replayFromGenesis checkReplayRoot
  refine keeps_ite (fun _ => keeps_raise _) fun _ => keeps_bind (keeps_query _) fun tip => ?_
  refine keeps_ite (fun _ => keeps_pure _) fun _ => within_atomically ?_
  refine keeps_bind (within_bindInts _) fun _ => ?_
  refine keeps_bind (keeps_when fun _ => within_statement fun t ht => rows_congr (t := t) rfl ht) fun _ => ?_
  refine keeps_bind (within_statement fun t ht => rows_congr (t := t) rfl ht) fun _ => ?_
  refine keeps_bind (within_of_untouched rows_congr
    (keeps_replayBlocks executionFree_validators _ _)) fun _ => ?_
  refine keeps_bind (keeps_query _) fun t => ?_
  cases t.getBlock height with
  | none => exact keeps_pure _
  | some d => exact keeps_ite (fun _ => keeps_raise _) fun _ => keeps_pure _

theorem rows_attestSlashing (validator blockHash : String) (slot : Int) :
    Keeps ((rowsFrame stakes).pull FullNode.nodePart) (FullNode.attestSlashing now validator blockHash slot) := by
  unfold FullNode.attestSlashing
  refine keeps_bind (keeps_read _) fun engine => ?_
  cases engine with
  | none => exact keeps_pure _
  | some s =>
    refine keeps_bind (keeps_write fun n h => h) fun _ =>
      keeps_ite (fun _ => keeps_bind ?_ fun _ => keeps_pure _) fun _ => keeps_pure _
    exact keeps_on (rows_onDb (within_committed (rows_slashValidator _)))

theorem rows_run (ev : FullNode.Event) (n : FullNode) : (rowsFrame stakes).rel n.node (ev.run c n).node := by
  cases ev with
  | addBlock now b preserve =>
    have hrun := congrArg FullNode.node (FullNode.addBlock_run c now b preserve n)
    rw [FullNode.settled_node] at hrun
    show (rowsFrame stakes).rel n.node (FullNode.addBlock c now b preserve n).2.node
    rw [hrun]
    exact rows_addBlock b preserve n.node
  | importBlock now d =>
    have hrun := congrArg FullNode.node (FullNode.importBlock_run c now d n)
    rw [FullNode.settled_node] at hrun
    show (rowsFrame stakes).rel n.node (FullNode.importBlock c now d n).2.node
    rw [hrun]
    exact rows_importBlock d n.node
  | attest now validator blockHash =>
    show (rowsFrame stakes).rel n.node (FullNode.attest now validator blockHash n).2.node
    rw [FullNode.attest_node]
    exact rows_attestSlashing validator blockHash n.adapter.engine.currentSlot n
  | markBlockProduced => exact (rowsFrame stakes).refl n.node
  | reorgToAncestor now height => exact rows_reorg _ height n.node
  | truncateToHeight height =>
    refine rows_onDb ?_ n.node
    exact within_atomically (keeps_bind (within_bindInts _) fun _ =>
      within_statement fun t ht => rows_congr (t := t) rfl ht)

end frames

/-! ## A node in the network -/

/-- Every validator of the proposer engine has a row, and the rows are durable. -/
structure Rooted (s : Station) : Prop where
  durable : ∀ a, stakeOf s.full.node.db.file a = stakeOf s.full.node.db.live a
  rooted : ∀ a ∈ s.full.registered, stakeOf s.full.node.db.live a ≠ none

section stations
variable {c : Blockchain} {s : Station}

theorem node_run (h : Rooted s) (ev : FullNode.Event) (a : String) :
    stakeOf (Station.Event.run c (.node ev) s).full.node.db.file a = stakeOf s.full.node.db.live a ∧
      stakeOf (Station.Event.run c (.node ev) s).full.node.db.live a = stakeOf s.full.node.db.live a := by
  obtain ⟨hfile, hlive⟩ :=
    @rows_run (stakeOf s.full.node.db.live) (s.chain c) ev s.full ⟨h.durable, fun _ => rfl⟩
  exact ⟨hfile a, hlive a⟩

theorem contains_iff {β : Type} {d : Dict String β} {k : String} : d.contains k = true ↔ k ∈ d.map Prod.fst := by
  unfold Dict.contains
  induction d with
  | nil => simp
  | cons e t ih =>
    obtain ⟨a, x⟩ := e
    rw [Dict.get?_cons, List.map_cons, List.mem_cons, ← ih]
    by_cases hk : k = a
    · simp [hk]
    · simp [hk]

/-- A registration is accepted unless the proposer engine has the address already. -/
theorem addValidator_run (now : Int) (address : String) (stake : ℚ) (n : FullNode) :
    (address ∈ n.registered ∧ (n.adapter.engine.addValidator address stake).1 = false ∧
        n.addValidator now address stake = n) ∨
      (address ∉ n.registered ∧ (n.adapter.engine.addValidator address stake).1 = true ∧
        (n.addValidator now address stake).node.db = n.node.db.write (Tables.saveValidator now address stake) ∧
        (n.addValidator now address stake).registered = n.registered ++ [address]) := by
  have hcontains : n.adapter.engine.validators.contains address = true ↔ address ∈ n.registered := contains_iff
  unfold FullNode.addValidator ConsensusEngine.addValidator
  by_cases hin : n.adapter.engine.validators.contains address = true
  · rw [if_pos hin]
    exact .inl ⟨hcontains.mp hin, rfl, rfl⟩
  · rw [if_neg hin]
    have hout := mt hcontains.mpr hin
    have hids : (n.adapter.engine.validators.set address { stake := stake }).map Prod.fst = n.registered ++ [address] :=
      (Dict.keys_set _ _ _).trans (if_neg hout)
    right
    refine ⟨hout, rfl, ?_⟩
    simp only [FullNode.slashingEngine, if_true]
    cases n.node.slashing with
    | none => exact ⟨rfl, hids⟩
    | some e => exact ⟨rfl, hids⟩

theorem Rooted.addValidator (h : Rooted s) (now : Int) (address : String) (stake : ℚ) :
    Rooted (Station.Event.run c (.addValidator now address stake) s) := by
  rcases addValidator_run now address stake s.full with ⟨-, -, hsame⟩ | ⟨-, -, hdb, hids⟩
  · have hrun : Station.Event.run c (.addValidator now address stake) s = s :=
      congrArg (fun f => ({ s with full := f } : Station)) hsame
    rw [hrun]
    exact h
  · refine ⟨fun a => ?_, fun a ha => ?_⟩
    · show stakeOf (s.full.addValidator now address stake).node.db.file a =
        stakeOf (s.full.addValidator now address stake).node.db.live a
      rw [hdb, Store.file_write, Store.live_write]
    · have ha' : a ∈ (s.full.addValidator now address stake).registered := ha
      show stakeOf (s.full.addValidator now address stake).node.db.live a ≠ none
      rw [hdb, Store.live_write, stakeOf_saveValidator]
      by_cases heq : a = address
      · rw [if_pos heq]
        exact Option.some_ne_none _
      · rw [if_neg heq]
        rw [hids, List.mem_append, List.mem_singleton] at ha'
        exact h.rooted a (ha'.resolve_right heq)

theorem Rooted.step (h : Rooted s) (ev : Station.Event) : Rooted (Station.Event.run c ev s) := by
  cases ev with
  | node ev =>
    refine ⟨fun a => ?_, fun a ha => ?_⟩
    · obtain ⟨hfile, hlive⟩ := node_run (c := c) h ev a
      rw [hfile, hlive]
    · rw [(node_run (c := c) h ev a).2]
      have hids : (Station.Event.run c (.node ev) s).full.registered = s.full.registered :=
        FullNode.registered_run (c := s.chain c) ev s.full
      rw [hids] at ha
      exact h.rooted a ha
  | addValidator now address stake => exact h.addValidator now address stake
  | mineAs address => exact ⟨h.durable, h.rooted⟩

theorem row_kept (h : Rooted s) (ev : Station.Event) {a : String} (ha : stakeOf s.full.node.db.live a ≠ none) :
    stakeOf (Station.Event.run c ev s).full.node.db.live a ≠ none := by
  cases ev with
  | node ev =>
    rw [(node_run (c := c) h ev a).2]
    exact ha
  | addValidator now address stake =>
    show stakeOf (s.full.addValidator now address stake).node.db.live a ≠ none
    rcases addValidator_run now address stake s.full with ⟨-, -, hsame⟩ | ⟨-, -, hdb, -⟩
    · rw [hsame]
      exact ha
    · rw [hdb, Store.live_write, stakeOf_saveValidator]
      by_cases heq : a = address
      · rw [if_pos heq]
        exact Option.some_ne_none _
      · rw [if_neg heq]
        exact ha
  | mineAs address => exact ha

theorem registered_registerAll (l : List (String × Validator)) : ∀ (n : FullNode), ∀ a ∈ (l.foldl (fun n v =>
    n.registerValidatorAll v.1 v.2.stake) n).registered, a ∈ n.registered ∨ a ∈ l.map Prod.fst := by
  induction l with
  | nil => exact fun n a ha => .inl ha
  | cons v l ih =>
    intro n a ha
    rcases ih (n.registerValidatorAll v.1 v.2.stake) a ha with hold | hrest
    · have hengine : (n.registerValidatorAll v.1 v.2.stake).registered =
          (n.adapter.engine.addValidator v.1 v.2.stake).2.validators.map Prod.fst := by
        unfold FullNode.registerValidatorAll
        cases n.slashingEngine <;> rfl
      rw [hengine] at hold
      unfold ConsensusEngine.addValidator at hold
      by_cases hin : n.adapter.engine.validators.contains v.1 = true
      · rw [if_pos hin] at hold
        exact .inl hold
      · rw [if_neg hin, Dict.keys_set, if_neg (mt contains_iff.mpr hin), List.mem_append, List.mem_singleton] at hold
        rcases hold with hold | rfl
        · exact .inl hold
        · exact .inr List.mem_cons_self
    · exact .inr (List.mem_cons_of_mem _ hrest)

theorem rooted_start (epochs : EpochManager) {db : Db} (hclosed : db.pending = none) :
    Rooted (Station.start c epochs db) := by
  have hdb : (FullNode.start epochs db).node.db = db := (Miner.start_kept epochs db).1
  refine ⟨fun a => ?_, fun a ha => ?_⟩
  · show stakeOf (FullNode.start epochs db).node.db.file a = stakeOf (FullNode.start epochs db).node.db.live a
    rw [hdb, Store.live, hclosed, Option.getD_none]
  · show stakeOf (FullNode.start epochs db).node.db.live a ≠ none
    rw [hdb, stakeOf_ne_none]
    have hnone : a ∉ (FullNode.mk
        { db := db, slashing := some { proposals := [], slashed := [], events := [], persists := true } }
        (.start epochs)).registered := List.not_mem_nil
    obtain ⟨e, he, rfl⟩ := List.mem_map.mp ((registered_registerAll db.live.getValidators _ a ha).resolve_left hnone)
    exact ⟨e.2, (List.mem_filter.mp he).1⟩

end stations

/-! ## Announcements -/

structure Registration where
  address : Option String
  stake : Option ℚ

section protocol
variable (c : Blockchain)

def handleValidatorRegister (now : Int) (data : Registration) (s : Station) : Bool × Station :=
  let address := data.address.getD ""
  let stake := data.stake.getD c.config.minStake
  if address = "" then (false, s)
  else if c.host.lower address ∈ s.full.node.db.live.validators.rows.map fun v => c.host.lower v.1 then (false, s)
  else ((s.full.adapter.engine.addValidator address stake).1, Station.Event.run c (.addValidator now address stake) s)

def protocol : Flooding.Protocol Station Registration String Int Station.Event where
  topic data := c.host.lower (data.address.getD "")
  knows k s := decide (k ∈ s.full.node.db.live.validators.rows.map fun v => c.host.lower v.1)
  receive := handleValidatorRegister c
  act := Station.Event.run c

variable {c} {s : Station} {k : String}

theorem knows_iff : (protocol c).knows k s = true ↔
    ∃ a, c.host.lower a = k ∧ stakeOf s.full.node.db.live a ≠ none := by
  simp only [protocol, decide_eq_true_eq, List.mem_map]
  constructor
  · rintro ⟨v, hv, hk⟩
    exact ⟨v.1, hk, stakeOf_ne_none.mpr ⟨v.2, hv⟩⟩
  · rintro ⟨a, hk, ha⟩
    obtain ⟨v, hv⟩ := stakeOf_ne_none.mp ha
    exact ⟨(a, v), hv, hk⟩

theorem stakeOf_added {address : String} (now : Int) (stake : ℚ) (hout : address ∉ s.full.registered) (a : String) :
    stakeOf (Station.Event.run c (.addValidator now address stake) s).full.node.db.live a =
      if a = address then some stake else stakeOf s.full.node.db.live a := by
  show stakeOf (s.full.addValidator now address stake).node.db.live a = _
  rcases addValidator_run now address stake s.full with ⟨hin, -⟩ | ⟨-, -, hdb, -⟩
  · exact absurd hin hout
  · rw [hdb, Store.live_write, stakeOf_saveValidator]

theorem row_added {address : String} (now : Int) (stake : ℚ) (hout : address ∉ s.full.registered) :
    stakeOf (Station.Event.run c (.addValidator now address stake) s).full.node.db.live address ≠ none := by
  rw [stakeOf_added now stake hout, if_pos rfl]
  exact Option.some_ne_none _

theorem handle_cases (h : Rooted s) (now : Int) (data : Registration) :
    (handleValidatorRegister c now data s = (false, s) ∧
        (data.address.getD "" = "" ∨ (protocol c).knows ((protocol c).topic data) s = true)) ∨
      (handleValidatorRegister c now data s =
          (true, Station.Event.run c (.addValidator now (data.address.getD "") (data.stake.getD c.config.minStake)) s) ∧
        (protocol c).knows ((protocol c).topic data) s = false ∧ data.address.getD "" ∉ s.full.registered) := by
  unfold handleValidatorRegister
  by_cases hempty : data.address.getD "" = ""
  · rw [if_pos hempty]
    exact .inl ⟨rfl, .inl hempty⟩
  · rw [if_neg hempty]
    by_cases hin : c.host.lower (data.address.getD "") ∈ s.full.node.db.live.validators.rows.map fun v => c.host.lower v.1
    · rw [if_pos hin]
      exact .inl ⟨rfl, .inr (decide_eq_true hin)⟩
    · rw [if_neg hin]
      have hknows : (protocol c).knows ((protocol c).topic data) s = false := decide_eq_false hin
      have hout : data.address.getD "" ∉ s.full.registered := by
        intro hmem
        have hrow : (protocol c).knows ((protocol c).topic data) s = true :=
          knows_iff.mpr ⟨data.address.getD "", rfl, h.rooted _ hmem⟩
        rw [hknows] at hrow
        cases hrow
      rcases addValidator_run now (data.address.getD "") (data.stake.getD c.config.minStake) s.full with
        ⟨hmem, -⟩ | ⟨-, htrue, -⟩
      · exact absurd hmem hout
      · exact .inr ⟨Prod.ext htrue rfl, hknows, hout⟩

theorem law (c : Blockchain) : Flooding.Law (protocol c) Rooted fun data => data.address.getD "" ≠ "" where
  inv_receive now data s h := by
    show Rooted (handleValidatorRegister c now data s).2
    rcases handle_cases h now data with ⟨hrun, -⟩ | ⟨hrun, -⟩
    · rw [hrun]
      exact h
    · rw [hrun]
      exact h.addValidator (c := c) now _ _
  inv_act ev s h := h.step ev
  keep_receive now data s k h hk := by
    show (protocol c).knows k (handleValidatorRegister c now data s).2 = true
    rcases handle_cases h now data with ⟨hrun, -⟩ | ⟨hrun, -⟩
    · rw [hrun]
      exact hk
    · rw [hrun]
      obtain ⟨a, hlower, ha⟩ := knows_iff.mp hk
      exact knows_iff.mpr ⟨a, hlower, row_kept h _ ha⟩
  keep_act ev s k h hk := by
    obtain ⟨a, hlower, ha⟩ := knows_iff.mp hk
    exact knows_iff.mpr ⟨a, hlower, row_kept h ev ha⟩
  news now data s h hrelay := by
    have hrelay' : (handleValidatorRegister c now data s).1 = true := hrelay
    show _ ∧ (protocol c).knows _ (handleValidatorRegister c now data s).2 = true
    rcases handle_cases h now data with ⟨hrun, -⟩ | ⟨hrun, hnew, hout⟩
    · rw [hrun] at hrelay'
      cases hrelay'
    · rw [hrun]
      exact ⟨hnew, knows_iff.mpr ⟨_, rfl, row_added (c := c) now _ hout⟩⟩
  told now data s h hfine := by
    show (protocol c).knows _ (handleValidatorRegister c now data s).2 = true
    rcases handle_cases h now data with ⟨hrun, hempty | hknown⟩ | ⟨hrun, hnew, hout⟩
    · exact absurd hempty hfine
    · rw [hrun]
      exact hknown
    · rw [hrun]
      exact knows_iff.mpr ⟨_, rfl, row_added (c := c) now _ hout⟩
  learned now data s k h hnew hknown := by
    have hknown' : (protocol c).knows k (handleValidatorRegister c now data s).2 = true := hknown
    show _ ∧ (handleValidatorRegister c now data s).1 = true
    rcases handle_cases h now data with ⟨hrun, -⟩ | ⟨hrun, -, hout⟩
    · rw [hrun, hnew] at hknown'
      cases hknown'
    · rw [hrun] at hknown' ⊢
      refine ⟨?_, rfl⟩
      obtain ⟨a, rfl, ha⟩ := knows_iff.mp hknown'
      by_cases heq : a = data.address.getD ""
      · rw [heq]
        rfl
      · rw [stakeOf_added now _ hout, if_neg heq] at ha
        rw [knows_iff.mpr ⟨a, rfl, ha⟩] at hnew
        cases hnew

/-! ## Runs of the network -/

structure Boot {ι : Type} (c : Blockchain) (s : Flooding.Net ι Station Registration) : Prop where
  nodes : ∀ i, ∃ epochs db, db.pending = none ∧ s.node i = Station.start c epochs db
  flight : s.flight = []
  sent : s.sent = []

section runs
variable {ι : Type} [DecidableEq ι] {net : Flooding.Net ι Station Registration}
  {events : List (Flooding.Event ι Registration Int Station.Event)}

omit [DecidableEq ι] in
theorem Boot.rooted (h : Boot c net) (i : ι) : Rooted (net.node i) := by
  obtain ⟨epochs, db, hclosed, hnode⟩ := h.nodes i
  rw [hnode]
  exact rooted_start epochs hclosed

theorem rooted_run (h : ∀ i, Rooted (net.node i)) : ∀ i, Rooted ((run (Flooding.step (protocol c)) events net).node i) :=
  run_inv (I := fun net : Flooding.Net ι Station Registration => ∀ i, Rooted (net.node i))
    (fun e _ h => (law c).inv_step e h) events h

/-- However often, by whomever and in whatever order a validator is announced, and whatever else the nodes do: the
letters about it are at most `D` for each announcement and each node, where no node ever has more than `D` peers. -/
theorem registration_traffic [Fintype ι] {D : Nat} (hboot : Boot c net)
    (hD : Along (Flooding.step (protocol c)) (fun _ s => ∀ i, (s.peers i).length ≤ D) events net) (k : String) :
    Flooding.traffic (protocol c) k (run (Flooding.step (protocol c)) events net) ≤
      D * (Flooding.announcements (protocol c) k events + Fintype.card ι) := by
  have hle := (law c).traffic_le (k := k) hboot.rooted hD
  have hzero : Flooding.traffic (protocol c) k net = 0 := by
    unfold Flooding.traffic
    rw [hboot.sent]
    rfl
  omega

def noValidators : Db :=
  let t := (Blockchain.genesisNode none).db.live
  { file := t, pending := none }

def line : Flooding.Net (Fin 3) Station Registration where
  node i := Station.start plain ⟨32, epochSize_pos⟩ (if i = 0 then Station.oneValidator else noValidators)
  peers i := if i = 1 then [0, 2] else [1]
  flight := []
  sent := []

theorem boot_line : Boot plain line where
  nodes i := by
    refine ⟨⟨32, epochSize_pos⟩, if i = 0 then Station.oneValidator else noValidators, ?_, rfl⟩
    split <;> rfl
  flight := rfl
  sent := rfl

def announced : List (Flooding.Event (Fin 3) Registration Int Station.Event) :=
  [.announce 0 ⟨some "v", some 100⟩, .deliver 0 1, .deliver 0 2]

theorem registration_traffic_line : Flooding.traffic (protocol plain) (plain.host.lower "v")
    (run (Flooding.step (protocol plain)) announced line) ≤
      2 * (Flooding.announcements (protocol plain) (plain.host.lower "v") announced + Fintype.card (Fin 3)) := by
  have hpeers : Along (Flooding.step (protocol plain)) (fun _ s => ∀ i, (s.peers i).length ≤ 2) announced line :=
    ⟨by decide, by decide, by decide, trivial⟩
  exact registration_traffic boot_line hpeers _

/-- Once no letter about a validator that was announced is left, every node has a row for it that links lead to from the
announcer over nodes that did not know it, if these links stay up, lose no letter about it, and all who announce it know
it and nobody registers it but for an announcement. -/
theorem registration_spreads (hboot : Boot c net) {past : List (Flooding.Event ι Registration Int Station.Event)}
    {s₀ : Flooding.Net ι Station Registration} (hpast : run (Flooding.step (protocol c)) past net = s₀)
    {L : ι → ι → Prop} (hlinks : ∀ i j, L i j → j ∈ s₀.peers i) {a : ι} {address : String} {stake : ℚ}
    (haddress : address ≠ "") (hfirst : (protocol c).knows (c.host.lower address) (s₀.node a) = true)
    (hnone : ∀ l ∈ s₀.flight, (protocol c).topic l.body ≠ c.host.lower address)
    (hrun : Along (Flooding.step (protocol c))
      (Flooding.Steady (protocol c) (fun data => data.address.getD "" ≠ "") (c.host.lower address) L) events
      (Flooding.step (protocol c) (.announce a ⟨some address, some stake⟩) s₀))
    (hquiet : ∀ l ∈ (run (Flooding.step (protocol c)) (.announce a ⟨some address, some stake⟩ :: events) s₀).flight,
      (protocol c).topic l.body ≠ c.host.lower address)
    {j : ι} (hpath : Relation.ReflTransGen
      (fun i j => L i j ∧ (i = a ∨ (protocol c).knows (c.host.lower address) (s₀.node i) = false)) a j) :
    ∃ spelling, c.host.lower spelling = c.host.lower address ∧
      stakeOf ((run (Flooding.step (protocol c)) (.announce a ⟨some address, some stake⟩ :: events) s₀).node
        j).full.node.db.live spelling ≠ none := by
  have hrooted : ∀ i, Rooted (s₀.node i) := hpast ▸ rooted_run hboot.rooted
  have hstart : Flooding.Spreading (protocol c) Rooted (fun data => data.address.getD "" ≠ "") (c.host.lower address)
      L a s₀ (Flooding.step (protocol c) (.announce a ⟨some address, some stake⟩) s₀) :=
    Flooding.spreading_announce hrooted hlinks hfirst hnone rfl haddress
  exact knows_iff.mp ((hstart.run (law c) hrun).reach hquiet hpath)

theorem registration_spreads_line : ∃ spelling, plain.host.lower spelling = plain.host.lower "v" ∧
    stakeOf ((run (Flooding.step (protocol plain)) announced line).node 2).full.node.db.live spelling ≠ none := by
  have hempty : (run (Flooding.step (protocol plain)) announced line).flight.isEmpty = true := by decide +kernel
  have hpast : run (Flooding.step (protocol plain)) [] line = line := rfl
  have hsteady : Along (Flooding.step (protocol plain)) (Flooding.Steady (protocol plain)
      (fun data => data.address.getD "" ≠ "") (plain.host.lower "v") fun i j : Fin 3 => (i, j) ∈ [(0, 1), (1, 2)])
      [.deliver 0 1, .deliver 0 2] (Flooding.step (protocol plain) (.announce 0 ⟨some "v", some 100⟩) line) :=
    ⟨trivial, trivial, trivial⟩
  refine registration_spreads boot_line hpast (by decide) (by decide) (by decide +kernel)
    (fun l hl => absurd hl List.not_mem_nil) hsteady ?_ ?_
  · intro l hl
    have hnone : l ∈ (run (Flooding.step (protocol plain)) announced line).flight := hl
    rw [List.isEmpty_iff.mp hempty] at hnone
    cases hnone
  · have hfirst : (0, 1) ∈ [((0 : Fin 3), (1 : Fin 3)), (1, 2)] := by decide
    have hsecond : (1, 2) ∈ [((0 : Fin 3), (1 : Fin 3)), (1, 2)] := by decide
    exact .tail (.tail .refl ⟨hfirst, .inl rfl⟩) ⟨hsecond, .inr (by decide +kernel)⟩

def Enrolled (address : String) (stake : ℚ) (s : Station) : Prop :=
  stakeOf s.full.node.db.live address = some stake ∧ address ∈ s.full.registered

theorem Enrolled.addValidator {address : String} {stake : ℚ} (h : Enrolled address stake s) (now : Int) (a : String)
    (x : ℚ) : Enrolled address stake (Station.Event.run c (.addValidator now a x) s) := by
  show stakeOf (s.full.addValidator now a x).node.db.live address = _ ∧ address ∈ (s.full.addValidator now a x).registered
  rcases addValidator_run now a x s.full with ⟨-, -, hsame⟩ | ⟨hout, -, hdb, hids⟩
  · rw [hsame]
    exact h
  · have hne : address ≠ a := fun heq => hout (heq ▸ h.2)
    rw [hdb, hids, Store.live_write, stakeOf_saveValidator, if_neg hne]
    exact ⟨h.1, List.mem_append_left _ h.2⟩

theorem lasting (address : String) (stake : ℚ) :
    Flooding.Lasting (protocol c) (c.host.lower address) ⟨some address, some stake⟩ (Enrolled address stake) Rooted where
  learned now t h hnew hknown := by
    have hknown' : (protocol c).knows _ (handleValidatorRegister c now ⟨some address, some stake⟩ t).2 = true := hknown
    show Enrolled address stake (handleValidatorRegister c now ⟨some address, some stake⟩ t).2
    rcases handle_cases h now ⟨some address, some stake⟩ with ⟨hrun, -⟩ | ⟨hrun, -, hout⟩
    · rw [hrun, hnew] at hknown'
      cases hknown'
    · rw [hrun]
      refine ⟨(stakeOf_added (c := c) now stake hout address).trans (if_pos rfl), ?_⟩
      show address ∈ (t.full.addValidator now address stake).registered
      rcases addValidator_run now address stake t.full with ⟨hin, -⟩ | ⟨-, -, -, hids⟩
      · exact absurd hin hout
      · rw [hids]
        exact List.mem_append_right _ List.mem_cons_self
  kept now data t h _ hrow := by
    show Enrolled address stake (handleValidatorRegister c now data t).2
    rcases handle_cases h now data with ⟨hrun, -⟩ | ⟨hrun, -⟩
    · rw [hrun]
      exact hrow
    · rw [hrun]
      exact hrow.addValidator (c := c) now _ _
  act ev t h _ hrow := by
    show Enrolled address stake (Station.Event.run c ev t)
    cases ev with
    | node ev =>
      refine ⟨((node_run (c := c) h ev address).2).trans hrow.1, ?_⟩
      have hids : (Station.Event.run c (.node ev) t).full.registered = t.full.registered :=
        FullNode.registered_run (c := t.chain c) ev t.full
      rw [hids]
      exact hrow.2
    | addValidator now a x => exact hrow.addValidator now a x
    | mineAs a => exact hrow

/-- All nodes that have learned of a validator hold one address and one stake, if it is only announced with these. -/
theorem registration_agrees (hboot : Boot c net) {address : String} {stake : ℚ}
    (hrun : Along (Flooding.step (protocol c))
      (Flooding.Alike (protocol c) (c.host.lower address) ⟨some address, some stake⟩) events net)
    {i : ι} (hnew : (protocol c).knows (c.host.lower address) (net.node i) = false)
    (hknown : (protocol c).knows (c.host.lower address) ((run (Flooding.step (protocol c)) events net).node i) = true) :
    Enrolled address stake ((run (Flooding.step (protocol c)) events net).node i) := by
  have hstart : Flooding.Holds (protocol c) (c.host.lower address) ⟨some address, some stake⟩ (Enrolled address stake) net
      Rooted net := by
    refine ⟨hboot.rooted, ?_, fun i hold hin => ?_⟩
    · rw [hboot.flight]
      exact fun l hl => absurd hl List.not_mem_nil
    · rw [hold] at hin
      cases hin
  exact (hstart.run (law c) (lasting address stake) hrun).learned i hnew hknown

theorem registration_agrees_line : Enrolled "v" 100 ((run (Flooding.step (protocol plain)) announced line).node 2) := by
  have halike : Along (Flooding.step (protocol plain))
      (Flooding.Alike (protocol plain) (plain.host.lower "v") ⟨some "v", some 100⟩) announced line :=
    ⟨fun _ => rfl, trivial, trivial, trivial⟩
  exact registration_agrees boot_line halike (by decide +kernel) (by decide +kernel)

end runs

end protocol

end AbsoluteChain.ValidatorGossip
