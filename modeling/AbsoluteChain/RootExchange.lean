import AbsoluteChain.StateRoot
import AbsoluteChain.Linkage
import AbsoluteChain.Runs

/-!
# The exchange of state roots

A node answers `MSG_STATE_ROOT_REQUEST` with the root of its present state and the
height it was asked for. The other side compares the root with its own when that
height is its own.
-/

namespace AbsoluteChain

open Python Actions Transactions KeyedTable Runs

/-! ## Messages -/

variable {N : Type}

structure RootRequest (N : Type) where
  sender : N
  receiver : N
  height : Option Int

structure RootResponse (N : Type) where
  receiver : N
  height : Int
  stateRoot : String
  headHash : String
  origin : Tables

structure RootCheck (N : Type) where
  localRoot : String
  localHeight : Option Int
  wireRoots : List (RootResponse N)
  origin : Tables

structure RootNetwork (N : Type) where
  tables : N → Tables
  requests : List (RootRequest N)
  responses : List (RootResponse N)
  checks : N → Option (RootCheck N)
  reports : List (N × Int)

/-- Steps of the nodes in any order. Where a response was waited for, it goes to the check that asked. -/
inductive RootEvent (N : Type) where
  | chain (i : N) (t : Tables)
  | readRoot (i : N)
  | readHeight (i : N)
  | request (i j : N) (height : Option Int)
  | answer (k : ℕ)
  | receive (k : ℕ) (waited : Bool)
  | compare (i : N)

def RootResponse.contradicts (r : RootResponse N) (height : Int) (root : String) : Prop :=
  r.height = height ∧ r.stateRoot ≠ "" ∧ r.stateRoot ≠ root

instance (r : RootResponse N) (height : Int) (root : String) : Decidable (r.contradicts height root) :=
  inferInstanceAs (Decidable (_ ∧ _ ∧ _))

namespace RootNetwork

variable [DecidableEq N] (c : Blockchain) (s : RootNetwork N)

def headHash (t : Tables) : String := (t.getLastBlock.map BlockDict.hash).getD ""

def respond (q : RootRequest N) : RootResponse N :=
  { receiver := q.sender, height := q.height.getD (s.tables q.receiver).getChainTip,
    stateRoot := c.computeStateRoot (s.tables q.receiver), headHash := headHash (s.tables q.receiver),
    origin := s.tables q.receiver }

def unsolicited (r : RootResponse N) : RootNetwork N :=
  let t := s.tables r.receiver
  if r.contradicts t.getChainTip (c.computeStateRoot t) then { s with reports := s.reports ++ [(r.receiver, t.getChainTip)] }
  else s

/-- What `sync_state` makes of the responses. -/
def compareRoots (i : N) : RootNetwork N :=
  match s.checks i with
  | none => s
  | some check =>
    let s' := { s with checks := fun j => if j = i then none else s.checks j }
    match check.localHeight with
    | none => s'
    | some height =>
      let mismatches := check.wireRoots.filter fun r => r.contradicts height check.localRoot
      if mismatches = [] then s' else { s' with reports := s.reports ++ [(i, height)] }

def collect (r : RootResponse N) : RootNetwork N :=
  { s with checks := fun j =>
      if j = r.receiver then (s.checks j).map fun check => { check with wireRoots := check.wireRoots ++ [r] } else s.checks j }

def step : RootEvent N → RootNetwork N → RootNetwork N
  | .chain i t, s => { s with tables := fun j => if j = i then t else s.tables j }
  | .readRoot i, s =>
    { s with checks := fun j =>
        if j = i then
          some { localRoot := c.computeStateRoot (s.tables i), localHeight := none, wireRoots := [], origin := s.tables i }
        else s.checks j }
  | .readHeight i, s =>
    { s with checks := fun j =>
        if j = i then (s.checks j).map fun check => { check with localHeight := some (s.tables i).getChainTip }
        else s.checks j }
  | .request i j height, s => { s with requests := s.requests ++ [{ sender := i, receiver := j, height := height }] }
  | .answer k, s =>
    match s.requests[k]? with
    | none => s
    | some q => { s with requests := s.requests.eraseIdx k, responses := s.responses ++ [s.respond c q] }
  | .receive k waited, s =>
    match s.responses[k]? with
    | none => s
    | some r =>
      let s' := { s with responses := s.responses.eraseIdx k }
      if waited then s'.collect r else s'.unsolicited c r
  | .compare i, s => s.compareRoots i

/-! ## Chains -/

def storedBlocks (t : Tables) : List BlockDict := (List.range (t.getChainTip + 1).toNat).filterMap fun h : ℕ => t.getBlock h

def Executed (exec : List BlockDict → Table String Account) (t : Tables) : Prop := t.accounts = exec (storedBlocks t)

def Agree (t u : Tables) : Prop := ∀ h, h ≤ t.getChainTip → h ≤ u.getChainTip → t.getBlock h = u.getBlock h

theorem storedBlocks_agree {t u : Tables} (h : Agree t u) (htip : t.getChainTip = u.getChainTip) :
    storedBlocks t = storedBlocks u := by
  unfold storedBlocks
  rw [htip]
  refine List.filterMap_congr fun k hk => h k ?_ ?_
  · rw [List.mem_range] at hk
    omega
  · rw [List.mem_range] at hk
    omega

theorem root_agree {exec : List BlockDict → Table String Account} {t u : Tables} (ht : Executed exec t)
    (hu : Executed exec u) (h : Agree t u) (htip : t.getChainTip = u.getChainTip) :
    c.computeStateRoot t = c.computeStateRoot u :=
  Blockchain.computeStateRoot_congr (by rw [ht, hu, storedBlocks_agree h htip])

/-! ## What is in flight -/

def Read (P : Tables → Prop) (root : String) (t : Tables) : Prop := root = c.computeStateRoot t ∧ P t

/-- What the nodes hold, sent and kept are roots of tables among `P`. -/
structure Faithful (P : Tables → Prop) (s : RootNetwork N) : Prop where
  tables : ∀ i, P (s.tables i)
  responses : ∀ r ∈ s.responses, Read c P r.stateRoot r.origin
  localRoot : ∀ i check, s.checks i = some check → Read c P check.localRoot check.origin
  wireRoots : ∀ i check, s.checks i = some check → ∀ r ∈ check.wireRoots, Read c P r.stateRoot r.origin

def Brings (P : Tables → Prop) : RootEvent N → Prop
  | .chain _ t => P t
  | _ => True

def Silent (s : RootNetwork N) : Prop := s.reports = []

def Compared (R : Tables → Tables → Prop) : RootEvent N → RootNetwork N → Prop
  | .receive k false, s =>
    ∀ r, s.responses[k]? = some r → r.height = (s.tables r.receiver).getChainTip → R r.origin (s.tables r.receiver)
  | .compare i, s =>
    ∀ check height, s.checks i = some check → check.localHeight = some height →
      ∀ r ∈ check.wireRoots, r.height = height → R r.origin check.origin
  | _, _ => True

def SameRoot (t u : Tables) : Prop := c.computeStateRoot t = c.computeStateRoot u

/-- The answer was made at the height of the root that it is compared with. -/
def SameTip (t u : Tables) : Prop := t.getChainTip = u.getChainTip

variable {c s} {e : RootEvent N} {events : List (RootEvent N)} {P : Tables → Prop}

omit [DecidableEq N] in
theorem computeStateRoot_ne_empty (t : Tables) : c.computeStateRoot t ≠ "" := by
  intro h
  have hlen := congrArg String.length h
  rw [show (c.computeStateRoot t).length = 64 from Digest.sha256Hex_length _] at hlen
  cases hlen

omit [DecidableEq N] in
theorem contradicts_iff {r : RootResponse N} {root : String} {t : Tables} {height : Int} (hr : Read c P r.stateRoot r.origin)
    (ht : Read c P root t) : r.contradicts height root ↔ r.height = height ∧ ¬ SameRoot c r.origin t := by
  unfold RootResponse.contradicts SameRoot
  rw [hr.1, ht.1]
  exact ⟨fun h => ⟨h.1, h.2.2⟩, fun h => ⟨h.1, computeStateRoot_ne_empty _, h.2⟩⟩

theorem Faithful.check (hs : Faithful c P s) {i : N} {f : Option (RootCheck N) → Option (RootCheck N)}
    (hf : ∀ check, f (s.checks i) = some check →
      Read c P check.localRoot check.origin ∧ ∀ r ∈ check.wireRoots, Read c P r.stateRoot r.origin) :
    Faithful c P { s with checks := fun j => if j = i then f (s.checks j) else s.checks j } := by
  have hcases : ∀ j check, (if j = i then f (s.checks j) else s.checks j) = some check →
      Read c P check.localRoot check.origin ∧ ∀ r ∈ check.wireRoots, Read c P r.stateRoot r.origin := by
    intro j check hcheck
    by_cases hj : j = i
    · rw [if_pos hj, hj] at hcheck
      exact hf check hcheck
    · rw [if_neg hj] at hcheck
      exact ⟨hs.localRoot j check hcheck, hs.wireRoots j check hcheck⟩
  exact ⟨hs.tables, hs.responses, fun j check h => (hcases j check h).1, fun j check h => (hcases j check h).2⟩

omit [DecidableEq N] in
theorem faithful_unsolicited (hs : Faithful c P s) (r : RootResponse N) : Faithful c P (s.unsolicited c r) := by
  unfold unsolicited
  dsimp only
  split
  · exact ⟨hs.tables, hs.responses, hs.localRoot, hs.wireRoots⟩
  · exact hs

theorem faithful_collect (hs : Faithful c P s) {r : RootResponse N} (hr : Read c P r.stateRoot r.origin) :
    Faithful c P (s.collect r) := by
  refine hs.check (f := Option.map fun check => { check with wireRoots := check.wireRoots ++ [r] }) fun check hcheck => ?_
  obtain ⟨old, hold, rfl⟩ := Option.map_eq_some_iff.mp hcheck
  refine ⟨hs.localRoot _ old hold, fun r' hr' => ?_⟩
  rcases List.mem_append.mp hr' with hr' | hr'
  · exact hs.wireRoots _ old hold r' hr'
  · rw [List.mem_singleton.mp hr']
    exact hr

theorem faithful_compare (hs : Faithful c P s) (i : N) : Faithful c P (s.compareRoots i) := by
  have hdrop : Faithful c P { s with checks := fun j => if j = i then none else s.checks j } :=
    hs.check (f := fun _ => none) fun _ h => nomatch h
  unfold compareRoots
  cases s.checks i with
  | none => exact hs
  | some check =>
    dsimp only
    cases check.localHeight with
    | none => exact hdrop
    | some height =>
      dsimp only
      split
      · exact hdrop
      · exact ⟨hdrop.tables, hdrop.responses, hdrop.localRoot, hdrop.wireRoots⟩

theorem faithful_step (hs : Faithful c P s) (he : Brings P e) : Faithful c P (step c e s) := by
  cases e with
  | chain i t =>
    refine ⟨fun j => ?_, hs.responses, hs.localRoot, hs.wireRoots⟩
    by_cases hj : j = i
    · simp only [step, if_pos hj]
      exact he
    · simp only [step, if_neg hj]
      exact hs.tables j
  | request i j height => exact ⟨hs.tables, hs.responses, hs.localRoot, hs.wireRoots⟩
  | readRoot i =>
    refine hs.check (f := fun _ => some _) fun check hcheck => ?_
    obtain rfl := Option.some.inj hcheck
    exact ⟨⟨rfl, hs.tables i⟩, fun _ hr => nomatch hr⟩
  | readHeight i =>
    refine hs.check (f := Option.map _) fun check hcheck => ?_
    obtain ⟨old, hold, rfl⟩ := Option.map_eq_some_iff.mp hcheck
    exact ⟨hs.localRoot _ old hold, hs.wireRoots _ old hold⟩
  | answer k =>
    simp only [step]
    cases s.requests[k]? with
    | none => exact hs
    | some q =>
      refine ⟨hs.tables, fun r hr => ?_, hs.localRoot, hs.wireRoots⟩
      rcases List.mem_append.mp hr with hr | hr
      · exact hs.responses r hr
      · rw [List.mem_singleton.mp hr]
        exact ⟨rfl, hs.tables q.receiver⟩
  | receive k waited =>
    simp only [step]
    cases hr : s.responses[k]? with
    | none => exact hs
    | some r =>
      have hrest : Faithful c P { s with responses := s.responses.eraseIdx k } :=
        ⟨hs.tables, fun r' hr' => hs.responses r' (List.eraseIdx_subset hr'), hs.localRoot, hs.wireRoots⟩
      dsimp only
      cases waited with
      | true => exact faithful_collect hrest (hs.responses r (List.mem_of_getElem? hr))
      | false => exact faithful_unsolicited hrest r
  | compare i => exact faithful_compare hs i

/-! ## Reports -/

omit [DecidableEq N] in
theorem silent_unsolicited (hsilent : Silent s) {r : RootResponse N} (hr : Read c P r.stateRoot r.origin)
    (ht : P (s.tables r.receiver)) : Silent (s.unsolicited c r) ↔
      (r.height = (s.tables r.receiver).getChainTip → SameRoot c r.origin (s.tables r.receiver)) := by
  have hcontra := @contradicts_iff N c P r _ _ (s.tables r.receiver).getChainTip hr ⟨rfl, ht⟩
  unfold unsolicited
  dsimp only
  by_cases h : r.contradicts (s.tables r.receiver).getChainTip (c.computeStateRoot (s.tables r.receiver))
  · rw [if_pos h]
    refine iff_of_false (fun hs => ?_) fun himp => (hcontra.mp h).2 (himp (hcontra.mp h).1)
    exact List.append_ne_nil_of_right_ne_nil _ (List.cons_ne_nil _ _) hs
  · rw [if_neg h]
    refine iff_of_true hsilent fun hheight => ?_
    by_contra hne
    exact h (hcontra.mpr ⟨hheight, hne⟩)

theorem silent_compare (hs : Faithful c P s) (hsilent : Silent s) (i : N) :
    Silent (s.compareRoots i) ↔ ∀ check height, s.checks i = some check → check.localHeight = some height →
      ∀ r ∈ check.wireRoots, r.height = height → SameRoot c r.origin check.origin := by
  unfold compareRoots
  cases hcheck : s.checks i with
  | none => exact iff_of_true hsilent fun _ _ h => nomatch h
  | some check =>
    dsimp only
    cases hheight : check.localHeight with
    | none =>
      refine iff_of_true hsilent fun check' height h h' => ?_
      obtain rfl := Option.some.inj h
      rw [hheight] at h'
      cases h'
    | some height =>
      have hcontra : ∀ r ∈ check.wireRoots, (r.contradicts height check.localRoot ↔ r.height = height ∧ ¬ SameRoot c r.origin check.origin) :=
        fun r hr => contradicts_iff (hs.wireRoots i check hcheck r hr) (hs.localRoot i check hcheck)
      dsimp only
      by_cases hnil : (check.wireRoots.filter fun r => r.contradicts height check.localRoot) = []
      · rw [if_pos hnil]
        refine iff_of_true hsilent fun check' height' h h' r hr hlabel => ?_
        obtain rfl := Option.some.inj h
        obtain rfl := Option.some.inj (hheight.symm.trans h')
        by_contra hne
        have hfalse := List.filter_eq_nil_iff.mp hnil r hr
        exact hfalse (decide_eq_true ((hcontra r hr).mpr ⟨hlabel, hne⟩))
      · rw [if_neg hnil]
        refine iff_of_false (fun h => ?_) fun h => hnil ?_
        · exact List.append_ne_nil_of_right_ne_nil _ (List.cons_ne_nil _ _) h
        · refine List.filter_eq_nil_iff.mpr fun r hr hd => ?_
          obtain ⟨hlabel, hne⟩ := (hcontra r hr).mp (of_decide_eq_true hd)
          exact hne (h check height rfl hheight r hr hlabel)

theorem silent_step (hs : Faithful c P s) (hsilent : Silent s) :
    Silent (step c e s) ↔ Compared (SameRoot c) e s := by
  cases e with
  | chain i t => exact iff_of_true hsilent trivial
  | readRoot i => exact iff_of_true hsilent trivial
  | readHeight i => exact iff_of_true hsilent trivial
  | request i j height => exact iff_of_true hsilent trivial
  | answer k =>
    refine iff_of_true ?_ trivial
    simp only [step]
    cases s.requests[k]? with
    | none => exact hsilent
    | some q => exact hsilent
  | receive k waited =>
    simp only [step]
    cases hr : s.responses[k]? with
    | none =>
      refine iff_of_true hsilent ?_
      cases waited with
      | true => trivial
      | false =>
        intro r' hr'
        rw [hr] at hr'
        cases hr'
    | some r =>
      dsimp only
      cases waited with
      | true => exact iff_of_true hsilent trivial
      | false =>
        refine (silent_unsolicited (s := { s with responses := s.responses.eraseIdx k }) hsilent
          (hs.responses r (List.mem_of_getElem? hr)) (hs.tables r.receiver)).trans ?_
        constructor
        · intro h r' hr'
          obtain rfl := Option.some.inj (hr.symm.trans hr')
          exact h
        · exact fun h => h r hr
  | compare i => exact silent_compare hs hsilent i

/-- Nothing is in flight and nothing was reported. -/
structure Idle (s : RootNetwork N) : Prop where
  responses : s.responses = []
  checks : ∀ i, s.checks i = none
  reports : s.reports = []

omit [DecidableEq N] in
theorem Idle.faithful (h : Idle s) (ht : ∀ i, P (s.tables i)) : Faithful c P s := by
  refine ⟨ht, fun r hr => ?_, fun i check hcheck => ?_, fun i check hcheck => ?_⟩
  · rw [h.responses] at hr
    cases hr
  · rw [h.checks] at hcheck
    cases hcheck
  · rw [h.checks] at hcheck
    cases hcheck

/-- The run lemma: nothing is reported exactly when only equal roots are compared at equal heights. -/
theorem silent_iff (hs : Faithful c P s) (hsilent : Silent s) (he : ∀ e ∈ events, Brings P e) :
    Always (step c) Silent events s ↔ Along (step c) (Compared (SameRoot c)) events s := by
  induction events generalizing s with
  | nil => exact iff_of_true hsilent trivial
  | cons e rest ih =>
    have hnext := faithful_step hs (he e List.mem_cons_self)
    have hrest := fun hsilent' => ih hnext hsilent' fun e he' => he e (List.mem_cons_of_mem _ he')
    constructor
    · rintro ⟨-, h⟩
      have hsilent' : Silent (step c e s) := by
        cases rest with
        | nil => exact h
        | cons _ _ => exact h.1
      exact ⟨(silent_step hs hsilent).mp hsilent', (hrest hsilent').mp h⟩
    · rintro ⟨hstep, h⟩
      have hsilent' := (silent_step hs hsilent).mpr hstep
      exact ⟨hsilent, (hrest hsilent').mpr h⟩

omit [DecidableEq N] in
theorem Compared.imp {R S : Tables → Tables → Prop} (hs : Faithful c P s) (hRS : ∀ t u, P t → P u → R t u → S t u)
    (h : Compared R e s) : Compared S e s := by
  cases e with
  | receive k waited =>
    cases waited with
    | true => trivial
    | false =>
      intro r hr hlabel
      exact hRS _ _ (hs.responses r (List.mem_of_getElem? hr)).2 (hs.tables _) (h r hr hlabel)
  | compare i =>
    intro check height hcheck hheight r hr hlabel
    exact hRS _ _ (hs.wireRoots i check hcheck r hr).2 (hs.localRoot i check hcheck).2 (h check height hcheck hheight r hr hlabel)
  | _ => trivial

theorem along_compared_imp {R S : Tables → Tables → Prop} (hs : Faithful c P s) (he : ∀ e ∈ events, Brings P e)
    (hRS : ∀ t u, P t → P u → R t u → S t u) (h : Along (step c) (Compared R) events s) :
    Along (step c) (Compared S) events s := by
  induction events generalizing s with
  | nil => trivial
  | cons e rest ih =>
    have hnext := faithful_step hs (he e List.mem_cons_self)
    exact ⟨h.1.imp hs hRS, ih hnext (fun e he' => he e (List.mem_cons_of_mem _ he')) h.2⟩

/-- In a run whose states are all of one executed chain nothing is reported exactly when each answer that is
compared was made from a state with the root it is compared with. An answer made at that height will do, and
where each height has a root of its own no other will. -/
theorem no_false_divergence {exec : List BlockDict → Table String Account} (hidle : Idle s)
    (hexec : ∀ t, P t → Executed exec t) (hagree : ∀ t u, P t → P u → Agree t u) (ht : ∀ i, P (s.tables i))
    (he : ∀ e ∈ events, Brings P e) :
    (Always (step c) Silent events s ↔ Along (step c) (Compared (SameRoot c)) events s) ∧
    (Along (step c) (Compared SameTip) events s → Always (step c) Silent events s) ∧
    ((∀ t u, P t → P u → SameRoot c t u → SameTip t u) → Always (step c) Silent events s →
      Along (step c) (Compared SameTip) events s) := by
  have hs : Faithful c P s := hidle.faithful ht
  have hiff := silent_iff hs hidle.reports he
  have hroot : ∀ t u, P t → P u → SameTip t u → SameRoot c t u := fun t u ht hu htip =>
    root_agree c (hexec t ht) (hexec u hu) (hagree t u ht hu) htip
  exact ⟨hiff, fun h => hiff.mpr (along_compared_imp hs he hroot h),
    fun hdistinct h => along_compared_imp hs he hdistinct (hiff.mp h)⟩

/-- Two nodes with nothing in flight; `true` asks. -/
def pair (t u : Tables) : RootNetwork Bool :=
  { tables := fun i => if i then t else u, requests := [], responses := [], checks := fun _ => none, reports := [] }

def check (height : Int) : List (RootEvent Bool) :=
  [.readRoot true, .readHeight true, .request true false (some height), .answer 0, .receive 0 true, .compare true]

def genesisTables : Tables := (Blockchain.genesisNode none).db.live

def minedTables : Tables :=
  (Blockchain.runCalls Blockchain.plain [.addBlock 2 (Blockchain.firstBlock []) true] (Blockchain.genesisNode none)).db.live

def rewards (blocks : List BlockDict) : Table String Account :=
  (blocks.foldl (fun t d => if d.height = 0 then t else t.applyBalanceDelta d.miner 50) Tables.empty).accounts

theorem executed_genesis : Executed rewards genesisTables := by
  unfold Executed
  decide

theorem executed_mined : Executed rewards minedTables := by
  unfold Executed
  decide +kernel

theorem agree_mined : Agree genesisTables minedTables := by
  have hblocks : minedTables.blocks =
      (Table.empty.put 0 Blockchain.genesisRow).put 1 ((minedTables.getBlock 1).getD Blockchain.genesisRow) := by
    decide +kernel
  have htip : genesisTables.getChainTip = 0 := by decide +kernel
  intro h hh _
  rw [htip] at hh
  unfold Tables.getBlock
  rw [hblocks, Table.get_put, if_neg (by omega)]
  rfl

section level
variable {c : Blockchain} {t : Tables} {height : Int}

theorem compared_check : Along (step c) (Compared SameTip) (check height) (pair t t) := by
  refine ⟨trivial, trivial, trivial, trivial, trivial, ?_, trivial⟩
  intro check height hcheck _ r hr _
  obtain rfl := Option.some.inj hcheck
  obtain rfl := List.mem_singleton.mp hr
  rfl

/-- Between nodes on one state a check leaves nothing behind. -/
theorem run_check : run (step c) (check height) (pair t t) = pair t t := by
  simp [run, check, step, pair, respond, collect, compareRoots, RootResponse.contradicts]
  funext j
  cases j <;> rfl

end level

/-- Both nodes go from the genesis block to the next one, with a check before and a check after. -/
def growing : List (RootEvent Bool) := check 0 ++ ([.chain true minedTables, .chain false minedTables] ++ check 1)

theorem no_false_divergence_growing : Always (step .plain) Silent growing (pair genesisTables genesisTables) := by
  have hbrings : ∀ e ∈ growing, Brings (fun t => t = genesisTables ∨ t = minedTables) e := by
    intro e he
    simp only [growing, check, List.cons_append, List.nil_append, List.mem_cons, List.not_mem_nil, or_false] at he
    rcases he with rfl | rfl | rfl | rfl | rfl | rfl | rfl | rfl | rfl | rfl | rfl | rfl | rfl | rfl
    all_goals first | trivial | exact .inr rfl
  refine (@no_false_divergence _ _ _ _ _ (fun t => t = genesisTables ∨ t = minedTables) rewards ⟨rfl, fun _ => rfl, rfl⟩
    ?_ ?_ ?_ hbrings).2.1 ?_
  · rintro t (rfl | rfl)
    · exact executed_genesis
    · exact executed_mined
  · rintro t u (rfl | rfl) (rfl | rfl)
    · exact fun _ _ _ => rfl
    · exact agree_mined
    · exact fun h hh hh' => (agree_mined h hh' hh).symm
    · exact fun _ _ _ => rfl
  · intro i
    cases i <;> exact .inl rfl
  · have hboth : run (step .plain) [.chain true minedTables, .chain false minedTables] (pair genesisTables genesisTables) =
        pair minedTables minedTables := by
      have htables : (fun i : Bool => if i = false then minedTables else if i = true then minedTables else
          if i then genesisTables else genesisTables) = fun i => if i then minedTables else minedTables := by
        funext i
        cases i <;> rfl
      exact congrArg (fun tables => ({ pair minedTables minedTables with tables := tables } : RootNetwork Bool)) htables
    refine along_append.mpr ⟨compared_check, ?_⟩
    rw [run_check]
    refine along_append.mpr ⟨⟨trivial, trivial, trivial⟩, ?_⟩
    rw [hboth]
    exact compared_check

/-- A node at height 0 asks for the root at height 0, and is told the root at height 1. -/
theorem tip_ahead_reported :
    Executed rewards genesisTables ∧ Executed rewards minedTables ∧ Agree genesisTables minedTables ∧
    ¬ Always (step .plain) Silent (check 0) (pair genesisTables minedTables) := by
  have hreport : (run (step .plain) (check 0) (pair genesisTables minedTables)).reports = [(true, 0)] := by
    decide +kernel
  refine ⟨executed_genesis, executed_mined, agree_mined, fun hsilent => ?_⟩
  · have hlast := hsilent.last
    unfold Silent at hlast
    rw [hreport] at hlast
    cases hlast

end RootNetwork

end AbsoluteChain
