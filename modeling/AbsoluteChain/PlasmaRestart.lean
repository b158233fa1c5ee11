import AbsoluteChain.Newest
import AbsoluteChain.PlasmaSound

/-!
# The side chain after a restart

`_load_from_db` of `features/plasma.py` reads the newest 500 deposits, the newest 500 exits, the
last 500 blocks and the list of pending transactions, of which only the last 200 are kept. The deposits
come back with the newest first, so their sum is taken in another order.
-/

namespace KeyedTable

variable {κ ρ : Type} [LinearOrder κ]

/-! ## Tables filled in a loop -/

theorem perm_putRow {k : κ} {r : ρ} {l : List (κ × ρ)} (h : getRow k l = none) : (putRow k r l).Perm ((k, r) :: l) := by
  induction l with
  | nil => exact .refl _
  | cons e l ih =>
    obtain ⟨a, x⟩ := e
    unfold getRow at h
    by_cases hk : k = a
    · rw [if_pos hk] at h
      cases h
    · rw [if_neg hk] at h
      unfold putRow
      by_cases hlt : k < a
      · rw [if_pos hlt]
      · rw [if_neg hlt, if_neg hk]
        exact ((ih h).cons _).trans (List.Perm.swap _ _ _)

theorem putRow_last {k : κ} {r : ρ} {l : List (κ × ρ)} (h : ∀ e ∈ l, e.1 < k) : putRow k r l = l ++ [(k, r)] := by
  induction l with
  | nil => rfl
  | cons e l ih =>
    obtain ⟨a, x⟩ := e
    obtain ⟨ha, hrest⟩ := List.forall_mem_cons.mp h
    unfold putRow
    rw [if_neg (not_lt.mpr ha.le), if_neg (ne_of_gt ha), ih hrest, List.cons_append]

end KeyedTable

namespace AbsoluteChain

open Python KeyedTable Runs Features

/-- Rows with different keys are all there, whatever their order. -/
theorem perm_dictOf {ρ : Type} {rows : List (String × ρ)} (h : (rows.map Prod.fst).Nodup) : (dictOf rows).rows.Perm rows := by
  have hfold : ∀ (rows : List (String × ρ)) (t : Table String ρ), (rows.map Prod.fst).Nodup →
      (∀ e ∈ rows, t.get? e.1 = none) → (rows.foldl (fun t e => t.put e.1 e.2) t).rows.Perm (rows ++ t.rows) := by
    intro rows
    induction rows with
    | nil => exact fun t _ _ => .refl _
    | cons e rest ih =>
      intro t hnodup hnew
      obtain ⟨hfirst, hrest⟩ := List.nodup_cons.mp hnodup
      obtain ⟨hnone, hlater⟩ := List.forall_mem_cons.mp hnew
      refine (ih (t.put e.1 e.2) hrest fun e' he' => ?_).trans ?_
      · rw [Table.get_put, if_neg fun hsame : e'.1 = e.1 => hfirst (hsame ▸ List.mem_map_of_mem he')]
        exact hlater e' he'
      · exact ((perm_putRow hnone).append_left rest).trans List.perm_middle
  have hall := hfold rows .empty h fun _ _ => rfl
  rw [show (Table.empty : Table String ρ).rows = [] from rfl, List.append_nil] at hall
  exact hall

theorem foldl_set {ρ : Type} {rows : List (String × ρ)} (h : (rows.map Prod.fst).Nodup) :
    rows.foldl (fun (d : Dict String ρ) e => d.set e.1 e.2) [] = rows := by
  have hfold : ∀ (rows : List (String × ρ)) (d : Dict String ρ), (rows.map Prod.fst).Nodup →
      (∀ e ∈ rows, e.1 ∉ d.map Prod.fst) → rows.foldl (fun d e => d.set e.1 e.2) d = d ++ rows := by
    intro rows
    induction rows with
    | nil => exact fun d _ _ => (List.append_nil d).symm
    | cons e rest ih =>
      intro d hnodup hnew
      obtain ⟨hfirst, hrest⟩ := List.nodup_cons.mp hnodup
      obtain ⟨hnone, hlater⟩ := List.forall_mem_cons.mp hnew
      rw [List.foldl_cons, Dict.set_of_not_mem hnone, ih _ hrest, List.append_assoc]
      · rfl
      · intro e' he' hin
        rw [List.map_append, List.mem_append] at hin
        rcases hin with hin | hin
        · exact hlater e' he' hin
        · exact hfirst (List.mem_singleton.mp hin ▸ List.mem_map_of_mem he')
  exact hfold rows [] h fun _ _ hin => nomatch hin

theorem nodup_keys {ρ : Type} (t : Table String ρ) : (t.rows.map Prod.fst).Nodup := by
  have h : t.rows.Pairwise fun a b => a.1 < b.1 := t.ordered
  exact List.pairwise_map.mpr (h.imp fun hab => ne_of_lt hab)

/-! ## What memory and tables share -/

/-- The tables of the side chain hold what the memory holds; of the pending transactions they hold
the last 200. -/
structure InStep (s : Holdings) : Prop where
  deposits : ∀ id, s.ledgers.plasmaDeposits.get? id = s.memory.deposits.get? id
  keyed : s.memory.deposits.Keyed
  exits : s.ledgers.plasmaExits = s.memory.exitRequests
  blocks : s.ledgers.plasmaBlocks.rows = s.memory.blocks.zipIdx.map fun e => (e.2, e.1)
  pending : s.ledgers.plasmaPendingTxs = s.memory.pendingTxs.drop (s.memory.pendingTxs.length - 200)
  sealed : s.memory.blocks ≠ []

theorem load_empty : Ledgers.empty.load { deposits := [], exits := [], wills := [] } =
    ({ Ledgers.empty with plasmaBlocks := Table.empty.put 0 [] },
      { channels := .empty, deposits := [], exitRequests := .empty, blocks := [[]], pendingTxs := [], wills := .empty }) := by
  simp [Ledgers.load, Ledgers.empty, Table.empty, dictOf]

theorem inStep_start (real : ℚ → ℚ) (t : Tables) : InStep (SideChain.start real t).holdings := by
  unfold SideChain.start
  rw [load_empty]
  exact ⟨fun _ => rfl, List.nodup_nil, rfl, rfl, List.drop_nil.symm, List.cons_ne_nil _ _⟩

theorem pending_setPending (txs : List PlasmaTx) (s : Holdings) :
    (s.setPending txs).ledgers = { s.ledgers with plasmaPendingTxs := txs.drop (txs.length - 200) } := by
  unfold Holdings.setPending
  rfl

namespace InStep

variable {s : Holdings}

theorem setPending (h : InStep s) (txs : List PlasmaTx) : InStep (s.setPending txs) := by
  refine ⟨?_, ?_, ?_, ?_, ?_, ?_⟩
  all_goals rw [SideChain.memory_setPending]
  all_goals try rw [pending_setPending]
  · exact h.deposits
  · exact h.keyed
  · exact h.exits
  · exact h.blocks
  · exact h.sealed

theorem saveDeposit (h : InStep s) (id : String) (dep : PlasmaDeposit) : InStep (s.saveDeposit id dep) := by
  refine ⟨fun k => ?_, h.keyed.set id dep, h.exits, h.blocks, h.pending, h.sealed⟩
  change (s.ledgers.plasmaDeposits.put id dep).get? k = (s.memory.deposits.set id dep).get? k
  rw [Table.get_put, Dict.get?_set, h.deposits]

theorem saveExit (h : InStep s) (id : String) (ex : PlasmaExit) : InStep (s.saveExit id ex) :=
  ⟨h.deposits, h.keyed, congrArg (fun t => t.put id ex) h.exits, h.blocks, h.pending, h.sealed⟩

theorem saveBlock (h : InStep s) (txs : List PlasmaTx) : InStep (s.saveBlock txs) := by
  refine ⟨h.deposits, h.keyed, h.exits, ?_, h.pending, by simp [Holdings.saveBlock]⟩
  change putRow s.memory.blocks.length txs s.ledgers.plasmaBlocks.rows = _
  have hlast : ∀ e ∈ s.ledgers.plasmaBlocks.rows, e.1 < s.memory.blocks.length := by
    intro e he
    rw [h.blocks] at he
    obtain ⟨x, hx, rfl⟩ := List.mem_map.mp he
    exact (List.mem_zipIdx' hx).1
  rw [putRow_last hlast, h.blocks]
  change _ = (s.memory.blocks ++ [txs]).zipIdx.map _
  rw [List.zipIdx_append, List.map_append, Nat.zero_add]
  rfl

theorem updateBalance (h : InStep s) (a : String) (d : ℚ) : InStep (s.updateBalance a d) :=
  ⟨h.deposits, h.keyed, h.exits, h.blocks, h.pending, h.sealed⟩

theorem finalizeExit (h : InStep s) (id : String) (force : Bool) (clock : ℚ) :
    InStep (Features.finalizeExit id force clock s).2 := by
  unfold Features.finalizeExit
  cases s.memory.exitRequests.get? id with
  | none => exact h
  | some req =>
    dsimp only
    by_cases hstatus : req.status ≠ .pending
    · rw [if_pos hstatus]
      exact h
    · rw [if_neg hstatus]
      by_cases hearly : ¬ force = true ∧ clock - req.createdAt < challengePeriod
      · rw [if_pos hearly]
        exact h
      · rw [if_neg hearly]
        cases hc : s.credit req.user req.amount with
        | none => exact h
        | some s' =>
          rw [Holdings.credit_some hc]
          have hpaid := h.updateBalance req.user req.amount
          cases hd : (s.updateBalance req.user req.amount).memory.deposits.get? req.depositId with
          | none =>
            dsimp only
            rw [hd]
            exact hpaid.saveExit _ _
          | some dep =>
            dsimp only
            rw [hd]
            exact (hpaid.saveDeposit _ _).saveExit _ _

end InStep

theorem inStep_step {f : Features} (e : SideChain.Section) (s : SideChain) (h : InStep s.holdings) :
    InStep (SideChain.step f e s).holdings := by
  cases e with
  | check a x =>
    simp only [SideChain.step]
    split
    · exact h
    · exact h
  | debit a x =>
    simp only [SideChain.step]
    split
    · exact h.updateBalance a (-x)
    · exact h
  | record a x mainTxHash clock now =>
    simp only [SideChain.step]
    split
    · exact (h.saveDeposit _ _).setPending _
    · exact h
  | submitTransaction a b x clock =>
    simp only [SideChain.step]
    rcases @SideChain.submitTransaction_spec f s.holdings a b x clock with hsame | ⟨-, -, hnew⟩
    · rw [hsame]
      exact h
    · rw [hnew]
      exact h.setPending _
  | submitBlock =>
    simp only [SideChain.step, submitBlock]
    split
    · exact h
    · exact (h.saveBlock _).setPending []
  | requestExit d user clock now =>
    simp only [SideChain.step]
    rcases @SideChain.requestExit_spec f s.holdings user d clock now with hsame | ⟨dep, -, -, -, -, hnew⟩
    · rw [hsame]
      exact h
    · rw [hnew]
      exact (h.saveExit _ _).saveDeposit _ _
  | finalizeExit id force clock => exact h.finalizeExit id force clock

theorem inStep_run {f : Features} (real : ℚ → ℚ) (t : Tables) (sections : List SideChain.Section) :
    InStep (run (SideChain.step f) sections (SideChain.start real t)).holdings :=
  run_inv (I := fun s => InStep s.holdings) (fun e s h => inStep_step e s h) sections (inStep_start real t)

theorem InStep.perm {s : Holdings} (h : InStep s) : s.ledgers.plasmaDeposits.rows.Perm s.memory.deposits := by
  have hrows : s.ledgers.plasmaDeposits.rows.Nodup := List.Nodup.of_map Prod.fst (nodup_keys s.ledgers.plasmaDeposits)
  have hdict : s.memory.deposits.Nodup := List.Nodup.of_map Prod.fst h.keyed
  rw [List.perm_ext_iff_of_nodup hrows hdict]
  rintro ⟨id, dep⟩
  rw [Table.mem_rows_iff, h.deposits]
  exact ⟨Dict.mem_of_get?, h.keyed.get?_of_mem⟩

/-! ## What a restart loses -/

/-- The start after a history: the new memory gives every address the same balance and has the same
pending exits, and the ids of its next blocks are free. -/
structure Faithful (real : ℚ → ℚ) (m : Memory) (r : Ledgers × Memory) : Prop where
  balances : ∀ a, l2Balance real a r.2 = l2Balance real a m
  exits : ∀ id ex, ex.status = .pending → (r.2.exitRequests.get? id = some ex ↔ m.exitRequests.get? id = some ex)
  ids : ∀ k, r.2.blocks.length ≤ k → r.1.plasmaBlocks.get? k = none

/-- What lies outside the bounds of the queries: no block and no pending exit, and deposits and pending
transactions that give and take the same of every address. -/
structure WithinBounds (m : Memory) (scans : Scans) : Prop where
  blocks : m.blocks.length ≤ 500
  exits : ∀ e ∈ scans.exits.drop 500, e.2.status ≠ .pending
  balances : ∀ a, (((scans.deposits.drop 500).filter fun e => e.2.fromAddr = a ∧ e.2.status = .confirmed).map fun e => e.2.amount).sum +
    moved a (m.pendingTxs.take (m.pendingTxs.length - 200)) = 0

def Holdings.reread (scans : Scans) (s : Holdings) : Memory :=
  { channels := s.ledgers.lightningChannels
    deposits := (scans.deposits.take 500).foldl (fun d e => d.set e.1 e.2) []
    exitRequests := dictOf (scans.exits.take 500)
    blocks := s.memory.blocks.drop (s.memory.blocks.length - 500)
    pendingTxs := s.memory.pendingTxs.drop (s.memory.pendingTxs.length - 200)
    wills := dictOf ((scans.wills.take 500).filter fun e => e.2.status ≠ .cancelled) }

section
variable {s : Holdings} {scans : Scans}

theorem InStep.loaded (h : InStep s) : s.ledgers.load scans = (s.ledgers, s.reread scans) := by
  have hblocks : (s.ledgers.plasmaBlocks.rows.drop (s.ledgers.plasmaBlocks.rows.length - 500)).map Prod.snd =
      s.memory.blocks.drop (s.memory.blocks.length - 500) := by
    rw [h.blocks, List.length_map, List.length_zipIdx, List.map_drop, List.map_map]
    exact congrArg _ (List.zipIdx_map_fst 0 _)
  have hsome : s.memory.blocks.drop (s.memory.blocks.length - 500) ≠ [] := by
    have hpos := List.length_pos_iff.mpr h.sealed
    intro hnone
    have hlen := congrArg List.length hnone
    rw [List.length_drop, List.length_nil] at hlen
    omega
  unfold Ledgers.load
  rw [hblocks, h.pending]
  simp only [if_neg hsome]
  rfl

theorem InStep.stored (h : InStep s) (k : Nat) : s.ledgers.plasmaBlocks.get? k = s.memory.blocks[k]? := by
  have hmem : ∀ txs, s.ledgers.plasmaBlocks.get? k = some txs ↔ s.memory.blocks[k]? = some txs := by
    intro txs
    rw [← Table.mem_rows_iff, h.blocks, List.mem_map]
    constructor
    · rintro ⟨e, he, heq⟩
      cases heq
      exact List.mem_zipIdx_iff_getElem?.mp he
    · intro hk
      exact ⟨(txs, k), List.mem_zipIdx_iff_getElem?.mpr hk, rfl⟩
  exact Option.ext hmem

theorem ids_free (h : InStep s) : (∀ k, (s.reread scans).blocks.length ≤ k → s.ledgers.plasmaBlocks.get? k = none) ↔
    s.memory.blocks.length ≤ 500 := by
  unfold Holdings.reread
  rw [List.length_drop]
  constructor
  · intro hall
    by_contra hmore
    have hfree := hall 500 (by omega)
    rw [h.stored, List.getElem?_eq_none_iff] at hfree
    omega
  · intro hle k hk
    rw [h.stored, List.getElem?_eq_none_iff]
    omega

variable (hdeposits : Newest.Scan (fun e => e.2.createdAt) s.ledgers.plasmaDeposits.rows scans.deposits)
  (hexits : Newest.Scan (fun e => e.2.createdAt) s.ledgers.plasmaExits.rows scans.exits)

include hdeposits in
theorem InStep.read (h : InStep s) : s.memory.deposits.Perm (scans.deposits.take 500 ++ scans.deposits.drop 500) ∧
    (s.reread scans).deposits = scans.deposits.take 500 := by
  have hperm : s.memory.deposits.Perm (scans.deposits.take 500 ++ scans.deposits.drop 500) := by
    rw [List.take_append_drop]
    exact h.perm.symm.trans hdeposits.1.symm
  have hall := ((hperm.map Prod.fst).nodup_iff).mp h.keyed
  rw [List.map_append] at hall
  exact ⟨hperm, foldl_set (List.nodup_append.mp hall).1⟩

include hdeposits in
theorem deposited_split (h : InStep s) (a : String) : deposited a s.memory.deposits =
    deposited a (s.reread scans).deposits +
      (((scans.deposits.drop 500).filter fun e => e.2.fromAddr = a ∧ e.2.status = .confirmed).map fun e => e.2.amount).sum := by
  obtain ⟨hperm, hread⟩ := h.read hdeposits
  rw [hread]
  unfold deposited Dict.sum
  rw [sum_filter, (hperm.map _).sum_eq, List.map_append, List.sum_append]

/-- What is read of the transactions. -/
theorem reread_history : (s.reread scans).history.Sublist s.memory.history := by
  unfold Memory.history Holdings.reread
  dsimp only
  generalize s.memory.blocks.length - 500 = n
  generalize s.memory.pendingTxs.length - 200 = k
  exact (List.drop_sublist n s.memory.blocks).flatten.append (List.drop_sublist k s.memory.pendingTxs)

include hdeposits in
theorem InStep.exact {e : ℤ} (h : InStep s) (hgrid : s.memory.Gridded e) (he : -1074 ≤ e)
    (hsmall : confirmed s.memory.deposits + 2 * transferred s.memory.history < 2 ^ (e + 53)) (a : String) :
    l2Balance Binary64.round a (s.reread scans) = l2Sum a (s.reread scans) := by
  obtain ⟨hperm, hread⟩ := h.read hdeposits
  have hin : ∀ p ∈ (s.reread scans).deposits, p ∈ s.memory.deposits := by
    rw [hread]
    exact fun p hp => hperm.mem_iff.mpr (List.mem_append_left _ hp)
  have hless : confirmed (s.reread scans).deposits ≤ confirmed s.memory.deposits := by
    unfold confirmed Dict.sum
    rw [hread, (hperm.map _).sum_eq, List.map_append, List.sum_append]
    apply le_add_of_nonneg_right
    apply List.sum_nonneg
    intro x hx
    obtain ⟨p, hp, rfl⟩ := List.mem_map.mp hx
    dsimp only
    split
    · exact (hgrid.deposits p (hperm.mem_iff.mpr (List.mem_append_right _ hp))).2
    · exact le_refl _
  have hmoves : transferred (s.reread scans).history ≤ transferred s.memory.history := by
    unfold transferred
    apply (reread_history.map _).sum_le_sum
    intro x hx
    obtain ⟨tx, htx, rfl⟩ := List.mem_map.mp hx
    split
    · exact le_refl _
    · exact (hgrid.moves tx htx).2
  refine Memory.Gridded.exact ⟨fun p hp => hgrid.deposits p (hin p hp), fun tx htx => ?_⟩ he (by linarith) a
  exact hgrid.moves tx (reread_history.subset htx)

include hexits in
theorem exits_same (h : InStep s) : (∀ id ex, ex.status = .pending →
      ((dictOf (scans.exits.take 500)).get? id = some ex ↔ s.memory.exitRequests.get? id = some ex)) ↔
    ∀ e ∈ scans.exits.drop 500, e.2.status ≠ .pending := by
  have hperm : s.memory.exitRequests.rows.Perm (scans.exits.take 500 ++ scans.exits.drop 500) := by
    rw [List.take_append_drop, ← h.exits]
    exact hexits.1.symm
  have hall : ((scans.exits.take 500 ++ scans.exits.drop 500).map Prod.fst).Nodup :=
    ((hperm.map Prod.fst).nodup_iff).mp (nodup_keys s.memory.exitRequests)
  rw [List.map_append, List.nodup_append] at hall
  have hread : ∀ {id ex}, (dictOf (scans.exits.take 500)).get? id = some ex ↔ (id, ex) ∈ scans.exits.take 500 := by
    intro id ex
    rw [← Table.mem_rows_iff]
    exact (perm_dictOf hall.1).mem_iff
  have hheld : ∀ {id ex}, s.memory.exitRequests.get? id = some ex ↔
      (id, ex) ∈ scans.exits.take 500 ∨ (id, ex) ∈ scans.exits.drop 500 := by
    intro id ex
    rw [← Table.mem_rows_iff, hperm.mem_iff, List.mem_append]
  constructor
  · intro hsame e he hs
    have hin := hread.mp ((hsame e.1 e.2 hs).mpr (hheld.mpr (.inr he)))
    exact hall.2.2 e.1 (List.mem_map_of_mem hin) e.1 (List.mem_map_of_mem he) rfl
  · intro hnone id ex hs
    rw [hread, hheld]
    constructor
    · exact .inl
    · exact fun hin => hin.resolve_right fun hout => hnone _ hout hs

include hdeposits hexits in
/-- The restart of a side chain in step with its tables. -/
theorem InStep.faithful_iff {e : ℤ} (h : InStep s) (hgrid : s.memory.Gridded e) (he : -1074 ≤ e)
    (hsmall : confirmed s.memory.deposits + 2 * transferred s.memory.history < 2 ^ (e + 53)) :
    Faithful Binary64.round s.memory (s.ledgers.load scans) ↔ WithinBounds s.memory scans := by
  rw [h.loaded]
  have hpending : ∀ a, moved a s.memory.pendingTxs = moved a (s.memory.pendingTxs.take (s.memory.pendingTxs.length - 200)) +
      moved a (s.memory.pendingTxs.drop (s.memory.pendingTxs.length - 200)) := by
    intro a
    rw [← moved_append, List.take_append_drop]
  have hbalance : s.memory.blocks.length ≤ 500 → ∀ a,
      (l2Balance Binary64.round a (s.reread scans) = l2Balance Binary64.round a s.memory ↔
      (((scans.deposits.drop 500).filter fun e => e.2.fromAddr = a ∧ e.2.status = .confirmed).map fun e => e.2.amount).sum +
        moved a (s.memory.pendingTxs.take (s.memory.pendingTxs.length - 200)) = 0) := by
    intro hle a
    rw [h.exact hdeposits hgrid he hsmall, hgrid.exact he hsmall, l2Sum_eq, l2Sum_eq, deposited_split hdeposits h a]
    have hread : moved a (s.reread scans).history = moved a s.memory.blocks.flatten +
        moved a (s.memory.pendingTxs.drop (s.memory.pendingTxs.length - 200)) := by
      unfold Memory.history Holdings.reread
      rw [Nat.sub_eq_zero_of_le hle, List.drop_zero, moved_append]
    have hheld : moved a s.memory.history = moved a s.memory.blocks.flatten + moved a s.memory.pendingTxs := moved_append a _ _
    rw [hread, hheld, hpending a]
    constructor
    · intro heq
      linarith
    · intro hzero
      linarith
  constructor
  · rintro ⟨hbalances, hsame, hids⟩
    dsimp only at hbalances hsame hids
    have hle := (ids_free h).mp hids
    exact ⟨hle, (exits_same hexits h).mp hsame, fun a => (hbalance hle a).mp (hbalances a)⟩
  · rintro ⟨hle, hnone, hzero⟩
    refine ⟨?_, ?_, ?_⟩
    all_goals dsimp only
    · exact fun a => (hbalance hle a).mpr (hzero a)
    · exact (exits_same hexits h).mpr hnone
    · exact (ids_free h).mpr hle

end

/-- After every history of sections on amounts that need no rounding, a restart rebuilds the balances, the pending
exits and the next block id exactly when what the bounded queries leave out makes no difference. -/
theorem restart_faithful {f : Features} {e : ℤ} {t : Tables} {sections : List SideChain.Section} {scans : Scans}
    (hfine : SideChain.Fine e t sections)
    (hdeposits : Newest.Scan (fun e => e.2.createdAt)
      (run (SideChain.step f) sections (SideChain.start Binary64.round t)).holdings.ledgers.plasmaDeposits.rows scans.deposits)
    (hexits : Newest.Scan (fun e => e.2.createdAt)
      (run (SideChain.step f) sections (SideChain.start Binary64.round t)).holdings.ledgers.plasmaExits.rows scans.exits) :
    Faithful Binary64.round (run (SideChain.step f) sections (SideChain.start Binary64.round t)).memory
        ((run (SideChain.step f) sections (SideChain.start Binary64.round t)).holdings.ledgers.load scans) ↔
      WithinBounds (run (SideChain.step f) sections (SideChain.start Binary64.round t)).memory scans := by
  obtain ⟨-, hgrid, hsmall⟩ := hfine.along (f := f)
  exact (inStep_run _ t sections).faithful_iff hdeposits hexits hgrid.memory hfine.unit (hgrid.sums_small hsmall)

/-- As long as no bound is exceeded, nothing is left out. -/
theorem withinBounds_of_counts {m : Memory} {scans : Scans} (hblocks : m.blocks.length ≤ 500)
    (hdeposits : scans.deposits.length ≤ 500) (hexits : scans.exits.length ≤ 500) (hpending : m.pendingTxs.length ≤ 200) :
    WithinBounds m scans := by
  refine ⟨hblocks, fun e he => ?_, fun a => ?_⟩
  · rw [List.drop_of_length_le hexits] at he
    cases he
  · rw [List.drop_of_length_le hdeposits, Nat.sub_eq_zero_of_le hpending, List.take_zero]
    exact add_zero (0 : ℚ)

/-! ### More transfers than are kept -/

def threeHundred : Tables := Tables.empty.applyBalanceDelta "a" 300

def depositing : List SideChain.Section := [.check "a" 300, .debit "a" 300, .record "a" 300 "" 1 1]

def oneCoin : PlasmaTx := { deposit := false, fromAddr := "a", toAddr := "b", amount := 1 }

def transfers (k : Nat) : List SideChain.Section := List.replicate k (.submitTransaction "a" "b" 1 2)

theorem moves_transfers (k : Nat) : moved "a" (List.replicate k oneCoin) = -(k : ℚ) := by
  induction k with
  | zero => rfl
  | succ k ih =>
    have hone : (if oneCoin.deposit then 0 else (if oneCoin.toAddr = "a" then oneCoin.amount else 0) -
        (if oneCoin.fromAddr = "a" then oneCoin.amount else 0)) = -1 := by simp [oneCoin]
    rw [List.replicate_succ, moved_cons, ih, hone]
    push_cast
    ring

theorem transfers_run {f : Features} (k : Nat) {s : SideChain} (hreal : s.holdings.real = Binary64.round)
    (hgrid : s.memory.Gridded 0) (hk : (k : ℚ) ≤ l2Sum "a" s.memory)
    (hsmall : confirmed s.memory.deposits + 2 * (transferred s.memory.history + k) < 2 ^ ((0 : ℤ) + 53)) :
    (run (SideChain.step f) (transfers k) s).memory =
      { s.memory with pendingTxs := s.memory.pendingTxs ++ List.replicate k oneCoin } := by
  induction k generalizing s with
  | zero => rw [List.replicate_zero, List.append_nil]; rfl
  | succ k ih =>
    rw [Nat.cast_add, Nat.cast_one] at hk hsmall
    have hk0 : (0 : ℚ) ≤ k := Nat.cast_nonneg k
    -- the funds are there, since the sums are exact
    have hfunds : ¬ l2Balance s.holdings.real "a" s.holdings.memory < 1 := by
      have hexact : l2Balance Binary64.round "a" s.memory = l2Sum "a" s.memory :=
        hgrid.exact (by norm_num) (by linarith) "a"
      have hone : (1 : ℚ) ≤ l2Sum "a" s.memory := by linarith
      rw [hreal]
      exact not_lt.mpr (hone.trans (le_of_eq hexact.symm))
    have hstep : SideChain.step f (.submitTransaction "a" "b" 1 2) s =
        { s with holdings := s.holdings.setPending (s.memory.pendingTxs ++ [oneCoin]) } := by
      have hpos : ¬ ((1 : ℚ) ≤ 0 ∨ "a" = "" ∨ "b" = "") := by simp
      simp only [SideChain.step, submitTransaction, if_neg hpos, if_neg hfunds]
      rfl
    have hfirst : (SideChain.step f (.submitTransaction "a" "b" 1 2) s).memory =
        { s.memory with pendingTxs := s.memory.pendingTxs ++ [oneCoin] } := by
      rw [hstep]
      exact SideChain.memory_setPending _ _
    have hreal' : (SideChain.step f (.submitTransaction "a" "b" 1 2) s).holdings.real = Binary64.round := by
      rw [hstep]
      exact (Holdings.real_setPending _ _).trans hreal
    change (run (SideChain.step f) (transfers k) (SideChain.step f (.submitTransaction "a" "b" 1 2) s)).memory = _
    generalize SideChain.step f (.submitTransaction "a" "b" 1 2) s = s' at hfirst hreal' ⊢
    have hdeposits : s'.memory.deposits = s.memory.deposits := by rw [hfirst]
    have hhistory : s'.memory.history = s.memory.history ++ [oneCoin] := by
      rw [hfirst]
      exact (List.append_assoc _ _ _).symm
    -- and stay so after the first transfer
    have hgrid' : s'.memory.Gridded 0 := by
      refine ⟨by rw [hdeposits]; exact hgrid.deposits, fun tx htx => ?_⟩
      rw [hhistory] at htx
      rcases List.mem_append.mp htx with htx | htx
      · exact hgrid.moves tx htx
      · rw [List.mem_singleton.mp htx]
        exact ⟨⟨1, by norm_num [oneCoin]⟩, by norm_num [oneCoin]⟩
    have hleft : (k : ℚ) ≤ l2Sum "a" s'.memory := by
      have hone := moves_transfers 1
      rw [l2Sum_eq] at hk ⊢
      rw [hhistory, hdeposits, moved_append, show [oneCoin] = List.replicate 1 oneCoin from rfl, hone]
      push_cast
      linarith
    have hless : confirmed s'.memory.deposits + 2 * (transferred s'.memory.history + k) < 2 ^ ((0 : ℤ) + 53) := by
      have hone : transferred [oneCoin] = 1 := by simp [transferred, oneCoin]
      rw [hhistory, transferred_append, hone, hdeposits]
      linarith
    rw [ih hreal' hgrid' hleft hless, hfirst, List.replicate_succ]
    dsimp only
    rw [List.append_assoc]
    rfl

def deposited300 : SideChain :=
  run (SideChain.step SideChain.plasmaNode) depositing (SideChain.start Binary64.round threeHundred)

def inOrder (s : Holdings) : Scans :=
  { deposits := s.ledgers.plasmaDeposits.rows, exits := s.ledgers.plasmaExits.rows, wills := [] }

theorem transfers_fine (k : Nat) (hk : k ≤ 201) : SideChain.Fine 0 threeHundred (depositing ++ transfers k) := by
  apply SideChain.fine_single
  · exact ⟨300, by norm_num⟩
  · norm_num
  · intro c hc
    rcases List.mem_append.mp hc with hc | hc
    · simp only [depositing, List.mem_cons, List.not_mem_nil, or_false] at hc
      rcases hc with rfl | rfl | rfl
      · exact ⟨300, by norm_num [SideChain.Section.amount]⟩
      · exact ⟨300, by norm_num [SideChain.Section.amount]⟩
      · exact ⟨300, by norm_num [SideChain.Section.amount]⟩
    · rw [List.eq_of_mem_replicate hc]
      exact ⟨1, by norm_num [SideChain.Section.amount]⟩
  · have hcosts : ((transfers k).map SideChain.Section.cost).sum = 2 * k := by
      unfold transfers
      rw [List.map_replicate, List.sum_replicate, SideChain.Section.cost, nsmul_eq_mul, abs_one]
      ring
    have hle : (k : ℚ) ≤ 201 := by exact_mod_cast hk
    rw [List.map_append, List.sum_append, hcosts]
    norm_num [depositing, SideChain.Section.cost]
    linarith

theorem deposited300_facts : l2Sum "a" deposited300.memory = 300 ∧ confirmed deposited300.memory.deposits = 300 ∧
    transferred deposited300.memory.history = 0 := by decide +kernel

theorem deposited300_grid : SideChain.Gridded 0 deposited300 := by
  have hgrid := (transfers_fine 0 (Nat.zero_le _)).along (f := SideChain.plasmaNode)
  rw [show depositing ++ transfers 0 = depositing from rfl] at hgrid
  exact hgrid.2.1

theorem memory_holdings (s : SideChain) : s.memory = s.holdings.memory := rfl

theorem manyTransfers_memory :
    (run (SideChain.step SideChain.plasmaNode) (depositing ++ transfers 201)
        (SideChain.start Binary64.round threeHundred)).holdings.memory =
      { deposited300.memory with pendingTxs :=
          { deposit := true, fromAddr := "a", toAddr := "a", amount := 300 } :: List.replicate 201 oneCoin } := by
  have happend : run (SideChain.step SideChain.plasmaNode) (depositing ++ transfers 201)
      (SideChain.start Binary64.round threeHundred) = run (SideChain.step SideChain.plasmaNode) (transfers 201) deposited300 :=
    List.foldl_append ..
  obtain ⟨hheld, hconfirmed, hnone⟩ := deposited300_facts
  rw [happend, ← memory_holdings, transfers_run 201 deposited300_grid.rounds deposited300_grid.memory
    (by rw [hheld]; norm_num) (by rw [hconfirmed, hnone]; norm_num)]
  rfl

theorem scan_single {ρ : Type} {time : String × ρ → Int} {rows : List (String × ρ)} (h : rows.length ≤ 1) :
    Newest.Scan time rows rows := by
  refine ⟨.refl _, ?_⟩
  cases rows with
  | nil => exact .nil
  | cons e rest =>
    obtain rfl : rest = [] := List.length_eq_zero_iff.mp (by simpa using h)
    exact List.pairwise_singleton _ _

theorem restart_faithful_deposit :
    Faithful Binary64.round deposited300.memory (deposited300.holdings.ledgers.load (inOrder deposited300.holdings)) := by
  have hcounts : deposited300.holdings.ledgers.plasmaDeposits.rows.length ≤ 1 ∧
      deposited300.holdings.ledgers.plasmaExits.rows.length ≤ 1 ∧ deposited300.memory.blocks.length ≤ 500 ∧
      deposited300.memory.pendingTxs.length ≤ 200 := by decide +kernel
  obtain ⟨hdeposits, hexits, hblocks, hpending⟩ := hcounts
  have hfine := transfers_fine 0 (Nat.zero_le _)
  rw [show depositing ++ transfers 0 = depositing from rfl] at hfine
  refine (restart_faithful hfine (scan_single hdeposits) (scan_single hexits)).mpr ?_
  exact withinBounds_of_counts hblocks (hdeposits.trans (by norm_num)) (hexits.trans (by norm_num)) hpending

/-- The deposit and the first transfer are not among the last 200. -/
theorem left_out : (({ deposit := true, fromAddr := "a", toAddr := "a", amount := 300 } : PlasmaTx) :: List.replicate 201 oneCoin).take
    ((({ deposit := true, fromAddr := "a", toAddr := "a", amount := 300 } : PlasmaTx) :: List.replicate 201 oneCoin).length - 200) =
      [{ deposit := true, fromAddr := "a", toAddr := "a", amount := 300 }, oneCoin] := by
  rw [List.length_cons, List.length_replicate]
  rfl

theorem left_out_moves : moved "a" [{ deposit := true, fromAddr := "a", toAddr := "a", amount := 300 }, oneCoin] = -1 := by
  simp [moved, l2Moves, oneCoin]

theorem manyTransfers_rows {s : Holdings} (hstep : InStep s)
    (hmem : s.memory = { deposited300.memory with pendingTxs :=
      { deposit := true, fromAddr := "a", toAddr := "a", amount := 300 } :: List.replicate 201 oneCoin }) :
    s.ledgers.plasmaDeposits.rows.length = 1 ∧ s.ledgers.plasmaExits.rows.length = 0 := by
  rw [hstep.perm.length_eq, hstep.exits, hmem]
  decide +kernel

theorem forgotten {s : Holdings} (hstep : InStep s)
    (hmem : s.memory = { deposited300.memory with pendingTxs :=
      { deposit := true, fromAddr := "a", toAddr := "a", amount := 300 } :: List.replicate 201 oneCoin }) :
    ¬ WithinBounds s.memory (inOrder s) := by
  intro hbounds
  obtain ⟨hone, -⟩ := manyTransfers_rows hstep hmem
  have hzero := hbounds.balances "a"
  have hlost : (inOrder s).deposits.drop 500 = [] := List.drop_of_length_le (le_trans (le_of_eq hone) (by norm_num))
  rw [hlost, hmem] at hzero
  dsimp only at hzero
  rw [left_out, left_out_moves] at hzero
  norm_num at hzero

theorem not_faithful {s : Holdings} (hstep : InStep s) (hgrid : s.memory.Gridded 0)
    (hsmall : confirmed s.memory.deposits + 2 * transferred s.memory.history < 2 ^ ((0 : ℤ) + 53))
    (hmem : s.memory = { deposited300.memory with pendingTxs :=
      { deposit := true, fromAddr := "a", toAddr := "a", amount := 300 } :: List.replicate 201 oneCoin }) :
    ¬ Faithful Binary64.round s.memory (s.ledgers.load (inOrder s)) := by
  obtain ⟨hone, hnone⟩ := manyTransfers_rows hstep hmem
  rw [@InStep.faithful_iff s (inOrder s) (scan_single hone.le) (scan_single (le_trans hnone.le zero_le_one)) 0 hstep hgrid
    (by norm_num) hsmall]
  exact forgotten hstep hmem

theorem transfers_forgotten :
    ¬ Faithful Binary64.round
      (run (SideChain.step SideChain.plasmaNode) (depositing ++ transfers 201)
        (SideChain.start Binary64.round threeHundred)).memory
      ((run (SideChain.step SideChain.plasmaNode) (depositing ++ transfers 201)
          (SideChain.start Binary64.round threeHundred)).holdings.ledgers.load
        (inOrder (run (SideChain.step SideChain.plasmaNode) (depositing ++ transfers 201)
          (SideChain.start Binary64.round threeHundred)).holdings)) := by
  obtain ⟨-, hgrid, hsmall⟩ := (transfers_fine 201 (le_refl _)).along (f := SideChain.plasmaNode)
  have hmemory := hgrid.memory
  have hsums := hgrid.sums_small hsmall
  rw [memory_holdings] at hmemory hsums ⊢
  exact not_faithful (inStep_run _ _ _) hmemory hsums manyTransfers_memory

end AbsoluteChain
