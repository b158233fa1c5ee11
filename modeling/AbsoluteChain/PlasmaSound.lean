import AbsoluteChain.Plasma

/-!
# Solvency of the side chain

While balances and amounts are whole numbers of one power of two, and small together, no sum of doubles is
rounded, and the books of the side chain balance up to the debits that were cut.
-/

namespace AbsoluteChain

open Python KeyedTable Runs Features

namespace SideChain

/-! ## Sections on a grid -/

/-- Every amount is a whole number of `2 ^ e` and not negative, and the database rounds to doubles. -/
structure Gridded (e : ℤ) (s : SideChain) : Prop where
  rounds : s.holdings.real = Binary64.round
  balances : s.holdings.tables.Gridded e
  solvent : s.holdings.tables.Solvent
  memory : s.memory.Gridded e
  exits : ∀ id ex, s.memory.exitRequests.get? id = some ex → OnGrid e ex.amount
  inProgress : ∀ p ∈ s.checked ++ s.debited, OnGrid e p.2

/-- What may still be added up: the balances, the deposits and exits, and the transfers, which both give and take. -/
def load (s : SideChain) : ℚ :=
  s.holdings.tables.getTotalSupply + confirmed s.memory.deposits + s.pendingExits + (s.debited.map Prod.snd).sum +
    2 * transferred s.memory.history

def Section.amount : Section → ℚ
  | .check _ x | .debit _ x | .record _ x _ _ _ | .submitTransaction _ _ x _ => x
  | _ => 0

def Section.cost : Section → ℚ
  | .debit _ x => |x|
  | .submitTransaction _ _ x _ => 2 * |x|
  | _ => 0

theorem Section.cost_nonneg (c : Section) : 0 ≤ c.cost := by
  cases c with
  | debit a x => exact abs_nonneg x
  | submitTransaction a b x clock => exact mul_nonneg (by norm_num) (abs_nonneg x)
  | _ => exact le_refl _

section
variable {e : ℤ} {s : SideChain}

theorem Gridded.parts (h : Gridded e s) : 0 ≤ s.holdings.tables.getTotalSupply ∧ 0 ≤ confirmed s.memory.deposits ∧
    0 ≤ s.pendingExits ∧ 0 ≤ (s.debited.map Prod.snd).sum ∧ 0 ≤ transferred s.memory.history := by
  refine ⟨(h.solvent "").trans (h.solvent.balance_le ""), List.sum_nonneg fun x hx => ?_, List.sum_nonneg fun x hx => ?_,
    List.sum_nonneg fun x hx => ?_, List.sum_nonneg fun x hx => ?_⟩
  · obtain ⟨p, hp, rfl⟩ := List.mem_map.mp hx
    dsimp only
    split
    · exact (h.memory.deposits p hp).2
    · exact le_refl _
  · obtain ⟨p, hp, rfl⟩ := List.mem_map.mp hx
    dsimp only
    split
    · exact (h.exits p.1 p.2 ((Table.mem_rows_iff _ _ _).mp hp)).2
    · exact le_refl _
  · obtain ⟨p, hp, rfl⟩ := List.mem_map.mp hx
    exact (h.inProgress p (List.mem_append_right _ hp)).2
  · obtain ⟨tx, htx, rfl⟩ := List.mem_map.mp hx
    split
    · exact le_refl _
    · exact (h.memory.moves tx htx).2

theorem Gridded.sums_small (h : Gridded e s) (hfits : load s < 2 ^ (e + 53)) :
    confirmed s.memory.deposits + 2 * transferred s.memory.history < 2 ^ (e + 53) := by
  obtain ⟨hsupply, -, hexits, hdebited, -⟩ := h.parts
  unfold load at hfits
  linarith

theorem Gridded.exact (h : Gridded e s) (he : -1074 ≤ e) (hfits : load s < 2 ^ (e + 53)) : s.Exact := by
  intro a
  rw [h.rounds]
  exact h.memory.exact he (h.sums_small hfits) a

theorem Gridded.exit_le (h : Gridded e s) {id : String} {req : PlasmaExit} (hreq : s.memory.exitRequests.get? id = some req)
    (hpending : req.status = .pending) : req.amount ≤ s.pendingExits := by
  have hone : (if req.status = .pending then req.amount else 0) ≤ s.pendingExits := by
    unfold pendingExits Table.sum
    refine List.single_le_sum ?_ _ (List.mem_map_of_mem (f := fun p => if p.2.status = .pending then p.2.amount else 0)
      ((Table.mem_rows_iff s.memory.exitRequests id req).mpr hreq))
    intro x hx
    obtain ⟨p, hp, rfl⟩ := List.mem_map.mp hx
    dsimp only
    split
    · exact (h.exits p.1 p.2 ((Table.mem_rows_iff _ _ _).mp hp)).2
    · exact le_refl _
  rwa [if_pos hpending] at hone

theorem Gridded.confirmed_set (h : Gridded e s) (id : String) (dep : PlasmaDeposit) :
    confirmed (s.memory.deposits.set id dep) ≤
      confirmed s.memory.deposits + if dep.status = .confirmed then dep.amount else 0 := by
  unfold confirmed
  rw [Dict.sum_set]
  apply sub_le_self
  cases hold : s.memory.deposits.get? id with
  | none => exact le_refl _
  | some dep' =>
    rw [Option.elim_some]
    split
    · exact (h.memory.deposits (id, dep') (Dict.mem_of_get? hold)).2
    · exact le_refl _

theorem Gridded.pendingExits_put (h : Gridded e s) (id : String) (req : PlasmaExit) :
    (s.memory.exitRequests.put id req).sum (fun ex => if ex.status = .pending then ex.amount else 0) ≤
      s.pendingExits + if req.status = .pending then req.amount else 0 := by
  rw [Table.sum_put]
  apply sub_le_self
  cases hold : s.memory.exitRequests.get? id with
  | none => exact le_refl _
  | some req' =>
    rw [Option.elim_some]
    split
    · exact (h.exits id req' hold).2
    · exact le_refl _

theorem Gridded.debit_small (h : Gridded e s) {a : String} {x : ℚ} (hin : (a, x) ∈ s.checked)
    (hfits : load s + |x| < 2 ^ (e + 53)) : |s.holdings.tables.getBalance a + -x| < 2 ^ (e + 53) := by
  obtain ⟨hsupply, hdeposits, hexits, hdebited, htransfers⟩ := h.parts
  have hx := (h.inProgress (a, x) (List.mem_append_left _ hin)).2
  have hb := h.solvent a
  have hle := h.solvent.balance_le a
  rw [abs_of_nonneg hx] at hfits
  unfold load at hfits
  rw [abs_lt]
  constructor
  · linarith
  · linarith

theorem Gridded.credit_small (h : Gridded e s) {id : String} {req : PlasmaExit}
    (hreq : s.memory.exitRequests.get? id = some req) (hpending : req.status = .pending) (hfits : load s < 2 ^ (e + 53)) :
    0 ≤ s.holdings.tables.getBalance req.user + req.amount ∧
      s.holdings.tables.getBalance req.user + req.amount < 2 ^ (e + 53) := by
  obtain ⟨hsupply, hdeposits, hexits, hdebited, htransfers⟩ := h.parts
  have hx := (h.exits id req hreq).2
  have hamount := h.exit_le hreq hpending
  have hb := h.solvent req.user
  have hle := h.solvent.balance_le req.user
  unfold load at hfits
  constructor
  · linarith
  · linarith

/-! ### Steps on a grid -/

variable {f}

theorem Gridded.debit (h : Gridded e s) (he : -1074 ≤ e) {a : String} {x : ℚ} (hin : (a, x) ∈ s.checked)
    (hfits : load s + |x| < 2 ^ (e + 53)) :
    Gridded e (step f (.debit a x) s) ∧ load (step f (.debit a x) s) ≤ load s + |x| := by
  have hx := h.inProgress (a, x) (List.mem_append_left _ hin)
  have hsmall := h.debit_small hin hfits
  have hgain : s.holdings.tables.gained Binary64.round a (-x) ≤ 0 := by
    rw [Tables.gained_cut h.balances he hx.1.neg hsmall, sub_nonpos]
    have hx0 : 0 ≤ x := hx.2
    exact max_le (h.solvent a) (by linarith)
  simp only [step, if_pos hin]
  refine ⟨⟨h.rounds, ?_, h.solvent.applyRealDelta a (-x), h.memory, h.exits, fun p hp => ?_⟩, ?_⟩
  · dsimp only [Holdings.updateBalance]
    rw [h.rounds]
    exact h.balances.cut he hx.1.neg hsmall
  · rcases List.mem_append.mp hp with hp | hp
    · exact h.inProgress p (List.mem_append_left _ (List.mem_of_mem_erase hp))
    · rcases List.mem_cons.mp hp with rfl | hp
      · exact hx
      · exact h.inProgress p (List.mem_append_right _ hp)
  · unfold load
    change (s.holdings.tables.applyRealDelta s.holdings.real a (-x)).getTotalSupply + confirmed s.memory.deposits +
      s.pendingExits + (x + (s.debited.map Prod.snd).sum) + 2 * transferred s.memory.history ≤ _
    have hsize : |x| = x := abs_of_nonneg hx.2
    rw [Tables.supply_applyRealDelta, h.rounds, hsize]
    linarith

theorem Gridded.record (h : Gridded e s) {a mainTxHash : String} {x clock : ℚ} {now : Int} (hin : (a, x) ∈ s.debited) :
    Gridded e (step f (.record a x mainTxHash clock now) s) ∧
      load (step f (.record a x mainTxHash clock now) s) ≤ load s := by
  have hx := h.inProgress (a, x) (List.mem_append_right _ hin)
  simp only [step, if_pos hin]
  refine ⟨⟨h.rounds, h.balances, h.solvent, ⟨fun p hp => ?_, fun tx htx => ?_⟩, h.exits, fun p hp => ?_⟩, ?_⟩
  · rcases Dict.mem_set hp with hp | rfl
    · exact h.memory.deposits p hp
    · exact hx
  · change tx ∈ ((s.holdings.saveDeposit _ _).setPending (s.holdings.memory.pendingTxs ++ [_])).memory.history at htx
    rw [history_deposit] at htx
    rcases List.mem_append.mp htx with htx | htx
    · exact h.memory.moves tx htx
    · rw [List.mem_singleton.mp htx]
      exact hx
  · rcases List.mem_append.mp hp with hp | hp
    · exact h.inProgress p (List.mem_append_left _ hp)
    · exact h.inProgress p (List.mem_append_right _ (List.mem_of_mem_erase hp))
  · have herase : (s.debited.map Prod.snd).sum = x + ((s.debited.erase (a, x)).map Prod.snd).sum :=
      ((List.perm_cons_erase hin).map Prod.snd).sum_eq
    have hgain : confirmed (f.recordDeposit a x mainTxHash clock now s.holdings).memory.deposits ≤
        confirmed s.memory.deposits + x := (h.confirmed_set _ _).trans (by rw [if_pos rfl])
    have hnone : transferred [{ deposit := true, fromAddr := a, toAddr := a, amount := x }] = 0 := by simp [transferred]
    unfold load
    change s.holdings.tables.getTotalSupply + confirmed (f.recordDeposit a x mainTxHash clock now s.holdings).memory.deposits +
      s.pendingExits + ((s.debited.erase (a, x)).map Prod.snd).sum +
        2 * transferred ((s.holdings.saveDeposit _ _).setPending (s.holdings.memory.pendingTxs ++ [_])).memory.history ≤ _
    rw [herase, history_deposit, transferred_append, hnone]
    change _ + 2 * (transferred s.memory.history + 0) ≤ _
    linarith

theorem Gridded.submitTransaction (h : Gridded e s) {a b : String} {x clock : ℚ} (hx : Binary64.Multiple e x) :
    Gridded e (step f (.submitTransaction a b x clock) s) ∧
      load (step f (.submitTransaction a b x clock) s) ≤ load s + 2 * |x| := by
  simp only [step]
  rcases @submitTransaction_spec f s.holdings a b x clock with hsame | ⟨hpos, -, hnew⟩
  · rw [hsame]
    exact ⟨h, le_add_of_nonneg_right (mul_nonneg (by norm_num) (abs_nonneg x))⟩
  · have hone : transferred [{ deposit := false, fromAddr := a, toAddr := b, amount := x }] = x := by simp [transferred]
    have hreal := Holdings.real_setPending
      (s.holdings.memory.pendingTxs ++ [{ deposit := false, fromAddr := a, toAddr := b, amount := x }]) s.holdings
    have htables := Holdings.tables_setPending
      (s.holdings.memory.pendingTxs ++ [{ deposit := false, fromAddr := a, toAddr := b, amount := x }]) s.holdings
    have hmem := memory_setPending
      (s.holdings.memory.pendingTxs ++ [{ deposit := false, fromAddr := a, toAddr := b, amount := x }]) s.holdings
    have hhistory := history_pending [{ deposit := false, fromAddr := a, toAddr := b, amount := x }] s.holdings
    rw [hnew]
    generalize s.holdings.setPending _ = holdings at hreal htables hmem hhistory
    refine ⟨⟨hreal.trans h.rounds, ?_, ?_, ⟨?_, fun tx htx => ?_⟩, ?_, h.inProgress⟩, ?_⟩
    · change holdings.tables.Gridded e
      rw [htables]
      exact h.balances
    · change holdings.tables.Solvent
      rw [htables]
      exact h.solvent
    · change ∀ p ∈ holdings.memory.deposits, _
      rw [hmem]
      exact h.memory.deposits
    · change tx ∈ holdings.memory.history at htx
      rw [hhistory] at htx
      rcases List.mem_append.mp htx with htx | htx
      · exact h.memory.moves tx htx
      · rw [List.mem_singleton.mp htx]
        exact ⟨hx, hpos.le⟩
    · change ∀ id ex, holdings.memory.exitRequests.get? id = some ex → _
      rw [hmem]
      exact h.exits
    · unfold load
      change holdings.tables.getTotalSupply + confirmed holdings.memory.deposits +
        holdings.memory.exitRequests.sum (fun ex => if ex.status = .pending then ex.amount else 0) +
          (s.debited.map Prod.snd).sum + 2 * transferred holdings.memory.history ≤ _
      rw [hhistory, transferred_append, hone, abs_of_pos hpos, htables, hmem]
      change s.holdings.tables.getTotalSupply + confirmed s.memory.deposits + s.pendingExits + (s.debited.map Prod.snd).sum +
        2 * (transferred s.memory.history + x) ≤ _
      linarith

theorem Gridded.submitBlock (h : Gridded e s) :
    Gridded e (step f .submitBlock s) ∧ load (step f .submitBlock s) ≤ load s := by
  simp only [step, Features.submitBlock]
  by_cases hempty : s.holdings.memory.pendingTxs = []
  · rw [if_pos hempty]
    exact ⟨h, le_refl _⟩
  · have hhistory := history_submitBlock s.holdings
    simp only [Features.submitBlock] at hhistory
    rw [if_neg hempty] at hhistory ⊢
    refine ⟨⟨h.rounds, h.balances, h.solvent, ⟨h.memory.deposits, fun tx htx => ?_⟩, h.exits, h.inProgress⟩, ?_⟩
    · change tx ∈ (((s.holdings.saveBlock s.holdings.memory.pendingTxs).setPending []).memory.history) at htx
      rw [hhistory] at htx
      exact h.memory.moves tx htx
    · change s.holdings.tables.getTotalSupply + confirmed s.memory.deposits + s.pendingExits +
        (s.debited.map Prod.snd).sum +
          2 * transferred ((s.holdings.saveBlock s.holdings.memory.pendingTxs).setPending []).memory.history ≤ _
      rw [hhistory]
      exact le_refl _

theorem Gridded.requestExit (h : Gridded e s) {d user : String} {clock : ℚ} {now : Int} :
    Gridded e (step f (.requestExit d user clock now) s) ∧ load (step f (.requestExit d user clock now) s) ≤ load s := by
  simp only [step]
  rcases @requestExit_spec f s.holdings user d clock now with hsame | ⟨dep, hdep, hstatus, -, -, hnew⟩
  · rw [hsame]
    exact ⟨h, le_refl _⟩
  · rw [hnew]
    have hamount : OnGrid e dep.amount := h.memory.deposits (d, dep) (Dict.mem_of_get? hdep)
    refine ⟨⟨h.rounds, h.balances, h.solvent, ⟨fun p hp => ?_, h.memory.moves⟩, fun id ex hex => ?_, h.inProgress⟩, ?_⟩
    · rcases Dict.mem_set hp with hp | rfl
      · exact h.memory.deposits p hp
      · exact hamount
    · change (s.memory.exitRequests.put _ _).get? id = some ex at hex
      rw [Table.get_put] at hex
      split at hex
      · rw [← Option.some.inj hex]
        exact hamount
      · exact h.exits id ex hex
    · have hpending := h.pendingExits_put (f.shortId [d, user] clock)
        { depositId := d, user := user, amount := dep.amount, createdAt := now, status := .pending }
      rw [if_pos rfl] at hpending
      unfold load
      change s.holdings.tables.getTotalSupply + confirmed (s.memory.deposits.set d { dep with status := .exiting }) +
        (s.memory.exitRequests.put _ _).sum (fun ex => if ex.status = .pending then ex.amount else 0) +
          (s.debited.map Prod.snd).sum + 2 * transferred s.memory.history ≤ _
      rw [confirmed_exiting hdep hstatus]
      linarith

theorem Gridded.finalizeExit (h : Gridded e s) (he : -1074 ≤ e) (hfits : load s < 2 ^ (e + 53)) {id : String}
    {force : Bool} {clock : ℚ} :
    Gridded e (step f (.finalizeExit id force clock) s) ∧ load (step f (.finalizeExit id force clock) s) ≤ load s := by
  simp only [step]
  rcases @finalizeExit_spec s.holdings id clock force with hsame | ⟨req, hreq, hpending, -, hreal, htables, hmem⟩
  · rw [hsame]
    exact ⟨h, le_refl _⟩
  · have hamount := h.exits id req hreq
    obtain ⟨hpos, hsmall⟩ := h.credit_small hreq hpending hfits
    have hgain := Tables.gained_gridded h.balances he hamount.1 hpos hsmall
    rw [h.rounds] at hreal htables
    generalize (Features.finalizeExit id force clock s.holdings).2 = holdings at hmem hreal htables
    have hexits : holdings.memory.exitRequests = s.memory.exitRequests.put id { req with status := .finalized } := by rw [hmem]; rfl
    have hhistory : holdings.memory.history = s.memory.history := by rw [hmem]; rfl
    have hdeposits : (∀ p ∈ holdings.memory.deposits, OnGrid e p.2.amount) ∧
        confirmed holdings.memory.deposits ≤ confirmed s.memory.deposits := by
      rw [hmem]
      dsimp only
      cases hdep : s.holdings.memory.deposits.get? req.depositId with
      | none => exact ⟨h.memory.deposits, le_refl _⟩
      | some dep =>
        refine ⟨fun p hp => ?_, (h.confirmed_set req.depositId { dep with status := .exited }).trans ?_⟩
        · rcases Dict.mem_set hp with hp | rfl
          · exact h.memory.deposits p hp
          · exact h.memory.deposits (req.depositId, dep) (Dict.mem_of_get? hdep)
        · rw [if_neg (fun hc => by cases hc), add_zero]
    refine ⟨⟨hreal, ?_, ?_, ⟨hdeposits.1, fun tx htx => ?_⟩, fun k ex hex => ?_, h.inProgress⟩, ?_⟩
    · change holdings.tables.Gridded e
      rw [htables]
      exact h.balances.cut he hamount.1 (by rwa [abs_of_nonneg hpos])
    · change holdings.tables.Solvent
      rw [htables]
      exact h.solvent.applyRealDelta _ _
    · change tx ∈ holdings.memory.history at htx
      rw [hhistory] at htx
      exact h.memory.moves tx htx
    · change holdings.memory.exitRequests.get? k = some ex at hex
      rw [hexits, Table.get_put] at hex
      split at hex
      · rw [← Option.some.inj hex]
        exact hamount
      · exact h.exits k ex hex
    · unfold load
      change holdings.tables.getTotalSupply + confirmed holdings.memory.deposits +
        holdings.memory.exitRequests.sum (fun ex => if ex.status = .pending then ex.amount else 0) +
          (s.debited.map Prod.snd).sum + 2 * transferred holdings.memory.history ≤ _
      rw [htables, hexits, hhistory, Tables.supply_applyRealDelta, hgain, pendingExits_finalized hreq hpending]
      linarith [hdeposits.2]

theorem gridded_step (c : Section) (s : SideChain) (h : Gridded e s) (he : -1074 ≤ e)
    (hfits : load s + c.cost < 2 ^ (e + 53)) (hamount : Binary64.Multiple e c.amount) :
    Gridded e (step f c s) ∧ load (step f c s) ≤ load s + c.cost := by
  have hnow : load s < 2 ^ (e + 53) := lt_of_le_of_lt (le_add_of_nonneg_right c.cost_nonneg) hfits
  have hkept : Gridded e (step f c s) ∧ load (step f c s) ≤ load s →
      Gridded e (step f c s) ∧ load (step f c s) ≤ load s + c.cost := fun hk =>
    ⟨hk.1, hk.2.trans (le_add_of_nonneg_right c.cost_nonneg)⟩
  cases c with
  | check a x =>
    refine hkept ?_
    simp only [step]
    by_cases hno : x ≤ 0 ∨ s.holdings.tables.getBalance a < x
    · rw [if_pos hno]
      exact ⟨h, le_refl _⟩
    · rw [if_neg hno]
      rw [not_or, not_le] at hno
      refine ⟨{ h with inProgress := fun p hp => ?_ }, le_refl _⟩
      rcases List.mem_cons.mp hp with rfl | hp
      · exact ⟨hamount, hno.1.le⟩
      · exact h.inProgress p hp
  | debit a x =>
    by_cases hin : (a, x) ∈ s.checked
    · exact h.debit he hin hfits
    · refine hkept ?_
      simp only [step, if_neg hin]
      exact ⟨h, le_refl _⟩
  | record a x mainTxHash clock now =>
    by_cases hin : (a, x) ∈ s.debited
    · exact hkept (h.record hin)
    · refine hkept ?_
      simp only [step, if_neg hin]
      exact ⟨h, le_refl _⟩
  | submitTransaction a b x clock => exact h.submitTransaction hamount
  | submitBlock => exact hkept h.submitBlock
  | requestExit d user clock now => exact hkept h.requestExit
  | finalizeExit id force clock => exact hkept (h.finalizeExit he hnow)

/-- Opening balances and amounts of a run that are whole numbers of `2 ^ e` and small together: less than `2 ^ 53` of
them, where a transfer counts twice. -/
structure Fine (e : ℤ) (t : Tables) (sections : List Section) : Prop where
  unit : -1074 ≤ e
  balances : t.Gridded e
  solvent : t.Solvent
  amounts : ∀ c ∈ sections, Binary64.Multiple e c.amount
  small : t.getTotalSupply + (sections.map Section.cost).sum < 2 ^ (e + 53)

section
variable {t : Tables} {sections : List Section}

theorem gridded_start (h : Fine e t sections) : Gridded e (start Binary64.round t) ∧
    load (start Binary64.round t) = t.getTotalSupply := by
  refine ⟨⟨rfl, h.balances, h.solvent, ⟨fun p hp => (nomatch hp), fun tx htx => (nomatch htx)⟩, fun id ex hex => (nomatch hex),
    fun p hp => (nomatch hp)⟩, ?_⟩
  change t.getTotalSupply + 0 + 0 + 0 + 2 * 0 = _
  ring

theorem Fine.along (h : Fine e t sections) :
    Along (step f) (fun c s => Gridded e s ∧ load s + c.cost < 2 ^ (e + 53)) sections (start Binary64.round t) ∧
      Gridded e (run (step f) sections (start Binary64.round t)) ∧
        load (run (step f) sections (start Binary64.round t)) < 2 ^ (e + 53) := by
  obtain ⟨hstart, hload⟩ := gridded_start h
  exact along_budget Section.cost_nonneg (fun c s hs hfits hc => gridded_step c s hs h.unit hfits hc) hstart
    (by rw [hload]; exact h.small) (along_of_mem h.amounts)

end

/-! ## What is owed -/

def gap (s : SideChain) : ℚ :=
  confirmed s.memory.deposits + s.pendingExits + (s.debited.map Prod.snd).sum + (s.paid.map Prod.snd).sum - s.taken

theorem gap_record {a mainTxHash : String} {x clock : ℚ} {now : Int} (hf : Fresh f (.record a x mainTxHash clock now) s) :
    gap (step f (.record a x mainTxHash clock now) s) = gap s := by
  simp only [step]
  by_cases hin : (a, x) ∈ s.debited
  · rw [if_pos hin]
    change s.memory.deposits.get? (f.shortId [a, f.host.strNum (.float x), mainTxHash] clock) = none at hf
    have herase : (s.debited.map Prod.snd).sum = x + ((s.debited.erase (a, x)).map Prod.snd).sum :=
      ((List.perm_cons_erase hin).map Prod.snd).sum_eq
    have hgain : confirmed (f.recordDeposit a x mainTxHash clock now s.holdings).memory.deposits =
        confirmed s.memory.deposits + x := (sum_added hf _).trans (by rw [if_pos rfl]; rfl)
    unfold gap
    change confirmed (f.recordDeposit a x mainTxHash clock now s.holdings).memory.deposits + s.pendingExits +
      ((s.debited.erase (a, x)).map Prod.snd).sum + _ - _ = _
    rw [hgain, herase]
    ring
  · rw [if_neg hin]

theorem gap_others {holdings : Holdings} (hd : holdings.memory.deposits = s.memory.deposits)
    (he : holdings.memory.exitRequests = s.memory.exitRequests) : gap { s with holdings := holdings } = gap s := by
  unfold gap
  change confirmed holdings.memory.deposits + (holdings.memory.exitRequests.sum _) + _ + _ - _ = _
  rw [hd, he]
  rfl

theorem gap_requestExit {d user : String} {clock : ℚ} {now : Int} (hf : Fresh f (.requestExit d user clock now) s) :
    gap (step f (.requestExit d user clock now) s) = gap s := by
  simp only [step]
  rcases @requestExit_spec f s.holdings user d clock now with hsame | ⟨dep, hdep, hstatus, -, -, hnew⟩
  · rw [hsame]
  · rw [hnew]
    unfold gap
    change confirmed (s.memory.deposits.set d _) + (s.memory.exitRequests.put _ _).sum _ + _ + _ - _ = _
    rw [confirmed_exiting hdep hstatus, pendingExits_requested hf]
    ring

theorem gap_finalizeExit {id : String} {force : Bool} {clock : ℚ} (h : Books s) (hgrid : Gridded e s) (he : -1074 ≤ e)
    (hfits : load s < 2 ^ (e + 53)) : gap (step f (.finalizeExit id force clock) s) = gap s := by
  simp only [step]
  rcases @finalizeExit_books s id force clock h with
    hsame | ⟨req, dep, hreq, hpending, hdep, hexiting, hdone, -, htables, hmem⟩
  · rw [hsame]
    rfl
  · obtain ⟨hpos, hsmall⟩ := hgrid.credit_small hreq hpending hfits
    have hgain := Tables.gained_gridded hgrid.balances he (hgrid.exits id req hreq).1 hpos hsmall
    rw [hdone, if_pos rfl, hreq]
    dsimp only [Option.map_some, Option.toList_some]
    generalize (finalizeExit id force clock s.holdings).2 = holdings at hmem htables
    have hpaid : holdings.tables.getBalance req.user - s.holdings.tables.getBalance req.user = req.amount := by
      rw [htables, hgrid.rounds, Tables.balance_applyRealDelta, if_pos rfl, hgain, add_sub_cancel_left]
    unfold gap
    rw [List.map_append, List.sum_append, hpaid]
    change confirmed holdings.memory.deposits + holdings.memory.exitRequests.sum _ + _ + _ - _ = _
    rw [hmem]
    change confirmed (s.memory.deposits.set req.depositId _) + (s.memory.exitRequests.put id _).sum _ + _ + (_ + (req.amount + 0)) - _ = _
    rw [confirmed_exited hdep hexiting, pendingExits_finalized hreq hpending]
    ring

/-- Nothing but a debit that is cut moves it. -/
theorem gap_step (c : Section) (s : SideChain) (h : Books s) (hgrid : Gridded e s) (he : -1074 ≤ e)
    (hfits : load s + c.cost < 2 ^ (e + 53)) (hf : Fresh f c s) :
    gap s ≤ gap (step f c s) ∧ (gap (step f c s) = gap s ↔ Covered c s) := by
  have hnow : load s < 2 ^ (e + 53) := lt_of_le_of_lt (le_add_of_nonneg_right c.cost_nonneg) hfits
  have hkept : gap (step f c s) = gap s → Covered c s →
      gap s ≤ gap (step f c s) ∧ (gap (step f c s) = gap s ↔ Covered c s) := fun hg hc => ⟨hg.ge, iff_of_true hg hc⟩
  cases c with
  | check a x =>
    refine hkept ?_ trivial
    simp only [step]
    split
    · rfl
    · rfl
  | debit a x =>
    by_cases hin : (a, x) ∈ s.checked
    · have hx := hgrid.inProgress (a, x) (List.mem_append_left _ hin)
      have hmoved : gap (step f (.debit a x) s) =
          gap s + (x - (s.holdings.tables.getBalance a - max 0 (s.holdings.tables.getBalance a + -x))) := by
        simp only [step, if_pos hin]
        unfold gap
        change confirmed s.memory.deposits + s.pendingExits + (x + (s.debited.map Prod.snd).sum) + (s.paid.map Prod.snd).sum -
          (s.taken + (s.holdings.tables.getBalance a -
            (s.holdings.tables.applyRealDelta s.holdings.real a (-x)).getBalance a)) = _
        rw [Tables.balance_applyRealDelta, if_pos rfl, hgrid.rounds,
          Tables.gained_cut hgrid.balances he hx.1.neg (hgrid.debit_small hin hfits)]
        ring
      rw [hmoved]
      by_cases hcover : x ≤ s.holdings.tables.getBalance a
      · rw [max_eq_right (by linarith)]
        exact ⟨by linarith, iff_of_true (by ring) fun _ => hcover⟩
      · rw [max_eq_left (by linarith)]
        exact ⟨by linarith, iff_of_false (fun hg => hcover (by linarith)) fun hc => hcover (hc hin)⟩
    · refine hkept ?_ fun hc => absurd hc hin
      simp only [step, if_neg hin]
  | record a x mainTxHash clock now => exact hkept (gap_record hf) trivial
  | submitTransaction a b x clock =>
    refine hkept ?_ trivial
    simp only [step]
    rcases @submitTransaction_spec f s.holdings a b x clock with hsame | ⟨-, -, hnew⟩
    · rw [hsame]
    · rw [hnew]
      refine gap_others ?_ ?_
      · rw [memory_setPending]
        rfl
      · rw [memory_setPending]
        rfl
  | submitBlock => exact hkept (gap_others kept_submitBlock.1 kept_submitBlock.2) trivial
  | requestExit d user clock now => exact hkept (gap_requestExit hf) trivial
  | finalizeExit id force clock => exact hkept (gap_finalizeExit h hgrid he hnow) trivial

theorem gap_start (real : ℚ → ℚ) (t : Tables) : gap (start real t) = 0 := by
  unfold gap
  change (0 : ℚ) + 0 + 0 + 0 - 0 = 0
  norm_num

/-- Whatever sections run on amounts that need no rounding, nobody is overdrawn on the side chain and no deposit is
paid out twice. What is owed, with the deposits in progress, is what was taken less what was paid, exactly when
every debit found its amount in the account. -/
theorem solvent_iff_covered {t : Tables} {sections : List Section} (hfine : Fine e t sections)
    (hfresh : Along (step f) (Fresh f) sections (start Binary64.round t)) :
    let s := run (step f) sections (start Binary64.round t)
    (∀ a, 0 ≤ l2Balance Binary64.round a s.memory) ∧ (s.paid.map Prod.fst).Nodup ∧
    (l2Total Binary64.round s.memory + s.pendingExits + (s.debited.map Prod.snd).sum = s.taken - (s.paid.map Prod.snd).sum ↔
      Along (step f) Covered sections (start Binary64.round t)) ∧
    (s.debited = [] →
      (l2Total Binary64.round s.memory + s.pendingExits = s.taken - (s.paid.map Prod.snd).sum ↔
        Along (step f) Covered sections (start Binary64.round t))) := by
  intro s
  obtain ⟨hgrid, hend, hsmall⟩ := hfine.along (f := f)
  have hall := along_and hgrid hfresh
  have hstep : ∀ c s, Books s → (Gridded e s ∧ load s + c.cost < 2 ^ (e + 53)) ∧ Fresh f c s → Books (step f c s) := by
    intro c s h hc
    have hnow : load s < 2 ^ (e + 53) := lt_of_le_of_lt (le_add_of_nonneg_right c.cost_nonneg) hc.1.2
    exact books_step c s h (hc.1.1.exact hfine.unit hnow) hc.2
  have hbooks : Books s := (always_of_along hstep (books_start _ t) hall).last
  have hexact : ∀ a, l2Balance Binary64.round a s.memory = l2Sum a s.memory := by
    intro a
    rw [← hend.exact hfine.unit hsmall a, hend.rounds]
  have htotal : l2Total Binary64.round s.memory = confirmed s.memory.deposits := by
    unfold l2Total
    simp only [hexact]
    exact l2Sum_total _
  have hgap : gap s = 0 ↔ Along (step f) Covered sections (start Binary64.round t) := by
    have h := (kept_iff_along hstep (fun c s hs hc => gap_step c s hs hc.1.1 hfine.unit hc.1.2 hc.2) (books_start _ t) hall).2
    rw [gap_start] at h
    exact h
  have hsum : l2Total Binary64.round s.memory + s.pendingExits + (s.debited.map Prod.snd).sum =
      s.taken - (s.paid.map Prod.snd).sum ↔ Along (step f) Covered sections (start Binary64.round t) := by
    rw [← hgap, gap, htotal, sub_eq_zero, eq_sub_iff_add_eq]
  refine ⟨fun a => (hexact a).symm ▸ hbooks.nonneg a, hbooks.once, hsum, fun hidle => ?_⟩
  rw [hidle, List.map_nil, List.sum_nil, add_zero] at hsum
  exact hsum

/-! ## Calls one after the other -/

def sectionsOf : OffBlockOp → List Section
  | .deposit a x mainTxHash clock now => [.check a x, .debit a x, .record a x mainTxHash clock now]
  | .submitTransaction a b x clock => [.submitTransaction a b x clock]
  | .submitBlock => [.submitBlock]
  | .requestExit d user clock now => [.requestExit d user clock now]
  | .finalizeExit id force clock => [.finalizeExit id force clock]
  | _ => []

theorem covered_call (op : OffBlockOp) (h : s.checked = []) :
    Along (step f) Covered (sectionsOf op) s ∧ (run (step f) (sectionsOf op) s).checked = [] := by
  cases op with
  | deposit a x mainTxHash clock now =>
    by_cases hno : x ≤ 0 ∨ s.holdings.tables.getBalance a < x
    · have hcheck : step f (.check a x) s = s := by simp only [step, if_pos hno]
      have hdebit : step f (.debit a x) s = s := by simp [step, h]
      refine ⟨⟨trivial, ?_⟩, ?_⟩
      · rw [hcheck]
        refine ⟨fun hin => ?_, trivial, trivial⟩
        rw [h] at hin
        cases hin
      · change (step f (.record a x mainTxHash clock now) (step f (.debit a x) (step f (.check a x) s))).checked = []
        rw [hcheck, hdebit]
        simp only [step]
        split
        · exact h
        · exact h
    · have hcheck : step f (.check a x) s = { s with checked := [(a, x)] } := by simp only [step, if_neg hno, h]
      refine ⟨⟨trivial, ?_⟩, ?_⟩
      · rw [hcheck]
        exact ⟨fun _ => not_lt.mp fun hlt => hno (.inr hlt), trivial, trivial⟩
      · change (step f (.record a x mainTxHash clock now) (step f (.debit a x) (step f (.check a x) s))).checked = []
        rw [hcheck]
        simp [step]
  | submitTransaction => exact ⟨⟨trivial, trivial⟩, h⟩
  | submitBlock => exact ⟨⟨trivial, trivial⟩, h⟩
  | requestExit => exact ⟨⟨trivial, trivial⟩, h⟩
  | finalizeExit => exact ⟨⟨trivial, trivial⟩, h⟩
  | _ => exact ⟨trivial, h⟩

theorem covered_calls (ops : List OffBlockOp) (h : s.checked = []) : Along (step f) Covered (ops.flatMap sectionsOf) s := by
  induction ops generalizing s with
  | nil => trivial
  | cons op rest ih =>
    obtain ⟨hcall, hdone⟩ := covered_call (f := f) op h
    rw [List.flatMap_cons]
    exact along_append.mpr ⟨hcall, ih hdone⟩

end

/-- Two calls that deposit 100 from an account. -/
def racing : List Section :=
  [.check "a" 100, .check "a" 100, .debit "a" 100, .debit "a" 100, .record "a" 100 "" 1 1, .record "a" 100 "" 2 2]

/-- One such call and a transfer of the coins. -/
def depositing : List Section :=
  [.check "a" 100, .debit "a" 100, .record "a" 100 "" 1 1, .submitTransaction "a" "b" 40 2, .submitBlock]

def plasmaNode : Features := { host := .plain, nodeAddress := "v", bridge := BridgeNode.sampleNode }

/-- An account with 100 coins. -/
def hundred : Tables := Tables.empty.applyBalanceDelta "a" 100

theorem fine_single {x : ℚ} {sections : List Section} (hx : Binary64.Multiple 0 x) (hpos : 0 ≤ x)
    (hamounts : ∀ c ∈ sections, Binary64.Multiple 0 c.amount) (hsmall : x + (sections.map Section.cost).sum < 2 ^ 53) :
    Fine 0 (Tables.empty.applyBalanceDelta "a" x) sections := by
  have hnone : ∀ a, Tables.empty.getBalance a = 0 := fun _ => rfl
  refine ⟨by norm_num, fun a => ?_, Tables.Solvent.applyBalanceDelta (fun _ => le_refl _) "a" x, hamounts, ?_⟩
  · rw [Tables.balance_applyBalanceDelta, hnone, hnone, zero_add]
    by_cases ha : a = "a"
    · rw [if_pos ha, max_eq_right hpos]
      exact hx
    · rw [if_neg ha]
      exact .zero
  · have hsupply : (Tables.empty.applyBalanceDelta "a" x).getTotalSupply = x := by
      have hempty : Tables.empty.getTotalSupply = 0 := rfl
      rw [Tables.supply_applyBalanceDelta, hempty]
      simp [Tables.clipped, hnone, hpos]
    rw [hsupply]
    exact_mod_cast hsmall

theorem solvent_iff_covered_call :
    l2Total Binary64.round (run (step plasmaNode) depositing (start Binary64.round hundred)).memory = 100 ∧
    Along (step plasmaNode) Covered depositing (start Binary64.round hundred) := by
  have hfine : Fine 0 hundred depositing := by
    apply fine_single
    · exact ⟨100, by norm_num⟩
    · norm_num
    · intro c hc
      simp only [depositing, List.mem_cons, List.not_mem_nil, or_false] at hc
      rcases hc with rfl | rfl | rfl | rfl | rfl
      · exact ⟨100, by norm_num [Section.amount]⟩
      · exact ⟨100, by norm_num [Section.amount]⟩
      · exact ⟨100, by norm_num [Section.amount]⟩
      · exact ⟨40, by norm_num [Section.amount]⟩
      · exact .zero
    · norm_num [depositing, Section.cost]
  have hfresh : Along (step plasmaNode) (Fresh plasmaNode) depositing (start Binary64.round hundred) :=
    ⟨trivial, trivial, rfl, trivial, trivial, trivial⟩
  have hsums : l2Total Binary64.round (run (step plasmaNode) depositing (start Binary64.round hundred)).memory = 100 ∧
      (run (step plasmaNode) depositing (start Binary64.round hundred)).pendingExits = 0 ∧
      (run (step plasmaNode) depositing (start Binary64.round hundred)).taken = 100 ∧
      (run (step plasmaNode) depositing (start Binary64.round hundred)).paid = [] ∧
      (run (step plasmaNode) depositing (start Binary64.round hundred)).debited = [] := by decide +kernel
  obtain ⟨htotal, hpending, htaken, hpaid, hidle⟩ := hsums
  refine ⟨htotal, ((solvent_iff_covered hfine hfresh).2.2.2 hidle).mp ?_⟩
  rw [htotal, hpending, htaken, hpaid]
  norm_num

/-- Both find the 100 coins, and the second debit takes nothing: 200 coins on the side chain. -/
theorem racing_deposits :
    Along (step plasmaNode) (Fresh plasmaNode) racing (start Binary64.round hundred) ∧
    (run (step plasmaNode) racing (start Binary64.round hundred)).debited = [] ∧
    (run (step plasmaNode) racing (start Binary64.round hundred)).taken = 100 ∧
    (run (step plasmaNode) racing (start Binary64.round hundred)).paid = [] ∧
    l2Total Binary64.round (run (step plasmaNode) racing (start Binary64.round hundred)).memory = 200 := by
  have hsecond : (run (step plasmaNode) (racing.take 5) (start Binary64.round hundred)).memory.deposits.get?
      (plasmaNode.shortId ["a", plasmaNode.host.strNum (.float 100), ""] 2) = none := by decide +kernel
  refine ⟨⟨trivial, trivial, trivial, trivial, rfl, hsecond, trivial⟩, ?_⟩
  decide +kernel

end SideChain

end AbsoluteChain
