import AbsoluteChain.OffBlock
import AbsoluteChain.Supply
import Mathlib.Algebra.BigOperators.Group.Finset.Piecewise
import Mathlib.Algebra.BigOperators.Ring.Finset

/-!
# The side chain

`features/plasma.py`. A balance of the side chain is not kept: it is worked out from the deposits
that are still confirmed and from the transfers in blocks and pending. A deposit looks at the
account, debits it and records the deposit in three sections; every other call is one.
-/

namespace AbsoluteChain

open Python KeyedTable Runs Features

/-! ## Balances -/

/-- What transactions of the side chain give an address and take from it. -/
def moved (a : String) (txs : List PlasmaTx) : ℚ := (l2Moves a txs).sum

theorem moved_append (a : String) (xs ys : List PlasmaTx) : moved a (xs ++ ys) = moved a xs + moved a ys := by
  unfold moved l2Moves
  rw [List.flatMap_append, List.sum_append]

theorem moved_cons (a : String) (tx : PlasmaTx) (txs : List PlasmaTx) : moved a (tx :: txs) =
    (if tx.deposit then 0 else (if tx.toAddr = a then tx.amount else 0) - (if tx.fromAddr = a then tx.amount else 0)) +
      moved a txs := by
  unfold moved l2Moves
  rw [List.flatMap_cons, List.sum_append]
  congr 1
  cases tx.deposit with
  | true => rfl
  | false =>
    by_cases hfrom : tx.fromAddr = a
    · by_cases hto : tx.toAddr = a
      · simp [hfrom, hto]
      · simp [hfrom, hto]
    · by_cases hto : tx.toAddr = a
      · simp [hfrom, hto]
      · simp [hfrom, hto]

/-- The transactions of the side chain in order. -/
def Memory.history (m : Memory) : List PlasmaTx := m.blocks.flatten ++ m.pendingTxs

def deposited (a : String) (deposits : Dict String PlasmaDeposit) : ℚ :=
  deposits.sum fun dep => if dep.fromAddr = a ∧ dep.status = .confirmed then dep.amount else 0

/-- `_l2_balance` without rounding. -/
def l2Sum (a : String) (m : Memory) : ℚ := (l2Entries a m).sum

theorem sum_filter {α : Type} (p : α → Prop) [DecidablePred p] (g : α → ℚ) (l : List α) :
    ((l.filter fun e => p e).map g).sum = (l.map fun e => if p e then g e else 0).sum := by
  induction l with
  | nil => rfl
  | cons e l ih =>
    by_cases he : p e
    · simp only [List.filter_cons, he, decide_true, if_true, List.map_cons, List.sum_cons, ih]
    · simp only [List.filter_cons, he, decide_false, Bool.false_eq_true, if_false, List.map_cons, List.sum_cons, ih, zero_add]

theorem l2Entries_eq (a : String) (m : Memory) : l2Entries a m =
    (m.deposits.filter fun e => e.2.fromAddr = a ∧ e.2.status = .confirmed).map (fun e => e.2.amount) ++
      l2Moves a m.history := by
  unfold l2Entries Memory.history l2Moves
  rw [List.flatMap_append, List.append_assoc]
  congr 2
  induction m.blocks with
  | nil => rfl
  | cons txs rest ih => rw [List.flatMap_cons, List.flatten_cons, List.flatMap_append, ih]

theorem l2Sum_eq (a : String) (m : Memory) : l2Sum a m = deposited a m.deposits + moved a m.history := by
  unfold l2Sum deposited moved Dict.sum
  rw [l2Entries_eq, List.sum_append, sum_filter]

def Memory.holders (m : Memory) : Finset String :=
  (m.deposits.map (fun e => e.2.fromAddr) ++ m.history.flatMap fun tx => [tx.fromAddr, tx.toAddr]).toFinset

/-- The sum of all balances of the side chain. -/
def l2Total (real : ℚ → ℚ) (m : Memory) : ℚ := ∑ a ∈ m.holders, l2Balance real a m

def confirmed (deposits : Dict String PlasmaDeposit) : ℚ :=
  deposits.sum fun dep => if dep.status = .confirmed then dep.amount else 0

theorem l2Balance_stranger {real : ℚ → ℚ} {a : String} {m : Memory} (ha : a ∉ m.holders) : l2Balance real a m = 0 := by
  unfold Memory.holders at ha
  rw [List.mem_toFinset, List.mem_append, not_or] at ha
  obtain ⟨howner, hparty⟩ := ha
  have hdep : (m.deposits.filter fun e => e.2.fromAddr = a ∧ e.2.status = .confirmed) = [] := by
    rw [List.filter_eq_nil_iff]
    intro e he hown
    exact howner (List.mem_map.mpr ⟨e, he, (of_decide_eq_true hown).1⟩)
  have hmoves : l2Moves a m.history = [] := by
    unfold l2Moves
    rw [List.flatMap_eq_nil_iff]
    intro tx htx
    have hin : ∀ b ∈ [tx.fromAddr, tx.toAddr], b ≠ a := fun b hb hba =>
      hparty (List.mem_flatMap.mpr ⟨tx, htx, hba ▸ hb⟩)
    rw [if_neg (hin tx.fromAddr List.mem_cons_self), if_neg (hin tx.toAddr (List.mem_cons_of_mem _ List.mem_cons_self)),
      List.append_nil, ite_self]
  unfold l2Balance
  rw [l2Entries_eq, hdep, hmoves]
  rfl

/-- Transfers move coins of the side chain around: what is there is what deposits gave. -/
theorem l2Sum_total (m : Memory) : ∑ a ∈ m.holders, l2Sum a m = confirmed m.deposits := by
  have hdeposits : ∀ rows : List (String × PlasmaDeposit), (∀ e ∈ rows, e.2.fromAddr ∈ m.holders) →
      ∑ a ∈ m.holders, (rows.map fun e => if e.2.fromAddr = a ∧ e.2.status = .confirmed then e.2.amount else 0).sum =
        (rows.map fun e => if e.2.status = .confirmed then e.2.amount else 0).sum := by
    intro rows
    induction rows with
    | nil => exact fun _ => Finset.sum_const_zero
    | cons e rows ih =>
      intro hin
      obtain ⟨he, hrest⟩ := List.forall_mem_cons.mp hin
      simp only [List.map_cons, List.sum_cons, Finset.sum_add_distrib, ih hrest]
      congr 1
      by_cases hstatus : e.2.status = .confirmed
      · simp [hstatus, he]
      · simp [hstatus]
  have hmoves : ∀ txs : List PlasmaTx, (∀ tx ∈ txs, tx.fromAddr ∈ m.holders ∧ tx.toAddr ∈ m.holders) →
      ∑ a ∈ m.holders, moved a txs = 0 := by
    intro txs
    induction txs with
    | nil => exact fun _ => Finset.sum_const_zero
    | cons tx rest ih =>
      intro hin
      obtain ⟨⟨hfrom, hto⟩, hrest⟩ := List.forall_mem_cons.mp hin
      simp only [moved_cons, Finset.sum_add_distrib, ih hrest, add_zero]
      cases tx.deposit with
      | true => simp
      | false => simp [Finset.sum_sub_distrib, hfrom, hto]
  simp only [l2Sum_eq, Finset.sum_add_distrib]
  have hnamed : ∀ tx ∈ m.history, tx.fromAddr ∈ m.holders ∧ tx.toAddr ∈ m.holders := by
    intro tx htx
    unfold Memory.holders
    simp only [List.mem_toFinset, List.mem_append, List.mem_flatMap]
    exact ⟨.inr ⟨tx, htx, List.mem_cons_self⟩, .inr ⟨tx, htx, List.mem_cons_of_mem _ List.mem_cons_self⟩⟩
  have howners : ∀ e ∈ m.deposits, e.2.fromAddr ∈ m.holders := by
    intro e he
    unfold Memory.holders
    simp only [List.mem_toFinset, List.mem_append, List.mem_map]
    exact .inl ⟨e, he, rfl⟩
  rw [hmoves _ hnamed, add_zero]
  exact hdeposits _ howners

/-! ### Balances on a grid -/

/-- An amount that is not negative and a whole number of `2 ^ e`. -/
def OnGrid (e : ℤ) (x : ℚ) : Prop := Binary64.Multiple e x ∧ 0 ≤ x

/-- What transactions of the side chain move around. -/
def transferred (txs : List PlasmaTx) : ℚ := (txs.map fun tx => if tx.deposit then 0 else tx.amount).sum

theorem transferred_append (xs ys : List PlasmaTx) : transferred (xs ++ ys) = transferred xs + transferred ys := by
  unfold transferred
  rw [List.map_append, List.sum_append]

structure Memory.Gridded (e : ℤ) (m : Memory) : Prop where
  deposits : ∀ p ∈ m.deposits, OnGrid e p.2.amount
  moves : ∀ tx ∈ m.history, OnGrid e tx.amount

theorem l2Moves_small {e : ℤ} {txs : List PlasmaTx} (h : ∀ tx ∈ txs, OnGrid e tx.amount) (a : String) :
    (∀ x ∈ l2Moves a txs, Binary64.Multiple e x) ∧ ((l2Moves a txs).map fun x => |x|).sum ≤ 2 * transferred txs := by
  induction txs with
  | nil => exact ⟨fun x hx => (nomatch hx), le_of_eq (mul_zero _).symm⟩
  | cons tx rest ih =>
    obtain ⟨htx, hrest⟩ := List.forall_mem_cons.mp h
    obtain ⟨hgrid, hsum⟩ := ih hrest
    have hsize : |tx.amount| = tx.amount := abs_of_nonneg htx.2
    have hpos := htx.2
    unfold l2Moves at hgrid hsum ⊢
    unfold transferred at hsum ⊢
    rw [List.flatMap_cons, List.map_append, List.sum_append, List.map_cons, List.sum_cons, mul_add]
    refine ⟨fun x hx => ?_, add_le_add ?_ hsum⟩
    · rcases List.mem_append.mp hx with hx | hx
      · cases hd : tx.deposit with
        | true =>
          rw [hd] at hx
          cases hx
        | false =>
          rw [hd, if_neg Bool.false_ne_true] at hx
          rcases List.mem_append.mp hx with hx | hx
          · split at hx
            · rw [List.mem_singleton.mp hx]
              exact htx.1.neg
            · cases hx
          · split at hx
            · rw [List.mem_singleton.mp hx]
              exact htx.1
            · cases hx
      · exact hgrid x hx
    · cases hd : tx.deposit with
      | true => simp
      | false =>
        by_cases hfrom : tx.fromAddr = a
        · by_cases hto : tx.toAddr = a
          · simp [hfrom, hto, hsize, two_mul]
          · simp [hfrom, hto, hsize]
            linarith
        · by_cases hto : tx.toAddr = a
          · simp [hfrom, hto, hsize]
            linarith
          · simp [hfrom, hto]
            exact hpos

theorem Memory.Gridded.exact {e : ℤ} {m : Memory} (h : m.Gridded e) (he : -1074 ≤ e)
    (hsmall : confirmed m.deposits + 2 * transferred m.history < 2 ^ (e + 53)) (a : String) :
    l2Balance Binary64.round a m = l2Sum a m := by
  obtain ⟨hgrid, hmoves⟩ := l2Moves_small h.moves a
  have hdeposits : (((m.deposits.filter fun p => p.2.fromAddr = a ∧ p.2.status = .confirmed).map
      fun p => p.2.amount).map fun x => |x|).sum ≤ confirmed m.deposits := by
    rw [List.map_map, sum_filter]
    apply List.sum_le_sum
    intro p hp
    have hpos := (h.deposits p hp).2
    dsimp only [Function.comp_apply]
    by_cases hstatus : p.2.status = .confirmed
    · rw [if_pos hstatus]
      split
      · exact le_of_eq (abs_of_nonneg hpos)
      · exact hpos
    · rw [if_neg hstatus, if_neg fun hc => hstatus hc.2]
  unfold l2Balance l2Sum
  rw [Binary64.foldl_round_multiple .zero ?_ he ?_, zero_add]
  · intro x hx
    rw [l2Entries_eq] at hx
    rcases List.mem_append.mp hx with hx | hx
    · obtain ⟨p, hp, rfl⟩ := List.mem_map.mp hx
      exact (h.deposits p (List.mem_of_mem_filter hp)).1
    · exact hgrid x hx
  · rw [abs_zero, zero_add, l2Entries_eq, List.map_append, List.sum_append]
    linarith

/-! ## Sections -/

namespace Features

variable (f : Features)

def recordDeposit (fromAddr : String) (amount : ℚ) (mainTxHash : String) (clock : ℚ) (now : Int) (s : Holdings) : Holdings :=
  let id := f.shortId [fromAddr, f.host.strNum (.float amount), mainTxHash] clock
  let tx := { deposit := true, fromAddr := fromAddr, toAddr := fromAddr, amount := amount }
  (s.saveDeposit id { fromAddr := fromAddr, amount := amount, createdAt := now, status := .confirmed }).setPending
    (s.memory.pendingTxs ++ [tx])

end Features

/-- The side chain with calls of `deposit` in progress. What it has taken and what it has paid is
counted beside it: the fall of the balances that it debited, and each deposit paid out with the rise
of the balance. -/
structure SideChain where
  holdings : Holdings
  /-- Past the comparison with the balance. -/
  checked : List (String × ℚ)
  /-- Debited and not recorded. -/
  debited : List (String × ℚ)
  taken : ℚ
  paid : List (String × ℚ)

namespace SideChain

def memory (s : SideChain) : Memory := s.holdings.memory

inductive Section where
  | check (fromAddr : String) (amount : ℚ)
  | debit (fromAddr : String) (amount : ℚ)
  | record (fromAddr : String) (amount : ℚ) (mainTxHash : String) (clock : ℚ) (now : Int)
  | submitTransaction (fromAddr toAddr : String) (amount clock : ℚ)
  | submitBlock
  | requestExit (depositId user : String) (clock : ℚ) (now : Int)
  | finalizeExit (id : String) (force : Bool) (clock : ℚ)

variable (f : Features)

def step : Section → SideChain → SideChain
  | .check a x, s =>
    if x ≤ 0 ∨ s.holdings.tables.getBalance a < x then s else { s with checked := (a, x) :: s.checked }
  | .debit a x, s =>
    if (a, x) ∈ s.checked then
      let holdings := s.holdings.updateBalance a (-x)
      { s with holdings := holdings, checked := s.checked.erase (a, x), debited := (a, x) :: s.debited
               taken := s.taken + (s.holdings.tables.getBalance a - holdings.tables.getBalance a) }
    else s
  | .record a x mainTxHash clock now, s =>
    if (a, x) ∈ s.debited then
      { s with holdings := f.recordDeposit a x mainTxHash clock now s.holdings, debited := s.debited.erase (a, x) }
    else s
  | .submitTransaction a b x clock, s => { s with holdings := (f.submitTransaction a b x clock s.holdings).2 }
  | .submitBlock, s => { s with holdings := (submitBlock s.holdings).2 }
  | .requestExit d user clock now, s => { s with holdings := (f.requestExit d user clock now s.holdings).2 }
  | .finalizeExit id force clock, s =>
    let r := finalizeExit id force clock s.holdings
    { s with
      holdings := r.2
      paid :=
        if r.1 then
          s.paid ++ ((s.memory.exitRequests.get? id).map fun ex =>
            (ex.depositId, r.2.tables.getBalance ex.user - s.holdings.tables.getBalance ex.user)).toList
        else s.paid }

def Fresh : Section → SideChain → Prop
  | .record a x mainTxHash clock _, s =>
    s.memory.deposits.get? (f.shortId [a, f.host.strNum (.float x), mainTxHash] clock) = none
  | .requestExit d user clock _, s => s.memory.exitRequests.get? (f.shortId [d, user] clock) = none
  | _, _ => True

def Covered : Section → SideChain → Prop
  | .debit a x, s => (a, x) ∈ s.checked → x ≤ s.holdings.tables.getBalance a
  | _, _ => True

def start (real : ℚ → ℚ) (t : Tables) : SideChain :=
  let r := Ledgers.empty.load { deposits := [], exits := [], wills := [] }
  { holdings := { tables := t, ledgers := r.1, memory := r.2, real := real }, checked := [], debited := [], taken := 0, paid := [] }

def pendingExits (s : SideChain) : ℚ :=
  s.memory.exitRequests.sum fun ex => if ex.status = .pending then ex.amount else 0

theorem step_deposit {a mainTxHash : String} {x clock : ℚ} {now : Int} {s : SideChain} :
    (run (step f) [.check a x, .debit a x, .record a x mainTxHash clock now]
      { s with checked := [], debited := [] }).holdings = (f.deposit a x mainTxHash clock now s.holdings).2 := by
  unfold Features.deposit Holdings.debit
  by_cases hno : x ≤ 0 ∨ s.holdings.tables.getBalance a < x
  · simp [run, step, hno]
  · simp [run, step, hno]
    rfl

/-! ## What a section does -/

section
variable {f} {s : Holdings} {a b user id depositId mainTxHash : String} {x clock : ℚ} {now : Int} {force : Bool}

theorem submitTransaction_spec : (f.submitTransaction a b x clock s).2 = s ∨
    0 < x ∧ x ≤ l2Balance s.real a s.memory ∧ (f.submitTransaction a b x clock s).2 =
      s.setPending (s.memory.pendingTxs ++ [{ deposit := false, fromAddr := a, toAddr := b, amount := x }]) := by
  unfold submitTransaction
  by_cases hshape : x ≤ 0 ∨ a = "" ∨ b = ""
  · rw [if_pos hshape]
    exact .inl rfl
  · rw [if_neg hshape]
    by_cases hfunds : l2Balance s.real a s.memory < x
    · rw [if_pos hfunds]
      exact .inl rfl
    · rw [if_neg hfunds]
      exact .inr ⟨not_le.mp fun h => hshape (.inl h), not_lt.mp hfunds, rfl⟩

theorem requestExit_spec : (f.requestExit depositId user clock now s).2 = s ∨
    ∃ dep, s.memory.deposits.get? depositId = some dep ∧ dep.status = .confirmed ∧ dep.fromAddr = user ∧
      dep.amount ≤ l2Balance s.real user s.memory ∧ (f.requestExit depositId user clock now s).2 =
        (s.saveExit (f.shortId [depositId, user] clock)
          { depositId := depositId, user := user, amount := dep.amount, createdAt := now, status := .pending }).saveDeposit
            depositId { dep with status := .exiting } := by
  unfold requestExit
  cases hd : s.memory.deposits.get? depositId with
  | none => exact .inl rfl
  | some dep =>
    dsimp only
    by_cases hstatus : dep.status ≠ .confirmed ∨ dep.fromAddr ≠ user
    · rw [if_pos hstatus]
      exact .inl rfl
    · rw [if_neg hstatus]
      rw [not_or, not_not, not_not] at hstatus
      by_cases hfunds : l2Balance s.real user s.memory < dep.amount
      · rw [if_pos hfunds]
        exact .inl rfl
      · rw [if_neg hfunds]
        exact .inr ⟨dep, rfl, hstatus.1, hstatus.2, not_lt.mp hfunds, rfl⟩

theorem finalizeExit_spec : finalizeExit id force clock s = (false, s) ∨
    ∃ req, s.memory.exitRequests.get? id = some req ∧ req.status = .pending ∧ (finalizeExit id force clock s).1 = true ∧
      (finalizeExit id force clock s).2.real = s.real ∧
      (finalizeExit id force clock s).2.tables = s.tables.applyRealDelta s.real req.user req.amount ∧
      (finalizeExit id force clock s).2.memory =
        { s.memory with
          exitRequests := s.memory.exitRequests.put id { req with status := .finalized }
          deposits := match s.memory.deposits.get? req.depositId with
            | none => s.memory.deposits
            | some dep => s.memory.deposits.set req.depositId { dep with status := .exited } } := by
  unfold finalizeExit
  cases he : s.memory.exitRequests.get? id with
  | none => exact .inl rfl
  | some req =>
    dsimp only
    by_cases hstatus : req.status ≠ .pending
    · rw [if_pos hstatus]
      exact .inl rfl
    · rw [if_neg hstatus]
      by_cases hearly : ¬ force = true ∧ clock - req.createdAt < challengePeriod
      · rw [if_pos hearly]
        exact .inl rfl
      · rw [if_neg hearly]
        cases hc : s.credit req.user req.amount with
        | none => exact .inl rfl
        | some s' =>
          refine .inr ⟨req, rfl, not_not.mp hstatus, rfl, ?_⟩
          rw [Holdings.credit_some hc]
          dsimp only [Holdings.updateBalance]
          cases s.memory.deposits.get? req.depositId with
          | none => exact ⟨rfl, rfl, rfl⟩
          | some dep => exact ⟨rfl, rfl, rfl⟩

end

section
variable {t : Table String PlasmaExit} {d : Dict String PlasmaDeposit} {k : String}

/-- A row replaced by another. -/
theorem sum_replace {r r' : PlasmaExit} (h : t.get? k = some r) (g : PlasmaExit → ℚ) :
    (t.put k r').sum g = t.sum g + g r' - g r := by
  rw [Table.sum_put, h, Option.elim_some]

theorem sum_new {r' : PlasmaExit} (h : t.get? k = none) (g : PlasmaExit → ℚ) : (t.put k r').sum g = t.sum g + g r' := by
  rw [Table.sum_put, h, Option.elim_none, sub_zero]

theorem sum_changed {dep dep' : PlasmaDeposit} (h : d.get? k = some dep) (g : PlasmaDeposit → ℚ) :
    (d.set k dep').sum g = d.sum g + g dep' - g dep := by
  rw [Dict.sum_set, h, Option.elim_some]

theorem sum_added {dep' : PlasmaDeposit} (h : d.get? k = none) (g : PlasmaDeposit → ℚ) :
    (d.set k dep').sum g = d.sum g + g dep' := by
  rw [Dict.sum_set, h, Option.elim_none, sub_zero]

end

theorem history_submitBlock (s : Holdings) : (submitBlock s).2.memory.history = s.memory.history := by
  unfold submitBlock
  by_cases hempty : s.memory.pendingTxs = []
  · rw [if_pos hempty]
  · rw [if_neg hempty]
    unfold Memory.history Holdings.setPending Holdings.saveBlock
    simp

def Exact (s : SideChain) : Prop := ∀ a, l2Balance s.holdings.real a s.memory = l2Sum a s.memory

/-- What holds whenever no section is running: nobody is overdrawn, an exit that is pending has a deposit
of its own waiting for it, and a deposit paid out is marked so. -/
structure Books (s : SideChain) : Prop where
  nonneg : ∀ a, 0 ≤ l2Sum a s.memory
  positive : ∀ p ∈ s.checked ++ s.debited, 0 < p.2
  exiting : ∀ e ex, s.memory.exitRequests.get? e = some ex → ex.status = .pending →
    ∃ dep, s.memory.deposits.get? ex.depositId = some dep ∧ dep.status = .exiting
  single : ∀ e e' ex ex', s.memory.exitRequests.get? e = some ex → s.memory.exitRequests.get? e' = some ex' →
    ex.status = .pending → ex'.status = .pending → ex.depositId = ex'.depositId → e = e'
  exited : ∀ p ∈ s.paid, ∃ dep, s.memory.deposits.get? p.1 = some dep ∧ dep.status = .exited
  once : (s.paid.map Prod.fst).Nodup

theorem books_start (real : ℚ → ℚ) (t : Tables) : Books (start real t) := by
  have hzero : ∀ a, l2Sum a (start real t).memory = 0 := by
    intro a
    rw [l2Sum_eq]
    exact add_zero (0 : ℚ)
  exact ⟨fun a => le_of_eq (hzero a).symm, fun _ h => (nomatch h), fun _ _ h => (nomatch h), fun _ _ _ _ h => (nomatch h),
    fun _ h => (nomatch h), List.nodup_nil⟩

theorem Books.others {s : SideChain} (h : Books s) {holdings : Holdings} {m : Memory} (hm : holdings.memory = m)
    (hd : m.deposits = s.memory.deposits) (he : m.exitRequests = s.memory.exitRequests) (hn : ∀ a, 0 ≤ l2Sum a m) :
    Books { s with holdings := holdings } := by
  subst hm
  refine ⟨hn, h.positive, fun e ex hex => ?_, fun e e' ex ex' hex hex' => ?_, fun p hp => ?_, h.once⟩
  · change holdings.memory.exitRequests.get? e = some ex at hex
    change _ → ∃ dep, holdings.memory.deposits.get? ex.depositId = some dep ∧ _
    rw [he] at hex
    rw [hd]
    exact h.exiting e ex hex
  · change holdings.memory.exitRequests.get? e = some ex at hex
    change holdings.memory.exitRequests.get? e' = some ex' at hex'
    rw [he] at hex hex'
    exact h.single e e' ex ex' hex hex'
  · change ∃ dep, holdings.memory.deposits.get? p.1 = some dep ∧ _
    rw [hd]
    exact h.exited p hp

theorem memory_setPending (txs : List PlasmaTx) (s : Holdings) :
    (s.setPending txs).memory = { s.memory with pendingTxs := txs } := by
  unfold Holdings.setPending
  rfl

section
variable {f} {s : SideChain}

theorem confirmed_exiting {d : String} {dep : PlasmaDeposit} (hdep : s.memory.deposits.get? d = some dep)
    (hstatus : dep.status = .confirmed) :
    confirmed (s.memory.deposits.set d { dep with status := .exiting }) = confirmed s.memory.deposits - dep.amount := by
  refine (sum_changed hdep _).trans ?_
  rw [if_neg (fun hc => nomatch hc), if_pos hstatus, add_zero]
  rfl

theorem confirmed_exited {d : String} {dep : PlasmaDeposit} (hdep : s.memory.deposits.get? d = some dep)
    (hexiting : dep.status = .exiting) :
    confirmed (s.memory.deposits.set d { dep with status := .exited }) = confirmed s.memory.deposits := by
  refine (sum_changed hdep _).trans ?_
  rw [if_neg (fun hc => nomatch hc), if_neg (fun hc => by rw [hexiting] at hc; cases hc), add_zero, sub_zero]
  rfl

theorem pendingExits_requested {d user : String} {x clock : ℚ} {now : Int} (hf : Fresh f (.requestExit d user clock now) s) :
    (s.memory.exitRequests.put (f.shortId [d, user] clock)
      { depositId := d, user := user, amount := x, createdAt := now, status := .pending }).sum
        (fun ex => if ex.status = .pending then ex.amount else 0) = s.pendingExits + x :=
  (sum_new hf _).trans (by rw [if_pos rfl]; rfl)

theorem pendingExits_finalized {id : String} {req : PlasmaExit} (hreq : s.memory.exitRequests.get? id = some req)
    (hpending : req.status = .pending) : (s.memory.exitRequests.put id { req with status := .finalized }).sum
      (fun ex => if ex.status = .pending then ex.amount else 0) = s.pendingExits - req.amount := by
  refine (sum_replace hreq _).trans ?_
  rw [if_neg (fun hc => nomatch hc), if_pos hpending, add_zero]
  rfl

theorem history_pending (txs : List PlasmaTx) (s : Holdings) :
    (s.setPending (s.memory.pendingTxs ++ txs)).memory.history = s.memory.history ++ txs := by
  unfold Memory.history Holdings.setPending
  rw [List.append_assoc]

theorem history_deposit (id : String) (dep : PlasmaDeposit) (txs : List PlasmaTx) (s : Holdings) :
    ((s.saveDeposit id dep).setPending (s.memory.pendingTxs ++ txs)).memory.history = s.memory.history ++ txs :=
  history_pending txs (s.saveDeposit id dep)

theorem books_record {a mainTxHash : String} {x clock : ℚ} {now : Int} (h : Books s)
    (hf : Fresh f (.record a x mainTxHash clock now) s) : Books (step f (.record a x mainTxHash clock now) s) := by
  simp only [step]
  by_cases hin : (a, x) ∈ s.debited
  · rw [if_pos hin]
    change s.memory.deposits.get? (f.shortId [a, f.host.strNum (.float x), mainTxHash] clock) = none at hf
    have hold : ∀ {k dep}, s.memory.deposits.get? k = some dep →
        (s.memory.deposits.set (f.shortId [a, f.host.strNum (.float x), mainTxHash] clock)
          { fromAddr := a, amount := x, createdAt := now, status := .confirmed }).get? k = some dep := by
      intro k dep hk
      rw [Dict.get?_set, if_neg ?_]
      · exact hk
      · rintro rfl
        rw [hf] at hk
        cases hk
    refine ⟨fun b => ?_, fun p hp => h.positive p ?_, fun e ex he hs => ?_, h.single, fun p hp => ?_, h.once⟩
    · have hpos : 0 < x := h.positive (a, x) (List.mem_append_right _ hin)
      have hbefore := h.nonneg b
      rw [l2Sum_eq] at hbefore
      change 0 ≤ l2Sum b ((s.holdings.saveDeposit _ _).setPending (s.holdings.memory.pendingTxs ++ [_])).memory
      rw [l2Sum_eq, history_deposit, moved_append, moved_cons]
      change 0 ≤ deposited b (s.memory.deposits.set _ _) + _
      rw [deposited, sum_added hf]
      change 0 ≤ deposited b s.memory.deposits + _ + (moved b s.memory.history + _)
      have hgain : 0 ≤ (if a = b ∧ DepositStatus.confirmed = .confirmed then x else 0) := by
        split
        · exact hpos.le
        · exact le_refl _
      have hnone : moved b [] = 0 := rfl
      rw [if_pos rfl, hnone]
      linarith
    · rcases List.mem_append.mp hp with hp | hp
      · exact List.mem_append_left _ hp
      · exact List.mem_append_right _ (List.mem_of_mem_erase hp)
    · obtain ⟨dep, hdep, hstatus⟩ := h.exiting e ex he hs
      exact ⟨dep, hold hdep, hstatus⟩
    · obtain ⟨dep, hdep, hstatus⟩ := h.exited p hp
      exact ⟨dep, hold hdep, hstatus⟩
  · rw [if_neg hin]
    exact h

theorem books_submitTransaction {a b : String} {x clock : ℚ} (h : Books s) (hexact : s.Exact) :
    Books (step f (.submitTransaction a b x clock) s) := by
  simp only [step]
  rcases @submitTransaction_spec f s.holdings a b x clock with hsame | ⟨hpos, hfunds, hnew⟩
  · rw [hsame]
    exact h
  · rw [hnew]
    refine h.others (memory_setPending _ _) rfl rfl fun c => ?_
    have hbefore := h.nonneg c
    rw [← memory_setPending, l2Sum_eq, history_pending, moved_append, moved_cons, ← add_assoc]
    rw [memory_setPending]
    change 0 ≤ deposited c s.memory.deposits + moved c s.memory.history + _
    rw [← l2Sum_eq]
    have hfits : x ≤ l2Sum a s.memory := by rwa [← hexact a]
    have hnone : moved c [] = 0 := rfl
    rw [if_neg Bool.false_ne_true, hnone, add_zero]
    by_cases hfrom : a = c
    · subst hfrom
      rw [if_pos rfl]
      split
      · linarith
      · linarith
    · rw [if_neg hfrom, sub_zero]
      split
      · linarith
      · linarith

theorem books_requestExit {d user : String} {clock : ℚ} {now : Int} (h : Books s) (hexact : s.Exact)
    (hf : Fresh f (.requestExit d user clock now) s) : Books (step f (.requestExit d user clock now) s) := by
  simp only [step]
  rcases @requestExit_spec f s.holdings user d clock now with hsame | ⟨dep, hdep, hstatus, hown, hfunds, hnew⟩
  · rw [hsame]
    exact h
  · rw [hnew]
    change s.memory.exitRequests.get? (f.shortId [d, user] clock) = none at hf
    change s.memory.deposits.get? d = some dep at hdep
    replace hfunds : dep.amount ≤ l2Sum user s.memory := by rwa [← hexact user]
    -- no other deposit changes
    have hother : ∀ {k : String} {dep' : PlasmaDeposit}, s.memory.deposits.get? k = some dep' → dep'.status ≠ .confirmed → k ≠ d := by
      rintro k dep' hk hs rfl
      rw [hdep] at hk
      cases hk
      exact hs hstatus
    have hkept : ∀ {k : String} {dep' : PlasmaDeposit}, s.memory.deposits.get? k = some dep' → dep'.status ≠ .confirmed →
        (s.memory.deposits.set d { dep with status := .exiting }).get? k = some dep' := fun hk hs => by
      rw [Dict.get?_set, if_neg (hother hk hs), hk]
    -- the only new exit is that of the deposit
    have hlookup : ∀ {e ex}, (s.memory.exitRequests.put (f.shortId [d, user] clock)
        { depositId := d, user := user, amount := dep.amount, createdAt := now, status := .pending }).get? e = some ex →
        (e = f.shortId [d, user] clock ∧ ex.depositId = d) ∨ s.memory.exitRequests.get? e = some ex := by
      intro e ex he
      rw [Table.get_put] at he
      by_cases hid : e = f.shortId [d, user] clock
      · rw [if_pos hid] at he
        cases he
        exact .inl ⟨hid, rfl⟩
      · rw [if_neg hid] at he
        exact .inr he
    have hapart : ∀ {e ex}, s.memory.exitRequests.get? e = some ex → ex.status = .pending → ex.depositId ≠ d := by
      intro e ex he hs
      obtain ⟨dep', hdep', hexiting⟩ := h.exiting e ex he hs
      exact hother hdep' (by rw [hexiting]; decide)
    refine ⟨fun b => ?_, h.positive, fun e ex he hs => ?_, fun e e' ex ex' he he' hs hs' hsame => ?_, fun p hp => ?_, h.once⟩
    -- what a user has is enough for the deposit that leaves
    · have hbefore := h.nonneg b
      change 0 ≤ l2Sum b { s.memory with
        deposits := s.memory.deposits.set d { dep with status := .exiting }, exitRequests := s.memory.exitRequests.put _ _ }
      rw [l2Sum_eq] at hbefore hfunds ⊢
      change 0 ≤ deposited b (s.memory.deposits.set d _) + moved b s.memory.history
      rw [deposited, sum_changed hdep, if_neg (fun hc => nomatch hc.2)]
      change 0 ≤ deposited b s.memory.deposits + 0 - _ + _
      by_cases hb : dep.fromAddr = b
      · rw [if_pos ⟨hb, hstatus⟩]
        rw [← hown, hb] at hfunds
        linarith
      · rw [if_neg fun hc => hb hc.1]
        linarith
    · rcases hlookup he with ⟨-, hd⟩ | hold
      · exact ⟨_, by rw [hd]; exact Dict.get?_set_self _ _ _, rfl⟩
      · obtain ⟨dep', hdep', hexiting⟩ := h.exiting e ex hold hs
        exact ⟨dep', hkept hdep' (by rw [hexiting]; decide), hexiting⟩
    · rcases hlookup he with ⟨hid, hd⟩ | hold
      · rcases hlookup he' with ⟨hid', -⟩ | hold'
        · rw [hid, hid']
        · exact absurd (hsame.symm.trans hd) (hapart hold' hs')
      · rcases hlookup he' with ⟨-, hd'⟩ | hold'
        · exact absurd (hsame.trans hd') (hapart hold hs)
        · exact h.single e e' ex ex' hold hold' hs hs' hsame
    · obtain ⟨dep', hdep', hexited⟩ := h.exited p hp
      exact ⟨dep', hkept hdep' (by rw [hexited]; decide), hexited⟩

theorem kept_submitBlock : (submitBlock s.holdings).2.memory.deposits = s.memory.deposits ∧
    (submitBlock s.holdings).2.memory.exitRequests = s.memory.exitRequests := by
  unfold submitBlock
  by_cases hempty : s.holdings.memory.pendingTxs = []
  · rw [if_pos hempty]
    exact ⟨rfl, rfl⟩
  · rw [if_neg hempty, memory_setPending]
    exact ⟨rfl, rfl⟩

theorem books_submitBlock (h : Books s) : Books (step f .submitBlock s) := by
  simp only [step]
  refine h.others rfl kept_submitBlock.1 kept_submitBlock.2 fun a => ?_
  rw [l2Sum_eq, history_submitBlock, kept_submitBlock.1]
  have hbefore := h.nonneg a
  rw [l2Sum_eq] at hbefore
  exact hbefore

theorem finalizeExit_books {id : String} {force : Bool} {clock : ℚ} (h : Books s) :
    finalizeExit id force clock s.holdings = (false, s.holdings) ∨
      ∃ req dep, s.memory.exitRequests.get? id = some req ∧ req.status = .pending ∧
        s.memory.deposits.get? req.depositId = some dep ∧ dep.status = .exiting ∧
        (finalizeExit id force clock s.holdings).1 = true ∧
        (finalizeExit id force clock s.holdings).2.real = s.holdings.real ∧
        (finalizeExit id force clock s.holdings).2.tables =
          s.holdings.tables.applyRealDelta s.holdings.real req.user req.amount ∧
        (finalizeExit id force clock s.holdings).2.memory =
          { s.memory with
            exitRequests := s.memory.exitRequests.put id { req with status := .finalized }
            deposits := s.memory.deposits.set req.depositId { dep with status := .exited } } := by
  rcases @finalizeExit_spec s.holdings id clock force with hsame | ⟨req, hreq, hpending, hdone, hreal, htables, hmem⟩
  · exact .inl hsame
  · obtain ⟨dep, hdep, hexiting⟩ := h.exiting id req hreq hpending
    change s.holdings.memory.deposits.get? req.depositId = some dep at hdep
    rw [hdep] at hmem
    exact .inr ⟨req, dep, hreq, hpending, hdep, hexiting, hdone, hreal, htables, hmem⟩

theorem books_finalizeExit {id : String} {force : Bool} {clock : ℚ} (h : Books s) :
    Books (step f (.finalizeExit id force clock) s) := by
  simp only [step]
  rcases @finalizeExit_books s id force clock h with hsame | ⟨req, dep, hreq, hpending, hdep, hexiting, hdone, -, -, hmem⟩
  · rw [hsame]
    exact h
  · rw [hdone, if_pos rfl, hreq]
    dsimp only [Option.map_some, Option.toList_some]
    generalize (finalizeExit id force clock s.holdings).2 = holdings at hmem
    have hexits : ∀ e, holdings.memory.exitRequests.get? e =
        if e = id then some { req with status := .finalized } else s.memory.exitRequests.get? e := by
      intro e
      rw [hmem]
      exact Table.get_put _ _ _ _
    have hdeposits : ∀ k, holdings.memory.deposits.get? k =
        if k = req.depositId then some { dep with status := .exited } else s.memory.deposits.get? k := by
      intro k
      rw [hmem]
      exact Dict.get?_set _ _ _ _
    -- An exit that is still pending is another one, so its deposit is another one too.
    have hold : ∀ {e ex}, holdings.memory.exitRequests.get? e = some ex → ex.status = .pending →
        s.memory.exitRequests.get? e = some ex ∧ ex.depositId ≠ req.depositId := by
      intro e ex he hs
      rw [hexits] at he
      by_cases hid : e = id
      · rw [if_pos hid] at he
        cases he
        cases hs
      · rw [if_neg hid] at he
        exact ⟨he, fun hsame => hid (h.single e id ex req he hreq hs hpending hsame)⟩
    refine ⟨fun a => ?_, h.positive, fun e ex he hs => ?_, fun e e' ex ex' he he' hs hs' hsame => ?_, fun p hp => ?_, ?_⟩
    · have hbefore := h.nonneg a
      rw [l2Sum_eq] at hbefore
      change 0 ≤ l2Sum a holdings.memory
      rw [l2Sum_eq, hmem]
      change 0 ≤ deposited a (s.memory.deposits.set req.depositId { dep with status := .exited }) + moved a s.memory.history
      rw [deposited, sum_changed hdep, if_neg (fun hc => nomatch hc.2), if_neg fun hc => ?_, add_zero, sub_zero]
      · exact hbefore
      · rw [hexiting] at hc
        cases hc.2
    · obtain ⟨hsame, hother⟩ := hold he hs
      obtain ⟨dep', hdep', hwaiting⟩ := h.exiting e ex hsame hs
      exact ⟨dep', by rw [← hdep']; exact (hdeposits _).trans (if_neg hother), hwaiting⟩
    · exact h.single e e' ex ex' (hold he hs).1 (hold he' hs').1 hs hs' hsame
    · change ∃ dep, holdings.memory.deposits.get? p.1 = some dep ∧ dep.status = .exited
      rcases List.mem_append.mp hp with hp | hp
      · obtain ⟨dep', hdep', hexited⟩ := h.exited p hp
        by_cases hid : p.1 = req.depositId
        · exact ⟨_, (hdeposits _).trans (if_pos hid), rfl⟩
        · exact ⟨dep', (hdeposits _).trans ((if_neg hid).trans hdep'), hexited⟩
      · obtain rfl := List.mem_singleton.mp hp
        exact ⟨_, (hdeposits _).trans (if_pos rfl), rfl⟩
    · rw [List.map_append, List.nodup_append]
      refine ⟨h.once, List.nodup_singleton _, fun k hk k' hk' hsame => ?_⟩
      obtain rfl := List.mem_singleton.mp hk'
      obtain ⟨p, hp, hpk⟩ := List.mem_map.mp hk
      obtain ⟨dep', hdep', hexited⟩ := h.exited p hp
      rw [hpk, hsame] at hdep'
      change s.memory.deposits.get? req.depositId = some dep' at hdep'
      rw [hdep] at hdep'
      cases hdep'
      rw [hexiting] at hexited
      cases hexited

theorem books_step (e : Section) (s : SideChain) (h : Books s) (hexact : s.Exact) (hf : Fresh f e s) : Books (step f e s) := by
  cases e with
  | check a x =>
    simp only [step]
    by_cases hno : x ≤ 0 ∨ s.holdings.tables.getBalance a < x
    · rw [if_pos hno]
      exact h
    · rw [if_neg hno]
      refine { h with positive := fun p hp => ?_ }
      rcases List.mem_cons.mp hp with rfl | hp
      · exact not_le.mp fun hx => hno (.inl hx)
      · exact h.positive p hp
  | debit a x =>
    simp only [step]
    by_cases hin : (a, x) ∈ s.checked
    · rw [if_pos hin]
      refine { h with positive := fun p hp => ?_ }
      rcases List.mem_append.mp hp with hp | hp
      · exact h.positive p (List.mem_append_left _ (List.mem_of_mem_erase hp))
      · rcases List.mem_cons.mp hp with rfl | hp
        · exact h.positive _ (List.mem_append_left _ hin)
        · exact h.positive p (List.mem_append_right _ hp)
    · rw [if_neg hin]
      exact h
  | record a x mainTxHash clock now => exact books_record h hf
  | submitTransaction a b x clock => exact books_submitTransaction h hexact
  | submitBlock => exact books_submitBlock h
  | requestExit d user clock now => exact books_requestExit h hexact hf
  | finalizeExit id force clock => exact books_finalizeExit h

end

end SideChain

end AbsoluteChain
