import AbsoluteChain.OffBlock
import AbsoluteChain.Supply

/-!
# Wills

`features/crypto_will.py` with its calls in sections. A creation compares, debits and records; an
execution credits the heir under the lock, lets go of it, and marks the will under the lock
again. The monitor collects the ids that are due and executes one after the other.
-/

namespace AbsoluteChain

open Python KeyedTable Runs Features

deriving instance DecidableEq for CryptoWill

namespace Features

/-- The first section of `execute_will`. -/
def payWill (id : String) (force : Bool) (now : Int) (s : Holdings) : Option (CryptoWill × Holdings) :=
  match s.memory.wills.get? id with
  | none => none
  | some w =>
    if w.status ≠ .pending then none
    else if ¬ force ∧ now < w.executionTime then none
    else (s.credit w.heir w.amount).map fun s => (w, s)

/-- The second section. It raises when the will is no longer there, after its row is written. -/
def markWill (id : String) (w : CryptoWill) (s : Holdings) : Bool × Holdings :=
  ((s.memory.wills.get? id).isSome, (s.saveWill id { w with status := .executed }).dropWill id)

theorem executeWill_sections (id : String) (force : Bool) (now : Int) (s : Holdings) : executeWill id force now s =
    ((payWill id force now s).isSome, (payWill id force now s).elim s fun r => (markWill id r.1 r.2).2) := by
  unfold executeWill payWill
  cases s.memory.wills.get? id with
  | none => rfl
  | some w =>
    dsimp only
    by_cases hstatus : w.status ≠ .pending
    · rw [if_pos hstatus, if_pos hstatus]
      rfl
    · rw [if_neg hstatus, if_neg hstatus]
      by_cases hearly : ¬ force = true ∧ now < w.executionTime
      · rw [if_pos hearly, if_pos hearly]
        rfl
      · rw [if_neg hearly, if_neg hearly]
        cases s.credit w.heir w.amount with
        | none => rfl
        | some s' => rfl

def dueWills (now : Int) (s : Holdings) : List String :=
  (s.memory.wills.rows.filter fun e => e.2.status = .pending ∧ e.2.executionTime ≤ now).map Prod.fst

variable (f : Features)

def willId (owner heir : String) (amount clock : ℚ) : String :=
  f.shortId [owner, heir, f.host.strNum (.float amount)] clock

def newWill (owner heir : String) (amount : ℚ) (executionDelay now : Int) : CryptoWill :=
  { owner := owner, heir := heir, amount := amount, executionTime := now + max minDelay (min maxDelay executionDelay)
    createdAt := now, status := .pending }

end Features

/-- The manager with calls in progress. Beside it stand a number for each will ever recorded, the number of the
will under each id, and the numbers of the wills whose amount was credited. -/
structure WillManager where
  holdings : Holdings
  /-- Creations past the comparison with the balance. -/
  checked : List (String × ℚ)
  /-- Creations that have debited and not recorded. -/
  debited : List (String × ℚ)
  /-- Executions that have paid and not marked. -/
  executing : List (String × CryptoWill)
  /-- What the monitor still has to execute. -/
  due : List String
  created : Nat
  numbers : Table String Nat
  credited : List Nat

namespace WillManager

def wills (s : WillManager) : Table String CryptoWill := s.holdings.memory.wills

inductive Section where
  | check (owner : String) (amount : ℚ)
  | debit (owner : String) (amount : ℚ)
  | record (owner heir : String) (amount : ℚ) (executionDelay : Int) (clock : ℚ) (now : Int)
  | cancel (id owner : String)
  | pay (id : String) (force : Bool) (now : Int)
  | mark (id : String) (w : CryptoWill)
  | collect (now : Int)
  | payNext (now : Int)

def credit (id : String) (s : WillManager) : List Nat := s.credited ++ (s.numbers.get? id).toList

def pay (id : String) (force : Bool) (now : Int) (s : WillManager) : WillManager :=
  match payWill id force now s.holdings with
  | none => s
  | some (w, holdings) => { s with holdings := holdings, executing := (id, w) :: s.executing, credited := s.credit id }

variable (f : Features)

def step : Section → WillManager → WillManager
  | .check a x, s =>
    if x ≤ 0 ∨ s.holdings.tables.getBalance a < x then s else { s with checked := (a, x) :: s.checked }
  | .debit a x, s =>
    if (a, x) ∈ s.checked then
      { s with holdings := s.holdings.updateBalance a (-x), checked := s.checked.erase (a, x)
               debited := (a, x) :: s.debited }
    else s
  | .record a b x delay clock now, s =>
    if (a, x) ∈ s.debited then
      let id := f.willId a b x clock
      let w := newWill a b x delay now
      { s with holdings := (s.holdings.holdWill id w).saveWill id w, debited := s.debited.erase (a, x)
               created := s.created + 1, numbers := s.numbers.put id s.created }
    else s
  | .cancel id owner, s =>
    let r := cancelWill id owner s.holdings
    if r.1 then { s with holdings := r.2, credited := s.credit id } else s
  | .pay id force now, s => s.pay id force now
  | .mark id w, s =>
    if (id, w) ∈ s.executing then
      { s with holdings := (markWill id w s.holdings).2, executing := s.executing.erase (id, w) }
    else s
  | .collect now, s => { s with due := dueWills now s.holdings }
  | .payNext now, s =>
    match s.due with
    | [] => s
    | id :: rest => pay id false now { s with due := rest }

def start (real : ℚ → ℚ) (t : Tables) : WillManager :=
  let r := Ledgers.empty.load { deposits := [], exits := [], wills := [] }
  { holdings := { tables := t, ledgers := r.1, memory := r.2, real := real }, checked := [], debited := [], executing := [], due := []
    created := 0, numbers := .empty, credited := [] }

theorem step_createWill {a b : String} {x clock : ℚ} {delay now : Int} {s : WillManager} :
    (run (step f) [.check a x, .debit a x, .record a b x delay clock now] { s with checked := [], debited := [] }).holdings =
      (f.createWill a b x delay clock now s.holdings).2 := by
  unfold Features.createWill Holdings.debit
  by_cases hno : x ≤ 0 ∨ s.holdings.tables.getBalance a < x
  · simp [run, step, hno]
  · simp [run, step, hno]
    rfl

def locked (s : WillManager) : ℚ := s.wills.sum fun w => if w.status = .pending then w.amount else 0

/-- Balances and pending wills, where a creation in progress still counts for its owner and an execution in progress
has not paid yet. -/
def total (s : WillManager) : ℚ :=
  s.holdings.tables.getTotalSupply + s.locked + (s.debited.map Prod.snd).sum - (s.executing.map fun p => p.2.amount).sum

/-- An execution has paid the will and not marked it. -/
def InPayment (id : String) (s : WillManager) : Prop := id ∈ s.executing.map Prod.fst

/-- The account takes what it is paid, or loses what it is debited, to the last digit. -/
def Receives (a : String) (x : ℚ) (s : WillManager) : Prop := s.holdings.tables.Takes s.holdings.real a x

def CleanPay (id : String) (force : Bool) (now : Int) (s : WillManager) : Prop :=
  ∀ w, s.wills.get? id = some w → (¬ force → w.executionTime ≤ now) → ¬ s.InPayment id ∧ s.Receives w.heir w.amount

/-- A debit or credit is exact, a new id is free, and no will is credited while an execution of it has
paid and not marked it. -/
def Clean : Section → WillManager → Prop
  | .debit a x, s => (a, x) ∈ s.checked → s.Receives a (-x)
  | .record a b x _ clock _, s => (a, x) ∈ s.debited → s.wills.get? (f.willId a b x clock) = none
  | .cancel id owner, s => ∀ w, s.wills.get? id = some w → w.owner = owner → ¬ s.InPayment id ∧ s.Receives owner w.amount
  | .pay id force now, s => s.CleanPay id force now
  | .payNext now, s => ∀ id ∈ s.due.head?, s.CleanPay id false now
  | _, _ => True

/-! ## The invariant -/

/-- What holds as long as every section is a clean one. -/
structure Sound (base : ℚ) (s : WillManager) : Prop where
  pending : ∀ id w, s.wills.get? id = some w → w.status = .pending ∧ 0 < w.amount
  positive : ∀ p ∈ s.checked ++ s.debited, 0 < p.2
  held : ∀ p ∈ s.executing, s.wills.get? p.1 = some p.2
  single : (s.executing.map Prod.fst).Nodup
  numbered : ∀ id w, s.wills.get? id = some w → ∃ k, s.numbers.get? id = some k ∧ k < s.created
  apart : ∀ id id' w w' k, s.wills.get? id = some w → s.wills.get? id' = some w' → s.numbers.get? id = some k →
    s.numbers.get? id' = some k → id = id'
  paid : ∀ id w k, s.wills.get? id = some w → s.numbers.get? id = some k → (k ∈ s.credited ↔ s.InPayment id)
  known : ∀ k ∈ s.credited, k < s.created
  once : s.credited.Nodup
  total : s.total = base

/-- No will is paid twice and the sum is the one at the start. -/
def Settled (base : ℚ) (s : WillManager) : Prop := s.credited.Nodup ∧ s.total = base

theorem Sound.settled {base : ℚ} {s : WillManager} (h : Sound base s) : Settled base s := ⟨h.once, h.total⟩

theorem sum_drop {ρ : Type} (t : Table String ρ) (id : String) (g : ρ → ℚ) :
    (t.keep fun k _ => k ≠ id).sum g = t.sum g - (t.get? id).elim 0 g := by
  cases hid : t.get? id with
  | none =>
    rw [Option.elim_none, sub_zero, Table.keep_eq_self]
    rintro k r hk
    refine decide_eq_true ?_
    rintro rfl
    rw [hid] at hk
    cases hk
  | some r =>
    have hback : t = (t.keep fun k _ => k ≠ id).put id r := by
      apply Table.ext_get
      intro k
      rw [Table.get_put, Table.get_keep]
      by_cases hk : k = id
      · rw [if_pos hk, hk, hid]
      · rw [if_neg hk]
        cases t.get? k with
        | none => rfl
        | some x => simp [Option.filter, hk]
    have hnone : (t.keep fun k _ => k ≠ id).get? id = none := by
      rw [Table.get_keep, hid]
      simp [Option.filter]
    have hsum := congrArg (fun u => u.sum g) hback
    rw [Table.sum_put, hnone, Option.elim_none, sub_zero] at hsum
    rw [Option.elim_some]
    linarith

theorem get_drop {ρ : Type} (t : Table String ρ) (id k : String) :
    (t.keep fun k _ => k ≠ id).get? k = if k = id then none else t.get? k := by
  rw [Table.get_keep]
  by_cases hk : k = id
  · rw [if_pos hk]
    cases t.get? k with
    | none => rfl
    | some x => simp [Option.filter, hk]
  · rw [if_neg hk]
    cases t.get? k with
    | none => rfl
    | some x => simp [Option.filter, hk]

section
variable {f} {base : ℚ} {s : WillManager}

theorem payWill_some {id : String} {force : Bool} {now : Int} {h h' : Holdings} {w : CryptoWill}
    (hp : payWill id force now h = some (w, h')) : h.memory.wills.get? id = some w ∧ (¬ force → w.executionTime ≤ now) ∧
      h' = h.updateBalance w.heir w.amount := by
  unfold payWill at hp
  cases hw : h.memory.wills.get? id with
  | none =>
    rw [hw] at hp
    cases hp
  | some v =>
    rw [hw] at hp
    dsimp only at hp
    by_cases hstatus : v.status ≠ .pending
    · rw [if_pos hstatus] at hp
      cases hp
    · rw [if_neg hstatus] at hp
      by_cases hearly : ¬ force = true ∧ now < v.executionTime
      · rw [if_pos hearly] at hp
        cases hp
      · rw [if_neg hearly] at hp
        obtain ⟨h₁, hc, he⟩ := Option.map_eq_some_iff.mp hp
        cases he
        exact ⟨rfl, fun hf => not_lt.mp fun hlt => hearly ⟨hf, hlt⟩, Holdings.credit_some hc⟩

theorem payWill_due {id : String} {force : Bool} {now : Int} {h : Holdings} {w : CryptoWill}
    (hw : h.memory.wills.get? id = some w) (hpending : w.status = .pending) (hpos : 0 < w.amount)
    (hdue : ¬ force → w.executionTime ≤ now) : payWill id force now h = some (w, h.updateBalance w.heir w.amount) := by
  unfold payWill
  rw [hw]
  dsimp only
  rw [if_neg (not_not.mpr hpending), if_neg fun hearly => not_le.mpr hearly.2 (hdue hearly.1)]
  unfold Holdings.credit
  rw [if_neg (not_le.mpr hpos)]
  rfl

theorem payWill_none {id : String} {force : Bool} {now : Int} {h : Holdings} (hn : payWill id force now h = none) :
    ∀ w, h.memory.wills.get? id = some w → w.status = .pending → 0 < w.amount → ¬ (¬ force → w.executionTime ≤ now) := by
  intro w hw hpending hpos hdue
  rw [payWill_due hw hpending hpos hdue] at hn
  cases hn

theorem Sound.credit_twice (h : Sound base s) {id : String} {w : CryptoWill} (hw : s.wills.get? id = some w)
    (hp : s.InPayment id) : ¬ (s.credit id).Nodup := by
  obtain ⟨k, hk, -⟩ := h.numbered id w hw
  have hin := (h.paid id w k hw hk).mpr hp
  unfold credit
  rw [hk, Option.toList_some, List.nodup_append]
  intro hnodup
  exact hnodup.2.2 k hin k (List.mem_singleton_self k) rfl

theorem Sound.credit_once (h : Sound base s) {id : String} {w : CryptoWill} (hw : s.wills.get? id = some w)
    (hp : ¬ s.InPayment id) : ∃ k, s.numbers.get? id = some k ∧ k < s.created ∧ s.credit id = s.credited ++ [k] ∧
      (s.credit id).Nodup := by
  obtain ⟨k, hk, hlt⟩ := h.numbered id w hw
  have hcredit : s.credit id = s.credited ++ [k] := by
    unfold credit
    rw [hk, Option.toList_some]
  refine ⟨k, hk, hlt, hcredit, ?_⟩
  rw [hcredit, List.nodup_append]
  refine ⟨h.once, List.nodup_singleton k, fun a ha b hb hab => ?_⟩
  obtain rfl := List.mem_singleton.mp hb
  exact hp ((h.paid id w b hw hk).mp (hab ▸ ha))

theorem supply_credit (h : Holdings) (a : String) (x : ℚ) : (h.updateBalance a x).tables.getTotalSupply =
    h.tables.getTotalSupply + h.tables.gained h.real a x := Tables.supply_applyRealDelta a x h.tables

theorem total_pay {id : String} {force : Bool} {now : Int} {w : CryptoWill} {h' : Holdings}
    (hp : payWill id force now s.holdings = some (w, h')) :
    (s.pay id force now).total = s.total + (s.holdings.tables.gained s.holdings.real w.heir w.amount - w.amount) := by
  obtain ⟨-, -, rfl⟩ := payWill_some hp
  unfold pay
  rw [hp]
  unfold total
  dsimp only
  rw [supply_credit, List.map_cons, List.sum_cons]
  change _ + s.locked + _ - _ = _
  ring

theorem pay_clean {id : String} {force : Bool} {now : Int} (h : Sound base s) :
    (s.CleanPay id force now → Sound base (s.pay id force now)) ∧
    (Settled base (s.pay id force now) → s.CleanPay id force now) := by
  cases hp : payWill id force now s.holdings with
  | none =>
    have hsame : s.pay id force now = s := by
      unfold pay
      rw [hp]
    rw [hsame]
    refine ⟨fun _ => h, fun _ w hw hdue => ?_⟩
    obtain ⟨hpending, hpos⟩ := h.pending id w hw
    exact absurd hdue (payWill_none hp w hw hpending hpos)
  | some r =>
    obtain ⟨w, h'⟩ := r
    have htotal := total_pay hp
    obtain ⟨hw, hdue, hh⟩ := payWill_some hp
    change s.wills.get? id = some w at hw
    have hpay : s.pay id force now =
        { s with holdings := h', executing := (id, w) :: s.executing, credited := s.credit id } := by
      unfold pay
      rw [hp]
    constructor
    · intro hclean
      obtain ⟨hfree, hreceives⟩ := hclean w hw hdue
      obtain ⟨k, hk, hlt, hcredit, hnodup⟩ := h.credit_once hw hfree
      have hsum : (s.pay id force now).total = base := by
        have hexact : s.holdings.tables.gained s.holdings.real w.heir w.amount = w.amount := hreceives
        rw [htotal, hexact, sub_self, add_zero, h.total]
      rw [hpay] at hsum ⊢
      subst hh
      refine ⟨h.pending, h.positive, fun p hp => ?_, ?_, h.numbered, h.apart, fun id' w' k' hw' hk' => ?_, fun k' hk' => ?_,
        hnodup, hsum⟩
      · rcases List.mem_cons.mp hp with rfl | hp
        · exact hw
        · exact h.held p hp
      · exact List.nodup_cons.mpr ⟨hfree, h.single⟩
      · change k' ∈ s.credit id ↔ id' ∈ id :: s.executing.map Prod.fst
        rw [hcredit, List.mem_append, List.mem_singleton, List.mem_cons, h.paid id' w' k' hw' hk', or_comm]
        refine or_congr_left ⟨fun he => ?_, fun he => ?_⟩
        · subst he
          exact h.apart id' id w' w k' hw' hw hk' hk
        · subst he
          rw [hk] at hk'
          exact (Option.some.inj hk').symm
      · change k' ∈ s.credit id at hk'
        rw [hcredit] at hk'
        rcases List.mem_append.mp hk' with hk' | hk'
        · exact h.known k' hk'
        · rw [List.mem_singleton.mp hk']
          exact hlt
    · intro hsettled w' hw' hdue'
      rw [hw] at hw'
      cases hw'
      refine ⟨fun hin => ?_, ?_⟩
      · have hnodup := hsettled.1
        rw [hpay] at hnodup
        exact h.credit_twice hw hin hnodup
      · have hsum := hsettled.2
        rw [htotal, h.total] at hsum
        exact sub_eq_zero.mp (add_eq_left.mp hsum)

theorem wills_left {id k : String} {w : CryptoWill} (hk : (s.wills.keep fun k _ => k ≠ id).get? k = some w) :
    k ≠ id ∧ s.wills.get? k = some w := by
  rw [get_drop] at hk
  by_cases hid : k = id
  · rw [if_pos hid] at hk
    cases hk
  · rw [if_neg hid] at hk
    exact ⟨hid, hk⟩

theorem cancelWill_spec {id owner : String} {h : Holdings} : (cancelWill id owner h).1 = true →
    ∃ w, h.memory.wills.get? id = some w ∧ w.owner = owner ∧ (cancelWill id owner h).2 =
      ((h.updateBalance owner w.amount).dropWill id).saveWill id { w with status := .cancelled } := by
  unfold cancelWill
  cases hw : h.memory.wills.get? id with
  | none => exact fun hc => nomatch hc
  | some w =>
    dsimp only
    by_cases hown : w.owner ≠ owner ∨ w.status ≠ .pending
    · rw [if_pos hown]
      exact fun hc => nomatch hc
    · rw [if_neg hown]
      cases hc : h.credit owner w.amount with
      | none => exact fun hc => nomatch hc
      | some h' =>
        intro _
        rw [not_or, not_not] at hown
        rw [Holdings.credit_some hc]
        exact ⟨w, rfl, hown.1, rfl⟩

theorem cancelWill_done {id owner : String} {h : Holdings} {w : CryptoWill} (hw : h.memory.wills.get? id = some w)
    (hown : w.owner = owner) (hpending : w.status = .pending) (hpos : 0 < w.amount) : (cancelWill id owner h).1 = true := by
  unfold cancelWill
  rw [hw]
  dsimp only
  rw [if_neg fun hbad => hbad.elim (fun hne => hne hown) fun hne => hne hpending]
  unfold Holdings.credit
  rw [if_neg (not_le.mpr hpos)]

theorem cancel_clean {id owner : String} (h : Sound base s) :
    (Clean f (.cancel id owner) s → Sound base (step f (.cancel id owner) s)) ∧
    (Settled base (step f (.cancel id owner) s) → Clean f (.cancel id owner) s) := by
  by_cases hdone : (cancelWill id owner s.holdings).1 = true
  · obtain ⟨w, hw, hown, hh⟩ := cancelWill_spec hdone
    change s.wills.get? id = some w at hw
    obtain ⟨hpending, hpos⟩ := h.pending id w hw
    have hstep : step f (.cancel id owner) s =
        { s with
          holdings := ((s.holdings.updateBalance owner w.amount).dropWill id).saveWill id { w with status := .cancelled }
          credited := s.credit id } := by
      simp only [step, if_pos hdone]
      rw [hh]
    have htotal : (step f (.cancel id owner) s).total =
        s.total + (s.holdings.tables.gained s.holdings.real owner w.amount - w.amount) := by
      rw [hstep]
      unfold total locked wills
      change (s.holdings.updateBalance owner w.amount).tables.getTotalSupply + (s.wills.keep fun k _ => k ≠ id).sum _ + _ - _ =
        s.holdings.tables.getTotalSupply + s.wills.sum _ + _ - _ + _
      rw [supply_credit, sum_drop, hw, Option.elim_some, if_pos hpending]
      ring
    -- to show the invariant, and that a payment that is not clean breaks it
    constructor
    · intro hclean
      obtain ⟨hfree, hreceives⟩ := hclean w hw hown
      obtain ⟨k, hk, hlt, hcredit, hnodup⟩ := h.credit_once hw hfree
      have hsum : (step f (.cancel id owner) s).total = base := by
        have hexact : s.holdings.tables.gained s.holdings.real owner w.amount = w.amount := hreceives
        rw [htotal, hexact, sub_self, add_zero, h.total]
      rw [hstep] at hsum ⊢
      refine ⟨fun k' w' hw' => h.pending k' w' (wills_left hw').2, h.positive, fun p hp => ?_, h.single,
        fun k' w' hw' => h.numbered k' w' (wills_left hw').2,
        fun k₁ k₂ w₁ w₂ j h₁ h₂ => h.apart k₁ k₂ w₁ w₂ j (wills_left h₁).2 (wills_left h₂).2, fun k' w' j hw' hj => ?_,
        fun j hj => ?_, hnodup, hsum⟩
      · change (s.wills.keep fun k _ => k ≠ id).get? p.1 = some p.2
        rw [get_drop, if_neg ?_]
        · exact h.held p hp
        · rintro rfl
          exact hfree (List.mem_map_of_mem hp)
      -- the will is gone, and its number with it
      · change j ∈ s.credit id ↔ k' ∈ s.executing.map Prod.fst
        obtain ⟨hne, hold⟩ := wills_left hw'
        rw [hcredit, List.mem_append, List.mem_singleton, h.paid k' w' j hold hj]
        refine or_iff_left fun he => ?_
        subst he
        exact hne (h.apart k' id w' w j hold hw hj hk)
      · change j ∈ s.credit id at hj
        rw [hcredit] at hj
        rcases List.mem_append.mp hj with hj | hj
        · exact h.known j hj
        · rw [List.mem_singleton.mp hj]
          exact hlt
    · intro hsettled w' hw' hown'
      rw [hw] at hw'
      cases hw'
      refine ⟨fun hin => ?_, ?_⟩
      · have hnodup := hsettled.1
        rw [hstep] at hnodup
        exact h.credit_twice hw hin hnodup
      · have hsum := hsettled.2
        rw [htotal, h.total] at hsum
        exact sub_eq_zero.mp (add_eq_left.mp hsum)
  · have hsame : step f (.cancel id owner) s = s := by simp only [step, if_neg hdone]
    rw [hsame]
    refine ⟨fun _ => h, fun _ w hw hown => ?_⟩
    obtain ⟨hpending, hpos⟩ := h.pending id w hw
    exact absurd (cancelWill_done hw hown hpending hpos) hdone

theorem erase_sum {l : List (String × ℚ)} {p : String × ℚ} (h : p ∈ l) :
    (l.map Prod.snd).sum = p.2 + ((l.erase p).map Prod.snd).sum := ((List.perm_cons_erase h).map Prod.snd).sum_eq

theorem debit_clean {a : String} {x : ℚ} (h : Sound base s) :
    (Clean f (.debit a x) s → Sound base (step f (.debit a x) s)) ∧
    (Settled base (step f (.debit a x) s) → Clean f (.debit a x) s) := by
  by_cases hin : (a, x) ∈ s.checked
  · have htotal : (step f (.debit a x) s).total =
        s.total + (s.holdings.tables.gained s.holdings.real a (-x) - -x) := by
      simp only [step, if_pos hin]
      unfold total
      dsimp only
      rw [supply_credit, List.map_cons, List.sum_cons]
      change _ + s.locked + _ - _ = _
      ring
    constructor
    · intro hclean
      have hexact : s.holdings.tables.gained s.holdings.real a (-x) = -x := hclean hin
      have hsum : (step f (.debit a x) s).total = base := by
        rw [htotal, hexact, sub_self, add_zero, h.total]
      simp only [step, if_pos hin] at hsum ⊢
      refine { h with positive := fun p hp => ?_, total := hsum }
      rcases List.mem_append.mp hp with hp | hp
      · exact h.positive p (List.mem_append_left _ (List.mem_of_mem_erase hp))
      · rcases List.mem_cons.mp hp with rfl | hp
        · exact h.positive _ (List.mem_append_left _ hin)
        · exact h.positive p (List.mem_append_right _ hp)
    · intro hsettled _
      have hsum := hsettled.2
      rw [htotal, h.total] at hsum
      exact sub_eq_zero.mp (add_eq_left.mp hsum)
  · have hsame : step f (.debit a x) s = s := by simp only [step, if_neg hin]
    rw [hsame]
    exact ⟨fun _ => h, fun _ hc => absurd hc hin⟩

section record
variable {a b : String} {x clock : ℚ} {delay now : Int}

theorem step_record (hin : (a, x) ∈ s.debited) : step f (.record a b x delay clock now) s =
    { s with
      holdings := (s.holdings.holdWill (f.willId a b x clock) (newWill a b x delay now)).saveWill (f.willId a b x clock)
        (newWill a b x delay now)
      debited := s.debited.erase (a, x), created := s.created + 1
      numbers := s.numbers.put (f.willId a b x clock) s.created } := by
  simp only [step, if_pos hin]

theorem total_record (hin : (a, x) ∈ s.debited) : (step f (.record a b x delay clock now) s).total =
    s.total - (s.wills.get? (f.willId a b x clock)).elim 0 fun w => if w.status = .pending then w.amount else 0 := by
  rw [step_record hin]
  unfold total locked wills
  change s.holdings.tables.getTotalSupply + (s.wills.put (f.willId a b x clock) (newWill a b x delay now)).sum _ +
    ((s.debited.erase (a, x)).map Prod.snd).sum - _ = s.holdings.tables.getTotalSupply + s.wills.sum _ + _ - _ -
      (s.wills.get? _).elim 0 _
  rw [Table.sum_put, erase_sum hin]
  have hnew : (if (newWill a b x delay now).status = .pending then (newWill a b x delay now).amount else 0) = x := if_pos rfl
  rw [hnew]
  change _ = _ + _ + (x + _) - _ - _
  ring

theorem Sound.number_fresh {id : String} {w : CryptoWill} (h : Sound base s) (hw : s.wills.get? id = some w) :
    s.numbers.get? id ≠ some s.created := by
  intro hid
  obtain ⟨j, hj, hlt⟩ := h.numbered id w hw
  rw [hid] at hj
  cases hj
  exact lt_irrefl _ hlt

section put
variable {id : String} {new : CryptoWill}

theorem wills_put {k : String} {w : CryptoWill} (hk : (s.wills.put id new).get? k = some w) :
    (k = id ∧ w = new) ∨ (k ≠ id ∧ s.wills.get? k = some w) := by
  rw [Table.get_put] at hk
  by_cases hid : k = id
  · rw [if_pos hid] at hk
    exact .inl ⟨hid, (Option.some.inj hk).symm⟩
  · rw [if_neg hid] at hk
    exact .inr ⟨hid, hk⟩

theorem numbers_put (k : String) :
    (s.numbers.put id s.created).get? k = if k = id then some s.created else s.numbers.get? k := Table.get_put _ _ _ _

theorem Sound.numbered_put (h : Sound base s) {k : String} {w : CryptoWill} (hw : (s.wills.put id new).get? k = some w) :
    ∃ j, (s.numbers.put id s.created).get? k = some j ∧ j < s.created + 1 := by
  rcases wills_put hw with ⟨hid, -⟩ | ⟨hid, hw⟩
  · exact ⟨s.created, (numbers_put k).trans (if_pos hid), Nat.lt_succ_self _⟩
  · obtain ⟨j, hj, hlt⟩ := h.numbered k w hw
    exact ⟨j, (numbers_put k).trans ((if_neg hid).trans hj), Nat.lt_succ_of_lt hlt⟩

theorem Sound.apart_put (h : Sound base s) {k k' : String} {w w' : CryptoWill} {j : Nat}
    (hw : (s.wills.put id new).get? k = some w) (hw' : (s.wills.put id new).get? k' = some w')
    (hj : (s.numbers.put id s.created).get? k = some j) (hj' : (s.numbers.put id s.created).get? k' = some j) : k = k' := by
  rw [numbers_put] at hj hj'
  rcases wills_put hw with ⟨hid, -⟩ | ⟨hid, hw⟩
  · rcases wills_put hw' with ⟨hid', -⟩ | ⟨hid', hw'⟩
    · rw [hid, hid']
    · rw [if_pos hid] at hj
      rw [if_neg hid', ← Option.some.inj hj] at hj'
      exact absurd hj' (h.number_fresh hw')
  · rcases wills_put hw' with ⟨hid', -⟩ | ⟨hid', hw'⟩
    · rw [if_pos hid'] at hj'
      rw [if_neg hid, ← Option.some.inj hj'] at hj
      exact absurd hj (h.number_fresh hw)
    · rw [if_neg hid] at hj
      rw [if_neg hid'] at hj'
      exact h.apart k k' w w' j hw hw' hj hj'

theorem Sound.paid_put (h : Sound base s) (hfree : s.wills.get? id = none) {k : String} {w : CryptoWill} {j : Nat}
    (hw : (s.wills.put id new).get? k = some w) (hj : (s.numbers.put id s.created).get? k = some j) :
    j ∈ s.credited ↔ s.InPayment k := by
  rw [numbers_put] at hj
  rcases wills_put hw with ⟨hid, -⟩ | ⟨hid, hw⟩
  · rw [if_pos hid] at hj
    cases hj
    refine iff_of_false (fun hc => lt_irrefl _ (h.known _ hc)) fun hc => ?_
    obtain ⟨p, hp, hpk⟩ := List.mem_map.mp hc
    have hheld := h.held p hp
    rw [hpk, hid, hfree] at hheld
    cases hheld
  · rw [if_neg hid] at hj
    exact h.paid k w j hw hj

end put

theorem Sound.recorded (h : Sound base s) (hin : (a, x) ∈ s.debited) (hfree : s.wills.get? (f.willId a b x clock) = none) :
    Sound base (step f (.record a b x delay clock now) s) := by
  have hpos : 0 < x := h.positive (a, x) (List.mem_append_right _ hin)
  have hsum : (step f (.record a b x delay clock now) s).total = base := by
    rw [total_record hin, hfree, Option.elim_none, sub_zero, h.total]
  rw [step_record hin] at hsum ⊢
  refine ⟨fun k w hw => ?_, fun p hp => ?_, fun p hp => ?_, h.single, fun k w hw => h.numbered_put hw,
    fun k k' w w' j hw hw' hj hj' => h.apart_put hw hw' hj hj', fun k w j hw hj => h.paid_put hfree hw hj,
    fun j hj => Nat.lt_succ_of_lt (h.known j hj), h.once, hsum⟩
  · rcases wills_put hw with ⟨-, rfl⟩ | ⟨-, hw⟩
    · exact ⟨rfl, hpos⟩
    · exact h.pending k w hw
  · rcases List.mem_append.mp hp with hp | hp
    · exact h.positive p (List.mem_append_left _ hp)
    · exact h.positive p (List.mem_append_right _ (List.mem_of_mem_erase hp))
  · have hw := h.held p hp
    have hne : p.1 ≠ f.willId a b x clock := by
      intro he
      rw [he, hfree] at hw
      cases hw
    exact (Table.get_put _ _ _ _).trans ((if_neg hne).trans hw)

/-- A will that takes another one's place makes the sum smaller. -/
theorem Sound.record_free (h : Sound base s) (hin : (a, x) ∈ s.debited)
    (hsum : (step f (.record a b x delay clock now) s).total = base) : s.wills.get? (f.willId a b x clock) = none := by
  rw [total_record hin, h.total] at hsum
  cases hw : s.wills.get? (f.willId a b x clock) with
  | none => rfl
  | some w =>
    obtain ⟨hpending, hamount⟩ := h.pending _ w hw
    rw [hw, Option.elim_some, if_pos hpending] at hsum
    linarith

theorem record_clean (h : Sound base s) :
    (Clean f (.record a b x delay clock now) s → Sound base (step f (.record a b x delay clock now) s)) ∧
    (Settled base (step f (.record a b x delay clock now) s) → Clean f (.record a b x delay clock now) s) := by
  by_cases hin : (a, x) ∈ s.debited
  · exact ⟨fun hclean => h.recorded hin (hclean hin), fun hsettled _ => h.record_free hin hsettled.2⟩
  · have hsame : step f (.record a b x delay clock now) s = s := by simp only [step, if_neg hin]
    rw [hsame]
    exact ⟨fun _ => h, fun _ hc => absurd hc hin⟩

end record

theorem mark_sound {id : String} {w : CryptoWill} (h : Sound base s) : Sound base (step f (.mark id w) s) := by
  by_cases hin : (id, w) ∈ s.executing
  · have hw : s.wills.get? id = some w := h.held (id, w) hin
    obtain ⟨hpending, -⟩ := h.pending id w hw
    have hperm : s.executing.Perm ((id, w) :: s.executing.erase (id, w)) := List.perm_cons_erase hin
    have hsingle := (hperm.map Prod.fst).nodup_iff.mp h.single
    have hgone : id ∉ (s.executing.erase (id, w)).map Prod.fst := (List.nodup_cons.mp hsingle).1
    have hstep : step f (.mark id w) s =
        { s with
          holdings := (s.holdings.saveWill id { w with status := .executed }).dropWill id
          executing := s.executing.erase (id, w) } := by
      simp only [step, if_pos hin, markWill]
    have hsum : (step f (.mark id w) s).total = base := by
      rw [← h.total, hstep]
      unfold total locked wills
      change s.holdings.tables.getTotalSupply + (s.wills.keep fun k _ => k ≠ id).sum _ + _ -
        ((s.executing.erase (id, w)).map fun p => p.2.amount).sum = s.holdings.tables.getTotalSupply + s.wills.sum _ + _ - _
      rw [sum_drop, hw, Option.elim_some, if_pos hpending, (hperm.map fun p => p.2.amount).sum_eq, List.map_cons, List.sum_cons]
      ring
    rw [hstep] at hsum ⊢
    refine ⟨fun k w' hw' => h.pending k w' (wills_left hw').2, h.positive, fun p hp => ?_, (List.nodup_cons.mp hsingle).2,
      fun k w' hw' => h.numbered k w' (wills_left hw').2, fun k k' w₁ w₂ j h₁ h₂ => h.apart k k' w₁ w₂ j (wills_left h₁).2 (wills_left h₂).2,
      fun k w' j hw' hj => ?_, h.known, h.once, hsum⟩
    · change (s.wills.keep fun k _ => k ≠ id).get? p.1 = some p.2
      rw [get_drop, if_neg ?_]
      · exact h.held p (List.mem_of_mem_erase hp)
      · rintro rfl
        exact hgone (List.mem_map_of_mem hp)
    · obtain ⟨hne, hold⟩ := wills_left hw'
      change j ∈ s.credited ↔ k ∈ (s.executing.erase (id, w)).map Prod.fst
      rw [h.paid k w' j hold hj]
      unfold InPayment
      rw [(hperm.map Prod.fst).mem_iff, List.map_cons, List.mem_cons]
      exact or_iff_right hne
  · have hsame : step f (.mark id w) s = s := by simp only [step, if_neg hin]
    rw [hsame]
    exact h

theorem step_clean (e : Section) (h : Sound base s) :
    (Clean f e s → Sound base (step f e s)) ∧ (Settled base (step f e s) → Clean f e s) := by
  cases e with
  | check a x =>
    refine ⟨fun _ => ?_, fun _ => trivial⟩
    simp only [step]
    by_cases hno : x ≤ 0 ∨ s.holdings.tables.getBalance a < x
    · rw [if_pos hno]
      exact h
    · rw [if_neg hno]
      refine { h with positive := fun p hp => ?_ }
      rcases List.mem_cons.mp hp with rfl | hp
      · exact not_le.mp fun hx => hno (.inl hx)
      · exact h.positive p hp
  | debit a x => exact debit_clean h
  | record a b x delay clock now => exact record_clean h
  | cancel id owner => exact cancel_clean h
  | pay id force now => exact pay_clean h
  | mark id w => exact ⟨fun _ => mark_sound h, fun _ => trivial⟩
  | collect now => exact ⟨fun _ => { h with }, fun _ => trivial⟩
  | payNext now =>
    cases hdue : s.due with
    | nil =>
      have hsame : step f (.payNext now) s = s := by simp only [step, hdue]
      rw [hsame]
      refine ⟨fun _ => h, fun _ id hid => ?_⟩
      rw [hdue] at hid
      cases hid
    | cons id rest =>
      have hnext : step f (.payNext now) s = pay id false now { s with due := rest } := by simp only [step, hdue]
      have hrest : Sound base { s with due := rest } := { h with }
      obtain ⟨hkeep, hbreak⟩ := @pay_clean base { s with due := rest } id false now hrest
      rw [hnext]
      refine ⟨fun hc => hkeep (hc id (by rw [hdue]; rfl)), fun hs id' hid' => ?_⟩
      rw [hdue] at hid'
      obtain rfl : id = id' := Option.some.inj hid'
      exact hbreak hs

theorem sound_start (real : ℚ → ℚ) (t : Tables) : Sound (start real t).total (start real t) :=
  ⟨fun _ _ h => (nomatch h), fun _ h => (nomatch h), fun _ h => (nomatch h), List.nodup_nil, fun _ _ h => (nomatch h),
    fun _ _ _ _ _ h => (nomatch h), fun _ _ _ h => (nomatch h), fun _ h => (nomatch h), List.nodup_nil, rfl⟩

/-- In every interleaving no will is credited twice and the sum stays what it was, exactly when every debit and
credit is exact, every new id is free, and no will is credited between the two sections of an execution of it. -/
theorem pays_once_iff_clean {real : ℚ → ℚ} {t : Tables} {sections : List Section} :
    Always (step f) (fun s => s.credited.Nodup ∧ s.total = (start real t).total) sections (start real t) ↔
      Along (step f) (Clean f) sections (start real t) :=
  always_iff_along_of (I := Sound (start real t).total) (fun _ h => h.settled) (fun e _ h hc => (step_clean e h).1 hc)
    (fun e _ h hs => (step_clean e h).2 hs) (sound_start real t)

end

def willNode : Features := { host := .plain, nodeAddress := "v", bridge := BridgeNode.sampleNode }

def ownerTables : Tables := Tables.empty.applyBalanceDelta "a" 100

def tenCoins : String := willNode.willId "a" "b" 10 1

def executedTwice : List Section :=
  [.check "a" 10, .debit "a" 10, .record "a" "b" 10 0 1 1, .pay tenCoins true 2, .pay tenCoins true 2,
    .mark tenCoins (newWill "a" "b" 10 0 1), .mark tenCoins (newWill "a" "b" 10 0 1)]

/-- The heir has 20 coins, and there are 110 in all. -/
theorem executed_twice :
    (run (step willNode) executedTwice (start Binary64.round ownerTables)).credited = [0, 0] ∧
    (run (step willNode) executedTwice (start Binary64.round ownerTables)).executing = [] ∧
    (run (step willNode) executedTwice (start Binary64.round ownerTables)).holdings.tables.getBalance "b" = 20 ∧
    (run (step willNode) executedTwice (start Binary64.round ownerTables)).total = 110 ∧
    (start Binary64.round ownerTables).total = 100 := by
  decide +kernel

end WillManager

end AbsoluteChain
