import AbsoluteChain.Wills
import Mathlib.Data.Fintype.EquivFin

/-!
# Guardian recovery

`features/smart_accounts.py`: the guardians of an account and the requests to give it another owner.
A request keeps the addresses that approved it; their weights are looked up when an approval is
counted, in whatever guardians the account has by then.
-/

namespace AbsoluteChain

open Python KeyedTable Runs

structure Guardian where
  name : String
  weight : Int
  approved : Bool

inductive RecoveryStatus where
  | pending | approved | expired | executed
  deriving DecidableEq

structure RecoveryRequest where
  requestedBy : String
  expiresAt : ℚ
  guardiansApproved : List String
  status : RecoveryStatus

structure SmartAccount where
  address : String
  owner : String
  guardians : Table String Guardian
  recoveryRequests : Table String RecoveryRequest

namespace SmartAccount

def addGuardian (address name : String) (weight : Int) (s : SmartAccount) : Bool × SmartAccount :=
  if address = "" ∨ (s.guardians.get? address).isSome ∨ weight ≤ 0 then (false, s)
  else (true, { s with guardians := s.guardians.put address { name := name, weight := weight, approved := false } })

def removeGuardian (address : String) (s : SmartAccount) : Bool × SmartAccount :=
  match s.guardians.get? address with
  | none => (false, s)
  | some _ => (true, { s with guardians := s.guardians.keep fun a _ => a ≠ address })

def approveGuardian (address approver : String) (s : SmartAccount) : Bool × SmartAccount :=
  match s.guardians.get? address with
  | none => (false, s)
  | some g =>
    if approver ≠ s.owner then (false, s)
    else (true, { s with guardians := s.guardians.put address { g with approved := true } })

def recoveryId (host : Host) (address requestedBy token : String) (clock : ℚ) : String :=
  String.ofList ((sha256Hex (encode (address ++ requestedBy ++ host.strNum (.float clock) ++ token))).toList.take 16)

def requestRecovery (host : Host) (requestedBy token : String) (clock : ℚ) (s : SmartAccount) :
    Option String × SmartAccount :=
  match s.guardians.get? requestedBy with
  | none => (none, s)
  | some g =>
    if ¬ g.approved then (none, s)
    else
      let id := recoveryId host s.address requestedBy token clock
      let r := { requestedBy := requestedBy, expiresAt := clock + 86400 * 7, guardiansApproved := [], status := .pending }
      (some id, { s with recoveryRequests := s.recoveryRequests.put id r })

def setRequest (id : String) (r : RecoveryRequest) (s : SmartAccount) : SmartAccount :=
  { s with recoveryRequests := s.recoveryRequests.put id r }

def tally (guardians : Table String Guardian) : List String → Except String Int
  | [] => .ok 0
  | a :: rest =>
    match guardians.get? a with
    | none => .error a
    | some g => (tally guardians rest).map fun total => g.weight + total

def approvedWeight (guardians : Table String Guardian) : Int := guardians.sum fun g => if g.approved then g.weight else 0

def approveRecovery (id guardian : String) (clock : ℚ) (s : SmartAccount) : Except String Bool × SmartAccount :=
  match s.recoveryRequests.get? id with
  | none => (.ok false, s)
  | some r =>
    match s.guardians.get? guardian with
    | none => (.ok false, s)
    | some g =>
      if ¬ g.approved then (.ok false, s)
      else if r.status ≠ .pending then (.ok false, s)
      else if r.expiresAt < clock then (.ok false, s.setRequest id { r with status := .expired })
      else
        let approvals := if guardian ∈ r.guardiansApproved then r.guardiansApproved else r.guardiansApproved ++ [guardian]
        let r := { r with guardiansApproved := approvals }
        match tally s.guardians approvals with
        | .error key => (.error key, s.setRequest id r)
        | .ok total =>
          if approvedWeight s.guardians / 2 + 1 ≤ total then (.ok true, s.setRequest id { r with status := .approved })
          else (.ok true, s.setRequest id r)

def executeRecovery (id newOwner : String) (clock : ℚ) (s : SmartAccount) : Bool × SmartAccount :=
  match s.recoveryRequests.get? id with
  | none => (false, s)
  | some r =>
    if newOwner = "" ∨ newOwner = s.owner then (false, s)
    else if r.status ≠ .approved then (false, s)
    else if r.expiresAt < clock then (false, s.setRequest id { r with status := .expired })
    else (true, { s with owner := newOwner }.setRequest id { r with status := .executed })

def recoverLoop (host : Host) (newOwner : String) (clock : ℚ) :
    Option String → List (String × String) → SmartAccount → Except String Bool × SmartAccount
  | none, [], s => (.ok false, s)
  | some id, [], s => ((.ok (executeRecovery id newOwner clock s).1), (executeRecovery id newOwner clock s).2)
  | some id, (guardian, _) :: rest, s =>
    match approveRecovery id guardian clock s with
    | (.ok true, s) => recoverLoop host newOwner clock (some id) rest s
    | (answer, s) => (answer, s)
  | none, (guardian, token) :: rest, s =>
    match requestRecovery host guardian token clock s with
    | (none, s) => recoverLoop host newOwner clock none rest s
    | (some id, s) =>
      match approveRecovery id guardian clock s with
      | (.ok true, s) => recoverLoop host newOwner clock (some id) rest s
      | (answer, s) => (answer, s)

def recoverAccount (host : Host) (newOwner : String) (guardians : List (String × String)) (clock : ℚ) (s : SmartAccount) :
    Except String Bool × SmartAccount :=
  if newOwner = "" ∨ guardians = [] then (.ok false, s) else recoverLoop host newOwner clock none guardians s

end SmartAccount

/-! ## Runs -/

inductive RecoveryOp where
  | addGuardian (address name : String) (weight : Int)
  | removeGuardian (address : String)
  | approveGuardian (address approver : String)
  | requestRecovery (requestedBy token : String) (clock : ℚ)
  | approveRecovery (id guardian : String) (clock : ℚ)
  | executeRecovery (id newOwner : String) (clock : ℚ)

namespace SmartAccount

variable (host : Host)

def step : RecoveryOp → SmartAccount → SmartAccount
  | .addGuardian address name weight, s => (addGuardian address name weight s).2
  | .removeGuardian address, s => (removeGuardian address s).2
  | .approveGuardian address approver, s => (approveGuardian address approver s).2
  | .requestRecovery requestedBy token clock, s => (requestRecovery host requestedBy token clock s).2
  | .approveRecovery id guardian clock, s => (approveRecovery id guardian clock s).2
  | .executeRecovery id newOwner clock, s => (executeRecovery id newOwner clock s).2

def Raises : RecoveryOp → SmartAccount → Prop
  | .approveRecovery id guardian clock, s => ∃ key, (approveRecovery id guardian clock s).1 = .error key
  | _, _ => False

def start (address owner : String) : SmartAccount :=
  { address := address, owner := owner, guardians := .empty, recoveryRequests := .empty }

def standing (guardians : Table String Guardian) (a : String) : Int :=
  (guardians.get? a).elim 0 fun g => if g.approved then g.weight else 0

theorem recoverLoop_run (newOwner : String) (clock : ℚ) (id : Option String) (guardians : List (String × String))
    (s : SmartAccount) : ∃ ops, (recoverLoop host newOwner clock id guardians s).2 = run (step host) ops s := by
  induction guardians generalizing id s with
  | nil =>
    cases id with
    | none => exact ⟨[], rfl⟩
    | some id => exact ⟨[.executeRecovery id newOwner clock], rfl⟩
  | cons e rest ih =>
    obtain ⟨guardian, token⟩ := e
    -- the approval that follows, and what is left of the loop after it
    have happroval : ∀ id s, ∃ ops, (match approveRecovery id guardian clock s with
        | (.ok true, s) => recoverLoop host newOwner clock (some id) rest s
        | (answer, s) => (answer, s)).2 = run (step host) ops s := by
      intro id s
      have hstep : step host (.approveRecovery id guardian clock) s = (approveRecovery id guardian clock s).2 := rfl
      rcases hcall : approveRecovery id guardian clock s with ⟨answer, s'⟩
      rw [hcall] at hstep
      rcases answer with key | answer
      · exact ⟨[.approveRecovery id guardian clock], hstep.symm⟩
      · cases answer with
        | false => exact ⟨[.approveRecovery id guardian clock], hstep.symm⟩
        | true =>
          obtain ⟨ops, hops⟩ := ih (some id) s'
          refine ⟨.approveRecovery id guardian clock :: ops, ?_⟩
          change _ = run (step host) ops (step host (.approveRecovery id guardian clock) s)
          rw [hstep]
          exact hops
    cases id with
    | some id => exact happroval id s
    | none =>
      have hstep : step host (.requestRecovery guardian token clock) s = (requestRecovery host guardian token clock s).2 := rfl
      unfold recoverLoop
      rcases hcall : requestRecovery host guardian token clock s with ⟨found, s'⟩
      rw [hcall] at hstep
      cases found with
      | none =>
        obtain ⟨ops, hops⟩ := ih none s'
        refine ⟨.requestRecovery guardian token clock :: ops, ?_⟩
        change _ = run (step host) ops (step host (.requestRecovery guardian token clock) s)
        rw [hstep]
        exact hops
      | some id =>
        obtain ⟨ops, hops⟩ := happroval id s'
        refine ⟨.requestRecovery guardian token clock :: ops, ?_⟩
        change _ = run (step host) ops (step host (.requestRecovery guardian token clock) s)
        rw [hstep]
        exact hops

theorem recoverAccount_run (newOwner : String) (guardians : List (String × String)) (clock : ℚ) (s : SmartAccount) :
    ∃ ops, (recoverAccount host newOwner guardians clock s).2 = run (step host) ops s := by
  unfold recoverAccount
  by_cases hno : newOwner = "" ∨ guardians = []
  · rw [if_pos hno]
    exact ⟨[], rfl⟩
  · rw [if_neg hno]
    exact recoverLoop_run host newOwner clock none guardians s

def Majority (guardians : Table String Guardian) (approvals : List String) : Prop :=
  approvedWeight guardians < 2 * (approvals.map (standing guardians)).sum

/-- No call raises, and the owner changes in the execution of a request only, with the approval of a majority as the
guardians are then. -/
def Kept (op : RecoveryOp) (s : SmartAccount) : Prop :=
  ¬ Raises op s ∧ ((step host op s).owner ≠ s.owner → ∃ id newOwner clock r, op = .executeRecovery id newOwner clock ∧
    s.recoveryRequests.get? id = some r ∧ Majority s.guardians r.guardiansApproved.dedup)

def Lasting (guardians : Table String Guardian) (s : SmartAccount) : Prop :=
  ∀ id r, s.recoveryRequests.get? id = some r → r.status = .approved → Majority guardians r.guardiansApproved

/-- No guardian is removed who approved a pending request; no removal and no approval of a guardian costs an approved
request its majority. -/
def Clean : RecoveryOp → SmartAccount → Prop
  | .removeGuardian a, s =>
    (∀ id r, s.recoveryRequests.get? id = some r → r.status = .pending → a ∉ r.guardiansApproved) ∧
      Lasting (s.guardians.keep fun b _ => b ≠ a) s
  | .approveGuardian a approver, s =>
    approver = s.owner → Lasting (s.guardians.update a fun g => { g with approved := true }) s
  | _, _ => True

/-! ## Weights -/

section
variable {guardians : Table String Guardian}

end

/-! ## The invariant -/

/-- What holds as long as every call is a clean one. -/
structure Sound (s : SmartAccount) : Prop where
  positive : ∀ a g, s.guardians.get? a = some g → 0 < g.weight
  once : ∀ id r, s.recoveryRequests.get? id = some r → r.guardiansApproved.Nodup
  pending : ∀ id r, s.recoveryRequests.get? id = some r → r.status = .pending →
    ∀ a ∈ r.guardiansApproved, ∃ g, s.guardians.get? a = some g ∧ g.approved = true
  approved : ∀ id r, s.recoveryRequests.get? id = some r → r.status = .approved → Majority s.guardians r.guardiansApproved

theorem sound_start (address owner : String) : Sound (start address owner) :=
  ⟨fun _ _ h => (nomatch h), fun _ _ h => (nomatch h), fun _ _ h => (nomatch h), fun _ _ h => (nomatch h)⟩

section
variable {host} {s : SmartAccount}

theorem Sound.setRequest (h : Sound s) (id : String) {r : RecoveryRequest} (honce : r.guardiansApproved.Nodup)
    (hpending : r.status = .pending → ∀ a ∈ r.guardiansApproved, ∃ g, s.guardians.get? a = some g ∧ g.approved = true)
    (happroved : r.status = .approved → Majority s.guardians r.guardiansApproved) : Sound (s.setRequest id r) := by
  have hget : ∀ id' r', (s.setRequest id r).recoveryRequests.get? id' = some r' →
      r' = r ∨ s.recoveryRequests.get? id' = some r' := by
    intro id' r' hr'
    change (s.recoveryRequests.put id r).get? id' = some r' at hr'
    rw [Table.get_put] at hr'
    by_cases hid : id' = id
    · rw [if_pos hid] at hr'
      cases hr'
      exact .inl rfl
    · rw [if_neg hid] at hr'
      exact .inr hr'
  refine ⟨h.positive, ?_, ?_, ?_⟩
  · intro id' r' hr'
    rcases hget id' r' hr' with rfl | hr'
    · exact honce
    · exact h.once id' r' hr'
  · intro id' r' hr'
    rcases hget id' r' hr' with rfl | hr'
    · exact hpending
    · exact h.pending id' r' hr'
  · intro id' r' hr'
    rcases hget id' r' hr' with rfl | hr'
    · exact happroved
    · exact h.approved id' r' hr'

end

end SmartAccount

end AbsoluteChain
