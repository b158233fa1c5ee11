import AbsoluteChain.Database
import AbsoluteChain.Runs

/-!
# The bridge

`RustBridge.confirm_incoming` credits a deposit made on another chain. A call looks
its key up, has the Rust helper look at the deposit, credits the recipient and then
records the key, and each of these is a database operation of its own, so calls
that run at the same time interleave between them.
-/

namespace AbsoluteChain

open Python KeyedTable Runs

/-! ## The tables of the bridge -/

structure BridgeCredit where
  l1TxHash : String
  recipient : String
  amount : ℚ
  fromChain : String
  creditedAt : Int

inductive LockStatus where
  | pending | confirmed | refunded
  deriving DecidableEq

structure BridgeLock where
  fromAddr : String
  toChain : String
  toAddr : String
  amount : ℚ
  status : LockStatus
  createdAt : Int

structure BridgeDb where
  tables : Tables
  bridgeCredits : Table String BridgeCredit
  bridgeLocks : Table String BridgeLock

def BridgeDb.empty : BridgeDb := { tables := .empty, bridgeCredits := .empty, bridgeLocks := .empty }

/-! ## The arguments of a call -/

structure Incoming where
  txHash : String
  recipient : String
  amount : Python.Num
  fromChain : String
  l1TxHash : String := ""

/-- What the call confirms on the other chain. -/
def Incoming.deposit (r : Incoming) : String := orElse r.l1TxHash r.txHash

inductive BridgeMode where
  | rust | simulator | unavailable
  deriving DecidableEq

structure RustBridge where
  host : Host
  mode : BridgeMode
  isProd : Bool
  ethRpcUrl : String
  bscRpcUrl : String

namespace RustBridge

variable (b : RustBridge)

def bridgeCreditKey (r : Incoming) : String :=
  sha256Hex (encode (b.host.lower
    (r.txHash ++ ":" ++ r.recipient ++ ":" ++ b.host.strNum r.amount ++ ":" ++ r.fromChain)))

def hasBridgeCredit (key : String) (db : BridgeDb) : Bool := (db.bridgeCredits.get? key).isSome

/-- `INSERT OR IGNORE`. -/
def saveBridgeCredit (r : Incoming) (now : Int) (db : BridgeDb) : BridgeDb :=
  { db with bridgeCredits := db.bridgeCredits.upsert (b.bridgeCreditKey r) fun
      | some row => row
      | none => { l1TxHash := r.txHash, recipient := r.recipient, amount := r.amount.toRat, fromChain := r.fromChain,
                  creditedAt := now } }

def updateBalance (r : Incoming) (db : BridgeDb) : BridgeDb :=
  { db with tables := db.tables.applyBalanceDelta r.recipient r.amount.toRat }

def confirmBridgeLock (txHash : String) (db : BridgeDb) : BridgeDb :=
  { db with bridgeLocks := db.bridgeLocks.update txHash fun row => { row with status := .confirmed } }

def rpcUrl (fromChain : String) : String :=
  let name := b.host.lower fromChain
  if name = "ethereum" ∨ name = "eth" then b.ethRpcUrl else if name = "bsc" then b.bscRpcUrl else ""

def refusal (r : Incoming) (helper : Bool) : Option String :=
  match b.mode with
  | .rust =>
    if b.isProd ∧ r.l1TxHash = "" then some "l1_tx_hash required in production"
    else if b.rpcUrl r.fromChain ≠ "" ∧ r.l1TxHash = "" then some "l1_tx_hash required when L1 RPC configured"
    else if helper then none
    else some "rust incoming failed"
  | .simulator => none
  | .unavailable => some "bridge unavailable: rust binary missing or bridge mode invalid"

end RustBridge

/-! ## Calls under way -/

inductive Outcome where
  | duplicate
  | confirmed
  | error (text : String)
  | raised (text : String)
  deriving DecidableEq

/-- What a call does next. -/
inductive Phase where
  | check | verify | credit | record | confirm
  | returned (outcome : Outcome)
  deriving DecidableEq

def Phase.open : Phase → Bool
  | .verify | .credit | .record => true
  | _ => false

def Phase.recorded : Phase → Bool
  | .confirm | .returned .confirmed => true
  | _ => false

/-- The recipient has the coins. -/
def Phase.paid : Phase → Bool
  | .record | .confirm | .returned .confirmed => true
  | _ => false

def Phase.active (p : Phase) : Bool := p.open || p.paid

theorem Phase.recorded_of_paid (p : Phase) (h : p.paid) (hclosed : ¬ p.open) : p.recorded := by
  cases p with
  | record => exact absurd rfl hclosed
  | confirm => rfl
  | returned outcome =>
    cases outcome with
    | confirmed => rfl
    | duplicate => cases h
    | error text => cases h
    | raised text => cases h
  | check => cases h
  | verify => cases h
  | credit => cases h

structure BridgeCall where
  request : Incoming
  phase : Phase

structure BridgeState where
  db : BridgeDb
  calls : List BridgeCall

/-- A call arrives, or a call under way makes its next step; `helper` is what the Rust
helper would answer at that moment, which keeps no memory of the calls before. -/
inductive BridgeEvent where
  | arrive (request : Incoming)
  | advance (call : Nat) (helper : Bool) (now : Int)

namespace RustBridge

variable (b : RustBridge)

def confirmIncoming (c : BridgeCall) (helper : Bool) (now : Int) (db : BridgeDb) : Phase × BridgeDb :=
  match c.phase with
  | .check => if hasBridgeCredit (b.bridgeCreditKey c.request) db then (.returned .duplicate, db) else (.verify, db)
  | .verify =>
    match b.refusal c.request helper with
    | some text => (.returned (.error text), db)
    | none => (.credit, db)
  | .credit =>
    if (numInts c.request.amount).all fitsInt64 then (.record, updateBalance c.request db)
    else (.returned (.raised "Python int too large to convert to SQLite INTEGER"), db)
  | .record => (.confirm, b.saveBridgeCredit c.request now db)
  | .confirm => (.returned .confirmed, confirmBridgeLock c.request.txHash db)
  | .returned outcome => (.returned outcome, db)

def step : BridgeEvent → BridgeState → BridgeState
  | .arrive request, s => { s with calls := s.calls ++ [⟨request, .check⟩] }
  | .advance i helper now, s =>
    match s.calls[i]? with
    | none => s
    | some c =>
      let (phase, db) := b.confirmIncoming c helper now s.db
      { db := db, calls := s.calls.set i ⟨c.request, phase⟩ }

def credit : BridgeEvent → BridgeState → Option Incoming
  | .arrive _, _ => none
  | .advance i _ _, s =>
    match s.calls[i]? with
    | some ⟨request, .credit⟩ => if (numInts request.amount).all fitsInt64 then some request else none
    | _ => none

def credits : List BridgeEvent → BridgeState → List Incoming
  | [], _ => []
  | e :: rest, s => (credit e s).toList ++ credits rest (b.step e s)

def Orderly : BridgeEvent → BridgeState → Prop
  | .arrive _, _ => True
  | .advance i _ _, s => ∀ c, s.calls[i]? = some c → c.phase = .check →
      ∀ j d, s.calls[j]? = some d → j ≠ i → d.request.deposit = c.request.deposit →
        ¬ d.phase.open ∧ (d.phase.paid → b.bridgeCreditKey d.request = b.bridgeCreditKey c.request)

/-! ## One call at a time -/

variable {b} {c : BridgeCall} {helper : Bool} {now : Int} {db : BridgeDb} {s : BridgeState} {e : BridgeEvent}

theorem hasBridgeCredit_save (r : Incoming) (key : String) :
    hasBridgeCredit key (b.saveBridgeCredit r now db) =
      (decide (key = b.bridgeCreditKey r) || hasBridgeCredit key db) := by
  unfold hasBridgeCredit saveBridgeCredit Table.upsert
  by_cases h : key = b.bridgeCreditKey r
  · simp [h]
  · simp [h, Table.get_put_ne _ h]

/-- A key that is recorded stays recorded. -/
theorem confirmIncoming_keeps {key : String} (h : hasBridgeCredit key db) :
    hasBridgeCredit key (b.confirmIncoming c helper now db).2 := by
  unfold confirmIncoming
  cases c.phase with
  | check =>
    dsimp only
    split <;> exact h
  | verify =>
    dsimp only
    split <;> exact h
  | credit =>
    dsimp only
    split <;> exact h
  | record =>
    rw [hasBridgeCredit_save, h, Bool.or_true]
  | confirm => exact h
  | returned outcome => exact h

theorem confirmIncoming_active (h : (b.confirmIncoming c helper now db).1.active) :
    c.phase.active ∨ c.phase = .check ∧ ¬ hasBridgeCredit (b.bridgeCreditKey c.request) db := by
  unfold confirmIncoming at h
  cases hphase : c.phase with
  | check =>
    rw [hphase] at h
    dsimp only at h
    split at h
    · cases h
    · rename_i hfree
      exact .inr ⟨rfl, hfree⟩
  | returned outcome =>
    rw [hphase] at h
    exact .inl h
  | verify => exact .inl rfl
  | credit => exact .inl rfl
  | record => exact .inl rfl
  | confirm => exact .inl rfl

theorem confirmIncoming_recorded (hc : c.phase.recorded → hasBridgeCredit (b.bridgeCreditKey c.request) db)
    (h : (b.confirmIncoming c helper now db).1.recorded) :
    hasBridgeCredit (b.bridgeCreditKey c.request) (b.confirmIncoming c helper now db).2 := by
  by_cases hrec : c.phase.recorded
  · exact confirmIncoming_keeps (hc hrec)
  · unfold confirmIncoming at h ⊢
    cases hphase : c.phase with
    | check =>
      rw [hphase] at h
      dsimp only at h
      split at h <;> cases h
    | verify =>
      rw [hphase] at h
      dsimp only at h
      split at h <;> cases h
    | credit =>
      rw [hphase] at h
      dsimp only at h
      split at h <;> cases h
    | record =>
      dsimp only
      rw [hasBridgeCredit_save]
      simp
    | confirm =>
      rw [hphase] at hrec
      exact absurd rfl hrec
    | returned outcome =>
      rw [hphase] at hrec h
      exact absurd h hrec

structure Exclusive (b : RustBridge) (s : BridgeState) : Prop where
  alone : ∀ (i j : Nat) (c d : BridgeCall), s.calls[i]? = some c → s.calls[j]? = some d → c.phase.active → d.phase.active →
    c.request.deposit = d.request.deposit → i = j
  found : ∀ (i : Nat) c, s.calls[i]? = some c → c.phase.recorded → hasBridgeCredit (b.bridgeCreditKey c.request) s.db

theorem exclusive_idle (h : s.calls = []) : b.Exclusive s := by
  constructor
  · intro i j c d hc
    rw [h] at hc
    cases hc
  · intro i c hc
    rw [h] at hc
    cases hc

theorem Exclusive.no_rival (hs : b.Exclusive s) {i j : Nat} {d : BridgeCall} (ho : b.Orderly (.advance i helper now) s)
    (hc : s.calls[i]? = some c) (hcheck : c.phase = .check) (hfree : ¬ hasBridgeCredit (b.bridgeCreditKey c.request) s.db)
    (hd : s.calls[j]? = some d) (hij : j ≠ i) (hdep : d.request.deposit = c.request.deposit) : ¬ d.phase.active := by
  intro hactive
  obtain ⟨hclosed, hkey⟩ := ho c hc hcheck j d hd hij hdep
  have hpaid : d.phase.paid := by
    rcases Bool.or_eq_true_iff.mp hactive with h | h
    · exact absurd h hclosed
    · exact h
  have hrec := hs.found j d hd (d.phase.recorded_of_paid hpaid hclosed)
  rw [hkey hpaid] at hrec
  exact hfree hrec

theorem exclusive_step (hs : b.Exclusive s) (ho : b.Orderly e s) : b.Exclusive (b.step e s) := by
  cases e with
  | arrive r =>
    have hnew : ∀ (i : Nat) (c : BridgeCall), (s.calls ++ [⟨r, .check⟩])[i]? = some c → c.phase ≠ .check → s.calls[i]? = some c := by
      intro i c hc hphase
      rw [List.getElem?_append] at hc
      split at hc
      · exact hc
      · rw [List.getElem?_singleton] at hc
        split at hc
        · cases hc
          exact absurd rfl hphase
        · cases hc
    have hactive : ∀ c : BridgeCall, c.phase.active → c.phase ≠ .check := by
      intro c hc h
      rw [h] at hc
      cases hc
    constructor
    · intro i j c d hc hd hac had
      exact hs.alone i j c d (hnew i c hc (hactive c hac)) (hnew j d hd (hactive d had)) hac had
    · intro i c hc hrec
      exact hs.found i c (hnew i c hc fun h => by rw [h] at hrec; cases hrec) hrec
  | advance i helper now =>
    unfold step
    dsimp only
    split
    · exact hs
    · rename_i c hc
      have hget : ∀ j d, (s.calls.set i ⟨c.request, (b.confirmIncoming c helper now s.db).1⟩)[j]? = some d →
          j = i ∧ d = ⟨c.request, (b.confirmIncoming c helper now s.db).1⟩ ∨ j ≠ i ∧ s.calls[j]? = some d := by
        intro j d hd
        rw [List.getElem?_set] at hd
        split at hd
        · rename_i hij
          split at hd
          · cases hd
            exact .inl ⟨hij.symm, rfl⟩
          · cases hd
        · rename_i hij
          exact .inr ⟨Ne.symm hij, hd⟩
      -- the call that moves was active before or has no rival
      have hmoved : (b.confirmIncoming c helper now s.db).1.active → ∀ j d, s.calls[j]? = some d → j ≠ i →
          d.phase.active → c.request.deposit ≠ d.request.deposit := by
        intro hact j d hd hij had hdep
        rcases confirmIncoming_active hact with hac | ⟨hcheck, hfree⟩
        · exact hij (hs.alone i j c d hc hd hac had hdep).symm
        · exact hs.no_rival ho hc hcheck hfree hd hij hdep.symm had
      constructor
      · intro j k d f hd hf hda hfa hdep
        rcases hget j d hd with ⟨rfl, rfl⟩ | ⟨hj, hold⟩
        · rcases hget k f hf with ⟨rfl, -⟩ | ⟨hk, hold⟩
          · rfl
          · exact absurd hdep (hmoved hda k f hold hk hfa)
        · rcases hget k f hf with ⟨rfl, rfl⟩ | ⟨hk, hold'⟩
          · exact absurd hdep.symm (hmoved hfa j d hold hj hda)
          · exact hs.alone j k d f hold hold' hda hfa hdep
      · intro j d hd hrec
        rcases hget j d hd with ⟨rfl, rfl⟩ | ⟨hj, hold⟩
        · exact confirmIncoming_recorded (hs.found _ c hc) hrec
        · exact confirmIncoming_keeps (hs.found j d hold hrec)

/-! ## What a run credits -/

theorem credit_cases {r : Incoming} (h : credit e s = some r) : ∃ i helper now, e = .advance i helper now ∧
    s.calls[i]? = some ⟨r, .credit⟩ ∧ (b.step e s).calls = s.calls.set i ⟨r, .record⟩ := by
  cases e with
  | arrive request => cases h
  | advance i helper now =>
    unfold credit at h
    dsimp only at h
    split at h
    · rename_i request hc
      split at h
      · rename_i hfits
        cases h
        refine ⟨i, helper, now, rfl, hc, ?_⟩
        unfold step confirmIncoming
        simp only [hc, if_pos hfits]
      · cases h
    · cases h

theorem paid_step {i : Nat} (hc : s.calls[i]? = some c) (hpaid : c.phase.paid) :
    ∃ p : Phase, (b.step e s).calls[i]? = some ⟨c.request, p⟩ ∧ p.paid := by
  have hbound : i < s.calls.length := (List.getElem?_eq_some_iff.mp hc).1
  cases e with
  | arrive r => exact ⟨c.phase, by rw [step, List.getElem?_append_left hbound, hc], hpaid⟩
  | advance j helper now =>
    unfold step
    dsimp only
    split
    · exact ⟨c.phase, hc, hpaid⟩
    · rename_i d hd
      by_cases hij : j = i
      · subst hij
        rw [hc] at hd
        cases hd
        refine ⟨_, by rw [List.getElem?_set_self hbound], ?_⟩
        unfold confirmIncoming
        cases hphase : c.phase with
        | record => rfl
        | confirm => rfl
        | returned outcome =>
          rw [hphase] at hpaid
          exact hpaid
        | check => rw [hphase] at hpaid; cases hpaid
        | verify => rw [hphase] at hpaid; cases hpaid
        | credit => rw [hphase] at hpaid; cases hpaid
      · exact ⟨c.phase, by rw [List.getElem?_set_ne hij, hc], hpaid⟩

theorem credits_fresh {events : List BridgeEvent} (hs : b.Exclusive s) (h : Along b.step b.Orderly events s) :
    ((b.credits events s).map Incoming.deposit).Nodup ∧
      ∀ (i : Nat) c, s.calls[i]? = some c → c.phase.paid → ∀ r ∈ b.credits events s, r.deposit ≠ c.request.deposit := by
  induction events generalizing s with
  | nil => exact ⟨List.nodup_nil, fun i c _ _ r hr => absurd hr List.not_mem_nil⟩
  | cons e rest ih =>
    obtain ⟨hnodup, hfresh⟩ := ih (exclusive_step hs h.1) h.2
    have hkept : ∀ (i : Nat) c, s.calls[i]? = some c → c.phase.paid →
        ∀ r ∈ b.credits rest (b.step e s), r.deposit ≠ c.request.deposit := by
      intro i c hc hpaid
      obtain ⟨p, hp, hpaid⟩ := paid_step (b := b) (e := e) hc hpaid
      exact hfresh i ⟨c.request, p⟩ hp hpaid
    cases hcredit : credit e s with
    | none =>
      simp only [credits, hcredit, Option.toList_none, List.nil_append]
      exact ⟨hnodup, hkept⟩
    | some r =>
      obtain ⟨i, helper, now, rfl, hi, hnext⟩ := credit_cases (b := b) hcredit
      have hbound : i < s.calls.length := (List.getElem?_eq_some_iff.mp hi).1
      simp only [credits, hcredit, Option.toList_some, List.singleton_append, List.map_cons, List.nodup_cons,
        List.forall_mem_cons, List.mem_map, not_exists, not_and]
      refine ⟨⟨?_, hnodup⟩, ?_⟩
      · intro q hq
        exact hfresh i ⟨r, .record⟩ (by rw [hnext, List.getElem?_set_self hbound]) rfl q hq
      · intro j c hc hpaid
        refine ⟨?_, hkept j c hc hpaid⟩
        intro hdep
        have hij : i = j := by
          apply hs.alone i j ⟨r, .credit⟩ c hi hc rfl ?_ hdep
          exact Bool.or_eq_true_iff.mpr (.inr hpaid)
        subst hij
        rw [hi] at hc
        cases hc
        cases hpaid

theorem tables_step : (b.step e s).db.tables =
    (credit e s).toList.foldl (fun t r => t.applyBalanceDelta r.recipient r.amount.toRat) s.db.tables := by
  cases e with
  | arrive r => rfl
  | advance i helper now =>
    cases hi : s.calls[i]? with
    | none =>
      simp only [step, credit, hi]
      rfl
    | some c =>
      obtain ⟨r, p⟩ := c
      simp only [step, credit, hi]
      unfold confirmIncoming
      cases p with
      | check =>
        dsimp only
        split <;> rfl
      | verify =>
        dsimp only
        split <;> rfl
      | credit =>
        dsimp only
        split <;> rfl
      | record => rfl
      | confirm => rfl
      | returned outcome => rfl

theorem tables_run (b : RustBridge) (events : List BridgeEvent) (s : BridgeState) :
    (run b.step events s).db.tables =
      (b.credits events s).foldl (fun t r => t.applyBalanceDelta r.recipient r.amount.toRat) s.db.tables := by
  induction events generalizing s with
  | nil => rfl
  | cons e rest ih =>
    rw [credits, List.foldl_append, ← tables_step (b := b)]
    exact ih (b.step e s)

/-- The calls of one deposit made one after the other under one key credit it at most once,
and nothing but what is credited reaches a balance. -/
theorem deposit_credited_once (b : RustBridge) (s : BridgeState) (events : List BridgeEvent) (hs : s.calls = [])
    (h : Along b.step b.Orderly events s) :
    ((b.credits events s).map Incoming.deposit).Nodup ∧
      (run b.step events s).db.tables =
        (b.credits events s).foldl (fun t r => t.applyBalanceDelta r.recipient r.amount.toRat) s.db.tables :=
  ⟨(credits_fresh (exclusive_idle hs) h).1, tables_run b events s⟩

/-! ## Two calls for one deposit -/

def watched : RustBridge :=
  { host := .plain, mode := .rust, isProd := true, ethRpcUrl := "http://l1", bscRpcUrl := "" }

def incoming (fromChain : String) : Incoming :=
  { txHash := "0xdeposit01", recipient := "bob", amount := .float 42, fromChain := fromChain, l1TxHash := "0xdeposit01" }

/-- A call arrives as number `i` and takes `n` steps, the helper agreeing. -/
def callOnce (i n : Nat) (fromChain : String) : List BridgeEvent :=
  .arrive (incoming fromChain) :: List.replicate n (.advance i true 0)

theorem deposit_credited_once_repeated :
    ((watched.credits (callOnce 0 5 "eth" ++ callOnce 1 1 "eth") ⟨.empty, []⟩).map Incoming.deposit).Nodup := by
  have hfirst : ∀ db p, watched.Orderly (.advance 0 true 0) ⟨db, [⟨incoming "eth", p⟩]⟩ := by
    intro db p c _ _ j d hd hj
    cases j with
    | zero => exact absurd rfl hj
    | succ j => cases hd
  have hsecond : ∀ db, watched.Orderly (.advance 1 true 0)
      ⟨db, [⟨incoming "eth", .returned .confirmed⟩, ⟨incoming "eth", .check⟩]⟩ := by
    intro db c hc _ j d hd hj _
    cases hc
    match j, hj with
    | 0, _ =>
      cases hd
      exact ⟨Bool.false_ne_true, fun _ => rfl⟩
    | 1, hj => exact absurd rfl hj
    | j + 2, _ => cases hd
  refine (deposit_credited_once watched ⟨.empty, []⟩ _ rfl ?_).1
  exact ⟨trivial, hfirst _ _, hfirst _ _, hfirst _ _, hfirst _ _, hfirst _ _, trivial, hsecond _, trivial⟩

/-- The bridge normalises "eth" and "ethereum" to one chain elsewhere, and has two keys for them here. -/
theorem deposit_credited_twice : ¬ ∀ (b : RustBridge) (events : List BridgeEvent),
    ((b.credits events ⟨.empty, []⟩).map Incoming.deposit).Nodup := by
  intro h
  have hrun : ((watched.credits (callOnce 0 5 "eth" ++ callOnce 1 5 "ethereum") ⟨.empty, []⟩).map Incoming.deposit) =
      ["0xdeposit01", "0xdeposit01"] := by decide +kernel
  have hnodup := h watched (callOnce 0 5 "eth" ++ callOnce 1 5 "ethereum")
  rw [hrun] at hnodup
  revert hnodup
  decide

/-- Two equal calls that both look before either records. -/
example : (watched.credits ([0, 1].map (fun _ => .arrive (incoming "eth")) ++
    [0, 1, 0, 1, 0, 1].map fun i => .advance i true 0) ⟨.empty, []⟩).length = 2 := by decide +kernel

end RustBridge

end AbsoluteChain
