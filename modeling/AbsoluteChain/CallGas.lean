import AbsoluteChain.Reentrancy

/-!
# Gas of a call tree

What the instructions of an execution cost, in every interpreter it starts. A callee
is paid for when the gas it may use is taken from what its caller has left, and when
the caller is charged for it or stops with it.
-/

namespace AbsoluteChain

open Python Actions Act Transactions Runs

/-! ## One interpreter -/

def chargeCost : Op → Int
  | .log _ => 0
  | op => gasCost op

section interpreter
variable {host : Host} {view : Tables → Callbacks} {hooks : Hooks} {ctx : EvmContext} {code : Bytes}

theorem consumeGas_ok {cost : Int} {m m' : Machine} (h : consumeGas cost m = (.ok (), m')) :
    m' = { m with gasUsed := m.gasUsed + cost } ∧ m'.gasUsed ≤ m.gasLimit := by
  unfold consumeGas at h
  by_cases hl : m.gasLimit < m.gasUsed + cost
  · rw [if_pos hl] at h
    cases h
  · rw [if_neg hl] at h
    obtain ⟨-, rfl⟩ := Prod.mk.inj h
    exact ⟨rfl, not_lt.mp hl⟩

theorem chargeOp_ok {op : Op} {m m' : Machine} (h : chargeOp op m = (.ok (), m')) :
    m' = { m with gasUsed := m.gasUsed + chargeCost op } ∧ (chargeCost op = 0 ∨ m'.gasUsed ≤ m.gasLimit) := by
  cases op with
  | log n =>
    obtain ⟨-, rfl⟩ := Prod.mk.inj h
    exact ⟨by rw [chargeCost, add_zero], .inl rfl⟩
  | _ => exact ⟨(consumeGas_ok h).1, .inr (consumeGas_ok h).2⟩

def Bounded {α : Type} (m : Machine) (cost : Int) : Except Fault α × Vm → Prop
  | (.ok _, s) => m.gasUsed + cost ≤ s.machine.gasUsed
  | (.error _, _) => m.gasUsed ≤ max 0 m.gasLimit → m.gasUsed + cost ≤ max 0 m.gasLimit

theorem Bounded.after {α : Type} {m m' : Machine} {cost rest : Int} {r : Except Fault α × Vm} (h : Bounded m' rest r)
    (hlimit : m'.gasLimit = m.gasLimit) (hcost : m.gasUsed + cost ≤ m'.gasUsed)
    (hwithin : m.gasUsed ≤ max 0 m.gasLimit → m'.gasUsed ≤ max 0 m'.gasLimit) : Bounded m (cost + rest) r := by
  rcases r with ⟨f | a, s⟩
  · intro hm
    have hrest := h (hwithin hm)
    rw [hlimit] at hrest
    omega
  · have hrest : m'.gasUsed + rest ≤ s.machine.gasUsed := h
    change m.gasUsed + (cost + rest) ≤ s.machine.gasUsed
    omega

theorem Bounded.charged {α : Type} {op : Op} {s s' : Vm} {u : Unit} {cost : Int} {r : Except Fault α × Vm}
    (h : Bounded s'.machine cost r) (hc : onMachine (chargeOp op) s = (.ok u, s')) :
    Bounded s.machine (chargeCost op + cost) r := by
  obtain ⟨hm, hused⟩ := chargeOp_ok (onMachine_ok hc).1
  refine h.after (by rw [hm]) (by rw [hm]) ?_
  intro hwithin
  rcases hused with hzero | hfits
  · rw [hm, hzero, add_zero]
    exact hwithin
  · rw [show s'.machine.gasLimit = s.machine.gasLimit by rw [hm]]
    exact le_trans hfits (le_max_right _ _)

theorem loop_bounded {extra : Op × Vm → Int} (fuel : Nat) (s : Vm)
    (hstep : ∀ p ∈ steps host view hooks ctx code fuel s,
      Bounded p.2.machine (extra p) (execOp host view hooks ctx code p.1 p.2)) :
    Bounded s.machine ((steps host view hooks ctx code fuel s).map fun p => chargeCost p.1 + extra p).sum
      (runLoop host view hooks ctx code fuel s) := by
  induction fuel generalizing s with
  | zero =>
    intro h
    simpa [steps] using h
  | succ fuel ih =>
    unfold steps at hstep ⊢
    rw [runLoop_succ]
    cases hb : code[s.machine.pc]? with
    | none => simp [Bounded]
    | some b =>
      rw [hb] at hstep
      dsimp only at hstep ⊢
      rcases hc : onMachine (chargeOp (decode b)) s with ⟨f | u, s₁⟩
      · simp [Bounded]
      · rw [hc] at hstep
        dsimp only at hstep ⊢
        have hfirst := hstep _ List.mem_cons_self
        simp only [List.map_cons, List.sum_cons, add_assoc]
        refine Bounded.charged ?_ hc
        rcases ho : execOp host view hooks ctx code (decode b) s₁ with ⟨f | flow, s₂⟩
        · rw [ho] at hfirst
          intro hm
          simpa using hfirst hm
        · rw [ho] at hfirst hstep
          obtain ⟨hlimit, -, hwithin⟩ := gas_execOp ho
          cases flow with
          | next => exact (ih (s₂.goto _) fun p hp => hstep p (List.mem_cons_of_mem _ hp)).after hlimit hfirst hwithin
          | jump dest => exact (ih (s₂.goto _) fun p hp => hstep p (List.mem_cons_of_mem _ hp)).after hlimit hfirst hwithin
          | halt => simpa [Bounded] using hfirst

/-! ## Rounds -/

/-- Operands cost nothing. -/
theorem inert_gas : InertFrame (Frame.fixed fun m : Machine => (m.gasUsed, m.gasLimit)) := ⟨fun _ _ _ _ _ _ _ _ => rfl⟩

theorem used_of_continues {op : Op} {s s₁ s₂ : Vm} {u : Unit} {flow : Flow} (hc : onMachine (chargeOp op) s = (.ok u, s₁))
    (ho : execOp host view hooks ctx code op s₁ = (.ok flow, s₂)) (hflow : flow ≠ .halt) (hstart : 0 ≤ s.machine.gasUsed) :
    s.machine.gasUsed < s₂.machine.gasUsed ∧ s₂.machine.gasUsed ≤ s.machine.gasLimit ∧
      s₂.machine.gasLimit = s.machine.gasLimit := by
  obtain ⟨hm, hused⟩ := chargeOp_ok (onMachine_ok hc).1
  have hlimit : s₁.machine.gasLimit = s.machine.gasLimit := by rw [hm]
  have hcharged : s₁.machine.gasUsed = s.machine.gasUsed + chargeCost op := by rw [hm]
  obtain ⟨hlimit₂, hgrow, hwithin⟩ := gas_execOp ho
  have hpaid : 0 < chargeCost op → s.machine.gasUsed < s₂.machine.gasUsed ∧ s₂.machine.gasUsed ≤ s.machine.gasLimit ∧
      s₂.machine.gasLimit = s.machine.gasLimit := by
    intro hpos
    have hfits := hused.resolve_left (ne_of_gt hpos)
    have hmost := hwithin (by rw [hlimit]; exact le_trans hfits (le_max_right _ _))
    rw [hlimit₂, hlimit] at hmost
    refine ⟨by omega, by omega, hlimit₂.trans hlimit⟩
  have hhalts : ∀ reverted, onMachine (haltWith host reverted) s₁ = (.ok flow, s₂) → False := by
    intro reverted h
    obtain ⟨offset, _, -, h⟩ := bind_ok.mp (onMachine_ok h).1
    obtain ⟨size, _, -, h⟩ := bind_ok.mp h
    obtain ⟨data, _, -, h⟩ := bind_ok.mp h
    obtain ⟨_, _, -, h⟩ := bind_ok.mp h
    exact hflow (Except.ok.inj (Prod.mk.inj h).1).symm
  cases op with
  | stop => exact absurd (Except.ok.inj (Prod.mk.inj (onMachine_ok ho).1).1).symm hflow
  | «return» => exact (hhalts false ho).elim
  | revert => exact (hhalts true ho).elim
  | log n =>
    obtain ⟨topics, m₁, htopics, h⟩ := bind_ok.mp (onMachine_ok (s := s₁) ho).1
    obtain ⟨size, m₂, hsize, h⟩ := bind_ok.mp h
    obtain ⟨offset, m₃, hoffset, h⟩ := bind_ok.mp h
    obtain ⟨_, m₄, hconsume, h⟩ := bind_ok.mp h
    have hpops : m₃.gasUsed = s₁.machine.gasUsed ∧ m₃.gasLimit = s₁.machine.gasLimit := by
      have h₁ := keeps_apply (keeps_popTopics inert_gas n) htopics
      have h₂ := keeps_apply (keeps_pop inert_gas) hsize
      have h₃ := keeps_apply (keeps_pop inert_gas) hoffset
      exact Prod.mk.inj (h₃.trans (h₂.trans h₁))
    have hrest : (s₂.machine.gasUsed, s₂.machine.gasLimit) = (m₄.gasUsed, m₄.gasLimit) := by
      refine keeps_apply (F := Frame.fixed fun m : Machine => (m.gasUsed, m.gasLimit)) ?_ h
      refine keeps_bind (keeps_memSlice inert_gas _ _) fun data => keeps_bind ?_ fun _ => keeps_pure _
      exact keeps_write fun m => rfl
    obtain ⟨hm₄, hfits⟩ := consumeGas_ok hconsume
    obtain ⟨hused₂, -⟩ := Prod.mk.inj hrest
    have hcost : (0 : Int) < 375 + n * 375 + size := by positivity
    have hzero : chargeCost (.log n) = 0 := rfl
    rw [hm₄] at hused₂ hfits
    dsimp only at hused₂ hfits
    refine ⟨by omega, by omega, hlimit₂.trans hlimit⟩
  | _ => exact hpaid (by simp [chargeCost, gasCost])

theorem rounds_enough (fuel more : Nat) (s : Vm) (hstart : 0 ≤ s.machine.gasUsed)
    (hfuel : (s.machine.gasLimit - s.machine.gasUsed).toNat < fuel) :
    runLoop host view hooks ctx code (fuel + more) s = runLoop host view hooks ctx code fuel s := by
  induction fuel generalizing s with
  | zero => exact absurd hfuel (Nat.not_lt_zero _)
  | succ fuel ih =>
    rw [Nat.add_right_comm, runLoop_succ, runLoop_succ]
    cases code[s.machine.pc]? with
    | none => rfl
    | some b =>
      dsimp only
      rcases hc : onMachine (chargeOp (decode b)) s with ⟨f | u, s₁⟩
      · rfl
      · dsimp only
        rcases ho : execOp host view hooks ctx code (decode b) s₁ with ⟨f | flow, s₂⟩
        · rfl
        · have hnext : flow ≠ .halt → ∀ pc, runLoop host view hooks ctx code (fuel + more) (s₂.goto pc) =
              runLoop host view hooks ctx code fuel (s₂.goto pc) := by
            intro hflow pc
            obtain ⟨hgrow, hwithin, hlimit⟩ := used_of_continues hc ho hflow hstart
            apply ih
            · change 0 ≤ s₂.machine.gasUsed
              omega
            · change (s₂.machine.gasLimit - s₂.machine.gasUsed).toNat < fuel
              omega
          cases flow with
          | next => exact hnext Flow.noConfusion _
          | jump dest => exact hnext Flow.noConfusion _
          | halt => rfl

/-! ## What instructions cost -/

/-- What an instruction costs by itself after the charge of the loop: what `LOG` charges. -/
def extraCost (host : Host) (view : Tables → Callbacks) (ctx : EvmContext) (code : Bytes) (p : Op × Vm) : Int :=
  (machineOp host (view p.2.db.live) ctx code p.1 p.2.machine).2.gasUsed - p.2.machine.gasUsed

theorem effect_extra {p : Op × Vm} (h : effectOp host hooks ctx p.1 ≠ none) : extraCost host view ctx code p = 0 := by
  have hzero : (machineOp host (view p.2.db.live) ctx code p.1 p.2.machine).2 = p.2.machine := by
    obtain ⟨op, s⟩ := p
    cases op <;> first | rfl | exact absurd rfl h
  unfold extraCost
  rw [hzero, sub_self]

theorem own_bounded (p : Op × Vm) :
    Bounded p.2.machine (extraCost host view ctx code p) (execOp host view hooks ctx code p.1 p.2) := by
  have hgas := @gas_execOp host view hooks ctx code p.1 p.2
  cases heffect : effectOp host hooks ctx p.1 with
  | some m =>
    rw [@effect_extra host view hooks ctx code p (by rw [heffect]; exact Option.some_ne_none m)]
    rcases hr : execOp host view hooks ctx code p.1 p.2 with ⟨f | flow, s⟩
    · intro hm
      rw [add_zero]
      exact hm
    · have hgrow : p.2.machine.gasUsed ≤ s.machine.gasUsed := (hgas hr).2.1
      simpa [Bounded] using hgrow
  | none =>
    have hexec : execOp host view hooks ctx code p.1 p.2 =
        onMachine (machineOp host (view p.2.db.live) ctx code p.1) p.2 := by
      unfold execOp
      rw [heffect]
      rfl
    have hwithin := keeps_gas_machineOp host (view p.2.db.live) ctx code p.1 p.2.machine
    rw [hexec, onMachine_run]
    unfold extraCost
    generalize machineOp host (view p.2.db.live) ctx code p.1 p.2.machine = r at hwithin ⊢
    rcases r with ⟨f | flow, m⟩
    · intro hm
      have hmost := hwithin.2.2 hm
      rw [hwithin.1] at hmost
      dsimp only at hmost ⊢
      omega
    · simp [Bounded]

end interpreter

/-! ## The instructions of a call tree -/

namespace EvmAdapter

/-- An instruction that some interpreter of an execution runs: hooks may nest `depth` deep below it. -/
structure Executed where
  depth : Nat
  ctx : EvmContext
  code : Bytes
  op : Op
  vm : Vm

section
variable (e : EvmAdapter)

def Executed.gas (x : Executed) : Int := chargeCost x.op + extraCost e.host e.callbacks x.ctx x.code (x.op, x.vm)

def Executed.hook (x : Executed) : Option HookCall := hookOf e.host x.ctx x.op x.vm.machine

/-- The interpreter that the instruction starts. -/
def Executed.callee (x : Executed) : Option SubFrame := (x.hook e).bind fun h => e.siteFrame ⟨h, x.vm.db⟩

def executed : Nat → SubFrame → Db → List Executed
  | 0, fr, db => (e.frameSteps (e.hooks 0) fr db).map fun p => ⟨0, fr.ctx, fr.code, p.1, p.2⟩
  | depth + 1, fr, db => (e.frameSteps (e.hooks (depth + 1)) fr db).flatMap fun p =>
      let x : Executed := ⟨depth + 1, fr.ctx, fr.code, p.1, p.2⟩
      x :: match x.callee e with
        | none => []
        | some below => executed depth below p.2.db

/-- The cost of all instructions. -/
def totalGas (l : List Executed) : Int := (l.map (Executed.gas e)).sum

/-- The callee is paid for: a call hands it gas, so that it does not fall back on the configured limit, and a
constructor, which always runs on the configured limit, returns within what its creator has left. -/
def Executed.Paid (x : Executed) : Bool :=
  match x.depth, x.hook e, x.callee e with
  | _ + 1, some (.call _ a), some _ => 0 < a.gas
  | depth + 1, some (.create _ _ _ _), some fr =>
    match (e.runFrame (e.hooks depth) fr x.vm.db).1 with
    | .ok m => x.vm.machine.gasUsed + m.gasUsed ≤ x.vm.machine.gasLimit
    | .error _ => false
  | _, _, _ => true

def Entry.executed (db : Db) (entry : Entry) : List Executed :=
  match entry.frame e db.live with
  | .error _ => []
  | .ok fr => e.executed e.host.recursionLimit fr db

end

variable {e : EvmAdapter}

def Pays (gas cost : Int) : Except Fault Machine → Prop
  | .ok m => cost ≤ m.gasUsed
  | .error _ => cost ≤ max 0 gas

section callee
variable {depth : Nat} {ctx : EvmContext} {code : Bytes} {op : Op} {s : Vm} {fr : SubFrame} {cost : Int}

theorem call_bounded {mode : CallMode} {p : CallOperands × CallArgs} {m₁ : Machine} (hm : callMode op = some mode)
    (hp : prepareCall e.host mode s.machine = (.ok p, m₁)) (hfr : e.callFrame s.db.live ctx p.2 = some fr)
    (hgas : 0 < p.2.gas) (hcost : Pays fr.gas cost (e.runFrame (e.hooks depth) fr s.db).1) :
    Bounded s.machine cost (execOp e.host e.callbacks (e.hooks (depth + 1)) ctx code op s) := by
  have hforwarded := (prepareCall_ok hp).1
  obtain ⟨-, hused, hlimit⟩ : m₁.storage = s.machine.storage ∧ m₁.gasUsed = s.machine.gasUsed ∧
      m₁.gasLimit = s.machine.gasLimit := by
    have hkept := keeps_apply (keeps_prepareCall inert_account mode) hp
    simpa only [Frame.fixed, Prod.mk.injEq] using hkept
  have hroom : s.machine.gasUsed + p.2.gas ≤ s.machine.gasLimit := by
    have hle := callGas_le m₁ p.1 mode.delegate mode.static
    rw [← hforwarded] at hle
    unfold remainingGas at hle
    omega
  have hgiven : fr.gas = p.2.gas := by
    obtain ⟨bytecode, -, rfl⟩ := Option.map_eq_some_iff.mp hfr
    exact if_neg (ne_of_gt hgas)
  rcases hrun : e.runFrame (e.hooks depth) fr s.db with ⟨f | m, db₁⟩
  · rw [execOp_raised hm hp hfr hrun]
    rw [hrun, hgiven] at hcost
    have hmost : cost ≤ max 0 p.2.gas := hcost
    intro _
    omega
  · rw [execOp_returned hm hp hfr hrun, onMachine_run]
    rw [hrun] at hcost
    have hmost : cost ≤ m.gasUsed := hcost
    have hwithin := (gas_executeBytecode hrun).2
    rw [hgiven] at hwithin
    have hfits : 0 < min (callOut p.2 m).gasUsed p.2.gas → m₁.gasUsed + min (callOut p.2 m).gasUsed p.2.gas ≤ m₁.gasLimit := by
      intro _
      have hle := min_le_right (callOut p.2 m).gasUsed p.2.gas
      omega
    have hafter := (@finishCall_account e.host p.1 p.2.gas (mode.delegate || mode.callcode) (callOut p.2 m) m₁ hfits).1
    have hcharged : min (callOut p.2 m).gasUsed p.2.gas = m.gasUsed := min_eq_left (by change m.gasUsed ≤ p.2.gas; omega)
    rw [hcharged] at hafter
    rcases hfinish : finishCall e.host p.1 p.2.gas (mode.delegate || mode.callcode) (callOut p.2 m) m₁ with ⟨f | flow, m₂⟩
    · intro _
      omega
    · rw [hfinish] at hafter
      change s.machine.gasUsed + cost ≤ m₂.gasUsed
      dsimp only at hafter
      omega

/-- So does a creation whose constructor returns within what its creator has left. -/
theorem create_bounded {salted : Bool} {a : CreateArgs} {m₁ m : Machine} {db₁ : Db}
    (hop : ∀ s, execOp e.host e.callbacks (e.hooks (depth + 1)) ctx code op s =
      executeCreate e.host (e.hooks (depth + 1)) ctx salted s)
    (hp : prepareCreate e.host salted s.machine = (.ok a, m₁))
    (hfr : e.createFrame s.db.live ctx a.initCode a.value a.salt = some fr)
    (hrun : e.runFrame (e.hooks depth) fr s.db = (.ok m, db₁))
    (hroom : s.machine.gasUsed + m.gasUsed ≤ s.machine.gasLimit) (hcost : cost ≤ m.gasUsed) :
    Bounded s.machine cost (execOp e.host e.callbacks (e.hooks (depth + 1)) ctx code op s) := by
  obtain ⟨-, hused, hlimit⟩ : m₁.storage = s.machine.storage ∧ m₁.gasUsed = s.machine.gasUsed ∧
      m₁.gasLimit = s.machine.gasLimit := by
    have hkept := keeps_apply (keeps_prepareCreate inert_account salted) hp
    simpa only [Frame.fixed, Prod.mk.injEq] using hkept
  have hhook : (e.hooks (depth + 1)).create ctx a.initCode a.value a.salt s.db =
      (.ok (createOut ctx a.initCode a.salt m), (concludeCreate ctx a.initCode a.value a.salt m db₁).2) := by
    refine (contractCreateHook_run (e.hooks depth) ctx a.initCode a.value a.salt s.db).trans ?_
    rw [hfr]
    dsimp only
    rw [hrun]
  have hout : (createOut ctx a.initCode a.salt m).gasUsed = m.gasUsed := by
    unfold createOut
    by_cases hr : m.reverted = true
    · rw [if_pos hr]
      rfl
    · rw [if_neg hr]
  have hcharge : chargeSubcallGas m.gasUsed m₁ = (.ok (), { m₁ with gasUsed := m₁.gasUsed + max 0 m.gasUsed }) :=
    chargeSubcallGas_fits fun _ => by omega
  rw [hop, executeCreate_run hp, hhook]
  dsimp only
  rw [hout, onMachine_run, bind_of_ok hcharge]
  change s.machine.gasUsed + cost ≤ m₁.gasUsed + max 0 m.gasUsed
  omega

theorem callee_bounded (hcallee : (Executed.mk (depth + 1) ctx code op s).callee e = some fr)
    (hpaid : (Executed.mk (depth + 1) ctx code op s).Paid e = true)
    (hcost : Pays fr.gas cost (e.runFrame (e.hooks depth) fr s.db).1) :
    Bounded s.machine cost (execOp e.host e.callbacks (e.hooks (depth + 1)) ctx code op s) := by
  obtain ⟨h, hhook, hframe⟩ := Option.bind_eq_some_iff.mp hcallee
  unfold Executed.Paid at hpaid
  rw [hhook, hcallee] at hpaid
  rcases hookOf_cases hhook with ⟨mode, p, m₁, hm, hp, rfl⟩ | ⟨salted, a, m₁, hop, hp, rfl⟩ | ⟨-, b, rfl⟩
  · exact call_bounded hm hp hframe (of_decide_eq_true hpaid) hcost
  · dsimp only at hpaid
    rcases hrun : e.runFrame (e.hooks depth) fr s.db with ⟨f | m, db₁⟩
    · rw [hrun] at hpaid
      cases hpaid
    · rw [hrun] at hpaid hcost
      exact create_bounded hop hp hframe hrun (of_decide_eq_true hpaid) hcost
  · cases hframe

end callee

theorem callee_effect {x : Executed} {fr : SubFrame} {hooks : Hooks} (h : x.callee e = some fr) :
    effectOp e.host hooks x.ctx x.op ≠ none := by
  obtain ⟨depth, ctx, code, op, s⟩ := x
  obtain ⟨hook, hhook, -⟩ := Option.bind_eq_some_iff.mp h
  cases op <;> first | exact Option.some_ne_none _ | cases hhook

theorem runFrame_pays {hooks : Hooks} {fr : SubFrame} {db : Db} {extra : Op × Vm → Int}
    (hstep : ∀ p ∈ e.frameSteps hooks fr db,
      Bounded p.2.machine (extra p) (execOp e.host e.callbacks hooks fr.ctx fr.code p.1 p.2)) :
    Pays fr.gas ((e.frameSteps hooks fr db).map fun p => chargeCost p.1 + extra p).sum (e.runFrame hooks fr db).1 := by
  have hloop := loop_bounded (fr.gas.toNat + 1) { machine := Machine.start fr.gas fr.storage, db := db } hstep
  unfold runFrame executeBytecode
  rcases hr : runLoop e.host e.callbacks hooks fr.ctx fr.code (fr.gas.toNat + 1)
    { machine := Machine.start fr.gas fr.storage, db := db } with ⟨f | u, s⟩
  · rw [hr] at hloop
    have hmost := hloop (le_max_left 0 fr.gas)
    rw [show (Machine.start fr.gas fr.storage).gasUsed = 0 from rfl, zero_add] at hmost
    exact hmost
  · rw [hr] at hloop
    have hmost : (0 : Int) + _ ≤ s.machine.gasUsed := hloop
    rw [zero_add] at hmost
    exact hmost

theorem totalGas_cons (x : Executed) (l : List Executed) : e.totalGas (x :: l) = x.gas e + e.totalGas l := by
  unfold totalGas
  rw [List.map_cons, List.sum_cons]

theorem totalGas_flatMap {α : Type} (l : List α) (f : α → List Executed) :
    e.totalGas (l.flatMap f) = (l.map fun a => e.totalGas (f a)).sum := by
  induction l with
  | nil => rfl
  | cons a l ih =>
    rw [List.flatMap_cons, List.map_cons, List.sum_cons, ← ih]
    unfold totalGas
    rw [List.map_append, List.sum_append]

theorem frame_pays (depth : Nat) (fr : SubFrame) (db : Db) (hpaid : ∀ x ∈ e.executed depth fr db, x.Paid e = true) :
    Pays fr.gas (e.totalGas (e.executed depth fr db)) (e.runFrame (e.hooks depth) fr db).1 := by
  induction depth generalizing fr db with
  | zero =>
    have hrun := @runFrame_pays e (e.hooks 0) fr db _ fun p _ => own_bounded p
    unfold totalGas executed
    rw [List.map_map]
    exact hrun
  | succ depth ih =>
    have hsplit : e.totalGas (e.executed (depth + 1) fr db) =
        ((e.frameSteps (e.hooks (depth + 1)) fr db).map fun p => chargeCost p.1 +
          (extraCost e.host e.callbacks fr.ctx fr.code p +
            match (Executed.mk (depth + 1) fr.ctx fr.code p.1 p.2).callee e with
            | none => 0
            | some below => e.totalGas (e.executed depth below p.2.db))).sum := by
      rw [executed, totalGas_flatMap]
      refine congrArg List.sum (List.map_congr_left fun p _ => ?_)
      rw [totalGas_cons, Executed.gas, add_assoc]
      cases (Executed.mk (depth + 1) fr.ctx fr.code p.1 p.2).callee e with
      | none => rfl
      | some below => rfl
    rw [hsplit]
    apply runFrame_pays
    intro p hp
    have hown := @own_bounded e.host e.callbacks (e.hooks (depth + 1)) fr.ctx fr.code p
    cases hcallee : (Executed.mk (depth + 1) fr.ctx fr.code p.1 p.2).callee e with
    | none =>
      dsimp only
      rw [add_zero]
      exact hown
    | some below =>
      dsimp only
      have hin : ∀ x, (x = Executed.mk (depth + 1) fr.ctx fr.code p.1 p.2 ∨ x ∈ e.executed depth below p.2.db) →
          x ∈ e.executed (depth + 1) fr db := by
        intro x hx
        rw [executed]
        refine List.mem_flatMap.mpr ⟨p, hp, ?_⟩
        dsimp only
        rw [hcallee]
        exact List.mem_cons.mpr hx
      rw [@effect_extra e.host e.callbacks (e.hooks (depth + 1)) fr.ctx fr.code p (callee_effect hcallee), zero_add]
      exact callee_bounded hcallee (hpaid _ (hin _ (.inl rfl))) (ih below p.2.db fun x hx => hpaid x (hin x (.inr hx)))

def rounds (e : EvmAdapter) (hooks : Hooks) (fr : SubFrame) (db : Db) (n : Nat) : Except Fault Unit × Vm :=
  runLoop e.host e.callbacks hooks fr.ctx fr.code n { machine := Machine.start fr.gas fr.storage, db := db }

def Entry.gasLimit : Entry → Int
  | .call _ _ _ _ gasLimit => gasLimit
  | .deploy _ _ _ gasLimit _ => gasLimit

theorem Entry.frame_gas {entry : Entry} {t : Tables} {fr : SubFrame} (h : entry.frame e t = .ok fr)
    (hgas : 0 < entry.gasLimit) : fr.gas = entry.gasLimit := by
  have hgiven : e.gasOr entry.gasLimit = entry.gasLimit := if_neg (ne_of_gt hgas)
  cases entry with
  | call caller contractAddr calldataHex value gasLimit =>
    unfold Entry.frame at h
    dsimp only at h
    split at h
    · cases h
    · split at h
      · cases h
      · obtain rfl := Except.ok.inj h
        exact hgiven
  | deploy deployer bytecodeHex value gasLimit salt =>
    unfold Entry.frame at h
    dsimp only at h
    split at h
    · cases h
    · split at h
      · cases h
      · split at h
        · cases h
        · obtain rfl := Except.ok.inj h
          exact hgiven

/-- The instructions of an execution cost no more than its gas limit when every callee is paid for. And every
interpreter ends: more rounds than it has gas change nothing. -/
theorem gas_bounds_tree (entry : Entry) (db : Db) (hgas : 0 < entry.gasLimit)
    (hpaid : ∀ x ∈ entry.executed e db, x.Paid e = true) :
    e.totalGas (entry.executed e db) ≤ entry.gasLimit ∧
      ∀ hooks fr db' n, fr.gas.toNat < n → e.rounds hooks fr db' n = e.rounds hooks fr db' (fr.gas.toNat + 1) := by
  constructor
  · unfold Entry.executed at hpaid ⊢
    cases hframe : entry.frame e db.live with
    | error err => exact le_of_lt hgas
    | ok fr =>
      rw [hframe] at hpaid
      have hpays := frame_pays e.host.recursionLimit fr db hpaid
      have hgiven := Entry.frame_gas hframe hgas
      dsimp only
      rcases hrun : e.runFrame (e.hooks e.host.recursionLimit) fr db with ⟨f | m, db₁⟩
      · rw [hrun] at hpays
        have hmost : e.totalGas (e.executed e.host.recursionLimit fr db) ≤ max 0 fr.gas := hpays
        omega
      · rw [hrun] at hpays
        have hmost : e.totalGas (e.executed e.host.recursionLimit fr db) ≤ m.gasUsed := hpays
        have hwithin := (gas_executeBytecode hrun).2
        omega
  · intro hooks fr db' n hn
    obtain ⟨more, rfl⟩ := Nat.exists_eq_add_of_le hn
    exact rounds_enough (fr.gas.toNat + 1) more _ (le_refl 0) (by simp [Machine.start])

/-- One push below a call that hands over gas. -/
theorem gas_bounds_tree_paid :
    plain.totalGas (entryCall.executed plain (revertsAfter [0x5f, 0])) ≤ 100000 :=
  (gas_bounds_tree entryCall (revertsAfter [0x5f, 0]) (by decide) (by decide +kernel)).1

/-- A call that hands over no gas: the callee runs on the configured limit and nobody pays. -/
theorem gas_not_bounded :
    (Entry.call "u" "a" "" 0 721).gasLimit <
      plain.totalGas ((Entry.call "u" "a" "" 0 721).executed plain (contracts [("a", callOf 11), (eleven, [0x5f, 0])])) := by
  decide +kernel

end EvmAdapter

end AbsoluteChain
