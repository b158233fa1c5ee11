import AbsoluteChain.OffBlock
import AbsoluteChain.Runs
import AbsoluteChain.Supply

/-!
# Lightning channels

The coins of `features/lightning.py`: what is on accounts and in open channels, over any
sequence of openings, payments and closings by one node.
-/

namespace AbsoluteChain

open Python KeyedTable Runs

inductive ChannelCall where
  | openChannel (peerAddress : String) (capacity clock : ℚ) (now : Int)
  | sendPayment (id toNode : String) (amount clock : ℚ)
  | closeChannel (id : String)
  deriving DecidableEq

namespace Features

variable (f : Features)

def stepChannel : ChannelCall → Holdings → Holdings
  | .openChannel peerAddress capacity clock now, s => (f.openChannel peerAddress capacity clock now s).2
  | .sendPayment id toNode amount clock, s => (f.sendPayment id toNode amount clock s).2
  | .closeChannel id, s => (closeChannel id s).2

def FreshChannel : ChannelCall → Holdings → Prop
  | .openChannel peerAddress capacity clock now, s =>
    ∀ id, (f.openChannel peerAddress capacity clock now s).1 = some id → s.memory.channels.get? id = none
  | _, _ => True

def feeOf : ChannelCall → Holdings → ℚ
  | .sendPayment id toNode amount clock, s =>
    match (f.sendPayment id toNode amount clock s).1, s.memory.channels.get? id with
    | some _, some ch => amount * ch.feeRate
    | _, _ => 0
  | _, _ => 0

def feesOf : List ChannelCall → Holdings → ℚ
  | [], _ => 0
  | e :: rest, s => f.feeOf e s + feesOf rest (f.stepChannel e s)

def payouts (id : String) : List ChannelCall → Holdings → Nat
  | [], _ => 0
  | e :: rest, s =>
    (if e = .closeChannel id ∧ (closeChannel id s).1 = true then 1 else 0) + payouts id rest (f.stepChannel e s)

end Features

def LightningChannel.funds (ch : LightningChannel) : ℚ := if ch.status = .open then ch.balance1 + ch.balance2 else 0

namespace Holdings

def wealth (s : Holdings) : ℚ := s.tables.getTotalSupply + s.memory.channels.sum LightningChannel.funds

/-- No channel owes anything. -/
def Covered (s : Holdings) : Prop :=
  ∀ id ch, s.memory.channels.get? id = some ch → 0 ≤ ch.balance1 ∧ 0 ≤ ch.balance2

/-- Nor does an account, and sums are exact. -/
structure Funded (s : Holdings) : Prop where
  exact : s.real = id
  solvent : s.tables.Solvent
  covered : s.Covered

end Holdings

namespace Features

variable {f : Features} {s : Holdings}

/-! ## The three calls -/

theorem covered_save {id : String} {ch : LightningChannel} {s₀ : Holdings} (h : s.Covered) (hs : s₀.memory = s.memory)
    (hch : 0 ≤ ch.balance1 ∧ 0 ≤ ch.balance2) : (s₀.saveChannel id ch).Covered := by
  intro j ch' hget
  change (s₀.memory.channels.put id ch).get? j = some ch' at hget
  rw [hs, Table.get_put] at hget
  by_cases hj : j = id
  · rw [if_pos hj] at hget
    obtain rfl := Option.some.inj hget
    exact hch
  · rw [if_neg hj] at hget
    exact h j ch' hget

theorem wealth_save (id : String) (ch : LightningChannel) (s₀ : Holdings) :
    (s₀.saveChannel id ch).wealth =
      s₀.wealth + ch.funds - (s₀.memory.channels.get? id).elim 0 LightningChannel.funds := by
  unfold Holdings.wealth
  show s₀.tables.getTotalSupply + (s₀.memory.channels.put id ch).sum LightningChannel.funds = _
  rw [Table.sum_put]
  ring

theorem wealth_updateBalance (hexact : s.real = id) {address : String} {delta : ℚ}
    (h : 0 ≤ s.tables.getBalance address + delta) : (s.updateBalance address delta).wealth = s.wealth + delta := by
  unfold Holdings.wealth
  show (s.tables.applyRealDelta s.real address delta).getTotalSupply + _ = _
  rw [hexact, Tables.supply_applyRealDelta, Tables.gained_exact h rfl]
  show _ + s.memory.channels.sum LightningChannel.funds = _
  ring

theorem open_kept (h : s.Funded) {peerAddress : String} {capacity clock : ℚ} {now : Int}
    (hfresh : f.FreshChannel (.openChannel peerAddress capacity clock now) s) :
    (f.openChannel peerAddress capacity clock now s).2.Funded ∧
      (f.openChannel peerAddress capacity clock now s).2.wealth = s.wealth := by
  unfold FreshChannel at hfresh
  dsimp only at hfresh
  unfold openChannel at hfresh ⊢
  by_cases hrange : capacity < minChannel ∨ maxChannel < capacity
  · rw [if_pos hrange]
    exact ⟨h, rfl⟩
  · rw [if_neg hrange] at hfresh ⊢
    by_cases hpoor : s.tables.getBalance f.nodeAddress < capacity
    · rw [if_pos hpoor]
      exact ⟨h, rfl⟩
    · rw [if_neg hpoor] at hfresh ⊢
      have hnew := hfresh _ rfl
      have hcapacity : 0 ≤ capacity := by
        have hmin : minChannel ≤ capacity := not_lt.mp fun hlt => hrange (.inl hlt)
        unfold minChannel at hmin
        linarith
      have hfits : 0 ≤ s.tables.getBalance f.nodeAddress + -capacity := by
        have hrich := not_lt.mp hpoor
        linarith
      refine ⟨⟨h.exact, h.solvent.applyRealDelta _ _, covered_save h.covered rfl ⟨hcapacity, le_refl _⟩⟩, ?_⟩
      dsimp only
      rw [wealth_save, wealth_updateBalance h.exact hfits]
      show _ + LightningChannel.funds _ - (s.memory.channels.get? _).elim 0 LightningChannel.funds = _
      rw [hnew]
      show s.wealth + -capacity + (capacity + 0) - 0 = s.wealth
      ring

theorem pay_ok {ch ch' : LightningChannel} {toNode : String} {amount : ℚ} (h : f.pay ch toNode amount = some ch')
    (hamount : 0 < amount) (hch : 0 ≤ ch.balance1 ∧ 0 ≤ ch.balance2) :
    (0 ≤ ch'.balance1 ∧ 0 ≤ ch'.balance2) ∧ ch'.status = ch.status ∧
      ch'.balance1 + ch'.balance2 = ch.balance1 + ch.balance2 - amount * ch.feeRate := by
  unfold pay at h
  dsimp only at h
  by_cases hfirst : f.nodeAddress = ch.node1
  · rw [if_pos hfirst] at h
    by_cases hto : toNode ≠ ch.node2
    · rw [if_pos hto] at h
      cases h
    · rw [if_neg hto] at h
      by_cases hpoor : ch.balance1 < amount + amount * ch.feeRate
      · rw [if_pos hpoor] at h
        cases h
      · rw [if_neg hpoor] at h
        obtain rfl := Option.some.inj h
        have hrich := not_lt.mp hpoor
        refine ⟨⟨?_, ?_⟩, rfl, ?_⟩
        · show 0 ≤ ch.balance1 - (amount + amount * ch.feeRate)
          linarith
        · show 0 ≤ ch.balance2 + amount
          linarith [hch.2]
        · show ch.balance1 - (amount + amount * ch.feeRate) + (ch.balance2 + amount) = _
          ring
  · rw [if_neg hfirst] at h
    by_cases hsecond : f.nodeAddress = ch.node2
    · rw [if_pos hsecond] at h
      by_cases hto : toNode ≠ ch.node1
      · rw [if_pos hto] at h
        cases h
      · rw [if_neg hto] at h
        by_cases hpoor : ch.balance2 < amount + amount * ch.feeRate
        · rw [if_pos hpoor] at h
          cases h
        · rw [if_neg hpoor] at h
          obtain rfl := Option.some.inj h
          have hrich := not_lt.mp hpoor
          refine ⟨⟨?_, ?_⟩, rfl, ?_⟩
          · show 0 ≤ ch.balance1 + amount
            linarith [hch.1]
          · show 0 ≤ ch.balance2 - (amount + amount * ch.feeRate)
            linarith
          · show ch.balance1 + amount + (ch.balance2 - (amount + amount * ch.feeRate)) = _
            ring
    · rw [if_neg hsecond] at h
      cases h

theorem sendPayment_cases (id toNode : String) (amount clock : ℚ) (s : Holdings) :
    f.sendPayment id toNode amount clock s = (none, s) ∨
    ∃ pid ch ch', 0 < amount ∧ s.memory.channels.get? id = some ch ∧ ch.status = .open ∧ f.pay ch toNode amount = some ch' ∧
      f.sendPayment id toNode amount clock s = (some pid, s.saveChannel id ch') := by
  unfold sendPayment
  by_cases hamount : amount ≤ 0
  · rw [if_pos hamount]
    exact .inl rfl
  · rw [if_neg hamount]
    cases hget : s.memory.channels.get? id with
    | none => exact .inl rfl
    | some ch =>
      dsimp only
      by_cases hopen : ch.status = .open
      · rw [if_neg (not_not.mpr hopen)]
        cases hpay : f.pay ch toNode amount with
        | none => exact .inl rfl
        | some ch' => exact .inr ⟨_, ch, ch', not_le.mp hamount, rfl, hopen, hpay, rfl⟩
      · rw [if_pos hopen]
        exact .inl rfl

theorem pay_kept (h : s.Funded) (id toNode : String) (amount clock : ℚ) :
    (f.sendPayment id toNode amount clock s).2.Funded ∧
      (f.sendPayment id toNode amount clock s).2.wealth = s.wealth - f.feeOf (.sendPayment id toNode amount clock) s := by
  unfold feeOf
  dsimp only
  rcases @sendPayment_cases f id toNode amount clock s with hr | ⟨pid, ch, ch', hamount, hget, hopen, hpay, hr⟩
  · rw [hr]
    exact ⟨h, (sub_zero _).symm⟩
  · obtain ⟨hch, hstatus, hsum⟩ := pay_ok hpay hamount (h.covered _ _ hget)
    rw [hr]
    refine ⟨⟨h.exact, h.solvent, covered_save h.covered rfl hch⟩, ?_⟩
    rw [wealth_save, hget]
    dsimp only [Option.elim_some]
    unfold LightningChannel.funds
    rw [hstatus, if_pos hopen, if_pos hopen, hsum]
    ring

theorem closeChannel_cases (id : String) (s : Holdings) :
    closeChannel id s = (false, s) ∨
    ∃ ch, s.memory.channels.get? id = some ch ∧ ch.status = .open ∧
      closeChannel id s =
        (true, ((s.updateBalance ch.node1 ch.balance1).updateBalance ch.node2 ch.balance2).saveChannel id
          { ch with status := .closed }) := by
  unfold closeChannel
  cases hget : s.memory.channels.get? id with
  | none => exact .inl rfl
  | some ch =>
    dsimp only
    by_cases hopen : ch.status = .open
    · rw [if_neg (not_not.mpr hopen)]
      exact .inr ⟨ch, rfl, hopen, rfl⟩
    · rw [if_pos hopen]
      exact .inl rfl

theorem close_kept (h : s.Funded) (id : String) :
    (closeChannel id s).2.Funded ∧ (closeChannel id s).2.wealth = s.wealth := by
  rcases closeChannel_cases id s with hr | ⟨ch, hget, hopen, hr⟩
  · rw [hr]
    exact ⟨h, rfl⟩
  · obtain ⟨hfirst, hsecond⟩ := h.covered _ _ hget
    have hmid := @Tables.Solvent.applyRealDelta s.real _ h.solvent ch.node1 ch.balance1
    have hfits₁ : 0 ≤ s.tables.getBalance ch.node1 + ch.balance1 := add_nonneg (h.solvent _) hfirst
    have hfits₂ : 0 ≤ (s.updateBalance ch.node1 ch.balance1).tables.getBalance ch.node2 + ch.balance2 :=
      add_nonneg (hmid _) hsecond
    rw [hr]
    refine ⟨⟨h.exact, hmid.applyRealDelta _ _, covered_save h.covered rfl ⟨hfirst, hsecond⟩⟩, ?_⟩
    rw [wealth_save, wealth_updateBalance (s := s.updateBalance ch.node1 ch.balance1) h.exact hfits₂, wealth_updateBalance h.exact hfits₁]
    show _ + LightningChannel.funds _ - (s.memory.channels.get? id).elim 0 LightningChannel.funds = _
    rw [hget]
    dsimp only [Option.elim_some]
    unfold LightningChannel.funds
    have hclosed : ChannelStatus.closed ≠ .open := by decide
    rw [if_pos hopen, if_neg hclosed]
    ring

theorem channel_kept (e : ChannelCall) (h : s.Funded) (hfresh : f.FreshChannel e s) :
    (f.stepChannel e s).Funded ∧ (f.stepChannel e s).wealth = s.wealth - f.feeOf e s := by
  cases e with
  | openChannel peerAddress capacity clock now =>
    obtain ⟨hfunded, hwealth⟩ := open_kept h hfresh
    exact ⟨hfunded, hwealth.trans (sub_zero _).symm⟩
  | sendPayment id toNode amount clock => exact pay_kept h id toNode amount clock
  | closeChannel id =>
    obtain ⟨hfunded, hwealth⟩ := close_kept h id
    exact ⟨hfunded, hwealth.trans (sub_zero _).symm⟩

/-! ## Payouts -/

def Closed (id : String) (s : Holdings) : Prop := ∃ ch, s.memory.channels.get? id = some ch ∧ ch.status = .closed

theorem closed_save {id j : String} {ch : LightningChannel} {s₀ : Holdings} (h : Closed id s) (hs : s₀.memory = s.memory)
    (hj : j ≠ id) : Closed id (s₀.saveChannel j ch) := by
  obtain ⟨ch₀, hget, hstatus⟩ := h
  refine ⟨ch₀, ?_, hstatus⟩
  show (s₀.memory.channels.put j ch).get? id = some ch₀
  rw [Table.get_put_ne _ (Ne.symm hj), hs]
  exact hget

theorem closed_kept {id : String} (e : ChannelCall) (h : Closed id s) (hfresh : f.FreshChannel e s) :
    Closed id (f.stepChannel e s) ∧ ¬ (e = .closeChannel id ∧ (closeChannel id s).1 = true) := by
  obtain ⟨ch₀, hget₀, hstatus₀⟩ := h
  have hnotOpen : ∀ {j ch}, s.memory.channels.get? j = some ch → ch.status = .open → j ≠ id := by
    rintro j ch hget hopen rfl
    obtain rfl := Option.some.inj (hget₀.symm.trans hget)
    rw [hstatus₀] at hopen
    cases hopen
  cases e with
  | openChannel peerAddress capacity clock now =>
    refine ⟨?_, fun h => nomatch h.1⟩
    unfold FreshChannel openChannel at hfresh
    unfold stepChannel openChannel
    dsimp only at hfresh ⊢
    split
    · exact ⟨ch₀, hget₀, hstatus₀⟩
    · rename_i hrange
      rw [if_neg hrange] at hfresh
      split
      · exact ⟨ch₀, hget₀, hstatus₀⟩
      · rename_i hpoor
        rw [if_neg hpoor] at hfresh
        refine closed_save ⟨ch₀, hget₀, hstatus₀⟩ rfl fun hid => ?_
        have hnew := hfresh _ rfl
        rw [hid, hget₀] at hnew
        cases hnew
  | sendPayment j toNode amount clock =>
    refine ⟨?_, fun h => nomatch h.1⟩
    unfold stepChannel
    dsimp only
    rcases @sendPayment_cases f j toNode amount clock s with hr | ⟨pid, ch, ch', -, hget, hopen, -, hr⟩
    · rw [hr]
      exact ⟨ch₀, hget₀, hstatus₀⟩
    · rw [hr]
      exact closed_save ⟨ch₀, hget₀, hstatus₀⟩ rfl (hnotOpen hget hopen)
  | closeChannel j =>
    unfold stepChannel
    dsimp only
    rcases closeChannel_cases j s with hr | ⟨ch, hget, hopen, hr⟩
    · refine ⟨by rw [hr]; exact ⟨ch₀, hget₀, hstatus₀⟩, ?_⟩
      rintro ⟨heq, htrue⟩
      obtain rfl := ChannelCall.closeChannel.inj heq
      rw [hr] at htrue
      cases htrue
    · refine ⟨by rw [hr]; exact closed_save ⟨ch₀, hget₀, hstatus₀⟩ rfl (hnotOpen hget hopen), ?_⟩
      rintro ⟨heq, -⟩
      exact hnotOpen hget hopen (ChannelCall.closeChannel.inj heq)

theorem payouts_closed {id : String} {calls : List ChannelCall} (h : Closed id s)
    (hfresh : Along f.stepChannel f.FreshChannel calls s) : f.payouts id calls s = 0 := by
  induction calls generalizing s with
  | nil => rfl
  | cons e rest ih =>
    obtain ⟨hnext, hnot⟩ := closed_kept e h hfresh.1
    unfold payouts
    rw [if_neg hnot, ih hnext hfresh.2]

theorem payouts_once {id : String} {calls : List ChannelCall} (hfresh : Along f.stepChannel f.FreshChannel calls s) :
    f.payouts id calls s ≤ 1 := by
  induction calls generalizing s with
  | nil => exact Nat.zero_le _
  | cons e rest ih =>
    unfold payouts
    by_cases hpaid : e = .closeChannel id ∧ (closeChannel id s).1 = true
    · obtain ⟨rfl, htrue⟩ := hpaid
      have hclosed : Closed id (f.stepChannel (.closeChannel id) s) := by
        show Closed id (closeChannel id s).2
        rcases closeChannel_cases id s with hr | ⟨ch, -, -, hr⟩
        · rw [hr] at htrue
          cases htrue
        · rw [hr]
          exact ⟨_, Table.get_put_same _ _ _, rfl⟩
      rw [if_pos ⟨rfl, htrue⟩, payouts_closed hclosed hfresh.2]
    · rw [if_neg hpaid, zero_add]
      exact ih hfresh.2

/-! ## Runs -/

theorem wealth_run {calls : List ChannelCall} (h : s.Funded) (hfresh : Along f.stepChannel f.FreshChannel calls s) :
    (run f.stepChannel calls s).wealth = s.wealth - f.feesOf calls s := by
  induction calls generalizing s with
  | nil => exact (sub_zero _).symm
  | cons e rest ih =>
    obtain ⟨hfunded, hwealth⟩ := channel_kept e h hfresh.1
    refine (ih hfunded hfresh.2).trans ?_
    rw [hwealth]
    exact sub_sub _ _ _

/-- Over any calls with fresh ids no channel is overdrawn, nothing but the fees is lost, and no channel is
paid out twice. -/
theorem channels_conserve {calls : List ChannelCall} (h : s.Funded)
    (hfresh : Along f.stepChannel f.FreshChannel calls s) :
    Always f.stepChannel Holdings.Covered calls s ∧
      (run f.stepChannel calls s).wealth = s.wealth - f.feesOf calls s ∧ ∀ id, f.payouts id calls s ≤ 1 := by
  have hstep : ∀ e t, t.Funded → f.FreshChannel e t → (f.stepChannel e t).Funded := fun e t ht hc =>
    (channel_kept e ht hc).1
  have hall := always_of_along hstep h hfresh
  exact ⟨hall.imp fun _ hs => hs.covered, wealth_run h hfresh, fun id => payouts_once hfresh⟩

def payer : Features := { host := .plain, nodeAddress := "v", bridge := BridgeNode.sampleNode }

def payerHoldings : Holdings :=
  { tables := Tables.empty.applyBalanceDelta "v" 100
    ledgers := .empty
    memory := { channels := .empty, deposits := [], exitRequests := .empty, blocks := [], pendingTxs := [], wills := .empty } }

def payerCalls : List ChannelCall :=
  let id := payer.shortId ["v", "p", payer.host.strNum (.float 10)] 0
  [.openChannel "p" 10 0 3, .sendPayment id "p" 2 1, .closeChannel id]

theorem payerHoldings_funded : payerHoldings.Funded where
  exact := rfl
  solvent := Tables.Solvent.applyBalanceDelta (fun _ => le_refl _) "v" 100
  covered := fun _ _ h => nomatch h

theorem payerCalls_fresh : Along payer.stepChannel payer.FreshChannel payerCalls payerHoldings :=
  ⟨fun _ _ => rfl, trivial, trivial, trivial⟩

theorem payer_conserves :
    payerHoldings.Funded ∧ Along payer.stepChannel payer.FreshChannel payerCalls payerHoldings ∧
      (run payer.stepChannel payerCalls payerHoldings).wealth =
        payerHoldings.wealth - payer.feesOf payerCalls payerHoldings ∧
      Always payer.stepChannel Holdings.Covered payerCalls payerHoldings :=
  have hrun := channels_conserve payerHoldings_funded payerCalls_fresh
  ⟨payerHoldings_funded, payerCalls_fresh, hrun.2.1, hrun.1⟩

end Features

end AbsoluteChain
