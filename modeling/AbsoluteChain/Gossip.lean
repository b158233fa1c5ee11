import AbsoluteChain.HonestValidators

/-!
# Attestations of peers

`_handle_attestation` checks the signature of a message under the key that comes with
it, and hands the validator the message names to the consensus adapter. Nothing says
that the key is the validator's.
-/

namespace AbsoluteChain

open Python JsonText Actions Actions.Act Transactions

structure GossipedAttestation where
  validator : Option String := none
  targetHash : Option String := none
  targetHeight : Option (Json ℚ) := none
  slot : Option (Json ℚ) := none
  signature : Option String := none
  publicKey : Option String := none

namespace GossipedAttestation

variable (host : Host) (a : GossipedAttestation)

def signedHash : Option String :=
  match a.validator, a.targetHash, a.targetHeight, a.slot with
  | some validator, some targetHash, some targetHeight, some slot =>
    some (hashData (host.compactJson (dict [("validator", .str validator), ("target_hash", .str targetHash),
      ("target_height", targetHeight), ("slot", slot)])))
  | _, _, _, _ => none

def verifyAttestation : Option Bool :=
  match a.signature, a.publicKey with
  | some signature, some publicKey =>
    match a.signedHash host, bytesFromHex signature, bytesFromHex publicKey with
    | some hash, some signature, some publicKey => some (host.verify (encode hash) signature publicKey)
    | _, _, _ => none
  | _, _ => some false

def handed (keys : Bool) : Option (String × String) :=
  if keys ∧ a.verifyAttestation host ≠ some true then none
  else
    let validator := a.validator.getD ""
    let blockHash := a.targetHash.getD ""
    if validator = "" ∨ blockHash = "" then none else some (validator, blockHash)

end GossipedAttestation

namespace FullNode

variable (host : Host) (keys : Bool) (now : Int) (a : GossipedAttestation) (n : FullNode)

def handleAttestation : FullNode :=
  match a.handed host keys with
  | none => n
  | some (validator, blockHash) => (attest now validator blockHash n).2

def Authentic (v : String) : Prop :=
  ∃ hash signature publicKey sig pk, a.signedHash host = some hash ∧ a.signature = some signature ∧
    a.publicKey = some publicKey ∧ bytesFromHex signature = some sig ∧ bytesFromHex publicKey = some pk ∧
    host.verify (encode hash) sig pk = true ∧ deriveAddress pk = v

def OwnKey : Prop := ∃ publicKey pk, a.publicKey = some publicKey ∧ bytesFromHex publicKey = some pk ∧
  a.validator = some (deriveAddress pk)

def voice (v : String) : Option (Bool × Option (Dict Int String)) × Option (String × Int) × Option PosValidator :=
  (n.node.slashing.map fun e => (decide (v ∈ e.slashed), e.votes.get? v), n.adapter.board.lmd.latestVote.get? v,
    n.adapter.engine.validators.get? v)

/-- Only an authentic message is passed on, in the name of its signer; any other one changes nothing,
and no message changes what the node holds of anybody else. -/
structure Attributed : Prop where
  passed : ∀ v hash, a.handed host keys = some (v, hash) → Authentic host a v
  silent : n.handleAttestation host keys now a ≠ n → ∃ v, a.validator = some v ∧ Authentic host a v
  others : ∀ v, (n.handleAttestation host keys now a).voice v ≠ n.voice v → Authentic host a v

/-- A message that the checks let through names the address of its key, and where the node has no keys
of its own its signature is good. -/
def Attributable : Prop := (a.handed host keys).isSome = true → OwnKey a ∧ (keys = false → a.verifyAttestation host = some true)

variable {host keys now a n}

theorem handed_validator {v hash : String} (h : a.handed host keys = some (v, hash)) : a.validator = some v := by
  unfold GossipedAttestation.handed at h
  by_cases hkeys : keys = true ∧ a.verifyAttestation host ≠ some true
  · rw [if_pos hkeys] at h
    cases h
  · rw [if_neg hkeys] at h
    dsimp only at h
    by_cases hempty : a.validator.getD "" = "" ∨ a.targetHash.getD "" = ""
    · rw [if_pos hempty] at h
      cases h
    · rw [if_neg hempty] at h
      obtain ⟨hv, -⟩ := Prod.mk.inj (Option.some.inj h)
      cases hval : a.validator with
      | none => exact absurd (.inl (by rw [hval]; rfl)) hempty
      | some w =>
        rw [hval] at hv
        exact congrArg some hv

theorem handed_verified {r : String × String} (h : a.handed host true = some r) : a.verifyAttestation host = some true := by
  unfold GossipedAttestation.handed at h
  by_contra hno
  rw [if_pos ⟨rfl, hno⟩] at h
  cases h

theorem verified_iff : a.verifyAttestation host = some true ↔
    ∃ hash signature publicKey sig pk, a.signedHash host = some hash ∧ a.signature = some signature ∧
      a.publicKey = some publicKey ∧ bytesFromHex signature = some sig ∧ bytesFromHex publicKey = some pk ∧
      host.verify (encode hash) sig pk = true := by
  unfold GossipedAttestation.verifyAttestation
  constructor
  · intro h
    cases hs : a.signature with
    | none =>
      rw [hs] at h
      cases h
    | some signature =>
      cases hp : a.publicKey with
      | none =>
        rw [hs, hp] at h
        cases h
      | some publicKey =>
        rw [hs, hp] at h
        dsimp only at h
        split at h
        · next hash sig pk hhash hsig hpk =>
          exact ⟨hash, signature, publicKey, sig, pk, hhash, rfl, rfl, hsig, hpk, Option.some.inj h⟩
        · cases h
  · rintro ⟨hash, signature, publicKey, sig, pk, hhash, hs, hp, hsig, hpk, hver⟩
    rw [hs, hp]
    dsimp only
    rw [hhash, hsig, hpk]
    exact congrArg some hver

theorem authentic_iff {v : String} (hv : a.validator = some v) :
    Authentic host a v ↔ a.verifyAttestation host = some true ∧ OwnKey a := by
  rw [verified_iff]
  constructor
  · rintro ⟨hash, signature, publicKey, sig, pk, hhash, hs, hp, hsig, hpk, hver, rfl⟩
    exact ⟨⟨hash, signature, publicKey, sig, pk, hhash, hs, hp, hsig, hpk, hver⟩, publicKey, pk, hp, hpk, hv⟩
  · rintro ⟨⟨hash, signature, publicKey, sig, pk, hhash, hs, hp, hsig, hpk, hver⟩, publicKey', pk', hp', hpk', hown⟩
    obtain rfl := Option.some.inj (hp.symm.trans hp')
    obtain rfl := Option.some.inj (hpk.symm.trans hpk')
    exact ⟨hash, signature, publicKey, sig, pk, hhash, hs, hp, hsig, hpk, hver, (Option.some.inj (hv.symm.trans hown)).symm⟩

/-! ## What an attestation touches -/

section
variable {v w hash : String} {slot : Int}

theorem mark_others (e : SlashingEngine) (hne : w ≠ v) (reason : SlashReason) (epoch : Int) :
    (w ∈ (e.mark now v reason epoch).slashed ↔ w ∈ e.slashed) ∧ (e.mark now v reason epoch).votes = e.votes := by
  unfold SlashingEngine.mark
  by_cases hs : v ∈ e.slashed
  · rw [if_pos hs]
    exact ⟨Iff.rfl, rfl⟩
  · rw [if_neg hs]
    exact ⟨by simp [hne], rfl⟩

theorem addVote_others (e : SlashingEngine) (hne : w ≠ v) :
    (w ∈ (e.addVote now v slot hash).2.slashed ↔ w ∈ e.slashed) ∧ (e.addVote now v slot hash).2.votes.get? w = e.votes.get? w := by
  unfold SlashingEngine.addVote SlashingEngine.recordVote
  by_cases hs : v ∈ e.slashed
  · rw [if_pos hs]
    exact ⟨Iff.rfl, rfl⟩
  · rw [if_neg hs, if_neg hs]
    cases (e.votesOf v).get? slot with
    | none => exact ⟨Iff.rfl, Dict.get?_set_of_ne _ hne _⟩
    | some seen =>
      by_cases hseen : seen ≠ hash
      · simp only [if_pos hseen]
        obtain ⟨hmem, hvotes⟩ := @mark_others now v w e hne .doubleVote slot
        exact ⟨hmem, congrArg (fun d => Dict.get? d w) hvotes⟩
      · simp only [if_neg hseen, and_self]

theorem update_others (t : LmdTable) (hne : w ≠ v) : (t.update v hash slot).2.latestVote.get? w = t.latestVote.get? w := by
  unfold LmdTable.update
  by_cases hmem : t.validatorStake.contains v = true
  · rw [if_pos hmem]
    cases t.latestVote.get? v with
    | none => exact Dict.get?_set_of_ne _ hne _
    | some current =>
      by_cases hnew : current.2 < slot
      · simp only [if_pos hnew]
        exact Dict.get?_set_of_ne _ hne _
      · simp only [if_neg hnew]
  · rw [if_neg hmem]

theorem onAttestation_others (s : ConsensusEngineSlashing) (hne : w ≠ v) :
    (s.onAttestation now v hash slot).2.board.lmd.latestVote.get? w = s.board.lmd.latestVote.get? w := by
  unfold ConsensusEngineSlashing.onAttestation
  by_cases hr : (s.slashing.addVote now v slot hash).1 = true
  · rw [if_pos hr]
    show (s.tally v hash slot _).lmd.latestVote.get? w = _
    unfold ConsensusEngineSlashing.tally
    split
    · exact update_others _ hne
    · rfl
  · rw [if_neg hr]

theorem engine_others (e : ConsensusEngine) (hne : w ≠ v) : (e.attest v slot).2.validators.get? w = e.validators.get? w := by
  unfold ConsensusEngine.attest
  cases e.validators.get? v with
  | none => rfl
  | some row =>
    by_cases hactive : row.isActive = true
    · simp only [if_pos hactive]
      exact Dict.get?_set_of_ne _ hne _
    · simp only [if_neg hactive]

end

/-- An attestation changes nothing of the others. -/
theorem voice_attest {v w hash : String} (hne : w ≠ v) (n : FullNode) : (attest now v hash n).2.voice w = n.voice w := by
  have hslashing : ∀ slot, (attestSlashing now v hash slot n).2.voice w = n.voice w := by
    intro slot
    unfold voice
    rw [attestSlashing_slashing]
    have hengine : (attestSlashing now v hash slot n).2.adapter.engine = n.adapter.engine ∧
        (attestSlashing now v hash slot n).2.adapter.board.lmd.latestVote.get? w = n.adapter.board.lmd.latestVote.get? w := by
      unfold attestSlashing
      simp only [bind_run, read_run]
      cases hs : n.slashingEngine with
      | none => exact ⟨rfl, rfl⟩
      | some s =>
        have hboard : s.board = n.adapter.board := by
          unfold slashingEngine at hs
          obtain ⟨e, -, rfl⟩ := Option.map_eq_some_iff.mp hs
          rfl
        simp only [bind_run, write_run]
        rw [← hboard]
        have hothers := @onAttestation_others now _ _ hash slot s hne
        split
        · exact ⟨rfl, hothers⟩
        · exact ⟨rfl, hothers⟩
    rw [hengine.1, hengine.2]
    cases n.node.slashing with
    | none => rfl
    | some e =>
      obtain ⟨hmem, hvotes⟩ := @addVote_others now _ _ hash slot e hne
      simp only [Option.map_some, hvotes, hmem]
  unfold attest
  simp only [bind_run, read_run]
  have hs := hslashing n.adapter.engine.currentSlot
  rcases hrun : attestSlashing now v hash n.adapter.engine.currentSlot n with ⟨f | ok, m⟩
  · rw [hrun] at hs
    exact hs
  · rw [hrun] at hs
    cases ok with
    | false => exact hs
    | true =>
      have hengine := @engine_others v _ n.adapter.engine.currentSlot m.adapter.engine hne
      refine Eq.trans ?_ hs
      unfold voice
      simp only [if_true, bind_run, read_run, write_run]
      exact congrArg (fun row => (_, _, row)) hengine

/-- Messages are passed on, and change the node, in the name of their signer only, exactly when those
that pass the checks come with the key of the validator they name. -/
theorem attestations_authentic (host : Host) (keys : Bool) (now : Int) (a : GossipedAttestation) (n : FullNode) :
    Attributed host keys now a n ↔ Attributable host keys a := by
  constructor
  · intro h hpass
    obtain ⟨⟨v, hash⟩, hr⟩ := Option.isSome_iff_exists.mp hpass
    obtain ⟨hver, hown⟩ := (authentic_iff (handed_validator hr)).mp (h.passed v hash hr)
    exact ⟨hown, fun _ => hver⟩
  · intro h
    have hpassed : ∀ v hash, a.handed host keys = some (v, hash) → Authentic host a v := by
      intro v hash hr
      obtain ⟨hown, hver⟩ := h (by rw [hr]; rfl)
      refine (authentic_iff (handed_validator hr)).mpr ⟨?_, hown⟩
      cases keys with
      | true => exact handed_verified hr
      | false => exact hver rfl
    refine { passed := hpassed, silent := ?_, others := ?_ }
    · intro hchanged
      cases hr : a.handed host keys with
      | none =>
        unfold handleAttestation at hchanged
        rw [hr] at hchanged
        exact absurd rfl hchanged
      | some r => exact ⟨r.1, handed_validator hr, hpassed r.1 r.2 hr⟩
    · intro w hchanged
      cases hr : a.handed host keys with
      | none =>
        unfold handleAttestation at hchanged
        rw [hr] at hchanged
        exact absurd rfl hchanged
      | some r =>
        by_cases hw : w = r.1
        · rw [hw]
          exact hpassed r.1 r.2 hr
        · unfold handleAttestation at hchanged
          rw [hr] at hchanged
          exact absurd (voice_attest hw n) hchanged

/-! ### A forged double vote -/

def outsider : Host := { Host.plain with verify := fun _ sig pk => sig = [1] ∧ pk = [7] }

def forged (blockHash : String) : GossipedAttestation :=
  { validator := some "v", targetHash := some blockHash, targetHeight := some (.int 1), slot := some (.int 0),
    signature := some "01", publicKey := some "07" }

theorem forged_not_authentic (blockHash : String) : ¬ Authentic outsider (forged blockHash) "v" := by
  rintro ⟨-, -, -, -, pk, -, -, -, -, -, -, hv⟩
  have hlen := congrArg String.length hv
  unfold deriveAddress at hlen
  rw [String.length_append] at hlen
  exact absurd hlen (by rw [show "v".length = 1 from rfl, show "0x".length = 2 from rfl]; omega)

/-- Two messages of the outsider pass, and slash the validator. -/
theorem forged_votes_slash :
    (forged "x").handed outsider true = some ("v", "x") ∧ (forged "y").handed outsider true = some ("v", "y") ∧
    ¬ Attributed outsider true 2 (forged "x") solo ∧ "v" ∉ slashedIn solo ∧
    "v" ∈ slashedIn (handleAttestation outsider true 2 (forged "y") (handleAttestation outsider true 2 (forged "x") solo)) := by
  have hx : (forged "x").handed outsider true = some ("v", "x") := by decide +kernel
  refine ⟨hx, by decide +kernel, fun h => ?_, by decide +kernel, by decide +kernel⟩
  exact forged_not_authentic "x" (h.passed "v" "x" hx)

end FullNode

end AbsoluteChain
