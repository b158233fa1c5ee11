import AbsoluteChain.Commitment
import AbsoluteChain.Linkage
import AbsoluteChain.Supply

/-!
# State roots

What the state root of a block commits to, and what becomes of the accounts between
the moment it is computed and the moment the block is stored.
-/

namespace AbsoluteChain

open Python JsonText Actions Act Transactions KeyedTable

/-! ## The hashed rows -/

structure AccountDigest where
  balance : ℚ
  nonce : Nat
  code : String
  storage : String

def Account.digest (a : Account) : AccountDigest :=
  { balance := roundTo 12 a.balance, nonce := a.nonce,
    code := if a.code.getD "" = "" then "" else hashData (a.code.getD ""),
    storage := hashData (Blockchain.storageText (a.storage.getD [])) }

def Tables.digest (t : Tables) : Table String AccountDigest := t.accounts.map Account.digest

namespace Blockchain

variable {c : Blockchain} {now : Int}

def rootPreimage (c : Blockchain) (t : Tables) : Bytes := encode (c.host.compactJson (accountsJson t))

theorem computeStateRoot_chars (t : Tables) : c.computeStateRoot t = sha256Hex
    ((render (compact escapeAscii c.host.floatRepr) (accountsJson t).sortKeys).flatMap String.utf8EncodeChar) := by
  unfold computeStateRoot hashData Host.compactJson dumps
  rw [encode_ofList]

theorem computeStateRoot_congr {t u : Tables} (h : u.accounts = t.accounts) :
    c.computeStateRoot u = c.computeStateRoot t := by
  unfold computeStateRoot accountsJson
  rw [h]

def digestRow (e : String × AccountDigest) : Json ℚ :=
  dict [("a", .str e.1), ("b", .float e.2.balance), ("n", .int e.2.nonce), ("c", .str e.2.code), ("s", .str e.2.storage)]

theorem accountsJson_digest (t : Tables) : accountsJson t = list (t.digest.rows.map digestRow) := by
  unfold accountsJson Tables.digest Table.map
  rw [List.map_map]
  rfl

theorem digestRow_inj {x y : String × AccountDigest} (h : (digestRow x).sortKeys = (digestRow y).sortKeys) : x = y := by
  have hv := sortKeys_dict (by rfl) h
  simp only [List.map_cons, List.map_nil, Json.sortKeys, List.cons.injEq, Json.str.injEq, Json.int.injEq,
    Json.float.injEq, Nat.cast_inj, and_true] at hv
  obtain ⟨x₁, ⟨xb, xn, xc, xs⟩⟩ := x
  obtain ⟨y₁, ⟨yb, yn, yc, ys⟩⟩ := y
  obtain ⟨h₁, h₂, h₃, h₄, h₅⟩ := hv
  simp only at h₁ h₂ h₃ h₄ h₅
  rw [h₁, h₂, h₃, h₄, h₅]

theorem digestRows_inj {l m : List (String × AccountDigest)}
    (h : (l.map digestRow).map Json.sortKeys = (m.map digestRow).map Json.sortKeys) : l = m := by
  have hid := map_eq_of_sortKeys (g := id) (fun _ _ => digestRow_inj) h
  rwa [List.map_id, List.map_id] at hid

theorem computeStateRoot_commits (hF : FloatText c.host.floatRepr) {t u : Tables}
    (hc : NoCollision (c.rootPreimage t) (c.rootPreimage u)) :
    c.computeStateRoot t = c.computeStateRoot u ↔ t.digest = u.digest := by
  constructor
  · intro h
    have htext : c.host.compactJson (accountsJson t) = c.host.compactJson (accountsJson u) := encode_inj (hc h)
    have hsorted := dumps_inj (lawful_compact escapes_ascii hF) htext
    rw [accountsJson_digest, accountsJson_digest] at hsorted
    exact Table.ext_rows (digestRows_inj (sortKeys_list hsorted))
  · intro h
    unfold computeStateRoot
    rw [accountsJson_digest, accountsJson_digest, h]

/-! ## The second credit of what is burned -/

theorem digest_get_applyBalanceDelta (a : String) (delta : ℚ) (t : Tables) (b : String) :
    (t.applyBalanceDelta a delta).digest.get? b =
      if b = a then some (Account.digest (match t.getAccount a with
        | none => { balance := max 0 delta, nonce := 0, code := none, storage := none }
        | some x => { x with balance := max 0 (x.balance + delta) })) else t.digest.get? b := by
  unfold Tables.digest Tables.applyBalanceDelta Tables.getAccount
  rw [Table.get_map, Table.get_upsert]
  by_cases h : b = a
  · rw [if_pos h, if_pos h]
    cases t.accounts.get? a <;> rfl
  · rw [if_neg h, if_neg h, Table.get_map]

theorem digest_applyBalanceDelta (a : String) (delta : ℚ) (t : Tables) :
    (t.applyBalanceDelta a delta).digest = t.digest ↔
      ∃ x, t.getAccount a = some x ∧ roundTo 12 (max 0 (x.balance + delta)) = roundTo 12 x.balance := by
  have hget := digest_get_applyBalanceDelta a delta t
  have hat : t.digest.get? a = (t.getAccount a).map Account.digest := Table.get_map _ _ _
  constructor
  · intro h
    have hsame := hget a
    rw [if_pos rfl, h, hat] at hsame
    cases hx : t.getAccount a with
    | none =>
      rw [hx] at hsame
      cases hsame
    | some x =>
      rw [hx] at hsame
      exact ⟨x, rfl, (congrArg AccountDigest.balance (Option.some.inj hsame)).symm⟩
  · rintro ⟨x, hx, hround⟩
    refine Table.ext_get fun b => ?_
    rw [hget]
    by_cases h : b = a
    · rw [if_pos h, h, hat, hx, Option.map_some]
      simp only [Account.digest, hround]
    · rw [if_neg h]

/-- Storing the block credits the burn address once more, by enough to show in the state root. -/
def BurnShows (c : Blockchain) (burned : ℚ) (t : Tables) : Prop :=
  0 < burned ∧ c.config.burnAddress ≠ "" ∧ ∀ x, t.getAccount c.config.burnAddress = some x →
    roundTo 12 (max 0 (x.balance + burned)) ≠ roundTo 12 x.balance

theorem digest_persisted (b : Block) (t : Tables) :
    (c.persisted now b t).digest = t.digest ↔ ¬ c.BurnShows b.totalBurned t := by
  have hacc := @accounts_persisted c now b t
  have hcongr : ∀ {u v : Tables}, u.accounts = v.accounts → u.digest = v.digest := by
    intro u v h
    unfold Tables.digest
    rw [h]
  unfold BurnShows
  by_cases hb : 0 < b.totalBurned ∧ c.config.burnAddress ≠ ""
  · rw [if_pos hb] at hacc
    rw [hcongr hacc, digest_applyBalanceDelta]
    constructor
    · rintro ⟨x, hx, hround⟩ ⟨-, -, hall⟩
      exact hall x hx hround
    · intro hn
      by_contra hno
      exact hn ⟨hb.1, hb.2, fun x hx hround => hno ⟨x, hx, hround⟩⟩
  · rw [if_neg hb] at hacc
    exact ⟨fun _ h => hb ⟨h.1, h.2.1⟩, fun _ => hcongr hacc⟩

variable {b b' : Block} {preserve : Bool} {n n' : Node}

/-- The root stored with a block is the one of the accounts left behind, unless the second credit
shows; where hashing tells the two states apart, only then. -/
theorem Accepted.root_iff (r : Accepted c now b preserve n b' n') :
    (¬ c.BurnShows (c.burnedIn now b n.db) (c.rewarded now b n.db) → c.computeStateRoot n'.db.live = b'.stateRoot) ∧
    (FloatText c.host.floatRepr →
      NoCollision (c.rootPreimage n'.db.live) (c.rootPreimage (c.rewarded now b n.db)) →
      (c.computeStateRoot n'.db.live = b'.stateRoot ↔
        ¬ c.BurnShows (c.burnedIn now b n.db) (c.rewarded now b n.db))) := by
  have hroot : b'.stateRoot = c.computeStateRoot (c.rewarded now b n.db) := by rw [r.stateRoot_eq, r.rewarded_eq]
  have hdigest := @digest_persisted c now b' (c.rewarded now b n.db)
  rw [r.burned_eq, ← r.live_eq] at hdigest
  refine ⟨fun hn => ?_, fun hF hc => ?_⟩
  · rw [hroot]
    unfold computeStateRoot
    rw [accountsJson_digest, accountsJson_digest, hdigest.mpr hn]
  · rw [hroot, computeStateRoot_commits hF hc, hdigest]

/-! ## The check at start -/

theorem hexDigit_not_space (k : Nat) : isSpace (hexDigit (k % 16)) = false := by
  have hk : k % 16 < 16 := Nat.mod_lt _ (by decide)
  interval_cases k % 16 <;> decide

theorem sha256Hex_not_space (bs : Bytes) : ∀ ch ∈ (sha256Hex bs).toList, isSpace ch = false := by
  intro ch hch
  unfold sha256Hex Digest.sha256Hex at hch
  rw [String.toList_ofList] at hch
  obtain ⟨w, -, hw⟩ := List.mem_flatMap.mp hch
  obtain ⟨i, -, rfl⟩ := List.mem_map.mp hw
  exact hexDigit_not_space _

theorem strip_hashData (s : String) : strip (hashData s) = hashData s := by
  have hdrop : ∀ l : List Char, (∀ ch ∈ l, isSpace ch = false) → l.dropWhile isSpace = l := by
    intro l hl
    cases l with
    | nil => rfl
    | cons ch l => exact List.dropWhile_cons_of_neg (by simp [hl ch (List.mem_cons_self ..)])
  have hall : ∀ ch ∈ (hashData s).toList, isSpace ch = false := sha256Hex_not_space (encode s)
  unfold strip stripChars
  rw [hdrop _ hall, hdrop _ fun ch hch => hall ch (List.mem_reverse.mp hch), List.reverse_reverse]
  exact String.ofList_toList

/-- The root stored with the tip is the one of the accounts, as `ensure_state_at_tip` asks. -/
def TipRoot (c : Blockchain) (t : Tables) : Prop :=
  0 < t.getChainTip → ∀ d, t.getBlock t.getChainTip = some d →
    strip d.stateRoot = "" ∨ c.computeStateRoot t = strip d.stateRoot

theorem TipRoot.ensureStateAtTip {db : Db} (h : c.TipRoot db.live) (floor : Int) :
    c.ensureStateAtTip now floor db = (.ok (), db) := by
  unfold Blockchain.ensureStateAtTip
  simp only [bind_run, query_run, id]
  by_cases htip : db.live.getChainTip ≤ 0
  · rw [if_pos htip]
    rfl
  · rw [if_neg htip]
    cases hd : db.live.getBlock db.live.getChainTip with
    | none => rfl
    | some d =>
      have hroot := h (not_le.mp htip) d hd
      simp only [if_pos hroot]
      rfl

def Keyed (t : Tables) : Prop := ∀ h d, t.getBlock h = some d → d.height = h

theorem tip_putBlock {t : Tables} (hk : Keyed t) (hs : validateBlockStructure t b = .ok ()) {d : BlockDict}
    (hd : d.height = b.height) : (t.putBlock d).getChainTip = b.height ∧ (t.putBlock d).getBlock b.height = some d := by
  have hbelow : ∀ j e, t.getBlock j = some e → j < b.height := by
    intro j e hj
    cases hlast : t.blocks.last? with
    | none =>
      rw [Tables.getBlock, Table.last_eq_none.mp hlast] at hj
      cases hj
    | some p =>
      obtain ⟨k, last⟩ := p
      have hget : t.getBlock k = some last := Table.last_mem hlast
      have hle : j ≤ k := Table.last_max hlast hj
      unfold validateBlockStructure Tables.getLastBlock at hs
      simp only [hlast, Option.map_some] at hs
      by_cases hh : b.height = last.height + 1
      · rw [hh, hk k last hget]
        omega
      · rw [if_pos hh] at hs
        cases hs
  have hget : ∀ j, (t.putBlock d).getBlock j =
      if j = b.height then some d else (t.getBlock j).filter fun r => decide (r.hash ≠ d.hash) := by
    intro j
    rw [getBlock_putBlock, hd]
  have htop : (t.putBlock d).getBlock b.height = some d := by rw [hget, if_pos rfl]
  have hlast : (t.putBlock d).blocks.last? = some (b.height, d) := by
    refine Table.last_of_max htop fun j e hj => ?_
    have hj' : (t.putBlock d).getBlock j = some e := hj
    rw [hget] at hj'
    by_cases hh : j = b.height
    · exact le_of_eq hh
    · rw [if_neg hh] at hj'
      obtain ⟨hj', -⟩ := Option.filter_eq_some_iff.mp hj'
      exact le_of_lt (hbelow j e hj')
  refine ⟨?_, htop⟩
  unfold Tables.getChainTip
  rw [hlast]
  rfl

theorem Keyed.putBlock {t : Tables} (hk : Keyed t) (d : BlockDict) : Keyed (t.putBlock d) := by
  intro h e he
  rw [getBlock_putBlock] at he
  by_cases hh : h = d.height
  · rw [if_pos hh] at he
    cases he
    exact hh.symm
  · rw [if_neg hh] at he
    exact hk h e (Option.filter_eq_some_iff.mp he).1

inductive QuietRun (c : Blockchain) : Node → Node → Prop
  | refl (n : Node) : QuietRun c n n
  | accepted {n m m' : Node} {now : Int} {b b' : Block} {preserve : Bool} (run : QuietRun c n m)
    (call : c.addBlock now b preserve m = (.ok b', m'))
    (hidden : ¬ c.BurnShows (c.burnedIn now b m.db) (c.rewarded now b m.db)) : QuietRun c n m'
  | rejected {n m m' : Node} {now : Int} {b : Block} {preserve : Bool} {f : Fault} (run : QuietRun c n m)
    (call : c.addBlock now b preserve m = (.error f, m')) (quiet : c.Quiet now b m) : QuietRun c n m'

theorem QuietRun.tipRoot {m : Node} (h : QuietRun c n m) (hk : Keyed n.db.live) (hr : c.TipRoot n.db.live) :
    Keyed m.db.live ∧ c.TipRoot m.db.live := by
  induction h with
  | refl => exact ⟨hk, hr⟩
  | @accepted m m' now b b' preserve run call hidden ih =>
    obtain ⟨hkeyed, -⟩ := ih
    obtain ⟨r⟩ := addBlock_ok call
    have hs := (admitBlock_ok r.admitted).structured
    obtain ⟨htip, hblock⟩ := tip_putBlock hkeyed hs (d := b'.toDict) r.height_eq
    refine ⟨fun h d hd => ?_, fun _ d hd => ?_⟩
    · rw [getBlock_congr r.blocks] at hd
      exact hkeyed.putBlock _ h d hd
    · rw [chainTip_congr r.blocks, getBlock_congr r.blocks, htip, hblock] at hd
      cases hd
      right
      have hroot := r.root_iff.1 hidden
      have hhash : b'.stateRoot = c.computeStateRoot (c.rewarded now b m.db) := by rw [r.stateRoot_eq, r.rewarded_eq]
      have hstrip : strip b'.stateRoot = b'.stateRoot := by
        rw [hhash]
        exact strip_hashData _
      exact hroot.trans hstrip.symm
  | @rejected m m' now b preserve f run call quiet ih =>
    obtain ⟨hkeyed, htip⟩ := ih
    have hsame := rejected_guarded call quiet
    have hblocks : m'.db.live.blocks = m.db.live.blocks := congrArg Guarded.blocks hsame
    have hacc : m'.db.live.accounts = m.db.live.accounts := congrArg Guarded.accounts hsame
    refine ⟨fun h d hd => ?_, fun h₀ d hd => ?_⟩
    · rw [getBlock_congr hblocks] at hd
      exact hkeyed h d hd
    · rw [chainTip_congr hblocks] at h₀ hd
      rw [getBlock_congr hblocks] at hd
      rw [computeStateRoot_congr hacc]
      exact htip h₀ d hd

/-- On a chain built by such calls `ensure_state_at_tip` finds nothing to repair, and the next
block's root is the one of the accounts it leaves, unless the second credit shows. -/
theorem stateRoot_committed {m : Node} (hk : Keyed n.db.live) (hstart : n.db.live.getChainTip ≤ 0)
    (h : QuietRun c n m) :
    (∀ now floor, c.ensureStateAtTip now floor m.db = (.ok (), m.db)) ∧
    ∀ {now : Int} {b b' : Block} {preserve : Bool} {m' : Node}, c.addBlock now b preserve m = (.ok b', m') →
      (¬ c.BurnShows (c.burnedIn now b m.db) (c.rewarded now b m.db) → c.computeStateRoot m'.db.live = b'.stateRoot) ∧
      (FloatText c.host.floatRepr →
        NoCollision (c.rootPreimage m'.db.live) (c.rootPreimage (c.rewarded now b m.db)) →
        (c.computeStateRoot m'.db.live = b'.stateRoot ↔
          ¬ c.BurnShows (c.burnedIn now b m.db) (c.rewarded now b m.db))) := by
  have htip := (h.tipRoot hk fun h₀ => absurd h₀ (not_lt.mpr hstart)).2
  refine ⟨fun now floor => htip.ensureStateAtTip floor, fun call => ?_⟩
  obtain ⟨r⟩ := addBlock_ok call
  exact r.root_iff

/-! ### A host whose floats have different texts -/

theorem intChars_plain (k : Int) : ∀ ch ∈ intChars k, ch ≠ '.' ∧ ch ≠ 'e' := by
  intro ch hch
  have hdigit : ∀ d : Nat, ch ∈ Nat.toDigits 10 d → ch ≠ '.' ∧ ch ≠ 'e' := by
    intro d hd
    have := toDigits_isDigit hd
    refine ⟨?_, ?_⟩
    · rintro rfl
      revert this
      decide
    · rintro rfl
      revert this
      decide
  cases k with
  | ofNat d => exact hdigit d hch
  | negSucc d =>
    rcases List.mem_cons.mp hch with rfl | hch
    · decide
    · exact hdigit _ hch

/-- A point or an exponent mark ends the digits before it. -/
theorem mark_split {x y r s : List Char} {p q : Char} (hx : ∀ ch ∈ x, ch ≠ '.' ∧ ch ≠ 'e')
    (hy : ∀ ch ∈ y, ch ≠ '.' ∧ ch ≠ 'e') (hp : p = '.' ∨ p = 'e') (hq : q = '.' ∨ q = 'e')
    (h : x ++ p :: r = y ++ q :: s) : x = y ∧ p = q ∧ r = s := by
  have hmark : ∀ {z : Char}, (z = '.' ∨ z = 'e') → ¬ (z ≠ '.' ∧ z ≠ 'e') := fun hz hn => hz.elim hn.1 hn.2
  induction x generalizing y with
  | nil =>
    cases y with
    | nil => exact ⟨rfl, List.cons.inj h⟩
    | cons b y =>
      obtain ⟨rfl, -⟩ := List.cons.inj h
      exact absurd (hy _ (List.mem_cons_self ..)) (hmark hp)
  | cons a x ih =>
    cases y with
    | nil =>
      obtain ⟨rfl, -⟩ := List.cons.inj h
      exact absurd (hx _ (List.mem_cons_self ..)) (hmark hq)
    | cons b y =>
      obtain ⟨rfl, ht⟩ := List.cons.inj h
      obtain ⟨rfl, hrest⟩ := ih (fun ch hch => hx ch (List.mem_cons_of_mem _ hch))
        (fun ch hch => hy ch (List.mem_cons_of_mem _ hch)) ht
      exact ⟨rfl, hrest⟩

theorem plain_floatRepr (q : ℚ) : ∃ p r, (p = '.' ∨ p = 'e') ∧ Host.plain.floatRepr q = intChars q.num ++ p :: r ∧
    ((p = '.' ∧ q.den = 1 ∧ r = ['0']) ∨ (p = 'e' ∧ r = Nat.toDigits 10 q.den)) := by
  by_cases h : q.den = 1
  · exact ⟨'.', ['0'], .inl rfl, if_pos h, .inl ⟨rfl, h, rfl⟩⟩
  · exact ⟨'e', Nat.toDigits 10 q.den, .inr rfl, if_neg h, .inr ⟨rfl, rfl⟩⟩

theorem floatText_plain : FloatText Host.plain.floatRepr where
  inj {x y} h := by
    obtain ⟨p, r, hp, hx, hx'⟩ := plain_floatRepr x
    obtain ⟨q, s, hq, hy, hy'⟩ := plain_floatRepr y
    rw [hx, hy] at h
    obtain ⟨hnum, rfl, rfl⟩ := mark_split (intChars_plain _) (intChars_plain _) hp hq h
    have hden : x.den = y.den := by
      rcases hx' with ⟨hp₁, hd₁, -⟩ | ⟨hp₁, hd₁⟩
      · rcases hy' with ⟨-, hd₂, -⟩ | ⟨hp₂, -⟩
        · rw [hd₁, hd₂]
        · exact absurd (hp₁.symm.trans hp₂) (by decide)
      · rcases hy' with ⟨hp₂, -⟩ | ⟨-, hd₂⟩
        · exact absurd (hp₁.symm.trans hp₂) (by decide)
        · exact toDigits_inj _ _ (hd₁.symm.trans hd₂)
    exact Rat.ext (intChars_inj hnum) hden
  chars q := by
    intro ch hch
    obtain ⟨p, r, -, hx, hx'⟩ := plain_floatRepr q
    rw [hx] at hch
    rcases List.mem_append.mp hch with hch | hch
    · exact intChars_chars _ _ hch
    · rcases hx' with ⟨rfl, -, rfl⟩ | ⟨rfl, rfl⟩
      · rcases List.mem_cons.mp hch with rfl | hch
        · decide
        · rw [List.mem_singleton.mp hch]
          decide
      · rcases List.mem_cons.mp hch with rfl | hch
        · decide
        · unfold isNumChar
          rw [toDigits_isDigit hch]
          rfl
  ne_nil q := by
    obtain ⟨p, r, -, hx, -⟩ := plain_floatRepr q
    rw [hx]
    simp
  ne_int q k := by
    obtain ⟨p, r, hp, hx, -⟩ := plain_floatRepr q
    rw [hx]
    intro h
    have hmem : p ∈ intChars k := by
      rw [← h]
      simp
    exact hp.elim (intChars_plain k p hmem).1 (intChars_plain k p hmem).2

/-- A block with a transfer without gas burns nothing. -/
theorem stateRoot_committed_transfer :
    ∃ b' m, plain.addBlock 2 (firstBlock [gasFree]) true fundedNode = (.ok b', m) ∧
      m.db.live.getBalance "b" = 5 ∧ plain.computeStateRoot m.db.live = b'.stateRoot ∧ m.db.live.getChainTip = 1 ∧
      plain.ensureStateAtTip 2 0 m.db = (.ok (), m.db) := by
  have hok : (plain.addBlock 2 (firstBlock [gasFree]) true fundedNode).1.toOption.isSome = true ∧
      (plain.addBlock 2 (firstBlock [gasFree]) true fundedNode).2.db.live.getBalance "b" = 5 ∧
      (plain.addBlock 2 (firstBlock [gasFree]) true fundedNode).2.db.live.getChainTip = 1 := by decide +kernel
  have hburned : plain.burnedIn 2 (firstBlock [gasFree]) fundedNode.db = 0 := by decide +kernel
  have hhidden : ¬ plain.BurnShows (plain.burnedIn 2 (firstBlock [gasFree]) fundedNode.db)
      (plain.rewarded 2 (firstBlock [gasFree]) fundedNode.db) := by
    rw [hburned]
    exact fun h => absurd h.1 (lt_irrefl _)
  have hkeyed : Keyed fundedNode.db.live := fun h d hd => (genesisNode_linked none).keyed hd
  rcases hrun : plain.addBlock 2 (firstBlock [gasFree]) true fundedNode with ⟨f | b', m⟩
  · rw [hrun] at hok
    cases hok.1
  · rw [hrun] at hok
    obtain ⟨-, hpaid, htip⟩ := hok
    have hquiet : QuietRun plain fundedNode m := .accepted (.refl _) hrun hhidden
    refine ⟨b', m, rfl, hpaid, ?_, htip, (stateRoot_committed hkeyed (by decide) hquiet).1 2 0⟩
    exact ((stateRoot_committed hkeyed (by decide) (.refl _)).2 hrun).1 hhidden

/-- A transfer from `a` to itself in a block it mines: two accounts are left, `a` and the burn address. -/
def selfBlock : Block := { firstBlock [{ transferOf (.int 5) with toAddr := "a" }] with miner := "a" }

def burning : Blockchain := { plain with config := { plain.config with burnAddress := "f" } }

theorem stateRoot_not_committed :
    ∃ b' n', burning.addBlock 2 selfBlock true fundedNode = (.ok b', n') ∧
      burning.computeStateRoot n'.db.live ≠ b'.stateRoot := by
  have hok : (burning.addBlock 2 selfBlock true fundedNode).1.toOption.isSome = true := by decide +kernel
  have hne : burning.computeStateRoot (burning.addBlock 2 selfBlock true fundedNode).2.db.live ≠
      burning.computeStateRoot (burning.rewarded 2 selfBlock fundedNode.db) := by
    rw [computeStateRoot_chars, computeStateRoot_chars]
    decide +kernel
  rcases hrun : burning.addBlock 2 selfBlock true fundedNode with ⟨f | b', n'⟩
  · rw [hrun] at hok
    cases hok
  · rw [hrun] at hne
    obtain ⟨r⟩ := addBlock_ok hrun
    have hroot : b'.stateRoot = burning.computeStateRoot (burning.rewarded 2 selfBlock fundedNode.db) := by
      rw [r.stateRoot_eq, r.rewarded_eq]
    refine ⟨b', n', rfl, ?_⟩
    rw [hroot]
    exact hne

end Blockchain

end AbsoluteChain
