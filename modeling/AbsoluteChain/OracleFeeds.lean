import AbsoluteChain.NativeRoot
import AbsoluteChain.Runs

/-!
# Oracle feeds

`OracleFeedRegistry` of `features/oracle_registry.py` with the signatures of
`bridge/oracle_auth.py`. A signature covers the payload of a submission; the row that is
stored is made of its other arguments.
-/

namespace AbsoluteChain.OracleFeeds

open Python JsonText Runs

/-! ## Signatures -/

def wordBytes (w : Nat) : Bytes := (List.range 4).map fun i => UInt8.ofNat (Nat.shiftRight w (24 - 8 * i) % 256)

def sha256Bytes (bs : Bytes) : Bytes := (Digest.sha256Words bs).flatMap wordBytes

def maskedKey (key : Bytes) (mask : UInt8) : Bytes :=
  (padRight (if key.length ≤ 64 then key else sha256Bytes key) 64).map fun b => b ^^^ mask

def signPayload (secret : String) (body : Bytes) : String :=
  sha256Hex (maskedKey (encode secret) 0x5c ++ sha256Bytes (maskedKey (encode secret) 0x36 ++ body))

structure Registry where
  host : Host
  numerals : Numerals
  secret : String

/-- The arguments of `submit_feed`, with signatures required, the clock at the start of the call and
when the row is written, and the tip of the chain. -/
structure Submission where
  symbol : String
  value : Double
  source : String
  reporter : String
  signature : String
  payload : Option Row
  now : ℚ
  savedAt : ℚ
  height : Int

structure FeedRow where
  symbol : String
  value : Double
  source : String
  reporter : String
  signature : String
  payload : String
  blockHeight : Int
  submittedAt : Int

inductive Reply where
  | refused (error : String)
  | raised
  | stored (feedId symbol : String) (value : Double)

namespace Registry

variable (r : Registry)

def isAscii (s : String) : Bool := s.toList.all fun c => c.toNat < 128

def verifySignature (body : Bytes) (signature : String) : Option Bool :=
  if r.secret = "" ∨ signature = "" then some false
  else
    let expected := r.host.lower (strip (signPayload r.secret body))
    let given := r.host.lower (strip signature)
    if isAscii expected && isAscii given then some (expected = given) else none

def normalized (symbol : String) : String := r.host.lower (strip symbol)

def feedId (symbol source : String) (submittedAt : Int) : String :=
  String.ofList ((hashData (symbol ++ ":" ++ source ++ ":" ++ strInt submittedAt)).toList.take 32)

def body (c : Submission) : Row :=
  match c.payload with
  | some (.cons k v t) => .cons k v t
  | _ =>
    .cons "symbol" (.str (r.normalized c.symbol)) (.cons "value" (.float c.value) (.cons "source" (.str c.source)
      (.cons "reporter" (.str c.reporter) (.cons "ts" (.int (truncate c.now)) .nil))))

/-- `json.dumps(body, sort_keys=True, separators=(",", ":")).encode()`. -/
def raw (c : Submission) : Bytes := encode (dumps r.numerals.python (.obj (r.body c)))

def timestamp (c : Submission) : Option Int :=
  match (r.body c).get? "ts" with
  | none => some (truncate c.now)
  | some ts => r.numerals.toInt ts

def payloadText (c : Submission) : String :=
  String.ofList (render (spaced escapeAscii (Double.text r.numerals.repr)) (.obj (r.body c)))

def row (c : Submission) (ts : Int) : FeedRow :=
  { symbol := r.normalized c.symbol, value := c.value, source := c.source, reporter := c.reporter,
    signature := c.signature, payload := r.payloadText c, blockHeight := c.height,
    submittedAt := if ts = 0 then truncate c.savedAt else ts }

/-- SQLite has no NaN and no integers beyond 64 bits. -/
def storable (row : FeedRow) : Bool := row.value ≠ .nan && fitsInt64 row.submittedAt && fitsInt64 row.blockHeight

def submitFeed (c : Submission) (feeds : Dict String FeedRow) : Reply × Dict String FeedRow :=
  if r.normalized c.symbol = "" then (.refused "symbol required", feeds)
  else if r.secret = "" then (.refused "oracle secret not configured", feeds)
  else if c.signature = "" then (.refused "invalid oracle signature", feeds)
  else
    match r.verifySignature (r.raw c) c.signature with
    | none => (.raised, feeds)
    | some false => (.refused "invalid oracle signature", feeds)
    | some true =>
      match r.timestamp c with
      | none => (.raised, feeds)
      | some ts =>
        let feedId := feedId (r.normalized c.symbol) c.source ts
        let row := r.row c ts
        if storable row then (.stored feedId (r.normalized c.symbol) c.value, feeds.set feedId row) else (.raised, feeds)

def verifies (c : Submission) : Bool :=
  r.normalized c.symbol ≠ "" && r.verifySignature (r.raw c) c.signature = some true

def stores (c : Submission) : Option (String × FeedRow) :=
  if r.verifies c then
    match r.timestamp c with
    | none => none
    | some ts =>
      if storable (r.row c ts) then some (feedId (r.normalized c.symbol) c.source ts, r.row c ts) else none
  else none

theorem submitFeed_feeds (c : Submission) (feeds : Dict String FeedRow) :
    (r.submitFeed c feeds).2 = match r.stores c with
      | some e => feeds.set e.1 e.2
      | none => feeds := by
  unfold submitFeed stores verifies
  by_cases hsymbol : r.normalized c.symbol = ""
  · simp [hsymbol]
  · by_cases hkey : r.secret = "" ∨ c.signature = ""
    · have hfalse : r.verifySignature (r.raw c) c.signature = some false := if_pos hkey
      rcases hkey with hkey | hkey
      · simp [hsymbol, hkey, hfalse]
      · by_cases hsecret : r.secret = ""
        · simp [hsymbol, hsecret, hfalse]
        · rw [hkey] at hfalse
          simp [hsymbol, hsecret, hkey, hfalse]
    · rw [not_or] at hkey
      rw [if_neg hsymbol, if_neg hkey.1, if_neg hkey.2]
      cases hv : r.verifySignature (r.raw c) c.signature with
      | none => simp
      | some valid =>
        cases valid with
        | false => simp
        | true =>
          cases hts : r.timestamp c with
          | none => simp [hsymbol]
          | some ts =>
            by_cases hrow : storable (r.row c ts) = true
            · simp [hsymbol, hrow]
            · simp [hsymbol, hrow]

/-- The payload has the columns of the row, its symbol as it stands or trimmed and in lower case. -/
structure Carries (payload : Row) (row : FeedRow) : Prop where
  symbol : ∃ s, payload.get? "symbol" = some (.str s) ∧ (row.symbol = s ∨ row.symbol = r.normalized s)
  value : (payload.get? "value").bind r.numerals.toFloat = some row.value
  source : payload.get? "source" = some (.str row.source)
  reporter : payload.get? "reporter" = some (.str row.reporter)
  timestamp : (payload.get? "ts").bind r.numerals.toInt = some row.submittedAt

end Registry

/-- The columns of a row that say what was reported, by whom and when. -/
structure FeedRow.Same (a b : FeedRow) : Prop where
  symbol : a.symbol = b.symbol
  value : a.value = b.value
  source : a.source = b.source
  reporter : a.reporter = b.reporter
  timestamp : a.submittedAt = b.submittedAt

/-! ## Runs -/

structure Session where
  feeds : Dict String FeedRow
  verified : List Row

section runs
variable (r : Registry)

def step (c : Submission) (s : Session) : Session :=
  { feeds := (r.submitFeed c s.feeds).2, verified := if r.verifies c then s.verified ++ [r.body c] else s.verified }

def Backed (s : Session) : Prop := ∀ id row, s.feeds.get? id = some row → ∃ p ∈ s.verified, r.Carries p row

/-- A stored row changes only by a verified payload that carries the new columns, and a payload submitted
again with arguments that it does not carry stores nothing new. -/
structure Faithful (c : Submission) (s : Session) : Prop where
  changes : ∀ id row row', s.feeds.get? id = some row → (step r c s).feeds.get? id = some row' → ¬ row.Same row' →
    r.verifies c = true ∧ r.Carries (r.body c) row'
  again : r.body c ∈ s.verified → (∀ e, r.stores c = some e → ¬ r.Carries (r.body c) e.2) →
    ∀ id row', (step r c s).feeds.get? id = some row' → ∃ row, s.feeds.get? id = some row ∧ row.Same row'

/-- What the call writes is carried by its own payload, or repeats the stored row, or is new, from a
payload not seen before, and carried by another one that verified. -/
def Honest (c : Submission) (s : Session) : Prop :=
  ∀ id row, r.stores c = some (id, row) →
    r.Carries (r.body c) row ∨ (∃ old, s.feeds.get? id = some old ∧ old.Same row) ∨
      (s.feeds.get? id = none ∧ r.body c ∉ s.verified ∧ ∃ p ∈ s.verified, r.Carries p row)

variable {r} {c : Submission} {s : Session}

theorem Registry.Carries.congr {p : Row} {old row : FeedRow} (h : r.Carries p old) (hsame : old.Same row) :
    r.Carries p row where
  symbol := hsame.symbol ▸ h.symbol
  value := hsame.value ▸ h.value
  source := hsame.source ▸ h.source
  reporter := hsame.reporter ▸ h.reporter
  timestamp := hsame.timestamp ▸ h.timestamp

theorem FeedRow.Same.refl (row : FeedRow) : row.Same row := ⟨rfl, rfl, rfl, rfl, rfl⟩

theorem stores_verifies {e : String × FeedRow} (h : r.stores c = some e) : r.verifies c = true := by
  unfold Registry.stores at h
  split at h
  · assumption
  · cases h

theorem step_feeds_none (h : r.stores c = none) : (step r c s).feeds = s.feeds := by
  unfold step
  rw [Registry.submitFeed_feeds, h]

theorem step_feeds_some {e : String × FeedRow} (h : r.stores c = some e) : (step r c s).feeds = s.feeds.set e.1 e.2 := by
  unfold step
  rw [Registry.submitFeed_feeds, h]

theorem mem_step_verified {p : Row} (h : p ∈ s.verified) : p ∈ (step r c s).verified := by
  unfold step
  dsimp only
  split
  · exact List.mem_append_left _ h
  · exact h

theorem body_mem_step_verified (h : r.verifies c = true) : r.body c ∈ (step r c s).verified := by
  simp [step, h]

theorem of_mem_step_verified {p : Row} (h : p ∈ (step r c s).verified) : p ∈ s.verified ∨ p = r.body c := by
  unfold step at h
  dsimp only at h
  split at h
  · rcases List.mem_append.mp h with h | h
    · exact .inl h
    · exact .inr (List.mem_singleton.mp h)
  · exact .inl h

theorem backed_step (hs : Backed r s) (hc : Honest r c s) : Backed r (step r c s) := by
  intro id row hget
  cases hstores : r.stores c with
  | none =>
    rw [step_feeds_none hstores] at hget
    obtain ⟨p, hp, hcarries⟩ := hs id row hget
    exact ⟨p, mem_step_verified hp, hcarries⟩
  | some e =>
    rw [step_feeds_some hstores, Dict.get?_set] at hget
    by_cases hid : id = e.1
    · rw [if_pos hid] at hget
      obtain rfl := Option.some.inj hget
      rcases hc e.1 e.2 hstores with hown | hold | hnew
      · exact ⟨r.body c, body_mem_step_verified (stores_verifies hstores), hown⟩
      · obtain ⟨old, hold, hsame⟩ := hold
        obtain ⟨p, hp, hcarries⟩ := hs e.1 old hold
        exact ⟨p, mem_step_verified hp, hcarries.congr hsame⟩
      · obtain ⟨_, _, p, hp, hcarries⟩ := hnew
        exact ⟨p, mem_step_verified hp, hcarries⟩
    · rw [if_neg hid] at hget
      obtain ⟨p, hp, hcarries⟩ := hs id row hget
      exact ⟨p, mem_step_verified hp, hcarries⟩

theorem faithful_of_honest (hc : Honest r c s) : Faithful r c s := by
  constructor
  · intro id row row' hget hget' hdiffer
    cases hstores : r.stores c with
    | none =>
      rw [step_feeds_none hstores, hget] at hget'
      exact absurd (Option.some.inj hget' ▸ FeedRow.Same.refl row) hdiffer
    | some e =>
      rw [step_feeds_some hstores, Dict.get?_set] at hget'
      by_cases hid : id = e.1
      · rw [if_pos hid] at hget'
        obtain rfl := Option.some.inj hget'
        refine ⟨stores_verifies hstores, ?_⟩
        rcases hc e.1 e.2 hstores with hown | hold | hnew
        · exact hown
        · obtain ⟨old, hold, hsame⟩ := hold
          rw [hid, hold] at hget
          exact absurd (Option.some.inj hget ▸ hsame) hdiffer
        · rw [hid, hnew.1] at hget
          cases hget
      · rw [if_neg hid, hget] at hget'
        exact absurd (Option.some.inj hget' ▸ FeedRow.Same.refl row) hdiffer
  · intro hseen hother id row' hget'
    cases hstores : r.stores c with
    | none =>
      rw [step_feeds_none hstores] at hget'
      exact ⟨row', hget', FeedRow.Same.refl row'⟩
    | some e =>
      rw [step_feeds_some hstores, Dict.get?_set] at hget'
      by_cases hid : id = e.1
      · rw [if_pos hid] at hget'
        obtain rfl := Option.some.inj hget'
        rcases hc e.1 e.2 hstores with hown | hold | hnew
        · exact absurd hown (hother e hstores)
        · rw [hid]
          exact hold
        · exact absurd hseen hnew.2.1
      · rw [if_neg hid] at hget'
        exact ⟨row', hget', FeedRow.Same.refl row'⟩

theorem honest_of_faithful (hnext : Backed r (step r c s)) (hc : Faithful r c s) : Honest r c s := by
  intro id row hstores
  by_cases hown : r.Carries (r.body c) row
  · exact .inl hown
  · have hget' : (step r c s).feeds.get? id = some row := by
      rw [step_feeds_some hstores]
      exact Dict.get?_set_self _ _ _
    cases hget : s.feeds.get? id with
    | some old =>
      refine .inr (.inl ⟨old, rfl, ?_⟩)
      by_contra hdiffer
      exact hown (hc.changes id old row hget hget' hdiffer).2
    | none =>
      refine .inr (.inr ⟨rfl, ?_, ?_⟩)
      · intro hseen
        have hother : ∀ e, r.stores c = some e → ¬ r.Carries (r.body c) e.2 := by
          intro e he
          rw [hstores] at he
          rw [← Option.some.inj he]
          exact hown
        obtain ⟨old, hold, _⟩ := hc.again hseen hother id row hget'
        rw [hget] at hold
        cases hold
      · obtain ⟨p, hp, hcarries⟩ := hnext id row hget'
        rcases of_mem_step_verified hp with hp | hp
        · exact ⟨p, hp, hcarries⟩
        · exact absurd (hp ▸ hcarries) hown

theorem backed_empty : Backed r { feeds := [], verified := [] } := by
  intro id row h
  cases h

end runs

/-- In every run from an empty table, every row is backed by a verified payload, changes only by one that
carries the new columns, and is not written by a payload submitted again with other arguments, exactly
when every call is honest. -/
theorem feeds_backed_iff (r : Registry) (calls : List Submission) :
    Always (step r) (Backed r) calls { feeds := [], verified := [] } ∧
        Along (step r) (Faithful r) calls { feeds := [], verified := [] } ↔
      Along (step r) (Honest r) calls { feeds := [], verified := [] } := by
  have hrun : ∀ (calls : List Submission) (s : Session), Backed r s →
      (Always (step r) (Backed r) calls s ∧ Along (step r) (Faithful r) calls s ↔ Along (step r) (Honest r) calls s) := by
    intro calls
    induction calls with
    | nil => exact fun s hs => iff_of_true ⟨hs, trivial⟩ trivial
    | cons c rest ih =>
      intro s hs
      constructor
      · intro h
        have hnext : Backed r (step r c s) := by
          cases rest with
          | nil => exact h.1.2
          | cons _ _ => exact h.1.2.1
        have hc := honest_of_faithful hnext h.2.1
        exact ⟨hc, (ih _ hnext).mp ⟨h.1.2, h.2.2⟩⟩
      · intro h
        obtain ⟨hbacked, hfaithful⟩ := (ih _ (backed_step hs h.1)).mpr h.2
        exact ⟨⟨hs, hbacked⟩, faithful_of_honest h.1, hfaithful⟩
  exact hrun calls _ backed_empty

theorem stores_row {r : Registry} {c : Submission} {e : String × FeedRow} (h : r.stores c = some e) :
    ∃ ts, r.timestamp c = some ts ∧ e.2 = r.row c ts := by
  unfold Registry.stores at h
  split at h
  · split at h
    · cases h
    · rename_i ts hts
      split at h
      · rw [← Option.some.inj h]
        exact ⟨ts, hts, rfl⟩
      · cases h
  · cases h

theorem other_arguments_stored :
    ¬ ∀ (r : Registry) (calls : List Submission),
      Always (step r) (Backed r) calls { feeds := [], verified := [] } ∧
        Along (step r) (Faithful r) calls { feeds := [], verified := [] } := by
  intro h
  let r : Registry := { host := Host.plain, numerals := Numerals.plain, secret := "k" }
  let payload : Row := .cons "symbol" (.str "solana") (.cons "value" (.int 1) (.cons "source" (.str "reporter")
    (.cons "reporter" (.str "r") (.cons "ts" (.int 5) .nil))))
  let c : Submission :=
    { symbol := "ethereum", value := .finite 9, source := "reporter", reporter := "r", payload := some payload,
      signature := "e2d76933ee317685af8e6e14513a9e94b9fe557333f5968f90376ffde5f4cd02", now := 0, savedAt := 0, height := 0 }
  have hsome : (r.stores c).isSome = true := by decide +kernel
  obtain ⟨e, he⟩ := Option.isSome_iff_exists.mp hsome
  have hget : (step r c { feeds := [], verified := [] }).feeds.get? e.1 = some e.2 := by
    rw [step_feeds_some he]
    exact Dict.get?_set_self _ _ _
  obtain ⟨p, hp, hcarries⟩ := (h r [c]).1.2 e.1 e.2 hget
  obtain ⟨ts, _, hrow⟩ := stores_row he
  have hbody : p = payload := (of_mem_step_verified hp).resolve_left List.not_mem_nil
  have hvalue := hcarries.value
  rw [hbody, hrow] at hvalue
  have hone : (payload.get? "value").bind r.numerals.toFloat = some (.finite 1) := rfl
  have hnine : (r.row c ts).value = .finite 9 := rfl
  rw [hone, hnine] at hvalue
  exact absurd hvalue (by decide)

/-! ## Arguments that are taken from the payload -/

theorem honest_of_bound {r : Registry} {c : Submission} {s : Session} {symbol : String} {ts : Int}
    (hsymbol : (r.body c).get? "symbol" = some (.str symbol)) (hsame : r.normalized c.symbol = r.normalized symbol)
    (hvalue : ((r.body c).get? "value").bind r.numerals.toFloat = some c.value)
    (hsource : (r.body c).get? "source" = some (.str c.source))
    (hreporter : (r.body c).get? "reporter" = some (.str c.reporter))
    (hts : ((r.body c).get? "ts").bind r.numerals.toInt = some ts) (hne : ts ≠ 0) : Honest r c s := by
  intro id row hstores
  obtain ⟨ts', htimestamp, hrow⟩ := stores_row hstores
  have hts' : ts' = ts := by
    unfold Registry.timestamp at htimestamp
    cases hget : (r.body c).get? "ts" with
    | none => simp [hget] at hts
    | some v =>
      rw [hget] at htimestamp hts
      exact Option.some.inj (htimestamp.symm.trans hts)
  have hrow' : row = r.row c ts := hts' ▸ hrow
  rw [hrow']
  refine .inl ⟨⟨symbol, hsymbol, .inr hsame⟩, hvalue, hsource, hreporter, ?_⟩
  rw [hts]
  simp [Registry.row, hne]

theorem honest_of_no_payload {r : Registry} {c : Submission} {s : Session} (hp : c.payload = none)
    (hclock : truncate c.now ≠ 0) : Honest r c s := by
  intro id row hstores
  obtain ⟨ts, htimestamp, hrow⟩ := stores_row hstores
  have hbody : r.body c = .cons "symbol" (.str (r.normalized c.symbol)) (.cons "value" (.float c.value)
      (.cons "source" (.str c.source) (.cons "reporter" (.str c.reporter)
        (.cons "ts" (.int (truncate c.now)) .nil)))) := by
    unfold Registry.body
    rw [hp]
  have hts : ts = truncate c.now := by
    unfold Registry.timestamp at htimestamp
    rw [hbody] at htimestamp
    exact (Option.some.inj htimestamp).symm
  have hrow' : row = r.row c (truncate c.now) := hts ▸ hrow
  rw [hrow', hbody]
  refine .inl ⟨⟨r.normalized c.symbol, rfl, .inl rfl⟩, rfl, rfl, rfl, ?_⟩
  simp [Registry.row, hclock, Fields.get?, Numerals.toInt]

end AbsoluteChain.OracleFeeds
