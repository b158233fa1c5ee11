import AbsoluteChain.NativeRoot
import AbsoluteChain.Recovery

/-!
# Session keys

The transactions of `features/smart_accounts.py`, with the session keys that authorise them.
A key is checked before the executor is called and counted after it.
-/

namespace AbsoluteChain.SessionKeys

open Python JsonText KeyedTable Runs

inductive AuthMethod where
  | privateKey | social | multisig | sessionKey | passkey | biometric | hardware
  deriving DecidableEq

def AuthMethod.value : AuthMethod → String
  | .privateKey => "private_key"
  | .social => "social"
  | .multisig => "multisig"
  | .sessionKey => "session_key"
  | .passkey => "passkey"
  | .biometric => "biometric"
  | .hardware => "hardware"

inductive SessionPermission where
  | basic | transfer | swap | nft | game | admin | custom
  deriving DecidableEq

structure SessionKey where
  publicKey : String
  permissions : List SessionPermission
  expiresAt : ℚ
  maxUses : Int
  uses : Int
  allowedDapps : List String

def SessionKey.isValid (clock : ℚ) (key : SessionKey) : Bool :=
  if key.expiresAt < clock then false
  else if 0 < key.maxUses ∧ key.maxUses ≤ key.uses then false
  else true

def SessionKey.use (key : SessionKey) : SessionKey := { key with uses := key.uses + 1 }

structure Stats where
  totalTransactions : Nat
  totalVolume : ℚ
  activeSessions : Int
  lastActive : ℚ

structure SessionAccount extends SmartAccount where
  hasExecutor : Bool
  authMethods : List AuthMethod
  sessionKeys : Table String SessionKey
  dailyLimit : ℚ
  stats : Stats

/-- What the executor is given. -/
structure TxRequest where
  id : String
  fromAddr : String
  toAddr : String
  value : Python.Num
  data : Option (Fields ℚ)
  authMethod : String
  timestamp : ℚ

/-- The arguments of `execute_transaction`, where `none` is a credential that is no string, with the clock
and what the executor answers; an error is an exception. -/
structure Attempt where
  toAddr : String
  value : Python.Num
  data : Option (Fields ℚ)
  authMethod : AuthMethod
  credential : Option String
  clock : ℚ
  executor : TxRequest → Except String (Json ℚ)

structure BatchTx where
  toAddr : Option String
  value : Option Python.Num
  data : Option (Fields ℚ)
  clock : ℚ
  executor : TxRequest → Except String (Json ℚ)

def splitDot (s : String) : Option (String × String) :=
  match s.toList.dropWhile (· ≠ '.') with
  | [] => none
  | _ :: rest => some (String.ofList (s.toList.takeWhile (· ≠ '.')), String.ofList rest)

/-- `s.split(".", 1)[0]`. -/
def beforeDot (s : String) : String := String.ofList (s.toList.takeWhile (· ≠ '.'))

def removeOnce (old : List Char) : List Char → List Char
  | [] => []
  | c :: t => if old.isPrefixOf (c :: t) then (c :: t).drop old.length else c :: removeOnce old t

def digestOf (secret : String) : String := sha256Hex (encode secret)

def sessionKeyId (host : Host) (address token : String) (clock : ℚ) : String :=
  String.ofList ((sha256Hex (encode (address ++ host.strNum (.float clock) ++ token))).toList.take 16)

namespace SessionAccount

/-! ## Keys -/

def addAuthMethod (method : AuthMethod) (s : SessionAccount) : SessionAccount :=
  { s with authMethods := method :: s.authMethods }

def removeAuthMethod (method : AuthMethod) (s : SessionAccount) : Bool × SessionAccount :=
  if method ∈ s.authMethods then (true, { s with authMethods := s.authMethods.filter (· ≠ method) }) else (false, s)

def createSessionKey (host : Host) (permissions : List SessionPermission) (expiresIn : ℚ) (maxUses : Int)
    (allowedDapps : Option (List String)) (token secret : String) (clock : ℚ) (s : SessionAccount) :
    String × SessionAccount :=
  let keyId := sessionKeyId host s.address token clock
  let key := { publicKey := "sha256:" ++ digestOf secret, permissions := permissions, expiresAt := clock + expiresIn,
               maxUses := maxUses, uses := 0, allowedDapps := allowedDapps.getD [] }
  (keyId ++ "." ++ secret,
    { s with sessionKeys := s.sessionKeys.put keyId key,
             stats := { s.stats with activeSessions := s.stats.activeSessions + 1 } })

def revokeSessionKey (keyId : String) (s : SessionAccount) : Bool × SessionAccount :=
  let keyId := beforeDot keyId
  match s.sessionKeys.get? keyId with
  | none => (false, s)
  | some _ =>
    (true, { s with sessionKeys := s.sessionKeys.keep fun k _ => k ≠ keyId,
                    stats := { s.stats with activeSessions := s.stats.activeSessions - 1 } })

def verifyPrivateKey (_ : Option String) : Bool := false

def verifySocial (_ : Option String) : Bool := false

def verifyPasskey (_ : Option String) : Bool := false

def verifySessionKey (credential : Option String) (clock : ℚ) (s : SessionAccount) : Bool :=
  match credential.bind splitDot with
  | none => false
  | some (keyId, secret) =>
    match s.sessionKeys.get? keyId with
    | none => false
    | some key =>
      if key.isValid clock then
        digestOf secret = String.ofList (removeOnce "sha256:".toList key.publicKey.toList)
      else false

def authenticate (method : AuthMethod) (credential : Option String) (clock : ℚ) (s : SessionAccount) : Bool :=
  if method ∈ s.authMethods then
    match method with
    | .privateKey => verifyPrivateKey credential
    | .sessionKey => s.verifySessionKey credential clock
    | .social => verifySocial credential
    | .passkey => verifyPasskey credential
    | _ => false
  else false

/-! ## Transactions -/

def keyOf (a : Attempt) (s : SessionAccount) : Option SessionKey :=
  if a.authMethod = .sessionKey then s.sessionKeys.get? (a.credential.elim "" beforeDot) else none

def permits (a : Attempt) (s : SessionAccount) : Bool :=
  if a.authMethod = .sessionKey then (s.keyOf a).any fun key => .transfer ∈ key.permissions else true

def txRequest (host : Host) (a : Attempt) (s : SessionAccount) : TxRequest where
  id := String.ofList ((sha256Hex (encode (s.address ++ a.toAddr ++ host.strNum a.value ++
    host.strNum (.float a.clock)))).toList.take 16)
  fromAddr := s.address
  toAddr := a.toAddr
  value := a.value
  data := a.data
  authMethod := a.authMethod.value
  timestamp := a.clock

/-- The dictionary that the executor returned, unless it says that it failed. -/
def succeeded : Json ℚ → Option (Fields ℚ)
  | .obj tx =>
    match tx.get? "success" with
    | some (.bool false) => none
    | _ => some tx
  | _ => none

def spend (a : Attempt) (s : SessionAccount) : SessionAccount :=
  { s with
    sessionKeys := match s.keyOf a with
      | some key => s.sessionKeys.put (a.credential.elim "" beforeDot) key.use
      | none => s.sessionKeys
    stats := { s.stats with totalTransactions := s.stats.totalTransactions + 1,
                            totalVolume := s.stats.totalVolume + a.value.toRat, lastActive := a.clock } }

def executeTransaction (host : Host) (a : Attempt) (s : SessionAccount) :
    Except String (Option (Fields ℚ)) × SessionAccount :=
  if ¬ s.authenticate a.authMethod a.credential a.clock then (.ok none, s)
  else if ¬ s.permits a then (.ok none, s)
  else if s.dailyLimit < a.value.toRat then (.ok none, s)
  else if ¬ s.hasExecutor then (.ok none, s)
  else
    match a.executor (s.txRequest host a) with
    | .error e => (.error e, s)
    | .ok answer =>
      match succeeded answer with
      | none => (.ok none, s)
      | some tx => (.ok (some tx), s.spend a)

/-- The call of `execute_transaction` for an item, or the key that is missing. -/
def attemptOf (method : AuthMethod) (credential : Option String) (tx : BatchTx) : Except String Attempt :=
  match tx.toAddr, tx.value with
  | some toAddr, some value =>
    .ok { toAddr := toAddr, value := value, data := tx.data, authMethod := method, credential := credential,
          clock := tx.clock, executor := tx.executor }
  | some _, none => .error "value"
  | none, _ => .error "to"

def executeBatch (host : Host) (method : AuthMethod) (credential : Option String) :
    List BatchTx → SessionAccount → Except String (List (Option (Fields ℚ))) × SessionAccount
  | [], s => (.ok [], s)
  | tx :: rest, s =>
    match attemptOf method credential tx with
    | .error key => (.error key, s)
    | .ok a =>
      match executeTransaction host a s with
      | (.error e, s) => (.error e, s)
      | (.ok result, s) => ((executeBatch host method credential rest s).1.map (result :: ·),
          (executeBatch host method credential rest s).2)

def attempts (host : Host) (method : AuthMethod) (credential : Option String) :
    List BatchTx → SessionAccount → List Attempt
  | [], _ => []
  | tx :: rest, s =>
    match attemptOf method credential tx with
    | .error _ => []
    | .ok a =>
      match executeTransaction host a s with
      | (.error _, _) => [a]
      | (.ok _, s) => a :: attempts host method credential rest s

variable {host : Host} {a : Attempt} {s : SessionAccount}

theorem executeBatch_run (method : AuthMethod) (credential : Option String) (txs : List BatchTx) (s : SessionAccount) :
    (executeBatch host method credential txs s).2 =
      run (fun a s => (executeTransaction host a s).2) (attempts host method credential txs s) s := by
  induction txs generalizing s with
  | nil => rfl
  | cons tx rest ih =>
    unfold executeBatch attempts
    cases attemptOf method credential tx with
    | error key => rfl
    | ok a =>
      dsimp only
      rcases h : executeTransaction host a s with ⟨answer, s'⟩
      have hstep : (executeTransaction host a s).2 = s' := congrArg Prod.snd h
      cases answer with
      | error e => exact hstep.symm
      | ok result =>
        dsimp only
        rw [ih s']
        change _ = run _ (attempts host method credential rest s') (executeTransaction host a s).2
        rw [hstep]

/-! ## What a transaction has passed -/

def goesThrough (host : Host) (a : Attempt) (s : SessionAccount) : Bool :=
  s.authenticate a.authMethod a.credential a.clock && s.permits a && decide (a.value.toRat ≤ s.dailyLimit) &&
    s.hasExecutor &&
    match a.executor (s.txRequest host a) with
    | .error _ => false
    | .ok answer => (succeeded answer).isSome

theorem executeTransaction_account :
    (executeTransaction host a s).2 = if s.goesThrough host a then s.spend a else s := by
  unfold executeTransaction goesThrough
  by_cases hauth : s.authenticate a.authMethod a.credential a.clock = true
  · by_cases hpermits : s.permits a = true
    · by_cases hlimit : s.dailyLimit < a.value.toRat
      · simp [hlimit, not_le.mpr hlimit]
      · by_cases hexecutor : s.hasExecutor = true
        · simp only [hauth, hpermits, hlimit, hexecutor, not_lt.mp hlimit]
          cases a.executor (s.txRequest host a) with
          | error e => simp
          | ok answer =>
            cases h : succeeded answer with
            | none => simp [h]
            | some tx => simp [h]
        · simp [hexecutor]
    · simp [hpermits]
  · simp [hauth]

theorem removeOnce_append {old : List Char} (h : old ≠ []) (l : List Char) : removeOnce old (old ++ l) = l := by
  obtain ⟨c, t, rfl⟩ := List.exists_cons_of_ne_nil h
  unfold removeOnce
  rw [List.cons_append]
  dsimp only
  rw [if_pos (by simp [List.isPrefixOf_iff_prefix])]
  simp

structure Names (a : Attempt) (s : SessionAccount) (keyId secret : String) (key : SessionKey) : Prop where
  credential : a.credential.bind splitDot = some (keyId, secret)
  before : a.credential.elim "" beforeDot = keyId
  found : s.sessionKeys.get? keyId = some key

theorem splitDot_before {c keyId secret : String} (h : splitDot c = some (keyId, secret)) : beforeDot c = keyId := by
  unfold splitDot at h
  split at h
  · cases h
  · exact (Prod.mk.inj (Option.some.inj h)).1

theorem goesThrough_spec (h : s.goesThrough host a = true) :
    a.authMethod = .sessionKey ∧ a.value.toRat ≤ s.dailyLimit ∧ ∃ keyId secret key, Names a s keyId secret key ∧
      key.isValid a.clock = true ∧ .transfer ∈ key.permissions ∧
      digestOf secret = String.ofList (removeOnce "sha256:".toList key.publicKey.toList) := by
  unfold goesThrough at h
  simp only [Bool.and_eq_true, decide_eq_true_eq] at h
  obtain ⟨⟨⟨⟨hauth, hpermits⟩, hlimit⟩, -⟩, -⟩ := h
  unfold authenticate at hauth
  split at hauth
  · cases hmethod : a.authMethod with
    | sessionKey =>
      rw [hmethod] at hauth
      change s.verifySessionKey a.credential a.clock = true at hauth
      refine ⟨rfl, hlimit, ?_⟩
      unfold verifySessionKey at hauth
      cases hcredential : a.credential.bind splitDot with
      | none =>
        rw [hcredential] at hauth
        cases hauth
      | some named =>
        obtain ⟨keyId, secret⟩ := named
        rw [hcredential] at hauth
        dsimp only at hauth
        cases hkey : s.sessionKeys.get? keyId with
        | none =>
          rw [hkey] at hauth
          cases hauth
        | some key =>
          rw [hkey] at hauth
          dsimp only at hauth
          have hbefore : a.credential.elim "" beforeDot = keyId := by
            obtain ⟨c, hc, hsplit⟩ := Option.bind_eq_some_iff.mp hcredential
            rw [hc]
            exact splitDot_before hsplit
          have hpermission : .transfer ∈ key.permissions := by
            unfold permits keyOf at hpermits
            rw [if_pos hmethod, if_pos hmethod, hbefore, hkey] at hpermits
            simpa using hpermits
          by_cases hvalid : key.isValid a.clock = true
          · rw [if_pos hvalid] at hauth
            exact ⟨keyId, secret, key, ⟨hcredential, hbefore, hkey⟩, hvalid, hpermission, of_decide_eq_true hauth⟩
          · rw [if_neg hvalid] at hauth
            cases hauth
    | _ =>
      rw [hmethod] at hauth
      cases hauth
  · cases hauth

theorem isValid_spec {key : SessionKey} {clock : ℚ} (h : key.isValid clock = true) :
    clock ≤ key.expiresAt ∧ (0 < key.maxUses → key.uses < key.maxUses) := by
  unfold SessionKey.isValid at h
  split at h
  · cases h
  · rename_i hexpired
    split at h
    · cases h
    · rename_i hused
      exact ⟨not_lt.mp hexpired, fun hpos => not_le.mp fun hle => hused ⟨hpos, hle⟩⟩

end SessionAccount

/-! ## The history -/

/-- A key as it was handed out. -/
structure Issued where
  secret : String
  permissions : List SessionPermission
  expiresAt : ℚ
  maxUses : Int
  allowedDapps : List String

def Issued.entry (k : Issued) (uses : Nat) : SessionKey :=
  { publicKey := "sha256:" ++ digestOf k.secret, permissions := k.permissions, expiresAt := k.expiresAt,
    maxUses := k.maxUses, uses := uses, allowedDapps := k.allowedDapps }

/-- The number of the key that was in force under the id that the credential names, if any, and the secret
that was shown. -/
structure Use where
  key : Option Nat
  secret : Option String

/-- A successful transaction. -/
structure Spent where
  toAddr : String
  value : ℚ
  clock : ℚ
  use : Option Use

/-- An account with the keys issued so far, which of them is in force under an id, and its successful
transactions, the newest first. A key is no longer in force once it is revoked. -/
structure Ledger where
  account : SessionAccount
  issued : List Issued
  inForce : String → Option Nat
  spent : List Spent

def spentBy (a : Attempt) (s : Ledger) : Spent where
  toAddr := a.toAddr
  value := a.value.toRat
  clock := a.clock
  use := if a.authMethod = .sessionKey then
      some { key := (a.credential.bind splitDot).bind fun named => s.inForce named.1,
             secret := (a.credential.bind splitDot).map Prod.snd }
    else none

def Spent.usedKey (e : Spent) : Option Nat := e.use.bind Use.key

def usesOf (n : Nat) (spent : List Spent) : Nat := spent.countP fun e => e.usedKey = some n

def InDay (start clock : ℚ) : Prop := start ≤ clock ∧ clock < start + 86400

instance (start clock : ℚ) : Decidable (InDay start clock) := inferInstanceAs (Decidable (_ ∧ _))

def daySum (start : ℚ) (spent : List Spent) : ℚ := ((spent.filter fun e => InDay start e.clock).map Spent.value).sum

inductive Op where
  | addAuthMethod (method : AuthMethod)
  | removeAuthMethod (method : AuthMethod)
  | createSessionKey (permissions : List SessionPermission) (expiresIn : ℚ) (maxUses : Int)
      (allowedDapps : Option (List String)) (token secret : String) (clock : ℚ)
  | revokeSessionKey (keyId : String)
  | executeTransaction (a : Attempt)
  | executeBatch (txs : List BatchTx) (method : AuthMethod) (credential : Option String)

section
variable (host : Host)

def attempt (a : Attempt) (s : Ledger) : Ledger :=
  { s with account := (s.account.executeTransaction host a).2,
           spent := if s.account.goesThrough host a then spentBy a s :: s.spent else s.spent }

def step : Op → Ledger → Ledger
  | .addAuthMethod method, s => { s with account := s.account.addAuthMethod method }
  | .removeAuthMethod method, s => { s with account := (s.account.removeAuthMethod method).2 }
  | .createSessionKey permissions expiresIn maxUses allowedDapps token secret clock, s =>
    { s with
      account := (s.account.createSessionKey host permissions expiresIn maxUses allowedDapps token secret clock).2
      issued := s.issued ++ [{ secret := secret, permissions := permissions, expiresAt := clock + expiresIn,
                               maxUses := maxUses, allowedDapps := allowedDapps.getD [] }]
      inForce := Function.update s.inForce (sessionKeyId host s.account.address token clock) (some s.issued.length) }
  | .revokeSessionKey keyId, s =>
    { s with account := (s.account.revokeSessionKey keyId).2,
             inForce := Function.update s.inForce (beforeDot keyId) none }
  | .executeTransaction a, s => attempt host a s
  | .executeBatch txs method credential, s =>
    run (attempt host) (s.account.attempts host method credential txs) s

def start (address owner : String) (hasExecutor : Bool) (dailyLimit clock : ℚ) : Ledger where
  account :=
    { toSmartAccount := SmartAccount.start address owner, hasExecutor := hasExecutor, authMethods := [],
      sessionKeys := .empty, dailyLimit := dailyLimit,
      stats := { totalTransactions := 0, totalVolume := 0, activeSessions := 0, lastActive := clock } }
  issued := []
  inForce := fun _ => none
  spent := []

def Authorised (issued : List Issued) (e : Spent) (u : Use) : Prop :=
  ∃ n k, u.key = some n ∧ issued[n]? = some k ∧ u.secret = some k.secret ∧ e.clock < k.expiresAt ∧
    .transfer ∈ k.permissions ∧ (k.allowedDapps ≠ [] → e.toAddr ∈ k.allowedDapps)

/-- The bounds on session keys and, at every moment so far, on the values of any 24 hours. -/
structure Bounded (s : Ledger) : Prop where
  sessions : ∀ e ∈ s.spent, ∀ u, e.use = some u → Authorised s.issued e u
  uses : ∀ n k, s.issued[n]? = some k → 0 < k.maxUses → (usesOf n s.spent : Int) ≤ k.maxUses
  daily : ∀ past, past <:+ s.spent → ∀ t, (∃ e ∈ past, InDay t e.clock) → daySum t past ≤ s.account.dailyLimit

/-- A transaction that goes through has a target that its key allows and leaves the values of every 24 hours around
it within the limit. It is not made at the very moment of the expiry, and the secret shown is not another one with
the digest of the key's. -/
def Moderate (a : Attempt) (s : Ledger) : Prop :=
  s.account.goesThrough host a = true →
    (∀ named n k, a.credential.bind splitDot = some named → s.inForce named.1 = some n → s.issued[n]? = some k →
      (k.allowedDapps ≠ [] → a.toAddr ∈ k.allowedDapps) ∧ a.clock ≠ k.expiresAt ∧
      (digestOf named.2 = digestOf k.secret → named.2 = k.secret)) ∧
    ∀ t, InDay t a.clock → daySum t s.spent + a.value.toRat ≤ s.account.dailyLimit

def Restrained : Op → Ledger → Prop
  | .executeTransaction a, s => Moderate host a s
  | .executeBatch txs method credential, s =>
    Along (attempt host) (Moderate host) (s.account.attempts host method credential txs) s
  | _, _ => True

variable {host} {a : Attempt} {s : Ledger}

theorem batch_account (method : AuthMethod) (credential : Option String) (txs : List BatchTx) (s : Ledger) :
    (step host (.executeBatch txs method credential) s).account =
      (s.account.executeBatch host method credential txs).2 := by
  rw [SessionAccount.executeBatch_run]
  exact (run_image Ledger.account (fun _ _ => rfl) _ s).symm

/-! ## Which key is which -/

structure Tracked (s : Ledger) : Prop where
  held : ∀ id key, s.account.sessionKeys.get? id = some key →
    ∃ n k, s.inForce id = some n ∧ s.issued[n]? = some k ∧ key = k.entry (usesOf n s.spent)
  apart : ∀ id id' n, s.inForce id = some n → s.inForce id' = some n → id = id'
  known : ∀ id n, s.inForce id = some n → n < s.issued.length
  used : ∀ e ∈ s.spent, ∀ n, e.usedKey = some n → n < s.issued.length

theorem attempt_stuck (h : ¬ s.account.goesThrough host a = true) : attempt host a s = s := by
  unfold attempt
  rw [SessionAccount.executeTransaction_account, if_neg h, if_neg h]

theorem attempt_through (h : s.account.goesThrough host a = true) :
    attempt host a s = { s with account := s.account.spend a, spent := spentBy a s :: s.spent } := by
  unfold attempt
  rw [SessionAccount.executeTransaction_account, if_pos h, if_pos h]

theorem usesOf_cons (n : Nat) (e : Spent) (spent : List Spent) :
    usesOf n (e :: spent) = usesOf n spent + if e.usedKey = some n then 1 else 0 := by
  unfold usesOf
  rw [List.countP_cons]
  simp

theorem usesOf_new {n : Nat} {spent : List Spent} (h : ∀ e ∈ spent, ∀ m, e.usedKey = some m → m < n) :
    usesOf n spent = 0 := by
  unfold usesOf
  rw [List.countP_eq_zero]
  intro e he hn
  exact lt_irrefl n (h e he n (of_decide_eq_true hn))

/-- What the history says of a transaction that goes through. -/
structure Through (a : Attempt) (s : Ledger) (keyId secret : String) (n : Nat) (k : Issued) : Prop where
  named : SessionAccount.Names a s.account keyId secret (k.entry (usesOf n s.spent))
  inForce : s.inForce keyId = some n
  issued : s.issued[n]? = some k
  entry : spentBy a s = { toAddr := a.toAddr, value := a.value.toRat, clock := a.clock, use := some ⟨some n, some secret⟩ }
  unexpired : a.clock ≤ k.expiresAt
  unused : 0 < k.maxUses → (usesOf n s.spent : Int) < k.maxUses
  permission : .transfer ∈ k.permissions
  digest : digestOf secret = digestOf k.secret
  account : s.account.spend a = { s.account with
    sessionKeys := s.account.sessionKeys.put keyId (k.entry (usesOf n s.spent + 1))
    stats := (s.account.spend a).stats }

theorem through (hs : Tracked s) (h : s.account.goesThrough host a = true) :
    ∃ keyId secret n k, Through a s keyId secret n k := by
  obtain ⟨hmethod, -, keyId, secret, key, hnames, hvalid, hpermission, hdigest⟩ := SessionAccount.goesThrough_spec h
  obtain ⟨n, k, hn, hk, rfl⟩ := hs.held keyId key hnames.found
  obtain ⟨hunexpired, hunused⟩ := SessionAccount.isValid_spec hvalid
  refine ⟨keyId, secret, n, k, hnames, hn, hk, ?_, hunexpired, hunused, hpermission, ?_, ?_⟩
  · unfold spentBy
    rw [if_pos hmethod, hnames.credential]
    simp [hn]
  · rw [hdigest]
    unfold Issued.entry
    rw [String.toList_append, SessionAccount.removeOnce_append (by decide), String.ofList_toList]
  · have hkey : s.account.keyOf a = some (k.entry (usesOf n s.spent)) := by
      unfold SessionAccount.keyOf
      rw [if_pos hmethod, hnames.before, hnames.found]
    unfold SessionAccount.spend
    rw [hkey, hnames.before]
    rfl

theorem tracked_start (address owner : String) (hasExecutor : Bool) (dailyLimit clock : ℚ) :
    Tracked (start address owner hasExecutor dailyLimit clock) :=
  ⟨fun _ _ h => (nomatch h), fun _ _ _ h => (nomatch h), fun _ _ h => (nomatch h), fun _ h => (nomatch h)⟩

theorem tracked_attempt (hs : Tracked s) : Tracked (attempt host a s) := by
  by_cases h : s.account.goesThrough host a = true
  · obtain ⟨keyId, secret, n, k, ht⟩ := through hs h
    have husedKey : (spentBy a s).usedKey = some n := by rw [ht.entry]; rfl
    rw [attempt_through h, ht.account]
    refine ⟨?_, hs.apart, hs.known, ?_⟩
    · intro id key hkey
      dsimp only at hkey ⊢
      rw [Table.get_put] at hkey
      by_cases hid : id = keyId
      · rw [if_pos hid] at hkey
        refine ⟨n, k, hid ▸ ht.inForce, ht.issued, ?_⟩
        rw [usesOf_cons, if_pos husedKey]
        exact (Option.some.inj hkey).symm
      · rw [if_neg hid] at hkey
        obtain ⟨m, j, hm, hj, hentry⟩ := hs.held id key hkey
        have hne : (spentBy a s).usedKey ≠ some m := by
          rw [husedKey]
          intro heq
          obtain rfl := Option.some.inj heq
          exact hid (hs.apart id keyId n hm ht.inForce)
        refine ⟨m, j, hm, hj, ?_⟩
        rw [usesOf_cons, if_neg hne]
        exact hentry
    · intro e he m hm
      rcases List.mem_cons.mp he with rfl | he
      · rw [husedKey] at hm
        rw [← Option.some.inj hm]
        exact hs.known keyId n ht.inForce
      · exact hs.used e he m hm
  · rw [attempt_stuck h]
    exact hs

theorem Tracked.setAccount (hs : Tracked s) {account : SessionAccount}
    (h : account.sessionKeys = s.account.sessionKeys) : Tracked { s with account := account } := by
  refine ⟨?_, hs.apart, hs.known, hs.used⟩
  intro id key hkey
  apply hs.held id key
  rw [← h]
  exact hkey

theorem tracked_revoke (hs : Tracked s) (keyId : String) : Tracked (step host (.revokeSessionKey keyId) s) := by
  have hget : ∀ id, ((s.account.revokeSessionKey keyId).2.sessionKeys).get? id =
      if id = beforeDot keyId then none else s.account.sessionKeys.get? id := by
    intro id
    unfold SessionAccount.revokeSessionKey
    cases hkey : s.account.sessionKeys.get? (beforeDot keyId) with
    | none =>
      dsimp only
      rw [hkey]
      by_cases hid : id = beforeDot keyId
      · rw [if_pos hid, hid, hkey]
      · rw [if_neg hid]
    | some key =>
      dsimp only
      rw [hkey]
      exact WillManager.get_drop _ _ _
  have hheld : ∀ {id n}, Function.update s.inForce (beforeDot keyId) none id = some n → s.inForce id = some n := by
    intro id n hn
    by_cases hid : id = beforeDot keyId
    · rw [hid, Function.update_self] at hn
      cases hn
    · rw [Function.update_of_ne hid] at hn
      exact hn
  refine ⟨?_, ?_, ?_, hs.used⟩
  · intro id key hkey
    change ((s.account.revokeSessionKey keyId).2.sessionKeys).get? id = some key at hkey
    rw [hget] at hkey
    by_cases hid : id = beforeDot keyId
    · rw [if_pos hid] at hkey
      cases hkey
    · rw [if_neg hid] at hkey
      obtain ⟨n, k, hn, hrest⟩ := hs.held id key hkey
      refine ⟨n, k, ?_, hrest⟩
      change Function.update s.inForce (beforeDot keyId) none id = some n
      rw [Function.update_of_ne hid]
      exact hn
  · intro id id' n hn hn'
    exact hs.apart id id' n (hheld hn) (hheld hn')
  · intro id n hn
    exact hs.known id n (hheld hn)

theorem getElem?_issued {n : Nat} {k k' : Issued} (h : s.issued[n]? = some k) : (s.issued ++ [k'])[n]? = some k := by
  rw [List.getElem?_append_left (List.getElem?_eq_some_iff.mp h).1]
  exact h

theorem tracked_create (hs : Tracked s) (permissions : List SessionPermission) (expiresIn : ℚ) (maxUses : Int)
    (allowedDapps : Option (List String)) (token secret : String) (clock : ℚ) :
    Tracked (step host (.createSessionKey permissions expiresIn maxUses allowedDapps token secret clock) s) := by
  unfold step SessionAccount.createSessionKey
  dsimp only
  generalize sessionKeyId host s.account.address token clock = new
  refine ⟨?_, ?_, ?_, ?_⟩
  · intro id key hkey
    dsimp only at hkey ⊢
    rw [Table.get_put] at hkey
    by_cases hid : id = new
    · rw [if_pos hid] at hkey
      rw [hid]
      refine ⟨_, _, Function.update_self _ _ _, List.getElem?_concat_length, ?_⟩
      rw [usesOf_new hs.used, ← Option.some.inj hkey]
      rfl
    · rw [if_neg hid] at hkey
      obtain ⟨n, k, hn, hk, hentry⟩ := hs.held id key hkey
      refine ⟨n, k, ?_, getElem?_issued hk, hentry⟩
      rw [Function.update_of_ne hid]
      exact hn
  · intro id id' n hn hn'
    dsimp only at hn hn'
    by_cases hid : id = new
    · by_cases hid' : id' = new
      · rw [hid, hid']
      · rw [hid, Function.update_self] at hn
        rw [Function.update_of_ne hid', ← hn] at hn'
        exact absurd (hs.known id' _ hn') (lt_irrefl _)
    · rw [Function.update_of_ne hid] at hn
      by_cases hid' : id' = new
      · rw [hid', Function.update_self, ← hn] at hn'
        exact absurd (hs.known id _ hn'.symm) (lt_irrefl _)
      · rw [Function.update_of_ne hid'] at hn'
        exact hs.apart id id' n hn hn'
  · intro id n hn
    dsimp only at hn ⊢
    rw [List.length_append, List.length_singleton]
    by_cases hid : id = new
    · rw [hid, Function.update_self] at hn
      rw [← Option.some.inj hn]
      exact Nat.lt_succ_self _
    · rw [Function.update_of_ne hid] at hn
      exact Nat.lt_succ_of_lt (hs.known id n hn)
  · intro e he n hn
    dsimp only
    rw [List.length_append, List.length_singleton]
    exact Nat.lt_succ_of_lt (hs.used e he n hn)

theorem tracked_step (op : Op) (s : Ledger) (hs : Tracked s) : Tracked (step host op s) := by
  cases op with
  | addAuthMethod method => exact hs.setAccount rfl
  | removeAuthMethod method =>
    apply hs.setAccount
    unfold SessionAccount.removeAuthMethod
    split
    · rfl
    · rfl
  | createSessionKey permissions expiresIn maxUses allowedDapps token secret clock => exact tracked_create hs ..
  | revokeSessionKey keyId => exact tracked_revoke hs keyId
  | executeTransaction a => exact tracked_attempt hs
  | executeBatch txs method credential => exact run_inv (fun _ _ h => tracked_attempt h) _ hs

/-! ## The bounds -/

theorem daySum_cons (t : ℚ) (e : Spent) (spent : List Spent) :
    daySum t (e :: spent) = daySum t spent + if InDay t e.clock then e.value else 0 := by
  unfold daySum
  by_cases h : InDay t e.clock
  · simp [h, add_comm]
  · simp [h]

theorem bounded_start (address owner : String) (hasExecutor : Bool) (dailyLimit clock : ℚ) :
    Bounded (start address owner hasExecutor dailyLimit clock) := by
  refine ⟨fun _ h => (nomatch h), fun _ _ h => (nomatch h), ?_⟩
  intro past hpast t h
  obtain ⟨e, he, -⟩ := h
  rw [List.suffix_nil.mp hpast] at he
  cases he

/-- A step that pays for nothing and changes neither the keys handed out nor the limit. -/
theorem Bounded.setAccount (h : Bounded s) {account : SessionAccount} (inForce : String → Option Nat)
    (hlimit : account.dailyLimit = s.account.dailyLimit) :
    Bounded { s with account := account, inForce := inForce } := by
  refine ⟨h.sessions, h.uses, ?_⟩
  intro past hpast t he
  change _ ≤ account.dailyLimit
  rw [hlimit]
  exact h.daily past hpast t he

theorem bounded_create (hs : Tracked s) (h : Bounded s) (permissions : List SessionPermission) (expiresIn : ℚ)
    (maxUses : Int) (allowedDapps : Option (List String)) (token secret : String) (clock : ℚ) :
    Bounded (step host (.createSessionKey permissions expiresIn maxUses allowedDapps token secret clock) s) := by
  refine ⟨?_, ?_, h.daily⟩
  · intro e he u hu
    obtain ⟨n, k, hn, hk, hrest⟩ := h.sessions e he u hu
    exact ⟨n, k, hn, getElem?_issued hk, hrest⟩
  · intro n k hk hpos
    change (usesOf n s.spent : Int) ≤ k.maxUses
    by_cases hn : n < s.issued.length
    · apply h.uses n k _ hpos
      have hold : (s.issued ++ _)[n]? = some k := hk
      rw [List.getElem?_append_left hn] at hold
      exact hold
    · rw [usesOf_new fun e he m hm => lt_of_lt_of_le (hs.used e he m hm) (not_lt.mp hn)]
      exact hpos.le

theorem bounded_attempt (hs : Tracked s) (hb : Bounded s) (hm : Moderate host a s) : Bounded (attempt host a s) := by
  by_cases h : s.account.goesThrough host a = true
  · obtain ⟨keyId, secret, n, k, ht⟩ := through hs h
    obtain ⟨hkey, hday⟩ := hm h
    obtain ⟨htarget, hmoment, hcollision⟩ := hkey _ n k ht.named.credential ht.inForce ht.issued
    rw [attempt_through h, ht.entry]
    refine ⟨?_, ?_, ?_⟩
    · intro e he u hu
      rcases List.mem_cons.mp he with rfl | he
      · obtain rfl := Option.some.inj hu
        exact ⟨n, k, rfl, ht.issued, congrArg some (hcollision ht.digest), lt_of_le_of_ne ht.unexpired hmoment,
          ht.permission, htarget⟩
      · exact hb.sessions e he u hu
    · intro m j hj hpos
      dsimp only at hj ⊢
      rw [usesOf_cons]
      by_cases hmn : n = m
      · rw [← hmn, ht.issued] at hj
        obtain rfl := Option.some.inj hj
        rw [← hmn]
        have hunused := ht.unused hpos
        simp only [Spent.usedKey, Option.bind_some, if_true]
        omega
      · have hold := hb.uses m j hj hpos
        simp only [Spent.usedKey, Option.bind_some, Option.some.injEq, if_neg hmn]
        omega
    · intro past hpast t hmem
      dsimp only at hpast ⊢
      rcases List.suffix_cons_iff.mp hpast with rfl | hpast
      · rw [daySum_cons]
        dsimp only
        by_cases hin : InDay t a.clock
        · rw [if_pos hin]
          exact hday t hin
        · rw [if_neg hin, add_zero]
          apply hb.daily _ (List.suffix_refl _) t
          obtain ⟨e, he, hine⟩ := hmem
          rcases List.mem_cons.mp he with rfl | he
          · exact absurd hine hin
          · exact ⟨e, he, hine⟩
      · exact hb.daily past hpast t hmem
  · rw [attempt_stuck h]
    exact hb

theorem moderate_of_bounded (hs : Tracked s) (hb : Bounded (attempt host a s)) : Moderate host a s := by
  intro h
  obtain ⟨keyId, secret, n, k, ht⟩ := through hs h
  rw [attempt_through h, ht.entry] at hb
  constructor
  · intro named m j hnamed hforce hj
    rw [ht.named.credential] at hnamed
    obtain rfl := Option.some.inj hnamed
    rw [ht.inForce] at hforce
    obtain rfl := Option.some.inj hforce
    obtain ⟨m, j', hm, hj', hsecret, hbefore, -, htarget⟩ := hb.sessions _ List.mem_cons_self _ rfl
    obtain rfl := Option.some.inj hm
    obtain rfl := Option.some.inj (hj.symm.trans hj')
    exact ⟨htarget, ne_of_lt hbefore, fun _ => Option.some.inj hsecret⟩
  · intro t ht'
    have hday := hb.daily _ (List.suffix_refl _) t ⟨_, List.mem_cons_self, ht'⟩
    rw [daySum_cons, if_pos ht'] at hday
    exact hday

theorem bounded_of_attempt (h : Bounded (attempt host a s)) : Bounded s := by
  by_cases hgo : s.account.goesThrough host a = true
  · rw [attempt_through hgo] at h
    refine ⟨?_, ?_, ?_⟩
    · intro e he
      exact h.sessions e (List.mem_cons_of_mem _ he)
    · intro n k hk hpos
      have hall := h.uses n k hk hpos
      dsimp only at hall
      rw [usesOf_cons] at hall
      omega
    · intro past hpast
      exact h.daily past (hpast.trans (List.suffix_cons _ _))
  · rw [attempt_stuck hgo] at h
    exact h

theorem bounded_step (op : Op) (s : Ledger) (hs : Tracked s ∧ Bounded s) (hr : Restrained host op s) :
    Tracked (step host op s) ∧ Bounded (step host op s) := by
  refine ⟨tracked_step op s hs.1, ?_⟩
  cases op with
  | addAuthMethod method => exact hs.2.setAccount s.inForce rfl
  | removeAuthMethod method =>
    apply hs.2.setAccount s.inForce
    unfold SessionAccount.removeAuthMethod
    split
    · rfl
    · rfl
  | createSessionKey permissions expiresIn maxUses allowedDapps token secret clock => exact bounded_create hs.1 hs.2 ..
  | revokeSessionKey keyId =>
    apply hs.2.setAccount
    unfold SessionAccount.revokeSessionKey
    dsimp only
    split
    · rfl
    · rfl
  | executeTransaction a => exact bounded_attempt hs.1 hs.2 hr
  | executeBatch txs method credential =>
    exact (always_of_along (I := fun s => Tracked s ∧ Bounded s)
      (fun _ _ h hm => ⟨tracked_attempt h.1, bounded_attempt h.1 h.2 hm⟩) hs hr).last.2

theorem restrained_of_bounded (op : Op) (s : Ledger) (hs : Tracked s ∧ Bounded s) (h : Bounded (step host op s)) :
    Restrained host op s := by
  cases op with
  | executeTransaction a => exact moderate_of_bounded hs.1 h
  | executeBatch txs method credential =>
    exact along_of_run (I := Tracked) (J := Bounded) (fun _ _ ht _ => tracked_attempt ht)
      (fun _ _ ht hb => moderate_of_bounded ht hb) (fun _ _ => bounded_of_attempt) hs.1 h
  | _ => trivial

end

/-- In every run the bounds hold at every moment exactly when every transaction that goes through, alone or in a batch,
is a moderate one. -/
theorem always_bounded_iff (host : Host) (address owner : String) (hasExecutor : Bool) (dailyLimit clock : ℚ)
    (ops : List Op) :
    Always (step host) Bounded ops (start address owner hasExecutor dailyLimit clock) ↔
      Along (step host) (Restrained host) ops (start address owner hasExecutor dailyLimit clock) :=
  always_iff_along_of (I := fun s => Tracked s ∧ Bounded s) (fun _ h => h.2) bounded_step restrained_of_bounded
    ⟨tracked_start .., bounded_start ..⟩

def transfer (toAddr : String) (value clock : ℚ) : Attempt where
  toAddr := toAddr
  value := .float value
  data := none
  authMethod := .sessionKey
  credential := some (sessionKeyId .plain "x" "t" 0 ++ ".s")
  clock := clock
  executor := fun _ => .ok (.obj .nil)

def withKey (allowedDapps : List String) (rest : List Op) : List Op :=
  .addAuthMethod .sessionKey :: .createSessionKey [.transfer] 3600 0 (some allowedDapps) "t" "s" 0 :: rest

def account : Ledger := start "x" "a" true 10000 0

/-- A key for one application pays another, and two transfers of the daily limit go through within ten seconds. -/
theorem limits_not_enforced :
    ¬ Always (step .plain) Bounded (withKey ["app"] [.executeTransaction (transfer "other" 1 10)]) account ∧
    ¬ Always (step .plain) Bounded (withKey [] [.executeTransaction (transfer "b" 10000 10),
      .executeTransaction (transfer "b" 10000 20)]) account := by
  constructor
  · intro h
    have hlast := h.last
    obtain ⟨⟨e, he, hkey, htarget⟩, hissued⟩ :
        (∃ e ∈ (run (step .plain) (withKey ["app"] [.executeTransaction (transfer "other" 1 10)]) account).spent,
          e.usedKey = some 0 ∧ e.toAddr = "other") ∧
        ((run (step .plain) (withKey ["app"] [.executeTransaction (transfer "other" 1 10)]) account).issued[0]?).map
          Issued.allowedDapps = some ["app"] := by
      decide +kernel
    obtain ⟨u, hu, hn⟩ := Option.bind_eq_some_iff.mp hkey
    obtain ⟨n, k, hn', hk, -, -, -, hlisted⟩ := hlast.sessions e he u hu
    rw [hn] at hn'
    obtain rfl := Option.some.inj hn'
    rw [hk] at hissued
    have hdapps : k.allowedDapps = ["app"] := Option.some.inj hissued
    rw [hdapps, htarget] at hlisted
    exact absurd (hlisted (by decide)) (by decide)
  · intro h
    have hlast := h.last
    obtain ⟨hsum, hmem, hlimit⟩ :
        daySum 0 (run (step .plain) (withKey [] [.executeTransaction (transfer "b" 10000 10),
          .executeTransaction (transfer "b" 10000 20)]) account).spent = 20000 ∧
        (∃ e ∈ (run (step .plain) (withKey [] [.executeTransaction (transfer "b" 10000 10),
          .executeTransaction (transfer "b" 10000 20)]) account).spent, InDay 0 e.clock) ∧
        (run (step .plain) (withKey [] [.executeTransaction (transfer "b" 10000 10),
          .executeTransaction (transfer "b" 10000 20)]) account).account.dailyLimit = 10000 := by
      decide +kernel
    have hday := hlast.daily _ (List.suffix_refl _) 0 hmem
    rw [hsum, hlimit] at hday
    exact absurd hday (by decide)

end AbsoluteChain.SessionKeys
