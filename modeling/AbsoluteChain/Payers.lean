import AbsoluteChain.Creations

/-!
# Contract runs and single accounts

An execution writes to the database through the hooks of its call tree only. A frame that
the own writes of the hooks respect holds of the whole run, given the addresses at which
the run creates; and code takes only from the account it runs under and from its caller.
-/

namespace AbsoluteChain

open Python Actions Act Transactions KeyedTable Runs

/-! ## Own writes -/

namespace EvmAdapter

structure OwnFrame (e : EvmAdapter) (F : Frame Db) (S : String → Prop) : Prop where
  balance : ∀ a d, Keeps F (updateBalance a d)
  storage : ∀ a s, Keeps F (updateAccountStorage a s)
  logs : ∀ a l, Keeps F (e.persistLogs a l)
  created : ∀ seed (x : Account), x.nonce = 0 → S (createdAddress seed) → Keeps F (saveAccount (createdAddress seed) x)
  selfDestruct : ∀ a b, Keeps F (e.selfDestructContract a b)

/-- The addresses at which an execution saves a new contract. -/
def Entry.created (e : EvmAdapter) (db : Db) (entry : Entry) : List String := (entry.changes e db).filterMap Change.fills

namespace OwnFrame

variable {e : EvmAdapter} {F : Frame Db} {S : String → Prop}

theorem moveValue (h : OwnFrame e F S) (source target : String) (value : ℚ) : Keeps F (moveValue source target value) :=
  keeps_when fun _ => keeps_bind (h.balance _ _) fun _ => h.balance _ _

theorem concludeCall (h : OwnFrame e F S) (ctx : EvmContext) (a : CallArgs) (m : Machine) :
    Keeps F (e.concludeCall ctx a m) := by
  refine keeps_ite (fun _ => keeps_pure _) fun _ => keeps_ite (fun _ => ?_) fun _ => keeps_ite (fun _ => keeps_pure _) fun _ => ?_
  · refine keeps_bind (h.storage _ _) fun _ => ?_
    exact keeps_bind (keeps_when fun _ => h.moveValue _ _ _) fun _ => h.logs _ _
  · exact keeps_bind (h.storage _ _) fun _ => h.moveValue _ _ _

theorem concludeCreate (h : OwnFrame e F S) (ctx : EvmContext) (initCode : Bytes) (value : Nat) (salt : Option Nat)
    (m : Machine) (hS : ¬ m.reverted = true → S (createdAt ctx initCode salt)) :
    Keeps F (concludeCreate ctx initCode value salt m) :=
  keeps_ite (fun _ => keeps_pure _) fun hr => keeps_bind (h.created _ _ rfl (hS hr)) fun _ => h.moveValue _ _ _

theorem createdAt_eq (ctx : EvmContext) (initCode : Bytes) (salt : Option Nat) :
    createdAt ctx initCode salt = createdAddress (createSeed ctx initCode salt) := by
  cases salt with
  | none => rfl
  | some s => rfl

theorem outer (h : OwnFrame e F S) (x : Node) (hS : ∀ b, (x.change e).fills = some b → S b) :
    F.rel (e.inner x) (e.outer x) := by
  unfold Change.fills Node.change Node.creation at hS
  rw [outer_eq]
  unfold ownWrites
  cases hx : x.site.hook with
  | call ctx a =>
    rcases e.calleeResult x with _ | f | m
    · exact F.refl _
    · exact F.refl _
    · exact h.concludeCall ctx a m (e.inner x)
  | create ctx initCode value salt =>
    rcases hr : e.calleeResult x with _ | f | m
    · exact F.refl _
    · exact F.refl _
    · refine h.concludeCreate ctx initCode value salt m (fun hkept => hS _ ?_) (e.inner x)
      rw [hx, hr]
      dsimp only
      rw [if_neg hkept, createdAt_eq]
      rfl
  | selfDestruct ctx beneficiary => exact h.selfDestruct _ _ (e.inner x)

theorem conclude (h : OwnFrame e F S) {entry : Entry} {db : Db} {fr : SubFrame} {m : Machine} {db₁ : Db}
    (hframe : entry.frame e db.live = .ok fr) (hran : Entry.ran e db fr = (.ok m, db₁))
    (hS : ∀ k, entry.creation e db = some k → S k.address) : Keeps F (entry.conclude e m) := by
  unfold Entry.creation at hS
  cases entry with
  | call caller contractAddr calldataHex value gasLimit =>
    refine keeps_ite (fun _ => keeps_pure _) fun _ => ?_
    exact keeps_bind (h.storage _ _) fun _ => keeps_bind (h.logs _ _) fun _ => h.moveValue _ _ _
  | deploy deployer bytecodeHex value gasLimit salt =>
    refine keeps_ite (fun _ => keeps_pure _) fun hr => ?_
    have hnew : S (createdAddress (deployer ++ salt)) := hS { seed := deployer ++ salt, creator := deployer, value } (by
      rw [hframe]
      dsimp only
      rw [hran]
      exact if_neg hr)
    exact keeps_bind (h.created _ _ rfl hnew) fun _ => keeps_bind (h.logs _ _) fun _ => h.moveValue _ _ _

/-- The rule for runs: the hooks below an entry point one after the other, then its own writes. -/
theorem run (h : OwnFrame e F S) {entry : Entry} {db : Db} (hS : ∀ b ∈ entry.created e db, S b) :
    F.rel db (entry.run e db).2 := by
  have hfills : ∀ ch ∈ entry.changes e db, ∀ b, ch.fills = some b → S b := fun ch hch b hb =>
    hS b (List.mem_filterMap.mpr ⟨ch, hch, hb⟩)
  have hinner : F.rel db (entry.inner e db) :=
    (path_inv (I := F.rel db) (entry.forest_path db) (F.refl db) fun x hx hrel =>
      F.trans hrel (h.outer x (hfills _ (List.mem_append_left _ (List.mem_map_of_mem hx))))).2
  have hown : ∀ k, entry.creation e db = some k → S k.address := fun k hk =>
    hfills _ (List.mem_append_right _ (List.mem_singleton_self _)) k.address (congrArg (Option.map Creation.address) hk)
  refine F.trans hinner ?_
  rw [Entry.run_eq]
  unfold Entry.inner
  cases hframe : entry.frame e db.live with
  | error err => exact F.refl _
  | ok fr =>
    dsimp only
    rcases hran : Entry.ran e db fr with ⟨f | m, db₁⟩
    · exact F.refl _
    · exact h.conclude hframe hran hown db₁

end OwnFrame

/-! ## Constructors -/

def Node.constructs (x : Node) : Option String :=
  match x.site.hook with
  | .create ctx initCode _ salt => if createDeployer ctx = "" then none else some (createdAt ctx initCode salt)
  | _ => none

def Entry.constructs (e : EvmAdapter) (t : Tables) (entry : Entry) : Option String :=
  match entry, entry.frame e t with
  | .deploy deployer _ _ _ salt, .ok _ => some (createdAddress (deployer ++ salt))
  | _, _ => none

/-- The addresses under which an execution runs constructors, whether they succeed or not. -/
def Entry.constructed (e : EvmAdapter) (db : Db) (entry : Entry) : List String :=
  (entry.forest e db).filterMap Node.constructs ++ (entry.constructs e db.live).toList

section constructors
variable {e : EvmAdapter}

theorem constructs_creation {x : Node} {k : Creation} (h : x.creation e = some k) : x.constructs = some k.address := by
  unfold Node.creation at h
  unfold Node.constructs
  cases hx : x.site.hook with
  | call ctx a =>
    rw [hx] at h
    cases h
  | selfDestruct ctx beneficiary =>
    rw [hx] at h
    cases h
  | create ctx initCode value salt =>
    rw [hx] at h
    rcases hr : e.calleeResult x with _ | f | m
    · rw [hr] at h
      cases h
    · rw [hr] at h
      cases h
    · rw [hr] at h
      dsimp only at h ⊢
      have hdeployer : createDeployer ctx ≠ "" := by
        intro hd
        unfold calleeResult siteFrame at hr
        rw [hx] at hr
        dsimp only at hr
        unfold createFrame at hr
        rw [if_pos hd] at hr
        cases hr
      by_cases hrev : m.reverted = true
      · rw [if_pos hrev] at h
        cases h
      · rw [if_neg hrev] at h
        cases h
        rw [if_neg hdeployer, OwnFrame.createdAt_eq]
        rfl

theorem constructs_entry {entry : Entry} {db : Db} {k : Creation} (h : entry.creation e db = some k) :
    entry.constructs e db.live = some k.address := by
  unfold Entry.creation at h
  unfold Entry.constructs
  cases entry with
  | call caller contractAddr calldataHex value gasLimit => cases h
  | deploy deployer bytecodeHex value gasLimit salt =>
    cases hframe : (Entry.deploy deployer bytecodeHex value gasLimit salt).frame e db.live with
    | error err =>
      rw [hframe] at h
      cases h
    | ok fr =>
      rw [hframe] at h
      dsimp only at h ⊢
      cases hran : (Entry.ran e db fr).1 with
      | error f =>
        rw [hran] at h
        cases h
      | ok m =>
        rw [hran] at h
        dsimp only at h
        by_cases hr : m.reverted = true
        · rw [if_pos hr] at h
          cases h
        · rw [if_neg hr] at h
          cases h
          rfl

/-- A contract is saved where its constructor has run. -/
theorem created_constructed {entry : Entry} {db : Db} {b : String} (h : b ∈ entry.created e db) :
    b ∈ entry.constructed e db := by
  obtain ⟨ch, hch, hfills⟩ := List.mem_filterMap.mp h
  unfold Entry.constructed
  rcases List.mem_append.mp hch with hnode | hown
  · obtain ⟨x, hx, rfl⟩ := List.mem_map.mp hnode
    obtain ⟨k, hk, rfl⟩ := Option.map_eq_some_iff.mp hfills
    exact List.mem_append_left _ (List.mem_filterMap.mpr ⟨x, hx, constructs_creation hk⟩)
  · obtain rfl := List.mem_singleton.mp hown
    obtain ⟨k, hk, rfl⟩ := Option.map_eq_some_iff.mp hfills
    exact List.mem_append_right _ (Option.mem_toList.mpr (constructs_entry hk))

end constructors

/-! ## Nothing taken -/

section payers
variable {e : EvmAdapter} {a : String}

theorem codeless_ownFrame : OwnFrame e (codeless e a) (Apart e a) where
  balance _ _ := keeps_write fun _ hn => hn.congr fun _ => Blockchain.codeOf_applyBalanceDelta _ _ _ _
  storage _ _ := keeps_write fun _ hn => hn.congr fun _ => codeOf_updateAccountStorage _ _ _ _
  logs _ _ := keeps_bind (keeps_query _) fun _ => keeps_ite (fun _ => keeps_pure _) fun _ => keeps_write fun _ hn => hn
  created _ _ _ hb := keeps_write fun _ hn => noContract_saveAccount (.inl hb) hn
  selfDestruct x b := by
    unfold selfDestructContract
    refine keeps_bind (keeps_query _) fun account => keeps_bind (keeps_when fun hb => ?_) fun _ => ?_
    · exact keeps_bind (keeps_write fun _ hn => hn.congr fun _ => Blockchain.codeOf_applyBalanceDelta _ _ _ _) fun _ =>
        keeps_write fun _ hn => hn.congr fun _ => Blockchain.codeOf_applyBalanceDelta _ _ _ _
    · exact keeps_write fun _ hn => noContract_saveAccount (.inr rfl) hn

/-- An account without code gets none where no constructor runs. -/
theorem Entry.codeless_run {entry : Entry} {db : Db} (hc : ∀ b ∈ entry.constructed e db, Apart e a b)
    (hn : NoContract e a db.live) : NoContract e a (entry.run e db).2.live :=
  codeless_ownFrame.run (fun b hb => hc b (created_constructed hb)) hn

theorem ctx_frameSites {hooks : Hooks} {fr : SubFrame} {db : Db} {y : Site} (hy : y ∈ e.frameSites hooks fr db) :
    y.hook.ctx = fr.ctx := by
  obtain ⟨p, -, hp⟩ := List.mem_filterMap.mp hy
  obtain ⟨h, hh, rfl⟩ := Option.map_eq_some_iff.mp hp
  exact hookOf_ctx hh

theorem deployer_ne {ctx : EvmContext} (hx : Clear e a ctx) : createDeployer ctx ≠ a := by
  unfold createDeployer orElse
  by_cases h : ctx.address = ""
  · rw [if_pos h]
    exact hx.caller
  · rw [if_neg h]
    exact hx.address.1

theorem unpaid_concludeCall {ctx : EvmContext} (hctx : Clear e a ctx) (args : CallArgs) (m : Machine) :
    Keeps (unpaid e a) (e.concludeCall ctx args m) := by
  have hcaller : (if args.delegate = true then ctx.caller else ctx.address) ≠ a := by
    by_cases hd : args.delegate = true
    · rw [if_pos hd]
      exact hctx.caller
    · rw [if_neg hd]
      exact hctx.address.1
  refine keeps_ite (fun _ => keeps_pure _) fun _ => keeps_ite (fun _ => ?_) fun _ => keeps_ite (fun _ => keeps_pure _) fun _ => ?_
  · refine keeps_bind (unpaid_updateAccountStorage _ _) fun _ => ?_
    refine keeps_bind (keeps_when fun _ => unpaid_moveValue _ hctx.address.1) fun _ => ?_
    exact unpaid_persistLogs _ _
  · exact keeps_bind (unpaid_updateAccountStorage _ _) fun _ => unpaid_moveValue _ hcaller

theorem clear_siteFrame {x : Site} {fr : SubFrame} {depth : Nat} (hfr : e.siteFrame x = some fr) (hx : Clear e a x.hook.ctx)
    (hn : NoContract e a x.db.live) (hc : ∀ b, Node.constructs ⟨depth, x⟩ = some b → Apart e a b) : Clear e a fr.ctx := by
  obtain ⟨hook, db⟩ := x
  cases hook with
  | selfDestruct ctx beneficiary => cases hfr
  | call ctx args =>
    obtain ⟨bytecode, hcode, rfl⟩ := Option.map_eq_some_iff.mp hfr
    obtain ⟨text, htext, -⟩ := Option.bind_eq_some_iff.mp hcode
    have htarget : Apart e a (e.normalizeAddr args.target) := hn _ (by rw [htext]; exact Option.some_ne_none _)
    constructor
    · show Apart e a (e.execAddr ctx args)
      unfold execAddr
      by_cases hin : (args.delegate || args.callcode) = true
      · rw [if_pos hin]
        exact hx.address
      · rw [if_neg hin]
        exact htarget
    · show (if args.delegate = true then ctx.caller else ctx.address) ≠ a
      by_cases hd : args.delegate = true
      · rw [if_pos hd]
        exact hx.caller
      · rw [if_neg hd]
        exact hx.address.1
  | create ctx initCode value salt =>
    have hframe : e.createFrame db.live ctx initCode value salt = some fr := hfr
    unfold createFrame at hframe
    by_cases hd : createDeployer ctx = ""
    · rw [if_pos hd] at hframe
      cases hframe
    · rw [if_neg hd] at hframe
      cases hframe
      exact ⟨hc _ (if_neg hd), deployer_ne hx⟩

theorem unpaid_ownWrites {x : Node} (hx : Clear e a x.site.hook.ctx) (hc : ∀ b, x.constructs = some b → Apart e a b) :
    Keeps (unpaid e a) (e.ownWrites x) := by
  unfold Node.constructs at hc
  unfold ownWrites
  cases hhook : x.site.hook with
  | selfDestruct ctx beneficiary =>
    rw [hhook] at hx
    exact unpaid_selfDestruct hx.address.2 _
  | call ctx args =>
    rw [hhook] at hx
    rcases e.calleeResult x with _ | f | m
    · exact keeps_pure _
    · exact keeps_pure _
    · exact unpaid_concludeCall hx args m
  | create ctx initCode value salt =>
    rw [hhook] at hx hc
    rcases hr : e.calleeResult x with _ | f | m
    · exact keeps_pure _
    · exact keeps_pure _
    · have hdeployer : createDeployer ctx ≠ "" := by
        intro hd
        unfold calleeResult siteFrame at hr
        rw [hhook] at hr
        dsimp only at hr
        unfold createFrame at hr
        rw [if_pos hd] at hr
        cases hr
      refine keeps_ite (fun _ => keeps_pure _) fun _ => ?_
      refine keeps_bind (unpaid_saveAccount (hc _ (if_neg hdeployer)) _) fun _ => ?_
      exact unpaid_moveValue _ (deployer_ne hx)

theorem unpaid_frame {depth : Nat} {fr : SubFrame} {db : Db}
    (hsites : ∀ x : Site, Clear e a x.hook.ctx → (∀ y ∈ e.tree depth x, ∀ b, y.constructs = some b → Apart e a b) →
      (unpaid e a).rel x.db (x.hook.after (e.hooks depth) x.db))
    (hclear : Clear e a fr.ctx) (hc : ∀ y ∈ e.forest depth fr db, ∀ b, y.constructs = some b → Apart e a b) :
    (unpaid e a).rel db (e.runFrame (e.hooks depth) fr db).2 :=
  (path_inv (I := (unpaid e a).rel db) (e.runFrame_path (e.hooks depth) fr db) ((unpaid e a).refl db) fun x hx hrel =>
    (unpaid e a).trans hrel (hsites x (ctx_frameSites hx ▸ hclear) fun y hy =>
      hc y (List.mem_flatMap.mpr ⟨x, hx, hy⟩))).2

theorem unpaid_tree (depth : Nat) (x : Site) (hx : Clear e a x.hook.ctx)
    (hc : ∀ y ∈ e.tree depth x, ∀ b, y.constructs = some b → Apart e a b) :
    (unpaid e a).rel x.db (x.hook.after (e.hooks depth) x.db) := by
  induction depth generalizing x with
  | zero =>
    obtain ⟨hook, db⟩ := x
    cases hook <;> exact (unpaid e a).refl _
  | succ depth ih =>
    refine unpaid_of_noContract fun hn => ?_
    have hself := hc ⟨depth, x⟩ (List.mem_append_right _ (List.mem_singleton_self _))
    have hinner : (unpaid e a).rel x.db (e.inner ⟨depth, x⟩) := by
      unfold inner
      dsimp only
      cases hfr : e.siteFrame x with
      | none => exact (unpaid e a).refl _
      | some fr =>
        have hclear := clear_siteFrame hfr hx hn hself
        refine unpaid_frame ih hclear fun y hy => hc y (List.mem_append_left _ ?_)
        rw [hfr]
        exact hy
    have hown := unpaid_ownWrites (x := ⟨depth, x⟩) hx hself (e.inner ⟨depth, x⟩)
    rw [← outer_eq] at hown
    exact (unpaid e a).trans hinner hown

/-- Who starts an execution. -/
def Entry.sender : Entry → String
  | .call caller _ _ _ _ => caller
  | .deploy deployer _ _ _ _ => deployer

theorem clear_entryFrame {entry : Entry} {t : Tables} {fr : SubFrame} (hfr : entry.frame e t = .ok fr)
    (hs : entry.sender ≠ a) (hn : NoContract e a t) (hc : ∀ b, entry.constructs e t = some b → Apart e a b) :
    Clear e a fr.ctx := by
  unfold Entry.constructs at hc
  cases entry with
  | call caller contractAddr calldataHex value gasLimit =>
    unfold Entry.frame at hfr
    dsimp only at hfr
    cases hcode : codeOf t contractAddr with
    | none =>
      rw [hcode] at hfr
      cases hfr
    | some codeHex =>
      rw [hcode] at hfr
      dsimp only at hfr
      cases hbytes : bytesFromHex (removeHexPrefixes codeHex) with
      | none =>
        rw [hbytes] at hfr
        cases hfr
      | some code =>
        rw [hbytes] at hfr
        cases hfr
        exact ⟨hn contractAddr (by rw [hcode]; exact Option.some_ne_none _), hs⟩
  | deploy deployer bytecodeHex value gasLimit salt =>
    have hnew : Apart e a (createdAddress (deployer ++ salt)) := hc _ (by rw [hfr])
    unfold Entry.frame at hfr
    dsimp only at hfr
    cases hbytes : bytesFromHex (removeHexPrefixes bytecodeHex) with
    | none =>
      rw [hbytes] at hfr
      cases hfr
    | some code =>
      rw [hbytes] at hfr
      dsimp only at hfr
      by_cases hempty : code = []
      · rw [if_pos hempty] at hfr
        cases hfr
      · rw [if_neg hempty] at hfr
        cases hvalid : validateBytecodeHex bytecodeHex with
        | error detail =>
          rw [hvalid] at hfr
          cases hfr
        | ok u =>
          rw [hvalid] at hfr
          cases hfr
          exact ⟨hnew, hs⟩

theorem unpaid_conclude {entry : Entry} {t : Tables} {fr : SubFrame} (hfr : entry.frame e t = .ok fr) (m : Machine)
    (hs : entry.sender ≠ a) (hc : ∀ b, entry.constructs e t = some b → Apart e a b) :
    Keeps (unpaid e a) (entry.conclude e m) := by
  unfold Entry.constructs at hc
  cases entry with
  | call caller contractAddr calldataHex value gasLimit =>
    refine keeps_ite (fun _ => keeps_pure _) fun _ => ?_
    refine keeps_bind (unpaid_updateAccountStorage _ _) fun _ => keeps_bind (unpaid_persistLogs _ _) fun _ => ?_
    exact unpaid_moveValue _ hs
  | deploy deployer bytecodeHex value gasLimit salt =>
    have hnew : Apart e a (createdAddress (deployer ++ salt)) := hc _ (by rw [hfr])
    refine keeps_ite (fun _ => keeps_pure _) fun _ => ?_
    refine keeps_bind (unpaid_saveAccount hnew _) fun _ => keeps_bind (unpaid_persistLogs _ _) fun _ => ?_
    exact unpaid_moveValue _ hs

/-- An execution that somebody else starts takes nothing from an account without code, at whose address it runs
no constructor. -/
theorem Entry.unpaid_run {entry : Entry} {db : Db} (hs : entry.sender ≠ a)
    (hc : ∀ b ∈ entry.constructed e db, Apart e a b) : (unpaid e a).rel db (entry.run e db).2 := by
  refine unpaid_of_noContract fun hn => ?_
  rw [Entry.run_eq]
  unfold Entry.constructed Entry.forest at hc
  cases hframe : entry.frame e db.live with
  | error err => exact (unpaid e a).refl _
  | ok fr =>
    rw [hframe] at hc
    dsimp only at hc ⊢
    have hnodes : ∀ y ∈ e.forest e.host.recursionLimit fr db, ∀ b, y.constructs = some b → Apart e a b := fun y hy b hb =>
      hc b (List.mem_append_left _ (List.mem_filterMap.mpr ⟨y, hy, hb⟩))
    have hown : ∀ b, entry.constructs e db.live = some b → Apart e a b := fun b hb =>
      hc b (List.mem_append_right _ (Option.mem_toList.mpr hb))
    have hran : (unpaid e a).rel db (Entry.ran e db fr).2 :=
      unpaid_frame (unpaid_tree _) (clear_entryFrame hframe hs hn hown) hnodes
    rcases hresult : Entry.ran e db fr with ⟨f | m, db₁⟩
    · rw [hresult] at hran
      exact hran
    · rw [hresult] at hran
      exact (unpaid e a).trans hran (unpaid_conclude hframe m hs hown db₁)

end payers

end EvmAdapter

/-! ## Transactions -/

namespace Blockchain

open EvmAdapter

variable {c : Blockchain} {now height : Int} {proposer a : String} {tx tx' : Transaction} {db db' : Db}

theorem contractEntry_ran {t : Tables} (hp : c.precheck t tx = .ok ()) (hk : c.kindOf t tx ≠ .transfer) :
    ∃ entry, c.contractEntry t tx height = some entry ∧ entry.sender = tx.fromAddr ∧
      c.runContract now (c.kindOf t tx) tx height = entry.run (c.adapter now) := by
  unfold contractEntry
  rw [hp]
  cases hkind : c.kindOf t tx with
  | transfer => exact absurd hkind hk
  | call => exact ⟨_, rfl, rfl, rfl⟩
  | deploy => exact ⟨_, rfl, rfl, rfl⟩

theorem contractEntry_transfer {t : Tables} (hk : c.kindOf t tx = .transfer) : c.contractEntry t tx height = none := by
  unfold contractEntry
  rw [hk]
  cases c.precheck t tx with
  | error err => rfl
  | ok u => rfl

/-- The contract that a transaction runs starts no constructor under an address taken for `a`. -/
def Spares (c : Blockchain) (now height : Int) (a : String) (db : Db) (tx : Transaction) : Prop :=
  ∀ entry, c.contractEntry db.live tx height = some entry →
    ∀ b ∈ entry.constructed (c.adapter now) db, Apart (c.adapter now) a b

theorem spares_transfer (hk : c.kindOf db.live tx = .transfer) : c.Spares now height a db tx := fun entry hentry => by
  rw [contractEntry_transfer hk] at hentry
  cases hentry

/-- A transaction takes from its sender and from contracts only. -/
theorem TxStep.unpaid (hs : c.config.Sound) (hv : 0 ≤ tx.value.toRat) (hg : 0 ≤ tx.gas)
    (hc : c.Spares now height a db tx) (ha : tx.fromAddr ≠ a) (h : TxStep c now height proposer tx db tx' db') :
    (unpaid (c.adapter now) a).rel db db' := by
  have hfee := gasFee_nonneg hs hg
  cases h with
  | transfer checks kind =>
    intro hn
    have hacc := accounts_recordPool (c := c) tx.fromAddr (tx.value.toRat + c.gasFee tx.gas)
      (db.exec (c.transferTables tx (c.feeRecipient proposer)))
    refine ⟨hn.congr fun x => ?_, ?_⟩
    · rw [codeOf_congr hacc, Store.live_exec, codeOf_transferTables]
    · rw [Tables.balance_congr hacc, Store.live_exec]
      calc db.live.getBalance a
          ≤ (db.live.applyBalanceDelta tx.fromAddr (-(tx.value.toRat + c.gasFee tx.gas))).getBalance a :=
            Tables.le_applyBalanceDelta (.inl ha.symm) _
        _ ≤ _ := Tables.le_applyBalanceDelta (.inr hv) _
        _ ≤ _ := le_settleTables hs hfee tx _ _
  | @contract res db₁ checks kind run success funds =>
    obtain ⟨entry, hentry, hsender, heq⟩ := @contractEntry_ran c now height tx db.live checks kind
    have hrun : (AbsoluteChain.unpaid (c.adapter now) a).rel db db₁ := by
      have hpaid := Entry.unpaid_run (hsender ▸ ha) (hc entry hentry)
      rwa [← heq, run] at hpaid
    refine (AbsoluteChain.unpaid (c.adapter now) a).trans hrun fun hn => ?_
    have hacc := accounts_recordPool (c := c) tx.fromAddr ((c.contractCharge tx res.gasUsed).fee + tx.value.toRat)
      (db₁.exec (c.contractTables tx (c.feeRecipient proposer) (c.contractCharge tx res.gasUsed)))
    refine ⟨hn.congr fun x => ?_, ?_⟩
    · rw [codeOf_congr hacc, Store.live_exec]
      unfold contractTables
      rw [codeOf_settleTables, Blockchain.codeOf_applyBalanceDelta]
    · rw [Tables.balance_congr hacc, Store.live_exec]
      calc db₁.live.getBalance a
          ≤ (db₁.live.applyBalanceDelta tx.fromAddr (-(c.contractCharge tx res.gasUsed).fee)).getBalance a :=
            Tables.le_applyBalanceDelta (.inl ha.symm) _
        _ ≤ _ := le_settleTables hs (hfee.trans (le_max_left _ _)) tx _ _

theorem TxStep.codeless (hc : c.Spares now height a db tx) (h : TxStep c now height proposer tx db tx' db')
    (hn : NoContract (c.adapter now) a db.live) : NoContract (c.adapter now) a db'.live := by
  cases h with
  | transfer checks kind =>
    refine hn.congr fun x => ?_
    rw [codeOf_congr (accounts_recordPool _ _ _), Store.live_exec, codeOf_transferTables]
  | @contract res db₁ checks kind run success funds =>
    obtain ⟨entry, hentry, -, heq⟩ := @contractEntry_ran c now height tx db.live checks kind
    have hrun : NoContract (c.adapter now) a db₁.live := by
      have hkept := Entry.codeless_run (hc entry hentry) hn
      rwa [← heq, run] at hkept
    refine hrun.congr fun x => ?_
    rw [codeOf_congr (accounts_recordPool _ _ _), Store.live_exec]
    unfold contractTables
    rw [codeOf_settleTables, Blockchain.codeOf_applyBalanceDelta]

end Blockchain

end AbsoluteChain
