import AbsoluteChain.ContractManager
import AbsoluteChain.Runs
import Mathlib.Data.List.Induction

/-!
# A restart between two calls

What the callers of the contracts see after a node has loaded them again from
the database, against what they would have seen.
-/

namespace AbsoluteChain.MiniVM

open Python

/-! ## What callers see -/

inductive ContractOp where
  | deploy (bytecode : Bytecode) (address : String) (initialStorage : Option Storage)
  | call (address method : String) (args : List VmValue)
  | getStorage (address : String) (key : VmValue)

inductive Observation where
  | deployed (ok : Bool)
  | noContract
  | raised (e : VmError)
  | result (success : Bool) (gasUsed : Nat) (stack : List VmValue)
  | value (v : VmValue)

def observeCall : Except VmError (Option CallResult) → Observation
  | .ok none => .noContract
  | .ok (some r) => .result r.success r.gasUsed r.stack
  | .error e => .raised e

def ContractOp.apply (m : ContractManager) : ContractOp → Observation × ContractManager
  | .deploy bytecode address initialStorage =>
    let r := m.deploy bytecode address initialStorage
    (.deployed r.1, r.2)
  | .call address method args =>
    let r := m.call address method args
    (observeCall r.1, r.2)
  | .getStorage address key => (.value (m.getStorage address key), m)

/-- What a series of calls gets to see. -/
def observe : List ContractOp → ContractManager → List Observation
  | [], _ => []
  | op :: ops, m => (op.apply m).1 :: observe ops (op.apply m).2

/-- No later call can tell whether the node restarts now. -/
def ContractManager.Transparent (m : ContractManager) : Prop := ∀ ops, observe ops m = observe ops m.restart

inductive ContractEvent where
  | op (op : ContractOp)
  | restart

def ContractManager.step : ContractEvent → ContractManager → ContractManager
  | .op op, m => (op.apply m).2
  | .restart, m => m.restart

/-- What JSON keeps of a storage: under a number only zeros, and under the digits of that number, if they came first,
only zeros as well. -/
def Storage.Portable (d : Storage) : Prop :=
  ∀ before n v rest, d.entries = before ++ (.int n, v) :: rest →
    v = .int 0 ∧ ∀ w, (.str (toString n), w) ∈ before → w = .int 0

def ContractManager.Portable (m : ContractManager) : Prop :=
  ∀ address c, m.contracts.get? address = some c → c.storage.Portable

/-! ## A storage through JSON -/

def reload (entries : Dict VmValue VmValue) : Storage := loadStorage (entries.map fun e => (dumpKey e.1, e.2))

theorem reload_append (entries : Dict VmValue VmValue) (k v : VmValue) :
    reload (entries ++ [(k, v)]) = (reload entries).set (.str (dumpKey k)) v := by
  simp [reload, loadStorage]

theorem reload_get_int (entries : Dict VmValue VmValue) (n : Int) : (reload entries).get (.int n) = .int 0 := by
  induction entries using List.reverseRecOn with
  | nil => rfl
  | append_singleton entries e ih =>
    rw [reload_append, Storage.get_set, if_neg VmValue.noConfusion, ih]

theorem reload_get_str (entries : Dict VmValue VmValue) (k v : VmValue) (s : String) :
    (reload (entries ++ [(k, v)])).get (.str s) = if s = dumpKey k then v else (reload entries).get (.str s) := by
  rw [reload_append, Storage.get_set]
  simp only [VmValue.str.injEq]

def lookup (entries : Dict VmValue VmValue) (k : VmValue) : VmValue := (entries.get? k).getD (.int 0)

theorem lookup_append (entries : Dict VmValue VmValue) {k : VmValue} (hk : k ∉ entries.map Prod.fst) (v j : VmValue) :
    lookup (entries ++ [(k, v)]) j = if j = k then v else lookup entries j := by
  unfold lookup Dict.get?
  rw [List.lookup_append]
  by_cases h : j = k
  · subst h
    have hnone : entries.lookup j = none := by
      rw [List.lookup_eq_none_iff]
      intro e he
      rw [bne_iff_ne]
      intro hj
      exact hk (hj ▸ List.mem_map_of_mem he)
    simp [hnone]
  · simp [List.lookup_cons, h, beq_eq_false_iff_ne.mpr h]

section
variable {d : Storage}

theorem Storage.get_of_mem {k v : VmValue} (h : (k, v) ∈ d.entries) : d.get k = v := by
  unfold Storage.get
  rw [d.keyed.get?_of_mem h]
  rfl

theorem Storage.not_mem_before {before rest : Dict VmValue VmValue} {k v : VmValue} (h : d.entries = before ++ (k, v) :: rest) :
    k ∉ before.map Prod.fst := by
  have hd := d.keyed
  unfold Dict.Keyed at hd
  rw [h, List.map_append, List.map_cons, List.nodup_append] at hd
  intro hk
  exact hd.2.2 k hk k List.mem_cons_self rfl

theorem reload_get_of_portable (h : d.Portable) (s : String) (before rest : Dict VmValue VmValue)
    (hd : d.entries = before ++ rest) : (reload before).get (.str s) = lookup before (.str s) := by
  induction before using List.reverseRecOn generalizing rest with
  | nil => rfl
  | append_singleton before e ih =>
    obtain ⟨k, v⟩ := e
    have hsplit : d.entries = before ++ (k, v) :: rest := by
      rw [hd]
      simp
    rw [reload_get_str, lookup_append _ (Storage.not_mem_before hsplit), ih _ hsplit]
    cases k with
    | str t =>
      by_cases hs : s = t
      · simp [dumpKey, hs]
      · simp [dumpKey, hs]
    | int n =>
      obtain ⟨hv, hw⟩ := h before n v rest hsplit
      rw [if_neg (show ¬ VmValue.str s = .int n from VmValue.noConfusion)]
      by_cases hs : s = dumpKey (.int n)
      · rw [if_pos hs, hv]
        -- a zero replaces a zero
        unfold lookup
        cases hget : Dict.get? before (.str s) with
        | none => rfl
        | some w =>
          have hmem := Dict.mem_of_get? hget
          rw [hs] at hmem
          exact (hw w hmem).symm
      · rw [if_neg hs]

theorem agrees_of_portable (h : d.Portable) : d.Agrees (reload d.entries) := by
  intro k
  cases k with
  | str s => exact (reload_get_of_portable h s d.entries [] (List.append_nil _).symm).symm
  | int n =>
    rw [reload_get_int]
    unfold Storage.get
    cases hget : d.entries.get? (.int n) with
    | none => rfl
    | some v =>
      obtain ⟨before, rest, hsplit⟩ := List.append_of_mem (Dict.mem_of_get? hget)
      exact (h before n v rest hsplit).1

theorem reload_get_zero (hzero : ∀ n v, (.int n, v) ∈ d.entries → v = .int 0) {before : Dict VmValue VmValue} {n : Int}
    (hstr : .str (toString n) ∈ before.map Prod.fst) (later rest : Dict VmValue VmValue)
    (hd : d.entries = before ++ (.int n, .int 0) :: (later ++ rest)) :
    (reload (before ++ (.int n, .int 0) :: later)).get (.str (toString n)) = .int 0 := by
  induction later using List.reverseRecOn generalizing rest with
  | nil => rw [reload_get_str, if_pos (show toString n = dumpKey (.int n) from rfl)]
  | append_singleton later e ih =>
    obtain ⟨k, v⟩ := e
    have hsplit : d.entries = before ++ (.int n, .int 0) :: later ++ (k, v) :: rest := by
      rw [hd]
      simp
    rw [← List.cons_append, ← List.append_assoc, reload_get_str, ih _ (by simpa using hsplit)]
    split
    · rename_i hs
      cases k with
      | int j => exact hzero j v (by rw [hsplit]; simp)
      | str t =>
        have hk := Storage.not_mem_before hsplit
        have ht : toString n = t := hs
        rw [← ht, List.map_append] at hk
        exact absurd (List.mem_append_left _ hstr) hk
    · rfl

theorem portable_of_agrees (h : d.Agrees (reload d.entries)) : d.Portable := by
  have hzero : ∀ n v, (.int n, v) ∈ d.entries → v = .int 0 := by
    intro n v hmem
    rw [← Storage.get_of_mem hmem, h, reload_get_int]
  intro before n v rest hsplit
  have hv := hzero n v (by rw [hsplit]; simp)
  refine ⟨hv, ?_⟩
  intro w hw
  subst hv
  have hlast := reload_get_zero hzero (List.mem_map_of_mem hw) rest [] (by simpa using hsplit)
  rw [← hsplit, ← h (.str (toString n))] at hlast
  have hmem : (.str (toString n), w) ∈ d.entries := by
    rw [hsplit]
    exact List.mem_append_left _ hw
  rw [← Storage.get_of_mem hmem, hlast]

end

theorem Storage.eq_of_entries {d d' : Storage} (h : d.entries = d'.entries) : d = d' := by
  cases d
  cases d'
  congr

theorem reload_keys (entries : Dict VmValue VmValue) : ∀ e ∈ (reload entries).entries, ∃ s, e.1 = .str s := by
  induction entries using List.reverseRecOn with
  | nil => exact fun e he => nomatch he
  | append_singleton entries e ih =>
    intro e' he'
    rw [reload_append] at he'
    rcases Dict.mem_set he' with h | rfl
    · exact ih e' h
    · exact ⟨_, rfl⟩

/-- A storage with strings for keys is loaded as it is. -/
theorem reload_entries {entries : Dict VmValue VmValue} (hkeyed : entries.Keyed) (hkeys : ∀ e ∈ entries, ∃ s, e.1 = .str s) :
    (reload entries).entries = entries := by
  induction entries using List.reverseRecOn with
  | nil => rfl
  | append_singleton entries e ih =>
    obtain ⟨k, v⟩ := e
    obtain ⟨s, rfl⟩ := hkeys (k, v) (by simp)
    unfold Dict.Keyed at hkeyed ih
    rw [List.map_append, List.nodup_append] at hkeyed
    have hrest := ih hkeyed.1 fun e he => hkeys e (List.mem_append_left _ he)
    have hnew : .str s ∉ entries.map Prod.fst := fun h => hkeyed.2.2 _ h _ (by simp) rfl
    rw [reload_append]
    simp only [Storage.set, hrest, dumpKey]
    exact Dict.set_of_not_mem hnew v

/-- What has been loaded once is loaded unchanged again. -/
theorem reload_reload (entries : Dict VmValue VmValue) : reload (reload entries).entries = reload entries :=
  Storage.eq_of_entries (reload_entries (reload entries).keyed (reload_keys entries))

/-! ## The database holds what the memory holds -/

namespace ContractManager

/-- The node would load its own contracts, as far as JSON keeps them. -/
def Synced (m : ContractManager) : Prop :=
  ∀ address, m.restart.contracts.get? address = (m.contracts.get? address).map fun c => c.row.contract

theorem restart_get (m : ContractManager) (address : String) :
    m.restart.contracts.get? address = (m.db.get? address).map ContractRow.contract := by
  show Dict.get? (m.db.map fun e => (e.1, e.2.contract)) address = _
  induction m.db with
  | nil => rfl
  | cons e db ih =>
    obtain ⟨a, r⟩ := e
    rw [List.map_cons, Dict.get?_cons, Dict.get?_cons, ih]
    split <;> rfl

theorem synced_persist {m : ContractManager} (h : m.Synced) (address : String) (c : Contract) :
    (m.persist address c).Synced := by
  intro a
  have ha := h a
  rw [restart_get] at ha ⊢
  simp only [persist, Dict.get?_set]
  split
  · rfl
  · exact ha

theorem synced_restart {m : ContractManager} (h : m.Synced) : m.restart.Synced := by
  intro a
  have ha : m.restart.restart.contracts.get? a = _ := h a
  rw [ha, h a]
  cases m.contracts.get? a with
  | none => rfl
  | some c =>
    have hc : c.row.contract.row.contract = c.row.contract := by
      show Contract.mk _ (reload (reload c.storage.entries).entries) _ = Contract.mk _ (reload c.storage.entries) _
      rw [reload_reload]
      rfl
    simp [hc]

theorem synced_step (e : ContractEvent) (m : ContractManager) (h : m.Synced) : (step e m).Synced := by
  cases e with
  | restart => exact synced_restart h
  | op op =>
    cases op with
    | deploy bytecode address initialStorage =>
      simp only [step, ContractOp.apply, deploy]
      split
      · exact h
      · exact synced_persist h _ _
    | call address method args =>
      simp only [step, ContractOp.apply, call]
      split
      · exact h
      · split
        · exact h
        · exact synced_persist h _ _
    | getStorage address key => exact h

theorem synced_run (events : List ContractEvent) : (Runs.run step events new).Synced :=
  Runs.run_inv synced_step events fun _ => rfl

/-! ## Managers that answer alike -/

/-- The same contracts, on storages that agree. -/
def Agrees (m m' : ContractManager) : Prop :=
  ∀ address, Option.Rel (fun c c' : Contract => c.bytecode = c'.bytecode ∧ c.storage.Agrees c'.storage)
    (m.contracts.get? address) (m'.contracts.get? address)

section
variable {m m' : ContractManager} (h : m.Agrees m')
include h

theorem Agrees.persist {c c' : Contract} (hcode : c.bytecode = c'.bytecode) (hstorage : c.storage.Agrees c'.storage)
    (address : String) : (m.persist address c).Agrees (m'.persist address c') := by
  intro a
  simp only [ContractManager.persist, Dict.get?_set]
  split
  · exact .some ⟨hcode, hstorage⟩
  · exact h a

theorem Agrees.contains (address : String) : m.contracts.contains address = m'.contracts.contains address := by
  have hrel := h address
  unfold Dict.contains
  generalize m.contracts.get? address = o at hrel ⊢
  generalize m'.contracts.get? address = o' at hrel ⊢
  cases hrel with
  | none => rfl
  | some _ => rfl

theorem apply_agrees (op : ContractOp) : (op.apply m).1 = (op.apply m').1 ∧ (op.apply m).2.Agrees (op.apply m').2 := by
  cases op with
  | deploy bytecode address initialStorage =>
    simp only [ContractOp.apply, deploy, h.contains address]
    split
    · exact ⟨rfl, h⟩
    · exact ⟨rfl, h.persist rfl (.refl _) address⟩
  | call address method args =>
    have hrel := h address
    simp only [ContractOp.apply, call]
    generalize m.contracts.get? address = o at hrel ⊢
    generalize m'.contracts.get? address = o' at hrel ⊢
    cases hrel with
    | none => exact ⟨rfl, h⟩
    | @some c c' hc =>
      obtain ⟨hcode, hstorage⟩ := hc
      have hrun := @execute_agrees (callCode c.bytecode args) defaultGasLimit _ _ hstorage
      rw [hcode] at hrun
      simp only [hcode]
      generalize execute (callCode c'.bytecode args) defaultGasLimit c.storage = r at hrun ⊢
      generalize execute (callCode c'.bytecode args) defaultGasLimit c'.storage = r' at hrun ⊢
      cases hrun with
      | raised e => exact ⟨rfl, h⟩
      | returned hstack hstorage hgas hsuccess =>
        refine ⟨?_, h.persist ?_ hstorage address⟩
        · simp only [observeCall, hstack, hgas, hsuccess]
        · rfl
  | getStorage address key =>
    have hrel := h address
    refine ⟨?_, h⟩
    simp only [ContractOp.apply, getStorage]
    generalize m.contracts.get? address = o at hrel ⊢
    generalize m'.contracts.get? address = o' at hrel ⊢
    cases hrel with
    | none => rfl
    | some hc => simp only [hc.2 key]

theorem observe_agrees (ops : List ContractOp) : observe ops m = observe ops m' := by
  induction ops generalizing m m' with
  | nil => rfl
  | cons op ops ih =>
    obtain ⟨hseen, hnext⟩ := apply_agrees h op
    simp only [observe, hseen, ih hnext]

end

theorem agrees_restart_iff {m : ContractManager} (h : m.Synced) : m.Agrees m.restart ↔ m.Portable := by
  constructor
  · intro hagrees address c hc
    have hrel := hagrees address
    rw [h address, hc] at hrel
    cases hrel with
    | some hc => exact portable_of_agrees hc.2
  · intro hportable address
    rw [h address]
    cases hc : m.contracts.get? address with
    | none => exact .none
    | some c => exact .some ⟨rfl, agrees_of_portable (hportable address c hc)⟩

/-- Whoever asks for every key sees whether the storages agree. -/
theorem agrees_of_transparent {m : ContractManager} (h : m.Synced) (ht : m.Transparent) : m.Agrees m.restart := by
  intro address
  have hget := h address
  cases hc : m.contracts.get? address with
  | none =>
    rw [hget, hc]
    exact .none
  | some c =>
    rw [hc] at hget
    rw [hget]
    refine .some ⟨rfl, ?_⟩
    intro key
    have hseen := ht [.getStorage address key]
    simpa [observe, ContractOp.apply, getStorage, hc, hget] using hseen

/-- At every point of every history a restart goes unnoticed exactly when JSON keeps the storage of every contract. -/
theorem restart_transparent_iff (events : List ContractEvent) :
    (Runs.run step events new).Transparent ↔ (Runs.run step events new).Portable := by
  have hsync := synced_run events
  rw [← agrees_restart_iff hsync]
  exact ⟨agrees_of_transparent hsync, fun h => observe_agrees h⟩

def storeFive : Bytecode := [("PUSH", some (.int 1)), ("PUSH", some (.int 5)), ("STORE", none)]

theorem storeFive_run : execute (callCode storeFive []) defaultGasLimit .empty =
    .ok ⟨[], Storage.empty.set (.int 1) (.int 5), 24, true⟩ := executeFrom_eq_iff.mpr ⟨4, rfl⟩

/-- After the restart the 5 that was stored under the number 1 stands under a string. -/
theorem restart_loses_storage : ¬ ∀ events, (Runs.run step events new).Transparent := by
  intro h
  have hseen := h [.op (.deploy storeFive "c" none), .op (.call "c" "main" [])] [.getStorage "c" (.int 1)]
  have hdeploy : (new.deploy storeFive "c" none).2 = new.persist "c" ⟨storeFive, .empty, 0⟩ := rfl
  have hget : (new.persist "c" ⟨storeFive, .empty, 0⟩).contracts.get? "c" = some ⟨storeFive, .empty, 0⟩ := rfl
  have hcall : ((new.persist "c" ⟨storeFive, .empty, 0⟩).call "c" "main" []).2 =
      (new.persist "c" ⟨storeFive, .empty, 0⟩).persist "c" ⟨storeFive, Storage.empty.set (.int 1) (.int 5), 1⟩ := by
    simp only [call, hget, storeFive_run]
  simp only [Runs.run, List.foldl, step, ContractOp.apply, hdeploy, hcall] at hseen
  cases hseen

end ContractManager

end AbsoluteChain.MiniVM
