import AbsoluteChain.MiniVM

/-!
# MiniVM contracts

`ContractManager` of `execution/contract_manager.py` over the table
`minivm_contracts` of `storage/database.py`.
-/

namespace AbsoluteChain.MiniVM

open Python

/-! ## Storage as JSON -/

def dumpKey : VmValue → String
  | .int n => toString n
  | .str s => s

/-- The members of the JSON object, in order. -/
def dumpStorage (d : Storage) : List (String × VmValue) := d.entries.map fun e => (dumpKey e.1, e.2)

def loadStorage (members : List (String × VmValue)) : Storage :=
  members.foldl (fun d e => d.set (.str e.1) e.2) .empty

/-! ## The manager -/

structure Contract where
  bytecode : Bytecode
  storage : Storage
  calls : Nat

/-- A row of `minivm_contracts`. The code comes back from JSON as it was: names, numbers, strings and nulls. -/
structure ContractRow where
  bytecode : Bytecode
  storage : List (String × VmValue)
  calls : Nat

def Contract.row (c : Contract) : ContractRow := ⟨c.bytecode, dumpStorage c.storage, c.calls⟩

def ContractRow.contract (r : ContractRow) : Contract := ⟨r.bytecode, loadStorage r.storage, r.calls⟩

structure ContractManager where
  contracts : Dict String Contract
  db : Dict String ContractRow

structure CallResult where
  success : Bool
  gasUsed : Nat
  stack : List VmValue
  storage : Storage

def callCode (bytecode : Bytecode) (args : List VmValue) : Bytecode :=
  args.reverse.foldl (fun code arg => ("PUSH", some arg) :: code) bytecode ++ [("STOP", none)]

namespace ContractManager

/-- A node on an empty database. -/
def new : ContractManager := ⟨[], []⟩

/-- A node that starts on the database of this one. -/
def restart (m : ContractManager) : ContractManager :=
  { m with contracts := m.db.map fun e => (e.1, e.2.contract) }

def persist (m : ContractManager) (address : String) (c : Contract) : ContractManager :=
  { contracts := m.contracts.set address c, db := m.db.set address c.row }

def deploy (m : ContractManager) (bytecode : Bytecode) (address : String) (initialStorage : Option Storage) :
    Bool × ContractManager :=
  if m.contracts.contains address then (false, m)
  else (true, m.persist address ⟨bytecode, initialStorage.getD .empty, 0⟩)

/-- The method's name is not looked at. An exception of the machine passes through, and nothing is kept. -/
def call (m : ContractManager) (address _method : String) (args : List VmValue) :
    Except VmError (Option CallResult) × ContractManager :=
  match m.contracts.get? address with
  | none => (.ok none, m)
  | some c =>
    match execute (callCode c.bytecode args) defaultGasLimit c.storage with
    | .error e => (.error e, m)
    | .ok r =>
      (.ok (some ⟨r.success, r.gasUsed, r.stack, r.storage⟩),
        m.persist address { c with storage := r.storage, calls := c.calls + 1 })

def getStorage (m : ContractManager) (address : String) (key : VmValue) : VmValue :=
  match m.contracts.get? address with
  | none => .int 0
  | some c => c.storage.get key

end ContractManager

/-! ## The code of a call -/

theorem callCode_eq (bytecode : Bytecode) (args : List VmValue) :
    callCode bytecode args = args.map (fun arg => ("PUSH", some arg)) ++ bytecode ++ [("STOP", none)] := by
  unfold callCode
  congr 1
  rw [List.foldl_reverse]
  induction args with
  | nil => rfl
  | cons arg args ih => rw [List.foldr_cons, ih]; rfl

variable (bytecode : Bytecode) (args : List VmValue)

theorem callCode_length : (callCode bytecode args).length = bytecode.length + args.length + 1 := by
  rw [callCode_eq]
  simp
  omega

theorem callCode_push {i : Nat} {arg : VmValue} (h : args[i]? = some arg) :
    (callCode bytecode args)[i]? = some ("PUSH", some arg) := by
  have hi := (List.getElem?_eq_some_iff.mp h).1
  rw [callCode_eq, List.append_assoc, List.getElem?_append_left (by simpa using hi), List.getElem?_map, h]
  rfl

theorem callCode_bytecode {i : Nat} (h : i < bytecode.length) :
    (callCode bytecode args)[i + args.length]? = bytecode[i]? := by
  rw [callCode_eq, List.append_assoc, List.getElem?_append_right (by simp), List.length_map, Nat.add_sub_cancel,
    List.getElem?_append_left h]

theorem callCode_stop : (callCode bytecode args)[bytecode.length + args.length]? = some ("STOP", none) := by
  rw [callCode_eq, List.append_assoc, List.getElem?_append_right (by simp), List.length_map, Nat.add_sub_cancel,
    List.getElem?_append_right (Nat.le_refl _), Nat.sub_self]
  rfl

end AbsoluteChain.MiniVM
