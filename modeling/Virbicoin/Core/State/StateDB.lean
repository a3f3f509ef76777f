import Virbicoin.Core.State.World
import Virbicoin.Lib.Journal
import Virbicoin.Trie.Hasher

/-!
# The state database

`core/state/statedb.go`, `core/state/state_object.go` and `core/state/journal.go`, as far as one
transaction uses them. Live objects cache what was read from the database. Every change appends an
entry to the journal; `JournalEntry.revert` undoes one.

The database below is a `Backend`: what `snap.Account`, `snap.Storage`, the tries and the code store
return. `snapDestructs` is kept by address (by its hash in the source).
-/

namespace Virbicoin.State

open Virbicoin.Lib Function
open Virbicoin.Mpt (emptyRoot)

structure Account where
  nonce : Nat := 0
  balance : Int := 0
  root : Hash := emptyRoot
  codeHash : Hash

/-- What is below the live objects. Without an account, or without a snapshot and under the empty
root, all storage is zero. -/
structure Backend where
  snap : Bool
  account : Address → Option Account
  /-- The value of a slot of an account with the given storage root. -/
  storage : Address → Hash → Hash → Hash
  contractCode : Address → Hash → Option Bytes
  storage_empty : ∀ addr key, snap = false ∨ account addr = none → storage addr emptyRoot key = 0

structure StateObject where
  data : Account
  code : Option Bytes := none
  originStorage : Hash → Option Hash := fun _ => none
  pendingStorage : Hash → Option Hash := fun _ => none
  dirtyStorage : Hash → Option Hash := fun _ => none
  suicided : Bool := false
  deleted : Bool := false

inductive JournalEntry where
  | createObject (account : Address)
  | resetObject (account : Address) (prev : StateObject) (prevdestruct : Bool)
  | suicide (account : Address) (prev : Bool) (prevbalance : Int)
  | balance (account : Address) (prev : Int)
  | nonce (account : Address) (prev : Nat)
  | storage (account : Address) (key prevalue : Hash)
  | code (account : Address) (prevcode : Option Bytes) (prevhash : Hash)
  | refund (prev : Nat)
  | addLog (txhash : Hash)
  | addPreimage (hash : Hash)
  | touch (account : Address)
  | accessListAddAccount (address : Address)
  | accessListAddSlot (address : Address) (slot : Hash)

/-- The fields of `StateDB` apart from the journal and its revisions. -/
structure Objects where
  stateObjects : Address → Option StateObject := fun _ => none
  snapDestructs : Address → Bool := fun _ => false
  refund : Nat := 0
  thash : Hash := 0
  bhash : Hash := 0
  txIndex : Nat := 0
  logs : Hash → Option (List Log) := fun _ => none
  logSize : Nat := 0
  preimages : Hash → Option Bytes := fun _ => none
  accessList : AccessList := {}

abbrev StateDB := Journaled Objects JournalEntry

variable (keccak : Bytes → Hash) (B : Backend)

/-! ## State objects -/

namespace StateObject

def empty (obj : StateObject) : Bool :=
  decide (obj.data.nonce = 0 ∧ obj.data.balance = 0 ∧ obj.data.codeHash = keccak [])

/-- The object and the value; a value that was read from below is cached. The flag says whether the
account was destructed in this block. -/
def getCommittedState (obj : StateObject) (addr : Address) (destructed : Bool) (key : Hash) :
    StateObject × Hash :=
  match obj.pendingStorage key with
  | some value => (obj, value)
  | none =>
    match obj.originStorage key with
    | some value => (obj, value)
    | none =>
      if B.snap && destructed then (obj, 0)
      else
        let value := B.storage addr obj.data.root key
        ({ obj with originStorage := update obj.originStorage key (some value) }, value)

def getState (obj : StateObject) (addr : Address) (destructed : Bool) (key : Hash) :
    StateObject × Hash :=
  match obj.dirtyStorage key with
  | some value => (obj, value)
  | none => obj.getCommittedState B addr destructed key

def setState (obj : StateObject) (key value : Hash) : StateObject :=
  { obj with dirtyStorage := update obj.dirtyStorage key (some value) }

def getCode (obj : StateObject) (addr : Address) : StateObject × Option Bytes :=
  match obj.code with
  | some code => (obj, some code)
  | none =>
    if obj.data.codeHash = keccak [] then (obj, none)
    else
      let code := B.contractCode addr obj.data.codeHash
      ({ obj with code }, code)

def setBalance (obj : StateObject) (amount : Int) : StateObject :=
  { obj with data := { obj.data with balance := amount } }

def setNonce (obj : StateObject) (nonce : Nat) : StateObject :=
  { obj with data := { obj.data with nonce } }

def setCode (obj : StateObject) (codeHash : Hash) (code : Option Bytes) : StateObject :=
  { obj with code, data := { obj.data with codeHash } }

end StateObject

def newObject (data : Account) : StateObject := { data }

/-! ## Live objects -/

namespace Objects

def setStateObject (s : Objects) (addr : Address) (obj : StateObject) : Objects :=
  { s with stateObjects := update s.stateObjects addr (some obj) }

/-- The object of an address, also a deleted one. A loaded object enters the live set. -/
def getDeletedStateObject (s : Objects) (addr : Address) : Objects × Option StateObject :=
  match s.stateObjects addr with
  | some obj => (s, some obj)
  | none =>
    match B.account addr with
    | none => (s, none)
    | some data => (s.setStateObject addr (newObject data), some (newObject data))

def getStateObject (s : Objects) (addr : Address) : Objects × Option StateObject :=
  match s.getDeletedStateObject B addr with
  | (s, some obj) => (s, if obj.deleted then none else some obj)
  | (s, none) => (s, none)

end Objects

/-! ## Undoing an entry -/

/-- `none` is a panic: no object, no log or no slot to take back. -/
def JournalEntry.revert (s : Objects) : JournalEntry → Option Objects
  | .createObject account =>
    some { s with stateObjects := update s.stateObjects account none }
  | .resetObject account prev prevdestruct =>
    let s := s.setStateObject account prev
    some (if !prevdestruct && B.snap then
        { s with snapDestructs := update s.snapDestructs account false }
      else s)
  | .suicide account prev prevbalance =>
    match s.getStateObject B account with
    | (s, some obj) =>
      some (s.setStateObject account ({ obj with suicided := prev }.setBalance prevbalance))
    | (s, none) => some s
  | .balance account prev =>
    match s.getStateObject B account with
    | (s, some obj) => some (s.setStateObject account (obj.setBalance prev))
    | (_, none) => none
  | .nonce account prev =>
    match s.getStateObject B account with
    | (s, some obj) => some (s.setStateObject account (obj.setNonce prev))
    | (_, none) => none
  | .storage account key prevalue =>
    match s.getStateObject B account with
    | (s, some obj) => some (s.setStateObject account (obj.setState key prevalue))
    | (_, none) => none
  | .code account prevcode prevhash =>
    match s.getStateObject B account with
    | (s, some obj) => some (s.setStateObject account (obj.setCode prevhash prevcode))
    | (_, none) => none
  | .refund prev => some { s with refund := prev }
  | .addLog txhash =>
    match (s.logs txhash).getD [] with
    | [] => none
    | [_] => some { s with
        logs := update s.logs txhash none
        logSize := s.logSize - 1 }
    | logs => some { s with
        logs := update s.logs txhash (some logs.dropLast)
        logSize := s.logSize - 1 }
  | .addPreimage hash => some { s with preimages := update s.preimages hash none }
  | .touch _ => some s
  | .accessListAddAccount address =>
    some { s with accessList := s.accessList.deleteAddress address }
  | .accessListAddSlot address slot =>
    (s.accessList.deleteSlot address slot).map fun al => { s with accessList := al }

/-! ## Mutators -/

namespace StateDB

def setStateObject (s : StateDB) (addr : Address) (obj : StateObject) : StateDB :=
  { s with state := s.state.setStateObject addr obj }

def getDeletedStateObject (s : StateDB) (addr : Address) : StateDB × Option StateObject :=
  let (o, obj) := s.state.getDeletedStateObject B addr
  ({ s with state := o }, obj)

def getStateObject (s : StateDB) (addr : Address) : StateDB × Option StateObject :=
  let (o, obj) := s.state.getStateObject B addr
  ({ s with state := o }, obj)

/-- The new object, and the object that was there unless it was deleted. -/
def createObject (s : StateDB) (addr : Address) : StateDB × StateObject × Option StateObject :=
  let newobj := newObject { codeHash := keccak [] }
  match s.getDeletedStateObject B addr with
  | (s, none) => (setStateObject (s.append (.createObject addr)) addr newobj, newobj, none)
  | (s, some prev) =>
    let prevdestruct := B.snap && s.state.snapDestructs addr
    let snapDestructs := if B.snap && !prevdestruct then
        update s.state.snapDestructs addr true
      else s.state.snapDestructs
    let s := { s with state := { s.state with snapDestructs } }
    (setStateObject (s.append (.resetObject addr prev prevdestruct)) addr newobj, newobj,
      if prev.deleted then none else some prev)

def getOrNewStateObject (s : StateDB) (addr : Address) : StateDB × StateObject :=
  match s.getStateObject B addr with
  | (s, some obj) => (s, obj)
  | (s, none) =>
    let (s, newobj, _) := createObject keccak B s addr
    (s, newobj)

def createAccount (s : StateDB) (addr : Address) : StateDB :=
  match createObject keccak B s addr with
  | (s, newobj, some prev) => s.setStateObject addr (newobj.setBalance prev.data.balance)
  | (s, _, none) => s

def setBalance (s : StateDB) (addr : Address) (obj : StateObject) (amount : Int) : StateDB :=
  setStateObject (s.append (.balance addr obj.data.balance)) addr (obj.setBalance amount)

def addBalance (s : StateDB) (addr : Address) (amount : Int) : StateDB :=
  let (s, obj) := getOrNewStateObject keccak B s addr
  if amount = 0 then
    if obj.empty keccak then s.append (.touch addr) else s
  else setBalance s addr obj (obj.data.balance + amount)

def subBalance (s : StateDB) (addr : Address) (amount : Int) : StateDB :=
  let (s, obj) := getOrNewStateObject keccak B s addr
  if amount = 0 then s else setBalance s addr obj (obj.data.balance - amount)

def setNonce (s : StateDB) (addr : Address) (nonce : Nat) : StateDB :=
  let (s, obj) := getOrNewStateObject keccak B s addr
  setStateObject (s.append (.nonce addr obj.data.nonce)) addr (obj.setNonce nonce)

def setCode (s : StateDB) (addr : Address) (code : Option Bytes) : StateDB :=
  let (s, obj) := getOrNewStateObject keccak B s addr
  let (obj, prevcode) := obj.getCode keccak B addr
  setStateObject (s.append (.code addr prevcode obj.data.codeHash)) addr
    (obj.setCode (keccak (code.getD [])) code)

def setState (s : StateDB) (addr : Address) (key value : Hash) : StateDB :=
  let (s, obj) := getOrNewStateObject keccak B s addr
  let (obj, prev) := obj.getState B addr (s.state.snapDestructs addr) key
  if prev = value then s.setStateObject addr obj
  else setStateObject (s.append (.storage addr key prev)) addr (obj.setState key value)

def suicide (s : StateDB) (addr : Address) : StateDB × Bool :=
  match s.getStateObject B addr with
  | (s, none) => (s, false)
  | (s, some obj) =>
    (setStateObject (s.append (.suicide addr obj.suicided obj.data.balance)) addr
      ({ obj with suicided := true }.setBalance 0), true)

def addRefund (s : StateDB) (gas : Nat) : StateDB :=
  { s.append (.refund s.state.refund) with
    state := { s.state with refund := (s.state.refund + gas) % 2 ^ 64 } }

/-- `none` is the panic on a counter below zero. -/
def subRefund (s : StateDB) (gas : Nat) : Option StateDB :=
  if gas > s.state.refund then none
  else some { s.append (.refund s.state.refund) with
    state := { s.state with refund := s.state.refund - gas } }

def addLog (s : StateDB) (log : Log) : StateDB :=
  let o := s.state
  let log := { log with
    txHash := o.thash, blockHash := o.bhash, txIndex := o.txIndex, index := o.logSize }
  { s.append (.addLog o.thash) with
    state := { o with
      logs := update o.logs o.thash (some ((o.logs o.thash).getD [] ++ [log]))
      logSize := o.logSize + 1 } }

def addPreimage (s : StateDB) (hash : Hash) (preimage : Bytes) : StateDB :=
  match s.state.preimages hash with
  | some _ => s
  | none =>
    let preimages := update s.state.preimages hash (some preimage)
    { s.append (.addPreimage hash) with state := { s.state with preimages } }

def addAddressToAccessList (s : StateDB) (addr : Address) : StateDB :=
  let (al, change) := s.state.accessList.addAddress addr
  let s := { s with state := { s.state with accessList := al } }
  if change then s.append (.accessListAddAccount addr) else s

def addSlotToAccessList (s : StateDB) (addr : Address) (slot : Hash) : StateDB :=
  let (al, addrMod, slotMod) := s.state.accessList.addSlot addr slot
  let s := { s with state := { s.state with accessList := al } }
  let s := if addrMod then s.append (.accessListAddAccount addr) else s
  if slotMod then s.append (.accessListAddSlot addr slot) else s

def snapshot (s : StateDB) : Nat × StateDB := Journaled.snapshot s

def revertToSnapshot (s : StateDB) (revid : Nat) : Option StateDB :=
  Journaled.revertTo (fun e s => JournalEntry.revert B s e) s revid

/-! ## Getters

The values they return; the state they leave behind differs in its caches only. -/

def exist (s : StateDB) (addr : Address) : Bool := (s.getStateObject B addr).2.isSome

def empty (s : StateDB) (addr : Address) : Bool :=
  (s.getStateObject B addr).2.elim true (StateObject.empty keccak)

def getBalance (s : StateDB) (addr : Address) : Int :=
  (s.getStateObject B addr).2.elim 0 (·.data.balance)

def getNonce (s : StateDB) (addr : Address) : Nat :=
  (s.getStateObject B addr).2.elim 0 (·.data.nonce)

def getCode (s : StateDB) (addr : Address) : StateDB × Option Bytes :=
  match s.getStateObject B addr with
  | (s, none) => (s, none)
  | (s, some obj) =>
    let (obj, code) := obj.getCode keccak B addr
    (s.setStateObject addr obj, code)

def getCodeHash (s : StateDB) (addr : Address) : Hash :=
  (s.getStateObject B addr).2.elim 0 (·.data.codeHash)

def getState (s : StateDB) (addr : Address) (key : Hash) : StateDB × Hash :=
  match s.getStateObject B addr with
  | (s, none) => (s, 0)
  | (s, some obj) =>
    let (obj, value) := obj.getState B addr (s.state.snapDestructs addr) key
    (s.setStateObject addr obj, value)

def getCommittedState (s : StateDB) (addr : Address) (key : Hash) : StateDB × Hash :=
  match s.getStateObject B addr with
  | (s, none) => (s, 0)
  | (s, some obj) =>
    let (obj, value) := obj.getCommittedState B addr (s.state.snapDestructs addr) key
    (s.setStateObject addr obj, value)

def hasSuicided (s : StateDB) (addr : Address) : Bool :=
  (s.getStateObject B addr).2.elim false (·.suicided)

end StateDB

end Virbicoin.State
