import Mathlib.Data.Finset.Insert
import Mathlib.Logic.Function.Basic
import Virbicoin.Core.Types

/-!
# What can be seen of the state

The observations of `core/state/statedb.go` and the operations on them: accounts by address, the
refund counter, the logs of each transaction, preimages and the access list. An account is what the
getters return for it. `StateDB.view` maps a `StateDB` to a `World`.

`keccak` is the hash function. Code is `none` where the source has a `nil` slice.
-/

namespace Virbicoin.State

open Function

abbrev Bytes := List (BitVec 8)

/-! ## Access list -/

/-- `accessList`. An address stands for the position of its slots, and for `none` (`-1` in the
source) if it has no slots. -/
structure AccessList where
  addresses : Address → Option (Option Nat) := fun _ => none
  slots : List (Finset Hash) := []

namespace AccessList

def containsAddress (al : AccessList) (address : Address) : Bool := (al.addresses address).isSome

def contains (al : AccessList) (address : Address) (slot : Hash) : Bool × Bool :=
  match al.addresses address with
  | none => (false, false)
  | some none => (true, false)
  | some (some idx) => (true, al.slots[idx]?.any fun slotmap => decide (slot ∈ slotmap))

def addAddress (al : AccessList) (address : Address) : AccessList × Bool :=
  match al.addresses address with
  | some _ => (al, false)
  | none => ({ al with addresses := update al.addresses address (some none) }, true)

/-- The list, whether the address was added and whether the slot was. -/
def addSlot (al : AccessList) (address : Address) (slot : Hash) : AccessList × Bool × Bool :=
  match al.addresses address with
  | some (some idx) =>
    match al.slots[idx]? with
    | none => (al, false, false)
    | some slotmap =>
      if slot ∈ slotmap then (al, false, false)
      else ({ al with slots := al.slots.set idx (insert slot slotmap) }, false, true)
  | present =>
    ({ addresses := update al.addresses address (some (some al.slots.length))
       slots := al.slots ++ [{slot}] }, present.isNone, true)

/-- `none` is the panic, or the index out of range for an address without slots. -/
def deleteSlot (al : AccessList) (address : Address) (slot : Hash) : Option AccessList :=
  match al.addresses address with
  | some (some idx) =>
    match al.slots[idx]? with
    | none => none
    | some slotmap =>
      if slotmap.erase slot = ∅ then
        some { addresses := update al.addresses address (some none)
               slots := al.slots.take idx }
      else some { al with slots := al.slots.set idx (slotmap.erase slot) }
  | _ => none

def deleteAddress (al : AccessList) (address : Address) : AccessList :=
  { al with addresses := update al.addresses address none }

/-- Every position that an address stands for has slots. -/
def Valid (al : AccessList) : Prop :=
  ∀ address idx, al.addresses address = some (some idx) →
    ∃ slotmap, al.slots[idx]? = some slotmap ∧ slotmap ≠ ∅

theorem valid_empty : Valid {} := nofun

theorem Valid.addAddress {al : AccessList} (h : al.Valid) (address : Address) :
    (al.addAddress address).1.Valid := by
  unfold AccessList.addAddress
  split
  · exact h
  intro a idx ha
  by_cases heq : a = address
  · subst heq
    simp at ha
  · simp only [update_of_ne heq] at ha
    exact h a idx ha

theorem Valid.addSlot {al : AccessList} (h : al.Valid) (address : Address) (slot : Hash) :
    (al.addSlot address slot).1.Valid := by
  unfold AccessList.addSlot
  split
  · rename_i idx hidx
    split
    · exact h
    rename_i slotmap hslots
    split
    · exact h
    intro a j ha
    obtain ⟨m, hm, hne⟩ := h a j ha
    by_cases hj : j = idx
    · subst hj
      refine ⟨insert slot slotmap, ?_, Finset.insert_ne_empty _ _⟩
      exact List.getElem?_set_self (List.getElem?_eq_some_iff.1 hslots).1
    · exact ⟨m, by rw [List.getElem?_set_ne (Ne.symm hj)]; exact hm, hne⟩
  intro a j ha
  by_cases heq : a = address
  · subst heq
    simp only [update_self, Option.some.injEq] at ha
    subst ha
    exact ⟨{slot}, by simp, Finset.singleton_ne_empty _⟩
  simp only [update_of_ne heq] at ha
  obtain ⟨m, hm, hne⟩ := h a j ha
  exact ⟨m, by rw [List.getElem?_append_left (List.getElem?_eq_some_iff.1 hm).1]; exact hm, hne⟩

end AccessList

/-! ## Accounts and logs -/

/-- What the getters return for an account. `committed` is the storage before the transaction. -/
structure Acct where
  nonce : Nat
  balance : Int
  codeHash : Hash
  code : Option Bytes
  committed : Hash → Hash
  storage : Hash → Hash
  suicided : Bool
  deleted : Bool

structure Log where
  address : Address
  topics : List Hash
  data : Bytes
  blockNumber : Nat
  txHash : Hash := 0
  txIndex : Nat := 0
  blockHash : Hash := 0
  index : Nat := 0
  deriving DecidableEq

structure World where
  /-- The account at an address, also one that was deleted in this block. -/
  account : Address → Option Acct
  refund : Nat := 0
  thash : Hash := 0
  bhash : Hash := 0
  txIndex : Nat := 0
  logs : Hash → List Log := fun _ => []
  logSize : Nat := 0
  preimages : Hash → Option Bytes := fun _ => none
  accessList : AccessList := {}

namespace World

/-! ## Observations -/

def getStateObject (w : World) (addr : Address) : Option Acct :=
  match w.account addr with
  | some a => if a.deleted then none else some a
  | none => none

def exist (w : World) (addr : Address) : Bool := (w.getStateObject addr).isSome

def getBalance (w : World) (addr : Address) : Int := (w.getStateObject addr).elim 0 Acct.balance

def getNonce (w : World) (addr : Address) : Nat := (w.getStateObject addr).elim 0 Acct.nonce

def getCode (w : World) (addr : Address) : Option Bytes :=
  (w.getStateObject addr).elim none Acct.code

def getCodeHash (w : World) (addr : Address) : Hash := (w.getStateObject addr).elim 0 Acct.codeHash

def getState (w : World) (addr : Address) (key : Hash) : Hash :=
  (w.getStateObject addr).elim 0 (Acct.storage · key)

def getCommittedState (w : World) (addr : Address) (key : Hash) : Hash :=
  (w.getStateObject addr).elim 0 (Acct.committed · key)

def hasSuicided (w : World) (addr : Address) : Bool :=
  (w.getStateObject addr).elim false Acct.suicided

def getLogs (w : World) (hash : Hash) : List Log := w.logs hash

def addressInAccessList (w : World) (addr : Address) : Bool := w.accessList.containsAddress addr

def slotInAccessList (w : World) (addr : Address) (slot : Hash) : Bool × Bool :=
  w.accessList.contains addr slot

/-! ## Operations -/

def addRefund (w : World) (gas : Nat) : World := { w with refund := (w.refund + gas) % 2 ^ 64 }

/-- `none` is the panic on a counter below zero. -/
def subRefund (w : World) (gas : Nat) : Option World :=
  if gas > w.refund then none else some { w with refund := w.refund - gas }

def addLog (w : World) (log : Log) : World :=
  let log := { log with
    txHash := w.thash, blockHash := w.bhash, txIndex := w.txIndex, index := w.logSize }
  { w with
    logs := update w.logs w.thash (w.logs w.thash ++ [log])
    logSize := w.logSize + 1 }

def addPreimage (w : World) (hash : Hash) (preimage : Bytes) : World :=
  match w.preimages hash with
  | some _ => w
  | none => { w with preimages := update w.preimages hash (some preimage) }

def addAddressToAccessList (w : World) (addr : Address) : World :=
  { w with accessList := (w.accessList.addAddress addr).1 }

def addSlotToAccessList (w : World) (addr : Address) (slot : Hash) : World :=
  { w with accessList := (w.accessList.addSlot addr slot).1 }

def prepare (w : World) (thash bhash : Hash) (ti : Nat) : World :=
  { w with thash, bhash, txIndex := ti, accessList := {} }

def set (w : World) (addr : Address) (a : Acct) : World :=
  { w with account := update w.account addr (some a) }

/-- The flag is `false` if there is no account. -/
def suicide (w : World) (addr : Address) : World × Bool :=
  match w.getStateObject addr with
  | none => (w, false)
  | some a => (w.set addr { a with suicided := true, balance := 0 }, true)

variable (keccak : Bytes → Hash)

def empty (w : World) (addr : Address) : Bool :=
  match w.getStateObject addr with
  | none => true
  | some a => decide (a.nonce = 0 ∧ a.balance = 0 ∧ a.codeHash = keccak [])

def newAcct : Acct where
  nonce := 0
  balance := 0
  codeHash := keccak []
  code := none
  committed := fun _ => 0
  storage := fun _ => 0
  suicided := false
  deleted := false

def getOrNew (w : World) (addr : Address) : Acct := (w.getStateObject addr).getD (newAcct keccak)

/-- The balance of an existing account is carried over. -/
def createAccount (w : World) (addr : Address) : World :=
  w.set addr { newAcct keccak with balance := w.getBalance addr }

def addBalance (w : World) (addr : Address) (amount : Int) : World :=
  let a := w.getOrNew keccak addr
  w.set addr { a with balance := a.balance + amount }

def subBalance (w : World) (addr : Address) (amount : Int) : World :=
  let a := w.getOrNew keccak addr
  w.set addr { a with balance := a.balance - amount }

def setNonce (w : World) (addr : Address) (nonce : Nat) : World :=
  w.set addr { w.getOrNew keccak addr with nonce }

def setCode (w : World) (addr : Address) (code : Option Bytes) : World :=
  w.set addr { w.getOrNew keccak addr with codeHash := keccak (code.getD []), code }

def setState (w : World) (addr : Address) (key value : Hash) : World :=
  let a := w.getOrNew keccak addr
  w.set addr { a with storage := update a.storage key value }

/-! ## Setting an account -/

theorem set_set (w : World) (addr : Address) (a a' : Acct) :
    (w.set addr a).set addr a' = w.set addr a' := by
  simp [set]

theorem set_eq_self {w : World} {addr : Address} {a : Acct} (h : w.account addr = some a) :
    w.set addr a = w := by
  unfold set
  rw [update_eq_self_iff.2 h.symm]

theorem getStateObject_set {w : World} {addr : Address} {a : Acct}
    (h : a.deleted = false) : (w.set addr a).getStateObject addr = some a := by
  simp [getStateObject, set, h]

theorem account_of_getStateObject {w : World} {addr : Address} {a : Acct}
    (h : w.getStateObject addr = some a) :
    w.account addr = some a := by
  unfold getStateObject at h
  split at h
  · rename_i a' ha
    split at h
    · cases h
    cases h
    exact ha
  · cases h

end World

end Virbicoin.State
