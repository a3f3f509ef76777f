import Virbicoin.Core.TxPool.TxList
import Virbicoin.Lib.Heap
import Virbicoin.Lib.Total
import Virbicoin.Lib.Visit

/-!
# All transactions of the pool, by hash and by price

`txLookup` of `core/tx_pool.go` and `txPricedList` of `core/tx_list.go`. The lookup keeps the local
and the remote transactions under their hashes and counts their slots. The price list is a heap of
remote transactions, from which nothing is taken out when a transaction leaves the pool: an entry
whose hash the lookup does not have as a remote one is stale, and the functions that take entries
off the heap skip it.

A range over the remote transactions visits them in the order of a `Visit`.
-/

namespace Virbicoin.Core

open Lib

def txSlotSize : Nat := 32 * 1024

def txMaxSize : Nat := 4 * txSlotSize

def numSlots (tx : Tx) : Nat := (tx.size + txSlotSize - 1) / txSlotSize

/-- `accountSet.containsTx`: not so if the sender cannot be derived. -/
def containsTx (accounts : Finset Address) (tx : Tx) : Bool :=
  tx.sender.any fun addr => decide (addr ∈ accounts)

/-! ## Lookup -/

structure TxLookup where
  slots : Int
  locals : Finmap fun _ : Hash => Tx
  remotes : Finmap fun _ : Hash => Tx

def newTxLookup : TxLookup := ⟨0, ∅, ∅⟩

namespace TxLookup

def get (t : TxLookup) (hash : Hash) : Option Tx :=
  match t.locals.lookup hash with
  | some tx => some tx
  | none => t.remotes.lookup hash

def getRemote (t : TxLookup) (hash : Hash) : Option Tx := t.remotes.lookup hash

def count (t : TxLookup) : Nat := t.locals.keys.card + t.remotes.keys.card

def add (t : TxLookup) (tx : Tx) (loc : Bool) : TxLookup where
  slots := t.slots + numSlots tx
  locals := if loc then t.locals.insert tx.hash tx else t.locals
  remotes := if loc then t.remotes else t.remotes.insert tx.hash tx

def remove (t : TxLookup) (hash : Hash) : TxLookup :=
  match t.get hash with
  | none => t
  | some tx =>
    { slots := t.slots - numSlots tx
      locals := t.locals.erase hash
      remotes := t.remotes.erase hash }

/-- A round of `RemoteToLocals`: the transactions migrated so far, and the lookup. -/
def migrate (accounts : Finset Address) (acc : Nat × TxLookup) (hash : Hash) : Nat × TxLookup :=
  match acc.2.remotes.lookup hash with
  | none => acc
  | some tx =>
    if containsTx accounts tx then
      (acc.1 + 1, { acc.2 with
        locals := acc.2.locals.insert hash tx
        remotes := acc.2.remotes.erase hash })
    else acc

def remoteToLocals (t : TxLookup) (visit : Visit Hash) (accounts : Finset Address) :
    Nat × TxLookup :=
  (visit.order t.remotes.keys).foldl (migrate accounts) (0, t)

end TxLookup

/-! ## Price list -/

/-- `txPricedList`: the array of the heap, and the number of stale entries. -/
structure TxPricedList where
  remotes : List Tx
  stales : Int

def newTxPricedList : TxPricedList := ⟨[], 0⟩

/-- `priceHeap.Less`: the cheaper one first, and the higher nonce where the prices match. -/
def priceLess (a b : Tx) : Bool :=
  decide (a.price < b.price ∨ a.price = b.price ∧ a.nonce > b.nonce)

namespace TxPricedList

def put (l : TxPricedList) (tx : Tx) (loc : Bool) : TxPricedList :=
  if loc then l else { l with remotes := Heap.push priceLess l.remotes tx }

def reheap (visit : Visit Hash) (all : TxLookup) : TxPricedList where
  remotes := Heap.init priceLess ((visit.order all.remotes.keys).filterMap all.getRemote)
  stales := 0

def removed (l : TxPricedList) (visit : Visit Hash) (all : TxLookup) (count : Nat) : TxPricedList :=
  if l.stales + count ≤ (l.remotes.length / 4 : Nat) then { l with stales := l.stales + count }
  else reheap visit all

def popStale (l : TxPricedList) (rest : List Tx) : TxPricedList := ⟨rest, l.stales - 1⟩

def popDrop (l : TxPricedList) (rest : List Tx) : TxPricedList := ⟨rest, l.stales⟩

/-- The loop of `Cap`. Every round takes an entry off the heap, so as many rounds as it has entries
are enough. -/
def capLoop (all : TxLookup) (threshold : Int) :
    Nat → TxPricedList → List Tx → List Tx × TxPricedList
  | 0, l, drop => (drop, l)
  | fuel + 1, l, drop =>
    match Heap.pop priceLess l.remotes with
    | none => (drop, l)
    | some (cheapest, rest) =>
      if (all.getRemote cheapest.hash).isNone then
        capLoop all threshold fuel (l.popStale rest) drop
      else if cheapest.price ≥ threshold then (drop, l)
      else capLoop all threshold fuel (l.popDrop rest) (drop ++ [cheapest])

def cap (l : TxPricedList) (all : TxLookup) (threshold : Int) : List Tx × TxPricedList :=
  capLoop all threshold l.remotes.length l []

def popStales (all : TxLookup) : Nat → TxPricedList → TxPricedList
  | 0, l => l
  | fuel + 1, l =>
    match Heap.pop priceLess l.remotes with
    | none => l
    | some (head, rest) =>
      if (all.getRemote head.hash).isNone then popStales all fuel (l.popStale rest) else l

/-- The cheapest entry is as expensive as the transaction. The list loses stale entries. -/
def underpriced (l : TxPricedList) (all : TxLookup) (tx : Tx) : Bool × TxPricedList :=
  let l := popStales all l.remotes.length l
  (l.remotes.head?.any fun cheapest => decide (cheapest.price ≥ tx.price), l)

/-- The loop of `Discard`: the transactions dropped, the slots still to be freed, and the heap. -/
def discardLoop (all : TxLookup) :
    Nat → TxPricedList → Int → List Tx → List Tx × Int × TxPricedList
  | 0, l, slots, drop => (drop, slots, l)
  | fuel + 1, l, slots, drop =>
    if slots ≤ 0 then (drop, slots, l)
    else
      match Heap.pop priceLess l.remotes with
      | none => (drop, slots, l)
      | some (tx, rest) =>
        if (all.getRemote tx.hash).isNone then
          discardLoop all fuel (l.popStale rest) slots drop
        else discardLoop all fuel (l.popDrop rest) (slots - numSlots tx) (drop ++ [tx])

/-- The transactions to drop, `none` if they do not free the slots, and the heap. The capacity that
the source reserves for them is not modelled. -/
def discard (l : TxPricedList) (all : TxLookup) (slots : Int) (force : Bool) :
    Option (List Tx) × TxPricedList :=
  match discardLoop all l.remotes.length l slots [] with
  | (drop, slots, l) =>
    if slots > 0 ∧ force = false then
      (none, { l with remotes := drop.foldl (Heap.push priceLess) l.remotes })
    else (some drop, l)

end TxPricedList

end Virbicoin.Core
