import Virbicoin.Core.Types
import Virbicoin.Lib.BlockStore

/-!
# The header chain

`writeHeaders` of `core/headerchain.go`, with the accessors of `core/rawdb` it goes through. A
header and its total difficulty are stored under number and hash; the canonical index has a hash for
a number.

The coin of the tie-break is an argument. A `nil` header that the source would follow is an error.
-/

namespace Virbicoin.Core

open Lib

inductive HeaderError
  /-- `consensus.ErrUnknownAncestor` -/
  | unknownAncestor
  /-- The dereference of a `nil` pointer. -/
  | nilPointer
deriving DecidableEq

inductive WriteStatus
  | nonStatTy
  | canonStatTy
  | sideStatTy
deriving DecidableEq

structure HeaderChain where
  headers : Nat → Hash → Option Header
  /-- The number that belongs to a hash. -/
  numbers : Hash → Option Nat
  tds : Nat → Hash → Option Int
  canonicalHashes : Nat → Option Hash
  headHeaderHash : Option Hash
  currentHeader : Header
  currentHeaderHash : Hash

structure HeaderWriteResult where
  status : WriteStatus := .nonStatTy
  ignored : Nat := 0
  imported : Nat := 0
  lastHash : Hash := 0
  lastHeader : Option Header := none

namespace HeaderChain

variable (hash : Header → Hash) (hc : HeaderChain)

/-! ## The database -/

def hasHeader (h : Hash) (number : Nat) : Bool := (hc.headers number h).isSome

def getHeader (h : Hash) (number : Nat) : Option Header := hc.headers number h

def getTd (h : Hash) (number : Nat) : Option Int := hc.tds number h

def readCanonicalHash (number : Nat) : Hash := (hc.canonicalHashes number).getD 0

def writeCanonicalHash (h : Hash) (number : Nat) : HeaderChain :=
  { hc with canonicalHashes := Function.update hc.canonicalHashes number (some h) }

def writeHeadHeaderHash (h : Hash) : HeaderChain := { hc with headHeaderHash := some h }

def writeTd (h : Hash) (number : Nat) (td : Int) : HeaderChain :=
  { hc with tds := put hc.tds number h td }

def writeHeader (header : Header) : HeaderChain :=
  { hc with
    numbers := Function.update hc.numbers (hash header) (some header.numberU64)
    headers := put hc.headers header.numberU64 (hash header) header }

/-! ## Storing the headers -/

/-- The variables of the loop over the headers. `firstInserted` is `none` for `-1`. -/
structure Import where
  chain : HeaderChain
  lastNumber : Nat
  lastHash : Hash
  newTD : Int
  lastHeader : Header
  inserted : List (Nat × Hash)
  firstInserted : Option Nat

/-- The headers are known to be linked, so all hashes but the last can be read off. -/
def chainHash (header : Header) (rest : List Header) : Hash :=
  match rest with
  | [] => hash header
  | next :: _ => next.parentHash

def Import.storeHeader (i : Nat) (header : Header) (h : Hash) (imp : Import) : Import :=
  if imp.chain.hasHeader h header.numberU64 then
    { imp with
      newTD := imp.newTD + header.difficulty
      lastHeader := header, lastHash := h, lastNumber := header.numberU64 }
  else
    { chain := (imp.chain.writeTd h header.numberU64 (imp.newTD + header.difficulty)).writeHeader
        hash header
      newTD := imp.newTD + header.difficulty
      inserted := imp.inserted ++ [(header.numberU64, h)]
      firstInserted := some (imp.firstInserted.getD i)
      lastHeader := header, lastHash := h, lastNumber := header.numberU64 }

def Import.storeHeaders : Nat → List Header → Import → Import
  | _, [], imp => imp
  | i, header :: rest, imp =>
    storeHeaders (i + 1) rest (imp.storeHeader hash i header (chainHash hash header rest))

/-- The variables before the loop. `lastHeader` is set by its first iteration. -/
def newImport (first : Header) (ptd : Int) : Import where
  chain := hc
  lastNumber := subUint64 first.numberU64 1
  lastHash := first.parentHash
  newTD := ptd
  lastHeader := first
  inserted := []
  firstInserted := none

/-! ## The markers of the canonical chain -/

def reorgs (newTD localTD : Int) (lastNumber head : Nat) (coin : Bool) : Bool :=
  if localTD < newTD then true
  else if newTD = localTD then
    if lastNumber < head then true
    else if lastNumber = head then coin
    else false
  else false

/-- The loop that deletes assignments above `lastNumber` up to the first that is missing. -/
def deleteAbove (lastNumber : Nat) : HeaderChain :=
  { hc with canonicalHashes :=
      clearAbove hc.canonicalHashes (fun i => hc.readCanonicalHash i = 0) lastNumber }

/-- The loop that goes back from a header to the canonical chain. It writes to the batch and reads
from the database. A header's parent is one number below it, so `headNumber + 1` is enough fuel. -/
def overwriteStale : Nat → Hash → Nat → HeaderChain → Except HeaderError HeaderChain
  | 0, _, _, _ => .error .nilPointer
  | fuel + 1, headHash, headNumber, batch =>
    if hc.readCanonicalHash headNumber = headHash then .ok batch
    else match hc.getHeader headHash headNumber with
      | none => .error .nilPointer
      | some headHeader =>
        overwriteStale fuel headHeader.parentHash (subUint64 headHeader.numberU64 1)
          (batch.writeCanonicalHash headHash headNumber)

def writeMarkers (hc : HeaderChain) (marks : List (Nat × Hash)) : HeaderChain :=
  marks.foldl (fun hc m => (hc.writeCanonicalHash m.2 m.1).writeHeadHeaderHash m.2) hc

def knownMarks (headers : List Header) (firstInserted : Option Nat) : List (Nat × Hash) :=
  (headers.take (firstInserted.getD 0)).map fun h => (h.numberU64, hash h)

def rewriteMarkers (first : Header) (rest : List Header) (imp : Import) :
    Except HeaderError HeaderChain :=
  (imp.chain.overwriteStale (subUint64 first.numberU64 1 + 1) first.parentHash
    (subUint64 first.numberU64 1) (imp.chain.deleteAbove imp.lastNumber)).map fun batch =>
      batch.writeMarkers (knownMarks hash (first :: rest) imp.firstInserted)

def setCurrent (hc : HeaderChain) (imp : Import) : HeaderChain :=
  { hc with currentHeaderHash := imp.lastHash, currentHeader := imp.lastHeader }

def reorg (first : Header) (rest : List Header) (imp : Import) : Except HeaderError HeaderChain :=
  (if first.parentHash = imp.chain.currentHeaderHash then .ok imp.chain
    else rewriteMarkers hash first rest imp).map fun batch =>
      (batch.writeMarkers imp.inserted).setCurrent imp

/-! ## Inserting headers -/

def Import.result (imp : Import) (count : Nat) (status : WriteStatus) : HeaderWriteResult where
  status := if imp.inserted = [] then .nonStatTy else status
  ignored := count - imp.inserted.length
  imported := imp.inserted.length
  lastHash := imp.lastHash
  lastHeader := some imp.lastHeader

def setHead (first : Header) (rest : List Header) (coin : Bool) (imp : Import) :
    Except HeaderError (HeaderChain × HeaderWriteResult) :=
  match imp.chain.getTd imp.chain.currentHeaderHash imp.chain.currentHeader.numberU64 with
  | none => .error .nilPointer
  | some localTD =>
    if reorgs imp.newTD localTD imp.lastNumber imp.chain.currentHeader.numberU64 coin then
      (reorg hash first rest imp).map fun hc => (hc, imp.result (rest.length + 1) .canonStatTy)
    else .ok (imp.chain, imp.result (rest.length + 1) .sideStatTy)

def writeHeaders (headers : List Header) (coin : Bool) :
    Except HeaderError (HeaderChain × HeaderWriteResult) :=
  match headers with
  | [] => .ok (hc, { })
  | first :: rest =>
    match hc.getTd first.parentHash (subUint64 first.numberU64 1) with
    | none => .error .unknownAncestor
    | some ptd =>
      setHead hash first rest coin ((newImport hc first ptd).storeHeaders hash 0 (first :: rest))

structure Call where
  headers : List Header
  coin : Bool

def insertHeaderChain (c : Call) : Except HeaderError WriteStatus :=
  (writeHeaders hash hc c.headers c.coin).map fun r => r.2.status

/-- The chain after a call, unless it panics. Headers with an unknown parent are refused before
anything is written. -/
def step (c : Call) : Option HeaderChain :=
  match writeHeaders hash hc c.headers c.coin with
  | .ok r => some r.1
  | .error .unknownAncestor => some hc
  | .error .nilPointer => none

/-- `NewHeaderChain` on a database with a genesis block only. -/
def newHeaderChain (genesis : Header) : HeaderChain where
  headers := put (fun _ _ => none) genesis.numberU64 (hash genesis) genesis
  numbers := Function.update (fun _ => none) (hash genesis) (some genesis.numberU64)
  tds := put (fun _ _ => none) genesis.numberU64 (hash genesis) genesis.difficulty
  canonicalHashes := Function.update (fun _ => none) genesis.numberU64 (some (hash genesis))
  headHeaderHash := some (hash genesis)
  currentHeader := genesis
  currentHeaderHash := hash genesis

end HeaderChain

end Virbicoin.Core
