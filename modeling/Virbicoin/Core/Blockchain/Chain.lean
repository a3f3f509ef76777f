import Virbicoin.Core.HeaderChain

/-!
# Writing blocks

The functions of `core/blockchain.go` that store a block and move the head of the chain:
`writeHeadBlock`, `reorg`, `writeKnownBlock` and `writeBlockWithState`, with the accessors of
`core/rawdb` they go through. Of a transaction only the hash is used.

What the state of a block is and which states are kept is not computed here. A write takes the set
of roots whose state is available after it, and the outcome of the tie-break.
-/

namespace Virbicoin.Core.Chain

open Lib Function

structure ChainBlock extends Block where
  transactions : List Hash
deriving DecidableEq

namespace ChainBlock

def numberU64 (b : ChainBlock) : Nat := b.header.numberU64

theorem numberU64_lt (b : ChainBlock) : b.numberU64 < 2 ^ 64 := b.header.numberU64_lt

def parentHash (b : ChainBlock) : Hash := b.header.parentHash

def difficulty (b : ChainBlock) : Int := b.header.difficulty

def root (b : ChainBlock) : Hash := b.header.root

def hash (hash : Header → Hash) (b : ChainBlock) : Hash := hash b.header

end ChainBlock

inductive ChainError
  /-- `consensus.ErrUnknownAncestor` -/
  | unknownAncestor
  /-- `consensus.ErrPrunedAncestor` -/
  | prunedAncestor
  /-- `consensus.ErrFutureBlock` -/
  | futureBlock
  /-- `ErrKnownBlock` -/
  | knownBlock
  /-- `ErrBlacklistedHash` -/
  | blacklistedHash
  /-- Any other error of the verification or execution of a block. -/
  | invalid
  | nonContiguous
  /-- The timestamp of a future block is above the maximum. -/
  | futureTimestamp
  | ghostState
  | missingParent
  | invalidOldChain
  | invalidNewChain
  /-- The state of a block could not be committed. -/
  | commit
  /-- The dereference of a `nil` pointer. -/
  | nilPointer
deriving DecidableEq

/-- `BlockChain`, with its part of the database. -/
structure BlockChain where
  blocks : Nat → Hash → Option ChainBlock
  /-- The number that belongs to a hash. -/
  numbers : Hash → Option Nat
  tds : Nat → Hash → Option Int
  canonicalHashes : Nat → Option Hash
  txLookups : Hash → Option Nat
  headBlockHash : Option Hash
  headHeaderHash : Option Hash
  headFastBlockHash : Option Hash
  currentBlock : ChainBlock
  currentHeader : Header
  currentFastBlock : ChainBlock
  /-- The roots whose state is available. -/
  states : Hash → Bool
  futureBlocks : Hash → Bool

namespace BlockChain

variable (hash : Header → Hash) (bc : BlockChain)

/-! ## The database -/

def getBlock (h : Hash) (number : Nat) : Option ChainBlock := bc.blocks number h

def getTd (h : Hash) (number : Nat) : Option Int := bc.tds number h

def readCanonicalHash (number : Nat) : Hash := (bc.canonicalHashes number).getD 0

def getParent (b : ChainBlock) : Option ChainBlock :=
  bc.getBlock b.parentHash (subUint64 b.numberU64 1)

/-- `rawdb.WriteTd` and `rawdb.WriteBlock`. -/
def writeBlock (b : ChainBlock) (td : Int) : BlockChain :=
  { bc with
    tds := put bc.tds b.numberU64 (b.hash hash) td
    numbers := update bc.numbers (b.hash hash) (some b.numberU64)
    blocks := put bc.blocks b.numberU64 (b.hash hash) b }

def writeTxLookupEntriesByBlock (lookups : Hash → Option Nat) (b : ChainBlock) :
    Hash → Option Nat :=
  fun t => if t ∈ b.transactions then some b.numberU64 else lookups t

/-! ## The head -/

def forceHeads (b : ChainBlock) : BlockChain :=
  if bc.readCanonicalHash b.numberU64 = b.hash hash then bc
  else
    { bc with
      headHeaderHash := some (b.hash hash)
      headFastBlockHash := some (b.hash hash)
      currentHeader := b.header
      currentFastBlock := b }

def writeHeadBlock (b : ChainBlock) : BlockChain :=
  { forceHeads hash bc b with
    canonicalHashes := update bc.canonicalHashes b.numberU64 (some (b.hash hash))
    txLookups := writeTxLookupEntriesByBlock bc.txLookups b
    headBlockHash := some (b.hash hash)
    currentBlock := b }

/-! ## Reorganisations -/

/-- The loop that goes back from a block to a number. It ends at a block of that number, with the
blocks above it. A block's parent is one number below it, so its number is enough fuel. -/
def collectAbove (number : Nat) (err : ChainError) : Nat → ChainBlock → List ChainBlock →
    Except ChainError (ChainBlock × List ChainBlock)
  | 0, b, chain => if b.numberU64 = number then .ok (b, chain) else .error err
  | fuel + 1, b, chain =>
    if b.numberU64 = number then .ok (b, chain)
    else match bc.getParent b with
      | none => .error err
      | some p => collectAbove number err fuel p (chain ++ [b])

def collectForks : Nat → ChainBlock → ChainBlock → List ChainBlock → List ChainBlock →
    Except ChainError (List ChainBlock × List ChainBlock)
  | 0, old, new, oldChain, newChain =>
    if old.hash hash = new.hash hash then .ok (oldChain, newChain) else .error .invalidOldChain
  | fuel + 1, old, new, oldChain, newChain =>
    if old.hash hash = new.hash hash then .ok (oldChain, newChain)
    else match bc.getParent old with
      | none => .error .invalidOldChain
      | some old' => match bc.getParent new with
        | none => .error .invalidNewChain
        | some new' => collectForks fuel old' new' (oldChain ++ [old]) (newChain ++ [new])

def forkChains (old new : ChainBlock) : Except ChainError (List ChainBlock × List ChainBlock) :=
  if new.numberU64 < old.numberU64 then
    (bc.collectAbove new.numberU64 .invalidOldChain old.numberU64 old []).bind fun r =>
      collectForks hash bc new.numberU64 r.1 new r.2 []
  else
    (bc.collectAbove old.numberU64 .invalidNewChain new.numberU64 new []).bind fun r =>
      collectForks hash bc old.numberU64 old r.1 [] r.2

def txDifference (a b : List Hash) : List Hash := a.filter fun t => t ∉ b

/-- The loop that deletes assignments above `number` up to the first that is missing. -/
def deleteAbove (number : Nat) : BlockChain :=
  { bc with canonicalHashes :=
      clearAbove bc.canonicalHashes (fun i => bc.readCanonicalHash i = 0) number }

def deleteTxLookupEntries (ts : List Hash) : BlockChain :=
  { bc with txLookups := fun t => if t ∈ ts then none else bc.txLookups t }

def writeForks (newChain : List ChainBlock) : BlockChain :=
  (newChain.drop 1).reverse.foldl (writeHeadBlock hash) bc

def deleteUseless (oldChain newChain : List ChainBlock) : BlockChain :=
  (bc.deleteTxLookupEntries (txDifference (oldChain.flatMap ChainBlock.transactions)
    ((newChain.drop 1).reverse.flatMap ChainBlock.transactions))).deleteAbove
      bc.currentBlock.numberU64

def reorg (old new : ChainBlock) : Except ChainError BlockChain :=
  (forkChains hash bc old new).map fun r => (writeForks hash bc r.2).deleteUseless r.1 r.2

def moveHead (b : ChainBlock) : Except ChainError BlockChain :=
  (if b.parentHash = bc.currentBlock.hash hash then .ok bc
    else reorg hash bc bc.currentBlock b).map fun bc => writeHeadBlock hash bc b

def writeKnownBlock (b : ChainBlock) : Except ChainError BlockChain := moveHead hash bc b

/-! ## New blocks -/

/-- What a write depends on and is not computed here. -/
structure Outcome where
  /-- `state.Commit` or `triedb.Commit` fails. -/
  commitFails : Bool
  /-- The roots whose state is available after the commit and the garbage collection. -/
  states : Hash → Bool
  currentPreserve : Bool
  blockPreserve : Bool
  /-- `mrand.Float64() < 0.5` -/
  coin : Bool

def reorgs (externTd localTd : Int) (number current : Nat) (o : Outcome) : Bool :=
  if localTd < externTd then true
  else if externTd = localTd then
    if number < current then true
    else if number = current then !o.currentPreserve && (o.blockPreserve || o.coin)
    else false
  else false

def setStates (states : Hash → Bool) : BlockChain := { bc with states := states }

def removeFutureBlock (h : Hash) : BlockChain :=
  { bc with futureBlocks := update bc.futureBlocks h false }

def chooseHead (b : ChainBlock) (externTd : Int) (localTd : Option Int) (o : Outcome) :
    BlockChain × Except ChainError WriteStatus :=
  match localTd with
  | none => (bc, .error .nilPointer)
  | some localTd =>
    if reorgs externTd localTd b.numberU64 bc.currentBlock.numberU64 o then
      match moveHead hash bc b with
      | .error err => (bc, .error err)
      | .ok bc' => (bc'.removeFutureBlock (b.hash hash), .ok .canonStatTy)
    else (bc.removeFutureBlock (b.hash hash), .ok .sideStatTy)

/-- A failed write may have stored the block. -/
def writeBlockWithState (b : ChainBlock) (o : Outcome) :
    BlockChain × Except ChainError WriteStatus :=
  match bc.getTd b.parentHash (subUint64 b.numberU64 1) with
  | none => (bc, .error .unknownAncestor)
  | some ptd =>
    if o.commitFails then (writeBlock hash bc b (b.difficulty + ptd), .error .commit)
    else
      chooseHead hash ((writeBlock hash bc b (b.difficulty + ptd)).setStates o.states) b
        (b.difficulty + ptd) (bc.getTd (bc.currentBlock.hash hash) bc.currentBlock.numberU64) o

inductive Call
  | writeBlockWithState (b : ChainBlock) (o : Outcome)
  | writeKnownBlock (b : ChainBlock)

/-- The chain after a call. There is none after a panic or if the ancestry of a block is broken. -/
def step : Call → Option BlockChain
  | .writeBlockWithState b o =>
    match writeBlockWithState hash bc b o with
    | (bc', .ok _) => some bc'
    | (bc', .error .unknownAncestor) => some bc'
    | (bc', .error .commit) => some bc'
    | (_, .error _) => none
  | .writeKnownBlock b =>
    match writeKnownBlock hash bc b with
    | .ok bc' => some bc'
    | .error _ => none

def newBlockChain (genesis : ChainBlock) : BlockChain where
  blocks := put (fun _ _ => none) genesis.numberU64 (genesis.hash hash) genesis
  numbers := update (fun _ => none) (genesis.hash hash) (some genesis.numberU64)
  tds := put (fun _ _ => none) genesis.numberU64 (genesis.hash hash) genesis.difficulty
  canonicalHashes := update (fun _ => none) genesis.numberU64 (some (genesis.hash hash))
  txLookups := fun _ => none
  headBlockHash := some (genesis.hash hash)
  headHeaderHash := some (genesis.hash hash)
  headFastBlockHash := some (genesis.hash hash)
  currentBlock := genesis
  currentHeader := genesis.header
  currentFastBlock := genesis
  states := fun root => root = genesis.root
  futureBlocks := fun _ => false

end BlockChain

end Virbicoin.Core.Chain
