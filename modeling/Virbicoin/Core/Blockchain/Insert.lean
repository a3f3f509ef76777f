import Virbicoin.Core.Blockchain.Chain

/-!
# Inserting chains of blocks

`InsertChain`, `insertChain` and `insertSideChain` of `core/blockchain.go`, the iterator of
`core/blockchain_insert.go` and `ValidateBody` of `core/block_validator.go`. The verdicts of the
consensus engine, the execution of a block, the clock, the interruption flag and the sizes of blocks
are parameters (`Env`).

The block that an iterator is at is the first of those that remain. It is validated when it is
reached; nothing is written between that and the uses of the verdict.
-/

namespace Virbicoin.Core.Chain

open Lib

inductive Verdict
  | unknownAncestor
  | futureBlock
  | invalid
deriving DecidableEq

def Verdict.toError : Verdict → ChainError
  | .unknownAncestor => .unknownAncestor
  | .futureBlock => .futureBlock
  | .invalid => .invalid

namespace BlockChain

/-- What insertion depends on and is not computed here. A call of `insertChain` is known by its
place in the recursion. -/
structure Env where
  hash : Header → Hash
  /-- The interruption flag at the start of a call. -/
  interrupted : List Nat → Bool
  /-- The interruption flag at a block. -/
  insertStopped : List Nat → ChainBlock → Bool
  verifyHeader : List Nat → ChainBlock → Option Verdict
  /-- The checks of the uncles and of the roots of uncles and transactions. -/
  verifyBody : List Nat → ChainBlock → Option Verdict
  /-- The timestamp is above the maximum for future blocks. -/
  tooFarAhead : List Nat → ChainBlock → Bool
  badHashes : Hash → Bool
  /-- `state.New`, `Process` and `ValidateState` all succeed. -/
  process : List Nat → ChainBlock → Bool
  outcome : List Nat → ChainBlock → Outcome
  size : ChainBlock → Nat

/-- A head that was set in a call: its total difficulty, and whether it is a known block that was
met in the middle of a batch. The source keeps no such record. -/
structure Move where
  td : Int
  middle : Bool
deriving DecidableEq

structure Insertion where
  chain : BlockChain
  moves : List Move

structure Result where
  state : Insertion
  index : Nat
  err : Option ChainError

variable (env : Env) (path : List Nat) (bc : BlockChain)

def td (hash : Header → Hash) (b : ChainBlock) : Int :=
  (bc.getTd (b.hash hash) b.numberU64).getD 0

/-! ## Validation -/

def hasBlock (h : Hash) (number : Nat) : Bool := (bc.blocks number h).isSome

def hasBlockAndState (h : Hash) (number : Nat) : Bool :=
  match bc.getBlock h number with
  | none => false
  | some b => bc.states b.root

def validateBody (b : ChainBlock) : Option ChainError :=
  if bc.hasBlockAndState (b.hash env.hash) b.numberU64 then some .knownBlock
  else match env.verifyBody path b with
    | some v => some v.toError
    | none =>
      if bc.hasBlockAndState b.parentHash (subUint64 b.numberU64 1) then none
      else if bc.hasBlock b.parentHash (subUint64 b.numberU64 1) then some .prunedAncestor
      else some .unknownAncestor

def validate (b : ChainBlock) : Option ChainError :=
  match env.verifyHeader path b with
  | some v => some v.toError
  | none => validateBody env path bc b

/-! ## Heads -/

variable (st : Insertion)

def Insertion.moved (hash : Header → Hash) (bc : BlockChain) (b : ChainBlock) (middle : Bool) :
    Insertion :=
  ⟨bc, st.moves ++ [⟨bc.td hash b, middle⟩]⟩

def Insertion.setChain (bc : BlockChain) : Insertion := { st with chain := bc }

def writeKnown (b : ChainBlock) (middle : Bool) : Except ChainError Insertion :=
  (writeKnownBlock env.hash st.chain b).map fun bc => st.moved env.hash bc b middle

def writeNew (b : ChainBlock) : Insertion × Option ChainError :=
  match writeBlockWithState env.hash st.chain b (env.outcome path b) with
  | (bc, .ok .canonStatTy) => (st.moved env.hash bc b false, none)
  | (bc, .ok _) => (st.setChain bc, none)
  | (bc, .error err) => (st.setChain bc, some err)

/-! ## Known blocks at the start -/

def skipKnown (localTd : Int) : Int → List ChainBlock → List ChainBlock
  | _, [] => []
  | externTd, b :: rest =>
    if validate env path bc b = some .knownBlock then
      if localTd < externTd + b.difficulty then b :: rest
      else skipKnown localTd (externTd + b.difficulty) rest
    else b :: rest

/-- The loop that writes the known blocks that are left. `len` is the number of blocks of the call.
-/
def replayKnown (len : Nat) :
    Insertion → List ChainBlock → Except Result (Insertion × List ChainBlock)
  | st, [] => .ok (st, [])
  | st, b :: rest =>
    if validate env path st.chain b = some .knownBlock then
      match writeKnown env st b false with
      | .error err => .error ⟨st, len - (rest.length + 1), some err⟩
      | .ok st => replayKnown len st rest
    else .ok (st, b :: rest)

def leftTrim (first : ChainBlock) (rest : List ChainBlock) :
    Except Result (Insertion × List ChainBlock) :=
  if validate env path st.chain first = some .knownBlock then
    match st.chain.getTd (st.chain.currentBlock.hash env.hash) st.chain.currentBlock.numberU64,
        st.chain.getTd first.parentHash (subUint64 first.numberU64 1) with
    | some localTd, some externTd =>
      replayKnown env path (rest.length + 1) st
        (skipKnown env path st.chain localTd externTd (first :: rest))
    | _, _ => .error ⟨st, 0, some .nilPointer⟩
  else .ok (st, first :: rest)

/-! ## Future blocks -/

def addFutureBlock (b : ChainBlock) : Except ChainError Insertion :=
  if env.tooFarAhead path b then .error .futureTimestamp
  else .ok (st.setChain { st.chain with
    futureBlocks := Function.update st.chain.futureBlocks (b.hash env.hash) true })

def queueFuture (len : Nat) : Insertion → List ChainBlock → Result
  | st, [] => ⟨st, len, none⟩
  | st, b :: rest =>
    if validate env path st.chain b = some .unknownAncestor then
      match addFutureBlock env path st b with
      | .error err => ⟨st, len - (rest.length + 1), some err⟩
      | .ok st => queueFuture len st rest
    else ⟨st, len - (rest.length + 1), validate env path st.chain b⟩

def queueFrom (len : Nat) (b : ChainBlock) (rest : List ChainBlock) : Result :=
  match addFutureBlock env path st b with
  | .error err => ⟨st, len - (rest.length + 1), some err⟩
  | .ok st => queueFuture env path len st rest

def insertFuture (len : Nat) (b : ChainBlock) (rest : List ChainBlock) : Result :=
  if rest.length + 1 = len then queueFrom env path st len b rest
  else queueFuture env path len st (b :: rest)

/-! ## The main loop -/

def importBlocks (len : Nat) : Insertion → List ChainBlock → Result
  | st, [] => ⟨st, len, none⟩
  | st, b :: rest =>
    match validate env path st.chain b with
    | none =>
      if env.insertStopped path b then ⟨st, len - (rest.length + 1), none⟩
      else if env.badHashes (b.hash env.hash) then
        ⟨st, len - (rest.length + 1), some .blacklistedHash⟩
      else if !env.process path b then ⟨st, len - (rest.length + 1), some .invalid⟩
      else match writeNew env path st b with
        | (st, some err) => ⟨st, len - (rest.length + 1), some err⟩
        | (st, none) => importBlocks len st rest
    | some .knownBlock =>
      if env.insertStopped path b then ⟨st, len - (rest.length + 1), some .knownBlock⟩
      else if env.badHashes (b.hash env.hash) then
        ⟨st, len - (rest.length + 1), some .blacklistedHash⟩
      else match writeKnown env st b true with
        | .error err => ⟨st, len - (rest.length + 1), some err⟩
        | .ok st => importBlocks len st rest
    | some .futureBlock => queueFrom env path st len b rest
    | some err => ⟨st, len - (rest.length + 1), some err⟩

/-! ## Side chains -/

def getBlockByNumber (number : Nat) : Option ChainBlock :=
  if bc.readCanonicalHash number = 0 then none else bc.getBlock (bc.readCanonicalHash number) number

def writeSideBlock (b : ChainBlock) (externTd : Int) : Insertion :=
  if st.chain.hasBlock (b.hash env.hash) b.numberU64 then st
  else st.setChain (writeBlock env.hash st.chain b externTd)

def extendSide (externTd : Option Int) (b : ChainBlock) :
    Except ChainError (Option Int × Insertion) :=
  match externTd.or (st.chain.getTd b.parentHash (subUint64 b.numberU64 1)) with
  | none => .error .nilPointer
  | some td => .ok (some (td + b.difficulty), writeSideBlock env st b (td + b.difficulty))

def sideBlock (current : ChainBlock) (externTd : Option Int) (b : ChainBlock) :
    Except ChainError (Option Int × Insertion) :=
  match (if b.numberU64 ≤ current.numberU64 then st.chain.getBlockByNumber b.numberU64
    else none) with
  | none => extendSide env st externTd b
  | some canonical =>
    if canonical.hash env.hash = b.hash env.hash then
      .ok (st.chain.getTd (b.hash env.hash) b.numberU64, st)
    else if canonical.root = b.root then .error .ghostState
    else extendSide env st externTd b

def sideBlocks (len : Nat) (current : ChainBlock) : Option Int → Insertion → List ChainBlock →
    Except Result (Option Int × Insertion × List ChainBlock)
  | externTd, st, [] => .ok (externTd, st, [])
  | externTd, st, b :: rest =>
    if validate env path st.chain b = some .prunedAncestor then
      match sideBlock env st current externTd b with
      | .error err => .error ⟨st, len - (rest.length + 1), some err⟩
      | .ok r => sideBlocks len current r.1 r.2 rest
    else .ok (externTd, st, b :: rest)

/-- The loop that goes back to a block whose state is available. Its results are from the top down.
A header's parent is one number below it, so the number of a header and one more is enough fuel. -/
def prunedHashes (hash : Header → Hash) : Nat → Option Header → List (Hash × Nat) →
    Except ChainError (List (Hash × Nat))
  | _, none, _ => .error .missingParent
  | 0, some parent, hashes =>
    if bc.states parent.root then .ok hashes else .error .missingParent
  | fuel + 1, some parent, hashes =>
    if bc.states parent.root then .ok hashes
    else prunedHashes hash fuel
      ((bc.getBlock parent.parentHash (subUint64 parent.numberU64 1)).map (·.header))
      (hashes ++ [(hash parent, parent.numberU64)])

def pruned : Option ChainBlock → Except ChainError (List (Hash × Nat))
  | none => .error .missingParent
  | some b => prunedHashes bc env.hash (b.numberU64 + 1) (some b.header) []

def importSegments (nested : List Nat → Insertion → List ChainBlock → Option Result) :
    Nat → Insertion → List ChainBlock → Nat → List (Hash × Nat) → Option Result
  | seg, st, blocks, _, [] =>
    if blocks = [] then some ⟨st, 0, none⟩ else nested (seg :: path) st blocks
  | seg, st, blocks, memory, h :: rest =>
    match st.chain.getBlock h.1 h.2 with
    | none => some ⟨st, 0, some .nilPointer⟩
    | some b =>
      if 2048 ≤ blocks.length + 1 ∨ 64 * 1024 * 1024 < memory + env.size b then
        match nested (seg :: path) st (blocks ++ [b]) with
        | none => none
        | some ⟨st, _, some err⟩ => some ⟨st, 0, some err⟩
        | some ⟨st, _, none⟩ =>
          if env.insertStopped path b then some ⟨st, 0, none⟩
          else importSegments nested (seg + 1) st [] 0 rest
      else importSegments nested seg st (blocks ++ [b]) (memory + env.size b) rest

/-- The import of the side chain if it is heavy enough. `chain` are all blocks of the call and
`remaining` those that are left. -/
def adoptSide (nested : List Nat → Insertion → List ChainBlock → Option Result)
    (chain remaining : List ChainBlock) (current : ChainBlock) (externTd : Option Int) :
    Option Result :=
  match st.chain.getTd (current.hash env.hash) current.numberU64, externTd with
  | some localTd, some externTd =>
    if externTd < localTd then
      some ⟨st, chain.length - remaining.length,
        remaining.head?.bind (validate env path st.chain)⟩
    else
      match pruned env st.chain (chain[chain.length - remaining.length - 1]?) with
      | .error err => some ⟨st, chain.length - remaining.length, some err⟩
      | .ok hashes => importSegments env path nested 0 st [] 0 hashes.reverse
  | _, _ => some ⟨st, 0, some .nilPointer⟩

def insertSideChain (nested : List Nat → Insertion → List ChainBlock → Option Result)
    (chain remaining : List ChainBlock) : Option Result :=
  match sideBlocks env path chain.length st.chain.currentBlock none st remaining with
  | .error r => some r
  | .ok r => adoptSide env path r.2.1 nested chain r.2.2 st.chain.currentBlock r.1

/-! ## The calls -/

def insertRest (nested : List Nat → Insertion → List ChainBlock → Option Result)
    (chain : List ChainBlock) (first : ChainBlock) : List ChainBlock → Option Result
  | [] => some ⟨st, chain.length, none⟩
  | b :: rest =>
    match validate env path st.chain b with
    | none => some (importBlocks env path chain.length st (b :: rest))
    | some .prunedAncestor => insertSideChain env path st nested chain (b :: rest)
    | some .futureBlock => some (insertFuture env path st chain.length b rest)
    | some err =>
      if err = .unknownAncestor ∧ st.chain.futureBlocks first.parentHash then
        some (insertFuture env path st chain.length b rest)
      else
        some ⟨st.setChain (st.chain.removeFutureBlock (b.hash env.hash)),
          chain.length - (rest.length + 1), some err⟩

/-- The blocks of a call are linked. `none` stands for a recursion deeper than the fuel. -/
def insertChain : Nat → List Nat → Insertion → List ChainBlock → Option Result
  | 0, _, _, _ => none
  | _ + 1, _, st, [] => some ⟨st, 0, some .nilPointer⟩
  | fuel + 1, path, st, first :: rest =>
    if env.interrupted path then some ⟨st, 0, none⟩
    else match leftTrim env path st first rest with
      | .error r => some r
      | .ok r => insertRest env path r.1 (insertChain fuel) (first :: rest) first r.2

def Follows (hash : Header → Hash) (prev b : ChainBlock) : Prop :=
  b.numberU64 = (prev.numberU64 + 1) % 2 ^ 64 ∧ b.parentHash = prev.hash hash

instance (hash : Header → Hash) (prev b : ChainBlock) : Decidable (Follows hash prev b) :=
  inferInstanceAs (Decidable (_ ∧ _))

def insertBlocks (fuel : Nat) (chain : List ChainBlock) : Option Result :=
  if chain = [] then some ⟨⟨bc, []⟩, 0, none⟩
  else if chain.IsChain (Follows env.hash) then insertChain env fuel [] ⟨bc, []⟩ chain
  else some ⟨⟨bc, []⟩, 0, some .nonContiguous⟩

end BlockChain

end Virbicoin.Core.Chain
