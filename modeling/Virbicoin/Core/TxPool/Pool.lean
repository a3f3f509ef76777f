import Virbicoin.Core.TxPool.Priced

/-!
# Transaction pool

`TxPool` of `core/tx_pool.go` with `txNoncer` of `core/tx_noncer.go`: validation and insertion of a
transaction, removal, promotion, demotion and truncation, and the reset to a new head of the chain.

A range over a map visits the keys in an order that the program does not determine, and heartbeats
depend on the clock. Every function gets both from a `Sched`. A result `none` is a panic of the
source.
-/

namespace Virbicoin.Core

open Lib State Params

/-! ## Configuration -/

structure TxPoolConfig where
  locals : List Address
  noLocals : Bool
  priceLimit : Nat
  priceBump : Nat
  accountSlots : Nat
  globalSlots : Nat
  accountQueue : Nat
  globalQueue : Nat
  /-- In nanoseconds. -/
  lifetime : Int
  deriving DecidableEq

def defaultTxPoolConfig : TxPoolConfig where
  locals := []
  noLocals := false
  priceLimit := 1
  priceBump := 10
  accountSlots := 16
  globalSlots := 4096
  accountQueue := 64
  globalQueue := 1024
  lifetime := 3 * 3600 * 10 ^ 9

namespace TxPoolConfig

def sanitize (c : TxPoolConfig) : TxPoolConfig :=
  { c with
    priceLimit := if c.priceLimit < 1 then defaultTxPoolConfig.priceLimit else c.priceLimit
    priceBump := if c.priceBump < 1 then defaultTxPoolConfig.priceBump else c.priceBump
    accountSlots := if c.accountSlots < 1 then defaultTxPoolConfig.accountSlots else c.accountSlots
    globalSlots := if c.globalSlots < 1 then defaultTxPoolConfig.globalSlots else c.globalSlots
    accountQueue := if c.accountQueue < 1 then defaultTxPoolConfig.accountQueue else c.accountQueue
    globalQueue := if c.globalQueue < 1 then defaultTxPoolConfig.globalQueue else c.globalQueue
    lifetime := if c.lifetime < 1 then defaultTxPoolConfig.lifetime else c.lifetime }

/-- `GlobalSlots + GlobalQueue`, a sum of `uint64`s. -/
def capacity (c : TxPoolConfig) : Nat := (c.globalSlots + c.globalQueue) % 2 ^ 64

end TxPoolConfig

/-! ## Nonces -/

/-- `txNoncer`. A nonce read from the state is kept in the source; it would be read again as the
same. -/
structure TxNoncer where
  fallback : World
  nonces : Address → Option Nat

def newTxNoncer (statedb : World) : TxNoncer := ⟨statedb, fun _ => none⟩

namespace TxNoncer

def get (txn : TxNoncer) (addr : Address) : Nat :=
  (txn.nonces addr).getD (txn.fallback.getNonce addr)

def set (txn : TxNoncer) (addr : Address) (nonce : Nat) : TxNoncer :=
  { txn with nonces := Function.update txn.nonces addr (some nonce) }

def setIfLower (txn : TxNoncer) (addr : Address) (nonce : Nat) : TxNoncer :=
  if txn.get addr ≤ nonce then txn else txn.set addr nonce

end TxNoncer

/-! ## Pool -/

inductive PoolError where
  | alreadyKnown
  | invalidSender
  | underpriced
  | txPoolOverflow
  | replaceUnderpriced
  | gasLimit
  | negativeValue
  | oversizedData
  | nonceTooLow
  | insufficientFunds
  | intrinsicGas
  /-- The gas of the data cannot be computed. -/
  | core (e : CoreError)
  deriving DecidableEq

/-- The loops that range over a set of accounts. -/
inductive Site where
  | dirty
  | promote
  | demote
  | spammers
  | heartbeats
  | nonces
  | evict

/-- What the program does not determine: the orders in which maps are visited, and the time at which
an account is touched. -/
structure Sched where
  accounts : Site → Visit Address
  hashes : Visit Hash
  now : Address → Int

structure TxPool where
  config : TxPoolConfig
  chainconfig : ChainConfig
  gasPrice : Int
  istanbul : Bool
  currentState : World
  pendingNonces : TxNoncer
  currentMaxGas : Nat
  locals : Finset Address
  pending : Finmap fun _ : Address => TxList
  queue : Finmap fun _ : Address => TxList
  beats : Address → Option Int
  all : TxLookup
  priced : TxPricedList

namespace TxPool

/-! ### Parts of a pool -/

def setPending (p : TxPool) (addr : Address) (l : TxList) : TxPool :=
  { p with pending := p.pending.insert addr l }

def setQueue (p : TxPool) (addr : Address) (l : TxList) : TxPool :=
  { p with queue := p.queue.insert addr l }

def setBeat (p : TxPool) (addr : Address) (now : Int) : TxPool :=
  { p with beats := Function.update p.beats addr (some now) }

def queueOf (p : TxPool) (addr : Address) : TxList :=
  (p.queue.lookup addr).getD (newTxList false)

def pendingOf (p : TxPool) (addr : Address) : TxList :=
  (p.pending.lookup addr).getD (newTxList true)

def touch (s : Sched) (p : TxPool) (addr : Address) : TxPool :=
  if (p.beats addr).isNone then p.setBeat addr (s.now addr) else p

def tidyPending (p : TxPool) (addr : Address) (l : TxList) : TxPool :=
  if l.empty then { p with pending := p.pending.erase addr } else p.setPending addr l

def tidyQueue (p : TxPool) (addr : Address) (l : TxList) : TxPool :=
  if l.empty then
    { p with queue := p.queue.erase addr, beats := Function.update p.beats addr none }
  else p.setQueue addr l

def setPriced (p : TxPool) (priced : TxPricedList) : TxPool := { p with priced }

def forgetHash (p : TxPool) (hash : Hash) : TxPool := { p with all := p.all.remove hash }

def forget (p : TxPool) (tx : Tx) : TxPool := p.forgetHash tx.hash

def forgetTxs (p : TxPool) (txs : List Tx) : TxPool := txs.foldl forget p

def pricedRemoved (s : Sched) (p : TxPool) (count : Nat) : TxPool :=
  { p with priced := p.priced.removed s.hashes p.all count }

def setNonce (p : TxPool) (addr : Address) (nonce : Nat) : TxPool :=
  { p with pendingNonces := p.pendingNonces.set addr nonce }

def lowerNonce (p : TxPool) (addr : Address) (nonce : Nat) : TxPool :=
  { p with pendingNonces := p.pendingNonces.setIfLower addr nonce }

def record (p : TxPool) (tx : Tx) (loc : Bool) : TxPool :=
  { p with all := p.all.add tx loc, priced := p.priced.put tx loc }

def recordIf (p : TxPool) (addAll : Bool) (tx : Tx) (loc : Bool) : TxPool :=
  if addAll then p.record tx loc else p

/-- A transaction that was replaced leaves the lookup, and the price list counts it. -/
def forgetOld (s : Sched) (p : TxPool) : Option Tx → TxPool
  | none => p
  | some old => (p.forget old).pricedRemoved s 1

/-! ### Adding a transaction -/

def validateTx (p : TxPool) (tx : Tx) (loc : Bool) : Except PoolError Unit := do
  failIf (tx.size > txMaxSize) .oversizedData
  failIf (tx.amount < 0) .negativeValue
  failIf (p.currentMaxGas < tx.gas) .gasLimit
  match tx.sender with
  | none => .error .invalidSender
  | some sender => do
    failIf (loc = false ∧ tx.price < p.gasPrice) .underpriced
    failIf (p.currentState.getNonce sender > tx.nonce) .nonceTooLow
    failIf (p.currentState.getBalance sender < tx.cost) .insufficientFunds
    match intrinsicGas tx.payload tx.recipient.isNone true p.istanbul with
    | .error e => .error (.core e)
    | .ok intrGas => failIf (tx.gas < intrGas) .intrinsicGas

/-- Whether a transaction was replaced. -/
def enqueueTx (s : Sched) (p : TxPool) (tx : Tx) (loc addAll : Bool) :
    TxPool × Except PoolError Bool :=
  match (p.queueOf tx.origin).add tx p.config.priceBump with
  | none => (p.setQueue tx.origin (p.queueOf tx.origin), .error .replaceUnderpriced)
  | some (list, old) =>
    ((((p.setQueue tx.origin list).forgetOld s old).recordIf addAll tx loc).touch s tx.origin,
      .ok old.isSome)

def requeueTxs (s : Sched) (p : TxPool) (txs : List Tx) : TxPool :=
  txs.foldl (fun p tx => (p.enqueueTx s tx false false).1) p

def unlistTx (s : Sched) (p : TxPool) (tx : Tx) : TxPool :=
  match (p.pending.lookup tx.origin).bind (TxList.remove · tx) with
  | some (invalids, pending) =>
    ((p.tidyPending tx.origin pending).requeueTxs s invalids).lowerNonce tx.origin tx.nonce
  | none =>
    match p.queue.lookup tx.origin with
    | none => p
    | some future => p.tidyQueue tx.origin (((future.remove tx).map Prod.snd).getD future)

def removeTx (s : Sched) (p : TxPool) (hash : Hash) (outofbound : Bool) : TxPool :=
  match p.all.get hash with
  | none => p
  | some tx =>
    let p := p.forgetHash hash
    (if outofbound then p.pricedRemoved s 1 else p).unlistTx s tx

def removeTxs (s : Sched) (p : TxPool) (txs : List Tx) (outofbound : Bool) : TxPool :=
  txs.foldl (fun p tx => p.removeTx s tx.hash outofbound) p

/-- Drops transactions for a new one. `none` if there is not enough to drop. -/
def discardFor (s : Sched) (p : TxPool) (tx : Tx) (isLocal : Bool) : TxPool × Option (List Tx) :=
  match p.priced.discard p.all (p.all.slots - toInt64 p.config.capacity + numSlots tx) isLocal with
  | (none, priced) => (p.setPriced priced, none)
  | (some drop, priced) => ((p.setPriced priced).removeTxs s drop false, some drop)

/-- The part of `add` that makes room in a full pool, with the transactions dropped. -/
def makeRoom (s : Sched) (p : TxPool) (tx : Tx) (isLocal : Bool) :
    TxPool × Except PoolError (List Tx) :=
  if p.all.count + numSlots tx > p.config.capacity then
    if isLocal then
      match p.discardFor s tx true with
      | (p, drop) => (p, .ok (drop.getD []))
    else
      match p.priced.underpriced p.all tx with
      | (true, priced) => (p.setPriced priced, .error .underpriced)
      | (false, priced) =>
        match (p.setPriced priced).discardFor s tx false with
        | (p, none) => (p, .error .txPoolOverflow)
        | (p, some drop) => (p, .ok drop)
  else (p, .ok [])

def replacePending (s : Sched) (p : TxPool) (list : TxList) (tx : Tx) (isLocal : Bool) :
    TxPool × Except PoolError Bool :=
  match list.add tx p.config.priceBump with
  | none => (p, .error .replaceUnderpriced)
  | some (list, old) =>
    ((((p.setPending tx.origin list).forgetOld s old).record tx isLocal).setBeat tx.origin
      (s.now tx.origin), .ok old.isSome)

def markLocal (s : Sched) (p : TxPool) (addr : Address) : TxPool :=
  if addr ∈ p.locals then p
  else
    let locals := insert addr p.locals
    let migrated := p.all.remoteToLocals s.hashes locals
    TxPool.pricedRemoved s { p with locals, all := migrated.2 } migrated.1

/-- The part of `add` behind the checks: the transaction replaces a pending one or is queued. -/
def insertTx (s : Sched) (p : TxPool) (tx : Tx) (loc isLocal : Bool) :
    TxPool × Except PoolError Bool :=
  match (p.pending.lookup tx.origin).filter fun list => list.overlaps tx with
  | some list => p.replacePending s list tx isLocal
  | none =>
    match p.enqueueTx s tx isLocal true with
    | (p, .error e) => (p, .error e)
    | (p, .ok replaced) => (if loc then p.markLocal s tx.origin else p, .ok replaced)

/-- The pool, and whether a transaction was replaced. -/
def add (s : Sched) (p : TxPool) (tx : Tx) (loc : Bool) : TxPool × Except PoolError Bool :=
  if (p.all.get tx.hash).isSome then (p, .error .alreadyKnown)
  else
    let isLocal := loc || containsTx p.locals tx
    match p.validateTx tx isLocal with
    | .error e => (p, .error e)
    | .ok () =>
      match p.makeRoom s tx isLocal with
      | (p, .error e) => (p, .error e)
      | (p, .ok _) => p.insertTx s tx loc isLocal

def errorOf : Except PoolError Bool → Option PoolError
  | .error e => some e
  | .ok _ => none

/-- `addTxsLocked`: the pool, the errors, and the accounts with a new transaction. -/
def addTxsLocked (s : Sched) :
    TxPool → List Tx → Bool → TxPool × List (Option PoolError) × Finset Address
  | p, [], _ => (p, [], ∅)
  | p, tx :: txs, loc =>
    match p.add s tx loc with
    | (p, result) =>
      match addTxsLocked s p txs loc with
      | (p, errs, dirty) =>
        (p, errorOf result :: errs,
          if result = .ok false then tx.sender.elim dirty (insert · dirty) else dirty)

/-- A transaction that `addTxs` refuses without a closer look. -/
def precheck (p : TxPool) (tx : Tx) : Option PoolError :=
  if (p.all.get tx.hash).isSome then some .alreadyKnown
  else if tx.sender.isNone then some .invalidSender
  else none

/-- The errors found later fill the free places. -/
def mergeErrs : List (Option PoolError) → List (Option PoolError) → List (Option PoolError)
  | [], _ => []
  | some e :: errs, news => some e :: mergeErrs errs news
  | none :: errs, [] => none :: mergeErrs errs []
  | none :: errs, new :: news => new :: mergeErrs errs news

/-- `addTxs`: the pool, the errors, and the accounts for which a promotion is requested. -/
def addTxs (s : Sched) (p : TxPool) (txs : List Tx) (loc : Bool) :
    TxPool × List (Option PoolError) × Finset Address :=
  let errs := txs.map p.precheck
  match p.addTxsLocked s (txs.filter fun tx => (p.precheck tx).isNone) loc with
  | (p, newErrs, dirty) => (p, mergeErrs errs newErrs, dirty)

def addLocals (s : Sched) (p : TxPool) (txs : List Tx) :
    TxPool × List (Option PoolError) × Finset Address :=
  p.addTxs s txs (!p.config.noLocals)

def addRemotes (s : Sched) (p : TxPool) (txs : List Tx) :
    TxPool × List (Option PoolError) × Finset Address :=
  p.addTxs s txs false

/-! ### Promotion -/

/-- Whether the transaction was inserted. -/
def promoteTx (s : Sched) (p : TxPool) (addr : Address) (tx : Tx) : TxPool × Bool :=
  match (p.pendingOf addr).add tx p.config.priceBump with
  | none => (((p.setPending addr (p.pendingOf addr)).forget tx).pricedRemoved s 1, false)
  | some (list, old) =>
    ((((p.setPending addr list).forgetOld s old).setNonce addr ((tx.nonce + 1) % 2 ^ 64)).setBeat
      addr (s.now addr), true)

def promoteTxs (s : Sched) (addr : Address) : TxPool → List Tx → TxPool × List Tx
  | p, [] => (p, [])
  | p, tx :: txs =>
    match p.promoteTx s addr tx with
    | (p, inserted) =>
      match promoteTxs s addr p txs with
      | (p, promoted) => (p, if inserted then tx :: promoted else promoted)

/-- The list of an account without the transactions that are too old or too costly: these, those
that a strict list loses with them, and the others. -/
def cleanList (p : TxPool) (addr : Address) (list : TxList) : List Tx × List Tx × TxList :=
  let forwards := list.forward (p.currentState.getNonce addr)
  let drops := forwards.2.filter (p.currentState.getBalance addr) p.currentMaxGas
  (forwards.1 ++ drops.1, drops.2)

def cleanQueue (p : TxPool) (addr : Address) (list : TxList) : TxPool :=
  (p.setQueue addr (p.cleanList addr list).2.2).forgetTxs (p.cleanList addr list).1

def capQueue (p : TxPool) (addr : Address) (list : TxList) : Option (List Tx × TxList) :=
  if addr ∈ p.locals then some ([], list) else list.cap (toInt64 p.config.accountQueue)

def promoteReady (s : Sched) (p : TxPool) (addr : Address) (list : TxList) : TxPool × List Tx :=
  (p.setQueue addr (list.ready (p.pendingNonces.get addr)).2).promoteTxs s addr
    (list.ready (p.pendingNonces.get addr)).1

def shortenQueue (s : Sched) (p : TxPool) (addr : Address) (list : TxList) (removed : Nat) :
    Option TxPool :=
  match p.capQueue addr list with
  | none => none
  | some (caps, list) =>
    let p := (p.setQueue addr list).forgetTxs caps
    some ((p.pricedRemoved s (removed + caps.length)).tidyQueue addr list)

/-- The ready transactions of a clean queue become pending, and the queue is shortened. -/
def promoteQueue (s : Sched) (p : TxPool) (addr : Address) (list : TxList) (removed : Nat) :
    Option (TxPool × List Tx) :=
  ((p.promoteReady s addr list).1.shortenQueue s addr
    (list.ready (p.pendingNonces.get addr)).2 removed).map (·, (p.promoteReady s addr list).2)

/-- A round of `promoteExecutables`: the pool, and the transactions that were promoted. -/
def promoteAccount (s : Sched) (p : TxPool) (addr : Address) : Option (TxPool × List Tx) :=
  match p.queue.lookup addr with
  | none => some (p, [])
  | some list =>
    (p.cleanQueue addr list).promoteQueue s addr (p.cleanList addr list).2.2
      (p.cleanList addr list).1.length

def promoteExecutables (s : Sched) : TxPool → List Address → Option (TxPool × List Tx)
  | p, [] => some (p, [])
  | p, addr :: accounts =>
    match p.promoteAccount s addr with
    | none => none
    | some (p, promoted) =>
      (promoteExecutables s p accounts).map fun r => (r.1, promoted ++ r.2)

/-! ### Truncation -/

def dropLast (s : Sched) (p : TxPool) (addr : Address) : Option TxPool :=
  match p.pending.lookup addr with
  | none => none
  | some list =>
    match list.cap (list.len - 1) with
    | none => none
    | some (caps, list) =>
      let p := caps.foldl (fun p tx => (p.forget tx).lowerNonce addr tx.nonce)
        (p.setPending addr list)
      some (p.pricedRemoved s caps.length)

def dropRound (s : Sched) (p : TxPool) : List Address → Option TxPool
  | [] => some p
  | addr :: offenders =>
    match p.dropLast s addr with
    | none => none
    | some p => p.dropRound s offenders

/-- Drops transactions of all offenders while there are too many and the last offender has more than
the threshold. Every round lowers the count, so the count itself is fuel enough. -/
def dropWhile (s : Sched) (offenders : List Address) (last : Address) (threshold : Nat) :
    Nat → TxPool → Nat → Option (TxPool × Nat)
  | 0, p, pending => some (p, pending)
  | fuel + 1, p, pending =>
    if pending > p.config.globalSlots then
      match p.pending.lookup last with
      | none => none
      | some list =>
        if list.len > threshold then
          match p.dropRound s offenders with
          | none => none
          | some p => dropWhile s offenders last threshold fuel p (pending - offenders.length)
        else some (p, pending)
    else some (p, pending)

/-- The spammers become offenders one by one; the offenders before are equalized with each. -/
def equalize (s : Sched) : List Address → List Address → TxPool → Nat →
    Option (List Address × TxPool × Nat)
  | [], offenders, p, pending => some (offenders, p, pending)
  | offender :: spammers, offenders, p, pending =>
    if pending > p.config.globalSlots then
      match offenders.getLast? with
      | none => equalize s spammers [offender] p pending
      | some last =>
        match p.pending.lookup offender with
        | none => none
        | some list =>
          match dropWhile s offenders last list.len pending p pending with
          | none => none
          | some (p, pending) => equalize s spammers (offenders ++ [offender]) p pending
    else some (offenders, p, pending)

def pendingLen (p : TxPool) (addr : Address) : Nat := (p.pending.lookup addr).elim 0 TxList.len

/-- The accounts with many pending transactions that are not local, the longest lists first. -/
def spammers (s : Sched) (p : TxPool) : List Address :=
  (((s.accounts .spammers).order p.pending.keys).filter fun addr =>
    decide (addr ∉ p.locals ∧ p.pendingLen addr > p.config.accountSlots)).insertionSort
      fun a b => p.pendingLen b ≤ p.pendingLen a

def truncatePending (s : Sched) (p : TxPool) : Option TxPool :=
  let pending := total (fun _ list => TxList.len list) p.pending
  if pending ≤ p.config.globalSlots then some p
  else
    match equalize s (p.spammers s) [] p pending with
    | none => none
    | some (offenders, p, pending) =>
      match offenders.getLast? with
      | none => some p
      | some last =>
        (dropWhile s offenders last p.config.accountSlots pending p pending).map Prod.fst

/-- An account without a heartbeat counts as the oldest one. -/
def beatLe : Option Int → Option Int → Prop
  | none, _ => True
  | some _, none => False
  | some a, some b => a ≤ b

instance : DecidableRel beatLe
  | none, _ => isTrue trivial
  | some _, none => isFalse id
  | some a, some b => inferInstanceAs (Decidable (a ≤ b))

/-- The accounts with a queue that are not local, the latest heartbeat first. -/
def addressesByHeartbeat (s : Sched) (p : TxPool) : List Address :=
  ((((s.accounts .heartbeats).order p.queue.keys).filter fun addr =>
    decide (addr ∉ p.locals)).insertionSort fun a b => beatLe (p.beats a) (p.beats b)).reverse

def dropQueued (s : Sched) : List Address → Nat → TxPool → Option TxPool
  | [], _, p => some p
  | addr :: addresses, drop, p =>
    if drop = 0 then some p
    else
      match p.queue.lookup addr with
      | none => none
      | some list =>
        if list.len ≤ drop then
          dropQueued s addresses (drop - list.len) (p.removeTxs s list.flatten true)
        else dropQueued s addresses 0 (p.removeTxs s (list.flatten.reverse.take drop) true)

def truncateQueue (s : Sched) (p : TxPool) : Option TxPool :=
  let queued := total (fun _ list => TxList.len list) p.queue
  if queued ≤ p.config.globalQueue then some p
  else dropQueued s (p.addressesByHeartbeat s) (queued - p.config.globalQueue) p

/-! ### Demotion -/

/-- If the first transaction has not the nonce of the account, all go back to the queue. -/
def demoteGapped (s : Sched) (p : TxPool) (addr : Address) (list : TxList) (nonce : Nat) :
    Option (TxPool × TxList) :=
  if list.len > 0 ∧ list.get nonce = none then
    (list.cap 0).map fun r => ((p.setPending addr r.2).requeueTxs s r.1, r.2)
  else some (p, list)

/-- The pending list without the transactions that are too old or too costly. Those behind a removed
one go back to the queue. -/
def cleanPending (s : Sched) (p : TxPool) (addr : Address) (list : TxList) : TxPool :=
  let p' := (p.setPending addr (p.cleanList addr list).2.2).forgetTxs (p.cleanList addr list).1
  (p'.pricedRemoved s (p.cleanList addr list).1.length).requeueTxs s (p.cleanList addr list).2.1

def demoteAccount (s : Sched) (p : TxPool) (addr : Address) : Option TxPool :=
  match p.pending.lookup addr with
  | none => some p
  | some list =>
    ((p.cleanPending s addr list).demoteGapped s addr (p.cleanList addr list).2.2
      (p.currentState.getNonce addr)).map fun r => r.1.tidyPending addr r.2

def demoteAccounts (s : Sched) : TxPool → List Address → Option TxPool
  | p, [] => some p
  | p, addr :: accounts =>
    match p.demoteAccount s addr with
    | none => none
    | some p => demoteAccounts s p accounts

def demoteUnexecutables (s : Sched) (p : TxPool) : Option TxPool :=
  p.demoteAccounts s ((s.accounts .demote).order p.pending.keys)

end TxPool

/-! ## Chain -/

structure PoolBlock where
  header : Header
  transactions : List Tx

def PoolBlock.numberU64 (b : PoolBlock) : Nat := b.header.numberU64

structure BlockChain where
  hash : Header → Hash
  currentBlock : PoolBlock
  getBlock : Hash → Nat → Option PoolBlock
  stateAt : Hash → Option World

namespace BlockChain

variable (c : BlockChain)

def parent (b : PoolBlock) : Option PoolBlock :=
  c.getBlock b.header.parentHash (subUint64 b.numberU64 1)

/-- How a walk along two chains ends early. -/
inductive WalkStop where
  /-- A parent is missing: the source logs this and leaves `reset`. -/
  | unrooted
  /-- The fuel is used up: the blocks do not get lower. -/
  | endless

/-- The transactions of the blocks with a higher number, and the first block without one. -/
def lower (number : Nat) : Nat → PoolBlock → Except WalkStop (List Tx × PoolBlock)
  | 0, b => if b.numberU64 > number then .error .endless else .ok ([], b)
  | fuel + 1, b =>
    if b.numberU64 > number then
      match c.parent b with
      | none => .error .unrooted
      | some b' => (lower number fuel b').map fun r => (b.transactions ++ r.1, r.2)
    else .ok ([], b)

def meet : Nat → PoolBlock → PoolBlock → Except WalkStop (List Tx × List Tx)
  | 0, rem, add => if c.hash rem.header = c.hash add.header then .ok ([], []) else .error .endless
  | fuel + 1, rem, add =>
    if c.hash rem.header = c.hash add.header then .ok ([], [])
    else
      match c.parent rem, c.parent add with
      | some rem', some add' =>
        (meet fuel rem' add').map fun r => (rem.transactions ++ r.1, add.transactions ++ r.2)
      | _, _ => .error .unrooted

/-- The transactions of the old chain and of the new chain above the common block. -/
def walk (rem add : PoolBlock) : Except WalkStop (List Tx × List Tx) := do
  let (discarded, rem) ← c.lower add.numberU64 rem.numberU64 rem
  let (included, add) ← c.lower rem.numberU64 add.numberU64 add
  let (discarded', included') ← c.meet (rem.numberU64 + 1) rem add
  .ok (discarded ++ discarded', included ++ included')

def txDifference (a b : List Tx) : List Tx :=
  a.filter fun tx => decide (tx.hash ∉ b.map fun t => t.hash)

/-- `float64(n)`: the nearest number of 53 binary digits, and half way the even one. -/
def float64 (n : Nat) : Nat :=
  let ulp := 2 ^ (n.log2 - 52)
  if ulp < 2 * (n % ulp) ∨ ulp = 2 * (n % ulp) ∧ n / ulp % 2 = 1 then (n / ulp + 1) * ulp
  else n / ulp * ulp

/-- The transactions that `reset` injects again. It returns early at `some none`. -/
def reinjected (oldHead newHead : Option Header) : Option (Option (List Tx)) :=
  match oldHead, newHead with
  | none, _ => some (some [])
  | some _, none => none
  | some oldHead, some newHead =>
    if c.hash oldHead = newHead.parentHash then some (some [])
    else if ((float64 oldHead.numberU64 : Int) - float64 newHead.numberU64).natAbs > 64 then
      some (some [])
    else
      match c.getBlock (c.hash oldHead) oldHead.numberU64 with
      | none => if newHead.numberU64 ≥ oldHead.numberU64 then some none else some (some [])
      | some rem =>
        match c.getBlock (c.hash newHead) newHead.numberU64 with
        | none => none
        | some add =>
          match c.walk rem add with
          | .error .unrooted => some none
          | .error .endless => none
          | .ok (discarded, included) => some (some (txDifference discarded included))

end BlockChain

namespace TxPool

/-! ## Reset -/

def setHead (p : TxPool) (statedb : World) (newHead : Header) : TxPool :=
  { p with
    currentState := statedb
    pendingNonces := newTxNoncer statedb
    currentMaxGas := newHead.gasLimit.toNat }

def setIstanbul (p : TxPool) (newHead : Header) : TxPool :=
  { p with istanbul := p.chainconfig.isIstanbul (newHead.number + 1) }

def reset (s : Sched) (c : BlockChain) (p : TxPool) (oldHead newHead : Option Header) :
    Option TxPool :=
  match c.reinjected oldHead newHead with
  | none => none
  | some none => some p
  | some (some txs) =>
    let newHead := newHead.getD c.currentBlock.header
    match c.stateAt newHead.root with
    | none => some p
    | some statedb =>
      some (((p.setHead statedb newHead).addTxsLocked s txs false).1.setIstanbul newHead)

def updateNonce (p : TxPool) (addr : Address) : Option TxPool :=
  match p.pending.lookup addr with
  | none => some p
  | some list =>
    list.lastElement.map fun highestPending =>
      p.setNonce addr ((highestPending.nonce + 1) % 2 ^ 64)

def updateNonces : TxPool → List Address → Option TxPool
  | p, [] => some p
  | p, addr :: accounts =>
    match p.updateNonce addr with
    | none => none
    | some p => updateNonces p accounts

/-- The end of `runReorg`: the limits, and the nonces of the accounts with pending transactions. -/
def settle (s : Sched) (p : TxPool) : Option TxPool := do
  let p ← p.truncatePending s
  let p ← p.truncateQueue s
  p.updateNonces ((s.accounts .nonces).order p.pending.keys)

/-- `runReorg` with a reset request. -/
def resetReorg (s : Sched) (c : BlockChain) (p : TxPool) (oldHead newHead : Option Header) :
    Option TxPool := do
  let p ← p.reset s c oldHead newHead
  let (p, _) ← p.promoteExecutables s ((s.accounts .promote).order p.queue.keys)
  let p ← p.demoteUnexecutables s
  p.settle s

/-- `runReorg` without a reset request. -/
def promoteReorg (s : Sched) (p : TxPool) (dirty : Finset Address) : Option TxPool := do
  let (p, _) ← p.promoteExecutables s ((s.accounts .dirty).order dirty)
  p.settle s

/-- `runReorg`. A set of dirty accounts that is not there is empty. -/
def runReorg (s : Sched) (c : BlockChain) (p : TxPool)
    (reset : Option (Option Header × Option Header)) (dirty : Finset Address) : Option TxPool :=
  match reset with
  | some (oldHead, newHead) => p.resetReorg s c oldHead newHead
  | none => p.promoteReorg s dirty

/-! ## Eviction and price -/

/-- `time.Since(pool.beats[addr])` -/
def idle (s : Sched) (p : TxPool) (addr : Address) : Int :=
  (p.beats addr).elim (2 ^ 63 - 1) fun beat => s.now addr - beat

def evictAccount (s : Sched) (p : TxPool) (addr : Address) : TxPool :=
  match p.queue.lookup addr with
  | none => p
  | some list =>
    if addr ∉ p.locals ∧ p.idle s addr > p.config.lifetime then p.removeTxs s list.flatten true
    else p

/-- The eviction of `loop`: queues of accounts without a heartbeat for too long. -/
def evict (s : Sched) (p : TxPool) : TxPool :=
  ((s.accounts .evict).order p.queue.keys).foldl (evictAccount s) p

def setGasPrice (s : Sched) (p : TxPool) (price : Int) : TxPool :=
  match p.priced.cap p.all price with
  | (drop, priced) =>
    TxPool.removeTxs s { p.setPriced priced with gasPrice := price } drop false

end TxPool

/-- `NewTxPool`, without the journal. `none` if there is no state for the current block. -/
def newTxPool (config : TxPoolConfig) (chainconfig : ChainConfig) (c : BlockChain) :
    Option TxPool :=
  (c.stateAt c.currentBlock.header.root).map fun statedb =>
    { config := config.sanitize
      chainconfig
      gasPrice := config.sanitize.priceLimit
      istanbul := chainconfig.isIstanbul (c.currentBlock.header.number + 1)
      currentState := statedb
      pendingNonces := newTxNoncer statedb
      currentMaxGas := c.currentBlock.header.gasLimit.toNat
      locals := config.sanitize.locals.toFinset
      pending := ∅
      queue := ∅
      beats := fun _ => none
      all := newTxLookup
      priced := newTxPricedList }

/-! ## Chain and transactions of the tests -/

def testSched : Sched where
  accounts _ := Visit.sortedBy Fin.val Fin.val_injective
  hashes := Visit.sortedBy BitVec.toNat fun _ _ => BitVec.eq_of_toNat_eq
  now _ := 0

def testState (nonce : Nat) (balance : Int) : World where
  account _ := some
    { nonce, balance, codeHash := 0, code := none, committed := fun _ => 0, storage := fun _ => 0,
      suicided := false, deleted := false }

/-- `testBlockChain` of the tests: every block is the current one and has this state. -/
def testBlockChain (statedb : World) (gasLimit : UInt64) : BlockChain where
  hash _ := 0
  currentBlock := ⟨{ (default : Header) with gasLimit }, []⟩
  getBlock _ _ := some ⟨{ (default : Header) with gasLimit }, []⟩
  stateAt _ := some statedb

def richChain : BlockChain := testBlockChain (testState 0 (10 ^ 18)) 10000000

/-- `pricedTransaction` of the tests, with a hash and a size. -/
def pricedTransaction (hash : Hash) (sender : Address) (nonce size : Nat) (price : Int) : Tx where
  hash
  sender := some sender
  accountNonce := nonce % 2 ^ 64
  price
  gasLimit := 21000
  recipient := some 0
  amount := 100
  payload := []
  gasLimit_lt := by decide
  size
  accountNonce_lt := Nat.mod_lt _ (by decide)

end Virbicoin.Core
