import Virbicoin.Core.StateTransition

/-!
# Applying a transaction

`ApplyTransaction` and `applyTransaction` of `state_processor.go`. What is written to the tries at
the end of a transaction is not modelled: the functions for it are parameters (`Processor`). An
error carries the gas pool and the state as the transaction leaves them.
-/

namespace Virbicoin.Core

open Lib State Vm Params

structure Transaction where
  hash : Hash
  sender : Option Address
  accountNonce : Nat
  price : Int
  gasLimit : Nat
  recipient : Option Address
  amount : Int
  payload : Bytes
  gasLimit_lt : gasLimit < 2 ^ 64
  deriving DecidableEq

def Transaction.asMessage (tx : Transaction) : Option Message :=
  tx.sender.map fun sender =>
    { sender, recipient := tx.recipient, gasPrice := tx.price, gas := tx.gasLimit,
      value := tx.amount, nonce := tx.accountNonce, checkNonce := true, data := tx.payload }

/-- `types.Receipt`. The post state is `none` after Byzantium. -/
structure Receipt where
  postState : Option Hash
  failed : Bool
  cumulativeGasUsed : Nat
  bloom : Bytes
  logs : List Log
  txHash : Hash
  contractAddress : Address
  gasUsed : Nat
  blockHash : Hash
  blockNumber : Int
  transactionIndex : Nat

/-- The end of a transaction: `Finalise`, with or without the deletion of empty accounts, the root
of the state, and the bloom filter of the logs. -/
structure Processor where
  finalise : Bool → World → World
  intermediateRoot : World → Hash
  createBloom : List Log → Bytes

structure Applied where
  receipt : Receipt
  gp : Nat
  usedGas : Nat
  world : World

def activePrecompiles (env : Env) : List Address :=
  ((List.range 10).map (Fin.ofNat _)).filter fun addr => (env.precompile addr).isSome

def warmUp (env : Env) (msg : Message) (world : World) : World :=
  let world := world.addAddressToAccessList msg.sender
  let world := msg.recipient.elim world world.addAddressToAccessList
  (activePrecompiles env).foldl World.addAddressToAccessList world

section

variable (p : Processor) (env : Env) (n : Nat)

def makeReceipt (msg : Message) (tx : Transaction) (result : ExecutionResult) (usedGas : Nat)
    (world : World) : Receipt where
  postState := if env.rules.isByzantium then none else some (p.intermediateRoot world)
  failed := result.err.isSome
  cumulativeGasUsed := usedGas
  bloom := p.createBloom (world.getLogs tx.hash)
  logs := world.getLogs tx.hash
  txHash := tx.hash
  contractAddress :=
    if msg.recipient.isNone then createAddress env msg.sender tx.accountNonce else 0
  gasUsed := result.usedGas
  blockHash := world.bhash
  blockNumber := env.blockNumber
  transactionIndex := world.txIndex

def applyTransaction (msg : Message) (gp : Nat) (world : World) (tx : Transaction)
    (usedGas : Nat) : Except TransitionStop Applied := do
  let env := { env with origin := msg.sender, gasPrice := msg.gasPrice }
  let world := if env.rules.isYoloV3 then warmUp env msg world else world
  let (result, st) ← applyMessage env n { world } msg gp
  let world := p.finalise (env.rules.isByzantium || env.rules.isEIP158) st.evm.world
  let usedGas := (usedGas + result.usedGas) % 2 ^ 64
  .ok ⟨makeReceipt p env msg tx result usedGas world, st.gp, usedGas, world⟩

def applySigned (author : Address) (gp : Nat) (world : World) (tx : Transaction)
    (usedGas : Nat) : Except TransitionStop Applied :=
  match tx.asMessage with
  | none => .error (.error .invalidSender { gp, evm := { world } })
  | some msg => applyTransaction p { env with coinbase := author } n msg gp world tx usedGas

end

/-- What a transaction that is not applied does to the pool: nothing if its gas was not bought, and
otherwise its gas is gone. -/
def PoolAfterError (gas gp : Nat) (s : TransitionStop) : Prop :=
  (∃ e st, s = .error e st ∧
    (e.unbought = true ∧ st.gp = gp ∨
      e.unbought = false ∧ gas ≤ gp ∧ st.gp = gp - gas)) ∨
  ∃ a, s = .crash (.abort a)

/-- **The pool after a transaction**: it has lost the gas of the receipt. -/
theorem applySigned_ensures (p : Processor) (env : Env) (n : Nat) (author : Address) {gp : Nat}
    (world : World) (tx : Transaction) (usedGas : Nat) (hgp : gp < 2 ^ 64) :
    Ensures (PoolAfterError tx.gasLimit gp) (fun a => a.gp + a.receipt.gasUsed = gp)
      (applySigned p env n author gp world tx usedGas) := by
  unfold applySigned Transaction.asMessage
  cases tx.sender with
  | none => exact .inl ⟨_, _, rfl, .inl ⟨rfl, rfl⟩⟩
  | some sender =>
    refine (StateTransition.transitionDb_ensures tx.gasLimit_lt rfl hgp n).mono ?_ ?_ |>.bind
      fun r hr => hr
    · rintro s (⟨e, rfl, he⟩ | ⟨e, st, rfl, he, hle, _, rfl, -⟩ | ⟨a, rfl⟩)
      · exact .inl ⟨e, _, rfl, .inl ⟨he, rfl⟩⟩
      · exact .inl ⟨e, _, rfl, .inr ⟨he, hle, rfl⟩⟩
      · exact .inr ⟨a, rfl⟩
    rintro r ⟨st1, st2, h⟩
    exact h.pool

end Virbicoin.Core
