import Virbicoin.Core.Vm.Supply

/-!
# Applying a message

`state_transition.go` and `gaspool.go`. A message buys all of its gas in front, from the sender's
balance and from the gas pool of the block, and gives back what is left after the execution and the
refund. An error of a check is returned together with the transition as it is then: the pool and the
state stay changed, and it is the caller who takes the state back.
-/

namespace Virbicoin.Core

open Lib State Vm Params

/-- `Message`. The sender is `From`, and the recipient (`To`) is `none` for a contract creation. -/
structure Message where
  sender : Address
  recipient : Option Address
  gasPrice : Int
  gas : Nat
  value : Int
  nonce : Nat
  checkNonce : Bool
  data : Bytes

/-- The errors of `core/error.go` with the values that they print, and the error of the signer. -/
inductive CoreError where
  | invalidSender
  | nonceTooHigh (address : Address) (tx state : Nat)
  | nonceTooLow (address : Address) (tx state : Nat)
  | insufficientFunds (address : Address) (balance want : Int)
  | gasLimitReached
  | gasUintOverflow
  | intrinsicGas (gas want : Nat)
  | insufficientFundsForTransfer (address : Address)
  deriving DecidableEq

structure StateTransition where
  gp : Nat
  gas : Nat := 0
  initialGas : Nat := 0
  evm : Evm

/-- The ways to end without any result: a panic of the pool, or an abortion of the execution. -/
inductive Crash where
  /-- `gas pool pushed above uint64` -/
  | gasPool
  | abort (a : Abort)

/-- How `TransitionDb` ends without a result. -/
inductive TransitionStop where
  /-- An error is returned, and this is the transition then. -/
  | error (err : CoreError) (st : StateTransition)
  | crash (c : Crash)

structure ExecutionResult where
  usedGas : Nat
  err : Option VmError
  returnData : Bytes

def GasPool.addGas (gp amount : Nat) : Option Nat :=
  if gp > maxUint64 - amount then none else some (gp + amount)

def GasPool.subGas (gp amount : Nat) : Except CoreError Nat :=
  if gp < amount then .error .gasLimitReached else .ok (gp - amount)

def intrinsicGas (data : Bytes) (contractCreation isHomestead isEIP2028 : Bool) :
    Except CoreError Nat :=
  let gas := if contractCreation && isHomestead then txGasContractCreation else txGas
  if data.length > 0 then
    let nz := data.countP (· ≠ 0)
    let nonZeroGas := if isEIP2028 then txDataNonZeroGasEIP2028 else txDataNonZeroGasFrontier
    if (maxUint64 - gas) / nonZeroGas < nz then .error .gasUintOverflow
    else
      let gas := gas + nz * nonZeroGas
      let z := data.length - nz
      if (maxUint64 - gas) / txDataZeroGas < z then .error .gasUintOverflow
      else .ok (gas + z * txDataZeroGas)
  else .ok gas

namespace StateTransition

def check {α : Type} (st : StateTransition) : Except CoreError α → Except TransitionStop α
  | .ok a => .ok a
  | .error e => .error (.error e st)

def setWorld (st : StateTransition) (world : World) : StateTransition :=
  { st with evm := { st.evm with world } }

def gasUsed (st : StateTransition) : Nat := subUint64 st.initialGas st.gas

section

variable (env : Env) (msg : Message) (st : StateTransition)

def buyGas : Except TransitionStop StateTransition := do
  let mgval := (msg.gas : Int) * msg.gasPrice
  let balance := st.evm.world.getBalance msg.sender
  failIf (balance < mgval) (.error (.insufficientFunds msg.sender balance mgval) st)
  let gp ← st.check (GasPool.subGas st.gp msg.gas)
  .ok { gp
        gas := (st.gas + msg.gas) % 2 ^ 64
        initialGas := msg.gas
        evm := { st.evm with world := st.evm.world.subBalance env.keccak msg.sender mgval } }

def preCheck : Except TransitionStop StateTransition := do
  let stNonce := st.evm.world.getNonce msg.sender
  failIf (msg.checkNonce = true ∧ stNonce < msg.nonce)
    (.error (.nonceTooHigh msg.sender msg.nonce stNonce) st)
  failIf (msg.checkNonce = true ∧ stNonce > msg.nonce)
    (.error (.nonceTooLow msg.sender msg.nonce stNonce) st)
  buyGas env msg st

/-- Clauses 4 to 6 of the checks, after the gas was bought. -/
def payIntrinsicGas : Except TransitionStop StateTransition := do
  let gas ← st.check
    (intrinsicGas msg.data msg.recipient.isNone env.rules.isHomestead env.rules.isIstanbul)
  failIf (st.gas < gas) (.error (.intrinsicGas st.gas gas) st)
  let st := { st with gas := st.gas - gas }
  failIf (msg.value > 0 ∧ canTransfer st.evm.world msg.sender msg.value = false)
    (.error (.insufficientFundsForTransfer msg.sender) st)
  .ok st

def nonceUsed (world : World) : World :=
  world.setNonce env.keccak msg.sender ((world.getNonce msg.sender + 1) % 2 ^ 64)

def execute (n : Nat) : Except Abort (Bytes × Option VmError × StateTransition) :=
  match msg.recipient with
  | none => do
    let r ← create env (run env n) msg.sender msg.data st.gas msg.value st.evm
    .ok (r.ret, r.err, { st with gas := r.leftOverGas, evm := r.evm })
  | some recipient => do
    let evm := { st.evm with world := nonceUsed env msg st.evm.world }
    let r ← call env (run env n) msg.sender recipient msg.data st.gas msg.value evm
    .ok (r.output msg.data, r.err, { st with gas := r.leftOverGas, evm := r.evm })

def giveBack (gas : Nat) : Except TransitionStop StateTransition :=
  match GasPool.addGas st.gp gas with
  | none => .error (.crash .gasPool)
  | some gp =>
    .ok { st.setWorld (st.evm.world.addBalance env.keccak msg.sender (gas * msg.gasPrice)) with
      gp, gas }

def refundGas : Except TransitionStop StateTransition :=
  giveBack env msg st ((st.gas + min (st.gasUsed / 2) st.evm.world.refund) % 2 ^ 64)

def feePaid : StateTransition :=
  st.setWorld (st.evm.world.addBalance env.keccak env.coinbase (st.gasUsed * msg.gasPrice))

def transitionDb (n : Nat) : Except TransitionStop (ExecutionResult × StateTransition) := do
  let st ← preCheck env msg st
  let st ← payIntrinsicGas env msg st
  let (ret, vmerr, st) ← (execute env msg st n).mapError fun a => .crash (.abort a)
  let st ← refundGas env msg st
  .ok (⟨st.gasUsed, vmerr, ret⟩, feePaid env msg st)

end

end StateTransition

def applyMessage (env : Env) (n : Nat) (evm : Evm) (msg : Message) (gp : Nat) :
    Except TransitionStop (ExecutionResult × StateTransition) :=
  StateTransition.transitionDb env msg { gp, evm } n

/-! ## The checks -/

def CoreError.unbought : CoreError → Bool
  | .invalidSender => true
  | .nonceTooHigh .. => true
  | .nonceTooLow .. => true
  | .insufficientFunds .. => true
  | .gasLimitReached => true
  | .gasUintOverflow => false
  | .intrinsicGas .. => false
  | .insufficientFundsForTransfer _ => false

namespace StateTransition

variable {env : Env} {msg : Message} {st : StateTransition}

variable (env msg st) in
def bought : StateTransition where
  gp := st.gp - msg.gas
  gas := (st.gas + msg.gas) % 2 ^ 64
  initialGas := msg.gas
  evm := { st.evm with
    world := st.evm.world.subBalance env.keccak msg.sender ((msg.gas : Int) * msg.gasPrice) }

variable (st) in
/-- An error in front of the purchase: nothing has happened. -/
def Refused (s : TransitionStop) : Prop := ∃ e : CoreError, s = .error e st ∧ e.unbought = true

theorem buyGas_ensures : Ensures (Refused st) (fun st' => msg.gas ≤ st.gp ∧ st' = bought env msg st)
      (buyGas env msg st) := by
  refine .failIf_bind (fun _ => ⟨_, rfl, rfl⟩) fun _ => ?_
  unfold GasPool.subGas
  by_cases h : st.gp < msg.gas
  · rw [if_pos h]
    exact ⟨_, rfl, rfl⟩
  · rw [if_neg h]
    exact ⟨Nat.le_of_not_lt h, rfl⟩

theorem preCheck_ensures :
    Ensures (Refused st) (fun st' => msg.gas ≤ st.gp ∧ st' = bought env msg st)
      (preCheck env msg st) := by
  refine .failIf_bind (fun _ => ⟨_, rfl, rfl⟩) fun _ => ?_
  refine .failIf_bind (fun _ => ⟨_, rfl, rfl⟩) fun _ => ?_
  exact buyGas_ensures

theorem intrinsicGas_ensures (data : Bytes) (contractCreation isHomestead isEIP2028 : Bool) :
    Ensures (fun e => e = .gasUintOverflow) (fun _ => True)
      (intrinsicGas data contractCreation isHomestead isEIP2028) := by
  refine .ite (fun _ => ?_) fun _ => trivial
  refine .ite (fun _ => .error rfl) fun _ => ?_
  exact .ite (fun _ => .error rfl) fun _ => trivial

variable (st) in
def Paid (st' : StateTransition) : Prop := ∃ gas, st' = { st with gas } ∧ gas ≤ st.gas

theorem payIntrinsicGas_ensures :
    Ensures (fun s => ∃ e st', s = .error e st' ∧ e.unbought = false ∧ st.Paid st') st.Paid
      (payIntrinsicGas env msg st) := by
  refine .bind (Q := fun _ => True) ?_ fun gas _ => ?_
  · have h := intrinsicGas_ensures msg.data msg.recipient.isNone env.rules.isHomestead
      env.rules.isIstanbul
    revert h
    cases intrinsicGas msg.data msg.recipient.isNone env.rules.isHomestead env.rules.isIstanbul with
    | ok gas => exact fun _ => trivial
    | error e =>
      rintro rfl
      exact ⟨_, st, rfl, rfl, st.gas, rfl, le_rfl⟩
  refine .failIf_bind (fun _ => ⟨_, st, rfl, rfl, st.gas, rfl, le_rfl⟩) fun _ => ?_
  refine Ensures.failIf_bind (fun _ => ⟨_, _, rfl, rfl, _, rfl, Nat.sub_le _ _⟩) fun _ => ?_
  exact ⟨_, rfl, Nat.sub_le _ _⟩

/-! ## The execution -/

variable (st) in
/-- The transition after the execution: the pool is as before, no gas is made and the supply is
kept. -/
structure Executed (st' : StateTransition) : Prop where
  gp : st'.gp = st.gp
  initialGas : st'.initialGas = st.initialGas
  gas : st'.gas ≤ st.gas
  supply : st'.evm.world.total + st'.evm.destroyed = st.evm.world.total + st.evm.destroyed

theorem execute_ensures (n : Nat) :
    Ensures (fun _ => True) (fun r => st.Executed r.2.2) (execute env msg st n) := by
  have hgas := run_gas env n
  unfold execute
  cases msg.recipient with
  | none =>
    have hle : Ensures (fun _ => True) (fun r => r.leftOverGas ≤ st.gas)
        (create env (run env n) msg.sender msg.data st.gas msg.value st.evm) :=
      (hgas.createAt _ _ _).weaken fun _ _ => trivial
    exact ((supply_create n _ rfl).and hle).bind fun r hr => ⟨rfl, rfl, hr.2, hr.1⟩
  | some recipient =>
    have hsupply : Supply (st.evm.world.total + st.evm.destroyed) st.gas
        { st.evm with world := nonceUsed env msg st.evm.world } :=
      congrArg (· + st.evm.destroyed) (World.total_setNonce _)
    generalize nonceUsed env msg st.evm.world = world at hsupply
    have hle : Ensures (fun _ => True) (fun r => r.leftOverGas ≤ st.gas)
        (call env (run env n) msg.sender recipient msg.data st.gas msg.value
          { st.evm with world }) :=
      (hgas.call _).weaken fun _ _ => trivial
    exact ((supply_invariant.call_of (supply_run n) hsupply fun _ =>
      hsupply.modify total_callWorld).and hle).bind fun r hr => ⟨rfl, rfl, hr.2, hr.1⟩

/-! ## The refund -/

def returnedGas (st : StateTransition) : Nat :=
  st.gas + min ((st.initialGas - st.gas) / 2) st.evm.world.refund

theorem returnedGas_le (h : st.gas ≤ st.initialGas) : st.returnedGas ≤ st.initialGas := by
  unfold returnedGas
  omega

theorem gasUsed_eq (hinit : st.initialGas < 2 ^ 64) (h : st.gas ≤ st.initialGas) :
    st.gasUsed = st.initialGas - st.gas := by
  unfold gasUsed subUint64
  omega

variable (env msg st) in
def refunded : StateTransition where
  gp := st.gp + st.returnedGas
  gas := st.returnedGas
  initialGas := st.initialGas
  evm := { st.evm with
    world := st.evm.world.addBalance env.keccak msg.sender (st.returnedGas * msg.gasPrice) }

theorem refundGas_eq (hpool : st.gp + st.initialGas < 2 ^ 64) (h : st.gas ≤ st.initialGas) :
    refundGas env msg st = .ok (refunded env msg st) := by
  have hle := returnedGas_le h
  have hgas : (st.gas + min (st.gasUsed / 2) st.evm.world.refund) % 2 ^ 64 = st.returnedGas := by
    rw [gasUsed_eq (by omega) h]
    unfold returnedGas at hle ⊢
    rw [Nat.mod_eq_of_lt (by omega)]
  unfold refundGas
  rw [hgas]
  unfold giveBack GasPool.addGas maxUint64
  rw [if_neg (by omega)]
  rfl

/-! ## The account of a message -/

section Fee

variable {keccak : Bytes → Hash} {w w2 : World} {sender coinbase : Address} {cost back fee : Int}

theorem getBalance_settled (h : cost = back + fee) (a : Address) :
    ((w2.addBalance keccak sender back).addBalance keccak coinbase fee).getBalance a =
      w.getBalance a + (w2.getBalance a - (w.subBalance keccak sender cost).getBalance a)
        - (if a = sender then fee else 0) + (if a = coinbase then fee else 0) := by
  rw [World.getBalance_addBalance, World.getBalance_addBalance, World.getBalance_subBalance]
  split <;> omega

theorem total_settled {destroyed destroyed2 : Int} (h : cost = back + fee)
    (hsupply : w2.total + destroyed2 = (w.subBalance keccak sender cost).total + destroyed) :
    ((w2.addBalance keccak sender back).addBalance keccak coinbase fee).total =
      w.total - (destroyed2 - destroyed) := by
  rw [World.total_subBalance] at hsupply
  rw [World.total_addBalance, World.total_addBalance]
  omega

end Fee

/-- A message takes `st` to `st'` with the result `r`. Between the payment of the intrinsic gas and
the refund the execution takes `st₁` to `st₂`. -/
structure Conserves (env : Env) (msg : Message) (n : Nat) (st st₁ st₂ : StateTransition)
    (r : ExecutionResult) (st' : StateTransition) : Prop where
  paid : (bought env msg st).Paid st₁
  execute : execute env msg st₁ n = .ok (r.returnData, r.err, st₂)
  total : st'.evm.world.total =
    st.evm.world.total - (st'.evm.destroyed - st.evm.destroyed)
  /-- Apart from what the execution moves, the fee goes from the sender to the coinbase. -/
  balance : ∀ a, st'.evm.world.getBalance a =
    st.evm.world.getBalance a + (st₂.evm.world.getBalance a - st₁.evm.world.getBalance a)
      - (if a = msg.sender then r.usedGas * msg.gasPrice else 0)
      + (if a = env.coinbase then r.usedGas * msg.gasPrice else 0)
  pool : st'.gp + r.usedGas = st.gp
  half_le : (msg.gas - st₂.gas + 1) / 2 ≤ r.usedGas
  le : r.usedGas ≤ msg.gas

theorem executed_gas {st₁ st₂ : StateTransition} (hgas : msg.gas < 2 ^ 64) (hst : st.gas = 0)
    (hpaid : (bought env msg st).Paid st₁) (hex : st₁.Executed st₂) :
    st₂.initialGas = msg.gas ∧ st₂.gp = st.gp - msg.gas ∧ st₂.gas ≤ st₂.initialGas := by
  obtain ⟨gas, rfl, hle⟩ := hpaid
  have hbought : (bought env msg st).gas = msg.gas := by
    unfold bought
    rw [hst, Nat.zero_add, Nat.mod_eq_of_lt hgas]
  rw [hbought] at hle
  have hinit : st₂.initialGas = msg.gas := hex.initialGas
  exact ⟨hinit, hex.gp, hinit ▸ hex.gas.trans hle⟩

theorem conserves_of_executed {st₁ st₂ : StateTransition} {n : Nat} {ret : Bytes}
    {vmerr : Option VmError} (hgas : msg.gas < 2 ^ 64) (hst : st.gas = 0) (hle : msg.gas ≤ st.gp)
    (hpaid : (bought env msg st).Paid st₁)
    (hexec : execute env msg st₁ n = .ok (ret, vmerr, st₂)) :
    Conserves env msg n st st₁ st₂ ⟨(refunded env msg st₂).gasUsed, vmerr, ret⟩
      (feePaid env msg (refunded env msg st₂)) := by
  have hex : st₁.Executed st₂ := (execute_ensures n).of_ok hexec
  obtain ⟨hinit, hgp, hleft⟩ := executed_gas hgas hst hpaid hex
  have hret := returnedGas_le hleft
  have hhalf : (st₂.initialGas - st₂.gas + 1) / 2 ≤ st₂.initialGas - st₂.returnedGas := by
    unfold returnedGas
    omega
  have hused : (refunded env msg st₂).gasUsed = st₂.initialGas - st₂.returnedGas :=
    gasUsed_eq (hinit.trans_lt hgas) hret
  have hcost : (msg.gas : Int) * msg.gasPrice = st₂.returnedGas * msg.gasPrice +
      (refunded env msg st₂).gasUsed * msg.gasPrice := by
    rw [← add_mul]
    congr 1
    omega
  have hevm1 : st₁.evm = (bought env msg st).evm := by
    obtain ⟨gas, rfl, -⟩ := hpaid
    rfl
  refine ⟨hpaid, hexec, ?_, fun a => ?_, ?_, ?_, ?_⟩
  · have hsupply := hex.supply
    rw [hevm1] at hsupply
    exact total_settled hcost hsupply
  · rw [hevm1]
    exact getBalance_settled hcost a
  · show st₂.gp + st₂.returnedGas + (refunded env msg st₂).gasUsed = st.gp
    omega
  · show _ ≤ (refunded env msg st₂).gasUsed
    omega
  · show (refunded env msg st₂).gasUsed ≤ _
    omega

variable (env msg st) in
/-- How a message ends without a result: refused, rejected after its gas was bought, or with an
abortion. -/
def Rejected (s : TransitionStop) : Prop :=
  Refused st s ∨
  (∃ e st', s = .error e st' ∧ e.unbought = false ∧ msg.gas ≤ st.gp ∧
    (bought env msg st).Paid st') ∨
  ∃ a, s = .crash (.abort a)

theorem transitionDb_ensures (hgas : msg.gas < 2 ^ 64) (hst : st.gas = 0) (hpool : st.gp < 2 ^ 64)
    (n : Nat) :
    Ensures (Rejected env msg st) (fun r => ∃ st₁ st₂, Conserves env msg n st st₁ st₂ r.1 r.2)
      (transitionDb env msg st n) := by
  refine (preCheck_ensures.weaken fun _ => .inl).bind ?_
  rintro st0 ⟨hle, hst0⟩
  refine (payIntrinsicGas_ensures.weaken ?_).bind fun st₁ hpaid => ?_
  · rintro _ ⟨e, st', rfl, he, hpaid⟩
    exact .inr (.inl ⟨e, st', rfl, he, hle, hst0 ▸ hpaid⟩)
  rw [hst0] at hpaid
  refine (Ensures.mapError (Q := fun r => execute env msg st₁ n = .ok r)
    (Ensures.of_cases (fun _ h => h) fun a _ => .inr (.inr ⟨a, rfl⟩))).bind ?_
  rintro ⟨ret, vmerr, st₂⟩ hexec
  have hconserves := conserves_of_executed hgas hst hle hpaid hexec
  obtain ⟨hinit, hgp, hleft⟩ := executed_gas hgas hst hpaid ((execute_ensures n).of_ok hexec)
  refine .bind (Q := fun st => st = refunded env msg st₂) ?_ ?_
  · rw [refundGas_eq (by omega) hleft]
    exact rfl
  · rintro st3 rfl
    exact ⟨st₁, st₂, hconserves⟩

end StateTransition

/-- **A message conserves ether and gas.** The total of all balances goes down by what
self-destructs destroy. The price of the used gas goes to the coinbase, and the used gas is at least
half of what was used before the refund. -/
theorem transition_conserves (env : Env) (n : Nat) (evm : Evm) (msg : Message) (gp : Nat)
    (r : ExecutionResult) (st' : StateTransition) (hgas : msg.gas < 2 ^ 64) (hgp : gp < 2 ^ 64)
    (h : applyMessage env n evm msg gp = .ok (r, st')) :
    ∃ st₁ st₂, StateTransition.Conserves env msg n { gp, evm } st₁ st₂ r st' :=
  (StateTransition.transitionDb_ensures hgas rfl hgp n).of_ok h

def funded (balance : Int) : World where
  account := fun _ => some { World.newAcct (fun _ => 0) with balance }

def selfTransfer (gas : Nat) : Message where
  sender := 0
  recipient := some 0
  gasPrice := 2
  gas := gas
  value := 1
  nonce := 0
  checkNonce := true
  data := []

theorem transition_conserves_self :
    ∃ r st', applyMessage (Env.trivial (mainnetChainConfig.rules 0)) 1
        { world := funded 1000000 } (selfTransfer 30000) 50000 = .ok (r, st') ∧
      r.usedGas = 21000 ∧ st'.gp = 29000 ∧
      ∃ st₁ st₂, StateTransition.Conserves (Env.trivial (mainnetChainConfig.rules 0))
        (selfTransfer 30000) 1 { gp := 50000, evm := { world := funded 1000000 } } st₁ st₂ r
        st' := by
  have hrun : (applyMessage (.trivial (mainnetChainConfig.rules 0)) 1
      { world := funded 1000000 } (selfTransfer 30000) 50000).map
        (fun p => (p.1.usedGas, p.2.gp)) = .ok (21000, 29000) := rfl
  obtain ⟨⟨r, st'⟩, h, hvalues⟩ := map_eq_ok.1 hrun
  obtain ⟨hused, hgp⟩ := Prod.mk.inj hvalues
  exact ⟨r, st', h, hused, hgp, transition_conserves _ _ _ _ _ _ _ (by decide) (by decide) h⟩

end Virbicoin.Core
