import Virbicoin.Core.Vm.JumpTable
import Virbicoin.Lib.Loop
import Virbicoin.Rlp.Reader

/-!
# Calls, creations and the interpreter loop

`evm.go`, the calls of `instructions.go`, `RunPrecompiledContract` and `Run`. The functions of
`evm.go` take the interpreter as an argument (`RunFn`); a step of the interpreter takes the run of
the rest of the loop, and `Lib.loop` ties the knot with fuel (`run`).

The identity contract returns the slice that it was given. A call therefore returns either bytes of
its own or its input (`Returned`), and a call instruction reads the slice when the source reads it:
before it writes the output to memory, and again for the return data.
-/

namespace Virbicoin.Vm

open Lib State Params

/-- What `Run` returns. `gas` is the gas of the contract afterwards. -/
structure Result where
  ret : Bytes
  err : Option VmError
  gas : Nat
  evm : Evm

abbrev RunFn := Contract → Bytes → Bool → Evm → Except Abort Result

inductive Returned where
  | bytes (b : Bytes)
  /-- The slice of the input itself. -/
  | input
  deriving DecidableEq

structure CallResult where
  ret : Returned
  leftOverGas : Nat
  err : Option VmError
  evm : Evm

def CallResult.output (r : CallResult) (input : Bytes) : Bytes :=
  match r.ret with
  | .bytes b => b
  | .input => input

def Result.toCallResult (r : Result) : CallResult := ⟨.bytes r.ret, r.gas, r.err, r.evm⟩

/-! ## Transfers and native contracts -/

def canTransfer (world : World) (addr : Address) (amount : Int) : Bool :=
  decide (world.getBalance addr ≥ amount)

def transfer (keccak : Bytes → Hash) (world : World) (sender recipient : Address) (amount : Int) :
    World :=
  (world.subBalance keccak sender amount).addBalance keccak recipient amount

def Env.requiredGas (env : Env) (p : Precompile) (input : Bytes) : Nat :=
  match p with
  | .dataCopy => (input.length + 31) / 32 * identityPerWordGas + identityBaseGas
  | p => (env.native p).requiredGas input

def Env.runPrecompile (env : Env) (p : Precompile) (input : Bytes) : Returned × Option VmError :=
  match p with
  | .dataCopy => (.input, none)
  | p =>
    match (env.native p).run input with
    | .ok output => (.bytes output, none)
    | .error e => (.bytes [], some e)

def runPrecompiledContract (env : Env) (p : Precompile) (input : Bytes) (suppliedGas : Nat)
    (evm : Evm) : CallResult :=
  let gasCost := env.requiredGas p input
  if suppliedGas < gasCost then ⟨.bytes [], 0, some .outOfGas, evm⟩
  else
    let (output, err) := env.runPrecompile p input
    ⟨output, suppliedGas - gasCost, err, evm⟩

/-! ## Calls -/

/-- The end of the four calls: an error takes the state back to the snapshot and, unless it is a
revert, the gas. -/
def CallResult.settle (r : CallResult) (snapshot : Evm) : CallResult :=
  match r.err with
  | none => r
  | some e =>
    { r with
      evm := r.evm.revertToSnapshot snapshot
      leftOverGas := if e = .executionReverted then r.leftOverGas else 0 }

section Calls

variable (env : Env) (run : RunFn)

def callGuard (evm : Evm) (gas : Nat) (affordable : Bool) : Option CallResult :=
  if env.noRecursion && decide (evm.depth > 0) then some ⟨.bytes [], gas, none, evm⟩
  else if evm.depth > callCreateDepth then some ⟨.bytes [], gas, some .depth, evm⟩
  else if !affordable then some ⟨.bytes [], gas, some .insufficientBalance, evm⟩
  else none

def runCode (addr : Address) (contract : Contract) (input : Bytes) (readOnly : Bool) (evm : Evm) :
    Except Abort CallResult :=
  match env.precompile addr with
  | some p => .ok (runPrecompiledContract env p input contract.gas evm)
  | none => (run contract input readOnly evm).map Result.toCallResult

def call (caller addr : Address) (input : Bytes) (gas : Nat) (value : Int) (evm : Evm) :
    Except Abort CallResult :=
  match callGuard env evm gas (value = 0 || canTransfer evm.world caller value) with
  | some r => .ok r
  | none =>
    if !evm.world.exist addr && (env.precompile addr).isNone && env.rules.isEIP158 && value = 0 then
      .ok ⟨.bytes [], gas, none, evm⟩
    else do
      let world :=
        if !evm.world.exist addr then evm.world.createAccount env.keccak addr else evm.world
      let evm₁ := { evm with world := transfer env.keccak world caller addr value }
      let code := (evm₁.world.getCode addr).getD []
      let r ← (if (env.precompile addr).isNone && code.isEmpty then .ok ⟨.bytes [], gas, none, evm₁⟩
        else runCode env run addr { callerAddress := caller, self := addr, code, gas, value }
          input false evm₁)
      .ok (r.settle evm)

def callCode (caller addr : Address) (input : Bytes) (gas : Nat) (value : Int) (evm : Evm) :
    Except Abort CallResult :=
  match callGuard env evm gas (canTransfer evm.world caller value) with
  | some r => .ok r
  | none => do
    let code := (evm.world.getCode addr).getD []
    let r ← runCode env run addr { callerAddress := caller, self := caller, code, gas, value }
      input false evm
    .ok (r.settle evm)

/-- The new contract keeps the caller and the value of the calling one (`AsDelegate`). -/
def delegateCall (parent : Contract) (addr : Address) (input : Bytes) (gas : Nat) (evm : Evm) :
    Except Abort CallResult :=
  match callGuard env evm gas true with
  | some r => .ok r
  | none => do
    let code := (evm.world.getCode addr).getD []
    let contract : Contract :=
      { callerAddress := parent.callerAddress, self := parent.self, code, gas,
        value := parent.value }
    let r ← runCode env run addr contract input false evm
    .ok (r.settle evm)

def staticCall (caller addr : Address) (input : Bytes) (gas : Nat) (evm : Evm) :
    Except Abort CallResult :=
  match callGuard env evm gas true with
  | some r => .ok r
  | none => do
    -- an addition of nothing, which touches the account
    let evm₁ := { evm with world := evm.world.addBalance env.keccak addr 0 }
    let code := (evm₁.world.getCode addr).getD []
    let r ← runCode env run addr { callerAddress := caller, self := addr, code, gas, value := 0 }
      input true evm₁
    .ok (r.settle evm)

/-! ## Creations -/

structure CreateResult where
  ret : Bytes
  address : Address
  leftOverGas : Nat
  err : Option VmError
  evm : Evm

def finishCreate (address : Address) (snapshot : Evm) (r : Result) : CreateResult :=
  let sizeExceeded := env.rules.isEIP158 && decide (r.ret.length > maxCodeSize)
  let dataGas := r.ret.length * createDataGas % 2 ^ 64
  -- a returned slice of length zero is `nil`
  let code := if r.ret.isEmpty then none else some r.ret
  let stored : Result :=
    if r.err.isNone && !sizeExceeded then
      if r.gas < dataGas then { r with err := some .codeStoreOutOfGas }
      else { r with
        gas := r.gas - dataGas
        evm := { r.evm with world := r.evm.world.setCode env.keccak address code } }
    else r
  let failed := sizeExceeded ||
    (stored.err.isSome && (env.rules.isHomestead || stored.err ≠ some .codeStoreOutOfGas))
  { ret := r.ret
    address
    leftOverGas := if failed && stored.err ≠ some .executionReverted then 0 else stored.gas
    err := if sizeExceeded && stored.err.isNone then some .maxCodeSizeExceeded else stored.err
    evm := if failed then stored.evm.revertToSnapshot snapshot else stored.evm }

def bumpNonce (caller address : Address) (world : World) : World :=
  let world := world.setNonce env.keccak caller ((world.getNonce caller + 1) % 2 ^ 64)
  if env.rules.isYoloV3 then world.addAddressToAccessList address else world

def collides (world : World) (address : Address) : Bool :=
  let contractHash := world.getCodeHash address
  decide (world.getNonce address ≠ 0 ∨ (contractHash ≠ 0 ∧ contractHash ≠ env.keccak []))

def newContractWorld (caller address : Address) (value : Int) (world : World) : World :=
  let world := world.createAccount env.keccak address
  let world := if env.rules.isEIP158 then world.setNonce env.keccak address 1 else world
  transfer env.keccak world caller address value

def createAt (caller : Address) (code : Bytes) (gas : Nat) (value : Int) (address : Address)
    (evm : Evm) : Except Abort CreateResult :=
  if evm.depth > callCreateDepth then .ok ⟨[], 0, gas, some .depth, evm⟩
  else if !canTransfer evm.world caller value then
    .ok ⟨[], 0, gas, some .insufficientBalance, evm⟩
  else
    let evm := { evm with world := bumpNonce env caller address evm.world }
    if collides env evm.world address then .ok ⟨[], 0, 0, some .contractAddressCollision, evm⟩
    else do
      let evm₁ := { evm with world := newContractWorld env caller address value evm.world }
      let contract : Contract :=
        { callerAddress := caller, self := address, code, gas, value }
      (if env.noRecursion && decide (evm.depth > 0) then .ok ⟨[], address, gas, none, evm₁⟩
      else do
        let r ← run contract [] false evm₁
        .ok (finishCreate env address evm r))

def createAddress (b : Address) (nonce : Nat) : Address :=
  env.hashAddress (Rlp.rlp (.list [.bytes (bigEndian 20 b), .uint (BitVec.ofNat 64 nonce)]))

def createAddress2 (b : Address) (salt : Word) (inithash : Hash) : Address :=
  env.hashAddress (0xff :: (bigEndian 20 b ++ bytes32 salt ++ bytes32 inithash))

def create (caller : Address) (code : Bytes) (gas : Nat) (value : Int) (evm : Evm) :
    Except Abort CreateResult :=
  createAt env run caller code gas value (createAddress env caller (evm.world.getNonce caller)) evm

def create2 (caller : Address) (code : Bytes) (gas : Nat) (endowment : Int) (salt : Word)
    (evm : Evm) : Except Abort CreateResult :=
  createAt env run caller code gas endowment (createAddress2 env caller salt (env.keccak code)) evm

/-! ## Call instructions -/

def returning {α : Type} : Except Abort α → Except Stop α
  | .ok a => .ok a
  | .error a => .error (.abort a)

/-- `x += y` for gas. A wrap around is a fault. -/
def addGas (x y : Nat) : Except Stop Nat :=
  if x + y < 2 ^ 64 then .ok (x + y) else .error (.fault .gas)

structure CallArgs where
  addr : Word
  value : Word
  inOffset : Word
  inSize : Word
  retOffset : Word
  retSize : Word

def popCallArgs (hasValue : Bool) (s : List Word) : Except Stop (CallArgs × List Word) := do
  let (_, s) ← pop s
  let (addr, s) ← pop s
  let (value, s) ← (if hasValue then pop s else .ok (0, s))
  let (inOffset, s) ← pop s
  let (inSize, s) ← pop s
  let (retOffset, s) ← pop s
  let (retSize, s) ← pop s
  .ok ({ addr, value, inOffset, inSize, retOffset, retSize }, s)

def CallArgs.input (a : CallArgs) (memory : Memory) : Except Stop Bytes :=
  memory.getPtr (int64 (lowUint64 a.inOffset)) (int64 (lowUint64 a.inSize))

/-- The bytes of a returned slice, which may be the input range of the memory. -/
def Returned.read (ret : Returned) (a : CallArgs) (memory : Memory) : Except Stop Bytes :=
  match ret with
  | .bytes b => .ok b
  | .input => a.input memory

/-- Where the output goes: into memory after a success or a revert. -/
def CallResult.writeOutput (r : CallResult) (a : CallArgs) (memory : Memory) :
    Except Stop Memory := do
  let ret ← r.ret.read a memory
  (if r.err = none ∨ r.err = some .executionReverted then
    memory.set (lowUint64 a.retOffset) (lowUint64 a.retSize) ret
  else .ok memory)

/-- A call instruction: `invoke` is the function of `evm.go` on the input and the gas. The result is
read after the memory is written. -/
def opCallWith (hasValue : Bool) (m : Machine)
    (invoke : CallArgs → Bytes → Nat → Except Abort CallResult) :
    Except Stop (Machine × Bytes) := do
  let (a, s) ← popCallArgs hasValue m.loc.stack
  let args ← a.input m.loc.memory
  let gas ← (if a.value ≠ 0 then addGas m.evm.callGasTemp callStipend
    else .ok m.evm.callGasTemp)
  let r ← returning (invoke a args gas)
  let memory ← r.writeOutput a m.loc.memory
  let res ← r.ret.read a memory
  let gas ← addGas m.contract.gas r.leftOverGas
  .ok ({ m with
    loc := { m.loc with stack := (if r.err.isSome then 0 else 1) :: s, memory }
    contract := { m.contract with gas }
    evm := r.evm }, res)

def invoke (kind : CallKind) (m : Machine) (a : CallArgs) (input : Bytes) (gas : Nat) :
    Except Abort CallResult :=
  match kind with
  | .call => call env run m.contract.self (toAddress a.addr) input gas a.value.toNat m.evm
  | .callCode => callCode env run m.contract.self (toAddress a.addr) input gas a.value.toNat m.evm
  | .delegateCall => delegateCall env run m.contract (toAddress a.addr) input gas m.evm
  | .staticCall => staticCall env run m.contract.self (toAddress a.addr) input gas m.evm

def CallKind.hasValue : CallKind → Bool
  | .call => true
  | .callCode => true
  | .delegateCall => false
  | .staticCall => false

/-- `opCall`, `opCallCode`, `opDelegateCall` and `opStaticCall` -/
def opCall (kind : CallKind) (m : Machine) : Except Stop (Machine × Bytes) :=
  opCallWith kind.hasValue m (invoke env run kind m)

def finishOpCreate (m : Machine) (s : List Word) (r : CreateResult) (stackvalue : Word) :
    Except Stop (Machine × Bytes) := do
  let gas ← addGas m.contract.gas r.leftOverGas
  .ok ({ m with
    loc := { m.loc with stack := stackvalue :: s }
    contract := { m.contract with gas }
    evm := r.evm }, if r.err = some .executionReverted then r.ret else [])

def opCreate (m : Machine) : Except Stop (Machine × Bytes) := do
  let (value, s) ← pop m.loc.stack
  let (offset, s) ← pop s
  let (size, s) ← pop s
  let input ← m.loc.memory.getCopy (int64 (lowUint64 offset)) (int64 (lowUint64 size))
  let gas := m.contract.gas
  let gas := if env.rules.isEIP150 then gas - gas / 64 else gas
  let m := m.useGas gas
  let r ← returning (create env run m.contract.self input gas value.toNat m.evm)
  let failed := r.err.isSome && (env.rules.isHomestead || r.err ≠ some .codeStoreOutOfGas)
  finishOpCreate m s r (if failed then 0 else ofAddress r.address)

def opCreate2 (m : Machine) : Except Stop (Machine × Bytes) := do
  let (endowment, s) ← pop m.loc.stack
  let (offset, s) ← pop s
  let (size, s) ← pop s
  let (salt, s) ← pop s
  let input ← m.loc.memory.getCopy (int64 (lowUint64 offset)) (int64 (lowUint64 size))
  let gas := m.contract.gas
  let gas := gas - gas / 64
  let m := m.useGas gas
  let r ← returning (create2 env run m.contract.self input gas endowment.toNat salt m.evm)
  finishOpCreate m s r (if r.err.isSome then 0 else ofAddress r.address)

def execute (x : Execute) (m : Machine) : Except Stop (Machine × Bytes) :=
  match x with
  | .loc op => do
    let (loc, res) ← op.exec env m.contract m.evm m.loc
    .ok ({ m with loc }, res)
  | .sha3 => opSha3 env m
  | .sstore => opSstore env m
  | .log size => makeLog size env m
  | .suicide => opSuicide env m
  | .create => opCreate env run m
  | .create2 => opCreate2 env run m
  | .call kind => opCall env run kind m

end Calls

/-! ## A step -/

section Step

variable (env : Env)

/-- `sLen < operation.minStack` and `sLen > operation.maxStack` -/
def checkStack (o : Operation) (m : Machine) : Except Stop Unit := do
  let sLen := m.loc.stack.length
  failIf (sLen < o.minStack) (.error (.stackUnderflow sLen o.minStack))
  failIf (sLen > o.maxStack) (.error (.stackOverflow sLen o.maxStack))

def checkWrite (op : OpCode) (o : Operation) (m : Machine) : Except Stop Unit :=
  if m.evm.readOnly && env.rules.isByzantium then
    if o.writes then .error (.error .writeProtection)
    else if op = OpCode.CALL then do
      let value ← back m.loc.stack 2
      failIf (value ≠ 0) (.error .writeProtection)
    else .ok ()
  else .ok ()

/-- `contract.UseGas`, or `ErrOutOfGas` -/
def charge (gas : Nat) (m : Machine) : Except Stop Machine := do
  failIf (m.contract.gas < gas) (.error .outOfGas)
  .ok (m.useGas gas)

def requiredMemory (o : Operation) (s : List Word) : Except Stop Nat :=
  match o.memorySize with
  | none => .ok 0
  | some f => do
    let memSize ← f.size s
    let memSize ← checked memSize
    checked (safeMul (toWordSize memSize) 32)

/-- The dynamic portion of the gas. Every error is `ErrOutOfGas`. -/
def chargeDynamic (o : Operation) (memorySize : Nat) (m : Machine) : Except Stop Machine :=
  match o.dynamicGas with
  | none => .ok m
  | some f =>
    match f.gas env m memorySize with
    | .ok (cost, m) => charge cost m
    | .error (.error _) => .error (.error .outOfGas)
    | .error (.abort a) => .error (.abort a)

/-- `mem.Resize(memorySize)` -/
def Machine.resize (m : Machine) (memorySize : Nat) : Machine :=
  { m with loc := { m.loc with memory := m.loc.memory.resize memorySize } }

/-- What `Run` does before it executes the operation. -/
def prepare (op : OpCode) (o : Operation) (m : Machine) : Except Stop Machine := do
  checkStack o m
  checkWrite env op o m
  let m ← charge o.constantGas m
  let memorySize ← requiredMemory o m.loc.stack
  let m ← chargeDynamic env o memorySize m
  .ok (m.resize memorySize)

/-- What `Run` does after it has executed the operation: it goes on or returns. -/
def conclude (o : Operation) (m : Machine) (res : Bytes) : Machine ⊕ Result :=
  let m := if o.returns then { m with evm := { m.evm with returnData := res } } else m
  if o.reverts then .inr ⟨res, some .executionReverted, m.contract.gas, m.evm⟩
  else if o.halts then .inr ⟨res, none, m.contract.gas, m.evm⟩
  else if o.jumps then .inl m
  else .inl { m with loc := { m.loc with pc := (m.loc.pc + 1) % 2 ^ 64 } }

def dispatch (run : RunFn) (m : Machine) : Except Stop (Machine ⊕ Result) := do
  let op := m.contract.getOp m.loc.pc
  match (instructionSet env.rules).get op with
  | none => .error (.error (.invalidOpCode op))
  | some o => do
    let m ← prepare env op o m
    let (m, res) ← execute env run o.execute m
    .ok (conclude o m res)

/-- `steps++`, and whether the loop is to be left. -/
def poll (m : Machine) : Machine × Bool :=
  let m := { m with steps := m.steps + 1 }
  if m.steps % 1000 = 0 then
    ({ m with evm := { m.evm with polls := m.evm.polls + 1 } }, env.abort m.evm.polls)
  else (m, false)

def stepWith (run : RunFn) (m : Machine) : Except Abort (Machine ⊕ Result) :=
  let (m, aborted) := poll env m
  if aborted then .ok (.inr ⟨[], none, m.contract.gas, m.evm⟩)
  else
    match dispatch env run m with
    | .ok r => .ok r
    | .error (.error e) => .ok (.inr ⟨[], some e, m.contract.gas, m.evm⟩)
    | .error (.abort a) => .error a

/-! ## The interpreter -/

def enter (readOnly : Bool) (evm : Evm) : Evm :=
  { evm with depth := evm.depth + 1, readOnly := evm.readOnly || readOnly, returnData := [] }

/-- The deferred functions of `Run`. The flag is reset by the frame that set it. -/
def leave (readOnly : Bool) (evm : Evm) (r : Result) : Result :=
  { r with evm := { r.evm with
    depth := r.evm.depth - 1
    readOnly := if readOnly && !evm.readOnly then false else r.evm.readOnly } }

/-- `Run`, with the rest of the loop as an argument. -/
def runWith (loop : Machine → Except Abort Result) : RunFn := fun contract input readOnly evm => do
  let evm₁ := enter readOnly evm
  let r ← (if contract.code.isEmpty then .ok ⟨[], none, contract.gas, evm₁⟩
    else loop { contract := { contract with input }, evm := evm₁ })
  .ok (leave readOnly evm r)

def step (loop : Machine → Except Abort Result) (m : Machine) : Except Abort (Machine ⊕ Result) :=
  stepWith env (runWith loop) m

/-- `Run` with fuel for `n` rounds of nested and subsequent steps. -/
def run (n : Nat) : RunFn := runWith (Lib.loop (step env) .fuel n)

end Step

end Virbicoin.Vm
