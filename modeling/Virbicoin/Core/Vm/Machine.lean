import Virbicoin.Core.Vm.Common
import Virbicoin.Params.Config

/-!
# Environment, state and operations of the interpreter

`Env` is what an execution reads and never changes, `Evm` the state that its frames share, `Local`
what belongs to a frame alone, and a `Machine` is a frame in its loop. A snapshot of the state is
the state itself (`State.revertToSnapshot_exact`). On an error the interpreter keeps what it has,
since every caller goes back to its snapshot then.

An operation of the jump table is data: its columns name the functions of the source, which the next
modules define, so that their consistency can be decided.
-/

namespace Virbicoin.Vm

open Lib State

/-! ## Native contracts -/

/-- The native contracts of `contracts.go`. -/
inductive Precompile where
  | ecrecover
  | sha256hash
  | ripemd160hash
  | dataCopy
  | bigModExp (eip2565 : Bool)
  | bn256AddByzantium
  | bn256ScalarMulByzantium
  | bn256PairingByzantium
  | bn256AddIstanbul
  | bn256ScalarMulIstanbul
  | bn256PairingIstanbul
  | blake2F
  deriving DecidableEq, Repr

def precompiledContractsHomestead : Nat → Option Precompile
  | 1 => some .ecrecover
  | 2 => some .sha256hash
  | 3 => some .ripemd160hash
  | 4 => some .dataCopy
  | _ => none

def precompiledContractsByzantium : Nat → Option Precompile
  | 1 => some .ecrecover
  | 2 => some .sha256hash
  | 3 => some .ripemd160hash
  | 4 => some .dataCopy
  | 5 => some (.bigModExp false)
  | 6 => some .bn256AddByzantium
  | 7 => some .bn256ScalarMulByzantium
  | 8 => some .bn256PairingByzantium
  | _ => none

def precompiledContractsIstanbul : Nat → Option Precompile
  | 1 => some .ecrecover
  | 2 => some .sha256hash
  | 3 => some .ripemd160hash
  | 4 => some .dataCopy
  | 5 => some (.bigModExp false)
  | 6 => some .bn256AddIstanbul
  | 7 => some .bn256ScalarMulIstanbul
  | 8 => some .bn256PairingIstanbul
  | 9 => some .blake2F
  | _ => none

def precompiledContractsYoloV3 : Nat → Option Precompile
  | 1 => some .ecrecover
  | 2 => some .sha256hash
  | 3 => some .ripemd160hash
  | 4 => some .dataCopy
  | 5 => some (.bigModExp true)
  | 6 => some .bn256AddIstanbul
  | 7 => some .bn256ScalarMulIstanbul
  | 8 => some .bn256PairingIstanbul
  | 9 => some .blake2F
  | _ => none

/-- A native contract other than `dataCopy`: its price, and its output or error. -/
structure Native where
  requiredGas : Bytes → Nat
  run : Bytes → Except VmError Bytes

/-! ## Environment and state -/

structure Env where
  rules : Rules
  keccak : Bytes → Hash
  getHash : Nat → Hash
  coinbase : Address
  gasLimit : Nat
  blockNumber : Int
  time : Int
  difficulty : Int
  origin : Address
  gasPrice : Int
  chainID : Int
  noRecursion : Bool := false
  enablePreimageRecording : Bool := false
  native : Precompile → Native
  /-- What the `n`-th reading of the flag that `Cancel` sets returns. -/
  abort : Nat → Bool := fun _ => false

/-- An environment for examples: a hash function and native contracts that return nothing. -/
def Env.trivial (rules : Rules) : Env where
  rules := rules
  keccak := fun _ => 0
  getHash := fun _ => 0
  coinbase := 0
  gasLimit := 0
  blockNumber := 0
  time := 0
  difficulty := 0
  origin := 0
  gasPrice := 0
  chainID := 0
  native := fun _ => ⟨fun _ => 0, fun _ => .ok []⟩

def Env.precompile (env : Env) (addr : Address) : Option Precompile :=
  if env.rules.isYoloV3 then precompiledContractsYoloV3 addr
  else if env.rules.isIstanbul then precompiledContractsIstanbul addr
  else if env.rules.isByzantium then precompiledContractsByzantium addr
  else precompiledContractsHomestead addr

/-- `crypto.Keccak256` of the data, cut to an address. -/
def Env.hashAddress (env : Env) (data : Bytes) : Address := Fin.ofNat _ (env.keccak data).toNat

structure Evm where
  world : World
  depth : Nat := 0
  readOnly : Bool := false
  returnData : Bytes := []
  callGasTemp : Nat := 0
  /-- How often the abort flag was read. -/
  polls : Nat := 0
  /-- Not in the source: what self-destructs in favour of themselves took out of circulation. It is
  part of a snapshot. -/
  destroyed : Int := 0

/-- `RevertToSnapshot`, to the state of `snapshot`. -/
def Evm.revertToSnapshot (evm snapshot : Evm) : Evm :=
  { evm with world := snapshot.world, destroyed := snapshot.destroyed }

/-- What belongs to a frame: `pc` and the data of `callCtx`. -/
structure Local where
  pc : Nat := 0
  stack : List Word := []
  rstack : List Nat := []
  memory : Memory := {}

structure Machine where
  loc : Local := {}
  contract : Contract
  evm : Evm
  steps : Nat := 0

/-- `UseGas`, where there is enough. -/
def Machine.useGas (m : Machine) (gas : Nat) : Machine :=
  { m with contract := { m.contract with gas := m.contract.gas - gas } }

/-- `evm.StateDB` after a change. -/
def Machine.setWorld (m : Machine) (world : World) : Machine :=
  { m with evm := { m.evm with world } }

/-! ## Operations -/

/-- The functions of `memory_table.go`: the end of the range with the offset and the length at these
positions of the stack, of the range with the offset on top and a fixed length, or of two ranges. -/
inductive MemorySizeFunc where
  | range (off len : Nat)
  | fixed (length : Nat)
  | two (xOff xLen yOff yLen : Nat)
  deriving DecidableEq

inductive CallKind where
  | call
  | callCode
  | delegateCall
  | staticCall
  deriving DecidableEq, Repr

/-- The functions of `gas_table.go` and `operations_acl.go`. -/
inductive GasFunc where
  | pureMemory
  | perWord (stackpos price : Nat)
  | log (n : Nat)
  | exp (expByte : Nat)
  | sStore
  | sStoreEIP2200
  | sStoreEIP2929
  | sLoadEIP2929
  | extCodeCopyEIP2929
  | accountCheckEIP2929
  | call (kind : CallKind)
  | callEIP2929 (kind : CallKind)
  | selfdestruct
  | selfdestructEIP2929
  deriving DecidableEq

/-- The instructions that work on the frame and only read the state. The first four take this number
of words from the stack and push one. -/
inductive LocalOp where
  | nullary (f : Env → Contract → Evm → Local → Word)
  | unary (f : Env → Contract → Evm → Word → Word)
  | binary (f : Word → Word → Word)
  | ternary (f : Word → Word → Word → Word)
  | callDataLoad
  | callDataCopy
  | codeCopy
  | extCodeCopy
  | returnDataCopy
  | pop
  | mload
  | mstore
  | mstore8
  | jump
  | jumpi
  | jumpdest
  | beginSub
  | jumpSub
  | returnSub
  | push1
  | push (size : Nat)
  | dup (size : Nat)
  | swap (size : Nat)
  | ret
  | stop

inductive Execute where
  | loc (op : LocalOp)
  | sha3
  | sstore
  | log (size : Nat)
  | suicide
  | create
  | create2
  | call (kind : CallKind)

structure Operation where
  execute : Execute
  constantGas : Nat := 0
  dynamicGas : Option GasFunc := none
  minStack : Nat
  maxStack : Nat
  memorySize : Option MemorySizeFunc := none
  halts : Bool := false
  jumps : Bool := false
  writes : Bool := false
  reverts : Bool := false
  returns : Bool := false

end Virbicoin.Vm
