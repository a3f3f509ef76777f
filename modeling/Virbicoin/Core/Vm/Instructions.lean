import Virbicoin.Core.Vm.Machine

/-!
# Instructions

`instructions.go` and the two instructions of `eips.go`, without the calls. Most instructions take
their operands from the stack and put one word back; `nullary`, `unary`, `binary` and `ternary` are
these shapes. An instruction that peeks at its last operand and overwrites it is one that pops it
and pushes the result.
-/

namespace Virbicoin.Vm

open Lib State

/-! ## Shapes -/

abbrev LocalFn := Env → Contract → Evm → Local → Except Stop (Local × Bytes)

def nullary (f : Env → Contract → Evm → Local → Word) : LocalFn := fun env c evm l =>
  .ok ({ l with stack := f env c evm l :: l.stack }, [])

def unary (f : Env → Contract → Evm → Word → Word) : LocalFn := fun env c evm l => do
  let (x, s) ← pop l.stack
  .ok ({ l with stack := f env c evm x :: s }, [])

def binary (f : Word → Word → Word) : LocalFn := fun _ _ _ l => do
  let (x, s) ← pop l.stack
  let (y, s) ← pop s
  .ok ({ l with stack := f x y :: s }, [])

def ternary (f : Word → Word → Word → Word) : LocalFn := fun _ _ _ l => do
  let (x, s) ← pop l.stack
  let (y, s) ← pop s
  let (z, s) ← pop s
  .ok ({ l with stack := f x y z :: s }, [])

/-- `SetOne()` or `Clear()` -/
def ofBool (b : Bool) : Word := if b then 1 else 0

/-! ## Arithmetic -/

/-- `Exp`, by squaring, from the highest bit of the exponent on. -/
def exp (base exponent : Word) : Word :=
  (List.range 256).foldl
    (fun res i => if exponent.getLsbD (255 - i) then res * res * base else res * res) 1

def extendSign (num byteNum : Word) : Word :=
  if byteNum.toNat > 31 then num
  else
    let bit := byteNum.toNat * 8 + 7
    let mask : Word := 1 <<< bit - 1
    if num.getLsbD bit then num ||| ~~~ mask else num &&& mask

def byteAt (th val : Word) : Word :=
  if th.toNat < 32 then (val >>> (8 * (31 - th.toNat))) &&& 0xff else 0

def opAdd : LocalOp := .binary (· + ·)
def opSub : LocalOp := .binary (· - ·)
def opMul : LocalOp := .binary (· * ·)
def opDiv : LocalOp := .binary (· / ·)
def opSdiv : LocalOp := .binary BitVec.sdiv
def opMod : LocalOp := .binary fun x y => if y = 0 then 0 else x % y
def opSmod : LocalOp := .binary fun x y => if y = 0 then 0 else x.srem y
def opExp : LocalOp := .binary exp
def opSignExtend : LocalOp := .binary fun back num => extendSign num back
def opNot : LocalOp := .unary fun _ _ _ x => ~~~ x
def opLt : LocalOp := .binary fun x y => ofBool (x < y)
def opGt : LocalOp := .binary fun x y => ofBool (y < x)
def opSlt : LocalOp := .binary fun x y => ofBool (x.slt y)
def opSgt : LocalOp := .binary fun x y => ofBool (y.slt x)
def opEq : LocalOp := .binary fun x y => ofBool (x = y)
def opIszero : LocalOp := .unary fun _ _ _ x => ofBool (x = 0)
def opAnd : LocalOp := .binary (· &&& ·)
def opOr : LocalOp := .binary (· ||| ·)
def opXor : LocalOp := .binary (· ^^^ ·)
def opByte : LocalOp := .binary byteAt
def opAddmod : LocalOp :=
  .ternary fun x y z => if z = 0 then 0 else BitVec.ofNat 256 ((x.toNat + y.toNat) % z.toNat)
def opMulmod : LocalOp :=
  .ternary fun x y z => if z = 0 then 0 else BitVec.ofNat 256 (x.toNat * y.toNat % z.toNat)
def opSHL : LocalOp :=
  .binary fun shift value => if shift.toNat < 256 then value <<< shift.toNat else 0
def opSHR : LocalOp :=
  .binary fun shift value => if shift.toNat < 256 then value >>> shift.toNat else 0
def opSAR : LocalOp :=
  .binary fun shift value =>
    if shift.toNat > 256 then (if value.msb then BitVec.allOnes 256 else 0)
    else value.sshiftRight shift.toNat

/-! ## Context -/

def opAddress : LocalOp := .nullary fun _ c _ _ => ofAddress c.self
def opBalance : LocalOp :=
  .unary fun _ _ evm slot => BitVec.ofInt 256 (evm.world.getBalance (toAddress slot))
def opSelfBalance : LocalOp :=
  .nullary fun _ c evm _ => BitVec.ofInt 256 (evm.world.getBalance c.self)
def opOrigin : LocalOp := .nullary fun env _ _ _ => ofAddress env.origin
def opCaller : LocalOp := .nullary fun _ c _ _ => ofAddress c.callerAddress
def opCallValue : LocalOp := .nullary fun _ c _ _ => BitVec.ofInt 256 c.value
def opCallDataSize : LocalOp := .nullary fun _ c _ _ => BitVec.ofNat 256 c.input.length
def opReturnDataSize : LocalOp := .nullary fun _ _ evm _ => BitVec.ofNat 256 evm.returnData.length
def opExtCodeSize : LocalOp :=
  .unary fun _ _ evm slot =>
    BitVec.ofNat 256 ((evm.world.getCode (toAddress slot)).getD []).length
def opCodeSize : LocalOp := .nullary fun _ c _ _ => BitVec.ofNat 256 c.code.length
def opExtCodeHash : LocalOp :=
  .unary fun env _ evm slot =>
    if evm.world.empty env.keccak (toAddress slot) then 0
    else evm.world.getCodeHash (toAddress slot)
def opGasprice : LocalOp := .nullary fun env _ _ _ => BitVec.ofInt 256 env.gasPrice
def opBlockhash : LocalOp :=
  .unary fun env _ _ num =>
    let upper := uint64 env.blockNumber
    let lower := if upper < 257 then 0 else upper - 256
    if isUint64 num ∧ lower ≤ lowUint64 num ∧ lowUint64 num < upper then env.getHash (lowUint64 num)
    else 0
def opCoinbase : LocalOp := .nullary fun env _ _ _ => ofAddress env.coinbase
def opTimestamp : LocalOp := .nullary fun env _ _ _ => BitVec.ofInt 256 env.time
def opNumber : LocalOp := .nullary fun env _ _ _ => BitVec.ofInt 256 env.blockNumber
def opDifficulty : LocalOp := .nullary fun env _ _ _ => BitVec.ofInt 256 env.difficulty
def opGasLimit : LocalOp := .nullary fun env _ _ _ => BitVec.ofNat 256 env.gasLimit
def opChainID : LocalOp := .nullary fun env _ _ _ => BitVec.ofInt 256 env.chainID
def opPc : LocalOp := .nullary fun _ _ _ l => BitVec.ofNat 256 l.pc
def opMsize : LocalOp := .nullary fun _ _ _ l => BitVec.ofNat 256 l.memory.store.length
def opGas : LocalOp := .nullary fun _ c _ _ => BitVec.ofNat 256 c.gas
def opSload : LocalOp := .unary fun _ c evm loc => evm.world.getState c.self loc

/-! ## Data and memory -/

def opCallDataLoad : LocalFn := fun _ c _ l => do
  let (x, s) ← pop l.stack
  (if isUint64 x then do
    let data ← getData c.input (lowUint64 x) 32
    .ok ({ l with stack := setBytes data :: s }, [])
  else .ok ({ l with stack := 0 :: s }, []))

/-- `Uint64WithOverflow()`, with the largest offset on an overflow. -/
def dataOffset64 (x : Word) : Nat := if isUint64 x then lowUint64 x else 0xffffffffffffffff

def copyData (data : Bytes) (l : Local) : Except Stop (Local × Bytes) := do
  let (memOffset, s) ← pop l.stack
  let (dataOffset, s) ← pop s
  let (length, s) ← pop s
  let data ← getData data (dataOffset64 dataOffset) (lowUint64 length)
  let memory ← l.memory.set (lowUint64 memOffset) (lowUint64 length) data
  .ok ({ l with stack := s, memory }, [])

def opCallDataCopy : LocalFn := fun _ c _ l => copyData c.input l
def opCodeCopy : LocalFn := fun _ c _ l => copyData c.code l
def opExtCodeCopy : LocalFn := fun _ _ evm l => do
  let (a, s) ← pop l.stack
  copyData ((evm.world.getCode (toAddress a)).getD []) { l with stack := s }

def opReturnDataCopy : LocalFn := fun _ _ evm l => do
  let (memOffset, s) ← pop l.stack
  let (dataOffset, s) ← pop s
  let (length, s) ← pop s
  failIf (!isUint64 dataOffset) (.error .returnDataOutOfBounds)
  let stop := dataOffset + length
  failIf (!isUint64 stop ∨ evm.returnData.length < lowUint64 stop) (.error .returnDataOutOfBounds)
  failIf (lowUint64 stop < lowUint64 dataOffset) (.fault .slice)
  let data :=
    (evm.returnData.drop (lowUint64 dataOffset)).take (lowUint64 stop - lowUint64 dataOffset)
  let memory ← l.memory.set (lowUint64 memOffset) (lowUint64 length) data
  .ok ({ l with stack := s, memory }, [])

def opPop : LocalFn := fun _ _ _ l => do
  let (_, s) ← pop l.stack
  .ok ({ l with stack := s }, [])

def opMload : LocalFn := fun _ _ _ l => do
  let (v, s) ← pop l.stack
  let data ← l.memory.getPtr (int64 (lowUint64 v)) 32
  .ok ({ l with stack := setBytes data :: s }, [])

def opMstore : LocalFn := fun _ _ _ l => do
  let (mStart, s) ← pop l.stack
  let (val, s) ← pop s
  let memory ← l.memory.set32 (lowUint64 mStart) val
  .ok ({ l with stack := s, memory }, [])

def opMstore8 : LocalFn := fun _ _ _ l => do
  let (off, s) ← pop l.stack
  let (val, s) ← pop s
  let memory ← l.memory.setByte (lowUint64 off) (val.setWidth 8)
  .ok ({ l with stack := s, memory }, [])

/-! ## Control -/

def opJump : LocalFn := fun _ c _ l => do
  let (pos, s) ← pop l.stack
  let valid ← c.validJumpdest pos
  failIf (!valid) (.error .invalidJump)
  .ok ({ l with stack := s, pc := lowUint64 pos }, [])

def opJumpi : LocalFn := fun _ c _ l => do
  let (pos, s) ← pop l.stack
  let (cond, s) ← pop s
  (if cond ≠ 0 then do
    let valid ← c.validJumpdest pos
    failIf (!valid) (.error .invalidJump)
    .ok ({ l with stack := s, pc := lowUint64 pos }, [])
  else .ok ({ l with stack := s, pc := (l.pc + 1) % 2 ^ 64 }, []))

def opJumpdest : LocalFn := fun _ _ _ l => .ok (l, [])

def opBeginSub : LocalFn := fun _ _ _ _ => .error (.error .invalidSubroutineEntry)

def opJumpSub : LocalFn := fun _ c _ l => do
  failIf (l.rstack.length ≥ 1023) (.error .returnStackExceeded)
  let (pos, s) ← pop l.stack
  failIf (!isUint64 pos) (.error .invalidJump)
  let valid ← c.validJumpSubdest (lowUint64 pos)
  failIf (!valid) (.error .invalidJump)
  .ok ({ l with
    stack := s, rstack := l.pc % 2 ^ 32 :: l.rstack, pc := (lowUint64 pos + 1) % 2 ^ 64 }, [])

def opReturnSub : LocalFn := fun _ _ _ l =>
  match l.rstack with
  | [] => .error (.error .invalidRetsub)
  | pc :: rstack => .ok ({ l with rstack, pc := pc + 1 }, [])

def opPush1 : LocalFn := fun _ c _ l =>
  let pc := (l.pc + 1) % 2 ^ 64
  let integer : Word := if pc < c.code.length then (c.code.getD pc 0).setWidth 256 else 0
  .ok ({ l with stack := integer :: l.stack, pc }, [])

def makePush (size pushByteSize : Nat) : LocalFn := fun _ c _ l =>
  let codeLen : Int := c.code.length
  let next := int64 ((l.pc + 1) % 2 ^ 64)
  let startMin := if next < codeLen then next else codeLen
  let endMin := if startMin + pushByteSize < codeLen then startMin + pushByteSize else codeLen
  if 0 ≤ startMin ∧ startMin ≤ endMin then
    let data := (c.code.drop startMin.toNat).take (endMin - startMin).toNat
    .ok ({ l with
      stack := setBytes (rightPadBytes data pushByteSize) :: l.stack
      pc := (l.pc + size) % 2 ^ 64 }, [])
  else .error (.fault .slice)

def makeDup (size : Nat) : LocalFn := fun _ _ _ l => do
  let s ← dup l.stack size
  .ok ({ l with stack := s }, [])

/-- The item to swap with is one further down than `size`. -/
def makeSwap (size : Nat) : LocalFn := fun _ _ _ l => do
  let s ← swap l.stack (size + 1)
  .ok ({ l with stack := s }, [])

/-- `opReturn` and `opRevert` -/
def opReturn : LocalFn := fun _ _ _ l => do
  let (offset, s) ← pop l.stack
  let (size, s) ← pop s
  let ret ← l.memory.getPtr (int64 (lowUint64 offset)) (int64 (lowUint64 size))
  .ok ({ l with stack := s }, ret)

def opStop : LocalFn := fun _ _ _ l => .ok (l, [])

def LocalOp.exec : LocalOp → LocalFn
  | .nullary f => Vm.nullary f
  | .unary f => Vm.unary f
  | .binary f => Vm.binary f
  | .ternary f => Vm.ternary f
  | .callDataLoad => opCallDataLoad
  | .callDataCopy => opCallDataCopy
  | .codeCopy => opCodeCopy
  | .extCodeCopy => opExtCodeCopy
  | .returnDataCopy => opReturnDataCopy
  | .pop => opPop
  | .mload => opMload
  | .mstore => opMstore
  | .mstore8 => opMstore8
  | .jump => opJump
  | .jumpi => opJumpi
  | .jumpdest => opJumpdest
  | .beginSub => opBeginSub
  | .jumpSub => opJumpSub
  | .returnSub => opReturnSub
  | .push1 => opPush1
  | .push size => makePush size size
  | .dup size => makeDup size
  | .swap size => makeSwap size
  | .ret => opReturn
  | .stop => opStop

/-! ## Writing to the state -/

def opSha3 (env : Env) (m : Machine) : Except Stop (Machine × Bytes) := do
  let (offset, s) ← pop m.loc.stack
  let (size, s) ← pop s
  let data ← m.loc.memory.getPtr (int64 (lowUint64 offset)) (int64 (lowUint64 size))
  let hash := env.keccak data
  let world :=
    if env.enablePreimageRecording then m.evm.world.addPreimage hash data else m.evm.world
  .ok ({ m with loc := { m.loc with stack := hash :: s }, evm := { m.evm with world } }, [])

def opSstore (env : Env) (m : Machine) : Except Stop (Machine × Bytes) := do
  let (loc, s) ← pop m.loc.stack
  let (val, s) ← pop s
  let world := m.evm.world.setState env.keccak m.contract.self loc val
  .ok ({ m with loc := { m.loc with stack := s }, evm := { m.evm with world } }, [])

def popTopics : Nat → List Word → Except Stop (List Hash × List Word)
  | 0, s => .ok ([], s)
  | n + 1, s => do
    let (topic, s) ← pop s
    let (topics, s) ← popTopics n s
    .ok (topic :: topics, s)

def makeLog (size : Nat) (env : Env) (m : Machine) : Except Stop (Machine × Bytes) := do
  let (mStart, s) ← pop m.loc.stack
  let (mSize, s) ← pop s
  let (topics, s) ← popTopics size s
  let data ← m.loc.memory.getCopy (int64 (lowUint64 mStart)) (int64 (lowUint64 mSize))
  let world := m.evm.world.addLog
    { address := m.contract.self, topics, data, blockNumber := uint64 env.blockNumber }
  .ok ({ m with loc := { m.loc with stack := s }, evm := { m.evm with world } }, [])

def opSuicide (env : Env) (m : Machine) : Except Stop (Machine × Bytes) := do
  let (beneficiary, s) ← pop m.loc.stack
  let balance := m.evm.world.getBalance m.contract.self
  let world := m.evm.world.addBalance env.keccak (toAddress beneficiary) balance
  let world := (world.suicide m.contract.self).1
  let destroyed :=
    if toAddress beneficiary = m.contract.self then m.evm.destroyed + balance
    else m.evm.destroyed
  .ok ({ m with
    loc := { m.loc with stack := s }, evm := { m.evm with world, destroyed } }, [])

end Virbicoin.Vm
