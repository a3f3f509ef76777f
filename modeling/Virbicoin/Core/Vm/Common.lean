import Virbicoin.Core.State.World
import Virbicoin.Lib.BigEndian
import Virbicoin.Lib.Run
import Virbicoin.Params.Protocol

/-!
# Words, stack, memory and code

The data structures that an interpreter frame works on (`core/vm/stack.go`, `memory.go`,
`common.go`, `contract.go`, `analysis.go`) and the errors of `errors.go`.

A run time panic of the source is a `Fault`. The accessors below fail with the fault of their data
structure wherever the source would index or slice out of range, so that their absence can be
stated.
-/

namespace Virbicoin.Vm

open Lib State

/-- `uint256.Int` -/
abbrev Word := BitVec 256

/-! ## Errors -/

/-- The errors of `errors.go`. `precompile` stands for the errors of the native contracts. -/
inductive VmError where
  | invalidSubroutineEntry
  | outOfGas
  | codeStoreOutOfGas
  | depth
  | insufficientBalance
  | contractAddressCollision
  | executionReverted
  | maxCodeSizeExceeded
  | invalidJump
  | writeProtection
  | returnDataOutOfBounds
  | gasUintOverflow
  | invalidRetsub
  | returnStackExceeded
  | stackUnderflow (stackLen required : Nat)
  | stackOverflow (stackLen limit : Nat)
  | invalidOpCode (opcode : BitVec 8)
  | precompile
  deriving DecidableEq, Repr

/-- The ways in which the program panics, and the wrap around of a gas addition. -/
inductive Fault where
  /-- An item of the stack that is not there. -/
  | stack
  /-- An access to memory outside of the allocated store. -/
  | memory
  /-- A slice of call data, return data or code out of range. -/
  | slice
  /-- An access outside of the bit vector of the jump analysis. -/
  | analysis
  /-- A gas addition that does not fit into 64 bits. The source goes on with the low bits. -/
  | gas
  /-- `SubRefund` below zero. -/
  | refund
  /-- The panic of `gasSStoreEIP2929` on an address outside of the access list. -/
  | accessList
  deriving DecidableEq, Repr

inductive Abort where
  | fault (f : Fault)
  | fuel
  deriving DecidableEq, Repr

/-- Why an operation does not complete: it returns an error, or the run does not return. -/
inductive Stop where
  | error (e : VmError)
  | abort (a : Abort)
  deriving DecidableEq, Repr

def Stop.fault (f : Fault) : Stop := .abort (.fault f)

/-! ## Words -/

/-- `Uint64()` -/
def lowUint64 (x : Word) : Nat := x.toNat % 2 ^ 64

/-- `IsUint64()`; the overflow flag of `Uint64WithOverflow()` is its negation. -/
def isUint64 (x : Word) : Bool := decide (x.toNat < 2 ^ 64)

/-- `int64(x)` of a `uint64` -/
def int64 (x : Nat) : Int := if x < 2 ^ 63 then x else x - 2 ^ 64

/-- `common.Address(x.Bytes20())` -/
def toAddress (x : Word) : Address := Fin.ofNat _ x.toNat

/-- `SetBytes(addr.Bytes())` -/
def ofAddress (addr : Address) : Word := BitVec.ofNat 256 addr

def bytes32 (x : Word) : Bytes := bigEndian 32 x.toNat

def setBytes (b : Bytes) : Word := BitVec.ofNat 256 (ofBigEndian b)

/-! ## Stack

The top of the stack is the head of the list. -/

def pop : List Word → Except Stop (Word × List Word)
  | [] => .error (.fault .stack)
  | x :: s => .ok (x, s)

def back (s : List Word) (n : Nat) : Except Stop Word :=
  match s[n]? with
  | some x => .ok x
  | none => .error (.fault .stack)

def dup (s : List Word) (n : Nat) : Except Stop (List Word) := do
  let x ← back s (n - 1)
  .ok (x :: s)

def swap (s : List Word) (n : Nat) : Except Stop (List Word) := do
  let x ← back s (n - 1)
  let top ← back s 0
  .ok ((s.set (n - 1) top).set 0 x)

/-! ## Memory -/

structure Memory where
  store : Bytes := []
  lastGasCost : Nat := 0
  deriving DecidableEq

def overwrite (b : Bytes) (offset : Nat) (value : Bytes) : Bytes :=
  b.take offset ++ value ++ b.drop (offset + value.length)

namespace Memory

/-- `copy(m.store[offset:offset+size], value)`, with both bounds of the slice checked. -/
def set (m : Memory) (offset size : Nat) (value : Bytes) : Except Stop Memory :=
  if size > 0 then
    if (offset + size) % 2 ^ 64 > m.store.length ∨ offset > (offset + size) % 2 ^ 64 then
      .error (.fault .memory)
    else .ok { m with store := overwrite m.store offset (value.take size) }
  else .ok m

def set32 (m : Memory) (offset : Nat) (val : Word) : Except Stop Memory :=
  if (offset + 32) % 2 ^ 64 > m.store.length ∨ offset > (offset + 32) % 2 ^ 64 then
    .error (.fault .memory)
  else .ok { m with store := overwrite m.store offset (bytes32 val) }

/-- `m.store[offset] = val` -/
def setByte (m : Memory) (offset : Nat) (val : BitVec 8) : Except Stop Memory :=
  if offset < m.store.length then .ok { m with store := m.store.set offset val }
  else .error (.fault .memory)

def resize (m : Memory) (size : Nat) : Memory :=
  if m.store.length < size then
    { m with store := m.store ++ List.replicate (size - m.store.length) 0 }
  else m

/-- `m.store[offset : offset+size]` -/
def getPtr (m : Memory) (offset size : Int) : Except Stop Bytes :=
  if size = 0 then .ok []
  else if (m.store.length : Int) > offset then
    if 0 ≤ offset ∧ 0 ≤ size ∧ offset + size ≤ m.store.length then
      .ok ((m.store.drop offset.toNat).take size.toNat)
    else .error (.fault .memory)
  else .ok []

/-- The same bytes as `getPtr`, in a slice of their own. -/
def getCopy (m : Memory) (offset size : Int) : Except Stop Bytes := m.getPtr offset size

end Memory

/-! ## Data and sizes -/

def rightPadBytes (b : Bytes) (l : Int) : Bytes :=
  if l ≤ b.length then b else b ++ List.replicate (l.toNat - b.length) 0

def getData (data : Bytes) (start size : Nat) : Except Stop Bytes :=
  let length := data.length
  let start := if start > length then length else start
  let stop := (start + size) % 2 ^ 64
  let stop := if stop > length then length else stop
  if start ≤ stop then
    .ok (rightPadBytes ((data.drop start).take (stop - start)) (int64 size))
  else .error (.fault .slice)

def toWordSize (size : Nat) : Nat :=
  if size > maxUint64 - 31 then maxUint64 / 32 + 1 else (size + 31) / 32

/-- The size, `none` on an overflow. -/
def calcMemSize64WithUint (off : Word) (length64 : Nat) : Option Nat :=
  if length64 = 0 then some 0
  else if !isUint64 off then none
  else
    let val := (lowUint64 off + length64) % 2 ^ 64
    if val < lowUint64 off then none else some val

def calcMemSize64 (off l : Word) : Option Nat :=
  if !isUint64 l then none else calcMemSize64WithUint off (lowUint64 l)

/-- `math.SafeAdd`, `none` on an overflow. -/
def safeAdd (x y : Nat) : Option Nat := if x + y < 2 ^ 64 then some (x + y) else none

/-- `math.SafeMul`, `none` on an overflow. -/
def safeMul (x y : Nat) : Option Nat := if x * y < 2 ^ 64 then some (x * y) else none

/-! ## Jump analysis -/

/-- `bitvec`: a set bit marks the data of a push. -/
abbrev Bitvec := Bytes

namespace Bitvec

/-- `bits[i] |= mask` -/
def or (bits : Bitvec) (i : Nat) (mask : BitVec 8) : Except Stop Bitvec :=
  match bits[i]? with
  | some b => .ok (bits.set i (b ||| mask))
  | none => .error (.fault .analysis)

def set (bits : Bitvec) (pos : Nat) : Except Stop Bitvec := bits.or (pos / 8) (0x80 >>> (pos % 8))

def set8 (bits : Bitvec) (pos : Nat) : Except Stop Bitvec := do
  let bits ← bits.or (pos / 8) (0xFF >>> (pos % 8))
  bits.or (pos / 8 + 1) (~~~ (0xFF >>> (pos % 8)))

def codeSegment (bits : Bitvec) (pos : Nat) : Except Stop Bool :=
  match bits[pos / 8]? with
  | some b => .ok (b &&& (0x80 >>> (pos % 8)) == 0)
  | none => .error (.fault .analysis)

/-- The loop `for ; numbits >= 8; numbits -= 8` with `n` rounds. -/
def set8s : Nat → Nat → Bitvec → Except Stop Bitvec
  | 0, _, bits => .ok bits
  | n + 1, pc, bits => do
    let bits ← bits.set8 pc
    set8s n (pc + 8) bits

/-- The loop `for ; numbits > 0; numbits--` with `n` rounds. -/
def sets : Nat → Nat → Bitvec → Except Stop Bitvec
  | 0, _, bits => .ok bits
  | n + 1, pc, bits => do
    let bits ← bits.set pc
    sets n (pc + 1) bits

end Bitvec

/-- The loop of `codeBitmap` from `pc` on. It moves forward in every round, so a fuel of `len(code)`
rounds reaches the end. -/
def codeBitmapLoop (code : Bytes) : Nat → Nat → Bitvec → Except Stop Bitvec
  | 0, _, bits => .ok bits
  | fuel + 1, pc, bits =>
    if pc < code.length then
      let op := code.getD pc 0
      if 0x60 ≤ op ∧ op ≤ 0x7f then do
        let numbits := op.toNat - 0x60 + 1
        let bits ← Bitvec.set8s (numbits / 8) (pc + 1) bits
        let bits ← Bitvec.sets (numbits % 8) (pc + 1 + numbits / 8 * 8) bits
        codeBitmapLoop code fuel (pc + 1 + numbits) bits
      else codeBitmapLoop code fuel (pc + 1) bits
    else .ok bits

def codeBitmap (code : Bytes) : Except Stop Bitvec :=
  codeBitmapLoop code code.length 0 (List.replicate (code.length / 8 + 1 + 4) 0)

/-! ## Contracts -/

/-- `Contract`. The cached jump analysis is computed when it is needed. -/
structure Contract where
  callerAddress : Address
  self : Address
  code : Bytes
  input : Bytes := []
  gas : Nat
  value : Int

namespace Contract

/-- `GetByte`, and `GetOp` -/
def getOp (c : Contract) (n : Nat) : BitVec 8 := c.code.getD n 0

def isCode (c : Contract) (udest : Nat) : Except Stop Bool := do
  let bits ← codeBitmap c.code
  bits.codeSegment udest

/-- The common part of `validJumpdest` and `validJumpSubdest`: an opcode `op` at `udest`. -/
def validDest (c : Contract) (op : BitVec 8) (udest : Nat) : Except Stop Bool :=
  if udest ≥ c.code.length then .ok false
  else if c.code.getD udest 0 ≠ op then .ok false
  else c.isCode udest

def validJumpdest (c : Contract) (dest : Word) : Except Stop Bool :=
  if !isUint64 dest then .ok false else c.validDest 0x5b (lowUint64 dest)

def validJumpSubdest (c : Contract) (udest : Nat) : Except Stop Bool :=
  if int64 udest < 0 then .ok false else c.validDest 0x5c udest

end Contract

end Virbicoin.Vm
