import Virbicoin.Core.Vm.Gas
import Virbicoin.Core.Vm.Instructions

/-!
# Instruction sets

`opcodes.go`, `stack_table.go`, `jump_table.go` and the activators of `eips.go`. An instruction set
is the list of its entries; an entry that is set later comes first. The sets of later forks are made
of the earlier ones by setting and repricing entries, as in the source.
-/

namespace Virbicoin.Vm

open Lib State Params

/-! ## Opcodes -/

abbrev OpCode := BitVec 8

namespace OpCode

def STOP : OpCode := 0x00
def ADD : OpCode := 0x01
def MUL : OpCode := 0x02
def SUB : OpCode := 0x03
def DIV : OpCode := 0x04
def SDIV : OpCode := 0x05
def MOD : OpCode := 0x06
def SMOD : OpCode := 0x07
def ADDMOD : OpCode := 0x08
def MULMOD : OpCode := 0x09
def EXP : OpCode := 0x0a
def SIGNEXTEND : OpCode := 0x0b
def LT : OpCode := 0x10
def GT : OpCode := 0x11
def SLT : OpCode := 0x12
def SGT : OpCode := 0x13
def EQ : OpCode := 0x14
def ISZERO : OpCode := 0x15
def AND : OpCode := 0x16
def OR : OpCode := 0x17
def XOR : OpCode := 0x18
def NOT : OpCode := 0x19
def BYTE : OpCode := 0x1a
def SHL : OpCode := 0x1b
def SHR : OpCode := 0x1c
def SAR : OpCode := 0x1d
def SHA3 : OpCode := 0x20
def ADDRESS : OpCode := 0x30
def BALANCE : OpCode := 0x31
def ORIGIN : OpCode := 0x32
def CALLER : OpCode := 0x33
def CALLVALUE : OpCode := 0x34
def CALLDATALOAD : OpCode := 0x35
def CALLDATASIZE : OpCode := 0x36
def CALLDATACOPY : OpCode := 0x37
def CODESIZE : OpCode := 0x38
def CODECOPY : OpCode := 0x39
def GASPRICE : OpCode := 0x3a
def EXTCODESIZE : OpCode := 0x3b
def EXTCODECOPY : OpCode := 0x3c
def RETURNDATASIZE : OpCode := 0x3d
def RETURNDATACOPY : OpCode := 0x3e
def EXTCODEHASH : OpCode := 0x3f
def BLOCKHASH : OpCode := 0x40
def COINBASE : OpCode := 0x41
def TIMESTAMP : OpCode := 0x42
def NUMBER : OpCode := 0x43
def DIFFICULTY : OpCode := 0x44
def GASLIMIT : OpCode := 0x45
def CHAINID : OpCode := 0x46
def SELFBALANCE : OpCode := 0x47
def POP : OpCode := 0x50
def MLOAD : OpCode := 0x51
def MSTORE : OpCode := 0x52
def MSTORE8 : OpCode := 0x53
def SLOAD : OpCode := 0x54
def SSTORE : OpCode := 0x55
def JUMP : OpCode := 0x56
def JUMPI : OpCode := 0x57
def PC : OpCode := 0x58
def MSIZE : OpCode := 0x59
def GAS : OpCode := 0x5a
def JUMPDEST : OpCode := 0x5b
def BEGINSUB : OpCode := 0x5c
def RETURNSUB : OpCode := 0x5d
def JUMPSUB : OpCode := 0x5e
def PUSH1 : OpCode := 0x60
def DUP1 : OpCode := 0x80
def SWAP1 : OpCode := 0x90
def LOG0 : OpCode := 0xa0
def CREATE : OpCode := 0xf0
def CALL : OpCode := 0xf1
def CALLCODE : OpCode := 0xf2
def RETURN : OpCode := 0xf3
def DELEGATECALL : OpCode := 0xf4
def CREATE2 : OpCode := 0xf5
def STATICCALL : OpCode := 0xfa
def REVERT : OpCode := 0xfd
def SELFDESTRUCT : OpCode := 0xff

end OpCode

open OpCode

/-! ## Entries -/

def gasQuickStep : Nat := 2
def gasFastestStep : Nat := 3
def gasFastStep : Nat := 5
def gasMidStep : Nat := 8
def gasSlowStep : Nat := 10
def gasExtStep : Nat := 20

def maxStack (pop push : Nat) : Nat := stackLimit + pop - push
def minStack (pops _push : Nat) : Nat := pops
def minSwapStack (n : Nat) : Nat := minStack n n
def maxSwapStack (n : Nat) : Nat := maxStack n n
def minDupStack (n : Nat) : Nat := minStack n (n + 1)
def maxDupStack (n : Nat) : Nat := maxStack n (n + 1)

def operation (execute : Execute) (constantGas pop push : Nat) : Operation where
  execute := execute
  constantGas := constantGas
  minStack := minStack pop push
  maxStack := maxStack pop push

def localOp (op : LocalOp) (constantGas pop push : Nat) : Operation :=
  operation (.loc op) constantGas pop push

def Operation.withMemory (o : Operation) (memorySize : MemorySizeFunc) (dynamicGas : GasFunc) :
    Operation :=
  { o with memorySize := some memorySize, dynamicGas := some dynamicGas }

abbrev JumpTable := List (OpCode × Operation)

namespace JumpTable

def get (jt : JumpTable) (op : OpCode) : Option Operation := jt.lookup op

def set (jt : JumpTable) (op : OpCode) (o : Operation) : JumpTable := (op, o) :: jt

def setConstantGas (jt : JumpTable) (op : OpCode) (constantGas : Nat) : JumpTable :=
  jt.map fun e => if e.1 = op then (e.1, { e.2 with constantGas }) else e

def setDynamicGas (jt : JumpTable) (op : OpCode) (dynamicGas : GasFunc) : JumpTable :=
  jt.map fun e => if e.1 = op then (e.1, { e.2 with dynamicGas := some dynamicGas }) else e

end JumpTable

/-! ## Frontier -/

def frontierArithmetic : JumpTable := [
  (STOP, { localOp .stop 0 0 0 with halts := true }),
  (ADD, localOp opAdd gasFastestStep 2 1),
  (MUL, localOp opMul gasFastStep 2 1),
  (SUB, localOp opSub gasFastestStep 2 1),
  (DIV, localOp opDiv gasFastStep 2 1),
  (SDIV, localOp opSdiv gasFastStep 2 1),
  (MOD, localOp opMod gasFastStep 2 1),
  (SMOD, localOp opSmod gasFastStep 2 1),
  (ADDMOD, localOp opAddmod gasMidStep 3 1),
  (MULMOD, localOp opMulmod gasMidStep 3 1),
  (EXP, { localOp opExp 0 2 1 with dynamicGas := some gasExpFrontier }),
  (SIGNEXTEND, localOp opSignExtend gasFastStep 2 1),
  (LT, localOp opLt gasFastestStep 2 1),
  (GT, localOp opGt gasFastestStep 2 1),
  (SLT, localOp opSlt gasFastestStep 2 1),
  (SGT, localOp opSgt gasFastestStep 2 1),
  (EQ, localOp opEq gasFastestStep 2 1),
  (ISZERO, localOp opIszero gasFastestStep 1 1),
  (AND, localOp opAnd gasFastestStep 2 1),
  (XOR, localOp opXor gasFastestStep 2 1),
  (OR, localOp opOr gasFastestStep 2 1),
  (NOT, localOp opNot gasFastestStep 1 1),
  (BYTE, localOp opByte gasFastestStep 2 1)]

def frontierContext : JumpTable := [
  (SHA3, (operation .sha3 sha3Gas 2 1).withMemory memorySha3 gasSha3),
  (ADDRESS, localOp opAddress gasQuickStep 0 1),
  (BALANCE, localOp opBalance balanceGasFrontier 1 1),
  (ORIGIN, localOp opOrigin gasQuickStep 0 1),
  (CALLER, localOp opCaller gasQuickStep 0 1),
  (CALLVALUE, localOp opCallValue gasQuickStep 0 1),
  (CALLDATALOAD, localOp .callDataLoad gasFastestStep 1 1),
  (CALLDATASIZE, localOp opCallDataSize gasQuickStep 0 1),
  (CALLDATACOPY,
    (localOp .callDataCopy gasFastestStep 3 0).withMemory memoryCallDataCopy gasCallDataCopy),
  (CODESIZE, localOp opCodeSize gasQuickStep 0 1),
  (CODECOPY, (localOp .codeCopy gasFastestStep 3 0).withMemory memoryCodeCopy gasCodeCopy),
  (GASPRICE, localOp opGasprice gasQuickStep 0 1),
  (EXTCODESIZE, localOp opExtCodeSize extcodeSizeGasFrontier 1 1),
  (EXTCODECOPY,
    (localOp .extCodeCopy extcodeCopyBaseFrontier 4 0).withMemory memoryExtCodeCopy
      gasExtCodeCopy),
  (BLOCKHASH, localOp opBlockhash gasExtStep 1 1),
  (COINBASE, localOp opCoinbase gasQuickStep 0 1),
  (TIMESTAMP, localOp opTimestamp gasQuickStep 0 1),
  (NUMBER, localOp opNumber gasQuickStep 0 1),
  (DIFFICULTY, localOp opDifficulty gasQuickStep 0 1),
  (GASLIMIT, localOp opGasLimit gasQuickStep 0 1)]

def frontierFlow : JumpTable := [
  (POP, localOp .pop gasQuickStep 1 0),
  (MLOAD, (localOp .mload gasFastestStep 1 1).withMemory memoryMLoad gasMLoad),
  (MSTORE, (localOp .mstore gasFastestStep 2 0).withMemory memoryMStore gasMStore),
  (MSTORE8, (localOp .mstore8 gasFastestStep 2 0).withMemory memoryMStore8 gasMStore8),
  (SLOAD, localOp opSload sloadGasFrontier 1 1),
  (SSTORE, { operation .sstore 0 2 0 with dynamicGas := some .sStore, writes := true }),
  (JUMP, { localOp .jump gasMidStep 1 0 with jumps := true }),
  (JUMPI, { localOp .jumpi gasSlowStep 2 0 with jumps := true }),
  (PC, localOp opPc gasQuickStep 0 1),
  (MSIZE, localOp opMsize gasQuickStep 0 1),
  (GAS, localOp opGas gasQuickStep 0 1),
  (JUMPDEST, localOp .jumpdest jumpdestGas 0 0),
  (PUSH1, localOp .push1 gasFastestStep 0 1)]

/-- `PUSH2` to `PUSH32` -/
def frontierPush : JumpTable :=
  (List.range 31).map fun i =>
    (PUSH1 + BitVec.ofNat 8 (i + 1), localOp (.push (i + 2)) gasFastestStep 0 1)

/-- `DUP1` to `DUP16` -/
def frontierDup : JumpTable :=
  (List.range 16).map fun i =>
    (DUP1 + BitVec.ofNat 8 i,
      { execute := .loc (.dup (i + 1)), constantGas := gasFastestStep
        minStack := minDupStack (i + 1), maxStack := maxDupStack (i + 1) })

/-- `SWAP1` to `SWAP16` -/
def frontierSwap : JumpTable :=
  (List.range 16).map fun i =>
    (SWAP1 + BitVec.ofNat 8 i,
      { execute := .loc (.swap (i + 1)), constantGas := gasFastestStep
        minStack := minSwapStack (i + 2), maxStack := maxSwapStack (i + 2) })

/-- `LOG0` to `LOG4` -/
def frontierLog : JumpTable :=
  (List.range 5).map fun i =>
    (LOG0 + BitVec.ofNat 8 i,
      { (operation (.log i) 0 (i + 2) 0).withMemory memoryLog (.log i) with writes := true })

def frontierSystem : JumpTable := [
  (CREATE,
    { (operation .create createGas 3 1).withMemory memoryCreate gasCreate with
      writes := true, returns := true }),
  (CALL,
    { (operation (.call .call) callGasFrontier 7 1).withMemory memoryCall (.call .call) with
      returns := true }),
  (CALLCODE,
    { (operation (.call .callCode) callGasFrontier 7 1).withMemory memoryCall (.call .callCode) with
      returns := true }),
  (RETURN, { (localOp .ret 0 2 0).withMemory memoryReturn gasReturn with halts := true }),
  (SELFDESTRUCT,
    { operation .suicide 0 1 0 with
      dynamicGas := some .selfdestruct, halts := true, writes := true })]

def newFrontierInstructionSet : JumpTable :=
  frontierArithmetic ++ frontierContext ++ frontierFlow ++ frontierPush ++ frontierDup ++
    frontierSwap ++ frontierLog ++ frontierSystem

/-! ## Later forks -/

def newHomesteadInstructionSet : JumpTable :=
  newFrontierInstructionSet.set DELEGATECALL
    { (operation (.call .delegateCall) callGasFrontier 6 1).withMemory memoryDelegateCall
        (.call .delegateCall) with returns := true }

def newTangerineWhistleInstructionSet : JumpTable :=
  newHomesteadInstructionSet
    |>.setConstantGas BALANCE balanceGasEIP150
    |>.setConstantGas EXTCODESIZE extcodeSizeGasEIP150
    |>.setConstantGas SLOAD sloadGasEIP150
    |>.setConstantGas EXTCODECOPY extcodeCopyBaseEIP150
    |>.setConstantGas CALL callGasEIP150
    |>.setConstantGas CALLCODE callGasEIP150
    |>.setConstantGas DELEGATECALL callGasEIP150

def newSpuriousDragonInstructionSet : JumpTable :=
  newTangerineWhistleInstructionSet.setDynamicGas EXP gasExpEIP158

def newByzantiumInstructionSet : JumpTable :=
  newSpuriousDragonInstructionSet
    |>.set STATICCALL
      { (operation (.call .staticCall) callGasEIP150 6 1).withMemory memoryStaticCall
          (.call .staticCall) with returns := true }
    |>.set RETURNDATASIZE (localOp opReturnDataSize gasQuickStep 0 1)
    |>.set RETURNDATACOPY
      ((localOp .returnDataCopy gasFastestStep 3 0).withMemory memoryReturnDataCopy
        gasReturnDataCopy)
    |>.set REVERT
      { (localOp .ret 0 2 0).withMemory memoryRevert gasRevert with
        reverts := true, returns := true }

def newConstantinopleInstructionSet : JumpTable :=
  newByzantiumInstructionSet
    |>.set SHL (localOp opSHL gasFastestStep 2 1)
    |>.set SHR (localOp opSHR gasFastestStep 2 1)
    |>.set SAR (localOp opSAR gasFastestStep 2 1)
    |>.set EXTCODEHASH (localOp opExtCodeHash extcodeHashGasConstantinople 1 1)
    |>.set CREATE2
      { (operation .create2 create2Gas 4 1).withMemory memoryCreate2 gasCreate2 with
        writes := true, returns := true }

def enable1344 (jt : JumpTable) : JumpTable := jt.set CHAINID (localOp opChainID gasQuickStep 0 1)

def enable1884 (jt : JumpTable) : JumpTable :=
  jt |>.setConstantGas SLOAD sloadGasEIP1884
    |>.setConstantGas BALANCE balanceGasEIP1884
    |>.setConstantGas EXTCODEHASH extcodeHashGasEIP1884
    |>.set SELFBALANCE (localOp opSelfBalance gasFastStep 0 1)

def enable2200 (jt : JumpTable) : JumpTable :=
  jt |>.setConstantGas SLOAD sloadGasEIP2200
    |>.setDynamicGas SSTORE .sStoreEIP2200

def enable2315 (jt : JumpTable) : JumpTable :=
  jt |>.set BEGINSUB (localOp .beginSub gasQuickStep 0 0)
    |>.set JUMPSUB { localOp .jumpSub gasSlowStep 1 0 with jumps := true }
    |>.set RETURNSUB { localOp .returnSub gasFastStep 0 0 with jumps := true }

def enable2929 (jt : JumpTable) : JumpTable :=
  jt |>.setDynamicGas SSTORE .sStoreEIP2929
    |>.setConstantGas SLOAD 0
    |>.setDynamicGas SLOAD .sLoadEIP2929
    |>.setConstantGas EXTCODECOPY warmStorageReadCostEIP2929
    |>.setDynamicGas EXTCODECOPY .extCodeCopyEIP2929
    |>.setConstantGas EXTCODESIZE warmStorageReadCostEIP2929
    |>.setDynamicGas EXTCODESIZE .accountCheckEIP2929
    |>.setConstantGas EXTCODEHASH warmStorageReadCostEIP2929
    |>.setDynamicGas EXTCODEHASH .accountCheckEIP2929
    |>.setConstantGas BALANCE warmStorageReadCostEIP2929
    |>.setDynamicGas BALANCE .accountCheckEIP2929
    |>.setConstantGas CALL warmStorageReadCostEIP2929
    |>.setDynamicGas CALL (.callEIP2929 .call)
    |>.setConstantGas CALLCODE warmStorageReadCostEIP2929
    |>.setDynamicGas CALLCODE (.callEIP2929 .callCode)
    |>.setConstantGas STATICCALL warmStorageReadCostEIP2929
    |>.setDynamicGas STATICCALL (.callEIP2929 .staticCall)
    |>.setConstantGas DELEGATECALL warmStorageReadCostEIP2929
    |>.setDynamicGas DELEGATECALL (.callEIP2929 .delegateCall)
    |>.setConstantGas SELFDESTRUCT selfdestructGasEIP150
    |>.setDynamicGas SELFDESTRUCT .selfdestructEIP2929

def newIstanbulInstructionSet : JumpTable :=
  newConstantinopleInstructionSet |> enable1344 |> enable1884 |> enable2200

def newYoloV3InstructionSet : JumpTable := newIstanbulInstructionSet |> enable2315 |> enable2929

/-- The instruction set that `NewEVMInterpreter` chooses. -/
def instructionSet (rules : Rules) : JumpTable :=
  if rules.isYoloV3 then newYoloV3InstructionSet
  else if rules.isIstanbul then newIstanbulInstructionSet
  else if rules.isConstantinople then newConstantinopleInstructionSet
  else if rules.isByzantium then newByzantiumInstructionSet
  else if rules.isEIP158 then newSpuriousDragonInstructionSet
  else if rules.isEIP150 then newTangerineWhistleInstructionSet
  else if rules.isHomestead then newHomesteadInstructionSet
  else newFrontierInstructionSet

end Virbicoin.Vm
