import Virbicoin.Core.Vm.Machine

/-!
# Memory sizes and gas

`memory_table.go`, `gas.go`, `gas_table.go` and `operations_acl.go`. A gas function returns the cost
and the frame with what the calculation changes: the fee of the memory paid so far, the refund
counter, the access list, the gas reserved for a call, and in the EIP-2929 variants of the calls the
gas itself.
-/

namespace Virbicoin.Vm

open Lib State Params

/-! ## Memory sizes -/

def memoryRange (off len : Nat) (s : List Word) : Except Stop (Option Nat) := do
  let o ← back s off
  let l ← back s len
  .ok (calcMemSize64 o l)

/-- The size, `none` on an overflow. -/
def MemorySizeFunc.size : MemorySizeFunc → List Word → Except Stop (Option Nat)
  | .range off len, s => memoryRange off len s
  | .fixed length, s => do
    let o ← back s 0
    .ok (calcMemSize64WithUint o length)
  | .two xOff xLen yOff yLen, s => do
    match ← memoryRange xOff xLen s with
    | none => .ok none
    | some x =>
      match ← memoryRange yOff yLen s with
      | none => .ok none
      | some y => .ok (some (if x > y then x else y))

def memorySha3 : MemorySizeFunc := .range 0 1
def memoryCallDataCopy : MemorySizeFunc := .range 0 2
def memoryReturnDataCopy : MemorySizeFunc := .range 0 2
def memoryCodeCopy : MemorySizeFunc := .range 0 2
def memoryExtCodeCopy : MemorySizeFunc := .range 1 3
def memoryMLoad : MemorySizeFunc := .fixed 32
def memoryMStore8 : MemorySizeFunc := .fixed 1
def memoryMStore : MemorySizeFunc := .fixed 32
def memoryCreate : MemorySizeFunc := .range 1 2
def memoryCreate2 : MemorySizeFunc := .range 1 2
def memoryCall : MemorySizeFunc := .two 5 6 3 4
def memoryDelegateCall : MemorySizeFunc := .two 4 5 2 3
def memoryStaticCall : MemorySizeFunc := .two 4 5 2 3
def memoryReturn : MemorySizeFunc := .range 0 1
def memoryRevert : MemorySizeFunc := .range 0 1
def memoryLog : MemorySizeFunc := .range 0 1

/-! ## Memory fees -/

/-- `if overflow { return 0, ErrGasUintOverflow }` -/
def checked : Option Nat → Except Stop Nat
  | some x => .ok x
  | none => .error (.error .gasUintOverflow)

def memoryGasCost (mem : Memory) (newMemSize : Nat) : Except Stop (Nat × Memory) :=
  if newMemSize = 0 then .ok (0, mem)
  else if newMemSize > 0x1FFFFFFFE0 then .error (.error .gasUintOverflow)
  else
    let newMemSizeWords := toWordSize newMemSize
    let newMemSize := newMemSizeWords * 32
    if newMemSize > mem.store.length then
      let square := newMemSizeWords * newMemSizeWords
      let linCoef := newMemSizeWords * memoryGas
      let quadCoef := square / quadCoeffDiv
      let newTotalFee := linCoef + quadCoef
      .ok (subUint64 newTotalFee mem.lastGasCost, { mem with lastGasCost := newTotalFee })
    else .ok (0, mem)

def Machine.memoryGasCost (m : Machine) (memorySize : Nat) : Except Stop (Nat × Machine) := do
  let (gas, memory) ← Vm.memoryGasCost m.loc.memory memorySize
  .ok (gas, { m with loc := { m.loc with memory } })

/-- A gas function: the cost, and the frame with what the calculation changes. The last argument is
the memory size. -/
abbrev GasFn := Env → Machine → Nat → Except Stop (Nat × Machine)

def pureMemoryGascost : GasFn := fun _ m memorySize => m.memoryGasCost memorySize

def perWordGas (stackpos price : Nat) : GasFn := fun _ m memorySize => do
  let (gas, m) ← m.memoryGasCost memorySize
  let length ← back m.loc.stack stackpos
  failIf (!isUint64 length) (.error .gasUintOverflow)
  let words ← checked (safeMul (toWordSize (lowUint64 length)) price)
  let gas ← checked (safeAdd gas words)
  .ok (gas, m)

def makeGasLog (n : Nat) : GasFn := fun _ m memorySize => do
  let requestedSize ← back m.loc.stack 1
  failIf (!isUint64 requestedSize) (.error .gasUintOverflow)
  let (gas, m) ← m.memoryGasCost memorySize
  let gas ← checked (safeAdd gas logGas)
  let gas ← checked (safeAdd gas (n * logTopicGas))
  let memorySizeGas ← checked (safeMul (lowUint64 requestedSize) logDataGas)
  let gas ← checked (safeAdd gas memorySizeGas)
  .ok (gas, m)

/-- `gasExpFrontier` and `gasExpEIP158`, with the price of a byte. -/
def gasExp (expByte : Nat) : GasFn := fun _ m _ => do
  let exponent ← back m.loc.stack 1
  let bitLen := if exponent = 0 then 0 else exponent.toNat.log2 + 1
  let gas ← checked (safeAdd ((bitLen + 7) / 8 * expByte) expGas)
  .ok (gas, m)

/-! ## Stores -/

def Machine.addRefund (m : Machine) (gas : Nat) : Machine := m.setWorld (m.evm.world.addRefund gas)

def Machine.subRefund (m : Machine) (gas : Nat) : Except Stop Machine :=
  match m.evm.world.subRefund gas with
  | some world => .ok (m.setWorld world)
  | none => .error (.fault .refund)

structure NetPrices where
  noop : Nat
  init : Nat
  clean : Nat
  dirty : Nat
  clearRefund : Nat
  resetClearRefund : Nat
  resetRefund : Nat

/-- The scheme of EIP-1283 for a store of `value` at `slot`. The numbers are those of the clauses in
the comments of the source. -/
def netSstore (p : NetPrices) (m : Machine) (slot value : Word) : Except Stop (Nat × Machine) :=
  let current := m.evm.world.getState m.contract.self slot
  let original := m.evm.world.getCommittedState m.contract.self slot
  if current = value then .ok (p.noop, m) -- (1)
  else if original = current then
    if original = 0 then .ok (p.init, m) -- (2.1.1)
    else if value = 0 then .ok (p.clean, m.addRefund p.clearRefund) -- (2.1.2b)
    else .ok (p.clean, m) -- (2.1.2)
  else do
    let m ← (if original ≠ 0 then
        (if current = 0 then m.subRefund p.clearRefund -- (2.2.1.1)
        else if value = 0 then .ok (m.addRefund p.clearRefund) -- (2.2.1.2)
        else .ok m)
      else .ok m)
    let m := if original = value then
        (if original = 0 then m.addRefund p.resetClearRefund -- (2.2.2.1)
        else m.addRefund p.resetRefund) -- (2.2.2.2)
      else m
    .ok (p.dirty, m)

def pricesEIP1283 : NetPrices where
  noop := netSstoreNoopGas
  init := netSstoreInitGas
  clean := netSstoreCleanGas
  dirty := netSstoreDirtyGas
  clearRefund := netSstoreClearRefund
  resetClearRefund := netSstoreResetClearRefund
  resetRefund := netSstoreResetRefund

def pricesEIP2200 : NetPrices where
  noop := sloadGasEIP2200
  init := sstoreSetGasEIP2200
  clean := sstoreResetGasEIP2200
  dirty := sloadGasEIP2200
  clearRefund := sstoreClearsScheduleRefundEIP2200
  resetClearRefund := sstoreSetGasEIP2200 - sloadGasEIP2200
  resetRefund := sstoreResetGasEIP2200 - sloadGasEIP2200

def coldAccountAccessCostEIP2929 : Nat := 2600
def coldSloadCostEIP2929 : Nat := 2100
def warmStorageReadCostEIP2929 : Nat := 100

def pricesEIP2929 (cost : Nat) : NetPrices where
  noop := cost + warmStorageReadCostEIP2929
  init := cost + sstoreSetGasEIP2200
  clean := cost + (sstoreResetGasEIP2200 - coldSloadCostEIP2929)
  dirty := cost + warmStorageReadCostEIP2929
  clearRefund := sstoreClearsScheduleRefundEIP2200
  resetClearRefund := sstoreSetGasEIP2200 - warmStorageReadCostEIP2929
  resetRefund := sstoreResetGasEIP2200 - coldSloadCostEIP2929 - warmStorageReadCostEIP2929

def gasSStore : GasFn := fun env m _ => do
  let y ← back m.loc.stack 1
  let x ← back m.loc.stack 0
  (if env.rules.isPetersburg || !env.rules.isConstantinople then
    let current := m.evm.world.getState m.contract.self x
    if current = 0 ∧ y ≠ 0 then .ok (sstoreSetGas, m)
    else if current ≠ 0 ∧ y = 0 then .ok (sstoreClearGas, m.addRefund sstoreRefundGas)
    else .ok (sstoreResetGas, m)
  else netSstore pricesEIP1283 m x y)

def gasSStoreEIP2200 : GasFn := fun _ m _ => do
  failIf (m.contract.gas ≤ sstoreSentryGasEIP2200) (.error .outOfGas)
  let y ← back m.loc.stack 1
  let x ← back m.loc.stack 0
  netSstore pricesEIP2200 m x y

def gasSStoreEIP2929 : GasFn := fun _ m _ => do
  failIf (m.contract.gas ≤ sstoreSentryGasEIP2200) (.error .outOfGas)
  let y ← back m.loc.stack 1
  let x ← back m.loc.stack 0
  let (addrPresent, slotPresent) := m.evm.world.slotInAccessList m.contract.self x
  (if slotPresent then netSstore (pricesEIP2929 0) m x y
  else if addrPresent then
    netSstore (pricesEIP2929 coldSloadCostEIP2929)
      (m.setWorld (m.evm.world.addSlotToAccessList m.contract.self x)) x y
  else .error (.fault .accessList))

/-! ## Access list -/

def gasSLoadEIP2929 : GasFn := fun _ m _ => do
  let slot ← back m.loc.stack 0
  (if !(m.evm.world.slotInAccessList m.contract.self slot).2 then
    .ok (coldSloadCostEIP2929, m.setWorld (m.evm.world.addSlotToAccessList m.contract.self slot))
  else .ok (warmStorageReadCostEIP2929, m))

def gasExtCodeCopyEIP2929 : GasFn := fun env m memorySize => do
  let (gas, m) ← perWordGas 3 copyGas env m memorySize
  let addr := toAddress (← back m.loc.stack 0)
  (if !m.evm.world.addressInAccessList addr then do
    let m := m.setWorld (m.evm.world.addAddressToAccessList addr)
    let gas ← checked (safeAdd gas (coldAccountAccessCostEIP2929 - warmStorageReadCostEIP2929))
    .ok (gas, m)
  else .ok (gas, m))

def gasEip2929AccountCheck : GasFn := fun _ m _ => do
  let addr := toAddress (← back m.loc.stack 0)
  (if !m.evm.world.addressInAccessList addr then
    .ok (coldAccountAccessCostEIP2929 - warmStorageReadCostEIP2929,
      m.setWorld (m.evm.world.addAddressToAccessList addr))
  else .ok (0, m))

/-! ## Calls -/

def callGas (isEip150 : Bool) (availableGas base : Nat) (callCost : Word) : Except Stop Nat :=
  let availableGas := subUint64 availableGas base
  let gas := availableGas - availableGas / 64
  if isEip150 && (!isUint64 callCost || decide (gas < lowUint64 callCost)) then .ok gas
  else if !isUint64 callCost then .error (.error .gasUintOverflow)
  else .ok (lowUint64 callCost)

/-- The end of the gas functions of the calls: the gas to pass on is set apart and charged with the
rest of the cost. -/
def reserveCallGas (env : Env) (m : Machine) (gas : Nat) : Except Stop (Nat × Machine) := do
  let requested ← back m.loc.stack 0
  let callGasTemp ← callGas env.rules.isEIP150 m.contract.gas gas requested
  let gas ← checked (safeAdd gas callGasTemp)
  .ok (gas, { m with evm := { m.evm with callGasTemp } })

def gasCall : GasFn := fun env m memorySize => do
  let transfersValue := decide ((← back m.loc.stack 2) ≠ 0)
  let address := toAddress (← back m.loc.stack 1)
  let world := m.evm.world
  let gas :=
    if env.rules.isEIP158 then
      (if transfersValue && world.empty env.keccak address then callNewAccountGas else 0)
    else if !world.exist address then callNewAccountGas else 0
  let gas := if transfersValue then gas + callValueTransferGas else gas
  let (memoryGas, m) ← m.memoryGasCost memorySize
  let gas ← checked (safeAdd gas memoryGas)
  reserveCallGas env m gas

def gasCallCode : GasFn := fun env m memorySize => do
  let (memoryGas, m) ← m.memoryGasCost memorySize
  let value ← back m.loc.stack 2
  let gas := if value ≠ 0 then callValueTransferGas else 0
  let gas ← checked (safeAdd gas memoryGas)
  reserveCallGas env m gas

def gasDelegateCall : GasFn := fun env m memorySize => do
  let (gas, m) ← m.memoryGasCost memorySize
  reserveCallGas env m gas

def gasStaticCall : GasFn := fun env m memorySize => do
  let (gas, m) ← m.memoryGasCost memorySize
  reserveCallGas env m gas

def makeCallVariantGasCallEIP2929 (oldCalculator : GasFn) : GasFn := fun env m memorySize => do
  let addr := toAddress (← back m.loc.stack 1)
  let m ← (if !m.evm.world.addressInAccessList addr then do
      let m := m.setWorld (m.evm.world.addAddressToAccessList addr)
      let cold := coldAccountAccessCostEIP2929 - warmStorageReadCostEIP2929
      failIf (m.contract.gas < cold) (.error .outOfGas)
      .ok (m.useGas cold)
    else .ok m)
  oldCalculator env m memorySize

def CallKind.gas : CallKind → GasFn
  | .call => gasCall
  | .callCode => gasCallCode
  | .delegateCall => gasDelegateCall
  | .staticCall => gasStaticCall

/-! ## Self-destruct -/

/-- `if !evm.StateDB.HasSuicided(contract.Address()) { AddRefund }` -/
def Machine.refundSelfdestruct (m : Machine) : Machine :=
  if !m.evm.world.hasSuicided m.contract.self then m.addRefund selfdestructRefundGas else m

def gasSelfdestruct : GasFn := fun env m _ => do
  let address := toAddress (← back m.loc.stack 0)
  let world := m.evm.world
  let gas :=
    if env.rules.isEIP150 then
      selfdestructGasEIP150 +
        (if env.rules.isEIP158 then
          (if world.empty env.keccak address && decide (world.getBalance m.contract.self ≠ 0) then
            createBySelfdestructGas else 0)
        else if !world.exist address then createBySelfdestructGas else 0)
    else 0
  .ok (gas, m.refundSelfdestruct)

def gasSelfdestructEIP2929 : GasFn := fun env m _ => do
  let address := toAddress (← back m.loc.stack 0)
  let (gas, m) :=
    if !m.evm.world.addressInAccessList address then
      (coldAccountAccessCostEIP2929, m.setWorld (m.evm.world.addAddressToAccessList address))
    else (0, m)
  let world := m.evm.world
  let gas :=
    if world.empty env.keccak address && decide (world.getBalance m.contract.self ≠ 0) then
      gas + createBySelfdestructGas
    else gas
  .ok (gas, m.refundSelfdestruct)

/-! ## The column of the jump table -/

def GasFunc.gas : GasFunc → GasFn
  | .pureMemory => pureMemoryGascost
  | .perWord stackpos price => perWordGas stackpos price
  | .log n => makeGasLog n
  | .exp expByte => gasExp expByte
  | .sStore => gasSStore
  | .sStoreEIP2200 => gasSStoreEIP2200
  | .sStoreEIP2929 => gasSStoreEIP2929
  | .sLoadEIP2929 => gasSLoadEIP2929
  | .extCodeCopyEIP2929 => gasExtCodeCopyEIP2929
  | .accountCheckEIP2929 => gasEip2929AccountCheck
  | .call kind => kind.gas
  | .callEIP2929 kind => makeCallVariantGasCallEIP2929 kind.gas
  | .selfdestruct => gasSelfdestruct
  | .selfdestructEIP2929 => gasSelfdestructEIP2929

def memoryCopierGas (stackpos : Nat) : GasFunc := .perWord stackpos copyGas

def gasCallDataCopy : GasFunc := memoryCopierGas 2
def gasCodeCopy : GasFunc := memoryCopierGas 2
def gasExtCodeCopy : GasFunc := memoryCopierGas 3
def gasReturnDataCopy : GasFunc := memoryCopierGas 2
def gasSha3 : GasFunc := .perWord 1 sha3WordGas
def gasCreate2 : GasFunc := .perWord 2 sha3WordGas
def gasReturn : GasFunc := .pureMemory
def gasRevert : GasFunc := .pureMemory
def gasMLoad : GasFunc := .pureMemory
def gasMStore8 : GasFunc := .pureMemory
def gasMStore : GasFunc := .pureMemory
def gasCreate : GasFunc := .pureMemory
def gasExpFrontier : GasFunc := .exp expByteFrontier
def gasExpEIP158 : GasFunc := .exp expByteEIP158

end Virbicoin.Vm
