import Virbicoin.Core.Vm.Analysis
import Virbicoin.Core.Vm.Interpreter

/-!
# The columns of the instruction sets agree

The safety of an instruction is split over several columns of the jump table: how many items it
needs and leaves on the stack, which memory it touches, and how it is paid for. `Consistent` states
that the columns of an entry fit its `execute` column; that every entry of every instruction set is
consistent is decided by evaluation (`instructionSet_consistent`).
-/

namespace Virbicoin.Vm

open Lib State Params

/-! ## What an instruction needs -/

namespace LocalOp

def pops : LocalOp → Nat
  | .nullary _ => 0
  | .unary _ => 1
  | .binary _ => 2
  | .ternary _ => 3
  | .callDataLoad => 1
  | .callDataCopy => 3
  | .codeCopy => 3
  | .extCodeCopy => 4
  | .returnDataCopy => 3
  | .pop => 1
  | .mload => 1
  | .mstore => 2
  | .mstore8 => 2
  | .jump => 1
  | .jumpi => 2
  | .jumpdest => 0
  | .beginSub => 0
  | .jumpSub => 1
  | .returnSub => 0
  | .push1 => 0
  | .push _ => 0
  | .dup size => size
  | .swap size => size + 1
  | .ret => 2
  | .stop => 0

def pushes : LocalOp → Nat
  | .nullary _ => 1
  | .unary _ => 1
  | .binary _ => 1
  | .ternary _ => 1
  | .callDataLoad => 1
  | .mload => 1
  | .push1 => 1
  | .push _ => 1
  | .dup size => size + 1
  | .swap size => size + 1
  | _ => 0

def memory : LocalOp → Option MemorySizeFunc
  | .callDataCopy => some (.range 0 2)
  | .codeCopy => some (.range 0 2)
  | .extCodeCopy => some (.range 1 3)
  | .returnDataCopy => some (.range 0 2)
  | .mload => some (.fixed 32)
  | .mstore => some (.fixed 32)
  | .mstore8 => some (.fixed 1)
  | .ret => some (.range 0 1)
  | _ => none

def width : LocalOp → Nat
  | .push1 => 1
  | .push size => size
  | _ => 0

def jumps : LocalOp → Bool
  | .jump => true
  | .jumpi => true
  | .jumpSub => true
  | .returnSub => true
  | _ => false

end LocalOp

namespace Execute

def pops : Execute → Nat
  | .loc op => op.pops
  | .sha3 => 2
  | .sstore => 2
  | .log size => size + 2
  | .suicide => 1
  | .create => 3
  | .create2 => 4
  | .call kind => if kind.hasValue then 7 else 6

def pushes : Execute → Nat
  | .loc op => op.pushes
  | .sha3 => 1
  | .sstore => 0
  | .log _ => 0
  | .suicide => 0
  | .create => 1
  | .create2 => 1
  | .call _ => 1

def memory : Execute → Option MemorySizeFunc
  | .loc op => op.memory
  | .sha3 => some (.range 0 1)
  | .sstore => none
  | .log _ => some (.range 0 1)
  | .suicide => none
  | .create => some (.range 1 2)
  | .create2 => some (.range 1 2)
  | .call kind => some (if kind.hasValue then .two 5 6 3 4 else .two 4 5 2 3)

def width : Execute → Nat
  | .loc op => op.width
  | _ => 0

def jumps : Execute → Bool
  | .loc op => op.jumps
  | _ => false

end Execute

/-! ## What a gas function does -/

namespace GasFunc

def reads : GasFunc → Nat
  | .pureMemory => 0
  | .perWord stackpos _ => stackpos + 1
  | .log _ => 2
  | .exp _ => 2
  | .sStore => 2
  | .sStoreEIP2200 => 2
  | .sStoreEIP2929 => 2
  | .sLoadEIP2929 => 1
  | .extCodeCopyEIP2929 => 4
  | .accountCheckEIP2929 => 1
  | .call _ => 3
  | .callEIP2929 _ => 3
  | .selfdestruct => 1
  | .selfdestructEIP2929 => 1

def chargesMemory : GasFunc → Bool
  | .pureMemory => true
  | .perWord _ _ => true
  | .log _ => true
  | .extCodeCopyEIP2929 => true
  | .call _ => true
  | .callEIP2929 _ => true
  | _ => false

def positive : GasFunc → Bool
  | .log _ => true
  | .exp _ => true
  | .sStore => true
  | .sStoreEIP2200 => true
  | .sStoreEIP2929 => true
  | .sLoadEIP2929 => true
  | _ => false

/-- Whether the refund counter is left alone and no gas is set apart for a call. -/
def quiet : GasFunc → Bool
  | .sStore => false
  | .sStoreEIP2200 => false
  | .sStoreEIP2929 => false
  | .call _ => false
  | .callEIP2929 _ => false
  | .selfdestruct => false
  | .selfdestructEIP2929 => false
  | _ => true

def ofStore : GasFunc → Bool
  | .sStore => true
  | .sStoreEIP2200 => true
  | .sStoreEIP2929 => true
  | _ => false

def ofSelfdestruct : GasFunc → Bool
  | .selfdestruct => true
  | .selfdestructEIP2929 => true
  | _ => false

end GasFunc

/-! ## Consistency -/

/-- The flags and the gas function of an entry fit its instruction. -/
def Execute.fits (op : OpCode) (o : Operation) : Execute → Bool
  | .loc (.dup size) => decide (0 < size) && o.dynamicGas.isNone
  | .loc (.push _) => decide (op ≠ 0) && o.dynamicGas.isNone
  | .loc _ => o.dynamicGas.all GasFunc.quiet
  | .sha3 => o.dynamicGas.all GasFunc.quiet
  | .sstore => o.writes && o.dynamicGas.any GasFunc.ofStore && !o.halts && !o.reverts
  | .log _ => o.writes && o.dynamicGas.all GasFunc.quiet
  | .suicide => o.writes && o.halts && o.dynamicGas.any GasFunc.ofSelfdestruct
  | .create => o.writes && o.dynamicGas.all GasFunc.quiet && !o.halts && !o.reverts
  | .create2 => o.writes && o.dynamicGas.all GasFunc.quiet && !o.halts && !o.reverts
  | .call kind =>
    (o.dynamicGas == some (.call kind) || o.dynamicGas == some (.callEIP2929 kind)) &&
      (kind != .call || op == OpCode.CALL) && decide (0 < o.constantGas) &&
      o.returns && !o.halts && !o.reverts

structure Consistent (op : OpCode) (o : Operation) : Prop where
  minStack : o.minStack = o.execute.pops
  maxStack : o.maxStack + o.execute.pushes = stackLimit + o.execute.pops
  memory : o.memorySize = o.execute.memory
  charged : (o.memorySize.isNone || o.dynamicGas.any GasFunc.chargesMemory) = true
  reads : (o.dynamicGas.all fun f => decide (f.reads ≤ o.minStack)) = true
  priced : (o.halts || o.reverts || decide (0 < o.constantGas) ||
    o.dynamicGas.any GasFunc.positive) = true
  fits : o.execute.fits op o = true
  /-- The write protection looks at the value of a `CALL`. -/
  peeks : op = OpCode.CALL → 2 < o.minStack
  width : pushSize op = o.execute.width
  jumps : o.jumps = o.execute.jumps
  stop : op = 0 → o.halts = true

instance (op : OpCode) (o : Operation) : Decidable (Consistent op o) :=
  decidable_of_iff
    (o.minStack = o.execute.pops ∧ o.maxStack + o.execute.pushes = stackLimit + o.execute.pops ∧
      o.memorySize = o.execute.memory ∧
      (o.memorySize.isNone || o.dynamicGas.any GasFunc.chargesMemory) = true ∧
      (o.dynamicGas.all fun f => decide (f.reads ≤ o.minStack)) = true ∧
      (o.halts || o.reverts || decide (0 < o.constantGas) ||
        o.dynamicGas.any GasFunc.positive) = true ∧ o.execute.fits op o = true ∧
      (op = OpCode.CALL → 2 < o.minStack) ∧ pushSize op = o.execute.width ∧
      o.jumps = o.execute.jumps ∧ (op = 0 → o.halts = true))
    ⟨fun ⟨h₁, h₂, h₃, h₄, h₅, h₆, h₇, h₈, h₉, h₁₀, h₁₁⟩ =>
        ⟨h₁, h₂, h₃, h₄, h₅, h₆, h₇, h₈, h₉, h₁₀, h₁₁⟩,
      fun ⟨h₁, h₂, h₃, h₄, h₅, h₆, h₇, h₈, h₉, h₁₀, h₁₁⟩ =>
        ⟨h₁, h₂, h₃, h₄, h₅, h₆, h₇, h₈, h₉, h₁₀, h₁₁⟩⟩

theorem Consistent.eq_sstore {op : OpCode} {o : Operation} (h : Consistent op o)
    (hstore : o.dynamicGas.any GasFunc.ofStore = true) : o.execute = .sstore := by
  have hfits := h.fits
  cases hdyn : o.dynamicGas with
  | none =>
    rw [hdyn] at hstore
    cases hstore
  | some f =>
    rw [hdyn] at hstore
    have hquiet : f.quiet = false ∧ f.ofSelfdestruct = false := by
      cases f <;> first | exact ⟨rfl, rfl⟩ | cases hstore
    have hcall : ∀ kind, f ≠ .call kind ∧ f ≠ .callEIP2929 kind := by
      refine fun kind => ⟨?_, ?_⟩ <;> rintro rfl <;> cases hstore
    cases hx : o.execute with
    | sstore => rfl
    | loc op => cases op <;> simp [hx, Execute.fits, hdyn, hquiet] at hfits
    | _ => simp [hx, Execute.fits, hdyn, hquiet, hcall] at hfits

def JumpTable.AllConsistent (jt : JumpTable) : Prop := ∀ e ∈ jt, Consistent e.1 e.2

instance (jt : JumpTable) : Decidable jt.AllConsistent :=
  inferInstanceAs (Decidable (∀ e ∈ jt, Consistent e.1 e.2))

theorem instructionSet_consistent (rules : Rules) : (instructionSet rules).AllConsistent := by
  unfold instructionSet
  split
  · exact (by decide +kernel : newYoloV3InstructionSet.AllConsistent)
  split
  · exact (by decide +kernel : newIstanbulInstructionSet.AllConsistent)
  split
  · exact (by decide +kernel : newConstantinopleInstructionSet.AllConsistent)
  split
  · exact (by decide +kernel : newByzantiumInstructionSet.AllConsistent)
  split
  · exact (by decide +kernel : newSpuriousDragonInstructionSet.AllConsistent)
  split
  · exact (by decide +kernel : newTangerineWhistleInstructionSet.AllConsistent)
  split
  · exact (by decide +kernel : newHomesteadInstructionSet.AllConsistent)
  · exact (by decide +kernel : newFrontierInstructionSet.AllConsistent)

end Virbicoin.Vm
