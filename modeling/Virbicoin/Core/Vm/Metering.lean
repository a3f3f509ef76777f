import Virbicoin.Core.Vm.Table
import Virbicoin.Lib.Ensures

/-!
# What the gas functions do

A gas function fails with an error of the virtual machine, except for the two panics of the store
functions, and leaves most of the machine alone: it may change the memory fee paid so far, the gas,
the gas set apart for a call, the refund counter and the access list (`Adjusted`). `Metered`
collects what the proofs about the interpreter need to know of the price and of these changes, for
every function of the gas column at once (`GasFunc.gas_metered`).
-/

namespace Virbicoin.Vm

open Lib State Params

/-! ## Errors -/

def Stop.Regular (s : Stop) : Prop := ∃ e, s = .error e

theorem Stop.regular {e : VmError} : (Stop.error e).Regular := ⟨e, rfl⟩

def Stop.Metering (s : Stop) : Prop := s.Regular ∨ s = .fault .refund ∨ s = .fault .accessList

theorem back_ensures {s : List Word} {n : Nat} (h : n < s.length) :
    Ensures Stop.Regular (fun x => s[n]? = some x) (back s n) := by
  unfold back
  rw [List.getElem?_eq_getElem h]
  exact .ok rfl

theorem checked_ensures (x : Option Nat) :
    Ensures Stop.Regular (fun n => x = some n) (checked x) := by
  cases x with
  | none => exact Ensures.error Stop.regular
  | some n => exact .ok rfl

theorem safeAdd_ensures {x y : Nat} :
    Ensures Stop.Regular (fun n => n = x + y) (checked (safeAdd x y)) := by
  refine (checked_ensures _).imp fun n hn => ?_
  unfold safeAdd at hn
  split at hn
  · cases hn
    rfl
  · cases hn

/-! ## Changes -/

def Machine.adjust (m : Machine) (lastGasCost gas callGasTemp refund : Nat) (al : AccessList) :
    Machine :=
  { m with
    loc := { m.loc with memory := { m.loc.memory with lastGasCost } }
    contract := { m.contract with gas }
    evm := { m.evm with
      callGasTemp, world := { m.evm.world with refund, accessList := al } } }

def Adjusted (m m' : Machine) : Prop :=
  ∃ lastGasCost gas callGasTemp refund al, m' = m.adjust lastGasCost gas callGasTemp refund al

theorem Adjusted.trans {m1 m2 m3 : Machine} (h : Adjusted m1 m2) (h' : Adjusted m2 m3) :
    Adjusted m1 m3 := by
  obtain ⟨_, _, _, _, _, rfl⟩ := h
  obtain ⟨l, g, c, r, al, rfl⟩ := h'
  exact ⟨l, g, c, r, al, rfl⟩

def Quiet (m m' : Machine) : Prop :=
  ∃ lastGasCost al,
    m' = m.adjust lastGasCost m.contract.gas m.evm.callGasTemp m.evm.world.refund al

namespace Quiet

variable {m m1 m2 : Machine}

theorem refl (m : Machine) : Quiet m m := ⟨m.loc.memory.lastGasCost, m.evm.world.accessList, rfl⟩

theorem trans {m3 : Machine} (h : Quiet m1 m2) (h' : Quiet m2 m3) : Quiet m1 m3 := by
  obtain ⟨_, _, rfl⟩ := h
  obtain ⟨l, al, rfl⟩ := h'
  exact ⟨l, al, rfl⟩

theorem addAddress (addr : Address) :
    Quiet m (m.setWorld (m.evm.world.addAddressToAccessList addr)) :=
  ⟨m.loc.memory.lastGasCost, _, rfl⟩

theorem addSlot (addr : Address) (slot : Hash) :
    Quiet m (m.setWorld (m.evm.world.addSlotToAccessList addr slot)) :=
  ⟨m.loc.memory.lastGasCost, _, rfl⟩

theorem adjusted (h : Quiet m1 m2) : Adjusted m1 m2 := by
  obtain ⟨l, al, rfl⟩ := h
  exact ⟨l, _, _, _, al, rfl⟩

theorem stack (h : Quiet m1 m2) : m2.loc.stack = m1.loc.stack := by
  obtain ⟨_, _, rfl⟩ := h
  rfl

theorem gas (h : Quiet m1 m2) : m2.contract.gas = m1.contract.gas := by
  obtain ⟨_, _, rfl⟩ := h
  rfl

end Quiet

/-- A `Quiet` change that leaves the memory alone, but may change the refund counter. -/
def Refunded (m m' : Machine) : Prop :=
  ∃ refund al,
    m' = m.adjust m.loc.memory.lastGasCost m.contract.gas m.evm.callGasTemp refund al

namespace Refunded

variable {m m1 m2 : Machine}

theorem refl (m : Machine) : Refunded m m := ⟨m.evm.world.refund, m.evm.world.accessList, rfl⟩

theorem trans {m3 : Machine} (h : Refunded m1 m2) (h' : Refunded m2 m3) : Refunded m1 m3 := by
  obtain ⟨_, _, rfl⟩ := h
  obtain ⟨r, al, rfl⟩ := h'
  exact ⟨r, al, rfl⟩

theorem addRefund (m : Machine) (gas : Nat) : Refunded m (m.addRefund gas) :=
  ⟨_, m.evm.world.accessList, rfl⟩

end Refunded

def maxMemory : Nat := 0x1FFFFFFFE0

def PaidMemory (size cost : Nat) (mem mem' : Memory) : Prop :=
  ∃ fee ≤ cost, memoryGasCost mem size = .ok (fee, mem')

theorem PaidMemory.mono {size cost cost' : Nat} {mem mem' : Memory}
    (h : PaidMemory size cost mem mem') (hle : cost ≤ cost') : PaidMemory size cost' mem mem' := by
  obtain ⟨fee, hfee, hok⟩ := h
  exact ⟨fee, hfee.trans hle, hok⟩

theorem PaidMemory.size_le {size cost : Nat} {mem mem' : Memory}
    (h : PaidMemory size cost mem mem') : size ≤ maxMemory := by
  obtain ⟨fee, -, hok⟩ := h
  unfold memoryGasCost at hok
  split at hok
  · omega
  split at hok
  · cases hok
  · exact Nat.le_of_not_lt ‹_›

/-- What a gas function does for a memory of this size. A call sets the gas that it passes on apart,
as a part of the price. -/
structure Metered (f : GasFunc) (m : Machine) (size cost : Nat) (m' : Machine) : Prop where
  adjusted : Adjusted m m'
  gas_le : m'.contract.gas ≤ m.contract.gas
  memory : cond f.chargesMemory (PaidMemory size cost m.loc.memory m'.loc.memory)
    (m'.loc.memory = m.loc.memory)
  pos : f.positive = true → 0 < cost
  quiet : f.quiet = true → Quiet m m'
  call : ∀ kind, f = .call kind ∨ f = .callEIP2929 kind →
    m'.evm.world.refund = m.evm.world.refund ∧
    ∃ base, cost = base + m'.evm.callGasTemp ∧
      (kind.hasValue = true → ∀ value, m.loc.stack[2]? = some value → value ≠ 0 →
        callValueTransferGas ≤ base)

/-- A gas function fails with an error of the virtual machine at most. -/
def Priced (f : GasFunc) (m : Machine) (size : Nat) (x : Except Stop (Nat × Machine)) : Prop :=
  Ensures Stop.Regular (fun r => Metered f m size r.1 r.2) x

namespace Metered

variable {f : GasFunc} {m m' : Machine} {size cost : Nat}

theorem of_quiet (h : Quiet m m') (hf : f.quiet = true)
    (hmem : cond f.chargesMemory (PaidMemory size cost m.loc.memory m'.loc.memory)
      (m'.loc.memory = m.loc.memory)) (hpos : f.positive = true → 0 < cost) :
    Metered f m size cost m' where
  adjusted := h.adjusted
  gas_le := h.gas.le
  memory := hmem
  pos := hpos
  quiet := fun _ => h
  call := by rintro kind (rfl | rfl) <;> cases hf

end Metered

/-! ## Memory -/

theorem memoryGasCost_ensures (m : Machine) (size : Nat) : Ensures Stop.Regular
      (fun r => Quiet m r.2 ∧ PaidMemory size r.1 m.loc.memory r.2.loc.memory)
      (m.memoryGasCost size) := by
  have h : Ensures Stop.Regular (fun r : Nat × Memory => r.2.store = m.loc.memory.store ∧
        memoryGasCost m.loc.memory size = .ok r)
      (memoryGasCost m.loc.memory size) := by
    refine .and ?_ (.of_cases (fun _ => id) fun e he => ?_) <;>
      unfold memoryGasCost at *
    · refine .ite (fun h => .ok rfl) fun _ => ?_
      refine Ensures.ite (fun _ => Ensures.error Stop.regular) fun hsize => ?_
      exact .ite (fun _ => .ok rfl) fun _ => .ok rfl
    split at he
    · cases he
    split at he
    · cases he
      exact Stop.regular
    · dsimp only at he
      split at he <;> cases he
  refine h.bind ?_
  rintro ⟨gas, memory⟩ ⟨hstore, hok⟩
  refine .ok ⟨⟨memory.lastGasCost, m.evm.world.accessList, ?_⟩, gas, le_rfl, hok⟩
  cases memory
  subst hstore
  rfl

section Functions

variable (env : Env) {m : Machine} {size : Nat}

theorem perWordGas_ensures {stackpos price : Nat} (hs : stackpos < m.loc.stack.length) :
    Ensures Stop.Regular (fun r => Quiet m r.2 ∧ PaidMemory size r.1 m.loc.memory r.2.loc.memory)
      (perWordGas stackpos price env m size) := by
  refine (memoryGasCost_ensures m size).bind ?_
  rintro ⟨gas, m1⟩ h
  have hstack : m1.loc.stack = m.loc.stack := h.1.stack
  refine (back_ensures (by rw [hstack]; exact hs)).bind fun length _ => ?_
  refine Ensures.failIf_bind (fun _ => Stop.regular) fun _ => ?_
  refine (checked_ensures _).bind fun words _ => ?_
  refine safeAdd_ensures.bind fun gas' hgas => ?_
  exact .ok ⟨h.1, h.2.mono (by omega)⟩

theorem makeGasLog_metered {n : Nat} (hs : 1 < m.loc.stack.length) :
    Priced (.log n) m size (makeGasLog n env m size) := by
  refine (back_ensures hs).bind fun requestedSize _ => ?_
  refine Ensures.failIf_bind (fun _ => Stop.regular) fun _ => ?_
  refine (memoryGasCost_ensures m size).bind ?_
  rintro ⟨gas, m1⟩ ⟨hquiet, hpaid⟩
  refine safeAdd_ensures.bind fun gas1 h1 => ?_
  refine safeAdd_ensures.bind fun gas2 h2 => ?_
  refine (checked_ensures _).bind fun memorySizeGas _ => ?_
  refine safeAdd_ensures.bind fun gas3 h3 => ?_
  refine .ok (.of_quiet hquiet rfl (hpaid.mono (by omega)) fun _ => ?_)
  unfold logGas at h1
  omega

theorem gasExp_metered {expByte : Nat} (hs : 1 < m.loc.stack.length) :
    Priced (.exp expByte) m size (gasExp expByte env m size) := by
  refine (back_ensures hs).bind fun exponent _ => ?_
  refine safeAdd_ensures.bind fun gas h => ?_
  refine .ok (.of_quiet (.refl m) rfl rfl fun _ => ?_)
  unfold expGas at h
  omega

/-! ## Access list -/

theorem gasSLoadEIP2929_metered (hs : 0 < m.loc.stack.length) :
    Priced .sLoadEIP2929 m size (gasSLoadEIP2929 env m size) := by
  refine (back_ensures hs).bind fun slot _ => ?_
  refine .ite (fun _ => .ok ?_) fun _ => .ok ?_
  · exact .of_quiet (.addSlot _ _) rfl rfl fun _ => (by decide : 0 < coldSloadCostEIP2929)
  exact .of_quiet (.refl m) rfl rfl fun _ =>
    (by decide : 0 < warmStorageReadCostEIP2929)

theorem gasExtCodeCopyEIP2929_metered (hs : 3 < m.loc.stack.length) :
    Priced .extCodeCopyEIP2929 m size (gasExtCodeCopyEIP2929 env m size) := by
  unfold gasExtCodeCopyEIP2929
  generalize coldAccountAccessCostEIP2929 - warmStorageReadCostEIP2929 = cold
  refine (perWordGas_ensures env hs).bind ?_
  rintro ⟨gas, m1⟩ ⟨hquiet, hpaid⟩
  have hstack : m1.loc.stack = m.loc.stack := hquiet.stack
  refine (back_ensures (by rw [hstack]; omega)).bind fun a _ => ?_
  refine .ite (fun _ => ?_) fun _ => .ok ?_
  · refine safeAdd_ensures.bind fun gas' hgas => .ok ?_
    exact .of_quiet (hquiet.trans (.addAddress _)) rfl (hpaid.mono (by omega)) nofun
  · exact .of_quiet hquiet rfl hpaid nofun

theorem gasEip2929AccountCheck_metered (hs : 0 < m.loc.stack.length) :
    Priced .accountCheckEIP2929 m size (gasEip2929AccountCheck env m size) := by
  refine (back_ensures hs).bind fun a _ => ?_
  refine .ite (fun _ => .ok ?_) fun _ => .ok ?_
  · exact .of_quiet (.addAddress _) rfl rfl nofun
  · exact .of_quiet (.refl m) rfl rfl nofun

/-! ## Calls -/

theorem reserveCallGas_metered {kind : CallKind} {m1 : Machine} {base : Nat} (hquiet : Quiet m m1)
    (hpaid : PaidMemory size base m.loc.memory m1.loc.memory) (hs : 0 < m.loc.stack.length)
    (hvalue : kind.hasValue = true → ∀ value, m.loc.stack[2]? = some value → value ≠ 0 →
      callValueTransferGas ≤ base) :
    Priced (.call kind) m size (reserveCallGas env m1 base) := by
  refine (back_ensures (by rw [hquiet.stack]; exact hs)).bind fun requested _ => ?_
  refine .bind (Q := fun _ => True) ?_ fun callGasTemp _ => ?_
  · refine .ite (fun _ => .ok trivial) fun _ => ?_
    exact .ite (fun _ => .error Stop.regular) fun _ => .ok trivial
  refine safeAdd_ensures.bind fun gas hgas => .ok ?_
  obtain ⟨l, al, rfl⟩ := hquiet
  exact {
    adjusted := ⟨l, _, callGasTemp, _, al, rfl⟩
    gas_le := le_rfl
    memory := hpaid.mono (by omega)
    pos := nofun
    quiet := nofun
    call := by
      rintro kind' (h | h) <;> cases h
      exact ⟨rfl, base, hgas, hvalue⟩ }

theorem gasCall_metered (hs : 2 < m.loc.stack.length) :
    Priced (.call .call) m size (gasCall env m size) := by
  refine (back_ensures hs).bind fun value hvalue => ?_
  refine (back_ensures (by omega)).bind fun address _ => ?_
  refine (memoryGasCost_ensures m size).bind ?_
  rintro ⟨memoryGas, m1⟩ ⟨hquiet, hpaid⟩
  refine safeAdd_ensures.bind fun gas hgas => ?_
  refine reserveCallGas_metered env hquiet (hpaid.mono (by omega)) (by omega) fun _ v hv hne => ?_
  rw [hvalue] at hv
  cases hv
  rw [hgas, if_pos (decide_eq_true hne)]
  omega

theorem gasCallCode_metered (hs : 2 < m.loc.stack.length) :
    Priced (.call .callCode) m size (gasCallCode env m size) := by
  refine (memoryGasCost_ensures m size).bind ?_
  rintro ⟨memoryGas, m1⟩ ⟨hquiet, hpaid⟩
  have hstack : m1.loc.stack = m.loc.stack := hquiet.stack
  refine (back_ensures (by rw [hstack]; exact hs)).bind fun value hvalue => ?_
  refine safeAdd_ensures.bind fun gas hgas => ?_
  refine reserveCallGas_metered env hquiet (hpaid.mono (by omega)) (by omega) fun _ v hv hne => ?_
  rw [hstack, hv] at hvalue
  cases hvalue
  rw [hgas, if_pos hne]
  omega

theorem memoryOnly_metered {kind : CallKind} (hkind : kind.hasValue = false)
    (hs : 0 < m.loc.stack.length) :
    Priced (.call kind) m size (m.memoryGasCost size >>= fun r => reserveCallGas env r.2 r.1) := by
  refine (memoryGasCost_ensures m size).bind fun r h => ?_
  refine reserveCallGas_metered env h.1 h.2 hs fun hvalue => ?_
  rw [hkind] at hvalue
  cases hvalue

theorem callKind_gas_metered (kind : CallKind) (hs : 2 < m.loc.stack.length) :
    Priced (.call kind) m size (kind.gas env m size) := by
  cases kind with
  | call => exact gasCall_metered env hs
  | callCode => exact gasCallCode_metered env hs
  | delegateCall | staticCall => exact memoryOnly_metered env rfl (by omega)

theorem makeCallVariantGasCallEIP2929_metered (kind : CallKind) (hs : 2 < m.loc.stack.length) :
    Priced (.callEIP2929 kind) m size (makeCallVariantGasCallEIP2929 kind.gas env m size) := by
  -- what the access of the account changes
  let Accessed (m1 : Machine) : Prop :=
    Adjusted m m1 ∧ m1.contract.gas ≤ m.contract.gas ∧ m1.loc = m.loc ∧
      m1.evm.world.refund = m.evm.world.refund
  unfold makeCallVariantGasCallEIP2929
  generalize coldAccountAccessCostEIP2929 - warmStorageReadCostEIP2929 = cold
  refine (back_ensures (by omega)).bind fun a _ => ?_
  refine .bind (Q := Accessed) (.ite (fun _ => ?_) fun _ => .ok ?_) ?_
  · exact Ensures.failIf_bind (fun _ => Stop.regular) fun _ =>
      Ensures.ok ⟨⟨_, _, _, _, _, rfl⟩, Nat.sub_le _ _, rfl, rfl⟩
  · exact ⟨(Quiet.refl m).adjusted, le_rfl, rfl, rfl⟩
  rintro m1 ⟨hadj, hgas, hloc, hrefund⟩
  refine (callKind_gas_metered env kind (by rw [hloc]; exact hs)).imp fun r h => ?_
  obtain ⟨hr, base, hcost, hbase⟩ := h.call kind (.inl rfl)
  exact {
    adjusted := hadj.trans h.adjusted
    gas_le := h.gas_le.trans hgas
    memory := by
      have := h.memory
      rwa [hloc] at this
    pos := nofun
    quiet := nofun
    call := by
      rintro kind' (hkind | hkind) <;> cases hkind
      refine ⟨hr.trans hrefund, base, hcost, fun hv v hstack' => ?_⟩
      exact hbase hv v (by rw [hloc]; exact hstack') }

/-! ## Self-destruct -/

theorem Metered.of_refunded {f : GasFunc} {cost : Nat} {m' : Machine} (h : Refunded m m')
    (hmem : f.chargesMemory = false) (hquiet : f.quiet = false)
    (hcall : ∀ kind, f ≠ .call kind ∧ f ≠ .callEIP2929 kind)
    (hpos : f.positive = true → 0 < cost) : Metered f m size cost m' where
  adjusted := by
    obtain ⟨_, _, rfl⟩ := h
    exact ⟨_, _, _, _, _, rfl⟩
  gas_le := by
    obtain ⟨_, _, rfl⟩ := h
    exact le_rfl
  memory := by
    obtain ⟨_, _, rfl⟩ := h
    rw [hmem]
    rfl
  pos := hpos
  quiet := by
    rw [hquiet]
    nofun
  call := by
    rintro kind (h | h)
    · exact absurd h (hcall kind).1
    · exact absurd h (hcall kind).2

theorem refundSelfdestruct_refunded : Refunded m m.refundSelfdestruct := by
  unfold Machine.refundSelfdestruct
  split
  · exact .addRefund m _
  · exact .refl m

theorem gasSelfdestruct_metered (hs : 0 < m.loc.stack.length) :
    Priced .selfdestruct m size (gasSelfdestruct env m size) := by
  refine (back_ensures hs).bind fun a _ => .ok ?_
  exact .of_refunded refundSelfdestruct_refunded rfl rfl (fun _ => ⟨nofun, nofun⟩) nofun

theorem gasSelfdestructEIP2929_metered (hs : 0 < m.loc.stack.length) :
    Priced .selfdestructEIP2929 m size (gasSelfdestructEIP2929 env m size) := by
  refine (back_ensures hs).bind fun a _ => ?_
  -- the machine after the access of the beneficiary
  obtain ⟨⟨cost, m1⟩, hm1⟩ : ∃ p, p = if !m.evm.world.addressInAccessList (toAddress a) then
      (coldAccountAccessCostEIP2929, m.setWorld (m.evm.world.addAddressToAccessList (toAddress a)))
    else (0, m) := ⟨_, rfl⟩
  have haccess : Refunded m m1 := by
    split at hm1 <;> cases hm1
    · exact ⟨m.evm.world.refund, _, rfl⟩
    · exact .refl m
  dsimp only
  rw [← hm1]
  exact .ok (.of_refunded (haccess.trans refundSelfdestruct_refunded) rfl rfl
    (fun _ => ⟨nofun, nofun⟩) nofun)

/-! ## Stores -/

theorem Stop.Regular.metering {s : Stop} (h : s.Regular) : s.Metering := .inl h

def StoreMetered (m : Machine) (r : Nat × Machine) : Prop := Refunded m r.2 ∧ 0 < r.1

theorem subRefund_ensures (gas : Nat) : Ensures Stop.Metering (Refunded m) (m.subRefund gas) := by
  unfold Machine.subRefund World.subRefund
  by_cases h : gas > m.evm.world.refund
  · rw [if_pos h]
    exact .error (.inr (.inl rfl))
  rw [if_neg h]
  exact .ok ⟨_, m.evm.world.accessList, rfl⟩

def NetPrices.Positive (p : NetPrices) : Prop :=
  0 < p.noop ∧ 0 < p.init ∧ 0 < p.clean ∧ 0 < p.dirty

instance (p : NetPrices) : Decidable p.Positive :=
  inferInstanceAs (Decidable (0 < p.noop ∧ 0 < p.init ∧ 0 < p.clean ∧ 0 < p.dirty))

theorem netSstore_ensures {p : NetPrices} (hp : p.Positive) (slot value : Word) :
    Ensures Stop.Metering (StoreMetered m) (netSstore p m slot value) := by
  obtain ⟨hnoop, hinit, hclean, hdirty⟩ := hp
  have hrefl : Refunded m m := .refl m
  have hadd : ∀ gas, Refunded m (m.addRefund gas) := .addRefund m
  refine .ite (fun _ => .ok ⟨hrefl, hnoop⟩) fun _ => ?_
  refine .ite (fun _ => ?_) fun _ => ?_
  · refine .ite (fun _ => .ok ⟨hrefl, hinit⟩) fun _ => ?_
    exact .ite (fun _ => .ok ⟨hadd _, hclean⟩) fun _ => .ok ⟨hrefl, hclean⟩
  refine .bind (Q := Refunded m) ?_ fun m1 h => .ok ⟨?_, hdirty⟩
  · refine .ite (fun _ => ?_) fun _ => .ok hrefl
    refine .ite (fun _ => subRefund_ensures _) fun _ => ?_
    exact .ite (fun _ => .ok (hadd _)) fun _ => .ok hrefl
  split
  · split
    · exact h.trans (.addRefund m1 _)
    · exact h.trans (.addRefund m1 _)
  · exact h

variable (size) in
theorem gasSStore_ensures (hs : 1 < m.loc.stack.length) :
    Ensures Stop.Metering (StoreMetered m) (gasSStore env m size) := by
  have hrefl : Refunded m m := .refl m
  refine ((back_ensures hs).weaken fun _ => .inl).bind fun y _ => ?_
  refine ((back_ensures (by omega)).weaken fun _ => .inl).bind fun x _ => ?_
  refine .ite (fun _ => ?_) fun _ => netSstore_ensures (by decide) _ _
  have hset : 0 < sstoreSetGas := by decide
  have hclear : 0 < sstoreClearGas := by decide
  have hreset : 0 < sstoreResetGas := by decide
  refine .ite (fun _ => .ok ⟨hrefl, hset⟩) fun _ => ?_
  exact .ite (fun _ => .ok ⟨.addRefund m _, hclear⟩) fun _ => .ok ⟨hrefl, hreset⟩

variable (size) in
theorem gasSStoreEIP2200_ensures (hs : 1 < m.loc.stack.length) :
    Ensures Stop.Metering (StoreMetered m) (gasSStoreEIP2200 env m size) := by
  refine Ensures.failIf_bind (fun _ => Stop.regular.metering) fun _ => ?_
  refine ((back_ensures hs).weaken fun _ => .inl).bind fun y _ => ?_
  refine ((back_ensures (by omega)).weaken fun _ => .inl).bind fun x _ => ?_
  exact netSstore_ensures (by decide) _ _

theorem pricesEIP2929_positive : (pricesEIP2929 cost).Positive :=
  ⟨Nat.add_pos_right _ (by decide), Nat.add_pos_right _ (by decide),
    Nat.add_pos_right _ (by decide), Nat.add_pos_right _ (by decide)⟩

variable (size) in
theorem gasSStoreEIP2929_ensures (hs : 1 < m.loc.stack.length) :
    Ensures Stop.Metering (StoreMetered m) (gasSStoreEIP2929 env m size) := by
  refine Ensures.failIf_bind (fun _ => Stop.regular.metering) fun _ => ?_
  refine ((back_ensures hs).weaken fun _ => .inl).bind fun y _ => ?_
  refine ((back_ensures (by omega)).weaken fun _ => .inl).bind fun x _ => ?_
  refine .ite (fun _ => netSstore_ensures pricesEIP2929_positive _ _) fun _ => ?_
  refine .ite (fun _ => ?_) fun _ => .error (.inr (.inr rfl))
  refine (netSstore_ensures pricesEIP2929_positive _ _).imp fun r h => ⟨?_, h.2⟩
  exact .trans ⟨m.evm.world.refund, _, rfl⟩ h.1

/-! ## Every gas function -/

theorem StoreMetered.metered {f : GasFunc} {r : Nat × Machine} (hf : f.ofStore = true)
    (h : StoreMetered m r) : Metered f m size r.1 r.2 := by
  refine .of_refunded h.1 ?_ ?_ (fun _ => ⟨?_, ?_⟩) fun _ => h.2
  · cases f <;> first | rfl | cases hf
  · cases f <;> first | rfl | cases hf
  · rintro rfl
    cases hf
  · rintro rfl
    cases hf

variable (size) in
/-- **What a gas function does**, if the items that it reads are on the stack. Only the functions of
a store can panic. -/
theorem GasFunc.gas_metered (f : GasFunc) (hs : f.reads ≤ m.loc.stack.length) :
    Ensures (fun s => s.Regular ∨ (f.ofStore = true ∧ s.Metering))
      (fun r => Metered f m size r.1 r.2) (f.gas env m size) := by
  cases f with
  | pureMemory =>
    exact ((memoryGasCost_ensures m size).imp fun _ h => .of_quiet h.1 rfl h.2 nofun).weaken
      fun _ => .inl
  | perWord stackpos price =>
    exact ((perWordGas_ensures env hs).imp fun _ h => .of_quiet h.1 rfl h.2 nofun).weaken
      fun _ => .inl
  | log n => exact (makeGasLog_metered env hs).weaken fun _ => .inl
  | exp expByte => exact (gasExp_metered env hs).weaken fun _ => .inl
  | sStore =>
    exact (gasSStore_ensures env size hs).mono (fun _ h => .inr ⟨rfl, h⟩) fun _ h => h.metered rfl
  | sStoreEIP2200 =>
    exact (gasSStoreEIP2200_ensures env size hs).mono (fun _ h => .inr ⟨rfl, h⟩)
      fun _ h => h.metered rfl
  | sStoreEIP2929 =>
    exact (gasSStoreEIP2929_ensures env size hs).mono (fun _ h => .inr ⟨rfl, h⟩)
      fun _ h => h.metered rfl
  | sLoadEIP2929 => exact (gasSLoadEIP2929_metered env hs).weaken fun _ => .inl
  | extCodeCopyEIP2929 => exact (gasExtCodeCopyEIP2929_metered env hs).weaken fun _ => .inl
  | accountCheckEIP2929 => exact (gasEip2929AccountCheck_metered env hs).weaken fun _ => .inl
  | call kind => exact (callKind_gas_metered env kind hs).weaken fun _ => .inl
  | callEIP2929 kind =>
    exact (makeCallVariantGasCallEIP2929_metered env kind hs).weaken fun _ => .inl
  | selfdestruct => exact (gasSelfdestruct_metered env hs).weaken fun _ => .inl
  | selfdestructEIP2929 => exact (gasSelfdestructEIP2929_metered env hs).weaken fun _ => .inl

end Functions

end Virbicoin.Vm
