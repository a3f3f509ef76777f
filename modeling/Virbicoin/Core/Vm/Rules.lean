import Virbicoin.Core.Vm.Metering

/-!
# Rules for the interpreter

The proofs about whole executions go through the same stations: the operation is prepared, executed
and concluded; a call or a creation checks, runs a frame and settles. This module has one rule for
each station. A rule says in which cases a property of the result has to be shown, and what is known
in each.
-/

namespace Virbicoin.Vm

open Lib State Params

def Stop.lift (E : Abort → Prop) : Stop → Prop
  | .error _ => True
  | .abort a => E a

theorem Stop.Regular.lift {s : Stop} {E : Abort → Prop} (h : s.Regular) : s.lift E := by
  obtain ⟨e, rfl⟩ := h
  trivial

/-! ## Preparation -/

/-- What is known after an operation is prepared: the stack has room, a protected operation does not
write, the memory is there, and the gas is paid. -/
structure Prepared (env : Env) (op : OpCode) (o : Operation) (m m' : Machine) : Prop where
  deep : o.execute.pops ≤ m.loc.stack.length
  shallow : m.loc.stack.length + o.execute.pushes ≤ stackLimit + o.execute.pops
  protect : m.evm.readOnly = true → env.rules.isByzantium = true →
    o.writes = false ∧ (op = OpCode.CALL → m.loc.stack[2]? = some 0)
  frame : ∃ size, requiredMemory o m.loc.stack = .ok size ∧ size ≤ maxMemory ∧
    ∃ m₁, Adjusted m m₁ ∧ m' = m₁.resize size
  memory : ∃ size fee mem, requiredMemory o m.loc.stack = .ok size ∧
    memoryGasCost m.loc.memory size = .ok (fee, mem) ∧ m'.loc.memory = mem.resize size ∧
    m'.contract.gas + fee ≤ m.contract.gas
  gas_le : m'.contract.gas ≤ m.contract.gas
  gas_lt : o.halts = false → o.reverts = false → m'.contract.gas < m.contract.gas
  quiet : o.dynamicGas.all GasFunc.quiet = true →
    m'.evm.world.refund = m.evm.world.refund ∧ m'.evm.callGasTemp = m.evm.callGasTemp
  call : ∀ kind, o.execute = .call kind → m'.evm.world.refund = m.evm.world.refund ∧
    m'.contract.gas + m'.evm.callGasTemp < m.contract.gas ∧
    (kind.hasValue = true → ∀ value, m.loc.stack[2]? = some value → value ≠ 0 →
      m'.contract.gas + m'.evm.callGasTemp + callValueTransferGas < m.contract.gas)

theorem Prepared.stack {env : Env} {op : OpCode} {o : Operation} {m m' : Machine}
    (h : Prepared env op o m m') : m'.loc.stack = m.loc.stack := by
  obtain ⟨_, -, -, _, ⟨_, _, _, _, _, rfl⟩, rfl⟩ := h.frame
  rfl

section Prepare

variable {env : Env} {op : OpCode} {o : Operation} {m m' : Machine}

def Operation.Metered (o : Operation) (m : Machine) (size cost : Nat) (m' : Machine) : Prop :=
  match o.dynamicGas with
  | none => cost = 0 ∧ m' = m
  | some f => Vm.Metered f m size cost m'

theorem charge_ensures (gas : Nat) :
    Ensures Stop.Regular (fun m' => gas ≤ m.contract.gas ∧ m' = m.useGas gas) (charge gas m) := by
  exact Ensures.failIf_bind (fun _ => Stop.regular) fun h => Ensures.ok ⟨by omega, rfl⟩

def Stop.Panics (o : Operation) (s : Stop) : Prop :=
  o.dynamicGas.any GasFunc.ofStore = true ∧ s.Metering

theorem chargeDynamic_ensures {size : Nat}
    (hreads : (o.dynamicGas.all fun f => decide (f.reads ≤ m.loc.stack.length)) = true) :
    Ensures (fun s => s.Regular ∨ s.Panics o)
      (fun m' => ∃ cost m₁, o.Metered m size cost m₁ ∧ cost ≤ m₁.contract.gas ∧
        m' = m₁.useGas cost) (chargeDynamic env o size m) := by
  unfold chargeDynamic Operation.Metered Stop.Panics
  cases hdyn : o.dynamicGas with
  | none => exact Ensures.ok ⟨0, m, ⟨rfl, rfl⟩, Nat.zero_le _, rfl⟩
  | some f =>
    rw [hdyn] at hreads
    have h := GasFunc.gas_metered env size f (m := m) (by simpa using hreads)
    dsimp only
    generalize f.gas env m size = x at h ⊢
    match x, h with
    | .ok (cost, m₁), h =>
      refine (charge_ensures cost).mono (fun _ => .inl) ?_
      rintro m' ⟨hcost, rfl⟩
      exact ⟨cost, m₁, h, hcost, rfl⟩
    | .error (.error e), _ => exact Ensures.error (.inl Stop.regular)
    | .error (.abort a), h =>
      rcases h with h | h
      · obtain ⟨e, he⟩ := h
        cases he
      · exact .error (.inr ⟨by simpa using h.1, h.2⟩)

def MemorySizeFunc.reads : MemorySizeFunc → Nat
  | .range off len => max off len + 1
  | .fixed _ => 1
  | .two xOff xLen yOff yLen => max (max xOff xLen) (max yOff yLen) + 1

theorem Execute.memory_reads (x : Execute) : ∀ f ∈ x.memory, f.reads ≤ x.pops := by
  intro f hf
  cases x with
  | loc op => cases op <;> cases hf <;> decide
  | log size =>
    cases hf
    exact Nat.le_add_left _ _
  | call kind => cases kind <;> cases hf <;> decide
  | _ => cases hf <;> decide

theorem memoryRange_ensures {off len : Nat} {s : List Word} (h : max off len < s.length) :
    Ensures Stop.Regular (fun _ => True) (memoryRange off len s) := by
  refine (back_ensures (by omega)).bind fun _ _ => ?_
  exact (back_ensures (by omega)).bind fun _ _ => .ok trivial

theorem MemorySizeFunc.size_ensures {f : MemorySizeFunc} {s : List Word} (h : f.reads ≤ s.length) :
    Ensures Stop.Regular (fun _ => True) (f.size s) := by
  cases f with
  | range off len => exact memoryRange_ensures h
  | fixed length => exact (back_ensures h).bind fun _ _ => .ok trivial
  | two xOff xLen yOff yLen =>
    have h : max (max xOff xLen) (max yOff yLen) + 1 ≤ s.length := h
    refine (memoryRange_ensures (by omega)).bind fun x _ => ?_
    cases x with
    | none => exact .ok trivial
    | some x =>
      refine (memoryRange_ensures (by omega)).bind fun y _ => ?_
      cases y <;> exact .ok trivial

theorem requiredMemory_ensures {s : List Word} (h : ∀ f ∈ o.memorySize, f.reads ≤ s.length) :
    Ensures Stop.Regular (fun size => requiredMemory o s = .ok size) (requiredMemory o s) := by
  refine .of_cases (fun _ => id) fun e he => ?_
  unfold requiredMemory at he
  cases hmem : o.memorySize with
  | none =>
    rw [hmem] at he
    cases he
  | some f =>
    rw [hmem] at he
    have hsize : Ensures Stop.Regular (fun _ => True)
        (f.size s >>= fun memSize => checked memSize >>= fun memSize =>
          checked (safeMul (toWordSize memSize) 32)) :=
      (MemorySizeFunc.size_ensures (h f hmem)).bind fun memSize _ =>
        (checked_ensures memSize).bind fun n _ => (checked_ensures _).imp fun _ _ => trivial
    exact hsize.of_error he

theorem checkStack_ensures : Ensures Stop.Regular
      (fun _ => o.minStack ≤ m.loc.stack.length ∧ m.loc.stack.length ≤ o.maxStack)
      (checkStack o m) := by
  refine Ensures.failIf_bind (fun _ => Stop.regular) fun hmin => ?_
  exact Ensures.failIf (fun _ => Stop.regular) fun h => ⟨by omega, by omega⟩

theorem checkWrite_ensures (hcall : op = OpCode.CALL → 2 < m.loc.stack.length) :
    Ensures Stop.Regular (fun _ => m.evm.readOnly = true → env.rules.isByzantium = true →
        o.writes = false ∧ (op = OpCode.CALL → m.loc.stack[2]? = some 0))
      (checkWrite env op o m) := by
  refine .ite (fun _ => ?_) fun h => .ok fun hr hb => absurd (by simp [hr, hb]) h
  refine Ensures.ite (fun _ => Ensures.error Stop.regular) fun hw => ?_
  have hw : o.writes = false := by simpa using hw
  refine .ite (fun hop => ?_) fun hop => .ok fun _ _ => ⟨hw, fun h => absurd h hop⟩
  refine (back_ensures (hcall hop)).bind fun value hvalue => ?_
  refine Ensures.failIf (fun _ => Stop.regular) fun hzero _ _ => ⟨hw, fun _ => ?_⟩
  rw [hvalue, Decidable.not_not.1 hzero]

structure Checked (env : Env) (op : OpCode) (o : Operation) (m : Machine) (size : Nat) : Prop where
  deep : o.minStack ≤ m.loc.stack.length
  shallow : m.loc.stack.length ≤ o.maxStack
  protect : m.evm.readOnly = true → env.rules.isByzantium = true →
    o.writes = false ∧ (op = OpCode.CALL → m.loc.stack[2]? = some 0)
  const : o.constantGas ≤ m.contract.gas
  size_eq : requiredMemory o m.loc.stack = .ok size

theorem prepared_of_charged {size cost : Nat} {m₁ : Machine} (hc : Consistent op o)
    (h : Checked env op o m size)
    (hmetered : o.Metered (m.useGas o.constantGas) size cost m₁) (hcost : cost ≤ m₁.contract.gas) :
    Prepared env op o m ((m₁.useGas cost).resize size) := by
  obtain ⟨hdeep, hshallow, hprotect, hconst, hsize⟩ := h
  have hgas : (m.useGas o.constantGas).contract.gas = m.contract.gas - o.constantGas := rfl
  have hgas' : ((m₁.useGas cost).resize size).contract.gas = m₁.contract.gas - cost := rfl
  have hmin : o.execute.pops ≤ m.loc.stack.length := hc.minStack ▸ hdeep
  have hmax := hc.maxStack
  unfold Operation.Metered at hmetered
  cases hdyn : o.dynamicGas with
  | none =>
    rw [hdyn] at hmetered
    obtain ⟨rfl, rfl⟩ := hmetered
    have hmem : o.memorySize = none := by
      have := hc.charged
      rw [hdyn] at this
      simpa using this
    have hsize0 : size = 0 := by
      unfold requiredMemory at hsize
      rw [hmem] at hsize
      cases hsize
      rfl
    subst hsize0
    refine ⟨hmin, by omega, hprotect, ⟨0, hsize, by omega, _, ⟨_, _, _, _, _, rfl⟩, rfl⟩,
      ⟨0, 0, _, hsize, rfl, rfl, by omega⟩, by omega, ?_, fun _ => ⟨rfl, rfl⟩, ?_⟩
    · intro hhalts hreverts
      have hpriced := hc.priced
      rw [hdyn, hhalts, hreverts] at hpriced
      have : 0 < o.constantGas := by simpa using hpriced
      omega
    intro kind hkind
    have hfits := hc.fits
    rw [hkind] at hfits
    simp [Execute.fits, hdyn] at hfits
  | some f =>
    rw [hdyn] at hmetered
    have hle := hmetered.gas_le
    have hpos := hmetered.pos
    obtain ⟨hmem, fee, hfee, hpaid⟩ : size ≤ maxMemory ∧
        PaidMemory size cost m.loc.memory m₁.loc.memory := by
      have hmemory := hmetered.memory
      cases hm : f.chargesMemory with
      | true =>
        rw [hm] at hmemory
        exact ⟨hmemory.size_le, hmemory⟩
      | false =>
        rw [hm] at hmemory
        have hcharged := hc.charged
        rw [hdyn, Option.any_some, hm, Bool.or_false, Option.isNone_iff_eq_none] at hcharged
        unfold requiredMemory at hsize
        rw [hcharged] at hsize
        cases hsize
        exact ⟨Nat.zero_le _, 0, Nat.zero_le _, congrArg
          (fun mem => Except.ok (0, mem)) hmemory.symm⟩
    obtain ⟨l, g, c, r, al, hm1⟩ := hmetered.adjusted
    refine ⟨hmin, by omega, hprotect, ⟨size, hsize, hmem, m₁.useGas cost, ?_, rfl⟩,
      ⟨size, fee, _, hsize, hpaid, rfl, by omega⟩, by omega, ?_, ?_, ?_⟩
    · rw [hm1]
      exact ⟨_, _, _, _, _, rfl⟩
    · intro hhalts hreverts
      have hpriced := hc.priced
      rw [hdyn, hhalts, hreverts] at hpriced
      rcases (by simpa using hpriced : 0 < o.constantGas ∨ f.positive = true) with h | h
      · omega
      have := hpos h
      omega
    · intro hquiet
      obtain ⟨l, al, rfl⟩ := hmetered.quiet (by simpa [hdyn] using hquiet)
      exact ⟨rfl, rfl⟩
    intro kind hkind
    have hfits := hc.fits
    rw [hkind] at hfits
    simp only [Execute.fits, hdyn, Bool.and_eq_true, decide_eq_true_eq, Bool.or_eq_true,
      beq_iff_eq, Option.some.injEq] at hfits
    obtain ⟨hrefund, base, hbase, hvalue⟩ := hmetered.call kind hfits.1.1.1.1.1
    have htemp : ((m₁.useGas cost).resize size).evm.callGasTemp = m₁.evm.callGasTemp := rfl
    refine ⟨hrefund, by omega, fun hv value hs hne => ?_⟩
    have := hvalue hv value hs hne
    omega

theorem prepare_charged (hc : Consistent op o) :
    Ensures (fun s => s.Regular ∨ ∃ size, Checked env op o m size ∧
        chargeDynamic env o size (m.useGas o.constantGas) = .error s)
      (fun m' => ∃ size m₁, Checked env op o m size ∧
        chargeDynamic env o size (m.useGas o.constantGas) = .ok m₁ ∧ m' = m₁.resize size)
      (prepare env op o m) := by
  refine (checkStack_ensures.weaken fun _ => .inl).bind fun _ ⟨hdeep, hshallow⟩ => ?_
  refine ((checkWrite_ensures fun h => (hc.peeks h).trans_le hdeep).weaken fun _ => .inl).bind
    fun _ hprotect => ?_
  refine ((charge_ensures o.constantGas).weaken fun _ => .inl).bind ?_
  rintro _ ⟨hconst, rfl⟩
  have hmem : ∀ f ∈ o.memorySize, f.reads ≤ m.loc.stack.length := by
    intro f hf
    rw [hc.memory] at hf
    exact (Execute.memory_reads _ f hf).trans (hc.minStack ▸ hdeep)
  refine ((requiredMemory_ensures hmem).weaken fun _ => .inl).bind fun size hsize => ?_
  have hchecked : Checked env op o m size := ⟨hdeep, hshallow, hprotect, hconst, hsize⟩
  cases hdyn : chargeDynamic env o size (m.useGas o.constantGas) with
  | error s => exact .error (.inr ⟨size, hchecked, hdyn⟩)
  | ok m₁ => exact .ok ⟨size, m₁, hchecked, hdyn, rfl⟩

theorem prepare_ensures (hc : Consistent op o) :
    Ensures (fun s => s.Regular ∨ s.Panics o) (Prepared env op o m) (prepare env op o m) := by
  have hdyn : ∀ size, Checked env op o m size → Ensures (fun s => s.Regular ∨ s.Panics o)
      (fun m' => ∃ cost m₁, o.Metered (m.useGas o.constantGas) size cost m₁ ∧
        cost ≤ m₁.contract.gas ∧ m' = m₁.useGas cost)
      (chargeDynamic env o size (m.useGas o.constantGas)) := by
    intro size h
    refine chargeDynamic_ensures ?_
    have hreads := hc.reads
    cases hdyn : o.dynamicGas with
    | none => rfl
    | some f =>
      rw [hdyn] at hreads
      exact decide_eq_true ((of_decide_eq_true hreads).trans h.deep)
  refine (prepare_charged hc).mono ?_ ?_
  · rintro s (hs | ⟨size, h, hs⟩)
    · exact .inl hs
    · exact (hdyn size h).of_error hs
  rintro _ ⟨size, m2, h, hm2, rfl⟩
  obtain ⟨cost, m₁, hmetered, hcost, rfl⟩ := (hdyn size h).of_ok hm2
  exact prepared_of_charged hc h hmetered hcost

theorem prepare_priced {f : GasFunc} {E : Stop → Prop} {Q : Machine → Prop} (hc : Consistent op o)
    (hdyn : o.dynamicGas = some f) (hE : ∀ s, s.Regular → E s)
    (hgas : ∀ size, Ensures E (fun r => Q ((r.2.useGas r.1).resize size))
      (f.gas env (m.useGas o.constantGas) size)) :
    Ensures E Q (prepare env op o m) := by
  have hcharge : ∀ size, Ensures E (fun m' => Q (m'.resize size))
      (chargeDynamic env o size (m.useGas o.constantGas)) := by
    intro size
    have h := hgas size
    unfold chargeDynamic
    rw [hdyn]
    dsimp only
    generalize f.gas env (m.useGas o.constantGas) size = x at h ⊢
    match x, h with
    | .ok (cost, m₁), h =>
      refine (charge_ensures cost).mono hE ?_
      rintro _ ⟨-, rfl⟩
      exact h
    | .error (.error e), _ => exact Ensures.error (hE _ Stop.regular)
    | .error (.abort a), h => exact h
  refine (prepare_charged hc).mono ?_ ?_
  · rintro s (hs | ⟨size, -, hs⟩)
    · exact hE s hs
    · exact (hcharge size).of_error hs
  rintro _ ⟨size, m2, -, hm2, rfl⟩
  exact (hcharge size).of_ok hm2

end Prepare

/-! ## Steps -/

def Polled (m m' : Machine) : Prop :=
  ∃ steps polls, m' = { m with steps, evm := { m.evm with polls } }

theorem poll_polled (env : Env) (m : Machine) : Polled m (poll env m).1 := by
  unfold poll
  dsimp only
  split
  · exact ⟨_, _, rfl⟩
  · exact ⟨_, m.evm.polls, rfl⟩

def Fetched (env : Env) (m : Machine) (op : OpCode) (o : Operation) : Prop :=
  op = m.contract.getOp m.loc.pc ∧ (instructionSet env.rules).get op = some o

theorem Fetched.consistent {env : Env} {m : Machine} {op : OpCode} {o : Operation}
    (h : Fetched env m op o) : Consistent op o := by
  obtain ⟨l1, l2, hl, -⟩ := List.lookup_eq_some_iff.1 h.2
  refine instructionSet_consistent env.rules (op, o) ?_
  rw [hl]
  simp

theorem Fetched.pc_lt {env : Env} {m : Machine} {op : OpCode} {o : Operation}
    (h : Fetched env m op o) (hop : op ≠ 0) :
    m.loc.pc < m.contract.code.length := by
  rw [h.1] at hop
  by_contra hge
  refine hop ?_
  unfold Contract.getOp
  rw [List.getD_eq_getElem?_getD, List.getElem?_eq_none (by omega)]
  rfl

theorem stepWith_ensures {env : Env} {run : RunFn} {m : Machine} {E : Abort → Prop}
    {R : Machine ⊕ Result → Prop}
    (left : ∀ m', Polled m m' → ∀ err, R (.inr ⟨[], err, m'.contract.gas, m'.evm⟩))
    (panic : ∀ m' op o, Polled m m' → Fetched env m' op o → o.execute = .sstore →
      ∀ f, f = .refund ∨ f = .accessList → prepare env op o m' = .error (.fault f) →
      E (.fault f))
    (exec : ∀ m' op o m₁, Polled m m' → Fetched env m' op o → prepare env op o m' = .ok m₁ →
      Prepared env op o m' m₁ →
      Ensures (Stop.lift E) (fun r => R (conclude o r.1 r.2)) (execute env run o.execute m₁)) :
    Ensures E R (stepWith env run m) := by
  have hpoll : Polled m (poll env m).1 := poll_polled env m
  unfold stepWith
  dsimp only
  generalize (poll env m).1 = m' at hpoll ⊢
  refine .ite (fun _ => .ok (left m' hpoll none)) fun _ => ?_
  -- the errors of an operation leave the loop
  suffices h : Ensures (Stop.lift E) R (dispatch env run m') by
    generalize dispatch env run m' = x at h ⊢
    match x, h with
    | .ok r, h => exact .ok h
    | .error (.error e), _ => exact .ok (left m' hpoll (some e))
    | .error (.abort a), h => exact .error h
  unfold dispatch
  dsimp only
  cases hget : (instructionSet env.rules).get (m'.contract.getOp m'.loc.pc) with
  | none => exact .error trivial
  | some o =>
    have hfetch : Fetched env m' _ o := ⟨rfl, hget⟩
    have hc := hfetch.consistent
    have hprep : Ensures _ (Prepared env _ o m') _ := prepare_ensures hc
    refine .bind (Q := fun m₁ => prepare env _ o m' = .ok m₁ ∧ Prepared env _ o m' m₁)
      (.of_cases (fun m₁ h => ⟨h, hprep.of_ok h⟩) fun s hs => ?_) ?_
    · rcases hprep.of_error hs with h | ⟨hstore, h⟩
      · exact h.lift
      rcases h with h | rfl | rfl
      · exact h.lift
      · exact panic m' _ o hpoll hfetch (hc.eq_sstore hstore) _ (.inl rfl) hs
      · exact panic m' _ o hpoll hfetch (hc.eq_sstore hstore) _ (.inr rfl) hs
    rintro m₁ ⟨hm1, hprepared⟩
    exact (exec m' _ o m₁ hpoll hfetch hm1 hprepared).bind fun r hr => .ok hr

theorem conclude_cases {R : Machine ⊕ Result → Prop} {o : Operation} {m : Machine} {res : Bytes}
    (stop : o.halts = true ∨ o.reverts = true → ∀ returnData err,
      R (.inr ⟨res, err, m.contract.gas, { m.evm with returnData }⟩))
    (next : o.halts = false → o.reverts = false → ∀ returnData, R (.inl { m with
      loc := { m.loc with pc := if o.jumps then m.loc.pc else (m.loc.pc + 1) % 2 ^ 64 }
      evm := { m.evm with returnData } })) :
    R (conclude o m res) := by
  obtain ⟨d, hd⟩ : ∃ d, (if o.returns then { m with evm := { m.evm with returnData := res } }
      else m) = { m with evm := { m.evm with returnData := d } } := by
    split
    · exact ⟨res, rfl⟩
    · exact ⟨m.evm.returnData, rfl⟩
  unfold conclude
  rw [hd]
  split
  · exact stop (.inr ‹_›) d _
  split
  · exact stop (.inl ‹_›) d _
  have hnext := next (by simp_all) (by simp_all) d
  split
  · rwa [if_pos ‹_›] at hnext
  · rwa [if_neg ‹_›] at hnext

/-! ## Frames -/

section Frames

variable {env : Env} {run : RunFn} {E : Abort → Prop}

theorem runWith_ensures {loop : Machine → Except Abort Result} {c : Contract} {input : Bytes}
    {readOnly : Bool} {evm : Evm} {Q : Result → Prop}
    (idle : Q (leave readOnly evm ⟨[], none, c.gas, enter readOnly evm⟩))
    (code : Ensures E (fun r => Q (leave readOnly evm r))
      (loop { contract := { c with input }, evm := enter readOnly evm })) :
    Ensures E Q (runWith loop c input readOnly evm) := by
  refine .bind (Q := fun r => Q (leave readOnly evm r)) ?_ fun _ hr => .ok hr
  exact .ite (fun _ => .ok idle) fun _ => code

variable {Q : CallResult → Prop} {evm : Evm} {gas : Nat} {input : Bytes} {addr caller : Address}

/-- What is to be shown of a call behind its checks: of an address without code, of a native
contract and of a frame. `evm₁` is the state in which the callee starts. -/
structure Serves (env : Env) (run : RunFn) (E : Abort → Prop) (Q : CallResult → Prop)
    (addr : Address) (input : Bytes) (evm : Evm) (c : Contract) (readOnly : Bool) (evm₁ : Evm) :
    Prop where
  idle : Q ⟨.bytes [], c.gas, none, evm₁⟩
  native : ∀ p, env.precompile addr = some p →
    Q ((runPrecompiledContract env p input c.gas evm₁).settle evm)
  frame : Ensures E (fun r => Q (r.toCallResult.settle evm)) (run c input readOnly evm₁)

theorem Serves.runCode_ensures {c : Contract} {readOnly : Bool} {evm₁ : Evm}
    (h : Serves env run E Q addr input evm c readOnly evm₁) :
    Ensures E (fun r => Q (r.settle evm)) (runCode env run addr c input readOnly evm₁) := by
  unfold runCode
  cases hp : env.precompile addr with
  | some p => exact .ok (h.native p hp)
  | none =>
    have hframe := h.frame
    generalize run c input readOnly evm₁ = x at hframe ⊢
    match x, hframe with
    | .ok r, hr => exact .ok hr
    | .error a, ha => exact .error ha

theorem callGuard_cases (affordable : Bool) :
    callGuard env evm gas affordable = none ∧ affordable = true ∨
      ∃ err, callGuard env evm gas affordable = some ⟨.bytes [], gas, err, evm⟩ := by
  unfold callGuard
  split
  · exact .inr ⟨_, rfl⟩
  split
  · exact .inr ⟨_, rfl⟩
  split
  · exact .inr ⟨_, rfl⟩
  rename_i hafford
  exact .inl ⟨rfl, by simpa using hafford⟩

def callWorld (env : Env) (caller addr : Address) (value : Int) (world : World) : World :=
  transfer env.keccak (if !world.exist addr then world.createAccount env.keccak addr else world)
    caller addr value

section

variable (skip : ∀ err, Q ⟨.bytes [], gas, err, evm⟩)
include skip

theorem callGuard_ensures {affordable : Bool} {x : Except Abort CallResult}
    (serve : affordable = true → Ensures E Q x) :
    Ensures E Q (match callGuard env evm gas affordable with | some r => .ok r | none => x) := by
  obtain ⟨hguard, hafford⟩ | ⟨err, hguard⟩ := callGuard_cases affordable
  · rw [hguard]
    exact serve hafford
  · rw [hguard]
    exact .ok (skip err)

theorem call_ensures {value : Int} (serve : value = 0 ∨ canTransfer evm.world caller value = true →
      ∀ evm₁, evm₁ = { evm with world := callWorld env caller addr value evm.world } →
      Serves env run E Q addr input evm
        { callerAddress := caller, self := addr, code := (evm₁.world.getCode addr).getD [], gas,
          value } false evm₁) :
    Ensures E Q (call env run caller addr input gas value evm) := by
  refine callGuard_ensures skip fun hvalue => ?_
  refine .ite (fun _ => .ok (skip none)) fun _ => ?_
  have h := serve (by simpa using hvalue) _ rfl
  refine .bind (Q := fun r => Q (r.settle evm)) ?_ fun _ hr => .ok hr
  exact .ite (fun _ => .ok h.idle) fun _ => h.runCode_ensures

theorem callCode_ensures {value : Int} (serve : Serves env run E Q addr input evm
      { callerAddress := caller, self := caller, code := (evm.world.getCode addr).getD [], gas,
        value } false evm) :
    Ensures E Q (callCode env run caller addr input gas value evm) := by
  refine callGuard_ensures skip fun _ => ?_
  exact serve.runCode_ensures.bind fun _ hr => .ok hr

theorem delegateCall_ensures {parent : Contract} (serve : Serves env run E Q addr input evm
      { callerAddress := parent.callerAddress, self := parent.self,
        code := (evm.world.getCode addr).getD [], gas, value := parent.value } false evm) :
    Ensures E Q (delegateCall env run parent addr input gas evm) := by
  refine callGuard_ensures skip fun _ => ?_
  exact serve.runCode_ensures.bind fun _ hr => .ok hr

theorem staticCall_ensures
    (serve : ∀ evm₁, evm₁ = { evm with world := evm.world.addBalance env.keccak addr 0 } →
      Serves env run E Q addr input evm
        { callerAddress := caller, self := addr, code := (evm₁.world.getCode addr).getD [], gas,
          value := 0 } true evm₁) :
    Ensures E Q (staticCall env run caller addr input gas evm) := by
  refine callGuard_ensures skip fun _ => ?_
  exact (serve _ rfl).runCode_ensures.bind fun _ hr => .ok hr

end

/-- **The rule for a creation.** `evm₁` is the state with the nonce of the creator used up. -/
theorem createAt_ensures {address : Address} {code : Bytes} {value : Int} {Q : CreateResult → Prop}
    (skip : ∀ err, Q ⟨[], 0, gas, some err, evm⟩)
    (collide : ∀ evm₁, evm₁ = { evm with world := bumpNonce env caller address evm.world } →
      Q ⟨[], 0, 0, some .contractAddressCollision, evm₁⟩)
    (deploy : ∀ evm₁, evm₁ = { evm with world := bumpNonce env caller address evm.world } →
      canTransfer evm.world caller value = true →
      ∀ evm2, evm2 = { evm₁ with world := newContractWorld env caller address value evm₁.world } →
      Q ⟨[], address, gas, none, evm2⟩ ∧
      Ensures E (fun r => Q (finishCreate env address evm₁ r))
        (run { callerAddress := caller, self := address, code, gas, value } [] false evm2)) :
    Ensures E Q (createAt env run caller code gas value address evm) := by
  refine .ite (fun _ => .ok (skip _)) fun _ => ?_
  refine .ite (fun _ => .ok (skip _)) fun hvalue => ?_
  refine .ite (fun _ => .ok (collide _ rfl)) fun _ => ?_
  obtain ⟨hidle, hrun⟩ := deploy _ rfl (by simpa using hvalue) _ rfl
  refine .ite (fun _ => .ok hidle) fun _ => ?_
  exact hrun.bind fun _ hr => .ok hr

end Frames

theorem settle_cases (r : CallResult) (evm : Evm) : r.settle evm = r ∨ ∃ gas, gas ≤ r.leftOverGas ∧
      r.settle evm = { r with evm := r.evm.revertToSnapshot evm, leftOverGas := gas } := by
  unfold CallResult.settle
  split
  · exact .inl rfl
  refine .inr ⟨_, ?_, rfl⟩
  split
  · exact le_rfl
  · exact Nat.zero_le _

theorem finishCreate_cases (env : Env) (address : Address) (evm : Evm) (r : Result) :
    (finishCreate env address evm r).leftOverGas ≤ r.gas ∧
    ((finishCreate env address evm r).evm = r.evm ∨
      (finishCreate env address evm r).evm = r.evm.revertToSnapshot evm ∨
      ∃ code, (code.getD []).length ≤ r.ret.length ∧ (finishCreate env address evm r).evm =
        { r.evm with world := r.evm.world.setCode env.keccak address code }) := by
  unfold finishCreate
  dsimp only
  -- the result after the code is stored, or not
  generalize hsize : (env.rules.isEIP158 && decide (r.ret.length > maxCodeSize)) = sizeExceeded
  generalize hstored : (if r.err.isNone && !sizeExceeded then _ else r) = stored
  have hgas : stored.gas ≤ r.gas := by
    rw [← hstored]
    split
    · split
      · exact le_rfl
      · exact Nat.sub_le _ _
    · exact le_rfl
  refine ⟨?_, ?_⟩
  · split
    · exact Nat.zero_le _
    · exact hgas
  split
  · refine .inr (.inl ?_)
    rw [← hstored]
    split
    · split <;> rfl
    · rfl
  rw [← hstored]
  split
  · split
    · exact .inl rfl
    refine .inr (.inr ⟨_, ?_, rfl⟩)
    split
    · exact Nat.zero_le _
    · exact le_rfl
  · exact .inl rfl

end Virbicoin.Vm
