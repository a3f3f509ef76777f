import Virbicoin.Core.Vm.Ranges

/-!
# Return data and the output area

A call instruction passes a slice of the memory of the caller to the callee. It writes the output to
memory, and only then copies the returned slice to the return data buffer. All callees return bytes
of their own, except for the identity contract, which returns the slice of its input. If the output
area overlaps the input range at another offset, the bytes that are written change the slice before
it is copied.
-/

namespace Virbicoin.Vm

open Lib State Params List

/-! ## Reading after writing -/

theorem getElem?_overwrite {b value : Bytes} {offset : Nat}
    (h : value = [] ∨ offset + value.length ≤ b.length) (j : Nat) :
    (overwrite b offset value)[j]? =
      if offset ≤ j ∧ j < offset + value.length then value[j - offset]? else b[j]? := by
  rcases h with rfl | h
  · rw [overwrite_nil, if_neg]
    simp only [length_nil]
    omega
  have htake : (b.take offset).length = offset := by
    rw [length_take]
    omega
  unfold overwrite
  by_cases h1 : j < offset
  · rw [if_neg (by omega), append_assoc, getElem?_append_left (by omega), getElem?_take_of_lt h1]
  by_cases h2 : j < offset + value.length
  · rw [if_pos ⟨by omega, h2⟩, getElem?_append_left, getElem?_append_right (by omega), htake]
    rw [length_append, htake]
    exact h2
  rw [if_neg (by omega), getElem?_append_right, getElem?_drop]
  · congr 1
    rw [length_append]
    omega
  rw [length_append]
  omega

/-- The bytes of the input that lie in the output area keep their values when the input is written
there. -/
def Undisturbed (input : Bytes) (inOffset retOffset retSize : Nat) : Prop :=
  ∀ i < input.length, retOffset ≤ inOffset + i →
    inOffset + i < retOffset + min retSize input.length →
    input[inOffset + i - retOffset]? = input[i]?

theorem slice_overwrite_iff {mem : Memory} {size : Nat} {inOff inLen retOff retLen : Word}
    (hin : Covers size inOff inLen) (hret : Covers size retOff retLen)
    (hstore : size ≤ mem.store.length) :
    Memory.slice { mem with
        store := overwrite mem.store retOff.toNat ((mem.slice inOff inLen).take retLen.toNat) }
        inOff inLen = mem.slice inOff inLen ↔
      Undisturbed (mem.slice inOff inLen) inOff.toNat retOff.toNat retLen.toNat := by
  have hlen := length_slice hin hstore
  generalize hinput : mem.slice inOff inLen = input at hlen ⊢
  have hget : ∀ i < inLen.toNat, input[i]? = mem.store[inOff.toNat + i]? := by
    intro i hi
    rw [← hinput]
    unfold Memory.slice
    rw [getElem?_take_of_lt hi, getElem?_drop]
  have hvalue : (input.take retLen.toNat).length = min retLen.toNat input.length :=
    length_take
  have hfits : input.take retLen.toNat = [] ∨
      retOff.toNat + (input.take retLen.toNat).length ≤ mem.store.length := by
    rcases hret with rfl | hret
    · exact .inl rfl
    right
    omega
  have hget' : ∀ i < inLen.toNat, (Memory.slice { mem with
      store := overwrite mem.store retOff.toNat (input.take retLen.toNat) } inOff inLen)[i]? =
      if retOff.toNat ≤ inOff.toNat + i ∧
          inOff.toNat + i < retOff.toNat + min retLen.toNat input.length then
        input[inOff.toNat + i - retOff.toNat]? else input[i]? := by
    intro i hi
    unfold Memory.slice
    rw [getElem?_take_of_lt hi, getElem?_drop, getElem?_overwrite hfits, hvalue]
    split
    · rw [getElem?_take_of_lt (by omega)]
    · rw [hget i hi]
  constructor
  · intro heq i hi h1 h2
    rw [hlen] at hi
    have := hget' i hi
    rw [heq, if_pos ⟨h1, h2⟩] at this
    exact this.symm
  intro hund
  refine ext_getElem? fun i => ?_
  by_cases hi : i < inLen.toNat
  · rw [hget' i hi]
    split
    · rename_i h
      exact hund i (by omega) h.1 h.2
    · rfl
  have hnone : input[i]? = none := getElem?_eq_none (by omega)
  rw [hnone, getElem?_eq_none]
  unfold Memory.slice
  rw [length_take]
  omega

/-! ## A call instruction -/

/-- The call at the program counter of `m` is prepared as `m₁`, and the callee, given the bytes of
the input range, returned `r`. -/
structure Calling (env : Env) (run : RunFn) (kind : CallKind) (m m₁ : Machine) (a : CallArgs)
    (r : CallResult) : Prop where
  prepared : ∃ m₀ op o, Polled m m₀ ∧ Fetched env m₀ op o ∧ o.execute = .call kind ∧
    prepare env op o m₀ = .ok m₁
  operands : ∃ rest, a.On kind.hasValue m.loc.stack rest
  memory : ∃ k, m₁.loc.memory.store = m.loc.memory.store ++ replicate k 0
  callee : invoke env run kind m₁ a (m₁.loc.memory.slice a.inOffset a.inSize)
    (m₁.evm.callGasTemp + if a.value ≠ 0 then callStipend else 0) = .ok r

/-- The return data are what the callee returned, and the memory of the caller has changed only in
the output area, to the part of it that fits. -/
def Independent (m₁ m' : Machine) (a : CallArgs) (output : Bytes) : Prop :=
  m'.evm.returnData = output ∧
    m'.loc.memory.store =
      overwrite m₁.loc.memory.store a.retOffset.toNat (output.take a.retSize.toNat)

section Calls

variable {env : Env} {run : RunFn} {kind : CallKind} {m m₁ m2 : Machine} {res : Bytes}

theorem opCall_eq_ok (h : opCall env run kind m₁ = .ok (m2, res)) :
    ∃ a rest args r memory, a.On kind.hasValue m₁.loc.stack rest ∧
      a.input m₁.loc.memory = .ok args ∧
      invoke env run kind m₁ a args
        (m₁.evm.callGasTemp + if a.value ≠ 0 then callStipend else 0) = .ok r ∧
      r.writeOutput a m₁.loc.memory = .ok memory ∧ r.ret.read a memory = .ok res ∧
      m2.loc.memory = memory := by
  obtain ⟨⟨a, rest⟩, ha, h⟩ := bind_eq_ok.1 h
  obtain ⟨args, hargs, h⟩ := bind_eq_ok.1 h
  obtain ⟨gas, hgas, h⟩ := bind_eq_ok.1 h
  obtain ⟨r, hr, h⟩ := bind_eq_ok.1 h
  obtain ⟨memory, hmemory, h⟩ := bind_eq_ok.1 h
  obtain ⟨res', hres, h⟩ := bind_eq_ok.1 h
  obtain ⟨gas', hgas', h⟩ := bind_eq_ok.1 h
  cases h
  have hgas : gas = m₁.evm.callGasTemp + if a.value ≠ 0 then callStipend else 0 := by
    split at hgas
    · rw [if_pos ‹_›]
      unfold addGas at hgas
      split at hgas
      · cases hgas
        rfl
      · cases hgas
    rw [if_neg ‹_›]
    cases hgas
    rfl
  subst hgas
  refine ⟨a, rest, args, r, memory, (popCallArgs_own _ _).of_ok ha, hargs, ?_, hmemory, hres, rfl⟩
  cases hinv : invoke env run kind m₁ a args
      (m₁.evm.callGasTemp + if a.value ≠ 0 then callStipend else 0) with
  | ok r' =>
    rw [hinv] at hr
    cases hr
    rfl
  | error e =>
    rw [hinv] at hr
    cases hr

theorem serves_input {addr : Address} {input : Bytes} {evm evm1 : Evm} {c : Contract}
    {readOnly : Bool} :
    Serves env run (fun _ => True)
      (fun r => r.ret = .input → env.precompile addr = some .dataCopy) addr input evm c readOnly
      evm1 where
  idle := nofun
  native := by
    intro p hp hret
    unfold runPrecompiledContract at hret
    dsimp only at hret
    split at hret
    · cases hret
    cases p with
    | dataCopy => exact hp
    | _ =>
      unfold Env.runPrecompile at hret
      dsimp only at hret
      split at hret <;> cases hret
  frame := by
    refine .of_cases (fun r _ hret => ?_) fun _ _ => trivial
    rcases settle_cases r.toCallResult evm with h | ⟨_, _, h⟩ <;> rw [h] at hret <;> cases hret

theorem invoke_input {a : CallArgs} {input : Bytes} {gas : Nat} {r : CallResult}
    (h : invoke env run kind m a input gas = .ok r) (hret : r.ret = .input) :
    env.precompile (toAddress a.addr) = some .dataCopy := by
  have hall : Ensures (fun _ => True)
      (fun r => r.ret = .input → env.precompile (toAddress a.addr) = some .dataCopy)
      (invoke env run kind m a input gas) := by
    cases kind with
    | call => exact call_ensures (fun _ h => by cases h) fun _ _ _ => serves_input
    | callCode => exact callCode_ensures (fun _ h => by cases h) serves_input
    | delegateCall => exact delegateCall_ensures (fun _ h => by cases h) serves_input
    | staticCall => exact staticCall_ensures nofun fun _ _ => serves_input
  exact hall.of_ok h hret

theorem independent_iff {a : CallArgs} {r : CallResult} {memory : Memory} {size : Nat}
    {m' : Machine}
    (hin : Covers size a.inOffset a.inSize) (hret : Covers size a.retOffset a.retSize)
    (hmax : size ≤ maxMemory) (hstore : size ≤ m₁.loc.memory.store.length)
    (herr : r.err = none ∨ r.err = some .executionReverted)
    (hwrite : r.writeOutput a m₁.loc.memory = .ok memory) (hread : r.ret.read a memory = .ok res)
    (hmemory : m'.loc.memory = memory) (hdata : m'.evm.returnData = res) :
    Independent m₁ m' a (r.output (m₁.loc.memory.slice a.inOffset a.inSize)) ↔
      (r.ret = .input → Undisturbed (m₁.loc.memory.slice a.inOffset a.inSize) a.inOffset.toNat
        a.retOffset.toNat a.retSize.toNat) := by
  have hinput : a.input m₁.loc.memory = .ok (m₁.loc.memory.slice a.inOffset a.inSize) :=
    getPtr_covered hin hmax hstore
  -- memory always gets the output
  obtain ⟨out, hout, hwrite⟩ := bind_eq_ok.1 hwrite
  have houtput : r.output (m₁.loc.memory.slice a.inOffset a.inSize) = out := by
    unfold CallResult.output
    cases hr : r.ret with
    | bytes b =>
      rw [hr] at hout
      cases hout
      rfl
    | input =>
      rw [hr] at hout
      exact Except.ok.inj (hinput.symm.trans hout)
  rw [if_pos herr, set_covered hret hmax hstore] at hwrite
  cases hwrite
  unfold Independent
  rw [houtput, hmemory, hdata]
  refine .trans (and_iff_left rfl) ?_
  -- the return data are read afterwards
  cases hr : r.ret with
  | bytes b =>
    rw [hr] at hread hout
    cases hread
    cases hout
    exact ⟨fun _ => nofun, fun _ => rfl⟩
  | input =>
    have hin' : size ≤ length
        (overwrite m₁.loc.memory.store a.retOffset.toNat (out.take a.retSize.toNat)) := by
      rw [length_overwrite_covered hret hstore]
      exact hstore
    rw [hr] at hread
    have hres := Except.ok.inj ((getPtr_covered hin hmax hin').symm.trans hread)
    have hout' : m₁.loc.memory.slice a.inOffset a.inSize = out := by
      rw [← houtput]
      unfold CallResult.output
      rw [hr]
    rw [← hres, ← hout']
    exact (slice_overwrite_iff hin hret hstore).trans ⟨fun h _ => h, fun h => h rfl⟩

theorem conclude_call {op : OpCode} {o : Operation} {m' : Machine} (hc : Consistent op o)
    (hkind : o.execute = .call kind) (h : conclude o m2 res = .inl m') :
    m'.loc.memory = m2.loc.memory ∧ m'.evm.returnData = res := by
  have hfits := hc.fits
  rw [hkind] at hfits
  simp only [Execute.fits, Bool.and_eq_true, Bool.not_eq_true'] at hfits
  obtain ⟨⟨⟨-, hreturns⟩, hhalts⟩, hreverts⟩ := hfits
  unfold conclude at h
  simp only [hreturns, hhalts, hreverts, if_true, Bool.false_eq_true, if_false] at h
  split at h <;> cases h <;> exact ⟨rfl, rfl⟩

end Calls

/-- **Return data and the output area.** After a call that returned or reverted, the return data are
what the callee returned, and memory changed in the output area only, exactly if the callee is not
the identity contract or the output leaves the input range as it was. -/
theorem returnData_independent_iff (env : Env) (n : Nat) (m m' : Machine) (op : OpCode)
    (o : Operation) (kind : CallKind) (hfetch : Fetched env m op o) (hkind : o.execute = .call kind)
    (h : step env (Lib.loop (step env) .fuel n) m = .ok (.inl m')) :
    ∃ m₁ a r, Calling env (run env n) kind m m₁ a r ∧
      (r.ret = .input → env.precompile (toAddress a.addr) = some .dataCopy) ∧
      (r.err = none ∨ r.err = some .executionReverted →
        (Independent m₁ m' a (r.output (m₁.loc.memory.slice a.inOffset a.inSize)) ↔
          (r.ret = .input → Undisturbed (m₁.loc.memory.slice a.inOffset a.inSize)
            a.inOffset.toNat a.retOffset.toNat a.retSize.toNat))) := by
  revert m'
  refine Ensures.forall_ok (E := fun _ => True) (x := stepWith env (run env n) m) ?_
  refine stepWith_ensures (fun _ _ _ _ => nofun) (fun _ _ _ _ _ _ _ _ _ => trivial) ?_
  intro m₀ op' o' m₁ hpoll hfetch' hprep hp
  -- it is the call that is fetched
  obtain ⟨steps, polls, rfl⟩ := id hpoll
  obtain rfl : op' = op := hfetch'.1.trans hfetch.1.symm
  obtain rfl : o' = o := Option.some.inj (hfetch'.2.symm.trans hfetch.2)
  rw [hkind]
  refine .of_cases ?_ fun s _ => ?_
  · rintro ⟨m2, res⟩ hexec m' hm'
    obtain ⟨a, rest, args, r, memory, ha, hargs, hinv, hwrite, hread, hmemory'⟩ :=
      opCall_eq_ok hexec
    obtain ⟨size, hsize, hmax, hstore, hgrown⟩ := hp.store
    have hstack : m₁.loc.stack = m.loc.stack := by
      obtain ⟨_, -, -, _, ⟨_, _, _, _, _, rfl⟩, rfl⟩ := hp.frame
      rfl
    rw [hstack] at ha
    have hmem := hfetch.consistent.memory.trans (congrArg Execute.memory hkind)
    obtain ⟨hin, hret⟩ := ha.covers (requiredMemory_covered (by split <;> nofun) hmem hsize)
    obtain rfl : m₁.loc.memory.slice a.inOffset a.inSize = args :=
      Except.ok.inj ((getPtr_covered hin hmax hstore).symm.trans hargs)
    obtain ⟨hmemory, hdata⟩ := conclude_call hfetch.consistent hkind hm'
    refine ⟨m₁, a, r, ⟨⟨_, _, _, hpoll, hfetch', hkind, hprep⟩, ⟨rest, ha⟩, hgrown, hinv⟩,
      invoke_input hinv, fun herr => ?_⟩
    exact independent_iff hin hret hmax hstore herr hwrite hread (hmemory.trans hmemory') hdata
  match s with
  | .error _ => trivial
  | .abort _ => trivial

/-- A `CALL` of the identity contract with the two bytes 1 and 2 from the start of the memory, and
one byte of output at `retOffset`. -/
def identityCall (retOffset : Word) : Machine where
  loc := { stack := [100, 4, 0, 0, 2, retOffset, 1], memory := ⟨1 :: 2 :: replicate 30 0, 3⟩ }
  contract := { callerAddress := 5, self := 1000, code := [OpCode.CALL], gas := 1000, value := 0 }
  evm := { world := { account := fun _ => none }, depth := 1 }

theorem returnData_independent_iff_apart :
    ∃ m', step (Env.trivial (mainnetChainConfig.rules 0))
        (Lib.loop (step (Env.trivial (mainnetChainConfig.rules 0))) .fuel 5) (identityCall 2) =
          .ok (.inl m') ∧ m'.evm.returnData = [1, 2] ∧
      ∃ m₁ a r, Calling (Env.trivial (mainnetChainConfig.rules 0))
        (run (Env.trivial (mainnetChainConfig.rules 0)) 5) .call (identityCall 2) m₁ a r := by
  obtain ⟨m', hstep, hdata⟩ : ∃ m', step (.trivial (mainnetChainConfig.rules 0))
      (Lib.loop (step (Env.trivial (mainnetChainConfig.rules 0))) .fuel 5) (identityCall 2) =
        .ok (.inl m') ∧ m'.evm.returnData = [1, 2] := ⟨_, rfl, rfl⟩
  obtain ⟨m₁, a, r, hcalling, -⟩ := returnData_independent_iff
    (.trivial (mainnetChainConfig.rules 0)) 5 (identityCall 2) m' OpCode.CALL _ .call
    ⟨rfl, rfl⟩ rfl hstep
  exact ⟨m', hstep, hdata, m₁, a, r, hcalling⟩

/-- With the output on the second byte of the input, the identity contract is given 1 and 2 and
returns them, and the return data are 1 and 1. -/
theorem returnData_overwritten :
    ∃ m₁ a r m', Calling (Env.trivial (mainnetChainConfig.rules 0))
        (run (Env.trivial (mainnetChainConfig.rules 0)) 5) .call (identityCall 1) m₁ a r ∧
      step (Env.trivial (mainnetChainConfig.rules 0))
        (Lib.loop (step (Env.trivial (mainnetChainConfig.rules 0))) .fuel 5) (identityCall 1) =
          .ok (.inl m') ∧
      r.err = none ∧ r.output (m₁.loc.memory.slice a.inOffset a.inSize) = [1, 2] ∧
      m'.evm.returnData = [1, 1] := by
  refine ⟨_, ⟨4, 0, 0, 2, 1, 1⟩, _, _,
    ⟨⟨_, OpCode.CALL, _, poll_polled (.trivial (mainnetChainConfig.rules 0)) _, ⟨rfl, rfl⟩, rfl,
      rfl⟩, ⟨[], 100, rfl⟩, ⟨0, rfl⟩, rfl⟩, rfl, rfl, rfl, rfl⟩

end Virbicoin.Vm
