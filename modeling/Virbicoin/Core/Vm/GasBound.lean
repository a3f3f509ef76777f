import Virbicoin.Core.Vm.Effects

/-!
# Gas bounds the execution

Every operation that does not end its frame costs gas, and a call or creation gives back at most
what it was given. For a call with a value the free stipend is less than the price of the transfer.
So the gas of a frame goes down with every round, and it bounds the number of rounds that are nested
or follow each other (`loop_gas`). A gas addition that would wrap around is a fault of the model; it
does not happen, since the sum is bounded by the gas before the operation.
-/

namespace Virbicoin.Vm

open Lib State Params

/-- The ways in which a run with this gas and fuel does not end: with less gas than fuel it does not
run out of fuel, and no gas addition wraps around. -/
def GasError (n gas : Nat) (a : Abort) : Prop :=
  gas < 2 ^ 64 → a ≠ .fault .gas ∧ (gas < n → a ≠ .fuel)

namespace GasError

variable {n gas gas' : Nat} {a : Abort}

theorem succ (h : GasError n gas a) (hlt : gas < gas') : GasError (n + 1) gas' a := fun hgas =>
  ⟨(h (by omega)).1, fun hn => (h (by omega)).2 (by omega)⟩

theorem of_fault {f : Fault} (h : f ≠ .gas) : GasError n gas (.fault f) := fun _ =>
  ⟨fun h' => h (Abort.fault.inj h'), fun _ => nofun⟩

end GasError

theorem Stop.Own.gasError {s : Stop} {n gas : Nat} (h : s.Own) : s.lift (GasError n gas) := by
  match s, h with
  | .error e, _ => trivial
  | .abort (.fault f), h =>
    refine .of_fault ?_
    rintro rfl
    cases h

/-! ## Calls and creations -/

def RunGas (n : Nat) (run : RunFn) : Prop :=
  ∀ c input readOnly evm,
    Ensures (GasError n c.gas) (fun r => r.gas ≤ c.gas) (run c input readOnly evm)

section Calls

variable {env : Env} {run : RunFn} {n : Nat} {evm : Evm} {gas : Nat} {input : Bytes}
variable {addr caller : Address}

theorem settle_gas_le {r : CallResult} : (r.settle evm).leftOverGas ≤ r.leftOverGas := by
  rcases settle_cases r evm with h | ⟨g, hg, h⟩
  · rw [h]
  rw [h]
  exact hg

theorem runPrecompiledContract_gas_le (env : Env) (p : Precompile) (input : Bytes) (gas : Nat)
    (evm : Evm) : (runPrecompiledContract env p input gas evm).leftOverGas ≤ gas := by
  unfold runPrecompiledContract
  dsimp only
  split
  · exact Nat.zero_le _
  · exact Nat.sub_le _ _

variable (hrun : RunGas n run)
include hrun

theorem RunGas.serves {c : Contract} {readOnly : Bool} {evm1 : Evm} (hgas : c.gas = gas) :
    Serves env run (GasError n gas) (fun r => r.leftOverGas ≤ gas) addr input evm c readOnly
      evm1 := by
  subst hgas
  exact {
    idle := le_rfl
    native := fun _ _ => settle_gas_le.trans (runPrecompiledContract_gas_le _ _ _ _ _)
    frame := (hrun c input readOnly evm1).imp fun _ hr => settle_gas_le.trans hr }

theorem RunGas.call (value : Int) : Ensures (GasError n gas) (fun r => r.leftOverGas ≤ gas)
      (Vm.call env run caller addr input gas value evm) :=
  call_ensures (fun _ => le_rfl) fun _ _ _ => hrun.serves rfl

theorem RunGas.callCode (value : Int) : Ensures (GasError n gas) (fun r => r.leftOverGas ≤ gas)
      (Vm.callCode env run caller addr input gas value evm) :=
  callCode_ensures (fun _ => le_rfl) (hrun.serves rfl)

theorem RunGas.delegateCall (parent : Contract) :
    Ensures (GasError n gas) (fun r => r.leftOverGas ≤ gas)
      (Vm.delegateCall env run parent addr input gas evm) :=
  delegateCall_ensures (fun _ => le_rfl) (hrun.serves rfl)

theorem RunGas.staticCall : Ensures (GasError n gas) (fun r => r.leftOverGas ≤ gas)
      (Vm.staticCall env run caller addr input gas evm) :=
  staticCall_ensures (fun _ => le_rfl) fun _ _ => hrun.serves rfl

theorem RunGas.invoke (kind : CallKind) (m : Machine) (a : CallArgs) :
    Ensures (GasError n gas) (fun r => r.leftOverGas ≤ gas)
      (Vm.invoke env run kind m a input gas) := by
  cases kind with
  | call => exact hrun.call _
  | callCode => exact hrun.callCode _
  | delegateCall => exact hrun.delegateCall _
  | staticCall => exact hrun.staticCall

theorem RunGas.createAt (code : Bytes) (value : Int) (address : Address) :
    Ensures (GasError n gas) (fun r => r.leftOverGas ≤ gas)
      (Vm.createAt env run caller code gas value address evm) :=
  createAt_ensures (fun _ => le_rfl) (fun _ _ => Nat.zero_le _) fun evm1 _ _ evm2 _ =>
    ⟨le_rfl, (hrun _ _ _ evm2).imp fun r hr => (finishCreate_cases env address evm1 r).1.trans hr⟩

end Calls

/-! ## Instructions -/

section Instructions

variable {env : Env} {run : RunFn} {n : Nat} {m m1 : Machine}

theorem addGas_ensures {x y : Nat} (gas : Nat) (h : x + y ≤ gas) :
    Ensures (Stop.lift (GasError n gas)) (fun z => z = x + y) (addGas x y) := by
  refine .ite (fun _ => .ok rfl) fun hlt => .error fun hgas => ?_
  omega

def Pays (o : Operation) (m : Machine) (r : Machine × Bytes) : Prop :=
  r.1.contract.gas ≤ m.contract.gas ∧
    (o.halts = false → o.reverts = false → r.1.contract.gas < m.contract.gas)

variable {o : Operation} {op : OpCode} (hp : Prepared env op o m m1)
include hp

theorem Prepared.stipend_lt {kind : CallKind} {a : CallArgs} {s : List Word}
    (hkind : o.execute = .call kind) (ha : a.On kind.hasValue m1.loc.stack s) (hne : a.value ≠ 0) :
    m1.contract.gas + (m1.evm.callGasTemp + callStipend) < m.contract.gas := by
  rw [hp.stack] at ha
  have hstipend : callStipend ≤ callValueTransferGas := by decide
  cases hv : kind.hasValue with
  | false =>
    rw [hv] at ha
    obtain ⟨gas, hzero, -⟩ := ha
    exact absurd hzero hne
  | true =>
    rw [hv] at ha
    have := (hp.call kind hkind).2.2 hv a.value ha.value_eq hne
    omega

theorem opCall_pays {kind : CallKind} (hrun : RunGas n run) (hkind : o.execute = .call kind) :
    Ensures (Stop.lift (GasError (n + 1) m.contract.gas)) (Pays o m) (opCall env run kind m1) := by
  obtain ⟨-, hlt, -⟩ := hp.call kind hkind
  refine ((popCallArgs_own _ _).weaken fun _ => Stop.Own.gasError).bind ?_
  rintro ⟨a, s⟩ ha
  refine (getPtr_own.weaken fun _ => Stop.Own.gasError).bind fun args _ => ?_
  -- the gas of the callee and the gas that is left are below the gas before the operation
  refine .bind (Q := fun gas => m1.contract.gas + gas < m.contract.gas)
    (.ite (fun hne => ?_) fun _ => .ok hlt) fun gas hgas => ?_
  · have hbound := hp.stipend_lt hkind ha hne
    generalize callStipend = stipend at hbound ⊢
    refine (addGas_ensures m.contract.gas (by omega)).imp fun z hz => ?_
    omega
  refine .bind (returning_ensures ((hrun.invoke kind m1 a).weaken fun _ h => ?_)) fun r hr => ?_
  · exact h.succ (by omega)
  refine ((writeOutput_own r a _).weaken fun _ => Stop.Own.gasError).bind fun memory _ => ?_
  refine ((r.ret.read_own a _).weaken fun _ => Stop.Own.gasError).bind fun res _ => ?_
  refine (addGas_ensures m.contract.gas (by omega)).bind fun gas' hgas' => .ok ?_
  have : gas' < m.contract.gas := by omega
  exact ⟨this.le, fun _ _ => this⟩

theorem Prepared.pays {r : Machine × Bytes} (h : r.1.contract.gas ≤ m1.contract.gas) : Pays o m r :=
  ⟨h.trans hp.gas_le, fun hhalts hreverts => h.trans_lt (hp.gas_lt hhalts hreverts)⟩

theorem creation_pays (hrun : RunGas n run) (hlt : m1.contract.gas < m.contract.gas) {gas : Nat}
    (hgas : gas ≤ m1.contract.gas) (caller address : Address) (input : Bytes) (value : Int)
    (s : List Word) (stackvalue : CreateResult → Word) :
    Ensures (Stop.lift (GasError (n + 1) m.contract.gas)) (Pays o m)
      (returning (createAt env run caller input gas value address (m1.useGas gas).evm) >>=
        fun r => finishOpCreate (m1.useGas gas) s r (stackvalue r)) := by
  refine .bind (returning_ensures ((hrun.createAt _ _ _).weaken fun _ h => ?_)) fun r hr => ?_
  · exact h.succ (by omega)
  have hleft : (m1.useGas gas).contract.gas = m1.contract.gas - gas := rfl
  refine (addGas_ensures m.contract.gas (by omega)).bind fun gas' hgas' => .ok ?_
  exact hp.pays (by dsimp only; omega)

theorem keeps_gas {x : Except Stop (Machine × Bytes)}
    (h : Ensures Stop.Own (fun r => r.1.contract.gas = m1.contract.gas) x) :
    Ensures (Stop.lift (GasError (n + 1) m.contract.gas)) (Pays o m) x :=
  h.mono (fun _ => Stop.Own.gasError) fun _ hr => hp.pays hr.le

theorem execute_pays (hrun : RunGas n run) (hc : Consistent op o) :
    Ensures (Stop.lift (GasError (n + 1) m.contract.gas)) (Pays o m)
      (execute env run o.execute m1) := by
  have hfits := hc.fits
  cases hx : o.execute with
  | loc op => exact keeps_gas hp (op.exec_own.bind fun _ _ => .ok rfl)
  | sha3 =>
    refine keeps_gas hp (opSha3_own.imp ?_)
    rintro ⟨_, _⟩ ⟨_, _, -, rfl⟩
    rfl
  | sstore =>
    refine keeps_gas hp (opSstore_own.imp ?_)
    rintro ⟨_, _⟩ ⟨_, _, _, -, rfl⟩
    rfl
  | log size =>
    refine keeps_gas hp ((makeLog_own size).imp ?_)
    rintro ⟨_, _⟩ ⟨_, _, rfl⟩
    rfl
  | suicide =>
    refine keeps_gas hp (opSuicide_own.imp ?_)
    rintro ⟨_, _⟩ ⟨_, _, rfl⟩
    rfl
  | create | create2 =>
    rw [hx] at hfits
    simp only [Execute.fits, Bool.and_eq_true, Bool.not_eq_true'] at hfits
    refine creation_ensures (fun _ => Stop.Own.gasError) (by simp) fun gas hgas _ _ _ _ _ => ?_
    exact creation_pays hp hrun (hp.gas_lt hfits.1.2 hfits.2) hgas _ _ _ _ _ _
  | call kind => exact opCall_pays hp hrun hx

end Instructions

/-! ## Steps and runs -/

section Runs

variable {env : Env} {n : Nat}

theorem runWith_gas {loop : Machine → Except Abort Result}
    (h : ∀ m, Ensures (GasError n m.contract.gas) (fun r => r.gas ≤ m.contract.gas) (loop m)) :
    RunGas n (runWith loop) := fun _ _ _ _ =>
  runWith_ensures le_rfl ((h _).imp fun _ hr => hr)

def StepGas (m : Machine) : Machine ⊕ Result → Prop
  | .inl m' => m'.contract.gas < m.contract.gas
  | .inr r => r.gas ≤ m.contract.gas

theorem stepWith_gas {run : RunFn} (hrun : RunGas n run) (m : Machine) :
    Ensures (GasError (n + 1) m.contract.gas) (StepGas m) (stepWith env run m) := by
  refine stepWith_ensures ?_ ?_ ?_
  · rintro _ ⟨_, _, rfl⟩ err
    exact le_rfl
  · rintro m' op o - - - f (rfl | rfl) - <;> exact .of_fault nofun
  rintro _ op o m1 ⟨_, _, rfl⟩ hfetch - hp
  exact (execute_pays hp hrun hfetch.consistent).imp fun r hr =>
    conclude_cases (fun _ _ _ => hr.1) fun hhalts hreverts _ => hr.2 hhalts hreverts

/-- **Gas bounds the rounds.** -/
theorem loop_gas (m : Machine) :
    Ensures (GasError n m.contract.gas) (fun r => r.gas ≤ m.contract.gas)
      (Lib.loop (step env) .fuel n m) := by
  refine loop_spec (fun n m x =>
    Ensures (GasError n m.contract.gas) (fun r : Result => r.gas ≤ m.contract.gas) x) ?_ ?_ n m
  · intro m
    exact Ensures.error fun _ => ⟨nofun, fun h => absurd h (Nat.not_lt_zero _)⟩
  intro n ih m
  have hstep : Ensures (GasError (n + 1) m.contract.gas) (StepGas m)
      (step env (loop (step env) .fuel n) m) := stepWith_gas (runWith_gas ih) m
  refine advance_cases (fun e he => hstep.of_error he) (fun m' hm' => ?_) fun r hr => ?_
  · have hlt : m'.contract.gas < m.contract.gas := hstep.of_ok hm'
    exact (ih m').mono (fun _ h => h.succ hlt) fun _ hr => hr.trans hlt.le
  · exact hstep.of_ok hr

theorem run_gas (env : Env) (n : Nat) : RunGas n (run env n) := runWith_gas loop_gas

end Runs

/-! ## Main result -/

def GasSafe (a : Abort) : Prop := a ≠ .fuel ∧ a ≠ .fault .gas

/-- **Gas is never created and bounds the execution.** With more rounds than gas every call and
creation ends and returns at most the gas it was given, and no gas addition wraps around. -/
theorem gas_bounds_execution (env : Env) (gas n : Nat) (hgas : gas ≤ 2 ^ 63 - 1) (hn : gas < n)
    (evm : Evm) :
    (∀ caller addr input value, Ensures GasSafe (fun r => r.leftOverGas ≤ gas)
      (call env (run env n) caller addr input gas value evm)) ∧
    (∀ caller addr input value, Ensures GasSafe (fun r => r.leftOverGas ≤ gas)
      (callCode env (run env n) caller addr input gas value evm)) ∧
    (∀ parent addr input, Ensures GasSafe (fun r => r.leftOverGas ≤ gas)
      (delegateCall env (run env n) parent addr input gas evm)) ∧
    (∀ caller addr input, Ensures GasSafe (fun r => r.leftOverGas ≤ gas)
      (staticCall env (run env n) caller addr input gas evm)) ∧
    (∀ caller code value, Ensures GasSafe (fun r => r.leftOverGas ≤ gas)
      (create env (run env n) caller code gas value evm)) ∧
    (∀ caller code value salt, Ensures GasSafe (fun r => r.leftOverGas ≤ gas)
      (create2 env (run env n) caller code gas value salt evm)) ∧
    (∀ fuel m m', step env (Lib.loop (step env) .fuel fuel) m = .ok (.inl m') →
      m'.contract.gas < m.contract.gas) := by
  have hrun := run_gas env n
  have hsafe : ∀ a, GasError n gas a → GasSafe a := by
    intro a h
    obtain ⟨hfault, hfuel⟩ := h (by omega)
    exact ⟨hfuel hn, hfault⟩
  refine ⟨fun _ _ _ _ => (hrun.call _).weaken hsafe, fun _ _ _ _ => (hrun.callCode _).weaken hsafe,
    fun _ _ _ => (hrun.delegateCall _).weaken hsafe, fun _ _ _ => hrun.staticCall.weaken hsafe,
    fun _ _ _ => (hrun.createAt _ _ _).weaken hsafe,
    fun _ _ _ _ => (hrun.createAt _ _ _).weaken hsafe, fun fuel m m' h => ?_⟩
  exact (stepWith_gas (runWith_gas loop_gas) m).of_ok h

theorem gas_bounds_execution_jumpdest :
    ∃ r, call (Env.trivial (mainnetChainConfig.rules 0))
        (run (Env.trivial (mainnetChainConfig.rules 0)) 11) 5 1000 [] 10 0
        { world := {
          account := fun _ => some { World.newAcct (fun _ => 0) with code := some [0x5b] } } } =
          .ok r ∧
      r.leftOverGas = 9 ∧ r.leftOverGas ≤ 10 := by
  obtain ⟨r, hr, hleft⟩ : ∃ r, call (.trivial (mainnetChainConfig.rules 0))
      (run (.trivial (mainnetChainConfig.rules 0)) 11) 5 1000 [] 10 0
      { world := {
        account := fun _ => some { World.newAcct (fun _ => 0) with code := some [0x5b] } } } =
        .ok r ∧ r.leftOverGas = 9 := ⟨_, rfl, rfl⟩
  exact ⟨r, hr, hleft, ((gas_bounds_execution (.trivial (mainnetChainConfig.rules 0)) 10 11
    (by decide) (by decide) _).1 5 1000 [] 0).of_ok hr⟩

end Virbicoin.Vm
