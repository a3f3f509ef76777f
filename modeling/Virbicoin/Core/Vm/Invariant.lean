import Virbicoin.Core.Vm.GasBound

/-!
# Invariants of an execution

`Invariant env E I J` lists what has to be checked of a property of the state so that it holds
through every execution: of a frame while it runs (`I`) and of what it returns (`J`). The conditions
are about the single changes that the virtual machine makes. Frames, reverts, nesting and the order
of the operations are dealt with once, in `run_keeps`.

The property may speak about the gas of the frame, and it may have a parameter `b` that a nested
frame chooses anew: the gas of the caller is set apart while the callee runs (`nest`), and the
callee may run under the read-only flag (`enter`). `E` tells which abortions of the run are
possible.
-/

namespace Virbicoin.Vm

open Lib State Params

/-- The same state, up to preimages, the access list and what belongs to the execution alone. -/
structure SameState (evm evm' : Evm) : Prop where
  world : evm'.world = { evm.world with
    preimages := evm'.world.preimages, accessList := evm'.world.accessList }
  readOnly : evm'.readOnly = evm.readOnly
  destroyed : evm'.destroyed = evm.destroyed

namespace SameState

variable {evm evm1 evm2 evm3 : Evm}

theorem refl (evm : Evm) : SameState evm evm := ⟨rfl, rfl, rfl⟩

theorem trans (h : SameState evm1 evm2) (h' : SameState evm2 evm3) : SameState evm1 evm3 := by
  refine ⟨?_, h'.readOnly.trans h.readOnly, h'.destroyed.trans h.destroyed⟩
  rw [h'.world, h.world]

theorem account (h : SameState evm1 evm2) : evm2.world.account = evm1.world.account := by
  rw [h.world]

theorem refund (h : SameState evm1 evm2) : evm2.world.refund = evm1.world.refund := by rw [h.world]

end SameState

def Protected (env : Env) (evm : Evm) : Prop :=
  evm.readOnly = true ∧ env.rules.isByzantium = true

structure Invariant (env : Env) (E : Abort → Prop) {β : Type} (I J : β → Nat → Evm → Prop) :
    Prop where
  /-- The rest of the state does not matter, nor does a loss of gas. -/
  same : ∀ {b g g' evm evm'}, I b g evm → SameState evm evm' → g' ≤ g → I b g' evm'
  same' : ∀ {b g g' evm evm'}, J b g evm → SameState evm evm' → g' ≤ g → J b g' evm'
  result : ∀ {b g evm}, I b g evm → J b g evm
  log : ∀ {b g evm} log, ¬ Protected env evm → I b g evm →
    I b g { evm with world := evm.world.addLog log }
  /-- A store, from before its metering on. -/
  store : ∀ {b m op o m₁ slot value s}, ¬ Protected env m.evm → Consistent op o →
    o.execute = .sstore → prepare env op o m = .ok m₁ → Prepared env op o m m₁ →
    m₁.loc.stack = slot :: value :: s → I b m.contract.gas m.evm →
    I b m₁.contract.gas { m₁.evm with
      world := m₁.evm.world.setState env.keccak m₁.contract.self slot value }
  panic : ∀ {b m op o f}, Consistent op o → o.execute = .sstore → I b m.contract.gas m.evm →
    f = .refund ∨ f = .accessList → prepare env op o m = .error (.fault f) → E (.fault f)
  allowed : ∀ a, a ≠ .fault .refund → a ≠ .fault .accessList → E a
  suicide : ∀ {b m op o m₁} beneficiary, ¬ Protected env m.evm → Consistent op o →
    o.execute = .suicide → prepare env op o m = .ok m₁ → Prepared env op o m m₁ →
    I b m.contract.gas m.evm →
    J b m₁.contract.gas { m₁.evm with
      world := suicideWorld env m₁.contract.self beneficiary m₁.evm.world
      destroyed := if beneficiary = m₁.contract.self then
          m₁.evm.destroyed + m₁.evm.world.getBalance m₁.contract.self
        else m₁.evm.destroyed }
  /-- A frame that is given `gi` of the gas, while `g'` is set apart. -/
  nest : ∀ {b g evm} g' gi, I b g evm → g' + gi < g →
    ∃ b', I b' gi evm ∧ ∀ gr evm', J b' gr evm' → I b (g' + gr) evm'
  enter : ∀ {b g evm} readOnly, I b g evm →
    ∃ b', I b' g (enter readOnly evm) ∧
      ∀ r : Result, J b' r.gas r.evm → J b r.gas (leave readOnly evm r).evm
  revert : ∀ {b g g' evm evm'}, I b g evm → J b g' evm' → ∀ gr, gr ≤ g →
    J b gr (evm'.revertToSnapshot evm)
  call : ∀ {b g evm} caller addr value,
    value = 0 ∨ (¬ Protected env evm ∧ canTransfer evm.world caller value = true) →
    I b g evm → I b g { evm with world := callWorld env caller addr value evm.world }
  touch : ∀ {b g evm} addr, I b g evm →
    I b g { evm with world := evm.world.addBalance env.keccak addr 0 }
  bump : ∀ {b g evm} caller address, ¬ Protected env evm → I b g evm →
    I b g { evm with world := bumpNonce env caller address evm.world }
  deploy : ∀ {b g evm} caller address value, ¬ Protected env evm → I b g evm →
    I b g { evm with world := newContractWorld env caller address value evm.world }
  setCode : ∀ {b g g' evm evm'} address code, ¬ Protected env evm → I b g evm → J b g' evm' →
    J b g' { evm' with world := evm'.world.setCode env.keccak address code }

/-! ## Calls and creations -/

def RunKeeps {β : Type} (E : Abort → Prop) (I J : β → Nat → Evm → Prop) (run : RunFn) : Prop :=
  ∀ b c input readOnly evm, I b c.gas evm →
    Ensures E (fun r => J b r.gas r.evm ∧ r.gas ≤ c.gas) (run c input readOnly evm)

section Calls

variable {β : Type} {env : Env} {E : Abort → Prop} {I J : β → Nat → Evm → Prop} {run : RunFn}
variable {b : β} {evm : Evm} {gas : Nat} {input : Bytes} {addr caller : Address}

variable (hI : Invariant env E I J)
include hI

theorem Invariant.settle {r : CallResult} {g : Nat} (hevm : I b g evm) (h : J b r.leftOverGas r.evm)
    (hle : r.leftOverGas ≤ g) :
    J b (r.settle evm).leftOverGas (r.settle evm).evm := by
  rcases settle_cases r evm with hs | ⟨g', hg', hs⟩
  · rw [hs]
    exact h
  · rw [hs]
    exact hI.revert hevm h g' (hg'.trans hle)

variable (hrun : RunKeeps E I J run)
include hrun

variable (hevm : I b gas evm)
include hevm

theorem Invariant.serves {c : Contract} {readOnly : Bool} {evm1 : Evm} (hgas : c.gas = gas)
    (hevm1 : I b gas evm1) :
    Serves env run E (fun r => J b r.leftOverGas r.evm) addr input evm c readOnly evm1 := by
  subst hgas
  refine ⟨hI.result hevm1, fun p _ => ?_, ?_⟩
  · have hle := runPrecompiledContract_gas_le env p input c.gas evm1
    refine hI.settle hevm (hI.same' (hI.result hevm1) ?_ hle) hle
    unfold runPrecompiledContract
    dsimp only
    split <;> exact .refl _
  · exact (hrun b c input readOnly evm1 hevm1).imp fun r hr => hI.settle hevm hr.1 hr.2

theorem Invariant.call_of {value : Int}
    (hcall : value = 0 ∨ canTransfer evm.world caller value = true →
      I b gas { evm with world := callWorld env caller addr value evm.world }) :
    Ensures E (fun r => J b r.leftOverGas r.evm)
      (Vm.call env run caller addr input gas value evm) := by
  refine call_ensures (fun _ => hI.result hevm) ?_
  rintro hafford _ rfl
  exact hI.serves hrun hevm rfl (hcall hafford)

omit hevm in
theorem Invariant.invoke_keeps {kind : CallKind} {m : Machine} {a : CallArgs} (hevm : I b gas m.evm)
    (hvalue : kind = .call → a.value = 0 ∨ ¬ Protected env m.evm) :
    Ensures E (fun r => J b r.leftOverGas r.evm) (Vm.invoke env run kind m a input gas) := by
  cases kind with
  | call =>
    refine hI.call_of hrun hevm fun hafford => hI.call _ _ _ ?_ hevm
    rcases hvalue rfl with h | h
    · rw [h]
      exact .inl rfl
    · exact hafford.imp_right fun h' => ⟨h, h'⟩
  | callCode => exact callCode_ensures (fun _ => hI.result hevm) (hI.serves hrun hevm rfl hevm)
  | delegateCall =>
    exact delegateCall_ensures (fun _ => hI.result hevm) (hI.serves hrun hevm rfl hevm)
  | staticCall =>
    refine staticCall_ensures (fun _ => hI.result hevm) ?_
    rintro _ rfl
    exact hI.serves hrun hevm rfl (hI.touch _ hevm)

theorem Invariant.createAt_of (code : Bytes) (value : Int) (address : Address)
    (hbump : I b gas { evm with world := bumpNonce env caller address evm.world })
    (hdeploy : ∀ evm1 : Evm, evm1.readOnly = evm.readOnly → I b gas evm1 →
      I b gas { evm1 with world := newContractWorld env caller address value evm1.world })
    (hcode : ∀ g' evm' code, J b g' evm' →
      J b g' { evm' with world := evm'.world.setCode env.keccak address code }) :
    Ensures E (fun r => J b r.leftOverGas r.evm)
      (Vm.createAt env run caller code gas value address evm) := by
  refine createAt_ensures (fun _ => hI.result hevm) ?_ ?_
  · rintro _ rfl
    exact hI.same' (hI.result hbump) (SameState.refl _) (Nat.zero_le _)
  rintro evm1 hevm1 - evm2 hevm2
  rw [← hevm1] at hbump
  have hdeploy := hdeploy evm1 (by rw [hevm1]) hbump
  rw [← hevm2] at hdeploy
  refine ⟨hI.result hdeploy, (hrun b _ _ _ _ hdeploy).imp fun r hr => ?_⟩
  obtain ⟨hle, h | h | ⟨code, -, h⟩⟩ := finishCreate_cases env address evm1 r
  · rw [h]
    exact hI.same' hr.1 (.refl _) hle
  · rw [h]
    exact hI.revert hbump hr.1 _ (hle.trans hr.2)
  · rw [h]
    exact hI.same' (hcode _ _ code hr.1) (.refl _) hle

theorem Invariant.createAt_keeps (hprot : ¬ Protected env evm) (code : Bytes) (value : Int)
    (address : Address) :
    Ensures E (fun r => J b r.leftOverGas r.evm)
      (Vm.createAt env run caller code gas value address evm) := by
  refine hI.createAt_of hrun hevm code value address (hI.bump caller address hprot hevm) ?_ ?_
  · intro evm1 hro h
    refine hI.deploy caller address value ?_ h
    unfold Protected
    rw [hro]
    exact hprot
  · exact fun _ _ code h => hI.setCode address code hprot hevm h

end Calls

/-! ## Operations -/

section Operations

variable {β : Type} {env : Env} {E : Abort → Prop} {I J : β → Nat → Evm → Prop} {run : RunFn}
variable {b : β} {op : OpCode} {o : Operation} {m m₁ : Machine}

section

variable (hp : Prepared env op o m m₁)
include hp

theorem Prepared.sameState (hrefund : m₁.evm.world.refund = m.evm.world.refund) :
    SameState m.evm m₁.evm := by
  obtain ⟨_, -, -, _, ⟨_, _, _, refund, _, rfl⟩, rfl⟩ := hp.frame
  subst hrefund
  exact ⟨rfl, rfl, rfl⟩

theorem Prepared.readOnly : m₁.evm.readOnly = m.evm.readOnly := by
  obtain ⟨_, -, -, _, ⟨_, _, _, _, _, rfl⟩, rfl⟩ := hp.frame
  rfl

theorem Prepared.protected_iff : Protected env m₁.evm ↔ Protected env m.evm := by
  rw [Protected, hp.readOnly, Protected]

theorem Prepared.not_protected (hwrites : o.writes = true) : ¬ Protected env m.evm := by
  rintro ⟨hro, hbyz⟩
  have := (hp.protect hro hbyz).1
  rw [hwrites] at this
  cases this

end

variable (hI : Invariant env E I J)
include hI

theorem Invariant.own {s : Stop} (h : s.Own) : s.lift E := by
  match s, h with
  | .error e, _ => trivial
  | .abort (.fault f), h => refine hI.allowed _ ?_ ?_ <;> rintro ⟨⟩ <;> cases h

theorem Invariant.addGas_keeps (x y : Nat) :
    Ensures (Stop.lift E) (fun z => z = x + y) (addGas x y) := by
  exact .ite (fun _ => .ok rfl) fun _ => .error (hI.allowed _ nofun nofun)

section

variable (hrun : RunKeeps E I J run) (hp : Prepared env op o m m₁) (h : I b m.contract.gas m.evm)
include hrun hp h

theorem Invariant.opCall_keeps (hc : Consistent op o) {kind : CallKind}
    (hkind : o.execute = .call kind) :
    Ensures (Stop.lift E) (fun r => I b r.1.contract.gas r.1.evm) (opCall env run kind m₁) := by
  obtain ⟨hrefund, hlt, -⟩ := hp.call kind hkind
  refine ((popCallArgs_own _ _).weaken fun _ => hI.own).bind ?_
  rintro ⟨a, s⟩ ha
  refine (getPtr_own.weaken fun _ => hI.own).bind fun args _ => ?_
  refine .bind (Q := fun gas => m₁.contract.gas + gas < m.contract.gas)
    (.ite (fun hne => ?_) fun _ => .ok hlt) fun gas hgas => ?_
  · have hbound := hp.stipend_lt hkind ha hne
    generalize callStipend = stipend at hbound ⊢
    refine (hI.addGas_keeps _ _).imp fun z hz => ?_
    omega
  obtain ⟨b', hb', hback⟩ := hI.nest m₁.contract.gas gas h hgas
  have hb' : I b' gas m₁.evm := hI.same hb' (hp.sameState hrefund) le_rfl
  have hvalue : kind = .call → a.value = 0 ∨ ¬ Protected env m₁.evm := by
    rintro rfl
    by_cases hprot : Protected env m.evm
    · left
      have hflags := hc.fits
      rw [hkind] at hflags
      simp only [Execute.fits, bne_self_eq_false, Bool.false_or, Bool.and_eq_true, beq_iff_eq]
        at hflags
      have hzero := (hp.protect hprot.1 hprot.2).2 hflags.1.1.1.1.2
      rw [hp.stack] at ha
      rw [ha.value_eq] at hzero
      exact Option.some.inj hzero
    · exact .inr (hp.protected_iff.not.2 hprot)
  refine .bind (returning_ensures (hI.invoke_keeps hrun hb' hvalue)) fun r hr => ?_
  refine ((writeOutput_own r a _).weaken fun _ => hI.own).bind fun memory _ => ?_
  refine ((r.ret.read_own a _).weaken fun _ => hI.own).bind fun res _ => ?_
  refine (hI.addGas_keeps _ _).bind fun gas' hgas' => .ok ?_
  subst hgas'
  exact hback _ _ hr

theorem Invariant.creation_keeps (hlt : m₁.contract.gas < m.contract.gas)
    (hsame : SameState m.evm m₁.evm) (hprot : ¬ Protected env m.evm) {gas : Nat}
    (hgas : gas ≤ m₁.contract.gas) (caller address : Address) (input : Bytes) (value : Int)
    (s : List Word) (stackvalue : CreateResult → Word) :
    Ensures (Stop.lift E) (fun r => I b r.1.contract.gas r.1.evm)
      (returning (createAt env run caller input gas value address (m₁.useGas gas).evm) >>=
        fun r => finishOpCreate (m₁.useGas gas) s r (stackvalue r)) := by
  obtain ⟨b', hb', hback⟩ := hI.nest (m₁.contract.gas - gas) gas h (by omega)
  have hb' : I b' gas (m₁.useGas gas).evm := hI.same hb' hsame le_rfl
  have hprot1 : ¬ Protected env (m₁.useGas gas).evm := hp.protected_iff.not.2 hprot
  refine .bind (returning_ensures (hI.createAt_keeps hrun hb' hprot1 _ _ _)) fun r hr => ?_
  refine (hI.addGas_keeps _ _).bind fun gas' hgas' => .ok ?_
  subst hgas'
  exact hback _ _ hr

def Executed (I J : β → Nat → Evm → Prop) (b : β) (x : Execute) (r : Machine × Bytes) : Prop :=
  match x with
  | .suicide => J b r.1.contract.gas r.1.evm
  | _ => I b r.1.contract.gas r.1.evm

theorem Invariant.execute_keeps (hc : Consistent op o) (hprep : prepare env op o m = .ok m₁) :
    Ensures (Stop.lift E) (Executed I J b o.execute) (execute env run o.execute m₁) := by
  have hflags := hc.fits
  -- an operation that is not a store, a self-destruct or a call only pays for itself
  have hquiet : o.dynamicGas.all GasFunc.quiet = true → SameState m.evm m₁.evm :=
    fun hq => hp.sameState (hp.quiet hq).1
  cases hx : o.execute with
  | loc lop =>
    have hsame : SameState m.evm m₁.evm := by
      refine hquiet ?_
      rw [hx] at hflags
      cases lop with
      | dup size | push size =>
        simp only [Execute.fits, Bool.and_eq_true, Option.isNone_iff_eq_none] at hflags
        rw [hflags.2]
        rfl
      | _ => exact hflags
    refine (lop.exec_own.bind fun r _ => .ok ?_).weaken fun _ => hI.own
    exact hI.same h hsame hp.gas_le
  | sha3 =>
    have hsame := hquiet (by rw [hx] at hflags; exact hflags)
    refine opSha3_own.mono (fun _ => hI.own) ?_
    rintro ⟨_, _⟩ ⟨l, world, hworld, rfl⟩
    refine hI.same h (hsame.trans ?_) hp.gas_le
    rcases hworld with rfl | ⟨hash, data, rfl⟩
    · exact .refl _
    unfold World.addPreimage
    split <;> exact ⟨rfl, rfl, rfl⟩
  | sstore =>
    rw [hx] at hflags
    simp only [Execute.fits, Bool.and_eq_true] at hflags
    refine opSstore_own.mono (fun _ => hI.own) ?_
    rintro ⟨_, _⟩ ⟨slot, value, s, hstack, rfl⟩
    exact hI.store (hp.not_protected hflags.1.1.1) hc hx hprep hp hstack h
  | log size =>
    rw [hx] at hflags
    simp only [Execute.fits, Bool.and_eq_true] at hflags
    have hprot : ¬ Protected env m₁.evm := hp.protected_iff.not.2 (hp.not_protected hflags.1)
    refine (makeLog_own size).mono (fun _ => hI.own) ?_
    rintro ⟨_, _⟩ ⟨l, log, rfl⟩
    exact hI.log log hprot (hI.same h (hquiet hflags.2) hp.gas_le)
  | suicide =>
    rw [hx] at hflags
    simp only [Execute.fits, Bool.and_eq_true] at hflags
    refine opSuicide_own.mono (fun _ => hI.own) ?_
    rintro ⟨_, _⟩ ⟨l, beneficiary, rfl⟩
    exact hI.suicide beneficiary (hp.not_protected hflags.1.1) hc hx hprep hp h
  | create | create2 =>
    rw [hx] at hflags
    simp only [Execute.fits, Bool.and_eq_true, Bool.not_eq_true'] at hflags
    obtain ⟨⟨⟨hwrites, hq⟩, hhalts⟩, hreverts⟩ := hflags
    refine creation_ensures (fun _ => hI.own) (by simp) fun gas hgas _ _ _ _ _ => ?_
    exact hI.creation_keeps hrun hp h (hp.gas_lt hhalts hreverts) (hquiet hq)
      (hp.not_protected hwrites) hgas _ _ _ _ _ _
  | call kind => exact hI.opCall_keeps hrun hp h hc hx

/-! ## Steps and runs -/

def StepKeeps (I J : β → Nat → Evm → Prop) (b : β) : Machine ⊕ Result → Prop
  | .inl m => I b m.contract.gas m.evm
  | .inr r => J b r.gas r.evm

end

theorem Invariant.conclude_keeps (hc : Consistent op o) {r : Machine × Bytes}
    (h : Executed I J b o.execute r) :
    StepKeeps I J b (conclude o r.1 r.2) := by
  -- the buffer for return data is not part of the property
  have hsame : ∀ returnData, SameState r.1.evm { r.1.evm with returnData } := fun _ =>
    ⟨rfl, rfl, rfl⟩
  have hJ : J b r.1.contract.gas r.1.evm := by
    cases hx : o.execute with
    | suicide =>
      rw [hx] at h
      exact h
    | _ =>
      rw [hx] at h
      exact hI.result h
  refine conclude_cases (fun _ _ _ => hI.same' hJ (hsame _) le_rfl) fun hhalts _ _ => ?_
  refine hI.same ?_ (hsame _) le_rfl
  cases hx : o.execute with
  | suicide =>
    have hflags := hc.fits
    rw [hx] at hflags
    simp [Execute.fits, hhalts] at hflags
  | _ =>
    rw [hx] at h
    exact h

theorem Invariant.stepWith_keeps (hrun : RunKeeps E I J run) (h : I b m.contract.gas m.evm) :
    Ensures E (StepKeeps I J b) (stepWith env run m) := by
  have hpolled : ∀ m', Polled m m' → I b m'.contract.gas m'.evm := by
    rintro _ ⟨_, _, rfl⟩
    exact hI.same h ⟨rfl, rfl, rfl⟩ le_rfl
  refine stepWith_ensures (fun m' hm' err => hI.result (hpolled m' hm')) ?_ ?_
  · intro m' op o hm' hfetch hx f hf hprep
    exact hI.panic hfetch.consistent hx (hpolled m' hm') hf hprep
  intro m' op o m₁ hm' hfetch hprep hp
  exact (hI.execute_keeps hrun hp (hpolled m' hm') hfetch.consistent hprep).imp
    fun r hr => hI.conclude_keeps hfetch.consistent hr

theorem Invariant.runWith_keeps {loop : Machine → Except Abort Result}
    (h : ∀ b m, I b m.contract.gas m.evm → Ensures E
      (fun r => J b r.gas r.evm ∧ r.gas ≤ m.contract.gas) (loop m)) :
    RunKeeps E I J (runWith loop) := by
  intro b c input readOnly evm hevm
  obtain ⟨b', hb', hback⟩ := hI.enter readOnly hevm
  refine runWith_ensures ⟨hback ⟨[], none, c.gas, Vm.enter readOnly evm⟩ (hI.result hb'), le_rfl⟩ ?_
  exact (h b' _ hb').imp fun r hr => ⟨hback r hr.1, hr.2⟩

theorem Invariant.loop_keeps (n : Nat) (b : β) (m : Machine) (h : I b m.contract.gas m.evm) :
    Ensures E (fun r => J b r.gas r.evm ∧ r.gas ≤ m.contract.gas)
      (Lib.loop (step env) .fuel n m) := by
  revert b h
  refine loop_spec (fun _ m x => ∀ b, I b m.contract.gas m.evm →
    Ensures E (fun r : Result => J b r.gas r.evm ∧ r.gas ≤ m.contract.gas) x) ?_ ?_ n m
  · intro m b _
    exact Ensures.error (hI.allowed _ nofun nofun)
  intro n ih m b h
  have hstep : Ensures E (StepKeeps I J b) (step env (loop (step env) .fuel n) m) :=
    hI.stepWith_keeps (hI.runWith_keeps fun b m => ih m b) h
  have hgas : Ensures (GasError (n + 1) m.contract.gas) (StepGas m)
      (step env (loop (step env) .fuel n) m) := stepWith_gas (runWith_gas loop_gas) m
  refine advance_cases (fun e he => hstep.of_error he) (fun m' hm' => ?_) fun r hr => ?_
  · have hlt : m'.contract.gas < m.contract.gas := hgas.of_ok hm'
    exact (ih m' b (hstep.of_ok hm')).imp fun r hr => ⟨hr.1, hr.2.trans hlt.le⟩
  · exact ⟨hstep.of_ok hr, hgas.of_ok hr⟩

theorem Invariant.run_keeps (n : Nat) : RunKeeps E I J (Vm.run env n) :=
  hI.runWith_keeps fun b m => hI.loop_keeps n b m

end Operations

end Virbicoin.Vm
