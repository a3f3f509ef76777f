import Virbicoin.Core.State.Observe
import Virbicoin.Core.Vm.Invariant

/-!
# Static calls

The read-only flag is set by the outermost static frame and stays set in all frames below it, which
are started without it: `enter` only adds to the flag, and `leave` resets it in the frame that set
it. While it is set, an operation that writes is refused by the `writes` column of the instruction
set, and a `CALL` by its value, so what is left are transfers of nothing. These touch accounts and
create empty ones (`Unmodified`).
-/

namespace Virbicoin.Vm

open Lib State Params

/-- The state `w'` differs from `w` by new empty accounts, preimages and the access list only. -/
structure Unmodified (keccak : Bytes → Hash) (w w' : World) : Prop where
  account : ∀ a, w'.getStateObject a = w.getStateObject a ∨
    (w.getStateObject a = none ∧ w'.getStateObject a = some (World.newAcct keccak))
  rest : w' = { w with
    account := w'.account, preimages := w'.preimages, accessList := w'.accessList }

namespace Unmodified

variable {keccak : Bytes → Hash} {w w1 w2 w3 : World}

theorem refl (w : World) : Unmodified keccak w w := ⟨fun _ => .inl rfl, rfl⟩

theorem trans (h : Unmodified keccak w1 w2) (h' : Unmodified keccak w2 w3) :
    Unmodified keccak w1 w3 := by
  refine ⟨fun a => ?_, ?_⟩
  · rcases h'.account a with h2 | ⟨h2, h2'⟩
    · rw [h2]
      exact h.account a
    rcases h.account a with h1 | ⟨-, h1'⟩
    · exact .inr ⟨h1 ▸ h2, h2'⟩
    rw [h1'] at h2
    cases h2
  · rw [h'.rest, h.rest]

theorem set_getOrNew {amount : Int} (hamount : amount = 0) (addr : Address) :
    Unmodified keccak w (w.set addr { w.getOrNew keccak addr with
      balance := (w.getOrNew keccak addr).balance + amount }) := by
  subst hamount
  rw [Int.add_zero]
  refine ⟨fun a => ?_, rfl⟩
  rw [World.getStateObject_of_set World.getOrNew_deleted]
  split
  · rename_i ha
    subst ha
    unfold World.getOrNew
    cases h : w.getStateObject a with
    | none => exact .inr ⟨rfl, rfl⟩
    | some acct => exact .inl rfl
  · exact .inl rfl

theorem addBalance (w : World) (addr : Address) :
    Unmodified keccak w (w.addBalance keccak addr 0) :=
  set_getOrNew rfl addr

theorem subBalance (w : World) (addr : Address) :
    Unmodified keccak w (w.subBalance keccak addr 0) :=
  set_getOrNew rfl addr

theorem createAccount {addr : Address} (h : w.exist addr = false) :
    Unmodified keccak w (w.createAccount keccak addr) := by
  have hnone : w.getStateObject addr = none := by
    unfold World.exist at h
    simpa using h
  have hbalance : w.getBalance addr = 0 := by
    unfold World.getBalance
    rw [hnone]
    rfl
  refine ⟨fun a => ?_, rfl⟩
  unfold World.createAccount
  rw [World.getStateObject_of_set rfl, hbalance]
  split
  · rename_i ha
    subst ha
    exact .inr ⟨hnone, rfl⟩
  · exact .inl rfl

theorem callWorld (env : Env) (w : World) (caller addr : Address) :
    Unmodified env.keccak w (callWorld env caller addr 0 w) := by
  unfold Vm.callWorld transfer
  refine .trans ?_ ((subBalance _ caller).trans (addBalance _ addr))
  split
  · rename_i h
    exact createAccount (by simpa using h)
  · exact refl w

/-! ### What can be seen -/

theorem observation {α : Type} (f : Acct → α) (d : α) (hnew : f (World.newAcct keccak) = d)
    (h : Unmodified keccak w w1) (a : Address) :
    (w1.getStateObject a).elim d f = (w.getStateObject a).elim d f := by
  rcases h.account a with h | ⟨h, h'⟩
  · rw [h]
  rw [h, h']
  exact hnew

end Unmodified

/-! ## The invariant -/

/-- The flag, and since it is set the state is unmodified. -/
def ReadOnly (env : Env) (b : Bool × World) (_ : Nat) (evm : Evm) : Prop :=
  evm.readOnly = b.1 ∧ (b.1 = true → Unmodified env.keccak b.2 evm.world)

namespace ReadOnly

variable {env : Env} {b : Bool × World} {g g' : Nat} {evm evm' : Evm}

theorem same (h : ReadOnly env b g evm) (hs : SameState evm evm') : ReadOnly env b g' evm' := by
  refine ⟨hs.readOnly.trans h.1, fun hb => (h.2 hb).trans ⟨fun a => .inl ?_, ?_⟩⟩
  · unfold World.getStateObject
    rw [hs.account]
  · have hw := hs.world
    rw [hw]

theorem unprotected (hbyz : env.rules.isByzantium = true) (h : ReadOnly env b g evm)
    (hprot : ¬ Protected env evm) (hro : evm'.readOnly = b.1) : ReadOnly env b g' evm' :=
  ⟨hro, fun hb => absurd ⟨h.1.trans hb, hbyz⟩ hprot⟩

theorem modify (h : ReadOnly env b g evm) {world : World}
    (hw : Unmodified env.keccak evm.world world) : ReadOnly env b g { evm with world } :=
  ⟨h.1, fun hb => (h.2 hb).trans hw⟩

end ReadOnly

theorem readOnly_invariant {env : Env} (hbyz : env.rules.isByzantium = true) :
    Invariant env (fun _ => True) (ReadOnly env) (ReadOnly env) where
  same := fun h hs _ => h.same hs
  same' := fun h hs _ => h.same hs
  result := id
  log := fun _ hprot h => h.unprotected hbyz hprot h.1
  store := fun hprot _ _ _ hp _ h => h.unprotected hbyz hprot (hp.readOnly.trans h.1)
  panic := fun _ _ _ _ _ => trivial
  allowed := fun _ _ _ => trivial
  suicide := fun _ hprot _ _ _ hp h => h.unprotected hbyz hprot (hp.readOnly.trans h.1)
  nest := fun _ _ h _ => ⟨_, h, fun _ _ h' => h'⟩
  enter := by
    intro b g evm readOnly h
    refine ⟨(b.1 || readOnly, if b.1 then b.2 else evm.world), ⟨?_, fun _ => ?_⟩, fun r hr => ?_⟩
    · exact congrArg (· || readOnly) h.1
    · split
      · exact h.2 ‹_›
      · exact .refl _
    obtain ⟨hro, hmod⟩ := hr
    unfold leave
    refine ⟨?_, fun hb => ?_⟩
    · rw [hro, h.1]
      cases b.1 <;> cases readOnly <;> rfl
    · have := hmod (by simp [hb])
      rwa [if_pos hb] at this
  revert := fun h h' _ _ => ⟨h'.1, h.2⟩
  call := by
    rintro b g evm caller addr value (rfl | ⟨hprot, -⟩) h
    · exact h.modify (.callWorld env _ caller addr)
    · exact h.unprotected hbyz hprot h.1
  touch := fun addr h => h.modify (.addBalance _ addr)
  bump := fun _ _ hprot h => h.unprotected hbyz hprot h.1
  deploy := fun _ _ _ hprot h => h.unprotected hbyz hprot h.1
  setCode := fun _ _ hprot h h' => h.unprotected hbyz hprot h'.1

theorem staticCall_unmodified {env : Env} (hbyz : env.rules.isByzantium = true) (n : Nat)
    (caller addr : Address) (input : Bytes) (gas : Nat) (evm : Evm) :
    Ensures (fun _ => True)
      (fun r => Unmodified env.keccak evm.world r.evm.world ∧ r.evm.readOnly = evm.readOnly)
      (staticCall env (run env n) caller addr input gas evm) := by
  have hsettle : ∀ r : CallResult, Unmodified env.keccak evm.world r.evm.world →
      r.evm.readOnly = evm.readOnly →
      Unmodified env.keccak evm.world (r.settle evm).evm.world ∧
        (r.settle evm).evm.readOnly = evm.readOnly := by
    intro r hr hro
    rcases settle_cases r evm with h | ⟨_, -, h⟩
    · rw [h]
      exact ⟨hr, hro⟩
    · rw [h]
      exact ⟨.refl _, hro⟩
  refine staticCall_ensures (fun _ => ⟨.refl _, rfl⟩) ?_
  intro evm1 hevm1
  have htouch : Unmodified env.keccak evm.world evm1.world := by
    rw [hevm1]
    exact .addBalance _ addr
  have hro : evm1.readOnly = evm.readOnly := by rw [hevm1]
  refine ⟨⟨htouch, hro⟩, fun p _ => hsettle _ ?_ ?_, runWith_ensures (hsettle _ htouch ?_) ?_⟩
  · unfold runPrecompiledContract
    dsimp only
    split <;> exact htouch
  · unfold runPrecompiledContract
    dsimp only
    split <;> exact hro
  · rw [← hro]
    simp only [Result.toCallResult, leave, enter]
    cases evm1.readOnly <;> rfl
  refine ((readOnly_invariant hbyz).loop_keeps n (true, evm.world) _ ⟨Bool.or_true _, fun _ =>
    htouch⟩).imp fun r hr => hsettle _ (hr.1.2 rfl) ?_
  have hflag : r.evm.readOnly = true := hr.1.1
  rw [← hro]
  simp only [Result.toCallResult, leave, hflag]
  cases evm1.readOnly <;> rfl

/-- **Static calls cannot modify the world.** Afterwards balances, nonces, code, storage,
self-destruct marks and logs are the same, there are new empty accounts at most, and the read-only
flag is what it was. -/
theorem static_calls_modify_nothing (env : Env) (hbyz : env.rules.isByzantium = true) (n : Nat)
    (caller addr : Address) (input : Bytes) (gas : Nat) (evm : Evm) (r : CallResult)
    (h : staticCall env (run env n) caller addr input gas evm = .ok r) :
    (∀ a, r.evm.world.getBalance a = evm.world.getBalance a) ∧
    (∀ a, r.evm.world.getNonce a = evm.world.getNonce a) ∧
    (∀ a, r.evm.world.getCode a = evm.world.getCode a) ∧
    (∀ a key, r.evm.world.getState a key = evm.world.getState a key) ∧
    (∀ a, r.evm.world.hasSuicided a = evm.world.hasSuicided a) ∧
    r.evm.world.logs = evm.world.logs ∧
    Unmodified env.keccak evm.world r.evm.world ∧ r.evm.readOnly = evm.readOnly := by
  obtain ⟨hmod, hro⟩ := (staticCall_unmodified hbyz n caller addr input gas evm).of_ok h
  refine ⟨hmod.observation _ _ rfl, hmod.observation _ _ rfl, hmod.observation _ _ rfl,
    fun a key => hmod.observation (Acct.storage · key) _ rfl a, hmod.observation _ _ rfl, ?_, hmod,
    hro⟩
  rw [hmod.rest]

theorem static_calls_modify_nothing_sstore :
    ∃ r, staticCall (Env.trivial (mainnetChainConfig.rules 0))
        (run (Env.trivial (mainnetChainConfig.rules 0)) 5) 5 1000 [] 30000
        { world := {
          account := fun _ => some { World.newAcct (fun _ => 0) with
            code := some [0x60, 1, 0x60, 0, 0x55] } } } = .ok r ∧
      r.err = some .writeProtection ∧ r.evm.world.getState 1000 0 = 0 ∧ r.evm.readOnly = false := by
  obtain ⟨r, hr, herr⟩ : ∃ r, staticCall (.trivial (mainnetChainConfig.rules 0))
      (run (.trivial (mainnetChainConfig.rules 0)) 5) 5 1000 [] 30000
      { world := { account := fun _ => some { World.newAcct (fun _ => 0) with
          code := some [0x60, 1, 0x60, 0, 0x55] } } } = .ok r ∧
      r.err = some .writeProtection := ⟨_, rfl, rfl⟩
  obtain ⟨-, -, -, hstate, -, -, -, hro⟩ := static_calls_modify_nothing _ rfl _ _ _ _ _ _ r hr
  exact ⟨r, hr, herr, hstate 1000 0, hro⟩

end Virbicoin.Vm
