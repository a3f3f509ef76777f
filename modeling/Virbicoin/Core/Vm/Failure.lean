import Virbicoin.Core.State.Observe
import Virbicoin.Core.Vm.Interpreter

/-!
# Failed calls and creations

An error of a call comes from the checks in front of it, which return the state as it is, or it
reaches `CallResult.settle`, which goes back to the snapshot taken before anything was changed. A
creation takes its snapshot after the nonce of the creator is used up and the new address is in the
access list; an error that is found after a successful execution is treated like one of the
execution, from Homestead on.
-/

namespace Virbicoin.Vm

open Lib State Params

/-- `w'` shows what `w` shows, except for these nonces and this access list. -/
structure Leaves (w w' : World) (nonces : Address → Nat) (al : AccessList) : Prop where
  balance : ∀ a, w'.getBalance a = w.getBalance a
  nonce : ∀ a, w'.getNonce a = nonces a
  code : ∀ a, w'.getCode a = w.getCode a
  storage : ∀ a key, w'.getState a key = w.getState a key
  suicided : ∀ a, w'.hasSuicided a = w.hasSuicided a
  logs : w'.logs = w.logs
  refund : w'.refund = w.refund
  accessList : w'.accessList = al

def NoTrace (w w' : World) : Prop := Leaves w w' w.getNonce w.accessList

theorem NoTrace.refl (w : World) : NoTrace w w :=
  ⟨fun _ => rfl, fun _ => rfl, fun _ => rfl, fun _ _ => rfl, fun _ => rfl, rfl, rfl, rfl⟩

/-- The gas after an error: none, unless it is a revert or comes from before the execution. -/
def GasAfter (e : VmError) (leftOverGas : Nat) : Prop :=
  e ≠ .executionReverted → e ≠ .depth → e ≠ .insufficientBalance → leftOverGas = 0

/-! ## Calls -/

def FailsCleanly (evm : Evm) (r : CallResult) : Prop :=
  ∀ e, r.err = some e → NoTrace evm.world r.evm.world ∧ GasAfter e r.leftOverGas

section Calls

variable {env : Env} {evm : Evm} {r : CallResult} {gas : Nat}

theorem callGuard_failsCleanly {affordable : Bool} (h : callGuard env evm gas affordable = some r) :
    FailsCleanly evm r := by
  unfold callGuard at h
  intro e he
  split at h
  · cases h
    cases he
  split at h
  · cases h
    cases he
    exact ⟨.refl _, fun _ hdepth => absurd rfl hdepth⟩
  split at h
  · cases h
    cases he
    exact ⟨.refl _, fun _ _ hbalance => absurd rfl hbalance⟩
  · cases h

theorem settle_failsCleanly : FailsCleanly evm (r.settle evm) := by
  unfold CallResult.settle
  intro e he
  split at he
  · rename_i hnone
    rw [hnone] at he
    cases he
  rename_i e' hsome
  rw [show r.err = some e from he] at hsome
  cases hsome
  refine ⟨.refl _, fun hrevert _ _ => ?_⟩
  exact if_neg hrevert

theorem settled_failsCleanly {x : Except Abort CallResult}
    (h : (x >>= fun r => .ok (r.settle evm)) = .ok r) : FailsCleanly evm r := by
  obtain ⟨r', -, h⟩ := bind_eq_ok.1 h
  cases h
  exact settle_failsCleanly

end Calls

/-! ## Creations -/

section Creations

variable {env : Env} {run : RunFn} {evm : Evm} {caller address : Address} {value : Int}

theorem finishCreate_failed {snapshot : Evm} {r : Result} {e : VmError}
    (hrules : env.rules.isHomestead = true)
    (he : (finishCreate env address snapshot r).err = some e) :
    (finishCreate env address snapshot r).evm.world = snapshot.world ∧
      (e ≠ .executionReverted → (finishCreate env address snapshot r).leftOverGas = 0) := by
  unfold finishCreate at he ⊢
  simp only at he ⊢
  -- the result after the code is stored, or not
  generalize hstored : (if r.err.isNone && !(env.rules.isEIP158 &&
    decide (r.ret.length > maxCodeSize)) then _ else r) = stored at he ⊢
  cases hsize : (env.rules.isEIP158 && decide (r.ret.length > maxCodeSize)) with
  | true =>
    rw [hsize] at he
    simp only [Bool.true_and, Bool.true_or, if_true] at he ⊢
    refine ⟨rfl, fun hrevert => ?_⟩
    have hne : stored.err ≠ some .executionReverted := by
      intro hs
      simp only [hs, Option.isNone_some, Bool.false_eq_true, if_false, Option.some.injEq] at he
      exact hrevert he.symm
    simp [hne]
  | false =>
    rw [hsize] at he
    simp only [Bool.false_and, Bool.false_eq_true, if_false] at he
    simp only [he, hrules, Bool.false_or, Option.isSome_some, Bool.true_or, Bool.and_self, if_true,
      Bool.true_and]
    refine ⟨rfl, fun hrevert => ?_⟩
    simp [hrevert]

theorem bumpNonce_leaves (w : World) : Leaves w (bumpNonce env caller address w)
      (Function.update w.getNonce caller ((w.getNonce caller + 1) % 2 ^ 64))
      (if env.rules.isYoloV3 then (w.accessList.addAddress address).1 else w.accessList) := by
  have hdel : ({ w.getOrNew env.keccak caller with
      nonce := (w.getNonce caller + 1) % 2 ^ 64 } : Acct).deleted = false := World.getOrNew_deleted
  -- the access list is no part of what the getters read
  have hget : ∀ a, (bumpNonce env caller address w).getStateObject a =
      (w.setNonce env.keccak caller ((w.getNonce caller + 1) % 2 ^ 64)).getStateObject a := by
    intro a
    unfold bumpNonce
    split <;> rfl
  constructor
  · intro a
    unfold World.getBalance
    rw [hget]
    refine (World.getBalance_set hdel).trans ?_
    split
    · rename_i ha
      rw [ha]
      exact World.getOrNew_balance
    · rfl
  · intro a
    unfold World.getNonce
    rw [hget]
    refine (World.getNonce_set hdel).trans ?_
    unfold Function.update
    split <;> simp [World.getNonce]
  · intro a
    unfold World.getCode
    rw [hget]
    refine (World.getCode_set hdel).trans ?_
    split
    · rename_i ha
      rw [ha]
      exact World.getOrNew_code
    · rfl
  · intro a key
    unfold World.getState
    rw [hget]
    refine (World.getState_set hdel key).trans ?_
    split
    · rename_i ha
      rw [ha]
      exact World.getOrNew_storage key
    · rfl
  · intro a
    unfold World.hasSuicided
    rw [hget]
    refine (World.hasSuicided_set hdel).trans ?_
    split
    · rename_i ha
      rw [ha]
      exact World.getOrNew_suicided
    · rfl
  all_goals
    unfold bumpNonce
    split <;> rfl

/-- After an error behind the checks of depth and balance the nonce of the creator is used up, and
under YoloV3 the new address is in the access list. -/
def CreateFailsCleanly (env : Env) (caller address : Address) (value : Int) (evm : Evm)
    (r : CreateResult) : Prop :=
  ∀ e, r.err = some e → GasAfter e r.leftOverGas ∧
    if evm.depth ≤ callCreateDepth ∧ canTransfer evm.world caller value then
      Leaves evm.world r.evm.world
        (Function.update evm.world.getNonce caller ((evm.world.getNonce caller + 1) % 2 ^ 64))
        (if env.rules.isYoloV3 then (evm.world.accessList.addAddress address).1
          else evm.world.accessList)
    else NoTrace evm.world r.evm.world

theorem createAt_failsCleanly {code : Bytes} {gas : Nat} {r : CreateResult}
    (hrules : env.rules.isHomestead = true)
    (h : createAt env run caller code gas value address evm = .ok r) :
    CreateFailsCleanly env caller address value evm r := by
  unfold createAt at h
  intro e he
  split at h
  · cases h
    cases he
    refine ⟨fun _ hdepth => absurd rfl hdepth, ?_⟩
    rw [if_neg (by omega)]
    exact .refl _
  split at h
  · cases h
    cases he
    refine ⟨fun _ _ hbalance => absurd rfl hbalance, ?_⟩
    rw [if_neg (by simp_all)]
    exact .refl _
  rename_i hbalance
  rw [if_pos ⟨by omega, by simpa using hbalance⟩]
  simp only at h
  split at h
  · cases h
    exact ⟨fun _ _ _ => rfl, bumpNonce_leaves _⟩
  split at h
  · cases h
    cases he
  obtain ⟨r', -, h⟩ := bind_eq_ok.1 h
  cases h
  obtain ⟨hworld, hgas⟩ := finishCreate_failed hrules he
  rw [hworld]
  exact ⟨fun hrevert _ _ => hgas hrevert, bumpNonce_leaves _⟩

end Creations

/-- **A failed call leaves no trace.** From Homestead on, a failed creation used up the nonce of the
creator at most and, under YoloV3, put the new address into the access list. The gas is gone unless
the error is a revert or comes from before the execution. -/
theorem failed_call_leaves_no_trace (env : Env) (hrules : env.rules.isHomestead = true) (n : Nat)
    (evm : Evm) :
    (∀ caller addr input gas value r, call env (run env n) caller addr input gas value evm = .ok r →
      FailsCleanly evm r) ∧
    (∀ caller addr input gas value r,
      callCode env (run env n) caller addr input gas value evm = .ok r → FailsCleanly evm r) ∧
    (∀ parent addr input gas r, delegateCall env (run env n) parent addr input gas evm = .ok r →
      FailsCleanly evm r) ∧
    (∀ caller addr input gas r, staticCall env (run env n) caller addr input gas evm = .ok r →
      FailsCleanly evm r) ∧
    (∀ caller code gas value r, create env (run env n) caller code gas value evm = .ok r →
      CreateFailsCleanly env caller (createAddress env caller (evm.world.getNonce caller)) value evm
        r) ∧
    (∀ caller code gas value salt r,
      create2 env (run env n) caller code gas value salt evm = .ok r →
      CreateFailsCleanly env caller (createAddress2 env caller salt (env.keccak code))
        value evm r) := by
  refine ⟨?_, ?_, ?_, ?_, fun _ _ _ _ _ h => createAt_failsCleanly hrules h,
    fun _ _ _ _ _ _ h => createAt_failsCleanly hrules h⟩
  · intro caller addr input gas value r h
    unfold call at h
    split at h
    · cases h
      exact callGuard_failsCleanly ‹_›
    split at h
    · cases h
      nofun
    · exact settled_failsCleanly h
  · intro caller addr input gas value r h
    unfold callCode at h
    split at h
    · cases h
      exact callGuard_failsCleanly ‹_›
    · exact settled_failsCleanly h
  · intro parent addr input gas r h
    unfold delegateCall at h
    split at h
    · cases h
      exact callGuard_failsCleanly ‹_›
    · exact settled_failsCleanly h
  · intro caller addr input gas r h
    unfold staticCall at h
    split at h
    · cases h
      exact callGuard_failsCleanly ‹_›
    · exact settled_failsCleanly h

theorem failed_call_leaves_no_trace_invalid :
    ∃ r, create (Env.trivial (mainnetChainConfig.rules 0))
        (run (Env.trivial (mainnetChainConfig.rules 0)) 1) 5 [0xfe] 100 0
        { world := { account := fun _ => none } } = .ok r ∧
      r.err = some (.invalidOpCode 0xfe) ∧ r.leftOverGas = 0 ∧ r.evm.world.getNonce 5 = 1 := by
  obtain ⟨r, hr, herr⟩ : ∃ r, create (.trivial (mainnetChainConfig.rules 0))
      (run (.trivial (mainnetChainConfig.rules 0)) 1) 5 [0xfe] 100 0
      { world := { account := fun _ => none } } = .ok r ∧ r.err = some (.invalidOpCode 0xfe) :=
    ⟨_, rfl, rfl⟩
  have hclean := (failed_call_leaves_no_trace (.trivial (mainnetChainConfig.rules 0)) rfl 1
    { world := { account := fun _ => none } }).2.2.2.2.1 5 [0xfe] 100 0 r hr
  obtain ⟨hgas, htrace⟩ := hclean _ herr
  exact ⟨r, hr, herr, hgas (by decide) (by decide) (by decide), htrace.nonce 5⟩

end Virbicoin.Vm
