import Virbicoin.Core.State.Observe
import Virbicoin.Core.Vm.Invariant
import Virbicoin.Lib.Ledger

/-!
# The total of all balances

Every operation on an account sets one account, so it changes the total by the change of one
balance. Transfers move balances, a new account takes over the balance of the old one, and a
self-destruct adds to the beneficiary what it takes from the contract, unless the two are the same:
then the balance is gone. The total together with what was destroyed in this way is an invariant of
the execution.
-/

namespace Virbicoin.State.World

open Lib

variable {w w' : World} {addr : Address} {a : Acct} {keccak : Bytes → Hash}

def total (w : World) : Int := ∑ addr, w.getBalance addr

theorem total_congr (h : w'.account = w.account) : w'.total = w.total := by
  refine Finset.sum_congr rfl fun b _ => ?_
  unfold getBalance getStateObject
  rw [h]

theorem total_set (h : a.deleted = false) :
    (w.set addr a).total = w.total + (a.balance - w.getBalance addr) := by
  have hcredit : (w.set addr a).getBalance =
      credit w.getBalance (addr, a.balance - w.getBalance addr) := by
    funext b
    rw [getBalance_set h]
    unfold credit
    split
    · rename_i hb
      rw [hb, Function.update_self, add_sub_cancel]
    · rename_i hb
      rw [Function.update_of_ne hb]
  unfold total
  rw [hcredit, sum_credit]

theorem total_set_eq (h : a.deleted = false) (hbalance : a.balance = w.getBalance addr) :
    (w.set addr a).total = w.total := by
  rw [total_set h, hbalance, sub_self, add_zero]

theorem total_addBalance (amount : Int) :
    (w.addBalance keccak addr amount).total = w.total + amount := by
  unfold addBalance
  rw [total_set (by exact getOrNew_deleted), getOrNew_balance]
  dsimp only
  omega

theorem total_subBalance (amount : Int) :
    (w.subBalance keccak addr amount).total = w.total - amount := by
  unfold subBalance
  rw [total_set (by exact getOrNew_deleted), getOrNew_balance]
  dsimp only
  omega

theorem total_setNonce (nonce : Nat) : (w.setNonce keccak addr nonce).total = w.total :=
  total_set_eq getOrNew_deleted getOrNew_balance

theorem total_setCode (code : Option Bytes) : (w.setCode keccak addr code).total = w.total :=
  total_set_eq getOrNew_deleted getOrNew_balance

theorem total_createAccount : (w.createAccount keccak addr).total = w.total := total_set_eq rfl rfl

theorem total_suicide : (w.suicide addr).1.total = w.total - w.getBalance addr := by
  unfold suicide
  split
  · rename_i h
    rw [getBalance, h]
    exact (sub_zero _).symm
  rename_i acct h
  have hdel : acct.deleted = false := not_deleted_of_getStateObject h
  rw [total_set (by exact hdel)]
  dsimp only
  omega

theorem getBalance_addBalance (addr b : Address) (amount : Int) :
    (w.addBalance keccak addr amount).getBalance b =
      w.getBalance b + if b = addr then amount else 0 := by
  unfold addBalance
  rw [getBalance_set (by exact getOrNew_deleted), getOrNew_balance]
  split
  · rename_i hb
    rw [hb]
  · exact (add_zero _).symm

theorem getBalance_subBalance (addr b : Address) (amount : Int) :
    (w.subBalance keccak addr amount).getBalance b =
      w.getBalance b - if b = addr then amount else 0 := by
  unfold subBalance
  rw [getBalance_set (by exact getOrNew_deleted), getOrNew_balance]
  split
  · rename_i hb
    rw [hb]
  · exact (sub_zero _).symm

end Virbicoin.State.World

namespace Virbicoin.Vm

open Lib State Params

variable {env : Env} {w : World} {caller addr address : Address} {value : Int}

theorem total_transfer {keccak : Bytes → Hash} :
    (transfer keccak w caller addr value).total = w.total := by
  unfold transfer
  rw [World.total_addBalance, World.total_subBalance]
  omega

theorem total_suicideWorld {self beneficiary : Address} :
    (suicideWorld env self beneficiary w).total =
      w.total - if beneficiary = self then w.getBalance self else 0 := by
  unfold suicideWorld
  rw [World.total_suicide, World.total_addBalance, World.getBalance_addBalance]
  by_cases h : beneficiary = self
  · rw [if_pos h, if_pos h.symm]
    omega
  · rw [if_neg h, if_neg (Ne.symm h)]
    omega

/-- The total and what was destroyed come to `s`. -/
def Supply (s : Int) (_ : Nat) (evm : Evm) : Prop := evm.world.total + evm.destroyed = s

namespace Supply

variable {s : Int} {g g' : Nat} {evm evm' : Evm}

theorem same (h : Supply s g evm) (hs : SameState evm evm') : Supply s g' evm' := by
  unfold Supply
  rw [World.total_congr hs.account, hs.destroyed]
  exact h

theorem modify (h : Supply s g evm) {world : World} (hw : world.total = evm.world.total) :
    Supply s g' { evm with world } := by
  unfold Supply
  rw [show ({ evm with world } : Evm).world.total = evm.world.total from hw]
  exact h

theorem prepared {op : OpCode} {o : Operation} {m m1 : Machine} (hp : Prepared env op o m m1)
    (h : Supply s g m.evm) : Supply s g m1.evm := by
  obtain ⟨_, -, -, _, ⟨_, _, _, _, _, rfl⟩, rfl⟩ := hp.frame
  exact h

end Supply

theorem total_callWorld : (callWorld env caller addr value w).total = w.total := by
  unfold callWorld
  rw [total_transfer]
  split
  · exact World.total_createAccount
  · rfl

theorem total_bumpNonce : (bumpNonce env caller address w).total = w.total := by
  unfold bumpNonce
  split
  · exact (World.total_congr rfl).trans (World.total_setNonce _)
  · exact World.total_setNonce _

theorem total_newContractWorld : (newContractWorld env caller address value w).total = w.total := by
  unfold newContractWorld
  rw [total_transfer]
  split
  · exact (World.total_setNonce _).trans World.total_createAccount
  · exact World.total_createAccount

/-- **The supply is an invariant of the execution.** -/
theorem supply_invariant : Invariant env (fun _ => True) Supply Supply where
  same := fun h hs _ => h.same hs
  same' := fun h hs _ => h.same hs
  result := id
  log := fun _ _ h => h.modify (World.total_congr rfl)
  store := fun _ _ _ _ hp _ h =>
    (Supply.prepared hp h).modify (World.total_set_eq World.getOrNew_deleted World.getOrNew_balance)
  panic := fun _ _ _ _ _ => trivial
  allowed := fun _ _ _ => trivial
  suicide := by
    intro b m op o m1 beneficiary _ _ _ _ hp h
    have h1 : m1.evm.world.total + m1.evm.destroyed = b := Supply.prepared hp h
    unfold Supply
    dsimp only
    rw [total_suicideWorld]
    split <;> omega
  nest := fun _ _ h _ => ⟨_, h, fun _ _ h' => h'⟩
  enter := fun _ h => ⟨_, h, fun _ hr => hr⟩
  revert := fun h _ _ _ => h
  call := fun _ _ _ _ h => h.modify total_callWorld
  touch := fun addr h => h.modify ((World.total_addBalance 0).trans (Int.add_zero _))
  bump := fun _ _ _ h => h.modify total_bumpNonce
  deploy := fun _ _ _ _ h => h.modify total_newContractWorld
  setCode := fun _ _ _ _ h => h.modify (World.total_setCode _)

/-! ## Calls and creations from outside -/

variable {s : Int} {gas : Nat} {evm : Evm}

theorem supply_run (n : Nat) : RunKeeps (fun _ => True) Supply Supply (run env n) :=
  supply_invariant.run_keeps n

theorem supply_create (n : Nat) (code : Bytes) (h : Supply s gas evm) :
    Ensures (fun _ => True) (fun r => Supply s r.leftOverGas r.evm)
      (create env (run env n) caller code gas value evm) :=
  supply_invariant.createAt_of (supply_run n) h _ _ _ (h.modify total_bumpNonce)
    (fun _ _ h => h.modify total_newContractWorld)
    fun _ _ _ h => h.modify (World.total_setCode _)

end Virbicoin.Vm
