import Mathlib.Algebra.Order.BigOperators.Group.Finset
import Mathlib.Data.Fintype.EquivFin
import Virbicoin.Core.Vm.Supply

/-!
# The refund counter

A net metered store adds to the refund counter or takes from it. What it takes was added before: a
slot that is cleared owes the refund for the clearing until it is set again. The sum of what is
owed, for the cleared slots and for the accounts that self-destructed, never exceeds the counter
(`refund_invariant`). It may be less: a slot that is set back to its original value is refunded
every time this happens.

The counter has 64 bits. Every addition comes with a payment of gas, so it does not overflow as long
as the gas of the message is not astronomical.
-/

namespace Virbicoin.State

open Lib Params Function

instance : Finite Hash :=
  Finite.of_injective BitVec.toFin fun _ _ => BitVec.eq_of_toFin_eq

noncomputable instance : Fintype Hash := Fintype.ofFinite Hash

def slotOwed (original current : Hash) : Nat :=
  if original ≠ 0 ∧ current = 0 then sstoreRefundGas else 0

noncomputable def Acct.owed (a : Acct) : Nat :=
  (if a.suicided then selfdestructRefundGas else 0) +
    ∑ key, slotOwed (a.committed key) (a.storage key)

namespace World

variable {w w' : World} {addr : Address} {a : Acct} {keccak : Bytes → Hash}

noncomputable def owedBy (w : World) (addr : Address) : Nat :=
  (w.getStateObject addr).elim 0 Acct.owed

/-- What is owed by all accounts: the refunds for the slots that are cleared and for the accounts
that self-destructed. -/
noncomputable def owed (w : World) : Nat := ∑ addr, w.owedBy addr

theorem owed_congr (h : w'.account = w.account) : w'.owed = w.owed := by
  refine Finset.sum_congr rfl fun b _ => ?_
  unfold owedBy getStateObject
  rw [h]

theorem owed_set (h : a.deleted = false) :
    (w.set addr a).owed + w.owedBy addr = w.owed + a.owed := by
  have hupdate : (w.set addr a).owedBy = update w.owedBy addr a.owed := by
    funext b
    unfold owedBy
    rw [getStateObject_of_set h]
    by_cases hb : b = addr
    · rw [hb, if_pos rfl, update_self]
      rfl
    · rw [if_neg hb, update_of_ne hb]
  unfold owed
  rw [hupdate, sum_update_add]

theorem owed_set_eq (h : a.deleted = false) (howed : a.owed = w.owedBy addr) :
    (w.set addr a).owed = w.owed := by
  have hset : (w.set addr a).owed + w.owedBy addr = w.owed + a.owed := owed_set h
  omega

variable (keccak) in
theorem newAcct_owed : (newAcct keccak).owed = 0 := by
  unfold Acct.owed newAcct
  simp [slotOwed]

theorem getOrNew_owed : (w.getOrNew keccak addr).owed = w.owedBy addr := by
  unfold getOrNew owedBy
  cases w.getStateObject addr with
  | none => exact newAcct_owed keccak
  | some a => rfl

theorem owed_addBalance (amount : Int) : (w.addBalance keccak addr amount).owed = w.owed :=
  owed_set_eq getOrNew_deleted getOrNew_owed

theorem owed_subBalance (amount : Int) : (w.subBalance keccak addr amount).owed = w.owed :=
  owed_set_eq getOrNew_deleted getOrNew_owed

theorem owed_setNonce (nonce : Nat) : (w.setNonce keccak addr nonce).owed = w.owed :=
  owed_set_eq getOrNew_deleted getOrNew_owed

theorem owed_setCode (code : Option Bytes) : (w.setCode keccak addr code).owed = w.owed :=
  owed_set_eq getOrNew_deleted getOrNew_owed

theorem owed_createAccount_le : (w.createAccount keccak addr).owed ≤ w.owed := by
  have hset : (w.createAccount keccak addr).owed + w.owedBy addr =
      w.owed + Acct.owed { newAcct keccak with balance := w.getBalance addr } := owed_set rfl
  have hnew : Acct.owed { newAcct keccak with balance := w.getBalance addr } = 0 :=
    newAcct_owed keccak
  omega

theorem owedBy_le (w : World) (addr : Address) : w.owedBy addr ≤ w.owed :=
  Finset.single_le_sum (fun _ _ => Nat.zero_le _) (Finset.mem_univ addr)

theorem slotOwed_le (key : Hash) :
    slotOwed (w.getCommittedState addr key) (w.getState addr key) ≤ w.owed := by
  refine le_trans ?_ (w.owedBy_le addr)
  unfold getCommittedState getState owedBy
  cases w.getStateObject addr with
  | none => simp [slotOwed]
  | some a =>
    refine le_trans ?_ (Nat.le_add_left _ _)
    exact Finset.single_le_sum (f := fun key => slotOwed (a.committed key) (a.storage key))
      (fun _ _ => Nat.zero_le _) (Finset.mem_univ key)

theorem Acct.owed_update (a : Acct) (key value : Hash) :
    Acct.owed { a with storage := update a.storage key value } +
        slotOwed (a.committed key) (a.storage key) =
      a.owed + slotOwed (a.committed key) value := by
  have hupdate : (fun k => slotOwed (a.committed k) (update a.storage key value k)) =
      update (fun k => slotOwed (a.committed k) (a.storage k)) key
        (slotOwed (a.committed key) value) := by
    funext k
    exact apply_update (fun k => slotOwed (a.committed k)) a.storage key value k
  have hsum := sum_update_add (fun k => slotOwed (a.committed k) (a.storage k)) key
    (slotOwed (a.committed key) value)
  rw [← hupdate] at hsum
  unfold Acct.owed
  dsimp only at hsum ⊢
  omega

theorem getOrNew_committed (key : Hash) :
    (w.getOrNew keccak addr).committed key = w.getCommittedState addr key := by
  unfold getOrNew getCommittedState
  cases w.getStateObject addr <;> rfl

variable (keccak) in
theorem owed_setState (w : World) (addr : Address) (key value : Hash) :
    (w.setState keccak addr key value).owed +
        slotOwed (w.getCommittedState addr key) (w.getState addr key) =
      w.owed + slotOwed (w.getCommittedState addr key) value := by
  have hacct := Acct.owed_update (w.getOrNew keccak addr) key value
  have hdel : (w.getOrNew keccak addr).deleted = false := getOrNew_deleted
  rw [getOrNew_committed, getOrNew_storage, getOrNew_owed] at hacct
  unfold setState
  dsimp only
  generalize w.getOrNew keccak addr = a at hacct hdel ⊢
  have hset : (w.set addr { a with storage := update a.storage key value }).owed +
      w.owedBy addr = w.owed + Acct.owed { a with
        storage := update a.storage key value } := owed_set hdel
  omega

theorem owed_suicide_le : (w.suicide addr).1.owed ≤
      w.owed + if w.hasSuicided addr then 0 else selfdestructRefundGas := by
  cases h : w.getStateObject addr with
  | none =>
    unfold suicide
    rw [h]
    exact Nat.le_add_right _ _
  | some a =>
    have hsuicide : (w.suicide addr).1 = w.set addr { a with suicided := true, balance := 0 } := by
      unfold suicide
      rw [h]
    have hsuicided : w.hasSuicided addr = a.suicided := by
      unfold hasSuicided
      rw [h]
      rfl
    have hold : w.owedBy addr = a.owed := by
      unfold owedBy
      rw [h]
      rfl
    have hdel : a.deleted = false := not_deleted_of_getStateObject h
    have hset : (w.set addr { a with suicided := true, balance := 0 }).owed + w.owedBy addr =
        w.owed + Acct.owed { a with suicided := true, balance := 0 } := owed_set hdel
    rw [hold] at hset
    unfold Acct.owed at hset
    split <;> simp_all only [if_true] <;> omega

end World

end Virbicoin.State

namespace Virbicoin.Vm

open Lib State Params

/-! ## Stores -/

/-- The change of the refund counter by the metering of a store covers the change of what the slot
owes. -/
structure StoreRefund (m m' : Machine) (slot value : Word) : Prop where
  account : m'.evm.world.account = m.evm.world.account
  le : m'.evm.world.refund ≤ m.evm.world.refund + selfdestructRefundGas
  covers : m.evm.world.refund +
      slotOwed (m.evm.world.getCommittedState m.contract.self slot) value ≤
    m'.evm.world.refund + slotOwed (m.evm.world.getCommittedState m.contract.self slot)
      (m.evm.world.getState m.contract.self slot)

section Store

variable {m : Machine} {slot value : Word}

structure Covered (m : Machine) : Prop where
  room : m.evm.world.refund + selfdestructRefundGas < 2 ^ 64
  owed : ∀ slot, slotOwed (m.evm.world.getCommittedState m.contract.self slot)
    (m.evm.world.getState m.contract.self slot) ≤ m.evm.world.refund

theorem addRefund_account : (m.addRefund gas).evm.world.account = m.evm.world.account := rfl

theorem addRefund_refund {gas : Nat} (h : m.evm.world.refund + gas < 2 ^ 64) :
    (m.addRefund gas).evm.world.refund = m.evm.world.refund + gas := Nat.mod_eq_of_lt h

theorem subRefund_ok {gas : Nat} (h : gas ≤ m.evm.world.refund) :
    ∃ m', m.subRefund gas = .ok m' ∧ m'.evm.world.account = m.evm.world.account ∧
      m'.evm.world.refund + gas = m.evm.world.refund := by
  unfold Machine.subRefund World.subRefund
  rw [if_neg (not_lt.2 h)]
  exact ⟨_, rfl, rfl, Nat.sub_add_cancel h⟩

/-- The refunds of a net metered store are as for EIP-1283. -/
structure NetPrices.Fair (p : NetPrices) : Prop where
  clear : p.clearRefund = sstoreRefundGas
  resetClear : p.resetClearRefund ≤ selfdestructRefundGas
  reset : p.resetRefund ≤ selfdestructRefundGas

theorem slotOwed_of_ne {original current : Hash} (h : current ≠ 0) :
    slotOwed original current = 0 :=
  if_neg fun h' => h h'.2

theorem slotOwed_of_original {current : Hash} : slotOwed 0 current = 0 := if_neg fun h' => h'.1 rfl

theorem slotOwed_of_cleared {original : Hash} (h : original ≠ 0) :
    slotOwed original 0 = sstoreRefundGas := if_pos ⟨h, rfl⟩

theorem netSstore_refund {p : NetPrices} (hp : p.Fair) (hm : Covered m) :
    Ensures (· ≠ .fault .refund) (fun r => StoreRefund m r.2 slot value)
      (netSstore p m slot value) := by
  have howed := hm.owed slot
  have hroom := hm.room
  have hclear := hp.clear
  have hle : sstoreRefundGas ≤ selfdestructRefundGas := by decide
  -- a machine with the accounts of `m` and this counter
  have store : ∀ m' : Machine, m'.evm.world.account = m.evm.world.account →
      m'.evm.world.refund ≤ m.evm.world.refund + selfdestructRefundGas →
      m.evm.world.refund + slotOwed (m.evm.world.getCommittedState m.contract.self slot) value ≤
        m'.evm.world.refund + slotOwed (m.evm.world.getCommittedState m.contract.self slot)
          (m.evm.world.getState m.contract.self slot) → StoreRefund m m' slot value :=
    fun m' => .mk
  unfold netSstore
  generalize m.evm.world.getCommittedState m.contract.self slot = original at howed store ⊢
  generalize m.evm.world.getState m.contract.self slot = current at howed store ⊢
  refine Ensures.ite (fun h => Ensures.ok (store m rfl (Nat.le_add_right _ _) (by rw [h])))
    fun hne => ?_
  refine .ite (fun h => ?_) fun hdirty => ?_
  · -- the slot is clean
    refine Ensures.ite (fun h0 => Ensures.ok (store m rfl (Nat.le_add_right _ _) ?_)) fun h0 => ?_
    · rw [h0, slotOwed_of_original, slotOwed_of_original]
    refine .ite (fun hv => .ok (store (m.addRefund _) rfl ?_ ?_)) fun hv =>
      Ensures.ok (store m rfl (Nat.le_add_right _ _) ?_)
    · rw [addRefund_refund (by omega)]
      omega
    · rw [addRefund_refund (by omega), hv, slotOwed_of_cleared h0]
      omega
    · rw [slotOwed_of_ne hv]
      omega
  -- the slot is dirty: first the refund of the clearing, then that of the reset
  refine .bind (Q := fun m' => m'.evm.world.account = m.evm.world.account ∧
    m'.evm.world.refund ≤ m.evm.world.refund + sstoreRefundGas ∧
    (original = value → m'.evm.world.refund ≤ m.evm.world.refund) ∧
    m.evm.world.refund + slotOwed original value ≤
      m'.evm.world.refund + slotOwed original current) ?_ ?_
  · refine .ite (fun h0 => ?_) fun h0 => .ok ⟨rfl, by omega, fun _ => le_rfl, ?_⟩
    · refine .ite (fun hc => ?_) fun hc => ?_
      · rw [hc, slotOwed_of_cleared h0] at howed ⊢
        rw [hc] at hne
        obtain ⟨m', hm', haccount, hrefund⟩ := subRefund_ok howed
        rw [hclear, hm', slotOwed_of_ne (Ne.symm hne)]
        exact .ok ⟨haccount, by omega, fun _ => by omega, by omega⟩
      refine .ite (fun hv => .ok ?_) fun hv =>
        Ensures.ok ⟨rfl, by omega, fun _ => le_rfl, ?_⟩
      · refine ⟨rfl, ?_, fun h => absurd (h.trans hv) h0, ?_⟩
        · rw [addRefund_refund (by omega), hclear]
        rw [addRefund_refund (by omega), hv, slotOwed_of_cleared h0]
        omega
      rw [slotOwed_of_ne hv]
      omega
    · rw [Decidable.not_not.1 h0, slotOwed_of_original, slotOwed_of_original]
  rintro m' ⟨haccount, hle', hreset, hcovers⟩
  refine .ok ?_
  by_cases hov : original = value
  · have hr := hreset hov
    rw [if_pos hov]
    split
    · have hbound := hp.resetClear
      have hr' : (m'.addRefund p.resetClearRefund).evm.world.refund =
          m'.evm.world.refund + p.resetClearRefund := addRefund_refund (by omega)
      exact store (m'.addRefund _) haccount (by omega) (by omega)
    have hbound := hp.reset
    have hr' : (m'.addRefund p.resetRefund).evm.world.refund =
        m'.evm.world.refund + p.resetRefund := addRefund_refund (by omega)
    exact store (m'.addRefund _) haccount (by omega) (by omega)
  rw [if_neg hov]
  exact store m' haccount (by omega) hcovers

theorem back_refund (s : List Word) (n : Nat) :
    Ensures (· ≠ .fault .refund) (fun x => s[n]? = some x) (back s n) := by
  unfold back
  cases s[n]? with
  | none => exact .error nofun
  | some x => exact .ok rfl

theorem pricesEIP1283_fair : pricesEIP1283.Fair := ⟨by decide, by decide, by decide⟩

theorem pricesEIP2200_fair : pricesEIP2200.Fair := ⟨by decide, by decide, by decide⟩

theorem pricesEIP2929_fair (cost : Nat) : (pricesEIP2929 cost).Fair :=
  ⟨rfl, (by decide : sstoreSetGasEIP2200 - warmStorageReadCostEIP2929 ≤ _),
    (by decide : sstoreResetGasEIP2200 - coldSloadCostEIP2929 - warmStorageReadCostEIP2929 ≤ _)⟩

def TopRefund (m m' : Machine) : Prop :=
  ∀ slot value s, m.loc.stack = slot :: value :: s → StoreRefund m m' slot value

theorem operands_refund {price : Word → Word → Except Stop (Nat × Machine)}
    (h : ∀ x y, Ensures (· ≠ .fault .refund) (fun r => StoreRefund m r.2 x y) (price x y)) :
    Ensures (· ≠ .fault .refund) (fun r => TopRefund m r.2)
      (back m.loc.stack 1 >>= fun y => back m.loc.stack 0 >>= fun x => price x y) := by
  refine (back_refund _ _).bind fun y hy => (back_refund _ _).bind fun x hx => ?_
  refine (h x y).imp fun r hr slot value s hstack => ?_
  rw [hstack] at hx hy
  cases hx
  cases hy
  exact hr

theorem StoreRefund.refl (h : slotOwed (m.evm.world.getCommittedState m.contract.self slot) value ≤
      slotOwed (m.evm.world.getCommittedState m.contract.self slot)
        (m.evm.world.getState m.contract.self slot)) : StoreRefund m m slot value :=
  ⟨rfl, Nat.le_add_right _ _, Nat.add_le_add_left h _⟩

theorem gasSStore_refund (env : Env) (size : Nat) (hm : Covered m) :
    Ensures (· ≠ .fault .refund) (fun r => TopRefund m r.2) (gasSStore env m size) := by
  have hroom := hm.room
  have hle : sstoreRefundGas ≤ selfdestructRefundGas := by decide
  refine operands_refund fun x y => ?_
  refine .ite (fun _ => ?_) fun _ => netSstore_refund pricesEIP1283_fair hm
  -- the price without net metering looks at the current value only
  refine .ite (fun h => .ok (.refl ?_)) fun _ => ?_
  · rw [slotOwed_of_ne h.2]
    exact Nat.zero_le _
  refine .ite (fun h => ?_) fun h => ?_
  · have hrefund : (m.addRefund sstoreRefundGas).evm.world.refund =
        m.evm.world.refund + sstoreRefundGas := addRefund_refund (by omega)
    have howed : slotOwed (m.evm.world.getCommittedState m.contract.self x) y ≤
        sstoreRefundGas := by
      unfold slotOwed
      split
      · exact le_rfl
      · exact Nat.zero_le _
    show StoreRefund m (m.addRefund sstoreRefundGas) x y
    exact ⟨addRefund_account, by omega, by omega⟩
  show StoreRefund m m x y
  refine .refl ?_
  by_cases hy : y = 0
  · have hx : m.evm.world.getState m.contract.self x = 0 := by
      by_contra hne
      exact h ⟨hne, hy⟩
    rw [hx, hy]
  rw [slotOwed_of_ne hy]
  exact Nat.zero_le _

theorem gasSStoreEIP2929_refund (env : Env) (size : Nat) (hm : Covered m) :
    Ensures (· ≠ .fault .refund) (fun r => TopRefund m r.2) (gasSStoreEIP2929 env m size) := by
  refine .failIf_bind nofun fun _ => ?_
  refine operands_refund fun x y => ?_
  refine .ite (fun _ => netSstore_refund (pricesEIP2929_fair _) hm) fun _ => ?_
  refine .ite (fun _ => ?_) fun _ => .error nofun
  have hm' : Covered (m.setWorld (m.evm.world.addSlotToAccessList m.contract.self x)) :=
    ⟨hm.room, hm.owed⟩
  exact (netSstore_refund (pricesEIP2929_fair _) hm').imp fun r hr =>
    ⟨hr.account, hr.le, hr.covers⟩

theorem store_refund (env : Env) (size : Nat) {f : GasFunc} (hf : f.ofStore = true)
    (hm : Covered m) :
    Ensures (· ≠ .fault .refund) (fun r => TopRefund m r.2) (f.gas env m size) := by
  cases f with
  | sStore => exact gasSStore_refund env size hm
  | sStoreEIP2200 =>
    refine .failIf_bind nofun fun _ => ?_
    exact operands_refund fun x y => netSstore_refund pricesEIP2200_fair hm
  | sStoreEIP2929 => exact gasSStoreEIP2929_refund env size hm
  | _ => cases hf

end Store

/-! ## Self-destructs -/

structure SuicideRefund (m m' : Machine) : Prop where
  account : m'.evm.world.account = m.evm.world.account
  refund : m'.evm.world.refund = m.evm.world.refund +
    if m.evm.world.hasSuicided m.contract.self then 0 else selfdestructRefundGas

theorem refundSelfdestruct_refund {m : Machine}
    (h : m.evm.world.refund + selfdestructRefundGas < 2 ^ 64) :
    SuicideRefund m m.refundSelfdestruct := by
  unfold Machine.refundSelfdestruct
  by_cases hs : m.evm.world.hasSuicided m.contract.self = true
  · rw [if_neg (by simp [hs])]
    exact ⟨rfl, by rw [if_pos hs, add_zero]⟩
  · rw [if_pos (by simp [hs])]
    exact ⟨addRefund_account, by rw [if_neg hs, addRefund_refund h]⟩

theorem selfdestruct_refund (env : Env) (size : Nat) {m : Machine} {f : GasFunc}
    (hf : f.ofSelfdestruct = true) (h : m.evm.world.refund + selfdestructRefundGas < 2 ^ 64) :
    Ensures (fun _ => True) (fun r => SuicideRefund m r.2) (f.gas env m size) := by
  cases f with
  | selfdestruct =>
    refine .bind (Q := fun _ => True)
      (.of_cases (fun _ _ => trivial) fun _ _ => trivial) fun address _ => .ok ?_
    exact refundSelfdestruct_refund h
  | selfdestructEIP2929 =>
    refine .bind (Q := fun _ => True)
      (.of_cases (fun _ _ => trivial) fun _ _ => trivial) fun address _ => ?_
    dsimp only
    split
    · have hr := refundSelfdestruct_refund
        (m := m.setWorld (m.evm.world.addAddressToAccessList (toAddress address))) h
      exact .ok ⟨hr.account, hr.refund⟩
    · exact .ok (refundSelfdestruct_refund h)
  | _ => cases hf

theorem owed_suicideWorld_le (env : Env) (self beneficiary : Address) (w : World) :
    (suicideWorld env self beneficiary w).owed ≤
      w.owed + if w.hasSuicided self then 0 else selfdestructRefundGas := by
  refine World.owed_suicide_le.trans ?_
  rw [World.owed_addBalance]
  have hsame : (w.addBalance env.keccak beneficiary (w.getBalance self)).hasSuicided self =
      w.hasSuicided self := by
    unfold World.addBalance
    rw [World.hasSuicided_set (by exact World.getOrNew_deleted)]
    split
    · rename_i hb
      rw [hb]
      exact World.getOrNew_suicided
    · rfl
  rw [hsame]

/-! ## The invariant -/

/-- The counter covers what is owed, and with `g` more payments of the largest refund it stays
below `b`. -/
structure Backed (b g : Nat) (evm : Evm) : Prop where
  owed : evm.world.owed ≤ evm.world.refund
  room : evm.world.refund + selfdestructRefundGas * g ≤ b
  lt : b < 2 ^ 64

namespace Backed

variable {env : Env} {b g g' : Nat} {evm evm' : Evm}

theorem mono (h : Backed b g evm) (hle : g' ≤ g) : Backed b g' evm :=
  ⟨h.owed, (Nat.add_le_add_left (Nat.mul_le_mul_left _ hle) _).trans h.room, h.lt⟩

theorem same (h : Backed b g evm) (hs : SameState evm evm') (hle : g' ≤ g) : Backed b g' evm' := by
  refine mono ⟨?_, ?_, h.lt⟩ hle
  · rw [World.owed_congr hs.account, hs.refund]
    exact h.owed
  · rw [hs.refund]
    exact h.room

theorem modify (h : Backed b g evm) {world : World} (howed : world.owed ≤ evm.world.owed)
    (hrefund : world.refund = evm.world.refund) : Backed b g { evm with world } := by
  refine ⟨howed.trans (h.owed.trans hrefund.ge), ?_, h.lt⟩
  rw [hrefund]
  exact h.room

theorem covered {m : Machine} (h : Backed b (g + 1) m.evm) : Covered m := by
  have hroom := h.room
  have hlt := h.lt
  rw [Nat.mul_succ] at hroom
  exact ⟨by omega, fun slot => (World.slotOwed_le _).trans h.owed⟩

end Backed

variable {env : Env} {w : World} {caller addr address : Address} {value : Int}

theorem owed_transfer {keccak : Bytes → Hash} :
    (transfer keccak w caller addr value).owed = w.owed := by
  unfold transfer
  rw [World.owed_addBalance, World.owed_subBalance]

theorem owed_callWorld_le : (callWorld env caller addr value w).owed ≤ w.owed := by
  unfold callWorld
  rw [owed_transfer]
  split
  · exact World.owed_createAccount_le
  · exact le_rfl

theorem owed_newContractWorld_le : (newContractWorld env caller address value w).owed ≤ w.owed := by
  unfold newContractWorld
  rw [owed_transfer]
  split
  · rw [World.owed_setNonce]
    exact World.owed_createAccount_le
  · exact World.owed_createAccount_le

theorem owed_bumpNonce : (bumpNonce env caller address w).owed = w.owed := by
  unfold bumpNonce
  split
  · exact (World.owed_congr rfl).trans (World.owed_setNonce _)
  · exact World.owed_setNonce _

theorem refund_callWorld : (callWorld env caller addr value w).refund = w.refund := by
  unfold callWorld
  split <;> rfl

theorem refund_newContractWorld :
    (newContractWorld env caller address value w).refund = w.refund := by
  unfold newContractWorld
  split <;> rfl

theorem refund_bumpNonce : (bumpNonce env caller address w).refund = w.refund := by
  unfold bumpNonce
  split <;> rfl

variable {o : Operation} {op : OpCode} {m : Machine}

theorem prepare_store {b : Nat} (hc : Consistent op o) (hx : o.execute = .sstore)
    (h : Backed b (m.contract.gas + 1) m.evm) :
    Ensures (· ≠ .fault .refund) (TopRefund m) (prepare env op o m) := by
  have hfits := hc.fits
  rw [hx] at hfits
  simp only [Execute.fits, Bool.and_eq_true, Option.any_eq_true] at hfits
  obtain ⟨⟨⟨-, f, hdyn, hf⟩, -⟩, -⟩ := hfits
  refine prepare_priced hc hdyn ?_ fun size => ?_
  · rintro s ⟨e, rfl⟩ h
    cases h
  have hm : Covered (m.useGas o.constantGas) := ⟨h.covered.room, h.covered.owed⟩
  refine (store_refund env size hf hm).imp fun r hr slot value s hstack => ?_
  have hr := hr slot value s hstack
  exact ⟨hr.account, hr.le, hr.covers⟩

theorem prepare_suicide {b : Nat} (hc : Consistent op o) (hx : o.execute = .suicide)
    (h : Backed b (m.contract.gas + 1) m.evm) :
    Ensures (fun _ => True) (SuicideRefund m) (prepare env op o m) := by
  have hfits := hc.fits
  rw [hx] at hfits
  simp only [Execute.fits, Bool.and_eq_true, Option.any_eq_true] at hfits
  obtain ⟨-, f, hdyn, hf⟩ := hfits
  refine prepare_priced hc hdyn (fun _ _ => trivial) fun size => ?_
  refine (selfdestruct_refund env size hf ?_).imp fun r hr => ⟨hr.account, hr.refund⟩
  exact h.covered.room

theorem Prepared.self {m1 : Machine} (hp : Prepared env op o m m1) :
    m1.contract.self = m.contract.self := by
  obtain ⟨_, -, -, _, ⟨_, _, _, _, _, rfl⟩, rfl⟩ := hp.frame
  rfl

theorem backed_store {b : Nat} {m1 : Machine} {slot value : Word} (hp : Prepared env op o m m1)
    (hlt : m1.contract.gas < m.contract.gas) (hstore : StoreRefund m m1 slot value)
    (h : Backed b (m.contract.gas + 1) m.evm) :
    Backed b (m1.contract.gas + 1) { m1.evm with
      world := m1.evm.world.setState env.keccak m1.contract.self slot value } := by
  have howed := World.owed_setState env.keccak m1.evm.world m1.contract.self slot value
  have hcommitted : m1.evm.world.getCommittedState m1.contract.self slot =
      m.evm.world.getCommittedState m.contract.self slot := by
    unfold World.getCommittedState World.getStateObject
    rw [hstore.account, hp.self]
  have hstate : m1.evm.world.getState m1.contract.self slot =
      m.evm.world.getState m.contract.self slot := by
    unfold World.getState World.getStateObject
    rw [hstore.account, hp.self]
  rw [hcommitted, hstate, World.owed_congr hstore.account] at howed
  have hcovers := hstore.covers
  have hle := hstore.le
  have hbacked := h.owed
  have hroom : m.evm.world.refund + (selfdestructRefundGas * m.contract.gas +
      selfdestructRefundGas) ≤ b := h.room
  have hmul : selfdestructRefundGas * (m1.contract.gas + 1) ≤
      selfdestructRefundGas * m.contract.gas := Nat.mul_le_mul_left _ hlt
  refine ⟨?_, ?_, h.lt⟩
  · show (m1.evm.world.setState env.keccak m1.contract.self slot value).owed ≤ m1.evm.world.refund
    omega
  · show m1.evm.world.refund + _ ≤ b
    omega

theorem backed_suicide {b : Nat} {m1 : Machine} (hp : Prepared env op o m m1)
    (hsuicide : SuicideRefund m m1) (h : Backed b (m.contract.gas + 1) m.evm)
    (beneficiary : Address) (destroyed : Int) :
    Backed b m1.contract.gas { m1.evm with
      world := suicideWorld env m1.contract.self beneficiary m1.evm.world
      destroyed } := by
  have howed := owed_suicideWorld_le env m1.contract.self beneficiary m1.evm.world
  have hsuicided : m1.evm.world.hasSuicided m1.contract.self =
      m.evm.world.hasSuicided m.contract.self := by
    unfold World.hasSuicided World.getStateObject
    rw [hsuicide.account, hp.self]
  rw [hsuicided, World.owed_congr hsuicide.account] at howed
  have hrefund := hsuicide.refund
  have hbacked := h.owed
  have hroom : m.evm.world.refund + (selfdestructRefundGas * m.contract.gas +
      selfdestructRefundGas) ≤ b := h.room
  have hmul : selfdestructRefundGas * m1.contract.gas ≤ selfdestructRefundGas * m.contract.gas :=
    Nat.mul_le_mul_left _ hp.gas_le
  have hworld : (suicideWorld env m1.contract.self beneficiary m1.evm.world).refund =
      m1.evm.world.refund := by
    unfold suicideWorld World.suicide
    split <;> rfl
  have hfirst : (if m.evm.world.hasSuicided m.contract.self then 0 else selfdestructRefundGas) ≤
      selfdestructRefundGas := by
    split
    · exact Nat.zero_le _
    · exact le_rfl
  refine ⟨?_, ?_, h.lt⟩
  · show (suicideWorld env m1.contract.self beneficiary m1.evm.world).owed ≤
      (suicideWorld env m1.contract.self beneficiary m1.evm.world).refund
    omega
  show (suicideWorld env m1.contract.self beneficiary m1.evm.world).refund + _ ≤ b
  omega

/-- **The counter covers what is owed, through every execution.** While a frame runs there is room
for one refund more than its gas, which is the one of a self-destruct at its end. -/
theorem refund_invariant :
    Invariant env (· ≠ .fault .refund) (fun b g => Backed b (g + 1)) Backed where
  same := fun h hs hle => h.same hs (Nat.add_le_add_right hle 1)
  same' := fun h hs hle => h.same hs hle
  result := fun h => h.mono (Nat.le_succ _)
  log := fun _ _ h => h.modify (World.owed_congr rfl).le rfl
  store := by
    intro b m op o m1 slot value s _ hc hx hprep hp hstack h
    have hstore := (prepare_store hc hx h).of_ok hprep slot value s (hp.stack ▸ hstack)
    have hflags := hc.fits
    rw [hx] at hflags
    simp only [Execute.fits, Bool.and_eq_true, Bool.not_eq_true'] at hflags
    exact backed_store hp (hp.gas_lt hflags.1.2 hflags.2) hstore h
  panic := by
    rintro b m op o f hc hx h (rfl | rfl) hprep
    · exact absurd rfl ((prepare_store hc hx h).of_error hprep)
    intro h
    cases h
  allowed := fun _ h _ => h
  suicide := by
    intro b m op o m1 beneficiary _ hc hx hprep hp h
    exact backed_suicide hp ((prepare_suicide hc hx h).of_ok hprep) h beneficiary _
  nest := by
    intro b g evm g' gi h hlt
    -- what is set apart with the gas of the caller is not available to the callee
    have hroom := h.room
    have hlt' := h.lt
    have hsplit : selfdestructRefundGas * (gi + 1) + selfdestructRefundGas * (g' + 1) ≤
        selfdestructRefundGas * (g + 1) := by
      rw [← Nat.mul_add]
      exact Nat.mul_le_mul_left _ (by omega)
    refine ⟨b - selfdestructRefundGas * (g' + 1), ⟨h.owed, by omega, by omega⟩, ?_⟩
    intro gr evm' h'
    have hroom' := h'.room
    have hjoin : selfdestructRefundGas * (g' + gr + 1) =
        selfdestructRefundGas * gr + selfdestructRefundGas * (g' + 1) := by
      rw [← Nat.mul_add]
      congr 1
      omega
    exact ⟨h'.owed, by omega, h.lt⟩
  enter := fun _ h => ⟨_, ⟨h.owed, h.room, h.lt⟩, fun _ hr => ⟨hr.owed, hr.room, hr.lt⟩⟩
  revert := fun h _ gr hle => by
    have h' : Backed _ gr _ := h.mono (by omega)
    exact ⟨h'.owed, h'.room, h'.lt⟩
  call := fun _ _ _ _ h => h.modify owed_callWorld_le refund_callWorld
  touch := fun _ h => h.modify (World.owed_addBalance _).le rfl
  bump := fun _ _ _ h => h.modify owed_bumpNonce.le refund_bumpNonce
  deploy := fun _ _ _ _ h =>
    h.modify owed_newContractWorld_le refund_newContractWorld
  setCode := fun _ _ _ _ h => h.modify (World.owed_setCode _).le rfl

/-! ## Transactions -/

/-- The state at the start of a transaction: nothing was refunded, written or self-destructed. -/
structure Fresh (w : World) : Prop where
  refund : w.refund = 0
  storage : ∀ addr key, w.getState addr key = w.getCommittedState addr key
  suicided : ∀ addr, w.hasSuicided addr = false

theorem Fresh.owed_eq_zero (h : Fresh w) : w.owed = 0 := by
  refine Finset.sum_eq_zero fun addr _ => ?_
  have hstorage := h.storage addr
  have hsuicided := h.suicided addr
  unfold World.getState World.getCommittedState at hstorage
  unfold World.hasSuicided at hsuicided
  unfold World.owedBy
  cases ha : w.getStateObject addr with
  | none => rfl
  | some a =>
    rw [ha] at hstorage hsuicided
    have hslots : ∑ key, slotOwed (a.committed key) (a.storage key) = 0 := by
      refine Finset.sum_eq_zero fun key _ => if_neg ?_
      rintro ⟨hne, hzero⟩
      exact hne ((hstorage key).symm.trans hzero)
    have hsuicided : a.suicided = false := hsuicided
    show a.owed = 0
    unfold Acct.owed
    rw [hsuicided, if_neg Bool.false_ne_true, hslots]

section Calls

variable {env : Env} {b gas : Nat} {evm : Evm} {caller : Address}

theorem create_backed (n : Nat) (code : Bytes) (h : Backed b (gas + 1) evm) :
    Ensures (· ≠ .fault .refund) (fun r => Backed b r.leftOverGas r.evm)
      (create env (run env n) caller code gas value evm) :=
  refund_invariant.createAt_of (refund_invariant.run_keeps n) h _ _ _
    (h.modify owed_bumpNonce.le refund_bumpNonce)
    (fun _ _ h => h.modify owed_newContractWorld_le refund_newContractWorld)
    fun _ _ _ h => h.modify (World.owed_setCode _).le rfl

end Calls

end Virbicoin.Vm
