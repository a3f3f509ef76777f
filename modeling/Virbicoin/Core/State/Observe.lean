import Virbicoin.Core.State.World

/-!
# Observations after an operation

Every operation on an account sets the account at one address to one that is not deleted. The
getters then read that account at this address and are unchanged elsewhere.
-/

namespace Virbicoin.State.World

variable {w : World} {addr b : Address} {a : Acct} {keccak : Bytes → Hash}

section

variable (h : a.deleted = false)
include h

theorem getStateObject_of_set :
    (w.set addr a).getStateObject b = if b = addr then some a else w.getStateObject b := by
  by_cases hb : b = addr
  · subst hb
    rw [if_pos rfl, getStateObject_set h]
  · rw [if_neg hb]
    simp [getStateObject, set, Function.update_of_ne hb]

theorem getBalance_set :
    (w.set addr a).getBalance b = if b = addr then a.balance else w.getBalance b := by
  unfold getBalance
  rw [getStateObject_of_set h]
  split <;> rfl

theorem getNonce_set : (w.set addr a).getNonce b = if b = addr then a.nonce else w.getNonce b := by
  unfold getNonce
  rw [getStateObject_of_set h]
  split <;> rfl

theorem getCode_set : (w.set addr a).getCode b = if b = addr then a.code else w.getCode b := by
  unfold getCode
  rw [getStateObject_of_set h]
  split <;> rfl

theorem getState_set (key : Hash) :
    (w.set addr a).getState b key = if b = addr then a.storage key else w.getState b key := by
  unfold getState
  rw [getStateObject_of_set h]
  split <;> rfl

theorem hasSuicided_set :
    (w.set addr a).hasSuicided b = if b = addr then a.suicided else w.hasSuicided b := by
  unfold hasSuicided
  rw [getStateObject_of_set h]
  split <;> rfl

end

theorem not_deleted_of_getStateObject (h : w.getStateObject addr = some a) : a.deleted = false := by
  unfold getStateObject at h
  split at h
  · split at h
    · cases h
    · simp_all
  · cases h

/-! ## The account that an operation works on -/

theorem getOrNew_deleted : (w.getOrNew keccak addr).deleted = false := by
  unfold getOrNew
  cases h : w.getStateObject addr with
  | none => rfl
  | some a => exact not_deleted_of_getStateObject h

theorem getOrNew_balance : (w.getOrNew keccak addr).balance = w.getBalance addr := by
  unfold getOrNew getBalance
  cases w.getStateObject addr <;> rfl

theorem getOrNew_code : (w.getOrNew keccak addr).code = w.getCode addr := by
  unfold getOrNew getCode
  cases w.getStateObject addr <;> rfl

theorem getOrNew_storage (key : Hash) :
    (w.getOrNew keccak addr).storage key = w.getState addr key := by
  unfold getOrNew getState
  cases w.getStateObject addr <;> rfl

theorem getOrNew_suicided : (w.getOrNew keccak addr).suicided = w.hasSuicided addr := by
  unfold getOrNew hasSuicided
  cases w.getStateObject addr <;> rfl

end Virbicoin.State.World
