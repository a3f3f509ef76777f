import Mathlib.Tactic.Common

/-!
# Stateful code with errors

Code that changes a state and may stop with an error is an `EStateM` program; the state it had
reached is part of the error result. These lemmas take a program apart at its binds: a bind
succeeds when both its parts do (`bind_eq_ok`), and each primitive says what it does to the state.
-/

namespace Virbicoin.Lib.State

universe u

variable {ε σ α β : Type u} {s s' : σ}

variable {f : α → EStateM ε σ β} {x : EStateM ε σ α}

theorem bind_eq_ok {b : β} : (x >>= f) s = .ok b s' ↔ ∃ a t, x s = .ok a t ∧ f a t = .ok b s' := by
  change (match x s with | .ok a t => f a t | .error e t => .error e t) = _ ↔ _
  cases hx : x s with
  | ok a t | error e t => simp

theorem bind_error {e : ε} {p : Prop} (h : (x >>= f) s = .error e s')
    (hx : x s = .error e s' → p) (hf : ∀ a t, x s = .ok a t → f a t = .error e s' → p) : p := by
  change (match x s with | .ok a t => f a t | .error e t => .error e t) = _ at h
  cases hok : x s with
  | ok a t =>
    rw [hok] at h
    exact hf a t hok h
  | error e t =>
    rw [hok] at h
    cases h
    exact hx hok

theorem bind_of_ok {a : α} {t : σ} (h : x s = .ok a t) : (x >>= f) s = f a t := by
  change (match x s with | .ok a t => f a t | .error e t => .error e t) = _
  rw [h]

theorem bind_of_error {e : ε} {t : σ} (h : x s = .error e t) : (x >>= f) s = .error e t := by
  change (match x s with | .ok a t => f a t | .error e t => .error e t) = _
  rw [h]

theorem tryCatch_of_ok {handle : ε → EStateM ε σ α} {a : α} {t : σ} (h : x s = .ok a t) :
    (tryCatch x handle : EStateM ε σ α) s = .ok a t := by
  change x.tryCatch handle s = _
  unfold EStateM.tryCatch
  simp only [h]

@[simp] theorem get_bind {f : σ → EStateM ε σ β} : ((get : EStateM ε σ σ) >>= f) s = f s s := rfl

@[simp] theorem modify_bind {g : σ → σ} {f : PUnit → EStateM ε σ β} :
    ((modify g : EStateM ε σ PUnit) >>= f) s = f ⟨⟩ (g s) := rfl

@[simp] theorem throw_bind {e : ε} : ((throw e : EStateM ε σ α) >>= f) s = .error e s := rfl

@[simp] theorem modify_apply {g : σ → σ} : (modify g : EStateM ε σ PUnit) s = .ok ⟨⟩ (g s) := rfl

@[simp] theorem pure_apply {a : α} : (pure a : EStateM ε σ α) s = .ok a s := rfl

@[simp] theorem throw_apply {e : ε} : (throw e : EStateM ε σ α) s = .error e s := rfl

end Virbicoin.Lib.State
