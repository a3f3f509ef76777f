import Virbicoin.Lib.Run

/-!
# Specifications of fallible computations

`Ensures E Q x` says that the computation `x` returns a value with `Q` or fails with an error with
`E`. With `E` false it is total correctness, with `E` true partial correctness, and otherwise `E`
tells which errors are possible. The rules follow the construction of an `Except` block: sequence,
check and branch.
-/

namespace Virbicoin.Lib

universe u v w

variable {ε : Type u} {α β : Type v}

def Ensures (E : ε → Prop) (Q : α → Prop) : Except ε α → Prop
  | .ok a => Q a
  | .error e => E e

namespace Ensures

variable {E E' : ε → Prop} {P Q Q' : α → Prop} {x : Except ε α}

theorem ok {a : α} (h : Q a) : Ensures E Q (.ok a) := h

theorem error {e : ε} (h : E e) : Ensures E Q (.error e) := h

theorem mono (h : Ensures E Q x) (hE : ∀ e, E e → E' e) (hQ : ∀ a, Q a → Q' a) :
    Ensures E' Q' x := by
  cases x with
  | ok a => exact hQ a h
  | error e => exact hE e h

theorem imp (h : Ensures E Q x) (hQ : ∀ a, Q a → Q' a) : Ensures E Q' x := h.mono (fun _ => id) hQ

theorem weaken (h : Ensures E Q x) (hE : ∀ e, E e → E' e) : Ensures E' Q x := h.mono hE fun _ => id

theorem any : Ensures (fun _ => True) (fun _ => True) x := by cases x <;> trivial

theorem of_ok {a : α} (h : Ensures E Q x) (hx : x = .ok a) : Q a := by
  subst hx
  exact h

theorem forall_ok {f : β → α} {P : β → Prop} (h : Ensures E (fun a => ∀ b, a = f b → P b) x) :
    ∀ b, x = .ok (f b) → P b :=
  fun b hx => h.of_ok hx b rfl

theorem of_error {e : ε} (h : Ensures E Q x) (hx : x = .error e) : E e := by
  subst hx
  exact h

theorem exists_ok (h : Ensures (fun _ => False) Q x) : ∃ a, x = .ok a ∧ Q a := by
  cases x with
  | ok a => exact ⟨a, rfl, h⟩
  | error e => exact h.elim

theorem of_cases (ok : ∀ a, x = .ok a → Q a) (error : ∀ e, x = .error e → E e) : Ensures E Q x := by
  cases x with
  | ok a => exact ok a rfl
  | error e => exact error e rfl

theorem and (h : Ensures E P x) (h' : Ensures E Q x) : Ensures E (fun a => P a ∧ Q a) x := by
  cases x with
  | ok a => exact ⟨h, h'⟩
  | error e => exact h

theorem bind {R : β → Prop} {f : α → Except ε β} (hx : Ensures E Q x)
    (hf : ∀ a, Q a → Ensures E R (f a)) : Ensures E R (x >>= f) := by
  cases x with
  | ok a => exact hf a hx
  | error e => exact hx

theorem mapError {ε' : Type w} {f : ε → ε'} {E : ε' → Prop} (h : Ensures (fun e => E (f e)) Q x) :
    Ensures E Q (x.mapError f) := by
  cases x with
  | ok a | error e => exact h

theorem failIf {p : Prop} [Decidable p] {e : ε} {Q : Unit → Prop} (hp : p → E e) (h : ¬ p → Q ()) :
    Ensures E Q (failIf p e) := by
  unfold Lib.failIf
  split
  · exact hp ‹_›
  · exact h ‹_›

theorem failIf_bind {p : Prop} [Decidable p] {e : ε} {γ : Type} {R : γ → Prop}
    {f : Unit → Except ε γ} (hp : p → E e) (hf : ¬ p → Ensures E R (f ())) :
    Ensures E R (Lib.failIf p e >>= f) :=
  (failIf hp id).bind fun _ => hf

theorem ite {p : Prop} [Decidable p] {y : Except ε α} (h : p → Ensures E Q x)
    (h' : ¬ p → Ensures E Q y) : Ensures E Q (if p then x else y) := by
  split
  · exact h ‹_›
  · exact h' ‹_›

end Ensures

end Virbicoin.Lib
