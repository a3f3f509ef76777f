import Mathlib.Tactic.Common

/-!
# Machines that call themselves

An interpreter advances a state by steps, and a step may run the interpreter once more, on a frame
of its own. `loop step out n` runs such a machine with fuel `n`; `out` is the result without fuel.

A property of runs is proved once for a step, from the same property of the runs that the step can
start (`loop_spec`). It may depend on the fuel, so the rule covers partial correctness, the absence
of certain errors and, with a measure below the fuel, termination.
-/

namespace Virbicoin.Lib

universe u v w

variable {σ : Type u} {ρ : Type v} {ε : Type w}

def advance (step : (σ → Except ε ρ) → σ → Except ε (σ ⊕ ρ)) (f : σ → Except ε ρ) (s : σ) :
    Except ε ρ :=
  match step f s with
  | .error e => .error e
  | .ok (.inl t) => f t
  | .ok (.inr r) => .ok r

def loop (step : (σ → Except ε ρ) → σ → Except ε (σ ⊕ ρ)) (out : ε) : Nat → σ → Except ε ρ
  | 0, _ => .error out
  | n + 1, s => advance step (loop step out n) s

variable {step : (σ → Except ε ρ) → σ → Except ε (σ ⊕ ρ)} {out : ε}

theorem advance_cases {P : Except ε ρ → Prop} {f : σ → Except ε ρ} {s : σ}
    (error : ∀ e, step f s = .error e → P (.error e))
    (next : ∀ t, step f s = .ok (.inl t) → P (f t))
    (done : ∀ r, step f s = .ok (.inr r) → P (.ok r)) : P (advance step f s) := by
  unfold advance
  split
  · exact error _ ‹_›
  · exact next _ ‹_›
  · exact done _ ‹_›

/-- **The rule for runs.** What holds without fuel, and of a round if it holds of the runs that the
round can start, holds of every run. -/
theorem loop_spec (Spec : Nat → σ → Except ε ρ → Prop) (zero : ∀ s, Spec 0 s (.error out))
    (succ : ∀ n, (∀ t, Spec n t (loop step out n t)) →
      ∀ s, Spec (n + 1) s (advance step (loop step out n) s)) (n : Nat) :
    ∀ s, Spec n s (loop step out n s) := by
  induction n with
  | zero => exact zero
  | succ n ih => exact succ n ih

end Virbicoin.Lib
