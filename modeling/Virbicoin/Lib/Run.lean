import Mathlib.Data.List.Basic
import Mathlib.Tactic.Common

/-!
# Runs of a fallible step function

A check that returns an error early is a `failIf` in an `Except` block. A program that processes a
list of inputs one after the other and stops at the first error is a fold of a step function
`σ → α → Except ε σ`. `run` is that fold, and what every step preserves holds after the run
(`run_invariant`). `forall_take_iff` is the rule for a property that good steps keep and other steps
break.
-/

namespace Virbicoin.Lib

universe u v w

variable {ε : Type u} {σ : Type v} {α : Type w}

instance decidableEqExcept [DecidableEq ε] [DecidableEq α] : DecidableEq (Except ε α)
  | .ok a, .ok b => decidable_of_iff (a = b) ⟨congrArg _, Except.ok.inj⟩
  | .error e, .error e' => decidable_of_iff (e = e') ⟨congrArg _, Except.error.inj⟩
  | .ok _, .error _ => isFalse nofun
  | .error _, .ok _ => isFalse nofun

theorem bind_eq_ok {β : Type v} {x : Except ε σ} {f : σ → Except ε β} {b : β} :
    x >>= f = .ok b ↔ ∃ a, x = .ok a ∧ f a = .ok b := by
  cases x with
  | error e =>
    constructor
    · intro h; cases h
    · rintro ⟨a, h, -⟩; cases h
  | ok a =>
    constructor
    · intro h; exact ⟨a, rfl, h⟩
    · rintro ⟨a', h, hf⟩; cases h; exact hf

theorem map_eq_ok {β : Type w} {x : Except ε σ} {f : σ → β} {b : β} :
    x.map f = .ok b ↔ ∃ a, x = .ok a ∧ f a = b := by
  cases x with
  | error e | ok a => simp [Except.map]

theorem pure_eq_ok {a b : σ} : (pure a : Except ε σ) = .ok b ↔ b = a :=
  ⟨fun h => (Except.ok.inj h).symm, fun h => congrArg Except.ok h.symm⟩

/-- The check `if p { return e }`. -/
def failIf (p : Prop) [Decidable p] (e : ε) : Except ε Unit := if p then .error e else .ok ()

@[simp] theorem failIf_eq_ok {p : Prop} [Decidable p] {e : ε} {u : Unit} :
    failIf p e = .ok u ↔ ¬ p := by
  unfold failIf
  split <;> simp_all

def run (step : σ → α → Except ε σ) (s : σ) (xs : List α) : Except ε σ :=
  xs.foldlM step s

variable {step : σ → α → Except ε σ}

@[simp] theorem run_nil (s : σ) : run step s [] = .ok s := rfl

variable {xs : List α}

theorem run_cons_ok {s t : σ} {x : α} :
    run step s (x :: xs) = .ok t ↔ ∃ u, step s x = .ok u ∧ run step u xs = .ok t := by
  unfold run
  rw [List.foldlM_cons]
  exact bind_eq_ok

@[simp] theorem run_singleton (s : σ) (x : α) : run step s [x] = step s x := by
  unfold run
  simp

theorem run_append_ok {s t : σ} {ys : List α} :
    run step s (xs ++ ys) = .ok t ↔ ∃ u, run step s xs = .ok u ∧ run step u ys = .ok t := by
  induction xs generalizing s with
  | nil => simp
  | cons x xs ih =>
    rw [List.cons_append, run_cons_ok]
    constructor
    · rintro ⟨u, hu, h⟩
      obtain ⟨v, hv, hvt⟩ := ih.1 h
      exact ⟨v, run_cons_ok.2 ⟨u, hu, hv⟩, hvt⟩
    rintro ⟨v, hv, hvt⟩
    obtain ⟨u, hu, huv⟩ := run_cons_ok.1 hv
    exact ⟨u, hu, ih.2 ⟨v, huv, hvt⟩⟩

theorem run_take_ok {s t : σ} (h : run step s xs = .ok t) (m : Nat) :
    ∃ u, run step s (xs.take m) = .ok u := by
  rw [← List.take_append_drop m xs] at h
  obtain ⟨u, hu, -⟩ := run_append_ok.1 h
  exact ⟨u, hu⟩

theorem run_take_succ_ok {s u u' : σ} {m : Nat} (hm : m < xs.length)
    (hu : run step s (xs.take m) = .ok u) (hu' : run step s (xs.take (m + 1)) = .ok u') :
    step u xs[m] = .ok u' := by
  rw [List.take_add_one, List.getElem?_eq_getElem hm] at hu'
  obtain ⟨v, hv, hstep⟩ := run_append_ok.1 hu'
  rw [hu] at hv
  cases hv
  simpa using hstep

theorem run_invariant {I : σ → Prop} (hstep : ∀ s x t, I s → step s x = .ok t → I t) {s t : σ}
    (hs : I s) (h : run step s xs = .ok t) : I t := by
  induction xs generalizing s with
  | nil => cases h; exact hs
  | cons x xs ih =>
    obtain ⟨u, hu, h⟩ := run_cons_ok.1 h
    exact ih (hstep s x u hs hu) h

/-! ## Properties that hold all along a run -/

section Along

variable (step : σ → α → Option σ)

/-- Every step of a run is good in the state it is taken. -/
def AllSteps (good : σ → α → Prop) : σ → List α → Prop
  | _, [] => True
  | s, x :: xs => good s x ∧ ∀ t, step s x = some t → AllSteps good t xs

theorem allSteps_of_forall {good : σ → α → Prop} (h : ∀ x ∈ xs, ∀ s, good s x)
    (s : σ) : AllSteps step good s xs := by
  induction xs generalizing s with
  | nil => trivial
  | cons x xs ih =>
    exact ⟨h x List.mem_cons_self s, fun t _ => ih (fun y hy => h y (List.mem_cons_of_mem _ hy)) t⟩

theorem AllSteps.and {step : σ → α → Option σ} {good good' : σ → α → Prop} {s : σ}
    (h : AllSteps step good s xs) (h' : AllSteps step good' s xs) :
    AllSteps step (fun s x => good s x ∧ good' s x) s xs := by
  induction xs generalizing s with
  | nil => trivial
  | cons x xs ih => exact ⟨⟨h.1, h'.1⟩, fun t ht => ih (h.2 t ht) (h'.2 t ht)⟩

theorem foldlM_keeps {I : σ → Prop} (hstep : ∀ s x, I s → ∃ t, step s x = some t ∧ I t)
    (xs : List α) {s : σ} (hs : I s) : ∃ t, xs.foldlM step s = some t ∧ I t := by
  induction xs generalizing s with
  | nil => exact ⟨s, rfl, hs⟩
  | cons x xs ih =>
    obtain ⟨t, ht, hI⟩ := hstep s x hs
    rw [List.foldlM_cons, ht]
    exact ih hI

/-- If a good step keeps a property and any other step breaks it, then the property holds all along
a run if and only if all its steps are good. `I` is what every step keeps, and `A` says which steps
may be taken. -/
theorem forall_take_iff {I P : σ → Prop} {A good : σ → α → Prop}
    (hstep : ∀ s x, A s x → I s → P s → ∃ t, step s x = some t ∧ I t ∧ (P t ↔ good s x)) {s : σ}
    (hA : AllSteps step A s xs) (hI : I s) (hP : P s) :
    (∀ k, ∃ t, (xs.take k).foldlM step s = some t ∧ P t) ↔ AllSteps step good s xs := by
  induction xs generalizing s with
  | nil =>
    refine ⟨fun _ => trivial, fun _ k => ?_⟩
    rw [List.take_nil]
    exact ⟨s, rfl, hP⟩
  | cons x xs ih =>
    obtain ⟨t, ht, hI', hiff⟩ := hstep s x hA.1 hI hP
    have hrun : ∀ k, ((x :: xs).take (k + 1)).foldlM step s = (xs.take k).foldlM step t := by
      intro k
      rw [List.take_succ_cons, List.foldlM_cons, ht]
      rfl
    have ih := fun hP' => ih (hA.2 t ht) hI' hP'
    constructor
    · intro hall
      have hone : P t := by
        obtain ⟨u, hu, hPu⟩ := hall 1
        rw [hrun 0] at hu
        cases hu
        exact hPu
      refine ⟨hiff.1 hone, fun u hu => ?_⟩
      cases ht.symm.trans hu
      exact (ih hone).1 fun k => hrun k ▸ hall (k + 1)
    rintro ⟨hgood, hrest⟩ k
    cases k with
    | zero => exact ⟨s, rfl, hP⟩
    | succ k =>
      rw [hrun k]
      exact (ih (hiff.2 hgood)).2 (hrest t ht) k

end Along

end Virbicoin.Lib
