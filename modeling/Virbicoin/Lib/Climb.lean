import Mathlib.Order.Lattice
import Mathlib.Order.Defs.LinearOrder
import Mathlib.Data.List.Induction

/-!
# Sequences that climb

A sequence of values starts from a value and each element goes on from the one before. All but some
free elements do not go down (`Climbs`). The last value is below the start if and only if a free
element went below it and nothing after that came up again (`le_last_iff`).
-/

namespace Virbicoin.Lib

variable {α β : Type}

def last (value : β → α) (v : α) (xs : List β) : α := xs.foldl (fun _ x => value x) v

section Last

variable {value : β → α} {v : α} {x : β} {xs : List β}

theorem last_append {ys : List β} :
    last value v (xs ++ ys) = last value (last value v xs) ys := List.foldl_append

theorem last_append_singleton : last value v (xs ++ [x]) = value x := last_append

theorem last_eq_of_ne_nil (hne : xs ≠ []) : ∃ x ∈ xs, last value v xs = value x := by
  induction xs using List.reverseRecOn with
  | nil => exact absurd rfl hne
  | append_singleton xs y _ =>
    exact ⟨y, List.mem_append_right _ List.mem_cons_self, last_append_singleton⟩

end Last

variable [LinearOrder α]

/-- All elements that are not free have at least the value before them. -/
def Climbs (value : β → α) (free : β → Prop) : α → List β → Prop
  | _, [] => True
  | v, x :: xs => (¬ free x → v ≤ value x) ∧ Climbs value free (value x) xs

variable {value : β → α} {free : β → Prop} {v w : α} {x : β} {xs : List β}

theorem Climbs.append_singleton (h : Climbs value free v xs)
    (hx : ¬ free x → last value v xs ≤ value x) : Climbs value free v (xs ++ [x]) := by
  induction xs generalizing v with
  | nil => exact ⟨hx, trivial⟩
  | cons y ys ih => exact ⟨h.1, ih h.2 hx⟩

theorem Climbs.of_append {ys : List β} (h : Climbs value free v (xs ++ ys)) :
    Climbs value free (last value v xs) ys := by
  induction xs generalizing v with
  | nil => exact h
  | cons x xs ih => exact ih h.2

theorem Climbs.le_last {n : Nat} (h : Climbs value free v xs) (hn : xs.length ≤ n) (hw : w ≤ v)
    (hall : ∀ pre x post, xs = pre ++ x :: post → free x → value x < w → ∃ y ∈ post, w ≤ value y) :
    w ≤ last value v xs := by
  induction n generalizing v xs with
  | zero =>
    rw [List.eq_nil_of_length_eq_zero (Nat.le_zero.1 hn)]
    exact hw
  | succ n ih =>
    cases xs with
    | nil => exact hw
    | cons x xs =>
      rw [List.length_cons] at hn
      by_cases hx : w ≤ value x
      · have hall' : ∀ pre y post, xs = pre ++ y :: post → free y → value y < w →
            ∃ z ∈ post, w ≤ value z :=
          fun pre y post heq => hall (x :: pre) y post (by rw [heq]; rfl)
        exact ih (v := value x) h.2 (by omega) hx hall'
      have hfree : free x := by
        by_contra hfree
        exact hx (hw.trans (h.1 hfree))
      obtain ⟨y, hy, hle⟩ := hall [] x xs rfl hfree (not_le.1 hx)
      obtain ⟨pre, post, rfl⟩ := List.append_of_mem hy
      rw [List.length_append, List.length_cons] at hn
      have hend : last value v ((x :: pre) ++ y :: post) = last value (value y) post :=
        last_append
      have hrest : Climbs value free v ((x :: pre) ++ y :: post) := h
      refine hend ▸ ih hrest.of_append.2 (by omega) hle fun pre' z post' heq => ?_
      exact hall (x :: pre ++ y :: pre') z post' (by rw [heq]; simp)

/-- **A sequence ends at or above a value** that it starts at or above of, if and only if every free
element below the value is followed by one at or above it. -/
theorem le_last_iff (h : Climbs value free v xs) (hw : w ≤ v) :
    w ≤ last value v xs ↔ ∀ pre x post, xs = pre ++ x :: post → free x → value x < w →
      ∃ y ∈ post, w ≤ value y := by
  refine ⟨?_, h.le_last (le_refl _) hw⟩
  rintro hle pre x post rfl - hx
  have hend : last value v (pre ++ x :: post) = last value (value x) post := last_append
  rw [hend] at hle
  by_cases hpost : post = []
  · subst hpost
    exact absurd hx (not_lt.2 hle)
  have hlast : ∃ y ∈ post, last value (value x) post = value y := last_eq_of_ne_nil hpost
  obtain ⟨y, hy, heq⟩ := hlast
  exact ⟨y, hy, heq ▸ hle⟩

end Virbicoin.Lib
