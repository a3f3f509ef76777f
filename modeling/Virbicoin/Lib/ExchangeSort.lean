import Mathlib.Data.List.Destutter
import Mathlib.Data.List.Sort
import Mathlib.Tactic.Common

/-!
# Exchange sort and removal of repeats

The sort of two nested loops over an array,

    for i { for j > i { if a[i] > a[j] { swap a[i] a[j] } } }

on lists: `exchangePass` is the inner loop (`a[i]` is the first component of its result, the rest
of the array the second) and `exchangeSort` the outer one. Removing repeats from a sorted list is
`List.destutter`.
-/

namespace Virbicoin.Lib

open List

universe u

variable {α : Type u} [LinearOrder α]

def exchangePass (x : α) : List α → α × List α
  | [] => (x, [])
  | y :: ys =>
    if y < x then
      let r := exchangePass y ys
      (r.1, x :: r.2)
    else
      let r := exchangePass x ys
      (r.1, y :: r.2)

def exchangeLoop : Nat → List α → List α
  | 0, l => l
  | _ + 1, [] => []
  | n + 1, x :: xs =>
    let r := exchangePass x xs
    r.1 :: exchangeLoop n r.2

def exchangeSort (l : List α) : List α := exchangeLoop l.length l

theorem exchangePass_perm (x : α) (l : List α) :
    ((exchangePass x l).1 :: (exchangePass x l).2).Perm (x :: l) := by
  induction l generalizing x with
  | nil => simp [exchangePass]
  | cons y ys ih =>
    by_cases h : y < x
    · simp only [exchangePass, h, ↓reduceIte]
      exact (List.Perm.swap x _ _).trans ((ih y).cons x)
    · simp only [exchangePass, h, ↓reduceIte]
      exact (List.Perm.swap y _ _).trans (((ih x).cons y).trans (List.Perm.swap x y ys))

theorem exchangePass_le (x : α) (l : List α) :
    (exchangePass x l).1 ≤ x ∧ ∀ y ∈ (exchangePass x l).2, (exchangePass x l).1 ≤ y := by
  induction l generalizing x with
  | nil => simp [exchangePass]
  | cons y ys ih =>
    by_cases h : y < x
    · obtain ⟨h1, h2⟩ := ih y
      simp only [exchangePass, h, ↓reduceIte, forall_mem_cons]
      exact ⟨h1.trans h.le, h1.trans h.le, h2⟩
    obtain ⟨h1, h2⟩ := ih x
    simp only [exchangePass, h, ↓reduceIte, forall_mem_cons]
    exact ⟨h1, h1.trans (not_lt.1 h), h2⟩

theorem exchangePass_length {x : α} : (exchangePass x l).2.length = l.length := by
  have h := (exchangePass_perm x l).length_eq
  simpa using h

theorem exchangeLoop_perm (n : Nat) (l : List α) : (exchangeLoop n l).Perm l := by
  induction n generalizing l with
  | zero => exact .refl _
  | succ n ih =>
    cases l with
    | nil => exact .refl _
    | cons x xs => exact ((ih _).cons _).trans (exchangePass_perm x xs)

theorem exchangeLoop_pairwise (n : Nat) (l : List α) (hn : l.length ≤ n) :
    (exchangeLoop n l).Pairwise (· ≤ ·) := by
  induction n generalizing l with
  | zero =>
    obtain rfl := length_eq_zero_iff.1 (Nat.le_zero.1 hn)
    exact .nil
  | succ n ih =>
    cases l with
    | nil => exact .nil
    | cons x xs =>
      have hlen : (exchangePass x xs).2.length ≤ n := by
        rw [exchangePass_length]
        simpa using hn
      refine pairwise_cons.2 ⟨fun y hy => ?_, ih _ hlen⟩
      exact (exchangePass_le x xs).2 y ((exchangeLoop_perm n _).mem_iff.1 hy)

theorem exchangeSort_perm {l : List α} : (exchangeSort l).Perm l := exchangeLoop_perm _ l

theorem exchangeSort_pairwise (l : List α) : (exchangeSort l).Pairwise (· ≤ ·) :=
  exchangeLoop_pairwise _ l (le_refl _)

/-! ## Removing repeats from a sorted list -/

theorem mem_destutter_ne {l : List α} (h : l.Pairwise (· ≤ ·)) {x : α} :
    x ∈ l.destutter (· ≠ ·) ↔ x ∈ l := by
  rw [h.destutter_eq_dedup, mem_dedup]

theorem destutter_ne_pairwise_lt {l : List α} (h : l.Pairwise (· ≤ ·)) :
    (l.destutter (· ≠ ·)).Pairwise (· < ·) := by
  have hle : (l.destutter (· ≠ ·)).Pairwise (· ≤ ·) := h.sublist (destutter_sublist _ l)
  have hnd : (l.destutter (· ≠ ·)).Nodup := by
    rw [h.destutter_eq_dedup]
    exact nodup_dedup l
  exact (hle.and hnd).imp fun hab => lt_of_le_of_ne hab.1 hab.2

/-! ## Initial segments of a strictly increasing list -/

section Segments

variable {l : List α} (hl : l.Pairwise (· < ·)) {p : α → Bool}
  (hp : ∀ x y, x < y → p y = true → p x = true)

include hl hp in
theorem filter_append_filter_not : l.filter p ++ l.filter (fun x => !p x) = l := by
  induction l with
  | nil => rfl
  | cons x xs ih =>
    obtain ⟨hx, hxs⟩ := pairwise_cons.1 hl
    cases h : p x with
    | true => rw [filter_cons_of_pos h, filter_cons_of_neg (by simp [h]), cons_append, ih hxs]
    | false =>
      have hnone : ∀ y ∈ xs, p y = false := by
        intro y hy
        cases hy' : p y
        · rfl
        · rw [hp x y (hx y hy) hy'] at h; cases h
      rw [filter_cons_of_neg (by simp [h]), filter_cons_of_pos (by simp [h]),
        filter_eq_nil_iff.2 (fun y hy => by simp [hnone y hy]),
        filter_eq_self.2 (fun y hy => by simp [hnone y hy])]
      rfl

include hl hp in
theorem filter_eq_take : l.filter p = l.take (l.filter p).length := by
  conv_rhs => rw [← filter_append_filter_not hl hp]
  simp

include hl hp in
theorem not_of_getElem?_filter_length {x : α} (h : l[(l.filter p).length]? = some x) :
    p x = false := by
  conv at h => lhs; rw [← filter_append_filter_not hl hp]
  rw [getElem?_append_right (by simp)] at h
  have hmem := mem_of_getElem? h
  simpa using (mem_filter.1 hmem).2

end Segments

theorem le_downward (b : α) : ∀ x y, x < y → decide (y ≤ b) = true → decide (x ≤ b) = true := by
  intro x y hxy hy
  simp only [decide_eq_true_eq] at hy ⊢
  exact hxy.le.trans hy

theorem lt_downward (b : α) : ∀ x y, x < y → decide (y < b) = true → decide (x < b) = true := by
  intro x y hxy hy
  simp only [decide_eq_true_eq] at hy ⊢
  exact hxy.trans hy

theorem filter_le_eq_append {l : List α} (hl : l.Pairwise (· < ·)) (b : α) :
    l.filter (· ≤ b) = l.filter (· < b) ++ if b ∈ l then [b] else [] := by
  have hsub : (l.filter (· < b) ++ if b ∈ l then [b] else []).Pairwise (· < ·) := by
    rw [pairwise_append]
    refine ⟨hl.filter _, ?_, fun x hx y hy => ?_⟩
    · split <;> simp
    split at hy
    · rw [mem_singleton.1 hy]
      simpa using (mem_filter.1 hx).2
    · cases hy
  refine (hl.filter _).eq_of_mem_iff hsub fun {x} => ?_
  rw [mem_append, mem_filter, mem_filter, decide_eq_true_eq, decide_eq_true_eq, le_iff_lt_or_eq]
  constructor
  · rintro ⟨hx, hlt | rfl⟩
    · exact .inl ⟨hx, hlt⟩
    rw [if_pos hx]
    exact .inr (mem_singleton_self x)
  rintro (⟨hx, hlt⟩ | hx)
  · exact ⟨hx, .inl hlt⟩
  split at hx
  · rename_i hb
    rw [mem_singleton.1 hx]
    exact ⟨hb, .inr rfl⟩
  · cases hx

theorem getElem?_filter_lt_length {l : List α} (hl : l.Pairwise (· < ·)) {b : α} (hb : b ∈ l) :
    l[(l.filter (· < b)).length]? = some b := by
  have h := filter_append_filter_not hl (le_downward b)
  rw [filter_le_eq_append hl b, if_pos hb, append_assoc] at h
  generalize l.filter (· < b) = below at h
  rw [← h, getElem?_append_right (Nat.le_refl _), Nat.sub_self]
  rfl

end Virbicoin.Lib
