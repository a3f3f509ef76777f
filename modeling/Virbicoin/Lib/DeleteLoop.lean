import Mathlib.Data.List.Basic
import Mathlib.Tactic.Common

/-!
# Deleting from a slice while looping over it

The loop `for i := 0; i < len(xs); i++` whose body deletes the element at `i` and steps the index
back deletes what satisfies a condition, and visits every element once and in order
(`deleteAll_eq`). The body may also update a state with each element it deletes. A loop that breaks
after its first deletion does the same when at most one element satisfies the condition
(`deleteFirst_eq_deleteAll`).
-/

namespace Virbicoin.Lib

open List

universe u v

variable {α : Type u} {σ : Type v}

def deleteLoop (p : α → Bool) (f : σ → α → σ) (st : σ) (xs : List α) (i : Nat) : σ × List α :=
  if h : i < xs.length then
    if p xs[i] then
      -- `xs = append(xs[:i], xs[i+1:]...); i--`, and the `i++` of the loop
      deleteLoop p f (f st xs[i]) (xs.eraseIdx i) i
    else
      deleteLoop p f st xs (i + 1)
  else
    (st, xs)
termination_by xs.length - i
decreasing_by
  · rw [length_eraseIdx, if_pos h]
    omega
  · omega

def deleteAll (p : α → Bool) (f : σ → α → σ) (st : σ) (xs : List α) : σ × List α :=
  deleteLoop p f st xs 0

theorem deleteLoop_eq (p : α → Bool) (f : σ → α → σ) (st : σ) (xs : List α) (i : Nat) :
    deleteLoop p f st xs i =
      (((xs.drop i).filter p).foldl f st, xs.take i ++ (xs.drop i).filter (fun x => !p x)) := by
  fun_induction deleteLoop p f st xs i with
  | case1 st xs i h hp ih =>
    rw [ih, drop_eq_getElem_cons h, filter_cons_of_pos hp,
      filter_cons_of_neg (by simpa using hp), foldl_cons]
    have hlen : (xs.take i).length = i := length_take_of_le (Nat.le_of_lt h)
    have hdrop : (xs.eraseIdx i).drop i = xs.drop (i + 1) := by
      rw [eraseIdx_eq_take_drop_succ, drop_left' hlen]
    have htake : (xs.eraseIdx i).take i = xs.take i := by
      rw [eraseIdx_eq_take_drop_succ, take_left' hlen]
    rw [hdrop, htake]
  | case2 st xs i h hp ih =>
    rw [ih, drop_eq_getElem_cons h, filter_cons_of_neg hp,
      filter_cons_of_pos (by simpa using hp), ← take_append_getElem h,
      append_assoc, singleton_append]
  | case3 st xs i h =>
    rw [drop_eq_nil_of_le (by omega), take_of_length_le (by omega)]
    simp

theorem deleteAll_eq (p : α → Bool) (f : σ → α → σ) (st : σ) (xs : List α) :
    deleteAll p f st xs = ((xs.filter p).foldl f st, xs.filter fun x => !p x) := by
  unfold deleteAll
  rw [deleteLoop_eq, drop_zero, take_zero, nil_append]

def deleteFirst (p : α → Bool) (f : σ → α → σ) (st : σ) (xs : List α) : σ × List α :=
  match xs.find? p with
  | none => (st, xs)
  | some x => (f st x, xs.eraseP p)

theorem filter_of_find? {p : α → Bool} {xs : List α} {x : α}
    (hxs : xs.Pairwise fun y z => ¬ (p y ∧ p z)) (h : xs.find? p = some x) :
    xs.filter p = [x] ∧ xs.eraseP p = xs.filter fun y => !p y := by
  induction xs with
  | nil => cases h
  | cons y xs ih =>
    obtain ⟨hy, hxs⟩ := pairwise_cons.1 hxs
    by_cases hp : p y = true
    · have hnone : ∀ z ∈ xs, ¬ p z = true := fun z hz hpz => hy z hz ⟨hp, hpz⟩
      rw [find?_cons_of_pos hp, Option.some.injEq] at h
      subst h
      rw [filter_cons_of_pos hp, eraseP_cons_of_pos hp,
        filter_cons_of_neg (by simpa using hp), filter_eq_nil_iff.2 hnone,
        filter_eq_self.2 fun z hz => by simpa using hnone z hz]
      exact ⟨rfl, rfl⟩
    rw [find?_cons_of_neg hp] at h
    obtain ⟨hfilter, herase⟩ := ih hxs h
    rw [filter_cons_of_neg hp, eraseP_cons_of_neg hp,
      filter_cons_of_pos (by simpa using hp), herase]
    exact ⟨hfilter, rfl⟩

theorem deleteFirst_eq_deleteAll {p : α → Bool} {xs : List α} (f : σ → α → σ) (st : σ)
    (hxs : xs.Pairwise fun y z => ¬ (p y ∧ p z)) :
    deleteFirst p f st xs = deleteAll p f st xs := by
  unfold deleteFirst
  rw [deleteAll_eq]
  cases h : xs.find? p with
  | none =>
    have hnone := find?_eq_none.1 h
    rw [filter_eq_nil_iff.2 hnone, filter_eq_self.2 fun z hz => by simpa using hnone z hz]
    rfl
  | some x =>
    obtain ⟨hfilter, herase⟩ := filter_of_find? hxs h
    simp only [hfilter, herase, foldl_cons, foldl_nil]

end Virbicoin.Lib
