import Mathlib.Algebra.BigOperators.Group.Finset.Basic
import Mathlib.Algebra.Order.BigOperators.Group.Finset
import Mathlib.Data.Finmap

/-!
# Totals over a finite map

The sum of a quantity over the entries of a finite map, the entries that a key does not have
counting nothing. It depends on what each key contributes only (`total_congr`), an insertion
replaces the contribution of a key (`total_insert`) and a deletion takes it away (`total_erase`).
-/

namespace Virbicoin.Lib

open Finmap

universe u v w

variable {α : Type u} [DecidableEq α] {β : Type v} {M : Type w}

def valueAt [Zero M] (f : α → β → M) (m : Finmap fun _ : α => β) (a : α) : M :=
  (m.lookup a).elim 0 (f a)

def total [AddCommMonoid M] (f : α → β → M) (m : Finmap fun _ : α => β) : M :=
  ∑ a ∈ m.keys, valueAt f m a

section Zero

variable [Zero M] (f : α → β → M) {m : Finmap fun _ : α => β} {a : α} {b : β}

theorem valueAt_of_lookup (h : m.lookup a = some b) : valueAt f m a = f a b := by
  rw [valueAt, h]
  rfl

theorem valueAt_of_not_mem (h : a ∉ m) : valueAt f m a = 0 := by
  rw [valueAt, lookup_eq_none.2 h]
  rfl

theorem valueAt_insert {c : α} :
    valueAt f (m.insert a b) c = if c = a then f a b else valueAt f m c := by
  unfold valueAt
  split
  · rename_i h
    subst h
    rw [lookup_insert]
    rfl
  rename_i h
  rw [lookup_insert_of_ne m h]

theorem valueAt_erase {c : α} : valueAt f (m.erase a) c = if c = a then 0 else valueAt f m c := by
  unfold valueAt
  split
  · rename_i h
    subst h
    rw [lookup_erase]
    rfl
  rename_i h
  rw [lookup_erase_ne h]

end Zero

section Sum

variable [AddCommMonoid M] {f f' : α → β → M} {m m' : Finmap fun _ : α => β}

theorem total_eq_sum {s : Finset α} (h : m.keys ⊆ s) : total f m = ∑ a ∈ s, valueAt f m a := by
  refine Finset.sum_subset h fun a _ ha => valueAt_of_not_mem f ?_
  rwa [← mem_keys]

theorem total_congr (h : ∀ a, valueAt f m a = valueAt f' m' a) : total f m = total f' m' := by
  have hs : m.keys ⊆ m.keys ∪ m'.keys := Finset.subset_union_left
  have hs' : m'.keys ⊆ m.keys ∪ m'.keys := Finset.subset_union_right
  rw [total_eq_sum hs, total_eq_sum hs']
  exact Finset.sum_congr rfl fun a _ => h a

theorem total_add_valueAt (a : α) (h : ∀ c, c ≠ a → valueAt f m c = valueAt f' m' c) :
    total f m + valueAt f' m' a = total f' m' + valueAt f m a := by
  let s := insert a (m.keys ∪ m'.keys)
  have hs : m.keys ⊆ s := fun c hc => by simp [s, hc]
  have hs' : m'.keys ⊆ s := fun c hc => by simp [s, hc]
  have ha : a ∈ s := Finset.mem_insert_self _ _
  rw [total_eq_sum hs, total_eq_sum hs', ← Finset.add_sum_erase s _ ha,
    ← Finset.add_sum_erase s (valueAt f' m') ha,
    Finset.sum_congr rfl fun c hc => h c (Finset.ne_of_mem_erase hc)]
  rw [add_right_comm, add_comm (valueAt f m a), add_right_comm]

theorem total_insert (f : α → β → M) (m : Finmap fun _ : α => β) (a : α) (b : β) :
    total f (m.insert a b) + valueAt f m a = total f m + f a b := by
  have hother : ∀ c, c ≠ a → valueAt f (m.insert a b) c = valueAt f m c := fun c hc => by
    rw [valueAt_insert, if_neg hc]
  have h := total_add_valueAt a hother
  rwa [valueAt_insert, if_pos rfl] at h

theorem total_erase (f : α → β → M) (m : Finmap fun _ : α => β) (a : α) :
    total f (m.erase a) + valueAt f m a = total f m := by
  have hother : ∀ c, c ≠ a → valueAt f (m.erase a) c = valueAt f m c := fun c hc => by
    rw [valueAt_erase, if_neg hc]
  have h := total_add_valueAt a hother
  rwa [valueAt_erase, if_pos rfl, add_zero] at h

end Sum

section Order

variable [AddCommMonoid M] [PartialOrder M] [IsOrderedAddMonoid M] {f f' : α → β → M}
  {m m' : Finmap fun _ : α => β}

theorem total_le (h : ∀ a, valueAt f m a ≤ valueAt f' m' a) : total f m ≤ total f' m' := by
  have hs : m.keys ⊆ m.keys ∪ m'.keys := Finset.subset_union_left
  have hs' : m'.keys ⊆ m.keys ∪ m'.keys := Finset.subset_union_right
  rw [total_eq_sum hs, total_eq_sum hs']
  exact Finset.sum_le_sum fun a _ => h a

theorem total_lt {M : Type w} [AddCommMonoid M] [PartialOrder M] [IsOrderedCancelAddMonoid M]
    {f f' : α → β → M} (h : ∀ a, valueAt f m a ≤ valueAt f' m' a) {a : α}
    (ha : valueAt f m a < valueAt f' m' a) : total f m < total f' m' := by
  let s := insert a (m.keys ∪ m'.keys)
  have hs : m.keys ⊆ s := fun c hc => by simp [s, hc]
  have hs' : m'.keys ⊆ s := fun c hc => by simp [s, hc]
  rw [total_eq_sum hs, total_eq_sum hs']
  exact Finset.sum_lt_sum (fun c _ => h c) ⟨a, Finset.mem_insert_self _ _, ha⟩

theorem total_nonneg (h : ∀ a b, 0 ≤ f a b) : 0 ≤ total f m := by
  refine Finset.sum_nonneg fun a _ => ?_
  unfold valueAt
  cases m.lookup a with
  | none => exact le_rfl
  | some b => exact h a b

theorem valueAt_le_total (h : ∀ a b, 0 ≤ f a b) (a : α) : valueAt f m a ≤ total f m := by
  by_cases ha : a ∈ m
  · refine Finset.single_le_sum (f := valueAt f m) (fun c _ => ?_) (mem_keys.2 ha)
    unfold valueAt
    cases m.lookup c with
    | none => exact le_rfl
    | some b => exact h c b
  rw [valueAt_of_not_mem f ha]
  exact total_nonneg h

end Order

end Virbicoin.Lib
