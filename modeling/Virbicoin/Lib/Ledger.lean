import Mathlib.Algebra.BigOperators.Group.Finset.Piecewise
import Mathlib.Algebra.BigOperators.Group.List.Basic

/-!
# Ledgers

Balances of finitely many accounts, and lists of credits to them. Credits add up: the total grows by
their sum, whatever accounts they go to (`sum_creditAll`), and only the accounts credited change
(`creditAll_of_notMem`).
-/

namespace Virbicoin.Lib

universe u v

variable {α : Type u} {M : Type v} [DecidableEq α] [AddCommMonoid M]

def credit (balances : α → M) (entry : α × M) : α → M :=
  Function.update balances entry.1 (balances entry.1 + entry.2)

def creditAll (balances : α → M) (entries : List (α × M)) : α → M := entries.foldl credit balances

theorem sum_credit [Fintype α] (balances : α → M) (entry : α × M) :
    ∑ a, credit balances entry a = ∑ a, balances a + entry.2 := by
  unfold credit
  rw [Finset.sum_update_of_mem (Finset.mem_univ entry.1),
    ← Finset.add_sum_erase Finset.univ balances (Finset.mem_univ entry.1),
    Finset.sdiff_singleton_eq_erase, add_right_comm]

theorem sum_update_add [Fintype α] (balances : α → M) (a : α) (x : M) :
    ∑ b, Function.update balances a x b + balances a = ∑ b, balances b + x := by
  rw [Finset.sum_update_of_mem (Finset.mem_univ a),
    ← Finset.add_sum_erase Finset.univ balances (Finset.mem_univ a),
    Finset.sdiff_singleton_eq_erase, add_right_comm, add_comm x, add_assoc, add_assoc,
    add_comm x]

theorem sum_creditAll [Fintype α] (balances : α → M) (entries : List (α × M)) :
    ∑ a, creditAll balances entries a = ∑ a, balances a + (entries.map Prod.snd).sum := by
  unfold creditAll
  induction entries generalizing balances with
  | nil => simp
  | cons entry entries ih =>
    rw [List.foldl_cons, ih, sum_credit, List.map_cons, List.sum_cons, add_assoc]

theorem creditAll_of_notMem {balances : α → M} {entries : List (α × M)} {a : α}
    (h : a ∉ entries.map Prod.fst) : creditAll balances entries a = balances a := by
  unfold creditAll
  induction entries generalizing balances with
  | nil => rfl
  | cons entry entries ih =>
    rw [List.map_cons, List.mem_cons, not_or] at h
    rw [List.foldl_cons, ih h.2]
    exact Function.update_of_ne h.1 _ _

end Virbicoin.Lib
