import Mathlib.Data.Finset.Basic
import Mathlib.Data.List.Sort

/-!
# Visiting the elements of a finite set

A loop over a map visits the keys in an order that the program does not determine. `Visit α` is one
such choice for every set: a list with the elements of the set, each once.
-/

namespace Virbicoin.Lib

structure Visit (α : Type) where
  order : Finset α → List α
  nodup : ∀ s, (order s).Nodup
  mem_order : ∀ {s : Finset α} {a : α}, a ∈ order s ↔ a ∈ s

namespace Visit

variable {α : Type}

section Sorted

variable (f : α → Nat) (hf : Function.Injective f)

def sortedBy : Visit α where
  order s := Quotient.liftOn s.1 (List.insertionSort (fun a b => f a ≤ f b)) fun l₁ l₂ hl => by
    have htotal : Std.Total (fun a b : α => f a ≤ f b) := ⟨fun a b => Nat.le_total _ _⟩
    have htrans : IsTrans α (fun a b => f a ≤ f b) := ⟨fun _ _ _ => Nat.le_trans⟩
    have hanti : Std.Antisymm (fun a b : α => f a ≤ f b) :=
      ⟨fun _ _ h h' => hf (Nat.le_antisymm h h')⟩
    exact List.Perm.eq_of_pairwise' (List.pairwise_insertionSort _ l₁)
      (List.pairwise_insertionSort _ l₂)
      ((List.perm_insertionSort _ l₁).trans (hl.trans (List.perm_insertionSort _ l₂).symm))
  nodup s := by
    obtain ⟨l, hl⟩ := s
    induction l using Quotient.inductionOn with
    | _ l => exact (List.perm_insertionSort _ l).nodup_iff.2 hl
  mem_order {s a} := by
    obtain ⟨l, hl⟩ := s
    induction l using Quotient.inductionOn with
    | _ l => exact (List.perm_insertionSort _ l).mem_iff

end Sorted

end Visit

end Virbicoin.Lib
