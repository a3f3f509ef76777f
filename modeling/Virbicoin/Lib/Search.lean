import Mathlib.Data.Nat.Basic
import Mathlib.Tactic.Common

/-!
# Binary search

`search n f` is the loop of `sort.Search`: it halves an interval that starts as `[0, n)` and keeps
`f` false to its left and true from its end on. For a predicate that stays true once it is true the
result is the first index with `f`, or `n` (`search_spec`).
-/

namespace Virbicoin.Lib

def searchLoop (f : Nat → Bool) (i j : Nat) : Nat :=
  if i < j then
    let h := (i + j) / 2
    if f h then searchLoop f i h else searchLoop f (h + 1) j
  else i
termination_by j - i

def search (n : Nat) (f : Nat → Bool) : Nat := searchLoop f 0 n

theorem searchLoop_spec {f : Nat → Bool} {n i j : Nat}
    (hmono : ∀ a b, a ≤ b → b < n → f a = true → f b = true) (hij : i ≤ j) (hj : j ≤ n)
    (hleft : ∀ a, a < i → f a = false) (hright : ∀ a, j ≤ a → a < n → f a = true) :
    searchLoop f i j ≤ n ∧ (∀ a, a < searchLoop f i j → f a = false) ∧
      ∀ a, searchLoop f i j ≤ a → a < n → f a = true := by
  fun_induction searchLoop f i j with
  | case1 i j hlt h hf ih =>
    refine ih (by omega) (by omega) hleft ?_
    intro a ha hn
    exact hmono h a ha hn hf
  | case2 i j hlt h hf ih =>
    refine ih (by omega) hj ?_ hright
    intro a ha
    -- a true value at `a` would be one at `h`
    by_contra hfa
    exact hf (hmono a h (by omega) (by omega) (by simpa using hfa))
  | case3 i j hlt =>
    have heq : i = j := by omega
    subst heq
    exact ⟨hj, hleft, hright⟩

theorem search_spec {f : Nat → Bool} {n : Nat}
    (hmono : ∀ a b, a ≤ b → b < n → f a = true → f b = true) :
    search n f ≤ n ∧ (∀ a, a < search n f → f a = false) ∧
      ∀ a, search n f ≤ a → a < n → f a = true :=
  searchLoop_spec hmono n.zero_le n.le_refl (by omega) (by omega)

end Virbicoin.Lib
