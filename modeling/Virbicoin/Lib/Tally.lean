import Mathlib.Data.Multiset.AddSub
import Mathlib.Data.Multiset.Count
import Mathlib.Tactic.Common

/-!
# Tallies

A tally says how many things there are of every kind. It is kept beside the things themselves, and
goes up and down by one as they come and go. `Tally.of` is the tally that a collection should have.
Things that are not counted have the kind `none`.

A tally that is exact stays so when something leaves and its own kind goes down (`decrIf_of_add`).
`decrIf_of_iff` says when lowering any kind does no harm.
-/

namespace Virbicoin.Lib

open Function

variable {κ : Type} [DecidableEq κ]

abbrev Tally (κ : Type) := κ → Nat

namespace Tally

def of (s : Multiset κ) : Tally κ := fun k => s.count k

def incr (m : Tally κ) (k : κ) : Tally κ := update m k (m k + 1)

/-- One less, or none of a kind of which there is none. -/
def decr (m : Tally κ) (k : κ) : Tally κ := update m k (m k - 1)

def incrIf (m : Tally κ) : Option κ → Tally κ
  | none => m
  | some k => m.incr k

def decrIf (m : Tally κ) : Option κ → Tally κ
  | none => m
  | some k => m.decr k

def single (t : Option κ) : Multiset κ := t.toList

omit [DecidableEq κ] in
@[simp] theorem single_none : single (none : Option κ) = 0 := rfl

theorem of_injective {s t : Multiset κ} (h : of s = of t) : s = t :=
  Multiset.ext.2 fun k => congrFun h k

theorem decr_incr (m : Tally κ) (k : κ) : (m.incr k).decr k = m := by
  unfold decr incr
  rw [update_self, Nat.add_sub_cancel, update_idem, update_eq_self]

theorem incr_apply (m : Tally κ) (k l : κ) : m.incr k l = m l + if l = k then 1 else 0 := by
  rw [incr, update_apply]
  split
  · rename_i h
    rw [h]
  · rfl

theorem decr_apply (m : Tally κ) (k l : κ) : m.decr k l = m l - if l = k then 1 else 0 := by
  rw [decr, update_apply]
  split
  · rename_i h
    rw [h]
  · rfl

theorem decrIf_le {m : Tally κ} {t : Option κ} (k : κ) : m.decrIf t k ≤ m k := by
  cases t with
  | none => exact le_refl _
  | some l =>
    show m.decr l k ≤ m k
    rw [decr_apply]
    exact Nat.sub_le _ _

theorem incrIf_of (s : Multiset κ) (t : Option κ) : (of s).incrIf t = of (single t + s) := by
  cases t with
  | none => exact congrArg of s.zero_add.symm
  | some k =>
    funext l
    show (of s).incr k l = (({k} : Multiset κ) + s).count l
    rw [incr_apply, Multiset.count_add, Multiset.count_singleton]
    exact Nat.add_comm _ _

theorem decrIf_of_add (s : Multiset κ) (t : Option κ) : (of (single t + s)).decrIf t = of s := by
  rw [← incrIf_of]
  cases t with
  | none => rfl
  | some k => exact decr_incr _ k

theorem incrIf_decrIf {m : Tally κ} {t : Option κ} {s : Multiset κ} (h : m = of (single t + s)) :
    (m.decrIf t).incrIf t = m := by
  rw [h, decrIf_of_add, incrIf_of]

theorem decrIf_lt {m : Tally κ} {k : κ} {s : Multiset κ} (h : m = of (single (some k) + s)) :
    m.decrIf (some k) k < m k := by
  rw [h, decrIf_of_add, ← incrIf_of]
  show of s k < (of s).incr k k
  rw [incr_apply, if_pos rfl]
  exact Nat.lt_succ_self _

theorem decrIf_of_iff (s : Multiset κ) (held t : Option κ) :
    (of (single held + s)).decrIf t = of s ↔
      t = held ∨ held = none ∧ ∃ k, t = some k ∧ s.count k = 0 := by
  constructor
  · intro h
    cases held with
    | none =>
      cases t with
      | none => exact .inl rfl
      | some k =>
        have hk : (of s).decr k k = s.count k := by
          have := congrFun h k
          rwa [← incrIf_of] at this
        rw [decr_apply, if_pos rfl] at hk
        have hof : of s k = s.count k := rfl
        exact .inr ⟨rfl, k, rfl, by omega⟩
    | some l =>
      have hl := congrFun h l
      rw [← incrIf_of] at hl
      cases t with
      | none =>
        have : (of s).incr l l = of s l := hl
        rw [incr_apply, if_pos rfl] at this
        omega
      | some k =>
        by_cases hkl : l = k
        · exact .inl (congrArg some hkl.symm)
        have : ((of s).incr l).decr k l = of s l := hl
        rw [decr_apply, incr_apply, if_pos rfl, if_neg hkl] at this
        omega
  rintro (rfl | ⟨rfl, k, rfl, hk⟩)
  · exact decrIf_of_add s t
  rw [← incrIf_of]
  funext l
  show (of s).decr k l = of s l
  rw [decr_apply]
  by_cases hl : l = k
  · subst hl
    have : of s l = 0 := hk
    omega
  rw [if_neg hl]
  rfl

end Tally

end Virbicoin.Lib
