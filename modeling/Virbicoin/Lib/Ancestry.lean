import Mathlib.Algebra.Order.Ring.Int
import Mathlib.Logic.Function.Basic
import Mathlib.Tactic.Common

/-!
# Ancestry in a tree of blocks

`link` says of the blocks that are there, by their keys, what their parent, height and weight are.
`Ancestor link k n a` means that `a` is the ancestor of `k` at height `n`; a block is its own
ancestor at its own height.

An index by height describes a head if it holds the head's ancestors and nothing else (`Describes`).
`describes_of_fork` is the rule for an index that is changed from one head to another.
-/

namespace Virbicoin.Lib

open Function

variable {κ : Type}

structure Link (κ : Type) where
  parent : κ
  number : Nat
  weight : Int

section Relations

variable (link : κ → Option (Link κ))

inductive Ancestor : κ → Nat → κ → Prop
  | self {k : κ} {v : Link κ} {n : Nat} : link k = some v → v.number = n → Ancestor k n k
  | up {k a : κ} {v : Link κ} {n : Nat} : link k = some v → n < v.number →
      Ancestor v.parent n a → Ancestor k n a

inductive Weighs : κ → Int → Prop
  | root {k : κ} {v : Link κ} : link k = some v → v.number = 0 → Weighs k v.weight
  | step {k : κ} {v : Link κ} {w : Int} : link k = some v → 0 < v.number → Weighs v.parent w →
      Weighs k (w + v.weight)

structure Tree (genesis : κ) : Prop where
  has_root : ∃ v, link genesis = some v ∧ v.number = 0
  root : ∀ {k v}, link k = some v → v.number = 0 → k = genesis
  parent : ∀ {k v}, link k = some v → 0 < v.number →
    ∃ p, link v.parent = some p ∧ v.number = p.number + 1

/-- The index by height holds the ancestors of the head. -/
def Describes (index : Nat → Option κ) (head : κ) : Prop :=
  ∀ n a, index n = some a ↔ Ancestor link head n a

end Relations

variable {link link' : κ → Option (Link κ)} {genesis k a b c head : κ} {v : Link κ} {m n : Nat}
  {w w' : Int}

namespace Ancestor

section

variable (h : Ancestor link k n a)
include h

theorem link_eq : ∃ v, link a = some v ∧ v.number = n := by
  induction h with
  | self hk hn => exact ⟨_, hk, hn⟩
  | up _ _ _ ih => exact ih

theorem le (hk : link k = some v) : n ≤ v.number := by
  cases h with
  | self hk' hn =>
    cases hk.symm.trans hk'
    exact le_of_eq hn.symm
  | up hk' hlt _ =>
    cases hk.symm.trans hk'
    exact le_of_lt hlt

theorem unique (h' : Ancestor link k n b) : a = b := by
  induction h with
  | self hk hn =>
    cases h' with
    | self _ _ => rfl
    | up hk' hlt _ =>
      cases hk.symm.trans hk'
      omega
  | up hk hlt _ ih =>
    cases h' with
    | self hk' hn =>
      cases hk.symm.trans hk'
      omega
    | up hk' _ h' =>
      cases hk.symm.trans hk'
      exact ih h'

omit h in
theorem eq_self (h : Ancestor link k v.number a) (hk : link k = some v) : a = k :=
  h.unique (.self hk rfl)

theorem trans (h' : Ancestor link a m b) : Ancestor link k m b := by
  induction h with
  | self _ _ => exact h'
  | up hk hlt hup ih =>
    obtain ⟨u, hu, rfl⟩ := hup.link_eq
    exact .up hk (lt_of_le_of_lt (h'.le hu) hlt) (ih h')

theorem restrict_below (hle : m ≤ n) (h' : Ancestor link k m b) : Ancestor link a m b := by
  induction h with
  | self _ _ => exact h'
  | up hk hlt _ ih =>
    cases h' with
    | self hk' hm =>
      cases hk.symm.trans hk'
      omega
    | up hk' _ h' =>
      cases hk.symm.trans hk'
      exact ih hle h'

end

theorem of_parent {p : Link κ} (hk : link k = some v) (hp : link v.parent = some p)
    (hn : v.number = p.number + 1) : Ancestor link k p.number v.parent :=
  .up hk (by omega) (.self hp rfl)

end Ancestor

namespace Tree

theorem exists_ancestor (h : Tree link genesis) (hk : link k = some v) (hn : n ≤ v.number) :
    ∃ a, Ancestor link k n a := by
  induction hv : v.number generalizing k v with
  | zero =>
    obtain rfl : n = v.number := by omega
    exact ⟨k, .self hk rfl⟩
  | succ d ih =>
    obtain rfl | hlt := eq_or_lt_of_le hn
    · exact ⟨k, .self hk rfl⟩
    obtain ⟨p, hp, hnum⟩ := h.parent hk (by omega)
    obtain ⟨a, ha⟩ := ih hp (by omega) (by omega)
    exact ⟨a, .up hk hlt ha⟩

theorem ancestor_zero (h : Tree link genesis) (hk : link k = some v) :
    Ancestor link k 0 genesis := by
  obtain ⟨a, ha⟩ := h.exists_ancestor hk (Nat.zero_le _)
  obtain ⟨u, hu, hzero⟩ := ha.link_eq
  rwa [h.root hu hzero] at ha

theorem exists_weight (h : Tree link genesis) (hk : link k = some v) : ∃ w, Weighs link k w := by
  induction hv : v.number generalizing k v with
  | zero => exact ⟨_, .root hk hv⟩
  | succ d ih =>
    obtain ⟨p, hp, hnum⟩ := h.parent hk (by omega)
    obtain ⟨w, hw⟩ := ih hp (by omega)
    exact ⟨_, .step hk (by omega) hw⟩

end Tree

namespace Weighs

theorem unique (h : Weighs link k w) (h' : Weighs link k w') : w = w' := by
  induction h generalizing w' with
  | root hk hzero =>
    cases h' with
    | root hk' _ =>
      cases hk.symm.trans hk'
      rfl
    | step hk' hpos _ =>
      cases hk.symm.trans hk'
      omega
  | step hk hpos _ ih =>
    cases h' with
    | root hk' hzero =>
      cases hk.symm.trans hk'
      omega
    | step hk' _ h' =>
      cases hk.symm.trans hk'
      rw [ih h']

theorem lt_of_ancestor (h : Weighs link k w)
    (hpos : ∀ k v, link k = some v → 0 < v.number → 0 < v.weight) (ha : Ancestor link k n a)
    (hne : a ≠ k) (h' : Weighs link a w') : w' < w := by
  induction ha generalizing w with
  | self _ _ => exact absurd rfl hne
  | @up k a v n hk hlt hup ih =>
    cases h with
    | root hk' hzero =>
      cases hk.symm.trans hk'
      omega
    | @step _ _ u hk' hnum hw =>
      cases hk.symm.trans hk'
      have hweight := hpos k v hk hnum
      by_cases hp : a = v.parent
      · subst hp
        have := h'.unique hw
        omega
      have := ih hw hp h'
      omega

end Weighs

theorem describes_iff {index : Nat → Option κ} (h : Tree link genesis)
    (hhead : link head = some v) :
    Describes link index head ↔ (∀ n ≤ v.number, ∃ a, index n = some a ∧ Ancestor link head n a) ∧
        ∀ n, v.number < n → index n = none := by
  constructor
  · intro hd
    refine ⟨fun n hn => ?_, fun n hn => ?_⟩
    · obtain ⟨a, ha⟩ := h.exists_ancestor hhead hn
      exact ⟨a, (hd n a).2 ha, ha⟩
    cases hi : index n with
    | none => rfl
    | some a => exact absurd (((hd n a).1 hi).le hhead) (not_le.2 hn)
  rintro ⟨hanc, habove⟩ n a
  by_cases hn : n ≤ v.number
  · obtain ⟨b, hb, hanc⟩ := hanc n hn
    rw [hb]
    exact ⟨fun heq => Option.some.inj heq ▸ hanc, fun ha => by rw [ha.unique hanc]⟩
  rw [habove n (by omega)]
  exact ⟨fun heq => (by cases heq), fun ha => absurd (ha.le hhead) hn⟩

/-! ## More blocks -/

def Extends (link link' : κ → Option (Link κ)) : Prop := ∀ k v, link k = some v → link' k = some v

theorem Ancestor.extend (hext : Extends link link') (h : Ancestor link k n a) :
    Ancestor link' k n a := by
  induction h with
  | self hk hn => exact .self (hext _ _ hk) hn
  | up hk hlt _ ih => exact .up (hext _ _ hk) hlt ih

theorem Ancestor.restrict (hext : Extends link link') (htree : Tree link genesis)
    (hk : link k = some v) (h : Ancestor link' k n a) : Ancestor link k n a := by
  induction h generalizing v with
  | self hk' hn =>
    cases (hext _ _ hk).symm.trans hk'
    exact .self hk hn
  | up hk' hlt _ ih =>
    cases (hext _ _ hk).symm.trans hk'
    obtain ⟨p, hp, -⟩ := htree.parent hk (by omega)
    exact .up hk hlt (ih hp)

theorem Weighs.extend (hext : Extends link link') (h : Weighs link k w) : Weighs link' k w := by
  induction h with
  | root hk hzero => exact .root (hext _ _ hk) hzero
  | step hk hpos _ ih => exact .step (hext _ _ hk) hpos ih

theorem Weighs.restrict (hext : Extends link link') (htree : Tree link genesis)
    (hk : link k = some v) (h : Weighs link' k w) : Weighs link k w := by
  obtain ⟨u, hu⟩ := htree.exists_weight hk
  rwa [h.unique (hu.extend hext)]

section Insert

variable [DecidableEq κ] {p : Link κ}

theorem extends_update (hk : link k = none) : Extends link (update link k (some v)) := by
  intro j u hj
  rw [update_of_ne _ _ _, hj]
  rintro rfl
  rw [hk] at hj
  cases hj

theorem Tree.insert (h : Tree link genesis) (hk : link k = none) (hp : link v.parent = some p)
    (hn : v.number = p.number + 1) : Tree (update link k (some v)) genesis := by
  have hext : Extends link (update link k (some v)) := extends_update hk
  obtain ⟨g, hg, hzero⟩ := h.has_root
  refine ⟨⟨g, hext _ _ hg, hzero⟩, fun {j u} hj hu => ?_, fun {j u} hj hu => ?_⟩
  · by_cases hjk : j = k
    · subst hjk
      rw [update_self] at hj
      cases hj
      omega
    rw [update_of_ne hjk] at hj
    exact h.root hj hu
  by_cases hjk : j = k
  · subst hjk
    rw [update_self] at hj
    cases hj
    exact ⟨p, hext _ _ hp, hn⟩
  rw [update_of_ne hjk] at hj
  obtain ⟨q, hq, hnum⟩ := h.parent hj hu
  exact ⟨q, hext _ _ hq, hnum⟩

theorem Tree.insert_leaf (h : Tree link genesis) (hk : link k = none)
    (hp : link v.parent = some p) {j : κ} {u : Link κ}
    (hj : update link k (some v) j = some u) (hu : 0 < u.number) : u.parent ≠ k := by
  rintro rfl
  by_cases hjk : j = u.parent
  · subst hjk
    rw [update_self] at hj
    cases hj
    rw [hk] at hp
    cases hp
  rw [update_of_ne hjk] at hj
  obtain ⟨q, hq, -⟩ := h.parent hj hu
  rw [hk] at hq
  cases hq

end Insert

theorem Describes.extend {index : Nat → Option κ} (hext : Extends link link')
    (htree : Tree link genesis) (hhead : link head = some v) (h : Describes link index head) :
    Describes link' index head := fun n a =>
  ⟨fun hn => ((h n a).1 hn).extend hext, fun ha => (h n a).2 (ha.restrict hext htree hhead)⟩

/-! ## Changing the head -/

section Fork

variable {index index' : Nat → Option κ} {f : Nat}

/-- **An index follows a change of the head** if it is left alone up to a common ancestor, has the
ancestors of the new head above it and nothing above the head. -/
theorem describes_of_fork (hold : Describes link index head) (hk : link k = some v)
    (hfork : Ancestor link k f c) (hc : index f = some c) (hbelow : ∀ n, n ≤ f → index' n = index n)
    (hmid : ∀ n, f < n → n ≤ v.number → ∃ a, index' n = some a ∧ Ancestor link k n a)
    (habove : ∀ n, v.number < n → index' n = none) : Describes link index' k := by
  have hcommon := (hold f c).1 hc
  intro n a
  by_cases hn : n ≤ f
  · rw [hbelow n hn, hold n a]
    exact ⟨fun h => hfork.trans (hcommon.restrict_below hn h),
      fun h => hcommon.trans (hfork.restrict_below hn h)⟩
  by_cases hv : n ≤ v.number
  · obtain ⟨b, hb, hanc⟩ := hmid n (by omega) hv
    rw [hb]
    constructor
    · intro heq
      cases heq
      exact hanc
    intro h
    rw [h.unique hanc]
  rw [habove n (by omega)]
  exact ⟨fun h => (by cases h), fun h => absurd (h.le hk) hv⟩

/-- The entries above a height are cleared, up to the first that is missing. -/
def clearAbove (index : Nat → Option κ) (missing : Nat → Prop) [DecidablePred missing]
    (height : Nat) : Nat → Option κ :=
  fun n => if height < n ∧ ∀ i ≤ n, height < i → ¬ missing i then none else index n

theorem clearAbove_eq {missing : Nat → Prop} [DecidablePred missing] {height : Nat}
    (hgap : ∀ n a, index n = some a → ∀ i ≤ n, height < i → ¬ missing i) :
    clearAbove index missing height n = if height < n then none else index n := by
  unfold clearAbove
  by_cases hn : height < n
  · split
    · rfl
    rename_i hmiss
    by_contra hne
    obtain ⟨a, ha⟩ := Option.ne_none_iff_exists'.1 hne
    exact hmiss ⟨hn, hgap n a ha⟩
  · rw [if_neg hn, if_neg fun h => hn h.1]

theorem Describes.self (h : Describes link index head) (hhead : link head = some v) :
    index v.number = some head := (h _ _).2 (.self hhead rfl)

end Fork

end Virbicoin.Lib
