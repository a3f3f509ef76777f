import Virbicoin.Lib.Ancestry
import Mathlib.Data.Set.Function

/-!
# Stores of blocks

Blocks are stored under their height and key, with the height that belongs to a key and the total
weight of each. A store is sound if the blocks in it form a tree and the total weights are sums
along it (`Stored`). Adding a block on top of a stored one keeps that (`Stored.insert`).

`U` is the set of all blocks that may come up. No two of them have the same key.
-/

namespace Virbicoin.Lib

open Function Option

variable {κ ρ β : Type}

section Put

variable [DecidableEq κ]

def put (table : Nat → κ → Option β) (n : Nat) (k : κ) (x : β) : Nat → κ → Option β :=
  update table n (update (table n) k (some x))

theorem put_apply (table : Nat → κ → Option β) (n : Nat) (k : κ) (x : β) (m : Nat) (j : κ) :
    put table n k x m j = if m = n ∧ j = k then some x else table m j := by
  simp only [put, update_apply]
  split
  · rename_i hm
    subst hm
    simp only [true_and, update_apply]
  rename_i hm
  rw [if_neg fun hk => hm hk.1]

theorem put_self (table : Nat → κ → Option β) (n : Nat) (k : κ) (x : β) :
    put table n k x n k = some x := by
  rw [put_apply, if_pos ⟨rfl, rfl⟩]

theorem put_eq_self {table : Nat → κ → Option β} {n : Nat} {k : κ} {x : β}
    (h : table n k = some x) : put table n k x = table := by
  rw [put, ← h, update_eq_self, update_eq_self]

end Put

section Link

variable (parent : ρ → κ) (weight : ρ → Int) (blocks : Nat → κ → Option ρ)
  (numbers : κ → Option Nat)

def linkOf (k : κ) : Option (Link κ) :=
  (numbers k).bind fun n => (blocks n k).map fun x => ⟨parent x, n, weight x⟩

theorem linkOf_put [DecidableEq κ] (n : Nat) (k : κ) (x : ρ) :
    linkOf parent weight (put blocks n k x) (update numbers k (some n)) =
      update (linkOf parent weight blocks numbers) k (some ⟨parent x, n, weight x⟩) := by
  funext j
  by_cases hj : j = k
  · subst hj
    simp only [linkOf, update_self, bind_some, put_self, map_some]
  · simp only [linkOf, update_of_ne hj, put_apply, hj, and_false, if_false]

end Link

structure Stored (key parent : ρ → κ) (number : ρ → Nat) (weight : ρ → Int) (U : Set ρ)
    (genesis : κ) (blocks : Nat → κ → Option ρ) (numbers : κ → Option Nat)
    (totals : Nat → κ → Option Int) : Prop where
  keyed : ∀ {n k x}, blocks n k = some x → x ∈ U ∧ key x = k ∧ number x = n
  numbered : ∀ {n k}, numbers k = some n ↔ (blocks n k).isSome
  tree : Tree (linkOf parent weight blocks numbers) genesis
  total : ∀ {n k w}, totals n k = some w ↔
    (blocks n k).isSome ∧ Weighs (linkOf parent weight blocks numbers) k w

namespace Stored

variable {key parent : ρ → κ} {number : ρ → Nat} {weight : ρ → Int} {U : Set ρ} {genesis k : κ}
  {blocks blocks' : Nat → κ → Option ρ} {numbers numbers' : κ → Option Nat}
  {totals totals' : Nat → κ → Option Int} {n : Nat} {x : ρ} {w : Int}

variable (hs : Stored key parent number weight U genesis blocks numbers totals)
include hs

theorem link_eq (hx : blocks n k = some x) :
    linkOf parent weight blocks numbers k = some ⟨parent x, n, weight x⟩ := by
  have hn : numbers k = some n := hs.numbered.2 (by rw [hx]; rfl)
  simp only [linkOf, hn, hx, bind_some, map_some]

theorem of_link {v : Link κ} (hv : linkOf parent weight blocks numbers k = some v) :
    ∃ x, blocks v.number k = some x ∧ v = ⟨parent x, number x, weight x⟩ := by
  simp only [linkOf, bind_eq_some_iff, map_eq_some_iff] at hv
  obtain ⟨n, -, x, hx, rfl⟩ := hv
  obtain ⟨-, -, rfl⟩ := hs.keyed hx
  exact ⟨x, hx, rfl⟩

theorem blocks_eq (hU : Set.InjOn key U) (hx : x ∈ U) (hn : (blocks n (key x)).isSome) :
    blocks n (key x) = some x := by
  obtain ⟨y, hy⟩ := isSome_iff_exists.1 hn
  obtain ⟨hyU, heq, -⟩ := hs.keyed hy
  rw [hy, hU hyU hx heq]

theorem exists_total (hx : blocks n k = some x) :
    ∃ w, totals n k = some w ∧ Weighs (linkOf parent weight blocks numbers) k w := by
  obtain ⟨w, hw⟩ := hs.tree.exists_weight (hs.link_eq hx)
  exact ⟨w, hs.total.2 ⟨by rw [hx]; rfl, hw⟩, hw⟩

theorem total_step {m : Nat} (hx : blocks n k = some x) (hp : totals m (parent x) = some w)
    (hn : 0 < n) :
    totals n k = some (w + weight x) :=
  hs.total.2 ⟨by rw [hx]; rfl, @Weighs.step _ _ _ ⟨parent x, n, weight x⟩ _ (hs.link_eq hx) hn
    (hs.total.1 hp).2⟩

theorem exists_parent (hx : blocks n k = some x) (hn : 0 < n) :
    ∃ p, blocks (n - 1) (parent x) = some p := by
  obtain ⟨v, hv, hnum⟩ := hs.tree.parent (hs.link_eq hx) hn
  obtain ⟨p, hp, -⟩ := hs.of_link hv
  simp only at hnum hp
  rw [hnum]
  exact ⟨p, hp⟩

theorem numbers_eq_none (hU : Set.InjOn key U) (hx : x ∈ U)
    (hnone : blocks (number x) (key x) = none) :
    numbers (key x) = none := by
  cases hn : numbers (key x) with
  | none => rfl
  | some m =>
    have hm := hs.blocks_eq hU hx (hs.numbered.1 hn)
    rw [← (hs.keyed hm).2.2, hnone] at hm
    cases hm

theorem link_eq_none (hU : Set.InjOn key U) (hx : x ∈ U)
    (hnone : blocks (number x) (key x) = none) :
    linkOf parent weight blocks numbers (key x) = none := by
  simp only [linkOf, hs.numbers_eq_none hU hx hnone, bind_none]

theorem extends_link (hs' : Stored key parent number weight U genesis blocks' numbers' totals')
    (hkeeps : ∀ {n k x}, blocks n k = some x → blocks' n k = some x) :
    Extends (linkOf parent weight blocks numbers) (linkOf parent weight blocks' numbers') := by
  intro k v hv
  obtain ⟨x, hx, rfl⟩ := hs.of_link hv
  exact hs'.link_eq (hkeeps hx)

theorem insert [DecidableEq κ] (hU : Set.InjOn key U) (hx : x ∈ U)
    (hnone : blocks (number x) (key x) = none) (hp : totals n (parent x) = some w)
    (hn : number x = n + 1) :
    Stored key parent number weight U genesis (put blocks (number x) (key x) x)
      (update numbers (key x) (some (number x)))
      (put totals (number x) (key x) (w + weight x)) := by
  obtain ⟨hparent, hw⟩ := hs.total.1 hp
  obtain ⟨p, hp⟩ := isSome_iff_exists.1 hparent
  have hlink := linkOf_put parent weight blocks numbers (number x) (key x) x
  have hfresh := hs.link_eq_none hU hx hnone
  have hext := extends_update (v := ⟨parent x, number x, weight x⟩) hfresh
  have hweighs : Weighs (linkOf parent weight (put blocks (number x) (key x) x)
      (update numbers (key x) (some (number x)))) (key x) (w + weight x) := by
    rw [hlink]
    exact @Weighs.step _ _ _ ⟨parent x, number x, weight x⟩ _
      (update_self _ _ _) (by simp only; omega) (hw.extend hext)
  refine ⟨fun {m k y} hy => ?_, fun {m k} => ?_, ?_, fun {m k u} => ?_⟩
  · rw [put_apply] at hy
    split at hy
    · rename_i hk
      cases hy
      exact ⟨hx, hk.2.symm, hk.1.symm⟩
    · exact hs.keyed hy
  · rw [put_apply]
    by_cases hk : k = key x
    · subst hk
      rw [update_self]
      by_cases hm : m = number x
      · simp only [hm, and_self, if_true, isSome_some]
      have hmiss : ¬ (blocks m (key x)).isSome := by
        rw [← hs.numbered, hs.numbers_eq_none hU hx hnone]
        exact nofun
      rw [if_neg fun hk => hm hk.1]
      exact ⟨fun heq => absurd (some.inj heq).symm hm, fun h => absurd h hmiss⟩
    rw [update_of_ne hk, if_neg fun h => hk h.2]
    exact hs.numbered
  · rw [hlink]
    exact hs.tree.insert hfresh (hs.link_eq hp) hn
  rw [put_apply, put_apply]
  split
  · rename_i hk
    rw [hk.2]
    constructor
    · intro heq
      cases heq
      exact ⟨rfl, hweighs⟩
    rintro ⟨-, hu⟩
    rw [hu.unique hweighs]
  rw [hs.total, hlink]
  constructor
  · rintro ⟨hm, hu⟩
    exact ⟨hm, hu.extend hext⟩
  rintro ⟨hm, hu⟩
  obtain ⟨y, hy⟩ := isSome_iff_exists.1 hm
  exact ⟨hm, hu.restrict hext hs.tree (hs.link_eq hy)⟩

end Stored

theorem stored_root [DecidableEq κ] {key parent : ρ → κ} {number : ρ → Nat} {weight : ρ → Int}
    {U : Set ρ} {x : ρ} (hx : x ∈ U) (hzero : number x = 0) :
    Stored key parent number weight U (key x) (put (fun _ _ => none) (number x) (key x) x)
      (update (fun _ => none) (key x) (some (number x)))
      (put (fun _ _ => none) (number x) (key x) (weight x)) := by
  have hlink : ∀ k, linkOf parent weight (put (fun _ _ => none) (number x) (key x) x)
      (update (fun _ => none) (key x) (some (number x))) k =
        if k = key x then some ⟨parent x, number x, weight x⟩ else none := by
    intro k
    rw [linkOf_put, update_apply]
    rfl
  have hself : linkOf parent weight (put (fun _ _ => none) (number x) (key x) x)
      (update (fun _ => none) (key x) (some (number x))) (key x) =
        some ⟨parent x, number x, weight x⟩ := by
    rw [hlink, if_pos rfl]
  have hweighs := Weighs.root hself hzero
  refine ⟨fun {n k y} hy => ?_, fun {n k} => ?_, ⟨⟨_, hself, hzero⟩, fun {k v} hv _ => ?_,
    fun {k v} hv hpos => ?_⟩, fun {n k w} => ?_⟩
  · rw [put_apply] at hy
    split at hy
    · rename_i hk
      cases hy
      exact ⟨hx, hk.2.symm, hk.1.symm⟩
    · cases hy
  · rw [put_apply, update_apply]
    by_cases hk : k = key x
    · rw [if_pos hk]
      by_cases hn : n = number x
      · rw [if_pos ⟨hn, hk⟩, hn]
        exact ⟨fun _ => rfl, fun _ => rfl⟩
      · rw [if_neg fun h => hn h.1]
        exact ⟨fun h => absurd (some.inj h).symm hn, fun h => (by cases h)⟩
    rw [if_neg hk, if_neg fun h => hk h.2]
    exact ⟨fun h => (by cases h), fun h => (by cases h)⟩
  · rw [hlink] at hv
    split at hv
    · assumption
    · cases hv
  · rw [hlink] at hv
    split at hv
    · cases hv
      simp only at hpos
      omega
    · cases hv
  · rw [put_apply, put_apply]
    split
    · rename_i hk
      rw [hk.2]
      exact ⟨fun h => ⟨rfl, some.inj h ▸ hweighs⟩, fun h => by rw [h.2.unique hweighs]⟩
    · exact ⟨fun h => (by cases h), fun h => (by cases h.1)⟩

end Virbicoin.Lib
