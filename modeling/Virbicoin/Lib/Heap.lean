import Mathlib.Data.List.Basic
import Mathlib.Tactic.Common

/-!
# Binary heaps

The algorithms of a binary heap in an array: the children of position `i` are `2 * i + 1` and
`2 * i + 2`. `less` orders the elements; that no element orders before its parent is `IsHeap`.

Moving an element up or down goes through lists that are in order except around one position. What
the way up needs is `UpOrder`, what the way down needs is `DownOrder`: each step keeps it, and where
the loop stops the whole list is in order.
-/

namespace Virbicoin.Lib.Heap

open List

variable {α : Type}

/-! ## Algorithms -/

def swap (l : List α) (i j : Nat) : List α :=
  match l[i]?, l[j]? with
  | some a, some b => (l.set i b).set j a
  | _, _ => l

variable (less : α → α → Bool)

def lessAt (l : List α) (i j : Nat) : Bool :=
  match l[i]?, l[j]? with
  | some a, some b => less a b
  | _, _ => false

def up : Nat → List α → Nat → List α
  | 0, l, _ => l
  | fuel + 1, l, j =>
    let i := (j - 1) / 2
    if i = j ∨ lessAt less l j i = false then l else up fuel (swap l i j) i

/-- The child of `i` that orders first, among the first `n` positions. -/
def firstChild (l : List α) (i n : Nat) : Nat :=
  if 2 * i + 2 < n ∧ lessAt less l (2 * i + 2) (2 * i + 1) = true then 2 * i + 2 else 2 * i + 1

def down : Nat → List α → Nat → Nat → List α
  | 0, l, _, _ => l
  | fuel + 1, l, i, n =>
    if n ≤ 2 * i + 1 then l
    else
      let j := firstChild less l i n
      if lessAt less l j i = false then l else down fuel (swap l i j) j n

def init (l : List α) : List α :=
  (range (l.length / 2)).reverse.foldl (fun l i => down less l.length l i l.length) l

def push (l : List α) (x : α) : List α := up less (l.length + 1) (l ++ [x]) l.length

def pop (l : List α) : Option (α × List α) :=
  match l[0]? with
  | none => none
  | some x =>
    let n := l.length - 1
    some (x, (down less l.length (swap l 0 n) 0 n).take n)

/-! ## Swapping -/

section Swap

variable {less} {l : List α} {i j : Nat}

def swapped (i j k : Nat) : Nat := if k = i then j else if k = j then i else k

theorem swap_perm : (swap l i j).Perm l := by
  unfold swap
  split
  · rename_i a b ha hb
    obtain ⟨hi, rfl⟩ := List.getElem?_eq_some_iff.1 ha
    obtain ⟨hj, rfl⟩ := List.getElem?_eq_some_iff.1 hb
    exact set_set_perm hi hj
  · exact .refl l

@[simp] theorem swap_length : (swap l i j).length = l.length := swap_perm.length_eq

theorem getElem?_swap (hi : i < l.length) (hj : j < l.length) (k : Nat) :
    (swap l i j)[k]? = l[swapped i j k]? := by
  rw [swap, getElem?_eq_getElem hi, getElem?_eq_getElem hj]
  simp only [getElem?_set, length_set, swapped]
  by_cases hki : k = i
  · subst hki
    by_cases hkj : j = k
    · subst hkj
      simp [hj]
    · simp [hkj, hi, hj]
  by_cases hkj : k = j
  · subst hkj
    simp [hki, hj, hi]
  · simp [Ne.symm hki, Ne.symm hkj, hki, hkj]

theorem lessAt_swap (hi : i < l.length) (hj : j < l.length) (a b : Nat) :
    lessAt less (swap l i j) a b = lessAt less l (swapped i j a) (swapped i j b) := by
  rw [lessAt, lessAt, getElem?_swap hi hj, getElem?_swap hi hj]

theorem swapped_left : swapped i j i = j := if_pos rfl

theorem swapped_right : swapped i j j = i := by
  unfold swapped
  split
  · rename_i h
    exact h
  · rw [if_pos rfl]

theorem swapped_of_ne {i j k : Nat} (hi : k ≠ i) (hj : k ≠ j) : swapped i j k = k := by
  rw [swapped, if_neg hi, if_neg hj]

end Swap

/-! ## Order -/

/-- `less` is a strict order up to ties. -/
structure StrictWeak : Prop where
  asymm : ∀ {a b}, less a b = true → less b a = false
  trans : ∀ {a b c}, less a b = false → less b c = false → less a c = false

/-- Among the first `n` elements, none whose parent is at `b` or behind orders before it. -/
def HeapFrom (b : Nat) (l : List α) (n : Nat) : Prop :=
  ∀ k, 0 < k → k < n → b ≤ (k - 1) / 2 → lessAt less l k ((k - 1) / 2) = false

def IsHeap (l : List α) : Prop := HeapFrom less 0 l l.length

/-- What the way up from `j` needs: everything but the element at `j` is in order with its parent,
and the children of `j` are in order with its parent. -/
structure UpOrder (l : List α) (j n : Nat) : Prop where
  except : ∀ k, 0 < k → k < n → k ≠ j → lessAt less l k ((k - 1) / 2) = false
  grand : 0 < j → ∀ c, 0 < c → c < n → (c - 1) / 2 = j →
    lessAt less l c ((j - 1) / 2) = false

/-- What the way down from `i` needs: everything but the children of `i` is in order with its
parent, and the children of `i` are in order with its parent. -/
structure DownOrder (b : Nat) (l : List α) (i n : Nat) : Prop where
  except : ∀ k, 0 < k → k < n → b ≤ (k - 1) / 2 → (k - 1) / 2 ≠ i →
    lessAt less l k ((k - 1) / 2) = false
  grand : 0 < i → b ≤ (i - 1) / 2 → ∀ c, 0 < c → c < n → (c - 1) / 2 = i →
    lessAt less l c ((i - 1) / 2) = false

section Order

variable {less} (hless : StrictWeak less) {l : List α} {i j b n : Nat}

include hless

theorem lessAt_asymm (h : lessAt less l i j = true) : lessAt less l j i = false := by
  unfold lessAt at h ⊢
  split at h
  · rename_i x y hx hy
    rw [hy, hx]
    exact hless.asymm h
  · cases h

theorem lessAt_trans {k : Nat} (hj : j < l.length) (h1 : lessAt less l i j = false)
    (h2 : lessAt less l j k = false) : lessAt less l i k = false := by
  unfold lessAt at *
  rw [getElem?_eq_getElem hj] at h1 h2
  cases hi : l[i]? with
  | none => rfl
  | some x =>
    cases hk : l[k]? with
    | none => rfl
    | some y =>
      simp only [hi] at h1
      simp only [hk] at h2
      exact hless.trans h1 h2

/-! ### Up -/

theorem UpOrder.move (h : UpOrder less l j n) (hn : n ≤ l.length) (hj : j < n) (hpos : 0 < j)
    (hlt : lessAt less l j ((j - 1) / 2) = true) :
    UpOrder less (swap l ((j - 1) / 2) j) ((j - 1) / 2) n := by
  generalize hi : (j - 1) / 2 = i at *
  have hil : i < l.length := by omega
  have hjl : j < l.length := by omega
  have hji : lessAt less l i j = false := lessAt_asymm hless hlt
  refine ⟨fun k hk hkn hki => ?_, fun hi0 c hc hcn hci => ?_⟩
  · rw [lessAt_swap hil hjl]
    by_cases hkj : k = j
    · rw [hkj, hi, swapped_right, swapped_left]
      exact hji
    rw [swapped_of_ne hki hkj]
    by_cases hpj : (k - 1) / 2 = j
    · rw [hpj, swapped_right, ← hi]
      exact h.grand hpos k hk hkn hpj
    by_cases hpi : (k - 1) / 2 = i
    · have hki' := h.except k hk hkn hkj
      rw [hpi] at hki' ⊢
      rw [swapped_left]
      exact lessAt_trans hless hil hki' hji
    rw [swapped_of_ne hpi hpj]
    exact h.except k hk hkn hkj
  have hup : lessAt less l i ((i - 1) / 2) = false := h.except i hi0 (by omega) (by omega)
  rw [lessAt_swap hil hjl, swapped_of_ne (by omega : (i - 1) / 2 ≠ i) (by omega)]
  by_cases hcj : c = j
  · rw [hcj, swapped_right]
    exact hup
  rw [swapped_of_ne (by omega : c ≠ i) hcj]
  have hci' := h.except c hc hcn hcj
  rw [hci] at hci'
  exact lessAt_trans hless hil hci' hup

omit hless in
theorem UpOrder.finish (h : UpOrder less l j n)
    (hstop : (j - 1) / 2 = j ∨ lessAt less l j ((j - 1) / 2) = false) : HeapFrom less 0 l n := by
  intro k hk hkn _
  by_cases hkj : k = j
  · subst hkj
    exact hstop.resolve_left (by omega)
  · exact h.except k hk hkn hkj

omit hless in
theorem up_perm {fuel : Nat} : (up less fuel l j).Perm l := by
  induction fuel generalizing l j with
  | zero => exact .refl l
  | succ fuel ih =>
    simp only [up]
    split
    · exact .refl l
    · exact ih.trans swap_perm

theorem up_heap {fuel : Nat} (h : UpOrder less l j n) (hn : n ≤ l.length) (hj : j < n)
    (hfuel : j < fuel) : HeapFrom less 0 (up less fuel l j) n := by
  induction fuel generalizing l j with
  | zero => omega
  | succ fuel ih =>
    simp only [up]
    split
    · rename_i hstop
      exact h.finish hstop
    rename_i hgo
    rw [not_or, Bool.not_eq_false] at hgo
    have hpos : 0 < j := by omega
    exact ih (h.move hless hn hj hpos hgo.2) (by rwa [swap_length]) (by omega) (by omega)

/-! ### Down -/

omit hless in
theorem firstChild_spec (less : α → α → Bool) (l : List α) (hi : 2 * i + 1 < n) :
    (firstChild less l i n - 1) / 2 = i ∧ i < firstChild less l i n ∧
      firstChild less l i n < n := by
  unfold firstChild
  split <;> omega

theorem firstChild_min {c : Nat} (hc : 0 < c) (hcn : c < n)
    (hci : (c - 1) / 2 = i) : lessAt less l c (firstChild less l i n) = false := by
  have hirrefl : ∀ k, lessAt less l k k = false := by
    intro k
    by_contra hk
    rw [Bool.not_eq_false] at hk
    have := lessAt_asymm hless hk
    rw [hk] at this
    cases this
  unfold firstChild
  split
  · rename_i hsecond
    obtain rfl | rfl : c = 2 * i + 1 ∨ c = 2 * i + 2 := by omega
    · exact lessAt_asymm hless hsecond.2
    · exact hirrefl _
  rename_i hfirst
  obtain rfl | rfl : c = 2 * i + 1 ∨ c = 2 * i + 2 := by omega
  · exact hirrefl _
  by_contra hne
  rw [Bool.not_eq_false] at hne
  exact hfirst ⟨hcn, hne⟩

theorem DownOrder.move (h : DownOrder less b l i n) (hn : n ≤ l.length) (hb : b ≤ i)
    (hchild : 2 * i + 1 < n) (hlt : lessAt less l (firstChild less l i n) i = true) :
    DownOrder less b (swap l i (firstChild less l i n)) (firstChild less l i n) n := by
  obtain ⟨hpar, hij, hjn⟩ := firstChild_spec less l hchild
  have hmin : ∀ c, 0 < c → c < n → (c - 1) / 2 = i →
      lessAt less l c (firstChild less l i n) = false :=
    fun c hc hcn hci => firstChild_min hless hc hcn hci
  generalize firstChild less l i n = j at *
  have hil : i < l.length := by omega
  have hjl : j < l.length := by omega
  refine ⟨fun k hk hkn hbk hkj => ?_, fun _ hbj c hc hcn hcj => ?_⟩
  · rw [lessAt_swap hil hjl]
    by_cases hki : k = i
    · subst hki
      rw [swapped_left, swapped_of_ne (by omega : (k - 1) / 2 ≠ k) hkj]
      exact h.grand hk hbk j (by omega) hjn hpar
    by_cases hpi : (k - 1) / 2 = i
    · rw [hpi, swapped_left]
      by_cases hkj' : k = j
      · rw [hkj', swapped_right]
        exact lessAt_asymm hless hlt
      · rw [swapped_of_ne hki hkj']
        exact hmin k hk hkn hpi
    rw [swapped_of_ne hki (by rintro rfl; exact hpi hpar), swapped_of_ne hpi hkj]
    exact h.except k hk hkn hbk hpi
  rw [hpar, lessAt_swap hil hjl, swapped_left,
    swapped_of_ne (by omega : c ≠ i) (by omega : c ≠ j)]
  have hcj' := h.except c hc hcn (by omega) (by omega)
  rwa [hcj] at hcj'

theorem DownOrder.finish (h : DownOrder less b l i n) (hn : n ≤ l.length)
    (hstop : n ≤ 2 * i + 1 ∨ lessAt less l (firstChild less l i n) i = false) :
    HeapFrom less b l n := by
  intro k hk hkn hbk
  by_cases hpi : (k - 1) / 2 = i
  · obtain hleaf | hdone := hstop
    · omega
    have hj := firstChild_spec less l (by omega : 2 * i + 1 < n)
    rw [hpi]
    exact lessAt_trans hless (by omega) (firstChild_min hless hk hkn hpi) hdone
  · exact h.except k hk hkn hbk hpi

omit hless in
theorem down_perm {fuel : Nat} : (down less fuel l i n).Perm l := by
  induction fuel generalizing l i with
  | zero => exact .refl l
  | succ fuel ih =>
    simp only [down]
    split
    · exact .refl l
    split
    · exact .refl l
    · exact ih.trans swap_perm

omit hless in
theorem getElem?_down {fuel k : Nat} (hn : n ≤ l.length) (hk : n ≤ k) :
    (down less fuel l i n)[k]? = l[k]? := by
  induction fuel generalizing l i with
  | zero => rfl
  | succ fuel ih =>
    simp only [down]
    split
    · rfl
    rename_i hchild
    split
    · rfl
    obtain ⟨-, hij, hjn⟩ := firstChild_spec less l (Nat.not_le.1 hchild)
    rw [ih (by rwa [swap_length]), getElem?_swap (by omega) (by omega),
      swapped_of_ne (by omega) (by omega)]

theorem down_heap {fuel : Nat} (h : DownOrder less b l i n) (hn : n ≤ l.length) (hb : b ≤ i)
    (hfuel : n ≤ i + fuel) : HeapFrom less b (down less fuel l i n) n := by
  induction fuel generalizing l i with
  | zero => exact h.finish hless hn (.inl (by omega))
  | succ fuel ih =>
    simp only [down]
    split
    · rename_i hleaf
      exact h.finish hless hn (.inl hleaf)
    rename_i hchild
    split
    · rename_i hdone
      exact h.finish hless hn (.inr hdone)
    rename_i hlt
    rw [Bool.not_eq_false] at hlt
    obtain ⟨-, hij, hjn⟩ := firstChild_spec less l (Nat.not_le.1 hchild)
    exact ih (h.move hless hn hb (Nat.not_le.1 hchild) hlt) (by rwa [swap_length]) (by omega)
      (by omega)

end Order

/-! ## Operations -/

section Operations

variable {less} {l : List α}

theorem init_perm (l : List α) : (init less l).Perm l := by
  unfold init
  generalize (range (l.length / 2)).reverse = is
  induction is generalizing l with
  | nil => exact .refl l
  | cons i is ih => exact (ih _).trans down_perm

theorem push_perm (x : α) : (push less l x).Perm (x :: l) :=
  up_perm.trans (perm_append_singleton x l)

variable (hless : StrictWeak less)

include hless

theorem push_heap (h : IsHeap less l) (x : α) : IsHeap less (push less l x) := by
  have hlen : (push less l x).length = l.length + 1 := (push_perm x).length_eq
  rw [IsHeap, hlen]
  refine up_heap hless ⟨fun k hk hkn hkj => ?_, fun _ c hc hcn hcj => ?_⟩ (by simp) (by omega)
    (by omega)
  · have hold := h k hk (by omega) (Nat.zero_le _)
    unfold lessAt at hold ⊢
    rwa [getElem?_append_left (by omega), getElem?_append_left (by omega)]
  · omega

theorem init_heap (l : List α) : IsHeap less (init less l) := by
  have hlen : (init less l).length = l.length := (init_perm l).length_eq
  rw [IsHeap, hlen]
  -- after the pass over `i` everything whose parent is at `i` or behind is in order
  have hpass : ∀ m (k : List α), k.length = l.length → HeapFrom less m k l.length →
      HeapFrom less 0 ((range m).reverse.foldl
        (fun l i => down less l.length l i l.length) k) l.length := by
    intro m
    induction m with
    | zero =>
      intro k _ hk
      exact hk
    | succ m ih =>
      intro k hklen hk
      rw [range_succ, reverse_append]
      have hdlen : (down less k.length k m k.length).length = l.length := by
        rw [down_perm.length_eq, hklen]
      refine ih _ hdlen ?_
      rw [← hklen] at hk ⊢
      refine down_heap hless ⟨fun c hc hcn hm hne => ?_, fun hm hm' => ?_⟩ (Nat.le_refl _)
        (Nat.le_refl _) (Nat.le_add_left _ _)
      · exact hk c hc hcn (by omega)
      · omega
  refine hpass _ l rfl ?_
  intro k hk hkn hb
  omega

theorem IsHeap.root {x y : α} (h : IsHeap less l) (hx : l[0]? = some x) (hy : y ∈ l) :
    less y x = false := by
  obtain ⟨k, hk⟩ := mem_iff_getElem?.1 hy
  have hroot : ∀ k, k < l.length → lessAt less l k 0 = false := by
    intro k
    induction k using Nat.strongRecOn with
    | _ k ih =>
      intro hlen
      obtain rfl | hpos := Nat.eq_zero_or_pos k
      · by_contra hne
        rw [Bool.not_eq_false] at hne
        have := lessAt_asymm hless hne
        rw [hne] at this
        cases this
      exact lessAt_trans hless (by omega) (h k hpos hlen (Nat.zero_le _))
        (ih _ (by omega) (by omega))
  have hlt := hroot k (List.getElem?_eq_some_iff.1 hk).1
  unfold lessAt at hlt
  rwa [hk, hx] at hlt

omit hless in
theorem pop_perm {x : α} {rest : List α} (h : pop less l = some (x, rest)) :
    l[0]? = some x ∧ l.Perm (x :: rest) := by
  unfold pop at h
  split at h
  · cases h
  rename_i x' hx
  cases h
  refine ⟨hx, ?_⟩
  have hpos : 0 < l.length := (List.getElem?_eq_some_iff.1 hx).1
  have hperm : (down less l.length (swap l 0 (l.length - 1)) 0 (l.length - 1)).Perm l :=
    down_perm.trans swap_perm
  have hlast : (down less l.length (swap l 0 (l.length - 1)) 0 (l.length - 1))[l.length - 1]? =
      some x := by
    rw [getElem?_down (by simp) (Nat.le_refl _), getElem?_swap hpos (by omega), swapped_right, hx]
  generalize down less l.length (swap l 0 (l.length - 1)) 0 (l.length - 1) = d at hperm hlast ⊢
  have hsplit : d = d.take (l.length - 1) ++ [x] := by
    have htake := take_add_one (l := d) (i := l.length - 1)
    rw [hlast, take_of_length_le (by rw [hperm.length_eq]; omega)] at htake
    exact htake
  rw [hsplit] at hperm
  exact hperm.symm.trans (perm_append_singleton x _)

theorem pop_heap {x : α} {rest : List α} (hl : IsHeap less l)
    (h : pop less l = some (x, rest)) : IsHeap less rest := by
  unfold pop at h
  split at h
  · cases h
  rename_i x' hx
  cases h
  have hpos : 0 < l.length := (List.getElem?_eq_some_iff.1 hx).1
  have hdown : HeapFrom less 0 (down less l.length (swap l 0 (l.length - 1)) 0 (l.length - 1))
      (l.length - 1) := by
    refine down_heap hless ⟨fun k hk hkn _ hne => ?_, fun h0 => absurd h0 (by omega)⟩ (by simp)
      (Nat.le_refl _) (by omega)
    rw [lessAt_swap hpos (by omega), swapped_of_ne (by omega) (by omega),
      swapped_of_ne hne (by omega)]
    exact hl k hk (by omega) (Nat.zero_le _)
  intro k hk hkn _
  rw [length_take] at hkn
  have hk' := hdown k hk (by omega) (Nat.zero_le _)
  unfold lessAt at hk' ⊢
  rwa [getElem?_take_of_lt (by omega), getElem?_take_of_lt (by omega)]

end Operations

end Virbicoin.Lib.Heap
