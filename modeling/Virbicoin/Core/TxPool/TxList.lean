import Mathlib.Data.List.Pairwise
import Virbicoin.Core.StateProcessor

/-!
# Transactions of an account by nonce

`txList` of `core/tx_list.go` with the `txSortedMap` below it. The map of a `txSortedMap`, its heap
of nonces and its cached order are one list here, sorted by nonce: `get` is the lookup in the map,
the pops of the heap come off the front and `Flatten` is the list. A list is in order and within its
caps by construction, so `Filter` may trust the caps as the source does.
-/

namespace Virbicoin.Core

open List

structure Tx extends Transaction where
  size : Nat
  accountNonce_lt : accountNonce < 2 ^ 64
  deriving DecidableEq

namespace Tx

def nonce (tx : Tx) : Nat := tx.accountNonce

def gas (tx : Tx) : Nat := tx.gasLimit

def cost (tx : Tx) : Int := tx.price * tx.gasLimit + tx.amount

/-- The sender of a transaction that was validated before; the zero address if there is none. -/
def origin (tx : Tx) : Address := tx.sender.getD 0

end Tx

/-- The conversion `int64(x)` of a `uint64`. -/
def toInt64 (x : Nat) : Int := if x < 2 ^ 63 then x else x - 2 ^ 64

/-- `txList`. The caps bound the cost and the gas limit of every transaction. -/
structure TxList where
  strict : Bool
  txs : List Tx
  costcap : Int
  gascap : Nat
  sorted : txs.Pairwise fun a b => a.nonce < b.nonce
  cost_le : ∀ tx ∈ txs, tx.cost ≤ costcap
  gas_le : ∀ tx ∈ txs, tx.gas ≤ gascap
  deriving DecidableEq

def newTxList (strict : Bool) : TxList where
  strict
  txs := []
  costcap := 0
  gascap := 0
  sorted := List.Pairwise.nil
  cost_le := by simp
  gas_le := by simp

namespace TxList

def restrict (l : TxList) (txs : List Tx) (h : txs.Sublist l.txs) : TxList :=
  { l with
    txs
    sorted := l.sorted.sublist h
    cost_le := fun tx htx => l.cost_le tx (h.subset htx)
    gas_le := fun tx htx => l.gas_le tx (h.subset htx) }

def len (l : TxList) : Nat := l.txs.length

def empty (l : TxList) : Bool := l.txs.isEmpty

def get (l : TxList) (nonce : Nat) : Option Tx := l.txs.find? fun tx => tx.nonce = nonce

def overlaps (l : TxList) (tx : Tx) : Bool := (l.get tx.nonce).isSome

def flatten (l : TxList) : List Tx := l.txs

/-- `none` is the panic on an empty list. -/
def lastElement (l : TxList) : Option Tx := l.txs.getLast?

def putTx (tx : Tx) (txs : List Tx) : List Tx :=
  txs.filter (fun t => t.nonce < tx.nonce) ++ tx :: txs.filter (fun t => tx.nonce < t.nonce)

theorem mem_putTx {tx t : Tx} {txs : List Tx} :
    t ∈ putTx tx txs ↔ t = tx ∨ t ∈ txs ∧ t.nonce ≠ tx.nonce := by
  unfold putTx
  simp only [mem_append, mem_cons, mem_filter, decide_eq_true_eq]
  constructor
  · rintro (⟨h, hlt⟩ | rfl | ⟨h, hlt⟩)
    · exact .inr ⟨h, by omega⟩
    · exact .inl rfl
    · exact .inr ⟨h, by omega⟩
  rintro (rfl | ⟨h, hne⟩)
  · exact .inr (.inl rfl)
  obtain hlt | hlt := lt_or_gt_of_ne hne
  · exact .inl ⟨h, hlt⟩
  · exact .inr (.inr ⟨h, hlt⟩)

theorem putTx_sorted {tx : Tx} {txs : List Tx} (h : txs.Pairwise fun a b => a.nonce < b.nonce) :
    (putTx tx txs).Pairwise fun a b => a.nonce < b.nonce := by
  unfold putTx
  rw [pairwise_append, pairwise_cons]
  refine ⟨h.filter _, ⟨fun b hb => ?_, h.filter _⟩, fun a ha b hb => ?_⟩
  · simpa using (mem_filter.1 hb).2
  have hlt : a.nonce < tx.nonce := by simpa using (mem_filter.1 ha).2
  obtain rfl | hb := mem_cons.1 hb
  · exact hlt
  have hgt : tx.nonce < b.nonce := by simpa using (mem_filter.1 hb).2
  omega

/-- `txSortedMap.Put`, with the caps raised for the transaction. -/
def put (l : TxList) (tx : Tx) : TxList where
  strict := l.strict
  txs := putTx tx l.txs
  costcap := if l.costcap < tx.cost then tx.cost else l.costcap
  gascap := if l.gascap < tx.gas then tx.gas else l.gascap
  sorted := putTx_sorted l.sorted
  cost_le t ht := by
    obtain rfl | ⟨ht, -⟩ := mem_putTx.1 ht
    · split <;> omega
    have := l.cost_le t ht
    split <;> omega
  gas_le t ht := by
    obtain rfl | ⟨ht, -⟩ := mem_putTx.1 ht
    · split <;> omega
    have := l.gas_le t ht
    split <;> omega

def underbids (tx old : Tx) (priceBump : Nat) : Prop :=
  tx.price ≤ old.price ∨ tx.price < toInt64 ((100 + priceBump) % 2 ^ 64) * old.price / 100

instance (tx old : Tx) (priceBump : Nat) : Decidable (underbids tx old priceBump) :=
  inferInstanceAs (Decidable (_ ∨ _))

/-- The list and the transaction that was replaced. `none` if there is a better one. -/
def add (l : TxList) (tx : Tx) (priceBump : Nat) : Option (TxList × Option Tx) :=
  match l.get tx.nonce with
  | none => some (l.put tx, none)
  | some old => if underbids tx old priceBump then none else some (l.put tx, some old)

def forward (l : TxList) (threshold : Nat) : List Tx × TxList :=
  (l.txs.filter fun tx => tx.nonce < threshold,
    l.restrict (l.txs.filter fun tx => threshold ≤ tx.nonce) filter_sublist)

def unpayable (costLimit : Int) (gasLimit : Nat) (tx : Tx) : Bool :=
  decide (tx.gas > gasLimit ∨ tx.cost > costLimit)

def payable (l : TxList) (costLimit : Int) (gasLimit : Nat) : TxList :=
  { l with
    txs := l.txs.filter fun tx => !unpayable costLimit gasLimit tx
    costcap := costLimit
    gascap := gasLimit
    sorted := l.sorted.filter _
    cost_le := fun tx htx => by
      have h := (mem_filter.1 htx).2
      simp only [unpayable, Bool.not_eq_true', decide_eq_false_iff_not] at h
      omega
    gas_le := fun tx htx => by
      have h := (mem_filter.1 htx).2
      simp only [unpayable, Bool.not_eq_true', decide_eq_false_iff_not] at h
      omega }

/-- The lowest nonce, `math.MaxUint64` if there is none. -/
def lowestNonce (txs : List Tx) : Nat :=
  txs.foldl (fun lowest tx => if lowest > tx.nonce then tx.nonce else lowest) maxUint64

def splitAbove (l : TxList) (nonce : Nat) : List Tx × TxList :=
  (l.txs.filter fun tx => tx.nonce > nonce,
    l.restrict (l.txs.filter fun tx => tx.nonce ≤ nonce) filter_sublist)

/-- The transactions that cost too much, those behind them if the list is strict, and the others. -/
def filter (l : TxList) (costLimit : Int) (gasLimit : Nat) : List Tx × List Tx × TxList :=
  if l.costcap ≤ costLimit ∧ l.gascap ≤ gasLimit then ([], [], l)
  else if l.txs.filter (unpayable costLimit gasLimit) = [] then
    ([], [], l.payable costLimit gasLimit)
  else if l.strict then
    (l.txs.filter (unpayable costLimit gasLimit), (l.payable costLimit gasLimit).splitAbove
      (lowestNonce (l.txs.filter (unpayable costLimit gasLimit))))
  else (l.txs.filter (unpayable costLimit gasLimit), [], l.payable costLimit gasLimit)

/-- The transactions over the limit, highest nonce first, and the others. `none` is the panic with a
negative limit. -/
def cap (l : TxList) (threshold : Int) : Option (List Tx × TxList) :=
  if (l.len : Int) ≤ threshold then some ([], l)
  else if threshold < 0 then none
  else some ((l.txs.drop threshold.toNat).reverse,
    l.restrict (l.txs.take threshold.toNat) (take_sublist _ _))

def withoutNonce (l : TxList) (nonce : Nat) : TxList :=
  l.restrict (l.txs.filter fun tx => tx.nonce ≠ nonce) filter_sublist

/-- The transactions that a strict list loses with this one, and the others. `none` if the nonce was
not found. -/
def remove (l : TxList) (tx : Tx) : Option (List Tx × TxList) :=
  if l.overlaps tx then
    if l.strict then some ((l.withoutNonce tx.nonce).splitAbove tx.nonce)
    else some ([], l.withoutNonce tx.nonce)
  else none

def consecutive : Nat → List Tx → List Tx
  | _, [] => []
  | next, tx :: txs => if tx.nonce = next then tx :: consecutive (next + 1) txs else []

def ready (l : TxList) (start : Nat) : List Tx × TxList :=
  match l.txs.head? with
  | none => ([], l)
  | some first =>
    if first.nonce > start then ([], l)
    else
      let readies := consecutive first.nonce l.txs
      (readies, l.restrict (l.txs.drop readies.length) (drop_sublist _ _))

/-! ## What the functions keep and return -/

variable {l l' : TxList} {tx t old : Tx} {nonce : Nat}

theorem eq_of_nonce (h : tx ∈ l.txs) (h' : t ∈ l.txs) (hn : tx.nonce = t.nonce) : tx = t := by
  by_contra hne
  have hsorted := pairwise_iff_getElem.1 l.sorted
  obtain ⟨i, hi, rfl⟩ := getElem_of_mem h
  obtain ⟨j, hj, rfl⟩ := getElem_of_mem h'
  obtain hlt | rfl | hlt := i.lt_trichotomy j
  · have := hsorted i j hi hj hlt
    omega
  · exact hne rfl
  · have := hsorted j i hj hi hlt
    omega

theorem nodup (l : TxList) : l.txs.Nodup := l.sorted.imp fun hab heq => by
  rw [heq] at hab
  omega

theorem get_eq_some : l.get nonce = some tx ↔ tx ∈ l.txs ∧ tx.nonce = nonce := by
  unfold get
  constructor
  · intro h
    exact ⟨mem_of_find?_eq_some h, by simpa using find?_some h⟩
  rintro ⟨hmem, rfl⟩
  cases hfind : l.txs.find? fun t => t.nonce = tx.nonce with
  | none => exact absurd (find?_eq_none.1 hfind tx hmem) (by simp)
  | some t =>
    have ht : t.nonce = tx.nonce := by simpa using find?_some hfind
    rw [eq_of_nonce (mem_of_find?_eq_some hfind) hmem ht]

theorem get_eq_none : l.get nonce = none ↔ ∀ tx ∈ l.txs, tx.nonce ≠ nonce := by
  unfold get
  simp [find?_eq_none]

theorem empty_iff : l.empty = true ↔ l.txs = [] := isEmpty_iff

theorem put_perm (l : TxList) (tx : Tx) :
    ((l.get tx.nonce).toList ++ (l.put tx).txs).Perm (tx :: l.txs) := by
  have hsplit : l.txs.Perm ((l.get tx.nonce).toList ++
      (l.txs.filter (fun t => t.nonce < tx.nonce) ++
        l.txs.filter fun t => tx.nonce < t.nonce)) := by
    have hnodup := l.nodup
    refine (perm_ext_iff_of_nodup hnodup ?_).2 fun t => ?_
    · rw [nodup_append]
      refine ⟨by cases l.get tx.nonce <;> simp, ?_, fun a ha b hb => ?_⟩
      · rw [nodup_append]
        refine ⟨hnodup.filter _, hnodup.filter _, fun a ha b hb hab => ?_⟩
        simp only [mem_filter, decide_eq_true_eq] at ha hb
        rw [hab] at ha
        omega
      have ha := (get_eq_some.1 (Option.mem_toList.1 ha)).2
      simp only [mem_append, mem_filter, decide_eq_true_eq] at hb
      rintro rfl
      omega
    simp only [mem_append, Option.mem_toList, get_eq_some, mem_filter, decide_eq_true_eq]
    constructor
    · intro h
      obtain hlt | heq | hgt := Nat.lt_trichotomy t.nonce tx.nonce
      · exact .inr (.inl ⟨h, hlt⟩)
      · exact .inl ⟨h, heq⟩
      · exact .inr (.inr ⟨h, hgt⟩)
    · rintro (h | h | h) <;> exact h.1
  show ((l.get tx.nonce).toList ++ (_ ++ tx :: _)).Perm _
  rw [← append_assoc]
  refine perm_middle.trans (.cons tx ?_)
  rw [append_assoc]
  exact hsplit.symm

theorem add_eq_some {priceBump : Nat} {replaced : Option Tx}
    (h : l.add tx priceBump = some (l', replaced)) :
    l' = l.put tx ∧ replaced = l.get tx.nonce ∧
      ∀ old, replaced = some old → old.price < tx.price := by
  unfold add at h
  split at h
  · rename_i hnone
    cases h
    exact ⟨rfl, hnone.symm, nofun⟩
  rename_i old hold
  split at h
  · cases h
  rename_i hbid
  cases h
  refine ⟨rfl, hold.symm, fun t ht => ?_⟩
  cases ht
  unfold underbids at hbid
  omega

theorem add_eq_none {priceBump : Nat} (h : l.add tx priceBump = none) :
    ∃ old, l.get tx.nonce = some old := by
  unfold add at h
  split at h
  · cases h
  rename_i old hold
  exact ⟨old, hold⟩

theorem filters_perm {p q : Tx → Prop} [DecidablePred p] [DecidablePred q] (h : ∀ tx, ¬ p tx ↔ q tx)
    (txs : List Tx) : (txs.filter (p ·) ++ txs.filter (q ·)).Perm txs := by
  simp only [← h, decide_not]
  exact filter_append_perm _ _

theorem forward_perm (l : TxList) (threshold : Nat) :
    ((l.forward threshold).1 ++ (l.forward threshold).2.txs).Perm l.txs :=
  filters_perm (fun _ => not_lt) l.txs

theorem splitAbove_perm : ((l.splitAbove nonce).1 ++ (l.splitAbove nonce).2.txs).Perm l.txs :=
  filters_perm (fun _ => not_lt) l.txs

theorem filter_perm (l : TxList) (costLimit : Int) (gasLimit : Nat) :
    ((l.filter costLimit gasLimit).1 ++ ((l.filter costLimit gasLimit).2.1 ++
      (l.filter costLimit gasLimit).2.2.txs)).Perm l.txs := by
  have hpay : (l.txs.filter (unpayable costLimit gasLimit) ++
      (l.payable costLimit gasLimit).txs).Perm l.txs := filter_append_perm _ _
  unfold filter
  split
  · exact .refl _
  split
  · rename_i hnil
    rwa [hnil] at hpay
  split
  · exact (splitAbove_perm.append_left _).trans hpay
  · exact hpay

theorem filter_strict {costLimit : Int} {gasLimit : Nat} :
    (l.filter costLimit gasLimit).2.2.strict = l.strict := by
  unfold filter
  split
  · rfl
  split
  · rfl
  · split <;> rfl

theorem filter_invalids (h : l.strict = false) (costLimit : Int) (gasLimit : Nat) :
    (l.filter costLimit gasLimit).2.1 = [] := by
  unfold filter
  split
  · rfl
  split
  · rfl
  rw [h]
  rfl

theorem cap_perm {threshold : Int} {drops : List Tx} (h : l.cap threshold = some (drops, l')) :
    (drops ++ l'.txs).Perm l.txs := by
  unfold cap at h
  split at h
  · cases h
    exact .refl _
  split at h
  · cases h
  cases h
  refine (List.Perm.append_right _ (reverse_perm _)).trans ?_
  refine perm_append_comm.trans ?_
  show (l.txs.take _ ++ l.txs.drop _).Perm _
  rw [take_append_drop]

theorem cap_strict {threshold : Int} {drops : List Tx} (h : l.cap threshold = some (drops, l')) :
    l'.strict = l.strict := by
  unfold cap at h
  split at h
  · cases h
    rfl
  · split at h <;> cases h
    rfl

theorem withoutNonce_perm (h : l.get nonce = some tx) :
    (tx :: (l.withoutNonce nonce).txs).Perm l.txs := by
  obtain ⟨hmem, hn⟩ := get_eq_some.1 h
  have hone : l.txs.filter (fun t => t.nonce = nonce) = [tx] := by
    refine perm_singleton.1 ?_
    refine (perm_ext_iff_of_nodup (l.nodup.filter _) (nodup_singleton _)).2 fun t => ?_
    simp only [mem_filter, decide_eq_true_eq, mem_singleton]
    constructor
    · rintro ⟨ht, htn⟩
      exact eq_of_nonce ht hmem (htn.trans hn.symm)
    · rintro rfl
      exact ⟨hmem, hn⟩
  have hsplit := filter_append_perm (fun t : Tx => decide (t.nonce = nonce)) l.txs
  rw [hone, singleton_append] at hsplit
  unfold withoutNonce restrict
  simpa only [decide_not] using hsplit

theorem remove_perm {invalids : List Tx} (h : l.remove tx = some (invalids, l')) :
    ∃ found, l.get tx.nonce = some found ∧ (found :: (invalids ++ l'.txs)).Perm l.txs := by
  unfold remove at h
  split at h
  · rename_i hover
    obtain ⟨found, hfound⟩ := Option.isSome_iff_exists.1 hover
    refine ⟨found, hfound, ?_⟩
    have hrest := withoutNonce_perm hfound
    split at h
    · cases h
      exact (splitAbove_perm.cons found).trans hrest
    · cases h
      exact hrest
  · cases h

theorem remove_strict {invalids : List Tx} (h : l.remove tx = some (invalids, l')) :
    l'.strict = l.strict := by
  unfold remove at h
  split at h
  · split at h <;> cases h <;> rfl
  · cases h

theorem remove_eq_none (h : l.remove tx = none) : l.get tx.nonce = none := by
  unfold remove at h
  split at h
  · split at h <;> cases h
  rename_i hover
  unfold overlaps at hover
  simpa using hover

theorem take_consecutive (next : Nat) (txs : List Tx) :
    txs.take (consecutive next txs).length = consecutive next txs := by
  induction txs generalizing next with
  | nil => rfl
  | cons tx txs ih =>
    unfold consecutive
    split
    · rw [length_cons, take_succ_cons, ih]
    · rfl

theorem ready_append (l : TxList) (start : Nat) :
    (l.ready start).1 ++ (l.ready start).2.txs = l.txs := by
  unfold ready
  split
  · rfl
  rename_i first _
  split
  · rfl
  show consecutive first.nonce l.txs ++ l.txs.drop _ = l.txs
  conv => lhs; arg 1; rw [← take_consecutive]
  exact take_append_drop _ _

theorem ready_strict (l : TxList) (start : Nat) : (l.ready start).2.strict = l.strict := by
  unfold ready
  split
  · rfl
  · split <;> rfl

/-! ## Filtering is exact -/

theorem filter_removed (l : TxList) (costLimit : Int) (gasLimit : Nat) :
    (l.filter costLimit gasLimit).1 = l.txs.filter (unpayable costLimit gasLimit) := by
  unfold filter
  split
  · -- within the caps there is nothing to remove
    rename_i hcaps
    refine (filter_eq_nil_iff.2 fun tx htx => ?_).symm
    have hcost := l.cost_le tx htx
    have hgas := l.gas_le tx htx
    simp only [unpayable, decide_eq_true_eq]
    omega
  split
  · rename_i hnil
    exact hnil.symm
  · split <;> rfl

theorem lowestNonce_lt {txs : List Tx} :
    lowestNonce txs < tx.nonce ↔ ∃ t ∈ txs, t.nonce < tx.nonce := by
  have hmax : ¬ maxUint64 < tx.nonce := Nat.not_lt.2 (Nat.le_of_lt_succ tx.accountNonce_lt)
  suffices h : ∀ lowest, txs.foldl (fun lowest tx => if lowest > tx.nonce then tx.nonce else lowest)
      lowest < tx.nonce ↔ lowest < tx.nonce ∨ ∃ t ∈ txs, t.nonce < tx.nonce by
    rw [lowestNonce, h, or_iff_right hmax]
  induction txs with
  | nil => simp
  | cons t txs ih =>
    intro lowest
    rw [foldl_cons, ih]
    simp only [mem_cons, exists_eq_or_imp, ← or_assoc]
    refine or_congr_left ?_
    split <;> omega

theorem mem_filter_invalids {costLimit : Int} {gasLimit : Nat} :
    tx ∈ (l.filter costLimit gasLimit).2.1 ↔ l.strict = true ∧ tx ∈ l.txs ∧
      unpayable costLimit gasLimit tx = false ∧
      ∃ t ∈ (l.filter costLimit gasLimit).1, t.nonce < tx.nonce := by
  cases hstrict : l.strict with
  | false => simp [filter_invalids hstrict]
  | true =>
    have hremoved := l.filter_removed costLimit gasLimit
    rw [hremoved, ← lowestNonce_lt]
    unfold filter at hremoved ⊢
    split
    · rw [if_pos ‹_›] at hremoved
      simp [← hremoved, lowestNonce_lt]
    split
    · rename_i hnil
      simp [hnil, lowestNonce_lt]
    · simp [hstrict, splitAbove, payable, restrict, and_comm]

def bid (price : Int) : Tx where
  hash := 0
  sender := none
  accountNonce := 0
  price
  gasLimit := 0
  recipient := none
  amount := 0
  payload := []
  gasLimit_lt := by decide
  size := 0
  accountNonce_lt := by decide

end TxList

end Virbicoin.Core
