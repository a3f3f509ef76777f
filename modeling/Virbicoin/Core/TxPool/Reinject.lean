import Virbicoin.Core.TxPool.Pool

/-!
# The transactions of a reorganisation

`reset` walks down from the old and from the new head. The higher one comes down first, and then
both go on in step until they meet. In a tree of blocks that are all there, what they have passed
are the two branches above the common ancestor.

The distance of the heads is a difference of two `float64`s. From block `2 ^ 53` on these are
rounded, and a head can come out far from its parent (`reset_far_heads`).
-/

namespace Virbicoin.Core.BlockChain

open List

theorem float64_of_lt {n : Nat} (h : n < 2 ^ 53) : float64 n = n := by
  have hlog : n.log2 - 52 = 0 := by
    by_cases hn : n = 0
    · rw [hn]
      rfl
    · have := (Nat.log2_lt hn).2 h
      omega
  simp [float64, hlog, Nat.mod_one]

/-- The blocks from `b` down to above `a`. -/
inductive Branch (c : BlockChain) (U : Set PoolBlock) :
    PoolBlock → List PoolBlock → PoolBlock → Prop
  | nil {b : PoolBlock} (hb : b ∈ U) : Branch c U b [] b
  | cons {b p a : PoolBlock} {l : List PoolBlock} (hb : b ∈ U)
      (hp : c.hash p.header = b.header.parentHash) (h : Branch c U p l a) : Branch c U b (b :: l) a

/-- The blocks can be retrieved and are told apart by their hashes, and two of them have a common
ancestor above which they have none. -/
structure BlockTree (c : BlockChain) (U : Set PoolBlock) : Prop where
  found : ∀ b ∈ U, c.getBlock (c.hash b.header) b.numberU64 = some b
  inj : Set.InjOn (fun b => c.hash b.header) U
  number : ∀ p ∈ U, ∀ b ∈ U, c.hash p.header = b.header.parentHash →
    b.numberU64 = p.numberU64 + 1
  common : ∀ b ∈ U, ∀ b' ∈ U, ∃ l l' a, Branch c U b l a ∧ Branch c U b' l' a ∧ l.Disjoint l'

def txsOf (l : List PoolBlock) : List Tx := l.flatMap PoolBlock.transactions

section Tree

variable {c : BlockChain} {U : Set PoolBlock} {a b p b' : PoolBlock} {l l' : List PoolBlock}

theorem Branch.mem (h : Branch c U b l a) : b ∈ U := by cases h <;> assumption

variable (ht : c.BlockTree U)
include ht

theorem Branch.number_eq (h : Branch c U b l a) : b.numberU64 = a.numberU64 + l.length := by
  induction h with
  | nil hb => rfl
  | cons hb hp h ih =>
    rw [ht.number _ h.mem _ hb hp, ih]
    rfl

theorem BlockTree.parent_eq (hp : p ∈ U) (hb : b ∈ U)
    (hhash : c.hash p.header = b.header.parentHash) : c.parent b = some p := by
  have hnum := ht.number p hp b hb hhash
  have hlt : b.numberU64 < 2 ^ 64 := b.header.numberU64_lt
  rw [parent, subUint64_of_le hlt (by omega), hnum, ← hhash]
  exact ht.found p hp

theorem lower_branch (h : Branch c U b l a) (n fuel : Nat) (hn : a.numberU64 ≤ n)
    (hfuel : b.numberU64 ≤ fuel + n) :
    ∃ l1 l2 r, l1 ++ l2 = l ∧ c.lower n fuel b = .ok (txsOf l1, r) ∧ Branch c U r l2 a ∧
      r.numberU64 = min b.numberU64 n := by
  induction fuel generalizing b l with
  | zero =>
    refine ⟨[], l, b, rfl, ?_, h, by omega⟩
    rw [lower, if_neg (by omega)]
    rfl
  | succ fuel ih =>
    by_cases hlt : n < b.numberU64
    · cases h with
      | nil hb => omega
      | cons hb hp h =>
        have hnum := ht.number _ h.mem _ hb hp
        obtain ⟨l1, l2, r, rfl, hok, hbranch, hmin⟩ := ih h (by omega)
        refine ⟨b :: l1, l2, r, rfl, ?_, hbranch, by omega⟩
        rw [lower, if_pos hlt, ht.parent_eq h.mem hb hp]
        simp only [hok]
        rfl
    refine ⟨[], l, b, rfl, ?_, h, by omega⟩
    rw [lower, if_neg hlt]
    rfl

theorem meet_branch (h : Branch c U b l a) (h' : Branch c U b' l' a) (hdisj : l.Disjoint l')
    (hlen : l.length = l'.length) (fuel : Nat) (hfuel : l.length < fuel) :
    c.meet fuel b b' = .ok (txsOf l, txsOf l') := by
  induction fuel generalizing b b' l l' with
  | zero => omega
  | succ fuel ih =>
    cases h with
    | nil hb =>
      obtain rfl := eq_nil_of_length_eq_zero hlen.symm
      cases h'
      rw [meet, if_pos rfl]
      rfl
    | cons hb hp h =>
      cases h' with
      | nil => cases hlen
      | cons hb' hp' h' =>
        have hne : c.hash b.header ≠ c.hash b'.header := fun heq =>
          hdisj mem_cons_self (by rw [ht.inj hb hb' heq]; exact mem_cons_self)
        rw [meet, if_neg hne, ht.parent_eq h.mem hb hp, ht.parent_eq h'.mem hb' hp']
        simp only [ih h h' (fun _ hx hx' => hdisj (mem_cons_of_mem _ hx) (mem_cons_of_mem _ hx'))
          (Nat.succ.inj hlen) (Nat.lt_of_succ_lt_succ hfuel)]
        rfl

theorem walk_branch (h : Branch c U b l a) (h' : Branch c U b' l' a) (hdisj : l.Disjoint l') :
    c.walk b b' = .ok (txsOf l, txsOf l') := by
  have hnum := h.number_eq ht
  have hnum' := h'.number_eq ht
  obtain ⟨l1, l2, r, rfl, hok, hr, hrnum⟩ := lower_branch ht h b'.numberU64
    b.numberU64 (by omega) (by omega)
  obtain ⟨l3, l4, s, rfl, hok', hs, hsnum⟩ := lower_branch ht h' r.numberU64
    b'.numberU64 (by omega) (by omega)
  have hmeet := meet_branch ht hr hs
    (fun _ hx hx' => hdisj (mem_append_right _ hx) (mem_append_right _ hx'))
    (by have := hr.number_eq ht; have := hs.number_eq ht; omega)
    (r.numberU64 + 1) (by have := hr.number_eq ht; omega)
  rw [walk, hok]
  simp only [bind, Except.bind, hok', hmeet, txsOf, flatMap_append]

theorem Branch.nil_of_parent (h : Branch c U b l a) (h' : Branch c U b' l' a)
    (hdisj : l.Disjoint l') (hhash : c.hash b.header = b'.header.parentHash) : l = [] := by
  have hnum := ht.number b h.mem b' h'.mem hhash
  have hlen := h.number_eq ht
  cases h' with
  | nil => omega
  | cons hb' hp' h' =>
    obtain rfl := ht.inj h.mem h'.mem (hhash.trans hp'.symm)
    cases h with
    | nil => rfl
    | cons hb hp h =>
      cases h' with
      | nil => simp at hlen
      | cons _ _ _ => exact absurd (mem_cons_of_mem _ mem_cons_self) (hdisj mem_cons_self)

end Tree

def numberedBlock (n : Nat) : PoolBlock where
  header := { (default : Header) with parentHash := BitVec.ofNat 256 n - 1, number := n }
  transactions := [pricedTransaction (BitVec.ofNat 256 n) 0 n 200 1]

/-- A chain without forks. The hash of a block is its number. -/
def longChain : BlockChain :=
  { richChain with
    hash := fun h => BitVec.ofNat 256 h.number
    getBlock := fun hash n => if hash = BitVec.ofNat 256 n then some (numberedBlock n) else none }

end Virbicoin.Core.BlockChain
