import Virbicoin.Core.Blockchain.Store
import Mathlib.Logic.Relation

/-!
# The forks of a reorganisation

In a chain whose blocks form a tree, `forkChains` finds the blocks of the old and of the new head
above a common ancestor (`forkChains_spec`).
-/

namespace Virbicoin.Core.Chain

open Lib List

namespace BlockChain

variable {hash : Header → Hash} {U : Set ChainBlock} {genesis : ChainBlock} {bc bc' : BlockChain}

/-- The blocks that come up form a tree, and no transaction occurs twice on a branch. No block has
the hash that stands for a missing entry. -/
structure BlockTree (hash : Header → Hash) (genesis : ChainBlock) (U : Set ChainBlock) : Prop where
  genesis_mem : genesis ∈ U
  genesis_number : genesis.numberU64 = 0
  genesis_transactions : genesis.transactions = []
  inj : Set.InjOn (ChainBlock.hash hash) U
  ne_zero : ∀ x ∈ U, x.hash hash ≠ 0
  number : ∀ x ∈ U, ∀ y ∈ U, x.parentHash = y.hash hash → x.numberU64 = y.numberU64 + 1
  once : ∀ x ∈ U, ∀ y ∈ U,
    Relation.TransGen (fun x y => x ∈ U ∧ y ∈ U ∧ x.parentHash = y.hash hash) x y →
      ∀ t ∈ x.transactions, t ∉ y.transactions

variable (ht : BlockTree hash genesis U) (hs : Stored hash U genesis bc)

section Has

variable {b p : ChainBlock}
include ht hs

theorem getParent_spec (hb : b ∈ U) (hp : bc.getParent b = some p) :
    bc.Has hash p ∧ b.parentHash = p.hash hash ∧ b.numberU64 = p.numberU64 + 1 := by
  obtain ⟨hpU, hhash, -⟩ := hs.keyed hp
  exact ⟨has_of_blocks hs hp, hhash.symm, ht.number b hb p hpU hhash.symm⟩

omit ht in
theorem exists_getParent (hb : bc.Has hash b) (hpos : 0 < b.numberU64) :
    ∃ p, bc.getParent b = some p := by
  obtain ⟨p, hp⟩ := hs.exists_parent hb hpos
  refine ⟨p, ?_⟩
  rw [getParent, subUint64_of_le b.numberU64_lt hpos]
  exact hp

theorem Has.eq_of_hash (hb : bc.Has hash b) (hp : bc.Has hash p)
    (h : b.hash hash = p.hash hash) : b = p :=
  ht.inj (hb.mem hs) (hp.mem hs) h

theorem Has.eq_genesis (hb : bc.Has hash b) (hzero : b.numberU64 = 0) : b = genesis :=
  ht.inj (hb.mem hs) ht.genesis_mem (hs.tree.root (hb.link hs) hzero)

omit ht in
theorem exists_has_of_ancestor {k a : Hash} {n : Nat} (ha : Ancestor bc.link k n a) :
    ∃ x, bc.Has hash x ∧ x.hash hash = a ∧ x.numberU64 = n := by
  obtain ⟨v, hv, rfl⟩ := ha.link_eq
  obtain ⟨x, hx, -⟩ := hs.of_link hv
  obtain ⟨-, hhash, hnum⟩ := hs.keyed hx
  exact ⟨x, has_of_blocks hs hx, hhash, hnum⟩

theorem once_of_ancestor (hb : bc.Has hash b) {n : Nat} {x : ChainBlock} (hx : bc.Has hash x)
    (ha : Ancestor bc.link (b.hash hash) n (x.hash hash)) {t : Hash} (htb : t ∈ b.transactions)
    (htx : t ∈ x.transactions) : x = b := by
  -- the ancestor is the block itself or above it in the tree of all blocks
  have hgen : ∀ {k a : Hash} {n : Nat}, Ancestor bc.link k n a → ∀ b x, bc.Has hash b →
      b.hash hash = k → bc.Has hash x → x.hash hash = a → x = b ∨
        Relation.TransGen (fun x y => x ∈ U ∧ y ∈ U ∧ x.parentHash = y.hash hash) b x := by
    intro k a n ha
    induction ha with
    | self hk hn =>
      intro b x hb hbk hx hxk
      exact .inl (hx.eq_of_hash ht hs hb (hxk.trans hbk.symm))
    | up hk hlt _ ih =>
      intro b x hb hbk hx hxa
      have hlink := hb.link hs
      rw [hbk, hk] at hlink
      cases hlink
      obtain ⟨p, hp⟩ := exists_getParent hs hb (by simp only at hlt; omega)
      obtain ⟨hhas, hparent, -⟩ := getParent_spec ht hs (hb.mem hs) hp
      have hone : Relation.TransGen (fun x y => x ∈ U ∧ y ∈ U ∧ x.parentHash = y.hash hash) b p :=
        .single ⟨hb.mem hs, hhas.mem hs, hparent⟩
      obtain rfl | hrest := ih p x hhas hparent.symm hx hxa
      · exact .inr hone
      · exact .inr (hone.trans hrest)
  obtain rfl | hup := hgen ha b x hb rfl hx rfl
  · rfl
  · exact absurd htx (ht.once b (hb.mem hs) x (hx.mem hs) hup t htb)

end Has

/-! ## Paths down the tree -/

inductive Path (bc : BlockChain) : ChainBlock → List ChainBlock → ChainBlock → Prop
  | nil {b : ChainBlock} : Path bc b [] b
  | cons {b p c : ChainBlock} {l : List ChainBlock} : bc.getParent b = some p → Path bc p l c →
      Path bc b (b :: l) c

namespace Path

variable {b c p : ChainBlock} {l l' : List ChainBlock}

theorem append (h : Path bc b l p) (h' : Path bc p l' c) : Path bc b (l ++ l') c := by
  induction h with
  | nil => exact h'
  | cons hp _ ih => exact .cons hp (ih h')

section Stored

variable (hb : bc.Has hash b) (h : Path bc b l c)
include ht hs hb h

theorem has : bc.Has hash c := by
  induction h with
  | nil => exact hb
  | cons hp _ ih => exact ih (getParent_spec ht hs (hb.mem hs) hp).1

theorem numberU64 : b.numberU64 = c.numberU64 + l.length := by
  induction h with
  | nil => rfl
  | cons hp _ ih =>
    obtain ⟨hhas, -, hnum⟩ := getParent_spec ht hs (hb.mem hs) hp
    have := ih hhas
    rw [length_cons]
    omega

theorem ancestor : Ancestor bc.link (b.hash hash) c.numberU64 (c.hash hash) := by
  induction h with
  | nil => exact .self (hb.link hs) rfl
  | cons hp hrest ih =>
    obtain ⟨hhas, hparent, hnum⟩ := getParent_spec ht hs (hb.mem hs) hp
    have hle := hrest.numberU64 ht hs hhas
    refine .up (hb.link hs) (by simp only; omega) ?_
    simp only [hparent]
    exact ih hhas

theorem of_mem {x : ChainBlock} (hx : x ∈ l) : bc.Has hash x ∧
    Ancestor bc.link (b.hash hash) x.numberU64 (x.hash hash) ∧ c.numberU64 < x.numberU64 := by
  induction h with
  | nil => cases hx
  | @cons b p c l hp hrest ih =>
    obtain ⟨hhas, hparent, hnum⟩ := getParent_spec ht hs (hb.mem hs) hp
    have hle := hrest.numberU64 ht hs hhas
    obtain rfl | hx := mem_cons.1 hx
    · exact ⟨hb, .self (hb.link hs) rfl, by omega⟩
    obtain ⟨hhasx, hanc, hlt⟩ := ih hhas hx
    refine ⟨hhasx, .up (hb.link hs) ?_ ?_, hlt⟩
    · have := hanc.le (hhas.link hs)
      simp only at this ⊢
      omega
    simp only [hparent]
    exact hanc

theorem exists_mem {n : Nat} (hlt : c.numberU64 < n) (hle : n ≤ b.numberU64) :
    ∃ x ∈ l, x.numberU64 = n := by
  induction h with
  | nil => omega
  | @cons b p c l hp _ ih =>
    by_cases hn : n = b.numberU64
    · exact ⟨b, mem_cons_self, hn.symm⟩
    obtain ⟨hhas, -, hnum⟩ := getParent_spec ht hs (hb.mem hs) hp
    obtain ⟨x, hx, hxn⟩ := ih hhas hlt (by omega)
    exact ⟨x, mem_cons_of_mem _ hx, hxn⟩

theorem mem_of_ancestor {x : ChainBlock} (hx : bc.Has hash x)
    (ha : Ancestor bc.link (b.hash hash) x.numberU64 (x.hash hash))
    (hlt : c.numberU64 < x.numberU64) : x ∈ l := by
  obtain ⟨y, hy, hnum⟩ := h.exists_mem ht hs hb hlt (ha.le (hb.link hs))
  obtain ⟨hhas, hanc, -⟩ := h.of_mem ht hs hb hy
  rw [hnum] at hanc
  rwa [hx.eq_of_hash ht hs hhas (ha.unique hanc)]

end Stored

end Path

/-! ## Finding the forks -/

section Forks

variable {b old new : ChainBlock}
include ht hs

theorem collectAbove_spec {number fuel : Nat} (hb : bc.Has hash b) (hle : number ≤ b.numberU64)
    (hfuel : b.numberU64 ≤ number + fuel) (err : ChainError) (chain : List ChainBlock) :
    ∃ p l, bc.collectAbove number err fuel b chain = .ok (p, chain ++ l) ∧ Path bc b l p ∧
      p.numberU64 = number := by
  induction fuel generalizing b chain with
  | zero =>
    have hnum : b.numberU64 = number := by omega
    refine ⟨b, [], ?_, .nil, hnum⟩
    rw [collectAbove, if_pos hnum, append_nil]
  | succ fuel ih =>
    unfold collectAbove
    split
    · rename_i hnum
      exact ⟨b, [], by rw [append_nil], .nil, hnum⟩
    obtain ⟨p, hp⟩ := exists_getParent hs hb (by omega)
    obtain ⟨hhas, -, hone⟩ := getParent_spec ht hs (hb.mem hs) hp
    obtain ⟨q, l, hok, hpath, hq⟩ := ih hhas (by omega) (by omega) (chain ++ [b])
    refine ⟨q, b :: l, ?_, .cons hp hpath, hq⟩
    simp only [hp, hok, append_assoc, singleton_append]

theorem collectForks_spec {fuel : Nat} (hold : bc.Has hash old) (hnew : bc.Has hash new)
    (heq : old.numberU64 = new.numberU64) (hfuel : old.numberU64 ≤ fuel)
    (oldChain newChain : List ChainBlock) :
    ∃ c l l', collectForks hash bc fuel old new oldChain newChain =
        .ok (oldChain ++ l, newChain ++ l') ∧ Path bc old l c ∧ Path bc new l' c ∧
      ∀ x ∈ l', ¬ Ancestor bc.link (old.hash hash) x.numberU64 (x.hash hash) := by
  induction fuel generalizing old new oldChain newChain with
  | zero =>
    have hsame : old = new := by
      rw [hold.eq_genesis ht hs (by omega), hnew.eq_genesis ht hs (by omega)]
    subst hsame
    refine ⟨old, [], [], ?_, .nil, .nil, fun _ hx => (by cases hx)⟩
    rw [collectForks, if_pos rfl, append_nil, append_nil]
  | succ fuel ih =>
    unfold collectForks
    split
    · rename_i hhash
      obtain rfl := hold.eq_of_hash ht hs hnew hhash
      exact ⟨old, [], [], by rw [append_nil, append_nil], .nil, .nil, fun _ hx => (by cases hx)⟩
    rename_i hhash
    have hpos : 0 < old.numberU64 := by
      refine Nat.pos_of_ne_zero fun hzero => hhash ?_
      rw [hold.eq_genesis ht hs hzero, hnew.eq_genesis ht hs (heq ▸ hzero)]
    obtain ⟨p, hp⟩ := exists_getParent hs hold hpos
    obtain ⟨q, hq⟩ := exists_getParent hs hnew (heq ▸ hpos)
    obtain ⟨hhasp, hparent, hnump⟩ := getParent_spec ht hs (hold.mem hs) hp
    obtain ⟨hhasq, -, hnumq⟩ := getParent_spec ht hs (hnew.mem hs) hq
    obtain ⟨c, l, l', hok, hpath, hpath', hout⟩ := ih hhasp hhasq (by omega) (by omega)
      (oldChain ++ [old]) (newChain ++ [new])
    refine ⟨c, old :: l, new :: l', ?_, .cons hp hpath, .cons hq hpath', fun x hx ha => ?_⟩
    · simp only [hp, hq, hok, append_assoc, singleton_append]
    obtain rfl | hx := mem_cons.1 hx
    · rw [← heq] at ha
      exact hhash (ha.eq_self (hold.link hs)).symm
    refine hout x hx ?_
    have hxle := ((hpath'.of_mem ht hs hhasq hx).2.1).le (hhasq.link hs)
    simp only at hxle
    rw [← hparent]
    have hup : Ancestor bc.link (old.hash hash) p.numberU64 old.parentHash := by
      rw [hparent]
      exact (Path.cons hp .nil).ancestor ht hs hold
    exact hup.restrict_below (by omega) ha

theorem forkChains_spec (hold : bc.Has hash old) (hnew : bc.Has hash new) :
    ∃ c l l', forkChains hash bc old new = .ok (l, l') ∧ Path bc old l c ∧ Path bc new l' c ∧
      ∀ x ∈ l', ¬ Ancestor bc.link (old.hash hash) x.numberU64 (x.hash hash) := by
  unfold forkChains
  split
  · rename_i hlt
    obtain ⟨p, l, hok, hpath, hnum⟩ :=
      collectAbove_spec ht hs hold (Nat.le_of_lt hlt) (Nat.le_add_left _ _) .invalidOldChain []
    have hhas := hpath.has ht hs hold
    obtain ⟨c, l1, l2, hok', hpath1, hpath2, hout⟩ :=
      collectForks_spec ht hs hhas hnew hnum (le_of_eq hnum) ([] ++ l) []
    refine ⟨c, l ++ l1, l2, ?_, hpath.append hpath1, hpath2, fun x hx ha => hout x hx ?_⟩
    · rw [hok]
      exact hok'
    · have hxle := ((hpath2.of_mem ht hs hnew hx).2.1).le (hnew.link hs)
      exact (hpath.ancestor ht hs hold).restrict_below (hnum ▸ hxle) ha
  rename_i hge
  obtain ⟨p, l, hok, hpath, hnum⟩ :=
    collectAbove_spec ht hs hnew (Nat.le_of_not_lt hge) (Nat.le_add_left _ _) .invalidNewChain []
  have hhas := hpath.has ht hs hnew
  obtain ⟨c, l1, l2, hok', hpath1, hpath2, hout⟩ :=
    collectForks_spec ht hs hold hhas hnum.symm (le_refl _) [] ([] ++ l)
  refine ⟨c, l1, l ++ l2, ?_, hpath1, hpath.append hpath2, fun x hx ha => ?_⟩
  · rw [hok]
    exact hok'
  obtain hx | hx := mem_append.1 hx
  · -- the new chain is longer here
    have hlt := (hpath.of_mem ht hs hnew hx).2.2
    have hle := ha.le (hold.link hs)
    simp only at hle
    omega
  · exact hout x hx ha

end Forks

end BlockChain

end Virbicoin.Core.Chain
