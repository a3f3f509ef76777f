import Virbicoin.Core.Blockchain.Forks
import Virbicoin.Lib.Run

/-!
# The canonical block index

A reorganisation writes the new chain but its head, deletes what is above the block that is current
then, and leaves the head to its caller. If the new chain has at least two blocks, then the block
that is current then is the parent of the new head. If it has one block or none, then the old head
is still current, and what is above the new head is left in the index if the old chain was longer.
This is the only way to break the index (`step_indexed_iff`).
-/

namespace Virbicoin.Core.Chain

open Lib Function List

namespace BlockChain

variable {hash : Header → Hash} {U : Set ChainBlock} {genesis b c : ChainBlock}
  {bc bc' bc₁ : BlockChain}

/-- The canonical index holds the ancestors of the current block and nothing else, and the lookup
entries are those of the transactions in these blocks. -/
structure Indexed (hash : Header → Hash) (bc : BlockChain) : Prop where
  ancestor : ∀ n ≤ bc.currentBlock.numberU64, ∃ a, bc.canonicalHashes n = some a ∧
    Ancestor bc.link (bc.currentBlock.hash hash) n a
  above : ∀ n, bc.currentBlock.numberU64 < n → bc.canonicalHashes n = none
  lookup : ∀ t n, bc.txLookups t = some n ↔ ∃ b, bc.blocks n (b.hash hash) = some b ∧
    Ancestor bc.link (bc.currentBlock.hash hash) n (b.hash hash) ∧ t ∈ b.transactions

theorem Sound.describes_iff (h : Sound hash U genesis bc) :
    Describes bc.link bc.canonicalHashes (bc.currentBlock.hash hash) ↔
      (∀ n ≤ bc.currentBlock.numberU64, ∃ a, bc.canonicalHashes n = some a ∧
        Ancestor bc.link (bc.currentBlock.hash hash) n a) ∧
      ∀ n, bc.currentBlock.numberU64 < n → bc.canonicalHashes n = none :=
  Lib.describes_iff h.stored.tree (h.current.link h.stored)

/-! ## The writes of a head -/

section Heads

variable {xs : List ChainBlock} {n : Nat} {t : Hash}

theorem writeHeads_canonical_of_notMem (h : ∀ x ∈ xs, x.numberU64 ≠ n) :
    (xs.foldl (writeHeadBlock hash) bc).canonicalHashes n = bc.canonicalHashes n := by
  induction xs generalizing bc with
  | nil => rfl
  | cons x xs ih =>
    refine (ih fun y hy => h y (mem_cons_of_mem _ hy)).trans ?_
    exact update_of_ne (h x mem_cons_self).symm _ _

theorem writeHeads_canonical_of_mem {x : ChainBlock} (hx : x ∈ xs) :
    ∃ y ∈ xs, y.numberU64 = x.numberU64 ∧
      (xs.foldl (writeHeadBlock hash) bc).canonicalHashes x.numberU64 = some (y.hash hash) := by
  induction xs using reverseRecOn with
  | nil => cases hx
  | append_singleton xs y ih =>
    rw [foldl_append]
    by_cases hnum : y.numberU64 = x.numberU64
    · refine ⟨y, mem_append_right _ mem_cons_self, hnum, ?_⟩
      rw [← hnum]
      exact update_self _ _ _
    obtain hx | hx := mem_append.1 hx
    · obtain ⟨z, hz, hzn, hzc⟩ := ih hx
      exact ⟨z, mem_append_left _ hz, hzn, (update_of_ne (.symm hnum) _ _).trans hzc⟩
    · cases mem_singleton.1 hx
      exact absurd rfl hnum

theorem writeHeads_lookup_of_notMem (h : ∀ x ∈ xs, t ∉ x.transactions) :
    (xs.foldl (writeHeadBlock hash) bc).txLookups t = bc.txLookups t := by
  induction xs generalizing bc with
  | nil => rfl
  | cons x xs ih =>
    refine (ih fun y hy => h y (mem_cons_of_mem _ hy)).trans ?_
    exact if_neg (h x mem_cons_self)

theorem writeHeads_lookup_of_mem {x : ChainBlock} (hx : x ∈ xs) (hxt : t ∈ x.transactions) :
    ∃ y ∈ xs, t ∈ y.transactions ∧
      (xs.foldl (writeHeadBlock hash) bc).txLookups t = some y.numberU64 := by
  induction xs using reverseRecOn with
  | nil => cases hx
  | append_singleton xs y ih =>
    rw [foldl_append]
    by_cases hy : t ∈ y.transactions
    · exact ⟨y, mem_append_right _ mem_cons_self, hy, if_pos hy⟩
    obtain hx | hx := mem_append.1 hx
    · obtain ⟨z, hz, hzt, hzl⟩ := ih hx
      exact ⟨z, mem_append_left _ hz, hzt, (if_neg hy).trans hzl⟩
    · cases mem_singleton.1 hx
      exact absurd hxt hy

end Heads

/-! ## A head on a fork -/

section Fork

variable {l l' : List ChainBlock}

variable (ht : BlockTree hash genesis U)
include ht

theorem Path.of_mem_drop (hs : Stored hash U genesis bc) (hb : bc.Has hash b) (h : Path bc b l c)
    {x : ChainBlock} (hx : x ∈ l.drop 1) :
    bc.Has hash x ∧ Ancestor bc.link (b.hash hash) x.numberU64 (x.hash hash) ∧
      c.numberU64 < x.numberU64 ∧ x.numberU64 < b.numberU64 := by
  obtain ⟨hhas, hanc, hlt⟩ := h.of_mem ht hs hb (mem_of_mem_drop hx)
  refine ⟨hhas, hanc, hlt, ?_⟩
  cases h with
  | nil => cases hx
  | cons hp hrest =>
    obtain ⟨hhasp, -, hnum⟩ := getParent_spec ht hs (hb.mem hs) hp
    have hle := ((hrest.of_mem ht hs hhasp hx).2.1).le (hhasp.link hs)
    simp only at hle
    omega

theorem Path.mem_drop (hs : Stored hash U genesis bc) (hb : bc.Has hash b) (h : Path bc b l c)
    {x : ChainBlock} (hx : bc.Has hash x)
    (ha : Ancestor bc.link (b.hash hash) x.numberU64 (x.hash hash))
    (hlt : c.numberU64 < x.numberU64) (hlt' : x.numberU64 < b.numberU64) : x ∈ l.drop 1 := by
  have hmem := h.mem_of_ancestor ht hs hb hx ha hlt
  cases h with
  | nil => cases hmem
  | cons hp hrest =>
    obtain rfl | hmem := mem_cons.1 hmem
    · exact absurd hlt' (lt_irrefl _)
    · exact hmem

structure Relooked (bc bc₁ : BlockChain) (l l' : List ChainBlock) : Prop where
  added : ∀ x ∈ l'.drop 1, ∀ t ∈ x.transactions,
    ∃ y ∈ l'.drop 1, t ∈ y.transactions ∧ bc₁.txLookups t = some y.numberU64
  deleted : ∀ t, (∀ x ∈ l'.drop 1, t ∉ x.transactions) → (∃ x ∈ l, t ∈ x.transactions) →
    bc₁.txLookups t = none
  kept : ∀ t, (∀ x ∈ l'.drop 1, t ∉ x.transactions) → (∀ x ∈ l, t ∉ x.transactions) →
    bc₁.txLookups t = bc.txLookups t

omit ht in
theorem reorg_relooked : Relooked bc ((writeForks hash bc l').deleteUseless l l') l l' := by
  have hdiff : ∀ t, t ∈ txDifference (l.flatMap ChainBlock.transactions)
      ((l'.drop 1).reverse.flatMap ChainBlock.transactions) ↔
      (∃ x ∈ l, t ∈ x.transactions) ∧ ∀ x ∈ l'.drop 1, t ∉ x.transactions := by
    intro t
    simp only [txDifference, mem_filter, mem_flatMap, mem_reverse, decide_eq_true_eq,
      not_exists, not_and]
  refine ⟨fun x hx t htx => ?_, fun t hnone hdel => ?_, fun t hnone hkeep => ?_⟩
  · obtain ⟨y, hy, hty, hlook⟩ :=
      writeHeads_lookup_of_mem (mem_reverse.2 hx) htx
    refine ⟨y, mem_reverse.1 hy, hty, ?_⟩
    exact (if_neg fun h => ((hdiff t).1 h).2 x hx htx).trans hlook
  · exact if_pos ((hdiff t).2 ⟨hdel, hnone⟩)
  refine (if_neg fun h => ?_).trans
    (writeHeads_lookup_of_notMem fun x hx => hnone x (mem_reverse.1 hx))
  obtain ⟨x, hx, htx⟩ := ((hdiff t).1 h).1
  exact hkeep x hx htx

theorem writeForks_canonical (hs : Stored hash U genesis bc) (hb : bc.Has hash b)
    (hnew : Path bc b l' c) :
    (∀ x ∈ l'.drop 1, (writeForks hash bc l').canonicalHashes x.numberU64 = some (x.hash hash)) ∧
    ∀ n, n ≤ c.numberU64 ∨ b.numberU64 ≤ n →
      (writeForks hash bc l').canonicalHashes n = bc.canonicalHashes n := by
  refine ⟨fun x hx => ?_, fun n hn => ?_⟩
  · obtain ⟨y, hy, hnum, hcanon⟩ :=
      writeHeads_canonical_of_mem (mem_reverse.2 hx)
    refine hcanon.trans ?_
    obtain ⟨-, hanc, -⟩ := hnew.of_mem_drop ht hs hb hx
    obtain ⟨-, hanc', -⟩ := hnew.of_mem_drop ht hs hb (mem_reverse.1 hy)
    rw [hnum] at hanc'
    rw [hanc'.unique hanc]
  refine writeHeads_canonical_of_notMem fun x hx => ?_
  obtain ⟨-, -, hlt, hlt'⟩ := hnew.of_mem_drop ht hs hb (mem_reverse.1 hx)
  omega

variable (hs : Sound hash U genesis bc) (hidx : Indexed hash bc) (hb : bc.Has hash b)
  (hold : Path bc bc.currentBlock l c) (hnew : Path bc b l' c)
include hs hidx hb hold hnew

theorem lookup_of_relooked (h : Relooked bc bc₁ l l') (t : Hash) (n : Nat) :
    writeTxLookupEntriesByBlock bc₁.txLookups b t = some n ↔
      ∃ x, bc.blocks n (x.hash hash) = some x ∧
      Ancestor bc.link (b.hash hash) n (x.hash hash) ∧ t ∈ x.transactions := by
  -- a block of the new chain that has the transaction is the only one
  have honly : ∀ {x}, bc.Has hash x → Ancestor bc.link (b.hash hash) x.numberU64 (x.hash hash) →
      t ∈ x.transactions → (x.numberU64 = n ↔ ∃ y, bc.blocks n (y.hash hash) = some y ∧
        Ancestor bc.link (b.hash hash) n (y.hash hash) ∧ t ∈ y.transactions) := by
    intro x hx hax htx
    constructor
    · rintro rfl
      exact ⟨x, hx, hax, htx⟩
    rintro ⟨y, hy, hay, hty⟩
    obtain ⟨-, -, rfl⟩ := hs.stored.keyed hy
    obtain hle | hle := le_total x.numberU64 y.numberU64
    · rw [once_of_ancestor ht hs.stored hy hx (hay.restrict_below hle hax) hty htx]
    · rw [once_of_ancestor ht hs.stored hx hy (hax.restrict_below hle hay) htx hty]
  unfold writeTxLookupEntriesByBlock
  by_cases htb : t ∈ b.transactions
  · rw [if_pos htb, Option.some.injEq, honly hb (.self (hb.link hs.stored) rfl) htb]
  rw [if_neg htb]
  by_cases hadded : ∃ x ∈ l'.drop 1, t ∈ x.transactions
  · obtain ⟨x, hx, htx⟩ := hadded
    obtain ⟨y, hy, hty, hlook⟩ := h.added x hx t htx
    obtain ⟨hhas, hanc, -⟩ := hnew.of_mem_drop ht hs.stored hb hy
    rw [hlook, Option.some.injEq, honly hhas hanc hty]
  have hnone : ∀ x ∈ l'.drop 1, t ∉ x.transactions := fun x hx htx => hadded ⟨x, hx, htx⟩
  have hcold := hold.ancestor ht hs.stored hs.current
  have hcnew := hnew.ancestor ht hs.stored hb
  -- what is left of the new chain is common to both
  have hcommon : ∀ y, bc.Has hash y → Ancestor bc.link (b.hash hash) y.numberU64 (y.hash hash) →
      t ∈ y.transactions → y.numberU64 ≤ c.numberU64 := by
    intro y hy hay hty
    by_contra hlt
    have hle := hay.le (hb.link hs.stored)
    obtain heq | hlt' := eq_or_lt_of_le hle
    · simp only at heq
      rw [heq] at hay
      rw [hy.eq_of_hash ht hs.stored hb (hay.eq_self (hb.link hs.stored))] at hty
      exact htb hty
    · exact hnone y (hnew.mem_drop ht hs.stored hb hy hay (by omega) hlt') hty
  by_cases hdel : ∃ x ∈ l, t ∈ x.transactions
  · rw [h.deleted t hnone hdel]
    refine ⟨fun heq => (by cases heq), ?_⟩
    rintro ⟨y, hy, hay, hty⟩
    obtain ⟨x, hx, htx⟩ := hdel
    obtain ⟨hhasx, hancx, hltx⟩ := hold.of_mem ht hs.stored hs.current hx
    obtain ⟨-, -, rfl⟩ := hs.stored.keyed hy
    have hle := hcommon y hy hay hty
    have hay' := hcold.trans (hcnew.restrict_below hle hay)
    have hsame := once_of_ancestor ht hs.stored hhasx hy
      (hancx.restrict_below (by omega) hay') htx hty
    rw [hsame] at hle
    omega
  have hkeep : ∀ x ∈ l, t ∉ x.transactions := fun x hx htx => hdel ⟨x, hx, htx⟩
  rw [h.kept t hnone hkeep, hidx.lookup]
  constructor
  · rintro ⟨y, hy, hay, hty⟩
    obtain ⟨-, -, rfl⟩ := hs.stored.keyed hy
    have hle : y.numberU64 ≤ c.numberU64 := by
      by_contra hlt
      exact hkeep y (hold.mem_of_ancestor ht hs.stored hs.current hy hay (by omega)) hty
    exact ⟨y, hy, hcnew.trans (hcold.restrict_below hle hay), hty⟩
  rintro ⟨y, hy, hay, hty⟩
  obtain ⟨-, -, rfl⟩ := hs.stored.keyed hy
  have hle := hcommon y hy hay hty
  exact ⟨y, hy, hcold.trans (hcnew.restrict_below hle hay), hty⟩

theorem settled_indexed (hstore : SameStore bc bc₁)
    (hbelow : ∀ n ≤ c.numberU64, bc₁.canonicalHashes n = bc.canonicalHashes n)
    (hmid : ∀ x ∈ l'.drop 1, bc₁.canonicalHashes x.numberU64 = some (x.hash hash))
    (habove : ∀ n, b.numberU64 < n → bc₁.canonicalHashes n = none)
    (hlookup : Relooked bc bc₁ l l') :
    Indexed hash (writeHeadBlock hash bc₁ b) := by
  have hstore' : SameStore bc (writeHeadBlock hash bc₁ b) := hstore.trans writeHeadBlock_store
  have hsound : Sound hash U genesis (writeHeadBlock hash bc₁ b) :=
    ⟨hstore'.stored hs.stored, hstore'.has.2 hb⟩
  have hlink := hb.link hs.stored
  have hcnew := hnew.ancestor ht hs.stored hb
  have hd := hs.describes_iff.2 ⟨hidx.ancestor, hidx.above⟩
  have hd' : Describes (writeHeadBlock hash bc₁ b).link
      (writeHeadBlock hash bc₁ b).canonicalHashes (b.hash hash) := by
    rw [hstore'.link]
    have htop : (writeHeadBlock hash bc₁ b).canonicalHashes b.numberU64 = some (b.hash hash) :=
      update_self _ _ _
    have hother : ∀ n, n ≠ b.numberU64 →
        (writeHeadBlock hash bc₁ b).canonicalHashes n = bc₁.canonicalHashes n :=
      fun n hn => update_of_ne hn _ _
    have hcanon : bc.canonicalHashes c.numberU64 = some (c.hash hash) :=
      (hd _ _).2 (hold.ancestor ht hs.stored hs.current)
    refine describes_of_fork hd hlink hcnew hcanon (fun n hn => ?_) (fun n hlt hn => ?_)
      (fun n hn => ?_)
    · by_cases hnb : n = b.numberU64
      · -- the new head is the common block
        subst hnb
        have hle := hcnew.le hlink
        simp only at hle
        rw [htop, (hd _ _).2]
        rw [le_antisymm hn hle]
        have heq := hcnew
        rw [← le_antisymm hn hle] at heq
        rw [← heq.eq_self hlink]
        exact hold.ancestor ht hs.stored hs.current
      · rw [hother n hnb, hbelow n hn]
    · simp only at hn
      by_cases hnb : n = b.numberU64
      · subst hnb
        exact ⟨_, htop, .self hlink rfl⟩
      obtain ⟨x, hx, rfl⟩ := hnew.exists_mem ht hs.stored hb hlt hn
      obtain ⟨hhas, hanc, -⟩ := hnew.of_mem ht hs.stored hb hx
      have hdrop := hnew.mem_drop ht hs.stored hb hhas hanc hlt (by omega)
      exact ⟨_, (hother _ hnb).trans (hmid x hdrop), hanc⟩
    simp only at hn
    rw [hother n (by omega), habove n hn]
  obtain ⟨hanc, habove'⟩ := hsound.describes_iff.1 hd'
  refine ⟨hanc, habove', fun t n => ?_⟩
  rw [hstore'.link, hstore'.1]
  exact lookup_of_relooked ht hs hidx hb hold hnew hlookup t n

/-! ## Reorganisations -/

/-- The head moves down, and the index keeps what was above: the new head or its parent is in the
index, so at most one block is new. -/
def Shortens (hash : Header → Hash) (bc : BlockChain) (b : ChainBlock) : Prop :=
  b.numberU64 < bc.currentBlock.numberU64 ∧
    (bc.canonicalHashes b.numberU64 = some (b.hash hash) ∨
      bc.canonicalHashes (b.numberU64 - 1) = some b.parentHash)

theorem deleteUseless_canonical (n : Nat) :
    ((writeForks hash bc l').deleteUseless l l').canonicalHashes n =
      if (writeForks hash bc l').currentBlock.numberU64 < n then none
      else (writeForks hash bc l').canonicalHashes n := by
  obtain ⟨hmid, hout⟩ := writeForks_canonical ht hs.stored hb hnew
  have hc := hold.numberU64 ht hs.stored hs.current
  refine clearAbove_eq (fun m a ha i hi _ hzero => ?_)
  replace ha : (writeForks hash bc l').canonicalHashes m = some a := ha
  -- an entry comes from the new chain or from the index as it was
  have hsome : ∀ x, bc.Has hash x → (writeForks hash bc l').canonicalHashes i ≠
      some (x.hash hash) := by
    intro x hx heq
    have hread : (writeForks hash bc l').readCanonicalHash i = x.hash hash := by
      rw [readCanonicalHash, heq]
      rfl
    exact ht.ne_zero x (hx.mem hs.stored) (hread.symm.trans hzero)
  by_cases hin : c.numberU64 < i ∧ i < b.numberU64
  · obtain ⟨x, hx, rfl⟩ := hnew.exists_mem ht hs.stored hb hin.1 (le_of_lt hin.2)
    obtain ⟨hhas, hanc, hlt⟩ := hnew.of_mem ht hs.stored hb hx
    exact hsome x hhas (hmid x (hnew.mem_drop ht hs.stored hb hhas hanc hlt hin.2))
  rw [hout i (by omega)] at hsome
  have hle : i ≤ bc.currentBlock.numberU64 := by
    by_contra hlt
    by_cases hm : c.numberU64 < m ∧ m < b.numberU64
    · omega
    rw [hout m (by omega), hidx.above m (by omega)] at ha
    cases ha
  obtain ⟨a, ha, hanc⟩ := hidx.ancestor i hle
  obtain ⟨x, hx, rfl, -⟩ := exists_has_of_ancestor hs.stored hanc
  exact hsome x hx ha

theorem reorg_long
    (hout : ∀ x ∈ l', ¬ Ancestor bc.link (bc.currentBlock.hash hash) x.numberU64 (x.hash hash))
    (hlong : l'.drop 1 ≠ []) :
    Indexed hash (writeHeadBlock hash ((writeForks hash bc l').deleteUseless l l') b) ∧
      ¬ Shortens hash bc b := by
  obtain ⟨hmid, hsame⟩ := writeForks_canonical ht hs.stored hb hnew
  have hcanon := deleteUseless_canonical ht hs hidx hb hold hnew
  have hd := hs.describes_iff.2 ⟨hidx.ancestor, hidx.above⟩
  cases hnew with
  | nil => exact absurd rfl hlong
  | @cons _ p _ l' hp hrest =>
    obtain ⟨hhas, hparent, hnum⟩ := getParent_spec ht hs.stored (hb.mem hs.stored) hp
    have hmem : p ∈ l' := by
      cases hrest with
      | nil => exact absurd rfl hlong
      | cons _ _ => exact mem_cons_self
    have hcur : (writeForks hash bc (b :: l')).currentBlock = p := by
      cases hrest with
      | nil => exact absurd rfl hlong
      | cons _ _ =>
        rw [writeForks, drop_one, tail_cons, reverse_cons, foldl_append]
        rfl
    rw [hcur] at hcanon
    have hlt := ((Path.cons hp hrest).of_mem_drop ht hs.stored hb (x := p) hmem).2.2.1
    refine ⟨settled_indexed ht hs hidx hb hold (.cons hp hrest)
      (writeForks_store.trans deleteUseless_store) (fun n hn => ?_) (fun x hx => ?_)
        (fun n hn => ?_)
      reorg_relooked, ?_⟩
    · rw [hcanon, if_neg (by omega), hsame n (.inl hn)]
    · have hltx := ((Path.cons hp hrest).of_mem_drop ht hs.stored hb hx).2.2.2
      rw [hcanon, if_neg (by omega), hmid x hx]
    · rw [hcanon, if_pos (by omega)]
    rintro ⟨-, hself | hup⟩
    · exact hout b mem_cons_self ((hd _ _).1 hself)
    rw [hnum, Nat.add_sub_cancel, hparent] at hup
    exact hout p (mem_cons_of_mem _ hmem) ((hd _ _).1 hup)

theorem reorg_short (hshort : l'.drop 1 = []) :
    Indexed hash (writeHeadBlock hash ((writeForks hash bc l').deleteUseless l l') b) ↔
      ¬ Shortens hash bc b := by
  have hcanon := deleteUseless_canonical ht hs hidx hb hold hnew
  have hforks : writeForks hash bc l' = bc := by
    rw [writeForks, hshort]
    rfl
  rw [hforks] at hcanon
  have hsame : ∀ n, ((writeForks hash bc l').deleteUseless l l').canonicalHashes n =
      bc.canonicalHashes n := by
    intro n
    rw [hforks, hcanon]
    split
    · rename_i hn
      rw [hidx.above n hn]
    · rfl
  by_cases hlt : b.numberU64 < bc.currentBlock.numberU64
  · have hd := hs.describes_iff.2 ⟨hidx.ancestor, hidx.above⟩
    have hcold := (hd _ _).2 (hold.ancestor ht hs.stored hs.current)
    constructor
    · -- the entry above the new head is left
      intro h
      have habove := h.above (b.numberU64 + 1) (Nat.lt_succ_self _)
      obtain ⟨a, ha, -⟩ := hidx.ancestor (b.numberU64 + 1) hlt
      have hleft : (writeHeadBlock hash ((writeForks hash bc l').deleteUseless l l')
          b).canonicalHashes (b.numberU64 + 1) = bc.canonicalHashes (b.numberU64 + 1) :=
        (update_of_ne (Nat.succ_ne_self _) _ _).trans (hsame _)
      rw [habove, ha] at hleft
      cases hleft
    intro h
    refine absurd ⟨hlt, ?_⟩ h
    cases hnew with
    | nil => exact .inl hcold
    | cons hp hrest =>
      cases hrest with
      | nil =>
        obtain ⟨-, hparent, hnum⟩ := getParent_spec ht hs.stored (hb.mem hs.stored) hp
        right
        rw [hnum, Nat.add_sub_cancel, hparent]
        exact hcold
      | cons _ _ => cases hshort
  refine ⟨fun _ h => hlt h.1, fun _ => ?_⟩
  refine settled_indexed ht hs hidx hb hold hnew (writeForks_store.trans deleteUseless_store)
    (fun n _ => hsame n) (fun x hx => ?_) (fun n hn => ?_) reorg_relooked
  · rw [hshort] at hx
    cases hx
  · rw [hsame n, hidx.above n (by omega)]

end Fork

section

variable (ht : BlockTree hash genesis U)
include ht

section

variable (hs : Sound hash U genesis bc)
include hs

/-- **Moving the head keeps the index unless it shortens the chain** by way of at most one new
block. -/
theorem moveHead_spec (hidx : Indexed hash bc) (hb : bc.Has hash b) :
    ∃ bc', moveHead hash bc b = .ok bc' ∧ SameStore bc bc' ∧ bc'.currentBlock = b ∧
      (Indexed hash bc' ↔ ¬ Shortens hash bc b) := by
  unfold moveHead
  split
  · rename_i hparent
    have hnum := ht.number b (hb.mem hs.stored) _ (hs.current.mem hs.stored) hparent
    obtain ⟨p, hp⟩ := exists_getParent hs.stored hb (by omega)
    obtain ⟨hhas, hparent', -⟩ := getParent_spec ht hs.stored (hb.mem hs.stored) hp
    obtain rfl := hhas.eq_of_hash ht hs.stored hs.current (hparent'.symm.trans hparent)
    refine ⟨_, rfl, writeHeadBlock_store, rfl, fun _ h => ?_, fun _ => ?_⟩
    · have := h.1
      omega
    refine settled_indexed ht hs hidx hb .nil (.cons hp .nil) ⟨rfl, rfl, rfl⟩ (fun _ _ => rfl)
      (fun _ hx => (by cases hx)) (fun n hn => hidx.above n (by omega)) ?_
    refine ⟨fun _ hx => (by cases hx), fun _ _ hdel => ?_, fun _ _ _ => rfl⟩
    obtain ⟨x, hx, -⟩ := hdel
    cases hx
  obtain ⟨c, l, l', hok, hold, hnew, hout⟩ := forkChains_spec ht hs.stored hs.current hb
  rw [reorg, hok]
  refine ⟨_, rfl, writeForks_store.trans
    (deleteUseless_store.trans writeHeadBlock_store), rfl, ?_⟩
  by_cases hlong : l'.drop 1 = []
  · exact reorg_short ht hs hidx hb hold hnew hlong
  obtain ⟨hidx', hnot⟩ := reorg_long ht hs hidx hb hold hnew hout hlong
  exact ⟨fun _ => hnot, fun _ => hidx'⟩

/-! ## Runs -/

def Admissible (hash : Header → Hash) (bc : BlockChain) : Call → Prop
  | .writeBlockWithState _ _ => True
  | .writeKnownBlock b => bc.Has hash b

/-- The call moves the head and leaves what was above in the index. -/
def LeavesStale (hash : Header → Hash) (bc : BlockChain) : Call → Prop
  | .writeBlockWithState b o =>
    (writeBlockWithState hash bc b o).2 = .ok .canonStatTy ∧ Shortens hash bc b
  | .writeKnownBlock b => Shortens hash bc b

def Call.block : Call → ChainBlock
  | .writeBlockWithState b _ => b
  | .writeKnownBlock b => b

omit ht in
theorem Indexed.extend (hs' : Sound hash U genesis bc') (hidx : Indexed hash bc)
    (hkeep : ∀ {n h x}, bc.blocks n h = some x → bc'.blocks n h = some x)
    (hcur : bc'.currentBlock = bc.currentBlock) (hcanon : bc'.canonicalHashes = bc.canonicalHashes)
    (hlook : bc'.txLookups = bc.txLookups) : Indexed hash bc' := by
  have hext := hs.stored.extends_link hs'.stored hkeep
  have hlink := hs.current.link hs.stored
  have hd := (hs.describes_iff.2 ⟨hidx.ancestor, hidx.above⟩).extend hext hs.stored.tree hlink
  obtain ⟨hanc, habove⟩ := hs'.describes_iff.1 (by rw [hcanon, hcur]; exact hd)
  refine ⟨hanc, habove, fun t n => ?_⟩
  rw [hlook, hidx.lookup, hcur]
  constructor
  · rintro ⟨x, hx, hax, htx⟩
    exact ⟨x, hkeep hx, hax.extend hext, htx⟩
  rintro ⟨x, hx, hax, htx⟩
  have hax' := hax.restrict hext hs.stored.tree hlink
  obtain ⟨y, hy, hhash, rfl⟩ := exists_has_of_ancestor hs.stored hax'
  have heq := hkeep hy
  rw [hhash, hx] at heq
  cases heq
  exact ⟨x, hy, hax', htx⟩

omit ht in
omit hs in
theorem removeFutureBlock_indexed (h : Hash) :
    Indexed hash (bc.removeFutureBlock h) ↔ Indexed hash bc :=
  ⟨fun hidx => ⟨hidx.ancestor, hidx.above, hidx.lookup⟩,
    fun hidx => ⟨hidx.ancestor, hidx.above, hidx.lookup⟩⟩

theorem chooseHead_spec (hidx : Indexed hash bc) (hb : bc.Has hash b) (externTd localTd : Int)
    (o : Outcome) :
    ∃ bc' status, chooseHead hash bc b externTd (some localTd) o = (bc', .ok status) ∧
      Sound hash U genesis bc' ∧
      (Indexed hash bc' ↔ ¬ (status = .canonStatTy ∧ Shortens hash bc b)) := by
  unfold chooseHead
  simp only
  split
  · obtain ⟨bc', hok, hstore, hcur, hiff⟩ := moveHead_spec ht hs hidx hb
    have hsound : Sound hash U genesis bc' :=
      ⟨hstore.stored hs.stored, hcur ▸ hstore.has.2 hb⟩
    rw [hok]
    refine ⟨_, _, rfl, hsound.removeFutureBlock _, ?_⟩
    rw [removeFutureBlock_indexed, hiff]
    simp only [true_and]
  refine ⟨_, _, rfl, hs.removeFutureBlock _, ?_⟩
  rw [removeFutureBlock_indexed]
  exact ⟨fun _ h => (by cases h.1), fun _ => hidx⟩

theorem writeBlockWithState_spec (hidx : Indexed hash bc) (hb : b ∈ U) (o : Outcome) :
    ∃ bc' res, writeBlockWithState hash bc b o = (bc', res) ∧
      ((∃ status, res = .ok status) ∨ res = .error .unknownAncestor ∨ res = .error .commit) ∧
      Sound hash U genesis bc' ∧
      (Indexed hash bc' ↔ ¬ (res = .ok .canonStatTy ∧ Shortens hash bc b)) := by
  unfold writeBlockWithState
  cases hptd : bc.getTd b.parentHash (subUint64 b.numberU64 1) with
  | none => exact ⟨bc, _, rfl, .inr (.inl rfl), hs, fun _ h => (by cases h.1), fun _ => hidx⟩
  | some ptd =>
    -- the parent that is found is one below the block
    have hnum : b.numberU64 = subUint64 b.numberU64 1 + 1 := by
      obtain ⟨p, hp⟩ := Option.isSome_iff_exists.1 (hs.stored.total.1 hptd).1
      obtain ⟨hpU, hhash, hpnum⟩ := hs.stored.keyed hp
      have hone := ht.number b hb p hpU hhash.symm
      rwa [hpnum] at hone
    obtain ⟨hstored, hhas, hkeep⟩ := writeBlock_stored ht.inj hs.stored hb hnum hptd
    rw [add_comm] at hstored hhas hkeep
    have hsound : ∀ states, Sound hash U genesis
        ((writeBlock hash bc b (b.difficulty + ptd)).setStates states) :=
      fun _ => ⟨hstored, hkeep hs.current⟩
    have hidx' : ∀ states, Indexed hash
        ((writeBlock hash bc b (b.difficulty + ptd)).setStates states) :=
      fun states => hidx.extend hs (hsound states) hkeep rfl rfl rfl
    simp only
    split
    · exact ⟨_, _, rfl, .inr (.inr rfl), hsound bc.states, fun _ h => (by cases h.1),
        fun _ => hidx' bc.states⟩
    obtain ⟨localTd, hlocal, -⟩ := hs.stored.exists_total hs.current
    obtain ⟨bc', status, hok, hsound', hiff⟩ :=
      chooseHead_spec ht (hsound o.states) (hidx' o.states) hhas (b.difficulty + ptd) localTd o
    rw [getTd, hlocal, hok]
    refine ⟨bc', _, rfl, .inl ⟨status, rfl⟩, hsound', hiff.trans ?_⟩
    rw [Except.ok.injEq]
    exact .rfl

/-- **A call keeps the index unless it leaves stale entries.** -/
theorem step_indexed_iff (hidx : Indexed hash bc) {call : Call} (hadm : Admissible hash bc call)
    (hmem : call.block ∈ U) :
    ∃ bc', step hash bc call = some bc' ∧ Sound hash U genesis bc' ∧
      (Indexed hash bc' ↔ ¬ LeavesStale hash bc call) := by
  cases call with
  | writeKnownBlock b =>
    obtain ⟨bc', hok, hstore, hcur, hiff⟩ := moveHead_spec ht hs hidx hadm
    refine ⟨bc', ?_, ⟨hstore.stored hs.stored, hcur ▸ hstore.has.2 hadm⟩, hiff⟩
    simp only [step, writeKnownBlock, hok]
  | writeBlockWithState b o =>
    replace hmem : b ∈ U := hmem
    obtain ⟨bc', res, heq, hres, hsound, hiff⟩ := writeBlockWithState_spec ht hs hidx hmem o
    refine ⟨bc', ?_, hsound, ?_⟩
    · obtain ⟨status, rfl⟩ | rfl | rfl := hres <;> simp only [step, heq]
    rw [LeavesStale, heq]
    exact hiff

end

theorem newBlockChain_indexed : Indexed hash (newBlockChain hash genesis) := by
  have hs : Sound hash U genesis (newBlockChain hash genesis) :=
    newBlockChain_sound ht.genesis_mem ht.genesis_number
  have hlink := hs.current.link hs.stored
  have hcur : (newBlockChain hash genesis).currentBlock = genesis := rfl
  have hindex : ∀ n, (newBlockChain hash genesis).canonicalHashes n =
      if n = genesis.numberU64 then some (genesis.hash hash) else none := by
    intro n
    simp only [newBlockChain, update_apply]
  refine ⟨fun n hn => ?_, fun n hn => ?_, fun t n => ?_⟩
  · rw [hcur, ht.genesis_number, Nat.le_zero, ← ht.genesis_number] at hn
    subst hn
    exact ⟨_, (hindex _).trans (if_pos rfl), .self hlink rfl⟩
  · rw [hcur] at hn
    rw [hindex, if_neg (ne_of_gt hn)]
  refine ⟨fun h => (by cases h), ?_⟩
  rintro ⟨x, hx, -, htx⟩
  simp only [newBlockChain, put_apply] at hx
  split at hx
  · cases hx
    rw [ht.genesis_transactions] at htx
    cases htx
  · cases hx

end

def blocksOf (genesis : ChainBlock) (calls : List Call) : Set ChainBlock :=
  {x | x = genesis ∨ ∃ c ∈ calls, x = c.block}

def coinOutcome (coin : Bool) : Outcome := ⟨false, fun _ => true, false, false, coin⟩

def oneBlockCalls : List Call :=
  [.writeBlockWithState (namedBlock 1 1 1 2 [7]) (coinOutcome true),
    .writeKnownBlock (namedBlock 1 1 1 2 [7])]

theorem oneBlock_tree : BlockTree nonceHash (namedBlock 0 0 1 1 [])
      (blocksOf (namedBlock 0 0 1 1 []) oneBlockCalls) := by
  have hmem : ∀ x, x ∈ blocksOf (namedBlock 0 0 1 1 []) oneBlockCalls ↔
      x = namedBlock 0 0 1 1 [] ∨ x = namedBlock 1 1 1 2 [7] := by
    intro x
    simp only [blocksOf, oneBlockCalls, Set.mem_ofPred_eq, mem_cons, not_mem_nil, or_false,
      exists_eq_or_imp, exists_eq_left, Call.block, or_self]
  refine ⟨.inl rfl, by decide +kernel, rfl, ?_, ?_, ?_, ?_⟩
  · intro x hx y hy
    obtain rfl | rfl := (hmem x).1 hx <;> obtain rfl | rfl := (hmem y).1 hy <;> decide +kernel
  · intro x hx
    obtain rfl | rfl := (hmem x).1 hx <;> decide +kernel
  · intro x hx y hy
    obtain rfl | rfl := (hmem x).1 hx <;> obtain rfl | rfl := (hmem y).1 hy <;> decide +kernel
  -- the genesis block has no transactions, and no block is above itself
  intro x hx y hy hup t htx hty
  obtain rfl | rfl := (hmem y).1 hy
  · cases hty
  obtain ⟨z, -, hz, hy', hparent⟩ := Relation.TransGen.tail'_iff.1 hup
  obtain rfl | rfl := (hmem z).1 hz <;> revert hparent <;> decide +kernel

end BlockChain

end Virbicoin.Core.Chain
