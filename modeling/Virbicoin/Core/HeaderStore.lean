import Virbicoin.Core.HeaderChain

/-!
# Storing headers

The stored headers form a tree (`HeaderChain.link`), with total difficulties that are sums along it
(`Stored`). The loop of `writeHeaders` keeps it that way (`storeHeaders_imported`), and the headers
of a call are known ones followed by new ones (`storeHeaders_split`), since a stored header has its
parent stored.
-/

namespace Virbicoin.Core

open Lib List

namespace HeaderChain

variable {hash : Header → Hash} {U : Set Header} {genesis : Header} {hc hc' : HeaderChain}

abbrev link (hc : HeaderChain) : Hash → Option (Link Hash) :=
  linkOf Header.parentHash Header.difficulty hc.headers hc.numbers

/-- No two of the headers have the same hash, and none has the hash that stands for a missing
entry. -/
structure Collisionless (hash : Header → Hash) (U : Set Header) : Prop where
  inj : ∀ x ∈ U, ∀ y ∈ U, hash x = hash y → x = y
  ne_zero : ∀ x ∈ U, hash x ≠ 0

def Contiguous (hash : Header → Hash) : Nat → Hash → List Header → Prop
  | _, _, [] => True
  | n, p, x :: xs =>
    x.numberU64 = n + 1 ∧ x.parentHash = p ∧ 0 < x.difficulty ∧
      Contiguous hash (n + 1) (hash x) xs

theorem Collisionless.injOn (hU : Collisionless hash U) : Set.InjOn hash U :=
  fun x hx y hy => hU.inj x hx y hy

structure Stored (hash : Header → Hash) (U : Set Header) (genesis : Header) (hc : HeaderChain) :
    Prop extends Lib.Stored hash Header.parentHash Header.numberU64 Header.difficulty U
      (hash genesis)
      hc.headers hc.numbers hc.tds where
  positive : ∀ {h v}, hc.link h = some v → 0 < v.number → 0 < v.weight

def insert (hash : Header → Hash) (hc : HeaderChain) (x : Header) (td : Int) : HeaderChain :=
  (hc.writeTd (hash x) x.numberU64 td).writeHeader hash x

section Insert

variable {x p : Header} {n : Nat} {h : Hash} {w : Int}

theorem insert_headers (td : Int) : (hc.insert hash x td).headers n h =
      if n = x.numberU64 ∧ h = hash x then some x else hc.headers n h := put_apply _ _ _ _ _ _

theorem insert_tds (td : Int) : (hc.insert hash x td).tds n h =
      if n = x.numberU64 ∧ h = hash x then some td else hc.tds n h := put_apply _ _ _ _ _ _

theorem insert_link (td : Int) : (hc.insert hash x td).link = Function.update hc.link (hash x)
      (some ⟨x.parentHash, x.numberU64, x.difficulty⟩) := linkOf_put _ _ _ _ _ _ _

theorem Stored.insert (hs : Stored hash U genesis hc) (hU : Collisionless hash U) (hx : x ∈ U)
    (hnone : hc.headers x.numberU64 (hash x) = none) (hp : hc.tds n x.parentHash = some w)
    (hn : x.numberU64 = n + 1) (hpos : 0 < x.difficulty) :
    Stored hash U genesis (hc.insert hash x (w + x.difficulty)) := by
  refine ⟨hs.toStored.insert hU.injOn hx hnone hp hn, fun {h v} hv hnum => ?_⟩
  rw [insert_link] at hv
  by_cases hh : h = hash x
  · subst hh
    rw [Function.update_self] at hv
    cases hv
    exact hpos
  rw [Function.update_of_ne hh] at hv
  exact hs.positive hv hnum

end Insert

/-! ## Storing the headers of a call -/

def SameMarks (hc hc' : HeaderChain) : Prop :=
  hc'.canonicalHashes = hc.canonicalHashes ∧ hc'.headHeaderHash = hc.headHeaderHash ∧
    hc'.currentHeader = hc.currentHeader ∧ hc'.currentHeaderHash = hc.currentHeaderHash

structure Imported (hash : Header → Hash) (U : Set Header) (genesis : Header) (hc : HeaderChain)
    (imp : Import) : Prop where
  stored : Stored hash U genesis imp.chain
  keeps : ∀ {n h x}, hc.headers n h = some x → imp.chain.headers n h = some x
  marks : SameMarks hc imp.chain
  td : imp.chain.tds imp.lastNumber imp.lastHash = some imp.newTD
  heavier : ∀ {n h w}, imp.chain.tds n h = some w → w ≤ imp.newTD ∨ hc.tds n h = some w

section Import

variable {imp : Import} {x : Header} {xs : List Header}

theorem Imported.rebase (hi : Imported hash U genesis hc imp) :
    Imported hash U genesis imp.chain imp :=
  ⟨hi.stored, id, ⟨rfl, rfl, rfl, rfl⟩, hi.td, .inr⟩

theorem chainHash_eq {n : Nat} {p : Hash} (h : Contiguous hash n p (x :: xs)) :
    chainHash hash x xs = hash x := by
  cases xs with
  | nil => rfl
  | cons y ys => exact h.2.2.2.2.1

@[simp] theorem storeHeader_lastNumber (i : Nat) (h : Hash) :
    (imp.storeHeader hash i x h).lastNumber = x.numberU64 := by
  unfold Import.storeHeader
  split <;> rfl

@[simp] theorem storeHeader_lastHash (i : Nat) (h : Hash) :
    (imp.storeHeader hash i x h).lastHash = h := by
  unfold Import.storeHeader
  split <;> rfl

@[simp] theorem storeHeader_lastHeader (i : Nat) (h : Hash) :
    (imp.storeHeader hash i x h).lastHeader = x := by
  unfold Import.storeHeader
  split <;> rfl

theorem Contiguous.next {i : Nat} (h : Contiguous hash imp.lastNumber imp.lastHash (x :: xs)) :
    Contiguous hash (imp.storeHeader hash i x (hash x)).lastNumber
      (imp.storeHeader hash i x (hash x)).lastHash xs := by
  rw [storeHeader_lastNumber, storeHeader_lastHash, h.1]
  exact h.2.2.2

theorem storeHeaders_lastNumber (hxs : Contiguous hash imp.lastNumber imp.lastHash xs) (i : Nat) :
    (imp.storeHeaders hash i xs).lastNumber = imp.lastNumber + xs.length := by
  induction xs generalizing imp i with
  | nil => rfl
  | cons x xs ih =>
    rw [Import.storeHeaders, chainHash_eq hxs, ih hxs.next, storeHeader_lastNumber, hxs.1,
      length_cons]
    omega

theorem storeHeaders_last {n : Nat} {p : Hash} (hxs : Contiguous hash n p xs) (hne : xs ≠ [])
    (i : Nat) :
    (imp.storeHeaders hash i xs).lastHeader = xs.getLast hne ∧
      (imp.storeHeaders hash i xs).lastHash = hash (xs.getLast hne) := by
  induction xs generalizing imp i n p with
  | nil => exact absurd rfl hne
  | cons x xs ih =>
    rw [Import.storeHeaders, chainHash_eq hxs]
    by_cases hrest : xs = []
    · subst hrest
      simp only [Import.storeHeaders, storeHeader_lastHeader, storeHeader_lastHash,
        getLast_singleton, and_self]
    rw [getLast_cons hrest]
    exact ih hxs.2.2.2 hrest _

variable (hU : Collisionless hash U) (hi : Imported hash U genesis hc imp)

include hU hi

theorem Imported.next (hxs : Contiguous hash imp.lastNumber imp.lastHash (x :: xs)) (hx : x ∈ U)
    (i : Nat) : Imported hash U genesis hc (imp.storeHeader hash i x (hash x)) := by
  obtain ⟨hn, hp, hpos, -⟩ := hxs
  obtain ⟨hparent, hw⟩ := hi.stored.total.1 hi.td
  have hheavy : ∀ {n h w}, imp.chain.tds n h = some w →
      w ≤ imp.newTD + x.difficulty ∨ hc.tds n h = some w := by
    intro n h w htd
    obtain hle | hold := hi.heavier htd
    · exact .inl (by omega)
    · exact .inr hold
  unfold Import.storeHeader hasHeader
  split
  · rename_i hknown
    -- a known header has the sum of its parent's total difficulty and its own difficulty
    have hlink := hi.stored.link_eq (hi.stored.blocks_eq hU.injOn hx hknown)
    refine ⟨hi.stored, hi.keeps, hi.marks, hi.stored.total.2 ⟨hknown, ?_⟩, hheavy⟩
    exact @Weighs.step _ _ _ ⟨x.parentHash, x.numberU64, x.difficulty⟩ _ hlink
      (by simp only; omega) (hp ▸ hw)
  rename_i hnew
  have hnone := Option.not_isSome_iff_eq_none.1 hnew
  have hs := hi.stored.insert hU hx hnone (hp ▸ hi.td) hn hpos
  refine ⟨hs, fun {n h y} hy => ?_, hi.marks, ?_, fun {n h w} htd => ?_⟩
  · refine (insert_headers _).trans ?_
    rw [if_neg, hi.keeps hy]
    rintro ⟨rfl, rfl⟩
    have := hi.keeps hy
    rw [hnone] at this
    cases this
  · refine (insert_tds _).trans ?_
    rw [if_pos ⟨rfl, rfl⟩]
  replace htd := (insert_tds _).symm.trans htd
  split at htd
  · cases htd
    exact .inl (Int.le_refl _)
  · exact hheavy htd

theorem storeHeader_headers (hx : x ∈ U) (i : Nat) :
    (imp.storeHeader hash i x (hash x)).chain.headers x.numberU64 (hash x) = some x := by
  unfold Import.storeHeader hasHeader
  split
  · rename_i hknown
    exact hi.stored.blocks_eq hU.injOn hx hknown
  · exact (insert_headers _).trans (if_pos ⟨rfl, rfl⟩)

variable (hxs : Contiguous hash imp.lastNumber imp.lastHash xs) (hmem : ∀ x ∈ xs, x ∈ U)

include hxs hmem in
theorem storeHeaders_imported (i : Nat) :
    Imported hash U genesis hc (imp.storeHeaders hash i xs) := by
  induction xs generalizing imp i with
  | nil => exact hi
  | cons x xs ih =>
    rw [Import.storeHeaders, chainHash_eq hxs]
    exact ih (hi.next hU hxs (hmem x mem_cons_self) i) hxs.next
      (fun y hy => hmem y (mem_cons_of_mem _ hy)) _

include hxs hmem in
theorem storeHeaders_ancestor (i : Nat) :
    Ancestor (imp.storeHeaders hash i xs).chain.link (imp.storeHeaders hash i xs).lastHash
      imp.lastNumber imp.lastHash ∧
    ∀ x ∈ xs, Ancestor (imp.storeHeaders hash i xs).chain.link
      (imp.storeHeaders hash i xs).lastHash x.numberU64 (hash x) := by
  induction xs generalizing hc imp i with
  | nil =>
    obtain ⟨p, hp⟩ := Option.isSome_iff_exists.1 (hi.stored.total.1 hi.td).1
    exact ⟨.self (hi.stored.link_eq hp) rfl, fun _ h => (by cases h)⟩
  | cons x xs ih =>
    rw [Import.storeHeaders, chainHash_eq hxs]
    have hx := hmem x mem_cons_self
    have hmem' : ∀ y ∈ xs, y ∈ U := fun y hy => hmem y (mem_cons_of_mem _ hy)
    have hi' := hi.rebase.next hU hxs hx i
    obtain ⟨hself, hall⟩ := ih hi' hxs.next hmem' (i + 1)
    rw [storeHeader_lastNumber, storeHeader_lastHash] at hself
    refine ⟨hself.trans ?_, fun y hy => ?_⟩
    · -- both the header and its parent are still stored at the end
      obtain ⟨p, hp⟩ := Option.isSome_iff_exists.1 (hi.stored.total.1 hi.td).1
      have hend := storeHeaders_imported hU hi' hxs.next hmem' (i + 1)
      have hend' := storeHeaders_imported hU hi'.rebase hxs.next hmem' (i + 1)
      have hlink := hend.stored.link_eq (hend'.keeps (storeHeader_headers hU hi hx i))
      obtain ⟨hn, hparent, -⟩ := hxs
      refine .up hlink (by simp only; omega) ?_
      simp only [hparent]
      exact .self (hend.stored.link_eq (hend.keeps hp)) rfl
    obtain rfl | hy := mem_cons.1 hy
    · exact hself
    · exact hall y hy

/-! ## Known and new headers -/

def Import.Leaf (imp : Import) : Prop :=
  ∀ {h v}, imp.chain.link h = some v → 0 < v.number → v.parent ≠ imp.lastHash

def mark (hash : Header → Hash) (x : Header) : Nat × Hash := (x.numberU64, hash x)

omit hU hi in
theorem storeHeader_new (hx : ¬ imp.chain.hasHeader (hash x) x.numberU64) (i : Nat) :
    imp.storeHeader hash i x (hash x) =
      { chain := imp.chain.insert hash x (imp.newTD + x.difficulty)
        newTD := imp.newTD + x.difficulty
        inserted := imp.inserted ++ [mark hash x]
        firstInserted := some (imp.firstInserted.getD i)
        lastHeader := x, lastHash := hash x, lastNumber := x.numberU64 } := by
  unfold Import.storeHeader
  rw [if_neg hx]
  rfl

theorem storeHeader_leaf (hx : x ∈ U) (hp : x.parentHash = imp.lastHash)
    (hnew : ¬ imp.chain.hasHeader (hash x) x.numberU64) (i : Nat) :
    (imp.storeHeader hash i x (hash x)).Leaf := by
  obtain ⟨p, hparent⟩ := Option.isSome_iff_exists.1 (hi.stored.total.1 hi.td).1
  have hfresh := hi.stored.link_eq_none hU.injOn hx (Option.not_isSome_iff_eq_none.1 hnew)
  have hlink := hi.stored.link_eq hparent
  rw [← hp] at hlink
  intro h v hv hpos
  rw [storeHeader_new hnew] at hv ⊢
  rw [insert_link] at hv
  exact hi.stored.tree.insert_leaf hfresh hlink hv hpos

include hxs hmem in
theorem storeHeaders_new (hleaf : imp.Leaf) {i j : Nat} (hfirst : imp.firstInserted = some j) :
    (imp.storeHeaders hash i xs).inserted = imp.inserted ++ xs.map (mark hash) ∧
      (imp.storeHeaders hash i xs).firstInserted = some j := by
  induction xs generalizing imp i with
  | nil => exact ⟨(append_nil _).symm, hfirst⟩
  | cons x xs ih =>
    have hx := hmem x mem_cons_self
    have hnew : ¬ imp.chain.hasHeader (hash x) x.numberU64 := by
      intro hknown
      have hlink := hi.stored.link_eq (hi.stored.blocks_eq hU.injOn hx hknown)
      exact hleaf hlink (Nat.lt_of_lt_of_eq (Nat.succ_pos _) hxs.1.symm) hxs.2.1
    rw [Import.storeHeaders, chainHash_eq hxs]
    obtain ⟨hins, hfst⟩ := ih (i := i + 1) (hi.next hU hxs hx i) hxs.next
      (fun y hy => hmem y (mem_cons_of_mem _ hy)) (storeHeader_leaf hU hi hx hxs.2.1 hnew i)
      (by rw [storeHeader_new hnew]; simp only [hfirst, Option.getD_some])
    refine ⟨?_, hfst⟩
    rw [hins, storeHeader_new hnew]
    simp only [map_cons, append_assoc, singleton_append]

include hxs hmem in
/-- **The headers of a call are known ones followed by new ones.** -/
theorem storeHeaders_split (i : Nat) (hins : imp.inserted = [])
    (hfirst : imp.firstInserted = none) :
    ∃ known fresh, xs = known ++ fresh ∧ (∀ x ∈ known, imp.chain.hasHeader (hash x) x.numberU64) ∧
      (∀ x ∈ fresh.head?, ¬ imp.chain.hasHeader (hash x) x.numberU64) ∧
      (imp.storeHeaders hash i xs).inserted = fresh.map (mark hash) ∧
      (imp.storeHeaders hash i xs).firstInserted =
        if fresh = [] then none else some (i + known.length) := by
  induction xs generalizing imp i with
  | nil => exact ⟨[], [], rfl, fun _ h => (by cases h), fun _ h => (by cases h), hins, hfirst⟩
  | cons x xs ih =>
    have hx := hmem x mem_cons_self
    have hmem' : ∀ y ∈ xs, y ∈ U := fun y hy => hmem y (mem_cons_of_mem _ hy)
    rw [Import.storeHeaders, chainHash_eq hxs]
    by_cases hknown : imp.chain.hasHeader (hash x) x.numberU64
    · have heq : imp.storeHeader hash i x (hash x) = { imp with
            newTD := imp.newTD + x.difficulty
            lastHeader := x, lastHash := hash x, lastNumber := x.numberU64 } := by
        unfold Import.storeHeader
        rw [if_pos hknown]
      obtain ⟨known, fresh, rfl, hk, hf, hi', hf'⟩ := ih
        (hi.next hU hxs hx i) hxs.next hmem' (i + 1)
        (by rw [heq]; exact hins) (by rw [heq]; exact hfirst)
      rw [heq] at hk hf
      refine ⟨x :: known, fresh, rfl, ?_, hf, hi', ?_⟩
      · intro y hy
        obtain rfl | hy := mem_cons.1 hy
        · exact hknown
        · exact hk y hy
      · rw [hf', length_cons, add_right_comm, add_assoc]
    have hnext := hi.next hU hxs hx i
    obtain ⟨hi', hf'⟩ := storeHeaders_new (i := i + 1) (j := i) hU hnext hxs.next
      hmem' (storeHeader_leaf hU hi hx hxs.2.1 hknown i)
      (by rw [storeHeader_new hknown]; simp only [hfirst, Option.getD_none])
    refine ⟨[], x :: xs, rfl, fun _ h => (by cases h), ?_, ?_, hf'⟩
    · intro y hy
      cases hy
      exact hknown
    rw [hi', storeHeader_new hknown, hins]
    rfl

end Import

end HeaderChain

end Virbicoin.Core
