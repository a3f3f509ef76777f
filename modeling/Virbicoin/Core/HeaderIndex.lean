import Virbicoin.Core.HeaderStore
import Virbicoin.Lib.Run

/-!
# The canonical header index

No header is heavier than the current one (`Sound.heaviest`), so a header on top of the current one
is never known. If a call has a new header, or does not change the head, then the index describes
the head after it. If all its headers are known, then the marks of the canonical chain are left
alone although the head may move: another header of the same total difficulty wins the tie. This is
the only way to break the index (`step_indexed_iff`).
-/

namespace Virbicoin.Core

open Lib Function List

namespace HeaderChain

variable {hash : Header → Hash} {U : Set Header} {genesis : Header} {hc hc' : HeaderChain}

/-! ## The marks of the canonical chain -/

section Marks

variable {xs : List Header} {n : Nat} {p : Hash}

theorem Contiguous.exists_number (h : Contiguous hash n p xs) {m : Nat} (hlt : n < m)
    (hle : m ≤ n + xs.length) : ∃ x ∈ xs, x.numberU64 = m := by
  induction xs generalizing n p with
  | nil =>
    rw [length_nil] at hle
    omega
  | cons y ys ih =>
    rw [length_cons] at hle
    by_cases hm : m = n + 1
    · exact ⟨y, mem_cons_self, h.1.trans hm.symm⟩
    obtain ⟨x, hx, hnum⟩ := ih h.2.2.2 (by omega) (by omega)
    exact ⟨x, mem_cons_of_mem _ hx, hnum⟩

def SameStore (hc hc' : HeaderChain) : Prop :=
  hc'.headers = hc.headers ∧ hc'.numbers = hc.numbers ∧ hc'.tds = hc.tds

theorem SameStore.link (h : SameStore hc hc') : hc'.link = hc.link := by
  funext k
  simp only [HeaderChain.link, h.1, h.2.1]

theorem SameStore.stored (h : SameStore hc hc') (hs : Stored hash U genesis hc) :
    Stored hash U genesis hc' := by
  obtain ⟨hstore, hpos⟩ := hs
  rw [← h.link] at hpos
  rw [← h.1, ← h.2.1, ← h.2.2] at hstore
  exact ⟨hstore, hpos⟩

theorem writeMarkers_store (marks : List (Nat × Hash)) : SameStore hc (hc.writeMarkers marks) := by
  induction marks generalizing hc with
  | nil => exact ⟨rfl, rfl, rfl⟩
  | cons m ms ih => exact @ih ((hc.writeCanonicalHash m.2 m.1).writeHeadHeaderHash m.2)

theorem writeMarkers_outside (h : Contiguous hash n p xs) {m : Nat}
    (hm : m ≤ n ∨ n + xs.length < m) :
    (hc.writeMarkers (xs.map (mark hash))).canonicalHashes m = hc.canonicalHashes m := by
  induction xs generalizing hc n p with
  | nil => rfl
  | cons x xs ih =>
    rw [length_cons] at hm
    refine (ih h.2.2.2 (by omega)).trans (update_of_ne ?_ _ _)
    have hx := h.1
    simp only [mark]
    omega

theorem writeMarkers_mem (h : Contiguous hash n p xs) :
    ∀ x ∈ xs, (hc.writeMarkers (xs.map (mark hash))).canonicalHashes x.numberU64 =
      some (hash x) := by
  induction xs generalizing hc n p with
  | nil => exact fun _ hx => (by cases hx)
  | cons y ys ih =>
    intro x hx
    obtain rfl | hx := mem_cons.1 hx
    · exact (writeMarkers_outside h.2.2.2 (.inl (by rw [h.1]))).trans (update_self _ _ _)
    · exact ih h.2.2.2 x hx

theorem writeMarkers_head (hne : xs ≠ []) :
    (hc.writeMarkers (xs.map (mark hash))).headHeaderHash = some (hash (xs.getLast hne)) := by
  induction xs generalizing hc with
  | nil => exact absurd rfl hne
  | cons x xs ih =>
    by_cases hxs : xs = []
    · subst hxs
      rfl
    · rw [getLast_cons hxs]
      exact ih hxs

variable {cur : Hash} {v : Link Hash}

theorem readCanonicalHash_eq {h : Hash} (hh : h ≠ 0) :
    hc.readCanonicalHash n = h ↔ hc.canonicalHashes n = some h := by
  unfold readCanonicalHash
  cases hc.canonicalHashes n with
  | none => exact ⟨fun h0 => absurd h0.symm hh, fun h0 => (by cases h0)⟩
  | some k => exact ⟨fun h0 => congrArg some h0, fun h0 => Option.some.inj h0⟩

section

variable (hs : Stored hash U genesis hc)

include hs

theorem Stored.ne_zero (hU : Collisionless hash U) {h : Hash} (hv : hc.link h = some v) :
    h ≠ 0 := by
  obtain ⟨x, hx, -⟩ := hs.of_link hv
  obtain ⟨hxU, rfl, -⟩ := hs.keyed hx
  exact hU.ne_zero x hxU

theorem deleteAbove_eq (hU : Collisionless hash U)
    (hd : Describes hc.link hc.canonicalHashes cur) (hcur : hc.link cur = some v) (last m : Nat) :
    (hc.deleteAbove last).canonicalHashes m = if last < m then none else hc.canonicalHashes m := by
  refine clearAbove_eq (fun m a ha i hi _ hzero => ?_)
  obtain ⟨b, hb⟩ := hs.tree.exists_ancestor hcur (hi.trans (((hd m a).1 ha).le hcur))
  obtain ⟨u, hu, -⟩ := hb.link_eq
  rw [readCanonicalHash, (hd i b).2 hb] at hzero
  exact hs.ne_zero hU hu hzero

theorem overwriteStale_spec (hU : Collisionless hash U)
    (hd : Describes hc.link hc.canonicalHashes cur) (hcur : hc.link cur = some v) {fuel : Nat}
    {h : Hash} {x : Header} (hx : hc.headers n h = some x) (hfuel : n < fuel)
    (batch : HeaderChain) :
    ∃ index f c, hc.overwriteStale fuel h n batch =
        .ok { batch with canonicalHashes := index } ∧ f ≤ n ∧
      Ancestor hc.link h f c ∧ hc.canonicalHashes f = some c ∧
      (∀ m, m ≤ f ∨ n < m → index m = batch.canonicalHashes m) ∧
      ∀ m, f < m → m ≤ n → ∃ a, index m = some a ∧ Ancestor hc.link h m a := by
  induction fuel generalizing n h x batch with
  | zero => exact absurd hfuel (Nat.not_lt_zero _)
  | succ fuel ih =>
    have hlink := hs.link_eq hx
    unfold overwriteStale
    split
    · rename_i hread
      have hcanon := (readCanonicalHash_eq (hs.ne_zero hU hlink)).1 hread
      exact ⟨batch.canonicalHashes, n, h, rfl, le_refl _, .self hlink rfl, hcanon,
        fun _ _ => rfl, fun m hlt hle => absurd hlt (not_lt.2 hle)⟩
    rename_i hread
    -- at height zero the header would be the genesis header, which is canonical
    have hn : 0 < n := by
      refine Nat.pos_of_ne_zero fun hzero => hread ?_
      subst hzero
      rw [readCanonicalHash_eq (hs.ne_zero hU hlink), hs.tree.root hlink rfl]
      exact (hd _ _).2 (hs.tree.ancestor_zero hcur)
    obtain ⟨q, hq, hnum⟩ := hs.tree.parent hlink hn
    simp only at hnum hq
    obtain ⟨y, hy, -⟩ := hs.of_link hq
    have hsub : subUint64 x.numberU64 1 = q.number := by
      have hlt := x.numberU64_lt
      rw [subUint64_of_le hlt (by rw [(hs.keyed hx).2.2]; omega), (hs.keyed hx).2.2, hnum]
      rfl
    simp only [getHeader, hx, hsub]
    obtain ⟨index, f, c, hok, hle, hf, hc', hout, hin⟩ :=
      ih hy (by omega) (batch.writeCanonicalHash h n)
    have hparent : Ancestor hc.link h q.number x.parentHash :=
      Ancestor.of_parent hlink hq hnum
    refine ⟨index, f, c, hok, by omega, hparent.trans hf, hc', ?_, ?_⟩
    · intro m hm
      rw [hout m (by omega)]
      exact update_of_ne (by omega) _ _
    intro m hlt hm
    by_cases htop : m = n
    · subst htop
      refine ⟨h, ?_, .self hlink rfl⟩
      rw [hout m (by omega)]
      exact update_self _ _ _
    obtain ⟨a, ha, hanc⟩ := hin m hlt (by omega)
    exact ⟨a, ha, hparent.trans hanc⟩

end

end Marks

/-! ## A call -/

/-- The current header is stored and no stored header is heavier. -/
structure Sound (hash : Header → Hash) (U : Set Header) (genesis : Header) (hc : HeaderChain) :
    Prop where
  stored : Stored hash U genesis hc
  current : hc.headers hc.currentHeader.numberU64 hc.currentHeaderHash = some hc.currentHeader
  heaviest : ∀ {n h w w₀}, hc.tds n h = some w →
    hc.tds hc.currentHeader.numberU64 hc.currentHeaderHash = some w₀ → w ≤ w₀

/-- The canonical index holds the ancestors of the current header and nothing else, the stored head
is the current header, and the total difficulties are sums along the ancestry. -/
structure Indexed (hash : Header → Hash) (hc : HeaderChain) : Prop where
  ancestor : ∀ n ≤ hc.currentHeader.numberU64, ∃ a, hc.canonicalHashes n = some a ∧
    Ancestor hc.link (hash hc.currentHeader) n a
  above : ∀ n, hc.currentHeader.numberU64 < n → hc.canonicalHashes n = none
  head : hc.headHeaderHash = some (hash hc.currentHeader)
  td : ∀ n h x, hc.headers n h = some x → ∃ w, hc.tds n h = some w ∧ Weighs hc.link h w

theorem Sound.link_current (h : Sound hash U genesis hc) :
    hc.link hc.currentHeaderHash = some ⟨hc.currentHeader.parentHash, hc.currentHeader.numberU64,
      hc.currentHeader.difficulty⟩ := h.stored.link_eq h.current

theorem Sound.indexed_iff (h : Sound hash U genesis hc) :
    Indexed hash hc ↔ Describes hc.link hc.canonicalHashes hc.currentHeaderHash ∧
      hc.headHeaderHash = some hc.currentHeaderHash := by
  rw [describes_iff h.stored.tree h.link_current, ← (h.stored.keyed h.current).2.1]
  constructor
  · intro hi
    exact ⟨⟨hi.ancestor, hi.above⟩, hi.head⟩
  · rintro ⟨⟨hanc, habove⟩, hhead⟩
    exact ⟨hanc, habove, hhead, fun n k x => h.stored.exists_total⟩

/-- All headers of the call are known, and the last one is not the current header but wins the tie
against it. -/
def SwitchesToKnown (hash : Header → Hash) (hc : HeaderChain) (c : Call) : Prop :=
  (∀ x ∈ c.headers, hc.hasHeader (hash x) x.numberU64) ∧
    ∃ last ∈ c.headers.getLast?, hash last ≠ hc.currentHeaderHash ∧
      hc.getTd (hash last) last.numberU64 =
        hc.getTd hc.currentHeaderHash hc.currentHeader.numberU64 ∧
      (last.numberU64 < hc.currentHeader.numberU64 ∨
        last.numberU64 = hc.currentHeader.numberU64 ∧ c.coin)

theorem reorgs_eq_true {newTD localTD : Int} {m n : Nat} {coin : Bool} :
    reorgs newTD localTD m n coin = true ↔
      localTD < newTD ∨ newTD = localTD ∧ (m < n ∨ m = n ∧ coin = true) := by
  unfold reorgs
  repeat' split
  all_goals simp_all

structure Ready (hash : Header → Hash) (U : Set Header) (genesis : Header) (hc : HeaderChain)
    (first : Header) (rest : List Header) (n : Nat) (imp : Import) (localTD : Int)
    (known fresh : List Header) : Prop where
  sound : Sound hash U genesis hc
  contiguous : Contiguous hash n first.parentHash (first :: rest)
  imported : Imported hash U genesis hc imp
  localTD_eq : hc.tds hc.currentHeader.numberU64 hc.currentHeaderHash = some localTD
  parent : Ancestor imp.chain.link imp.lastHash n first.parentHash
  within : ∀ x ∈ first :: rest, Ancestor imp.chain.link imp.lastHash x.numberU64 (hash x)
  lastNumber : imp.lastNumber = n + (first :: rest).length
  lastHeader : imp.lastHeader = (first :: rest).getLast (cons_ne_nil _ _)
  stored_last : imp.chain.headers imp.lastNumber imp.lastHash = some imp.lastHeader
  split : first :: rest = known ++ fresh
  known_mem : ∀ x ∈ known, hc.hasHeader (hash x) x.numberU64
  fresh_head : ∀ x ∈ fresh.head?, ¬ hc.hasHeader (hash x) x.numberU64
  inserted : imp.inserted = fresh.map (mark hash)
  firstInserted : imp.firstInserted = if fresh = [] then none else some known.length

theorem storeHeaders_ready (hU : Collisionless hash U) (hs : Sound hash U genesis hc)
    {first : Header} {rest : List Header} {n : Nat} {ptd : Int}
    (hc' : Contiguous hash n first.parentHash (first :: rest)) (hmem : ∀ x ∈ first :: rest, x ∈ U)
    (hptd : hc.getTd first.parentHash (subUint64 first.numberU64 1) = some ptd) :
    ∃ localTD known fresh, Ready hash U genesis hc first rest n
      ((newImport hc first ptd).storeHeaders hash 0 (first :: rest)) localTD known fresh := by
  have hnum : subUint64 first.numberU64 1 = n := by
    have hlt := first.numberU64_lt
    rw [subUint64_of_le hlt (by rw [hc'.1]; omega), hc'.1]
    rfl
  have hi : Imported hash U genesis hc (newImport hc first ptd) :=
    ⟨hs.stored, id, ⟨rfl, rfl, rfl, rfl⟩, hptd, .inr⟩
  have hcont : Contiguous hash (newImport hc first ptd).lastNumber
      (newImport hc first ptd).lastHash (first :: rest) := by
    simp only [newImport, hnum]
    exact hc'
  obtain ⟨localTD, hlocal, -⟩ := hs.stored.exists_total hs.current
  obtain ⟨hparent, hwithin⟩ := storeHeaders_ancestor hU hi hcont hmem 0
  obtain ⟨known, fresh, hsplit, hknown, hfresh, hins, hfirst⟩ :=
    storeHeaders_split hU hi hcont hmem 0 rfl rfl
  have hi' := storeHeaders_imported hU hi hcont hmem 0
  obtain ⟨hlast, hlasth⟩ :=
    @storeHeaders_last _ (newImport hc first ptd) _ _ _ hc' (cons_ne_nil _ _) 0
  rw [← hlast] at hlasth
  have hstored := hi'.stored.blocks_eq hU.injOn (hlast ▸ hmem _ (getLast_mem _))
    (hlasth ▸ (hi'.stored.total.1 hi'.td).1)
  rw [← hlasth] at hstored
  have hlen := storeHeaders_lastNumber hcont 0
  rw [zero_add] at hfirst
  refine ⟨localTD, known, fresh, hs, hc', hi', hlocal, ?_, hwithin, ?_, hlast, hstored, hsplit,
    hknown, hfresh, hins, hfirst⟩
  · simpa only [newImport, hnum] using hparent
  · simpa only [newImport, hnum] using hlen

namespace Ready

variable {first : Header} {rest : List Header} {n : Nat} {imp : Import} {localTD : Int}
  {known fresh : List Header}

variable (r : Ready hash U genesis hc first rest n imp localTD known fresh)
include r

theorem numberU64_sub : subUint64 first.numberU64 1 = n := by
  have hlt := first.numberU64_lt
  rw [subUint64_of_le hlt (by rw [r.contiguous.1]; omega), r.contiguous.1]
  rfl

theorem link_last : imp.chain.link imp.lastHash = some ⟨imp.lastHeader.parentHash, imp.lastNumber,
      imp.lastHeader.difficulty⟩ := r.imported.stored.link_eq r.stored_last

theorem sound_chain :
    imp.chain.headers imp.chain.currentHeader.numberU64 imp.chain.currentHeaderHash =
      some imp.chain.currentHeader := by
  obtain ⟨-, -, hcur, hhash⟩ := r.imported.marks
  rw [hcur, hhash]
  exact r.imported.keeps r.sound.current

theorem keeps_td {m : Nat} {h : Hash} {w : Int} (htd : hc.tds m h = some w) :
    imp.chain.tds m h = some w := by
  obtain ⟨hm, hw⟩ := r.sound.stored.total.1 htd
  obtain ⟨x, hx⟩ := Option.isSome_iff_exists.1 hm
  have hext := r.sound.stored.extends_link r.imported.stored.toStored r.imported.keeps
  exact r.imported.stored.total.2 ⟨by rw [r.imported.keeps hx]; rfl, hw.extend hext⟩

theorem chain_localTD :
    imp.chain.getTd imp.chain.currentHeaderHash imp.chain.currentHeader.numberU64 =
      some localTD := by
  obtain ⟨-, -, hcur, hhash⟩ := r.imported.marks
  rw [hcur, hhash]
  exact r.keeps_td r.localTD_eq

theorem td_le {m : Nat} {h : Hash} {w : Int} (htd : imp.chain.tds m h = some w) :
    w ≤ imp.newTD ∨ w ≤ localTD := by
  obtain hle | hold := r.imported.heavier htd
  · exact .inl hle
  · exact .inr (r.sound.heaviest hold r.localTD_eq)

theorem describes (hidx : Indexed hash hc) :
    Describes imp.chain.link imp.chain.canonicalHashes imp.chain.currentHeaderHash := by
  obtain ⟨hcanon, -, -, hhash⟩ := r.imported.marks
  rw [hcanon, hhash]
  exact (r.sound.indexed_iff.1 hidx).1.extend
    (r.sound.stored.extends_link r.imported.stored.toStored r.imported.keeps) r.sound.stored.tree
    r.sound.link_current

theorem link_current :
    imp.chain.link imp.chain.currentHeaderHash = some ⟨imp.chain.currentHeader.parentHash,
      imp.chain.currentHeader.numberU64, imp.chain.currentHeader.difficulty⟩ :=
  r.imported.stored.link_eq r.sound_chain

variable (hU : Collisionless hash U)
include hU

theorem known_eq_nil (hmem : first ∈ U) (hcur : first.parentHash = imp.chain.currentHeaderHash) :
    known = [] := by
  cases hk : known with
  | nil => rfl
  | cons x xs =>
    have hsplit := r.split
    rw [hk] at hsplit
    obtain ⟨rfl, -⟩ := cons.inj hsplit
    have hknown := r.known_mem first (by rw [hk]; exact mem_cons_self)
    have hx := r.sound.stored.blocks_eq hU.injOn hmem hknown
    obtain ⟨w, hw, hweighs⟩ := r.sound.stored.exists_total hx
    have hle := r.sound.heaviest hw r.localTD_eq
    have hlink := r.sound.stored.link_eq hx
    have hnum := r.contiguous.1
    rw [r.imported.marks.2.2.2] at hcur
    obtain ⟨q, hq, hqnum⟩ := r.sound.stored.tree.parent hlink (by simp only; omega)
    have hparent : Ancestor hc.link (hash first) q.number first.parentHash :=
      Ancestor.of_parent hlink hq hqnum
    have hne : first.parentHash ≠ hash first := by
      intro heq
      simp only [heq, hlink] at hq hqnum
      cases hq
      exact absurd hqnum (Nat.ne_of_lt (Nat.lt_succ_self _))
    have hweighs' := (r.sound.stored.total.1 r.localTD_eq).2
    rw [← hcur] at hweighs'
    have hlt := hweighs.lt_of_ancestor (fun _ _ => r.sound.stored.positive) hparent hne hweighs'
    omega

theorem rewritten (hidx : Indexed hash hc) : ∃ index f c, rewriteMarkers hash first rest imp =
        .ok (writeMarkers { imp.chain with canonicalHashes := index }
          (knownMarks hash (first :: rest) imp.firstInserted)) ∧
      f ≤ n ∧ Ancestor imp.chain.link imp.lastHash f c ∧
      imp.chain.canonicalHashes f = some c ∧
      (∀ m, m ≤ f ∨ n < m ∧ m ≤ imp.lastNumber → index m = imp.chain.canonicalHashes m) ∧
      (∀ m, f < m → m ≤ n → ∃ a, index m = some a ∧ Ancestor imp.chain.link imp.lastHash m a) ∧
      ∀ m, imp.lastNumber < m → index m = none := by
  have hs := r.imported.stored
  have hd := r.describes hidx
  have hdel := deleteAbove_eq hs hU hd r.link_current imp.lastNumber
  obtain ⟨v, hv, hnum⟩ := r.parent.link_eq
  obtain ⟨x, hx, -⟩ := hs.of_link hv
  rw [hnum] at hx
  have hlast := r.lastNumber
  obtain ⟨index, f, c, hok, hle, hf, hc', hout, hin⟩ := overwriteStale_spec hs hU hd r.link_current
    hx n.lt_succ_self (imp.chain.deleteAbove imp.lastNumber)
  refine ⟨index, f, c, ?_, hle, r.parent.trans hf, hc', ?_, ?_, ?_⟩
  · rw [rewriteMarkers, r.numberU64_sub, hok]
    rfl
  · intro m hm
    rw [hout m (by omega), hdel, if_neg (by omega)]
  · intro m hlt hm
    obtain ⟨a, ha, hanc⟩ := hin m hlt hm
    exact ⟨a, ha, r.parent.trans hanc⟩
  · intro m hm
    rw [hout m (by omega), hdel, if_pos hm]

omit hU in
theorem reorganised_sound (hstore : SameStore imp.chain hc') (hle : localTD ≤ imp.newTD) :
    Sound hash U genesis (hc'.setCurrent imp) := by
  have hnum := (r.imported.stored.keyed r.stored_last).2.2
  have hstore' : SameStore imp.chain (hc'.setCurrent imp) := hstore
  refine ⟨hstore'.stored r.imported.stored, ?_, fun {m h w w₀} hw hw0 => ?_⟩
  · simp only [setCurrent, hstore.1, hnum]
    exact r.stored_last
  simp only [setCurrent, hstore.2.2, hnum, r.imported.td] at hw hw0
  cases hw0
  have := r.td_le hw
  omega

omit hU in
theorem marks_describe (hidx : Indexed hash hc) {batch : HeaderChain} {f : Nat} {c : Hash}
    (hle : f ≤ n) (hf : Ancestor imp.chain.link imp.lastHash f c)
    (hc : imp.chain.canonicalHashes f = some c)
    (hout : ∀ m, m ≤ f → batch.canonicalHashes m = imp.chain.canonicalHashes m)
    (hin : ∀ m, f < m → m ≤ n → ∃ a, batch.canonicalHashes m = some a ∧
      Ancestor imp.chain.link imp.lastHash m a)
    (habove : ∀ m, imp.lastNumber < m → batch.canonicalHashes m = none) :
    Describes imp.chain.link
      (batch.writeMarkers ((first :: rest).map (mark hash))).canonicalHashes imp.lastHash := by
  have hlast := r.lastNumber
  refine describes_of_fork (r.describes hidx) r.link_last hf hc ?_ ?_ ?_
  · intro m hm
    rw [writeMarkers_outside r.contiguous (.inl (by omega)), hout m hm]
  · intro m hlt hm
    by_cases hn : m ≤ n
    · rw [writeMarkers_outside r.contiguous (.inl hn)]
      exact hin m hlt hn
    · obtain ⟨x, hx, rfl⟩ := r.contiguous.exists_number (Nat.lt_of_not_le hn) (hlast ▸ hm)
      exact ⟨_, writeMarkers_mem r.contiguous x hx, r.within x hx⟩
  intro m hm
  rw [writeMarkers_outside r.contiguous (.inr (hlast ▸ hm))]
  exact habove m hm

theorem reorg_fresh (hidx : Indexed hash hc) (hmem : first ∈ U) (hne : fresh ≠ []) :
    ∃ batch, reorg hash first rest imp = .ok (batch.setCurrent imp) ∧
      SameStore imp.chain batch ∧ Describes imp.chain.link batch.canonicalHashes imp.lastHash ∧
      batch.headHeaderHash = some imp.lastHash := by
  have hhead : ∀ batch : HeaderChain,
      (batch.writeMarkers ((first :: rest).map (mark hash))).headHeaderHash =
        some imp.lastHash := by
    intro batch
    rw [writeMarkers_head (cons_ne_nil _ _), ← r.lastHeader]
    exact congrArg some (r.imported.stored.keyed r.stored_last).2.1
  unfold reorg
  split
  · -- on top of the current header all headers are new
    rename_i hcur
    have hsplit := r.split
    rw [r.known_eq_nil hU hmem hcur, nil_append] at hsplit
    refine ⟨imp.chain.writeMarkers imp.inserted, rfl, writeMarkers_store _, ?_, ?_⟩
    · rw [r.inserted, ← hsplit]
      have hnum : n = imp.chain.currentHeader.numberU64 := by
        have hle := r.parent.link_eq
        rw [hcur, r.link_current] at hle
        obtain ⟨v, hv, hnum⟩ := hle
        cases hv
        exact hnum.symm
      refine r.marks_describe hidx n.le_refl r.parent ?_ (fun _ _ => rfl)
        (fun m hlt hle => absurd hlt (not_lt.2 hle)) fun m hm => ?_
      · rw [hcur, hnum]
        exact (r.describes hidx).self r.link_current
      refine ((describes_iff r.imported.stored.tree r.link_current).1 (r.describes hidx)).2 m ?_
      have := r.lastNumber
      simp only
      omega
    rw [r.inserted, ← hsplit]
    exact hhead _
  obtain ⟨index, f, c, hok, hle, hf, hc', hout, hin, habove⟩ := r.rewritten hU hidx
  have hknown : knownMarks hash (first :: rest) imp.firstInserted = known.map (mark hash) := by
    rw [knownMarks, r.firstInserted, if_neg hne, Option.getD_some, r.split, take_left]
    rfl
  rw [hok, hknown]
  refine ⟨_, rfl, ?_⟩
  rw [r.inserted, writeMarkers, writeMarkers, ← foldl_append, ← map_append, ← r.split]
  refine ⟨writeMarkers_store _, ?_, hhead _⟩
  exact r.marks_describe hidx hle hf hc' (fun m hm => hout m (.inl hm)) hin habove

theorem reorg_known (hidx : Indexed hash hc) (hmem : first ∈ U) (hnil : fresh = []) :
    ∃ batch, reorg hash first rest imp = .ok (batch.setCurrent imp) ∧ SameStore imp.chain batch ∧
      batch.headHeaderHash = some imp.chain.currentHeaderHash ∧
      (imp.lastHash = imp.chain.currentHeaderHash →
        Describes imp.chain.link batch.canonicalHashes imp.lastHash) := by
  have hstored : imp.chain.headHeaderHash = some imp.chain.currentHeaderHash := by
    obtain ⟨-, hhead, -, hhash⟩ := r.imported.marks
    rw [hhead, hhash]
    exact (r.sound.indexed_iff.1 hidx).2
  have hcur : first.parentHash ≠ imp.chain.currentHeaderHash := by
    intro hcur
    have hsplit := r.split
    rw [r.known_eq_nil hU hmem hcur, hnil] at hsplit
    cases hsplit
  obtain ⟨index, f, c, hok, hle, hf, hc', hout, hin, habove⟩ := r.rewritten hU hidx
  have hmarks : knownMarks hash (first :: rest) imp.firstInserted = [] := by
    rw [r.firstInserted, if_pos hnil]
    rfl
  have hins : imp.inserted = [] := by
    rw [r.inserted, hnil]
    rfl
  unfold reorg
  rw [if_neg hcur, hok, hmarks, hins]
  refine ⟨_, rfl, ⟨rfl, rfl, rfl⟩, hstored, fun hlast => ?_⟩
  have hd := r.describes hidx
  refine describes_of_fork hd r.link_last hf hc' (fun m hm => hout m (.inl hm)) ?_ habove
  intro m hlt hm
  by_cases hn : m ≤ n
  · exact hin m hlt hn
  obtain ⟨a, ha⟩ := r.imported.stored.tree.exists_ancestor r.link_last hm
  refine ⟨a, ?_, ha⟩
  refine (hout m (.inr ⟨by omega, hm⟩)).trans ((hd m a).2 ?_)
  rw [← hlast]
  exact ha

theorem newTD_known (hmem : ∀ x ∈ first :: rest, x ∈ U) (hnil : fresh = []) :
    hc.getTd imp.lastHash imp.lastNumber = some imp.newTD ∧ imp.newTD ≤ localTD := by
  have hlast : imp.lastHeader ∈ first :: rest := r.lastHeader ▸ getLast_mem _
  obtain ⟨-, hhash, hnum⟩ := r.imported.stored.keyed r.stored_last
  have hknown := r.known_mem imp.lastHeader (by
    rw [r.split, hnil, append_nil] at hlast
    exact hlast)
  obtain ⟨w, hw, -⟩ := r.sound.stored.exists_total
    (r.sound.stored.blocks_eq hU.injOn (hmem _ hlast) hknown)
  rw [hhash, hnum] at hw
  have heq := (r.keeps_td hw).symm.trans r.imported.td
  cases heq
  exact ⟨hw, r.sound.heaviest hw r.localTD_eq⟩

theorem switches_iff (hmem : ∀ x ∈ first :: rest, x ∈ U) {coin : Bool} :
    SwitchesToKnown hash hc ⟨first :: rest, coin⟩ ↔ fresh = [] ∧
      reorgs imp.newTD localTD imp.lastNumber hc.currentHeader.numberU64 coin = true ∧
      imp.lastHash ≠ hc.currentHeaderHash := by
  obtain ⟨-, hhash, hnum⟩ := r.imported.stored.keyed r.stored_last
  have hlast : (first :: rest).getLast? = some imp.lastHeader := by
    rw [getLast?_eq_getLast_of_ne_nil (cons_ne_nil _ _), r.lastHeader]
  constructor
  · rintro ⟨hall, last, hmem', hne, htd, htie⟩
    rw [hlast] at hmem'
    cases hmem'
    have hnil : fresh = [] := by
      cases hf : fresh with
      | nil => rfl
      | cons x xs =>
        refine absurd (hall x ?_) (r.fresh_head x (by rw [hf]; rfl))
        rw [r.split, hf]
        exact mem_append_right _ mem_cons_self
    refine ⟨hnil, ?_, hhash ▸ hne⟩
    rw [hhash, hnum, (r.newTD_known hU hmem hnil).1, getTd, r.localTD_eq] at htd
    rw [hnum] at htie
    exact reorgs_eq_true.2 (.inr ⟨Option.some.inj htd, htie⟩)
  rintro ⟨hnil, hreorg, hne⟩
  obtain ⟨htd, hle⟩ := r.newTD_known hU hmem hnil
  obtain hlt | ⟨heq, htie⟩ := reorgs_eq_true.1 hreorg
  · omega
  refine ⟨fun x hx => r.known_mem x ?_, imp.lastHeader, hlast, hhash.symm ▸ hne, ?_, ?_⟩
  · rwa [r.split, hnil, append_nil] at hx
  · rw [hhash, hnum, htd, getTd, r.localTD_eq, heq]
  rw [hnum]
  exact htie

theorem setHead_indexed_iff (hidx : Indexed hash hc) (hmem : ∀ x ∈ first :: rest, x ∈ U)
    (coin : Bool) :
    ∃ hc' res, setHead hash first rest coin imp = .ok (hc', res) ∧ Sound hash U genesis hc' ∧
      (Indexed hash hc' ↔ ¬ SwitchesToKnown hash hc ⟨first :: rest, coin⟩) := by
  have hfirst := hmem first mem_cons_self
  obtain ⟨hcanon, hhead, hcur, hhash⟩ := r.imported.marks
  rw [r.switches_iff hU hmem]
  simp only [setHead, r.chain_localTD]
  rw [hcur]
  by_cases hreorg : reorgs imp.newTD localTD imp.lastNumber hc.currentHeader.numberU64 coin
  · rw [if_pos hreorg]
    have hle : localTD ≤ imp.newTD := by
      have := reorgs_eq_true.1 hreorg
      omega
    by_cases hnil : fresh = []
    · obtain ⟨batch, hok, hstore, hstored, hdesc⟩ := r.reorg_known hU hidx hfirst hnil
      have hsound := r.reorganised_sound hstore hle
      rw [hok]
      refine ⟨_, _, rfl, hsound, ?_⟩
      have hlink : (batch.setCurrent imp).link = imp.chain.link := hstore.link
      rw [hsound.indexed_iff, hlink]
      simp only [setCurrent, hstored, hhash, hnil, hreorg, true_and, ne_eq, not_not]
      constructor
      · rintro ⟨-, heq⟩
        exact (Option.some.inj heq).symm
      · intro heq
        exact ⟨hdesc (heq.trans hhash.symm), by rw [heq]⟩
    obtain ⟨batch, hok, hstore, hdesc, hstored⟩ := r.reorg_fresh hU hidx hfirst hnil
    have hsound := r.reorganised_sound hstore hle
    rw [hok]
    refine ⟨_, _, rfl, hsound, ?_⟩
    have hlink : (batch.setCurrent imp).link = imp.chain.link := hstore.link
    rw [hsound.indexed_iff, hlink]
    exact ⟨fun _ h => hnil h.1, fun _ => ⟨hdesc, hstored⟩⟩
  rw [if_neg hreorg]
  have hle : imp.newTD ≤ localTD := by
    rw [reorgs_eq_true] at hreorg
    omega
  have hsound : Sound hash U genesis imp.chain := by
    refine ⟨r.imported.stored, r.sound_chain, fun {m h w w₀} hw hw0 => ?_⟩
    have heq := hw0.symm.trans r.chain_localTD
    cases heq
    have := r.td_le hw
    omega
  refine ⟨_, _, rfl, hsound, ?_⟩
  rw [hsound.indexed_iff, hhead, hhash]
  exact ⟨fun _ h => hreorg h.2.1,
    fun _ => ⟨hhash ▸ r.describes hidx, (r.sound.indexed_iff.1 hidx).2⟩⟩

end Ready

/-- **A call keeps the index unless it switches to a known header.** -/
theorem step_indexed_iff (hU : Collisionless hash U) (hs : Sound hash U genesis hc)
    (hidx : Indexed hash hc) {c : Call} (hcont : ∃ n p, Contiguous hash n p c.headers)
    (hmem : ∀ x ∈ c.headers, x ∈ U) :
    ∃ hc', step hash hc c = some hc' ∧ Sound hash U genesis hc' ∧
      (Indexed hash hc' ↔ ¬ SwitchesToKnown hash hc c) := by
  obtain ⟨headers, coin⟩ := c
  obtain ⟨n, p, hcont⟩ := hcont
  cases headers with
  | nil =>
    refine ⟨hc, rfl, hs, fun _ => ?_, fun _ => hidx⟩
    rintro ⟨-, last, hlast, -⟩
    cases hlast
  | cons first rest =>
    have hfirst := hmem first mem_cons_self
    have hnum := hcont.1
    obtain rfl := hcont.2.1
    simp only [step, writeHeaders]
    cases hptd : hc.getTd first.parentHash (subUint64 first.numberU64 1) with
    | none =>
      refine ⟨hc, rfl, hs, fun _ => ?_, fun _ => hidx⟩
      -- a known header has a known parent
      rintro ⟨hall, -⟩
      have hx := hs.stored.blocks_eq hU.injOn hfirst (hall first mem_cons_self)
      obtain ⟨q, hq, hqnum⟩ := hs.stored.tree.parent (hs.stored.link_eq hx) (by simp only; omega)
      obtain ⟨y, hy, -⟩ := hs.stored.of_link hq
      obtain ⟨w, hw, -⟩ := hs.stored.exists_total hy
      simp only at hqnum hw
      rw [getTd, subUint64_of_le first.numberU64_lt (by omega), hqnum, Nat.add_sub_cancel, hw]
        at hptd
      cases hptd
    | some ptd =>
      obtain ⟨localTD, known, fresh, r⟩ := storeHeaders_ready hU hs hcont hmem hptd
      obtain ⟨hc', res, hok, hsound, hiff⟩ := r.setHead_indexed_iff hU hidx hmem coin
      simp only [hok]
      exact ⟨hc', rfl, hsound, hiff⟩

/-! ## Runs -/

theorem newHeaderChain_sound (hzero : genesis.numberU64 = 0) (hmem : genesis ∈ U) :
    Sound hash U genesis (newHeaderChain hash genesis) := by
  have hs : Lib.Stored hash Header.parentHash Header.numberU64 Header.difficulty U (hash genesis)
      (newHeaderChain hash genesis).headers (newHeaderChain hash genesis).numbers
      (newHeaderChain hash genesis).tds := stored_root hmem hzero
  have htd : ∀ n h, (newHeaderChain hash genesis).tds n h =
      if n = genesis.numberU64 ∧ h = hash genesis then some genesis.difficulty else none :=
    fun n h => put_apply (fun _ _ => none) _ _ _ n h
  have hhead : (newHeaderChain hash genesis).headers genesis.numberU64 (hash genesis) =
      some genesis := put_self (fun _ _ => none) _ _ _
  refine ⟨⟨hs, fun {h v} hv hpos => ?_⟩, hhead, fun {n h w w₀} hw hw0 => ?_⟩
  · -- the only header is at height zero
    obtain ⟨x, hx, -⟩ := hs.of_link hv
    simp only [newHeaderChain, put_apply] at hx
    split at hx
    · omega
    · cases hx
  rw [htd] at hw
  cases ((htd genesis.numberU64 (hash genesis)).trans (if_pos ⟨rfl, rfl⟩)).symm.trans hw0
  split at hw
  · cases hw
    exact le_refl _
  · cases hw

theorem newHeaderChain_indexed (hzero : genesis.numberU64 = 0) :
    Indexed hash (newHeaderChain hash genesis) := by
  have hs : Sound hash {genesis} genesis (newHeaderChain hash genesis) :=
    newHeaderChain_sound hzero rfl
  have hlink := hs.link_current
  rw [hs.indexed_iff]
  refine ⟨fun n a => ?_, rfl⟩
  have hindex : (newHeaderChain hash genesis).canonicalHashes n =
      if n = genesis.numberU64 then some (hash genesis) else none := by
    simp only [newHeaderChain, update_apply]
  rw [hindex]
  split
  · rename_i hn
    subst hn
    constructor
    · intro heq
      cases heq
      exact .self hlink rfl
    intro ha
    rw [ha.eq_self hlink]
    rfl
  refine ⟨fun h => (by cases h), fun ha => absurd (ha.le hlink) ?_⟩
  have hcur : (newHeaderChain hash genesis).currentHeader.numberU64 = 0 := hzero
  simp only [hcur]
  omega

def headersOf (genesis : Header) (calls : List Call) : Set Header :=
  {x | x = genesis ∨ ∃ c ∈ calls, x ∈ c.headers}

/-- **The canonical index describes the head after every call of a run if and only if no call
switches to a known header.** -/
theorem run_indexed_iff (hash : Header → Hash) (genesis : Header) (calls : List Call)
    (hzero : genesis.numberU64 = 0) (hU : Collisionless hash (headersOf genesis calls))
    (hcont : ∀ c ∈ calls, ∃ n p, Contiguous hash n p c.headers) :
    (∀ k, ∃ hc, (calls.take k).foldlM (step hash) (newHeaderChain hash genesis) = some hc ∧
        Indexed hash hc) ↔
      AllSteps (step hash) (fun hc c => ¬ SwitchesToKnown hash hc c) (newHeaderChain hash genesis)
        calls := by
  refine forall_take_iff (step hash) (I := Sound hash (headersOf genesis calls) genesis)
    (A := fun _ c => c ∈ calls) ?_ (allSteps_of_forall _ (fun _ h _ => h) _)
    (newHeaderChain_sound hzero (.inl rfl))
    (newHeaderChain_indexed hzero)
  intro hc c hc' hs hidx
  exact step_indexed_iff hU hs hidx (hcont c hc') fun x hx => .inr ⟨c, hc', hx⟩

def namedHeader (parent : Hash) (number : Nat) (nonce : BitVec 64) : Header :=
  { (default : Header) with
    parentHash := parent, number := number, difficulty := 1, nonce := nonce }

def nonceHash (x : Header) : Hash := x.nonce.setWidth 256

theorem run_indexed_two_siblings :
    (∀ k, ∃ hc, (([⟨[namedHeader 1 1 2], false⟩, ⟨[namedHeader 1 1 3], true⟩] : List Call).take
        k).foldlM (step nonceHash) (newHeaderChain nonceHash (namedHeader 0 0 1)) = some hc ∧
        Indexed nonceHash hc) ↔
      AllSteps (step nonceHash) (fun hc c => ¬ SwitchesToKnown nonceHash hc c)
        (newHeaderChain nonceHash (namedHeader 0 0 1))
        [⟨[namedHeader 1 1 2], false⟩, ⟨[namedHeader 1 1 3], true⟩] := by
  refine run_indexed_iff nonceHash (namedHeader 0 0 1) _ (by decide +kernel) ⟨?_, ?_⟩ ?_
  · intro x hx y hy
    have hmem : ∀ z ∈ headersOf (namedHeader 0 0 1)
        [⟨[namedHeader 1 1 2], false⟩, ⟨[namedHeader 1 1 3], true⟩],
        z ∈ [namedHeader 0 0 1, namedHeader 1 1 2, namedHeader 1 1 3] := by
      simp [headersOf]
    have hdec : ∀ x ∈ [namedHeader 0 0 1, namedHeader 1 1 2, namedHeader 1 1 3],
        ∀ y ∈ [namedHeader 0 0 1, namedHeader 1 1 2, namedHeader 1 1 3],
        nonceHash x = nonceHash y → x = y := by decide +kernel
    exact hdec x (hmem x hx) y (hmem y hy)
  · intro x hx
    have hmem : x ∈ [namedHeader 0 0 1, namedHeader 1 1 2, namedHeader 1 1 3] := by
      simpa [headersOf] using hx
    have hdec : ∀ x ∈ [namedHeader 0 0 1, namedHeader 1 1 2, namedHeader 1 1 3],
        nonceHash x ≠ 0 := by decide +kernel
    exact hdec x hmem
  intro c hc
  simp only [mem_cons, not_mem_nil, or_false] at hc
  obtain rfl | rfl := hc <;>
    exact ⟨0, 1, by decide +kernel, rfl, by decide +kernel, trivial⟩

/-- Two siblings of the same difficulty are inserted, the second one again. The head moves to it
when the coin says so, and the index keeps the first. -/
theorem insert_known_sibling :
    (([⟨[namedHeader 1 1 2], false⟩, ⟨[namedHeader 1 1 3], false⟩, ⟨[namedHeader 1 1 3], true⟩] :
        List Call).foldlM (step nonceHash) (newHeaderChain nonceHash (namedHeader 0 0 1))).map
        (fun hc => (nonceHash hc.currentHeader, hc.canonicalHashes 1, hc.headHeaderHash)) =
      some (3, some 2, some 2) := by
  decide +kernel

end HeaderChain

end Virbicoin.Core
