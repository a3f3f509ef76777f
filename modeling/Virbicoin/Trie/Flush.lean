import Virbicoin.Lib.Total
import Virbicoin.Trie.Cache

/-!
# Writing the cache to disk

`Cap` and `Commit` of `trie/database.go` write entries of the cache to disk and drop them from the
cache, which `Flushed` describes. They differ in which entries these are and in how the sizes are
debited: `Cap` takes the first entries of the flush list and debits each size by what it counts;
`Commit` takes everything below a root, children first, and takes the size of the external children
off the size of the nodes.

`nodesSize` and `externalSize` are what the sizes are meant to be.
-/

namespace Virbicoin.Mpt.Database

open Virbicoin.Lib Finmap List

variable {db db' : Database} {rank : Hash → Nat} {l l' pend : List Hash} {h : Hash} {n : CachedNode}

/-! ## Sizes -/

def nodeWeight (h : Hash) (n : CachedNode) : Int := if h = 0 then 0 else 32 + n.size

/-- The size of the external children of an entry. For the metaroot only the counters count. -/
def childrenWeight (h : Hash) (n : CachedNode) : Int :=
  match n.children with
  | some m => (if h = 0 then 0 else 48) + m.len * 34
  | none => 0

def nodesSize (db : Database) : Int := total nodeWeight db.dirties

def externalSize (db : Database) : Int := total childrenWeight db.dirties

theorem childrenWeight_of_ne (h0 : h ≠ 0) : childrenWeight h n = n.childrenCost := by
  unfold childrenWeight CachedNode.childrenCost
  cases n.children with
  | none => rfl
  | some m => simp only [if_neg h0]

theorem valueAt_entry {M : Type} [Zero M] {f : Hash → CachedNode → M}
    (hf : ∀ h n, f h n.bare = f h n) (a : Hash) :
    valueAt f db.dirties a = (db.entry a).elim 0 (f a) := by
  unfold valueAt entry
  cases db.dirties.lookup a with
  | none => rfl
  | some n => exact (hf a n).symm

def SameButParents (db db' : Database) (h : Hash) : Prop :=
  ∀ a, a ≠ h → (db'.entry a).map (fun n => { n with parents := 0 }) =
    (db.entry a).map fun n => { n with parents := 0 }

theorem SameButParents.total {M : Type} [AddCommMonoid M] {f : Hash → CachedNode → M}
    (hsame : SameButParents db db' h) (hf : ∀ h n, f h { n.bare with parents := 0 } = f h n) :
    total f db'.dirties + valueAt f db.dirties h =
      total f db.dirties + valueAt f db'.dirties h := by
  refine total_add_valueAt h fun a ha => ?_
  have hvalue : ∀ d : Database, valueAt f d.dirties a =
      ((d.entry a).map fun n => { n with parents := 0 }).elim 0 (f a) := by
    intro d
    unfold valueAt entry
    cases d.dirties.lookup a with
    | none => rfl
    | some n => exact (hf a n).symm
  rw [hvalue, hvalue, hsame a ha]

theorem sameButParents_of_inserted {f : Hash → Nat}
    (hother : ∀ a, a ≠ h → db'.entry a = (db.entry a).map fun n => { n with parents := f a }) :
    SameButParents db db' h := fun a ha => by
  rw [hother a ha, Option.map_map]
  rfl

theorem sameButParents_of_referenced {child parent : Hash} {nc : CachedNode}
    {e : Option CachedNode} {k : Nat} (hc : db.dirties.lookup child = some nc)
    (hent : ∀ a, db'.entry a = if a = parent then e
      else if a = child then some { nc.bare with parents := k } else db.entry a) :
    SameButParents db db' parent := fun a ha => by
  rw [hent a, if_neg ha]
  split
  · rename_i hac
    rw [hac, entry_of_lookup hc]
    rfl
  · rfl

theorem nodesSize_erase (hn : db.dirties.lookup h = some n) (h0 : h ≠ 0)
    (hd : db'.dirties = db.dirties.erase h) : nodesSize db' + (32 + n.size) = nodesSize db := by
  have := total_erase nodeWeight db.dirties h
  rw [valueAt_of_lookup nodeWeight hn, nodeWeight, if_neg h0] at this
  rwa [nodesSize, hd]

theorem externalSize_erase (hn : db.dirties.lookup h = some n) (h0 : h ≠ 0)
    (hd : db'.dirties = db.dirties.erase h) :
    externalSize db' + n.childrenCost = externalSize db := by
  have := total_erase childrenWeight db.dirties h
  rw [valueAt_of_lookup childrenWeight hn, childrenWeight_of_ne h0] at this
  rwa [externalSize, hd]

theorem Same.nodesSize (hsame : Same db db') : db'.nodesSize = db.nodesSize :=
  total_congr fun a => by
    rw [valueAt_entry (fun _ _ => rfl), valueAt_entry (fun _ _ => rfl), hsame.entry]

theorem Same.externalSize (hsame : Same db db') : db'.externalSize = db.externalSize :=
  total_congr fun a => by
    rw [valueAt_entry (fun _ _ => rfl), valueAt_entry (fun _ _ => rfl), hsame.entry]

/-! ## Flushing -/

/-- The entries of `done` are on disk and dropped. -/
structure Flushed (db : Database) (l : List Hash) (db' : Database) (l' done : List Hash) :
    Prop where
  done_mem : ∀ a ∈ done, a ∈ l
  sublist : l'.Sublist l
  mem_iff : ∀ a, a ∈ l' ↔ a ∈ l ∧ a ∉ done
  entry : ∀ a, db'.entry a = if a ∈ done then none else db.entry a
  disk : ∀ a, db'.disk.lookup a =
    if a ∈ done then (db.entry a).map CachedNode.node else db.disk.lookup a

theorem capWrite_spec (hwf : Wf rank db l []) (limit : Int) :
    ∀ {fuel : Nat} {q : Option Hash} {l2 : List Hash} (size : Int)
      (disk : Finmap fun _ : Hash => RawNode), l2 ⊆ l → Seg db.next db.prev 0 q l2 →
      l2.length ≤ fuel → ∃ disk' l3 l4, l2 = l3 ++ l4 ∧
        capWrite db.dirties limit fuel size (l2.headD 0) disk = .ok (disk', l4.headD 0) ∧
        ∀ a, disk'.lookup a = if a ∈ l3 then (db.entry a).map CachedNode.node else
          disk.lookup a := by
  intro fuel
  induction fuel with
  | zero =>
    intro q l2 size disk _ _ hlen
    obtain rfl : l2 = [] := length_eq_zero_iff.1 (by omega)
    refine ⟨disk, [], [], rfl, ?_, fun a => by simp⟩
    exact if_neg (by simp)
  | succ fuel ih =>
    intro q l2 size disk hsub hseg hlen
    by_cases hcond : size > limit ∧ l2.headD 0 ≠ 0
    · cases l2 with
      | nil => exact absurd rfl hcond.2
      | cons a l2 =>
        obtain ⟨n, hn⟩ := mem_iff.1 ((hwf.mem a).2 (.inr (.inl (hsub (by simp)))))
        have hnext : n.flushNext = l2.headD 0 := by rw [← next_of_lookup hn, hseg.1]
        obtain ⟨disk', l3, l4, rfl, hok, hdisk⟩ := ih
          (size - (32 + n.size + cachedNodeSize) - n.childrenCost) (disk.insert a n.node)
          (fun b hb => hsub (by simp [hb])) hseg.2.2 (by simpa using hlen)
        refine ⟨disk', a :: l3, l4, rfl, ?_, fun b => ?_⟩
        · rw [capWrite, if_pos hcond]
          rw [← hok, ← hnext]
          simp only [headD_cons, hn]
        rw [hdisk b]
        by_cases hba : b = a
        · subst hba
          simp [entry_of_lookup hn, CachedNode.bare]
        · simp [hba, lookup_insert_of_ne _ hba]
    refine ⟨disk, [], l2, rfl, ?_, fun a => by simp⟩
    rw [capWrite, if_neg hcond]

theorem Wf.tail {a : Hash} (hwf : Wf rank db (a :: l) []) (hn : db.dirties.lookup a = some n)
    (hd : db'.dirties = db.dirties.erase a) (ho : db'.oldest = n.flushNext)
    (hnew : db'.newest = db.newest) : Wf rank db' l [] := by
  have hl : Linked 0 db.next db.prev db.oldest db.newest ([] ++ a :: l) := hwf.linked
  have hne : ∀ b ∈ l, b ≠ a := fun b hb heq => (nodup_cons.1 hl.nodup).1 (heq ▸ hb)
  have ha0 : a ≠ 0 := fun heq => hl.not_mem (by simp [heq])
  refine ⟨?_, .nil, by simp, by simp, fun b => ?_, fun p m hp => ?_⟩
  · refine hl.remove (fun b hb _ => ?_) (fun b hb => nomatch hb) (fun b hb _ => ?_)
      (fun b c _ hc => nomatch hc) ?_ ?_
    · rw [next, next, hd, lookup_erase_ne (hne b hb)]
    · rw [prev, prev, hd, lookup_erase_ne (hne b hb)]
    · rw [ho, ← next_of_lookup hn, hl.seg.1, if_pos rfl]
    · rw [hnew]
      simp
  · rw [hd, mem_erase, hwf.mem b, mem_cons]
    constructor
    · tauto
    rintro (rfl | hb | hb)
    · exact ⟨.symm ha0, .inl rfl⟩
    · exact ⟨hne b hb, .inr (.inl (.inr hb))⟩
    · cases hb
  rw [entry_erase hd] at hp
  split at hp
  · cases hp
  · exact hwf.sound p m hp

theorem capDrop_spec {l4 : List Hash} : ∀ {l3 : List Hash} {fuel : Nat} {db : Database},
    Wf rank db (l3 ++ l4) [] → l3.length ≤ fuel →
    ∃ db', capDrop (l4.headD 0) fuel db = .ok db' ∧ Wf rank db' l4 [] ∧
      (∀ a, db'.entry a = if a ∈ l3 then none else db.entry a) ∧ db'.disk = db.disk ∧
      db'.dirtiesSize - db'.nodesSize = db.dirtiesSize - db.nodesSize ∧
      db'.childrenSize - db'.externalSize = db.childrenSize - db.externalSize := by
  intro l3
  induction l3 with
  | nil =>
    intro fuel db hwf _
    refine ⟨db, ?_, hwf, fun a => by simp, rfl, rfl, rfl⟩
    have hstop : ¬ db.oldest ≠ l4.headD 0 := not_not.2 hwf.linked.head
    cases fuel with
    | zero | succ fuel => rw [capDrop, if_neg hstop]
  | cons a l3 ih =>
    intro fuel db hwf hlen
    obtain ⟨fuel, rfl⟩ : ∃ f, fuel = f + 1 := ⟨fuel - 1, by simp at hlen; omega⟩
    have hl := hwf.linked
    have hold : db.oldest = a := hl.head
    have ha0 : a ≠ 0 := fun heq => hl.not_mem (by simp [heq])
    have hstop : db.oldest ≠ l4.headD 0 := by
      rw [hold]
      intro heq
      have hnd := (nodup_cons.1 hl.nodup).1
      cases l4 with
      | nil => exact ha0 heq
      | cons b l4 => exact hnd (by simp [show a = b from heq])
    obtain ⟨n, hn⟩ := mem_iff.1 ((hwf.mem a).2 (.inr (.inl (by simp))))
    obtain ⟨db1, hdb1⟩ : ∃ db1 : Database, db1 = { db with
      dirties := db.dirties.erase a
      oldest := n.flushNext
      dirtiesSize := db.dirtiesSize - (32 + n.size)
      childrenSize := db.childrenSize - n.childrenCost } := ⟨_, rfl⟩
    have hd : db1.dirties = db.dirties.erase a := by rw [hdb1]
    obtain ⟨db', hok, hwf', hent, hdisk, hsize, hcsize⟩ :=
      ih (hwf.tail hn hd (by rw [hdb1]) (by rw [hdb1])) (by simpa using hlen)
    refine ⟨db', ?_, hwf', fun b => ?_, by rw [hdisk, hdb1], ?_, ?_⟩
    · rw [capDrop, if_pos hstop, hold, hn]
      rw [hdb1] at hok
      exact hok
    · rw [hent b, entry_erase hd]
      by_cases hba : b = a
      · simp [hba]
      · simp [hba]
    · have := nodesSize_erase hn ha0 hd
      have : db1.dirtiesSize = db.dirtiesSize - (32 + n.size) := by rw [hdb1]
      omega
    · have := externalSize_erase hn ha0 hd
      have : db1.childrenSize = db.childrenSize - n.childrenCost := by rw [hdb1]
      omega

theorem Wf.length_le (hwf : Wf rank db l pend) : l.length ≤ db.dirties.keys.card := by
  rw [← toFinset_card_of_nodup hwf.linked.nodup]
  refine Finset.card_le_card fun a ha => ?_
  exact (hwf.mem a).2 (.inr (.inl (mem_toFinset.1 ha)))

theorem cap_spec (hwf : Wf rank db l []) (limit : Int) :
    ∃ db' l3 l4, db.cap limit = .ok db' ∧ l = l3 ++ l4 ∧ Wf rank db' l4 [] ∧
      Flushed db l db' l4 l3 ∧
      db'.dirtiesSize - db'.nodesSize = db.dirtiesSize - db.nodesSize ∧
      db'.childrenSize - db'.externalSize = db.childrenSize - db.externalSize := by
  obtain ⟨disk, l3, l4, rfl, hwrite, hdisk⟩ := capWrite_spec hwf limit db.totalSize db.disk
    (.refl l) hwf.linked.seg hwf.length_le
  rw [← hwf.linked.head] at hwrite
  have hwf1 : Wf rank { db with disk } (l3 ++ l4) [] := hwf.of_dirties rfl rfl rfl
  obtain ⟨db1, hdrop, hwf2, hent, hdisk1, hsize, hcsize⟩ := capDrop_spec hwf1
    ((by simp : l3.length ≤ (l3 ++ l4).length).trans hwf.length_le)
  have hnd := hwf.linked.nodup
  rw [nodup_append] at hnd
  have hflushed : ∀ db', Same db1 db' → Flushed db (l3 ++ l4) db' l4 l3 := by
    intro db' hsame
    refine ⟨fun a ha => by simp [ha], sublist_append_right l3 l4, fun a => ?_, fun a => ?_,
      fun a => ?_⟩
    · rw [mem_append]
      constructor
      · exact fun ha => ⟨.inr ha, fun ha' => hnd.2.2 a ha' a ha rfl⟩
      · exact fun ⟨ha, hna⟩ => ha.resolve_left hna
    · rw [hsame.entry, hent a]
      rfl
    rw [hsame.disk, hdisk1]
    exact hdisk a
  suffices ∃ db', (if db1.oldest ≠ 0 then db1.modify db1.oldest fun n => { n with flushPrev := 0 }
      else .ok db1) = .ok db' ∧ Wf rank db' l4 [] ∧ Same db1 db' by
    obtain ⟨db', hok, hwf', hsame⟩ := this
    refine ⟨db', l3, l4, ?_, rfl, hwf', hflushed db' hsame, ?_, ?_⟩
    · exact bind_eq_ok.2 ⟨(disk, l4.headD 0), hwrite, bind_eq_ok.2 ⟨db1, hdrop, hok⟩⟩
    · rw [hsame.dirtiesSize, hsame.nodesSize]
      exact hsize
    · rw [hsame.childrenSize, hsame.externalSize]
      exact hcsize
  -- the previous key of the new first entry is cleared, which nothing looks at
  by_cases hold : db1.oldest = 0
  · exact ⟨db1, if_neg (not_not.2 hold), hwf2, .refl db1⟩
  have hl := hwf2.linked
  obtain ⟨a, l4, rfl⟩ := exists_cons_of_ne_nil fun heq => hold (hl.oldest_eq_iff.2 heq)
  have ha : db1.oldest = a := hl.head
  have hmem : db1.oldest ∈ db1.dirties := (hwf2.mem _).2 (.inr (.inl (by simp [ha])))
  obtain ⟨db', hok, hsame, hnx, hpv, ho, hnw⟩ := modify_flushPrev db1 hmem 0
  refine ⟨db', (if_pos hold).trans hok, ⟨?_, hwf2.nodup, hwf2.disjoint, hwf2.zero,
    fun b => hsame.mem.trans (hwf2.mem b), fun p m hp => hwf2.sound p m (hsame.entry p ▸ hp)⟩,
    hsame⟩
  rw [hnx, hpv, ho, hnw]
  refine hl.congr (fun _ _ => rfl) fun b hb => Function.update_of_ne ?_ _ _
  rintro rfl
  exact (nodup_cons.1 hl.nodup).1 (ha ▸ hb)

/-! ## Committing -/

theorem put_spec (hwf : Wf rank db l []) (h0 : h ≠ 0) :
    ∃ db' l', db.put h = .ok db' ∧ Wf rank db' l' [] ∧ l'.Sublist l ∧
      (∀ a, a ∈ l' ↔ a ∈ l ∧ a ≠ h) ∧ (∀ a, db'.entry a = if a = h then none else db.entry a) ∧
      db'.disk = db.disk ∧ db'.childrenSize = db.childrenSize ∧
      db'.dirtiesSize - db'.nodesSize - db'.externalSize =
        db.dirtiesSize - db.nodesSize - db.externalSize := by
  unfold put
  cases hn : db.dirties.lookup h with
  | none =>
    have hnot : h ∉ db.dirties := lookup_eq_none.1 hn
    refine ⟨db, l, rfl, hwf, .refl l, fun a => ?_, fun a => ?_, rfl, rfl, rfl⟩
    · refine ⟨fun ha => ⟨ha, fun heq => hnot ?_⟩, And.left⟩
      exact (hwf.mem h).2 (.inr (.inl (heq ▸ ha)))
    split
    · rename_i heq
      rw [heq, entry, hn]
      rfl
    · rfl
  | some n =>
    have hmem : h ∈ l := by
      rcases (hwf.mem h).1 (mem_of_lookup_eq_some hn) with hz | hl | hp
      · exact absurd hz h0
      · exact hl
      · cases hp
    obtain ⟨db1, hok, hwf1, hsame⟩ := unlink_spec hwf hmem hn
    obtain ⟨n1, hn1, hbare⟩ := lookup_of_entry ((hsame.entry h).trans (entry_of_lookup hn))
    obtain ⟨hsize, hch⟩ := CachedNode.eq_of_bare hbare
    obtain ⟨db', hdb'⟩ : ∃ db' : Database, db' = { db1 with
      dirties := db1.dirties.erase h
      dirtiesSize := db1.dirtiesSize - (32 + n.size) - n.childrenCost } := ⟨_, rfl⟩
    have hd : db'.dirties = db1.dirties.erase h := by rw [hdb']
    refine ⟨db', l.erase h, bind_eq_ok.2 ⟨db1, hok, by rw [hdb']⟩,
      hwf1.erase hd (by rw [hdb']) (by rw [hdb']), erase_sublist, fun a => ?_, fun a => ?_,
      ?_, ?_, ?_⟩
    · rw [hwf.linked.nodup.mem_erase_iff, and_comm]
    · rw [entry_erase hd, hsame.entry]
    · rw [hdb']
      exact hsame.disk
    · rw [hdb']
      exact hsame.childrenSize
    have hnodes := nodesSize_erase hn1 h0 hd
    have hext := externalSize_erase hn1 h0 hd
    have hcost : n1.childrenCost = n.childrenCost := by
      unfold CachedNode.childrenCost
      rw [hch]
    have hds : db'.dirtiesSize = db1.dirtiesSize - (32 + n.size) - n.childrenCost := by rw [hdb']
    rw [hsame.nodesSize] at hnodes
    rw [hsame.externalSize] at hext
    rw [hsame.dirtiesSize] at hds
    omega

theorem foldlM_put : ∀ {ws : List (Hash × RawNode)} {db : Database} {l : List Hash},
    Wf rank db l [] → (∀ w ∈ ws, w.1 ≠ 0) →
    ∃ db' l', ws.foldlM (fun db w => db.put w.1) db = .ok db' ∧ Wf rank db' l' [] ∧
      l'.Sublist l ∧ (∀ a, a ∈ l' ↔ a ∈ l ∧ a ∉ ws.map Prod.fst) ∧
      (∀ a, db'.entry a = if a ∈ ws.map Prod.fst then none else db.entry a) ∧
      db'.disk = db.disk ∧ db'.childrenSize = db.childrenSize ∧
      db'.dirtiesSize - db'.nodesSize - db'.externalSize =
        db.dirtiesSize - db.nodesSize - db.externalSize := by
  intro ws
  induction ws with
  | nil =>
    intro db l hwf _
    exact ⟨db, l, rfl, hwf, .refl l, by simp, by simp, rfl, rfl, rfl⟩
  | cons w ws ih =>
    intro db l hwf hne
    obtain ⟨db1, l1, hok1, hwf1, hsub1, hmem1, hent1, hdisk1, hcs1, hsize1⟩ :=
      put_spec hwf (hne w (by simp))
    obtain ⟨db2, l2, hok2, hwf2, hsub2, hmem2, hent2, hdisk2, hcs2, hsize2⟩ :=
      ih hwf1 fun w' hw' => hne w' (by simp [hw'])
    refine ⟨db2, l2, ?_, hwf2, hsub2.trans hsub1, fun a => ?_, fun a => ?_, hdisk2.trans hdisk1,
      hcs2.trans hcs1, hsize2.trans hsize1⟩
    · exact bind_eq_ok.2 ⟨db1, hok1, hok2⟩
    · rw [hmem2, hmem1, map_cons, mem_cons, not_or, and_assoc]
    have hmem : a ∈ (w :: ws).map Prod.fst ↔ a = w.1 ∨ a ∈ ws.map Prod.fst := mem_cons
    rw [hent2, hent1, ← ite_or, if_congr (or_comm.trans hmem.symm) rfl rfl]

theorem lookup_foldr_insert (ws : List (Hash × RawNode)) (disk : Finmap fun _ : Hash => RawNode)
    (f : Hash → Option RawNode) (hf : ∀ w ∈ ws, f w.1 = some w.2) (a : Hash) :
    (ws.foldr (fun w disk => disk.insert w.1 w.2) disk).lookup a =
      if a ∈ ws.map Prod.fst then f a else disk.lookup a := by
  induction ws with
  | nil => simp
  | cons w ws ih =>
    rw [foldr_cons, map_cons]
    by_cases haw : a = w.1
    · subst haw
      rw [lookup_insert, if_pos (by simp), hf w (by simp)]
    · rw [lookup_insert_of_ne _ haw, ih fun w' hw' => hf w' (by simp [hw'])]
      exact if_congr (by rw [mem_cons, or_iff_right haw]) rfl rfl

/-- A commit that started in `db₀` has written and dropped `done`, and `batch` is to be written.
With an entry all its cached children are among these. -/
structure Committing (ord : MapOrder) (rank : Hash → Nat) (db₀ : Database) (l₀ : List Hash)
    (db : Database) (l done : List Hash) (batch : Batch) : Prop where
  wf : Wf rank db l []
  flushed : Flushed db₀ l₀ db l done
  batch_mem : ∀ w ∈ batch, w.1 ∈ l₀ ∧ (db₀.entry w.1).map CachedNode.node = some w.2
  closed : ∀ a ∈ done ++ batch.map Prod.fst, ∀ n, db₀.entry a = some n → ∀ c ∈ n.childs ord a,
    c ∈ db₀.dirties → c ∈ done ++ batch.map Prod.fst
  childrenSize : db.childrenSize = db₀.childrenSize
  dirtiesSize : db.dirtiesSize - db.nodesSize - db.externalSize =
    db₀.dirtiesSize - db₀.nodesSize - db₀.externalSize

variable {ord : MapOrder} {db₀ : Database} {l₀ done : List Hash} {batch : Batch}

theorem Committing.flush (hc : Committing ord rank db₀ l₀ db l done batch)
    (hwf0 : Wf rank db₀ l₀ []) :
    ∃ db' l', (db.write batch).replay batch = .ok db' ∧
      Committing ord rank db₀ l₀ db' l' (done ++ batch.map Prod.fst) [] := by
  have hwf : Wf rank (db.write batch) l [] := hc.wf.of_dirties rfl rfl rfl
  have hne : ∀ w ∈ batch.reverse, w.1 ≠ 0 := fun w hw heq =>
    hwf0.linked.not_mem (heq ▸ (hc.batch_mem w (mem_reverse.1 hw)).1)
  have hkeys : ∀ a, a ∈ batch.reverse.map Prod.fst ↔ a ∈ batch.map Prod.fst := fun a => by
    rw [map_reverse, mem_reverse]
  obtain ⟨db', l', hok, hwf', hsub, hmem, hent, hdisk, hcs, hsize⟩ := foldlM_put hwf hne
  refine ⟨db', l', hok, hwf', ⟨?_, hsub.trans hc.flushed.sublist, ?_, ?_, ?_⟩, by simp, ?_,
    hcs.trans hc.childrenSize, hsize.trans hc.dirtiesSize⟩
  · intro a ha
    rcases mem_append.1 ha with ha | ha
    · exact hc.flushed.done_mem a ha
    obtain ⟨w, hw, rfl⟩ := mem_map.1 ha
    exact (hc.batch_mem w hw).1
  · intro a
    rw [hmem a, hkeys, hc.flushed.mem_iff, mem_append, not_or, and_assoc]
  · intro a
    rw [hent a]
    show (if _ then none else db.entry a) = _
    rw [hc.flushed.entry, ← ite_or]
    exact if_congr (by rw [hkeys, mem_append, or_comm]) rfl rfl
  · intro a
    rw [hdisk]
    refine (lookup_foldr_insert batch db.disk (fun a => (db₀.entry a).map CachedNode.node)
      (fun w hw => (hc.batch_mem w hw).2) a).trans ?_
    rw [hc.flushed.disk, ← ite_or]
    exact if_congr (by rw [mem_append, or_comm]) rfl rfl
  · rw [map_nil, append_nil]
    exact hc.closed

/-- Up to `fuel`, what is below a hash can be committed. -/
def Commits (ord : MapOrder) (rank : Hash → Nat) (db₀ : Database) (l₀ : List Hash) (fuel : Nat) :
    Prop :=
  ∀ {hash db l done batch}, rank hash < fuel → hash ≠ 0 →
    Committing ord rank db₀ l₀ db l done batch →
    ∃ db' l' done' batch', commit ord fuel hash (db, batch) = .ok (db', batch') ∧
      Committing ord rank db₀ l₀ db' l' done' batch' ∧
      done ++ batch.map Prod.fst ⊆ done' ++ batch'.map Prod.fst ∧
      (hash ∈ db₀.dirties → hash ∈ done' ++ batch'.map Prod.fst)

variable {fuel : Nat}

theorem foldlM_commit (hrec : Commits ord rank db₀ l₀ fuel) :
    ∀ {cs : List Hash} {db l done batch}, (∀ c ∈ cs, c ≠ 0 ∧ rank c < fuel) →
      Committing ord rank db₀ l₀ db l done batch →
      ∃ db' l' done' batch', cs.foldlM (fun s c => commit ord fuel c s) (db, batch) =
          .ok (db', batch') ∧
        Committing ord rank db₀ l₀ db' l' done' batch' ∧
        done ++ batch.map Prod.fst ⊆ done' ++ batch'.map Prod.fst ∧
        ∀ c ∈ cs, c ∈ db₀.dirties → c ∈ done' ++ batch'.map Prod.fst := by
  intro cs
  induction cs with
  | nil =>
    intro db l done batch _ hc
    exact ⟨db, l, done, batch, rfl, hc, .refl _, by simp⟩
  | cons c cs ih =>
    intro db l done batch hcs hc
    obtain ⟨h0, hrank⟩ := hcs c (by simp)
    obtain ⟨db1, l1, done1, batch1, hok1, hc1, hsub1, hin1⟩ := hrec hrank h0 hc
    obtain ⟨db2, l2, done2, batch2, hok2, hc2, hsub2, hin2⟩ :=
      ih (fun c' hc' => hcs c' (by simp [hc'])) hc1
    refine ⟨db2, l2, done2, batch2, ?_, hc2, List.Subset.trans hsub1 hsub2, fun c' hc' hmem => ?_⟩
    · exact bind_eq_ok.2 ⟨(db1, batch1), hok1, hok2⟩
    rcases mem_cons.1 hc' with rfl | hc'
    · exact hsub2 (hin1 hmem)
    · exact hin2 c' hc' hmem

theorem commit_spec (hwf0 : Wf rank db₀ l₀ []) : Commits ord rank db₀ l₀ fuel := by
  induction fuel with
  | zero =>
    intro hash db l done batch hfuel
    omega
  | succ fuel ih =>
    intro hash db l done batch hfuel h0 hc
    rw [commit]
    cases hn : db.dirties.lookup hash with
    | none =>
      refine ⟨db, l, done, batch, rfl, hc, List.Subset.refl _, fun hmem => ?_⟩
      have hent := hc.flushed.entry hash
      by_contra hnot
      rw [if_neg fun hd => hnot (mem_append_left _ hd), entry, hn] at hent
      rw [mem_iff_entry, ← hent] at hmem
      cases hmem
    | some n =>
      have hent : db₀.entry hash = some n.bare := by
        have := hc.flushed.entry hash
        rw [entry_of_lookup hn] at this
        split at this
        · cases this
        · exact this.symm
      have hmem : hash ∈ l₀ := by
        rcases (hwf0.mem hash).1 (mem_iff_entry.2 (by rw [hent]; rfl)) with hz | hl | hp
        · exact absurd hz h0
        · exact hl
        · cases hp
      have hchilds : ∀ c ∈ n.childs ord hash, c ≠ 0 ∧ rank c < fuel := by
        intro c hcc
        obtain ⟨hc0, hrank⟩ := (hwf0.sound hash n.bare hent).childs h0 ord c hcc
        exact ⟨hc0, by omega⟩
      obtain ⟨db1, l1, done1, batch1, hok1, hc1, hsub1, hin1⟩ := foldlM_commit ih hchilds hc
      -- the children are written, now the node itself
      have hc2 : Committing ord rank db₀ l₀ db1 l1 done1 ((hash, n.node) :: batch1) := by
        refine ⟨hc1.wf, hc1.flushed, ?_, ?_, hc1.childrenSize, hc1.dirtiesSize⟩
        · intro w hw
          rcases mem_cons.1 hw with rfl | hw
          · exact ⟨hmem, by rw [hent]; rfl⟩
          · exact hc1.batch_mem w hw
        have hlift : done1 ++ batch1.map Prod.fst ⊆
            done1 ++ ((hash, n.node) :: batch1).map Prod.fst := fun a ha => by
          rcases mem_append.1 ha with ha | ha
          · exact mem_append_left _ ha
          · exact mem_append_right _ (mem_cons_of_mem _ ha)
        intro a ha m hm c hcc hmemc
        by_cases hah : a = hash
        · subst hah
          obtain rfl := Option.some.inj (hent.symm.trans hm)
          exact hlift (hin1 c hcc hmemc)
        refine hlift (hc1.closed a ?_ m hm c hcc hmemc)
        rcases mem_append.1 ha with ha | ha
        · exact mem_append_left _ ha
        · exact mem_append_right _ ((mem_cons.1 ha).resolve_left hah)
      have hself : hash ∈ done1 ++ ((hash, n.node) :: batch1).map Prod.fst := by simp
      have hsub2 : done ++ batch.map Prod.fst ⊆
          done1 ++ ((hash, n.node) :: batch1).map Prod.fst := by
        intro a ha
        rcases mem_append.1 (hsub1 ha) with ha | ha
        · exact mem_append_left _ ha
        · exact mem_append_right _ (mem_cons_of_mem _ ha)
      by_cases hfull : valueSize ((hash, n.node) :: batch1) ≥ idealBatchSize
      · obtain ⟨db2, l2, hok2, hc3⟩ := hc2.flush hwf0
        refine ⟨db2, l2, _, [], bind_eq_ok.2 ⟨(db1, batch1), hok1, ?_⟩, hc3, ?_, fun _ => ?_⟩
        · exact (if_pos hfull).trans (bind_eq_ok.2 ⟨db2, hok2, rfl⟩)
        · rwa [map_nil, append_nil]
        · rwa [map_nil, append_nil]
      exact ⟨db1, l1, done1, _, bind_eq_ok.2 ⟨(db1, batch1), hok1, if_neg hfull⟩, hc2, hsub2,
        fun _ => hself⟩

theorem commitRoot_spec (hwf : Wf rank db l []) (ord : MapOrder) (hfuel : ∀ h, rank h < fuel)
    {root : Hash} (h0 : root ≠ 0) :
    ∃ db' l' done, db.commitRoot ord fuel root = .ok db' ∧
      Committing ord rank db l db' l' done [] ∧ (root ∈ db.dirties → root ∈ done) := by
  have hstart : Committing ord rank db l db l [] [] := by
    refine ⟨hwf, ⟨by simp, .refl l, by simp, by simp, by simp⟩, by simp, by simp, rfl, rfl⟩
  obtain ⟨db1, l1, done1, batch1, hok1, hc1, -, hin⟩ := commit_spec hwf (hfuel root) h0 hstart
  obtain ⟨db2, l2, hok2, hc2⟩ := hc1.flush hwf
  exact ⟨db2, l2, _, bind_eq_ok.2 ⟨(db1, batch1), hok1, hok2⟩, hc2, hin⟩

/-! ## Runs -/

/-- What the flush list is for. The links of the metaroot are free. -/
structure FlushList (db : Database) (l : List Hash) : Prop where
  nodup : l.Nodup
  mem : ∀ h, h ∈ l ↔ h ∈ db.dirties ∧ h ≠ 0
  walk : ∀ i ≤ l.length, db.next^[i] db.oldest = l.getD i 0
  last : ∀ h, l.getLast? = some h → db.newest = h
  prev_next : ∀ h ∈ l, db.next h ≠ 0 → db.prev (db.next h) = h
  next_prev : ∀ h ∈ l, h ≠ db.oldest → db.prev h ∈ l ∧ db.next (db.prev h) = h

theorem Wf.flushList (hwf : Wf rank db l []) : FlushList db l where
  nodup := hwf.linked.nodup
  mem h := by
    rw [hwf.mem]
    constructor
    · exact fun hh => ⟨.inr (.inl hh), fun h0 => hwf.linked.not_mem (h0 ▸ hh)⟩
    rintro ⟨h0 | hh | hh, hne⟩
    · exact absurd h0 hne
    · exact hh
    · cases hh
  walk i hi := by
    rw [hwf.linked.head]
    exact hwf.linked.seg.iterate hi
  last := hwf.linked.last
  prev_next h hh hne := by
    obtain ⟨l1, l2, rfl⟩ := append_of_mem hh
    rw [hwf.linked.next_eq] at hne ⊢
    cases l2 with
    | nil => exact absurd rfl hne
    | cons b l2 =>
      have hlinked := hwf.linked
      rw [append_cons] at hlinked
      exact hlinked.prev_eq (by simp)
  next_prev h hh hne := by
    obtain ⟨l1, l2, rfl⟩ := append_of_mem hh
    rcases eq_nil_or_concat l1 with rfl | ⟨l₀, a, rfl⟩
    · exact absurd (hwf.linked.eq_oldest_iff.2 rfl) hne
    have hlinked := hwf.linked
    rw [hlinked.prev_eq (a := a) (by simp)]
    rw [concat_eq_append, append_assoc] at hlinked
    exact ⟨by simp, hlinked.next_eq⟩

/-- References go down in rank, as hashes make them, and the zero hash is that of no node. -/
def Acyclic (rank : Hash → Nat) : Op → Prop
  | .insert hash _ node => ∀ c ∈ node.gatherChildren, c ≠ 0 ∧ rank c < rank hash
  | .reference child parent => child ≠ 0 ∧ (parent = 0 ∨ rank child < rank parent)
  | .commit node => node ≠ 0
  | _ => True

/-- A node is to get a child, but is not cached. -/
def Orphaned (db : Database) (op : Op) : Prop :=
  ∃ child parent, op = .reference child parent ∧ child ∈ db.dirties ∧ parent ∉ db.dirties

theorem step_orphaned {op : MapOrder × Op} (h : db.Orphaned op.2) : step fuel db op ≠ .ok db' := by
  obtain ⟨child, parent, hop, hc, hp⟩ := h
  obtain ⟨n, hn⟩ := mem_iff.1 hc
  rw [step, hop]
  simp [reference, hn, lookup_eq_none.2 hp]

theorem step_wf (hwf : Wf rank db l []) (hfuel : ∀ h, rank h < fuel) {op : MapOrder × Op}
    (hop : Acyclic rank op.2) :
    (∃ db' l', step fuel db op = .ok db' ∧ Wf rank db' l' []) ∨ db.Orphaned op.2 := by
  obtain ⟨ord, op⟩ := op
  cases op with
  | insert hash size node =>
    left
    by_cases hmem : hash ∈ db.dirties
    · obtain ⟨n, hn⟩ := mem_iff.1 hmem
      exact ⟨db, l, by simp only [step, insert, hn], hwf⟩
    · obtain ⟨db', f, hok, hwf', -⟩ := insert_spec hwf hmem hop size
      exact ⟨db', _, hok, hwf'⟩
  | reference child parent =>
    obtain ⟨h0, hrank⟩ := hop
    cases hc : db.dirties.lookup child with
    | none => exact .inl ⟨db, l, by simp only [step, reference, hc], hwf⟩
    | some nc =>
      cases hp : db.dirties.lookup parent with
      | none => exact .inr ⟨child, parent, rfl, mem_of_lookup_eq_some hc, lookup_eq_none.1 hp⟩
      | some np =>
        left
        rcases reference_spec hwf hc hp h0 hrank with ⟨-, hok⟩ | ⟨db', hok, hwf', -⟩
        · exact ⟨db, l, hok, hwf⟩
        · exact ⟨db', l, hok, hwf'⟩
  | dereference root =>
    have hI : Released ord rank fun _ _ _ _ => True := by constructor <;> intros <;> trivial
    obtain ⟨db', l', hok, hwf', -⟩ :=
      dereferenceRoot_spec hI hfuel hwf root trivial fun _ _ _ => trivial
    exact .inl ⟨db', l', hok, hwf'⟩
  | cap limit =>
    obtain ⟨db', l3, l4, hok, -, hwf', -⟩ := cap_spec hwf limit
    exact .inl ⟨db', l4, hok, hwf'⟩
  | commit root =>
    obtain ⟨db', l', done, hok, hc, -⟩ := commitRoot_spec hwf ord hfuel hop
    exact .inl ⟨db', l', hok, hc.wf⟩

theorem run_wf (hfuel : ∀ h, rank h < fuel) {ops : List (MapOrder × Op)}
    (hops : ∀ op ∈ ops, Acyclic rank op.2) (hwf : Wf rank db l [])
    (hrun : run (step fuel) db ops = .ok db') : ∃ l', Wf rank db' l' [] := by
  induction ops generalizing db l with
  | nil =>
    cases hrun
    exact ⟨l, hwf⟩
  | cons op ops ih =>
    obtain ⟨db1, hok, hrun⟩ := run_cons_ok.1 hrun
    rcases step_wf hwf hfuel (hops op (by simp)) with ⟨_, l1, hok1, hwf1⟩ | horphan
    · obtain rfl := Except.ok.inj (hok1.symm.trans hok)
      exact ih (fun op' h => hops op' (by simp [h])) hwf1 hrun
    · exact absurd hok (step_orphaned horphan)

/-- **The flush list threads the cached nodes after every run**, and from there no operation meets a
missing entry but for a `Reference` whose parent is not cached. -/
theorem run_flushList (rank : Hash → Nat) (hfuel : ∀ h, rank h < fuel)
    (disk : Finmap fun _ : Hash => RawNode) {ops : List (MapOrder × Op)}
    (hops : ∀ op ∈ ops, Acyclic rank op.2) {db : Database}
    (hrun : run (step fuel) (new disk) ops = .ok db) :
    (∃ l, FlushList db l) ∧ ∀ op : MapOrder × Op, Acyclic rank op.2 →
      (∃ db', step fuel db op = .ok db') ∨ db.Orphaned op.2 := by
  obtain ⟨l, hwf⟩ := run_wf hfuel hops (new_wf rank disk) hrun
  refine ⟨⟨l, hwf.flushList⟩, fun op hop => ?_⟩
  exact (step_wf hwf hfuel hop).imp (fun ⟨db', _, hok, _⟩ => ⟨db', hok⟩) id

theorem run_flushList_leaf :
    ∃ db, run (step 1) (new ∅) [(.increasing, .insert 1 5 (.short [32, 1] (.value [7]))),
        (.increasing, .reference 1 0)] = .ok db ∧
      (∃ l, FlushList db l) ∧ ∀ op : MapOrder × Op, Acyclic (fun _ => 0) op.2 →
        (∃ db', step 1 db op = .ok db') ∨ db.Orphaned op.2 := by
  have hops : ∀ op ∈ [(MapOrder.increasing, Op.insert 1 5 (.short [32, 1] (.value [7]))),
      (MapOrder.increasing, Op.reference 1 0)], Acyclic (fun _ => 0) op.2 := by
    simp [Acyclic, RawNode.gatherChildren]
  exact ⟨_, rfl, run_flushList (fun _ => 0) (by simp) ∅ hops rfl⟩

/-- Two nodes between two others are external children of each other. When one is given up, both go,
but the first is unlinked a second time after the other, so the node before them gets a link to one
that is gone. -/
theorem run_reference_cycle :
    (run (step 4) (new ∅) [(.increasing, .insert 1 5 (.short [32, 1] (.value [7]))),
        (.increasing, .insert 2 5 (.short [32, 2] (.value [7]))),
        (.increasing, .insert 3 5 (.short [32, 3] (.value [7]))),
        (.increasing, .insert 4 5 (.short [32, 4] (.value [7]))),
        (.increasing, .reference 2 3), (.increasing, .reference 3 2),
        (.increasing, .dereference 2)]).map
      (fun db => (db.dirties.keys, db.oldest, db.next 1, (db.cap 0).map fun _ => ())) =
      .ok ({0, 1, 4}, 1, 3, .error .panic) := by
  decide +kernel

end Virbicoin.Mpt.Database
