import Virbicoin.Trie.Database

/-!
# The cache of the trie database

What the operations of `trie/database.go` do to the cache. `Wf` says which list the flush list holds
and that references go down in a rank, as hashes make them do; `entry` is an entry without its
links.

While `dereference` works on the children of an entry, that entry is off the flush list but still
cached. The entries in this state are the list `pend`, and `owed` holds the references that are
still to be given up. An invariant over `pend` and `owed` that is kept by the single changes
(`Released`) is kept by the whole cascade, which never fails (`dereference_spec`).
-/

namespace Virbicoin.Mpt

open Virbicoin.Lib Function Finmap List Option

def CachedNode.bare (n : CachedNode) : CachedNode := { n with flushPrev := 0, flushNext := 0 }

variable {n : CachedNode}

theorem CachedNode.eq_of_bare {n' : CachedNode} (h : n.bare = n'.bare) :
    n.size = n'.size ∧ n.children = n'.children := by
  injection h with _ hsize _ hchildren
  exact ⟨hsize, hchildren⟩

/-- The references of an entry go down in rank. The metaroot has external children only, and an
external child of any other entry is counted once. -/
structure CachedNode.Sound (rank : Hash → Nat) (p : Hash) (n : CachedNode) : Prop where
  kids : ∀ c ∈ n.node.gatherChildren, c ≠ 0 ∧ rank c < rank p
  ext : ∀ m, n.children = some m → ∀ c k, m.lookup c = some k →
    c ≠ 0 ∧ (p = 0 ∨ k = 1 ∧ rank c < rank p)
  metaroot : p = 0 → n.node = .nil ∧ n.children ≠ none

def CachedNode.count (n : CachedNode) (c : Hash) : Nat := (n.children.bind (·.lookup c)).getD 0

theorem CachedNode.count_of_children {m : Counters} (hch : n.children = some m) (a : Hash) :
    n.count a = (m.lookup a).getD 0 := by
  rw [count, hch]
  rfl

theorem CachedNode.mem_childs_of_count (ord : MapOrder) (h : Hash) {a : Hash} (ha : n.count a ≠ 0) :
    a ∈ n.childs ord h := by
  unfold count at ha
  unfold childs
  cases hch : n.children with
  | none => simp [hch] at ha
  | some m =>
    refine mem_append_left _ ((ord.mem_iff h m a).2 ?_)
    rw [← lookup_isSome]
    cases hk : m.lookup a with
    | none => simp [hch, hk] at ha
    | some k => rfl

theorem CachedNode.Sound.childs {rank : Hash → Nat} {p : Hash} (hs : n.Sound rank p) (hp : p ≠ 0)
    (ord : MapOrder) :
    ∀ c ∈ n.childs ord p, c ≠ 0 ∧ rank c < rank p := by
  intro c hc
  rcases mem_append.1 hc with hc | hc
  · cases hch : n.children with
    | none => simp [hch] at hc
    | some m =>
      simp only [hch] at hc
      obtain ⟨k, hk⟩ := mem_iff.1 ((ord.mem_iff p m c).1 hc)
      obtain ⟨hne, h0 | ⟨-, hrank⟩⟩ := hs.ext m hch c k hk
      · exact absurd h0 hp
      · exact ⟨hne, hrank⟩
  · exact hs.kids c hc

namespace Database

def next (db : Database) (h : Hash) : Hash :=
  ((db.dirties.lookup h).map CachedNode.flushNext).getD 0

def prev (db : Database) (h : Hash) : Hash :=
  ((db.dirties.lookup h).map CachedNode.flushPrev).getD 0

def entry (db : Database) (h : Hash) : Option CachedNode :=
  (db.dirties.lookup h).map CachedNode.bare

def Retrievable (db : Database) (h : Hash) : Prop := h ∈ db.dirties ∨ h ∈ db.disk

/-- The databases differ in the links of the flush list only. -/
structure Same (db db' : Database) : Prop where
  entry : ∀ h, db'.entry h = db.entry h
  disk : db'.disk = db.disk
  dirtiesSize : db'.dirtiesSize = db.dirtiesSize
  childrenSize : db'.childrenSize = db.childrenSize

/-- The flush list is `l`, and the entries of `pend` are cached but off the list. -/
structure Wf (rank : Hash → Nat) (db : Database) (l pend : List Hash) : Prop where
  linked : Linked 0 db.next db.prev db.oldest db.newest l
  nodup : pend.Nodup
  disjoint : ∀ h ∈ pend, h ∉ l
  zero : 0 ∉ pend
  mem : ∀ h, h ∈ db.dirties ↔ h = 0 ∨ h ∈ l ∨ h ∈ pend
  sound : ∀ p n, db.entry p = some n → n.Sound rank p

variable {db db' db'' : Database} {rank : Hash → Nat} {l l' pend owed : List Hash} {h c p : Hash}
  {n : CachedNode}

theorem Same.refl (db : Database) : Same db db := ⟨fun _ => rfl, rfl, rfl, rfl⟩

theorem Same.trans (h : Same db db') (h' : Same db' db'') : Same db db'' :=
  ⟨fun a => (h'.entry a).trans (h.entry a), h'.disk.trans h.disk,
    h'.dirtiesSize.trans h.dirtiesSize, h'.childrenSize.trans h.childrenSize⟩

theorem entry_of_lookup (hn : db.dirties.lookup h = some n) : db.entry h = some n.bare := by
  rw [entry, hn]
  rfl

theorem lookup_of_entry (hn : db.entry h = some n) :
    ∃ n', db.dirties.lookup h = some n' ∧ n'.bare = n := by
  rwa [entry, map_eq_some_iff] at hn

theorem mem_iff_entry : h ∈ db.dirties ↔ (db.entry h).isSome := by
  rw [entry, isSome_map, lookup_isSome]

theorem Same.mem (hsame : Same db db') : h ∈ db'.dirties ↔ h ∈ db.dirties := by
  rw [mem_iff_entry, hsame.entry, mem_iff_entry]

theorem entry_set (a : Hash) :
    (db.set h n).entry a = if a = h then some n.bare else db.entry a := by
  unfold entry set
  split
  · rename_i heq
    subst heq
    rw [lookup_insert]
    rfl
  rename_i hne
  rw [lookup_insert_of_ne _ hne]

theorem entry_erase (hd : db'.dirties = db.dirties.erase h) (a : Hash) :
    db'.entry a = if a = h then none else db.entry a := by
  unfold entry
  rw [hd]
  split
  · rename_i heq
    rw [heq, lookup_erase]
    rfl
  rename_i hne
  rw [lookup_erase_ne hne]

theorem next_set (db : Database) (h : Hash) (n : CachedNode) :
    (db.set h n).next = update db.next h n.flushNext := by
  funext a
  unfold next set update
  split
  · rename_i heq
    subst heq
    rw [lookup_insert]
    rfl
  rename_i hne
  rw [lookup_insert_of_ne _ hne]

theorem prev_set (db : Database) (h : Hash) (n : CachedNode) :
    (db.set h n).prev = update db.prev h n.flushPrev := by
  funext a
  unfold prev set update
  split
  · rename_i heq
    subst heq
    rw [lookup_insert]
    rfl
  rename_i hne
  rw [lookup_insert_of_ne _ hne]

section

variable (hn : db.dirties.lookup h = some n)
include hn

theorem next_of_lookup : db.next h = n.flushNext := by
  rw [next, hn]
  rfl

theorem prev_of_lookup : db.prev h = n.flushPrev := by
  rw [prev, hn]
  rfl

/-! ## Changes of an entry -/

omit hn in
theorem Wf.of_dirties (hwf : Wf rank db l pend) (hd : db'.dirties = db.dirties)
    (ho : db'.oldest = db.oldest) (hn : db'.newest = db.newest) : Wf rank db' l pend := by
  have hnext : db'.next = db.next := by
    funext a
    rw [next, next, hd]
  have hprev : db'.prev = db.prev := by
    funext a
    rw [prev, prev, hd]
  refine ⟨?_, hwf.nodup, hwf.disjoint, hwf.zero, fun h => hd ▸ hwf.mem h, fun p n hp => ?_⟩
  · rw [hnext, hprev, ho, hn]
    exact hwf.linked
  · rw [entry, hd] at hp
    exact hwf.sound p n hp

theorem Wf.set (hwf : Wf rank db l pend) {n' : CachedNode} (hs : n'.bare.Sound rank h)
    (hnext : n'.flushNext = n.flushNext) (hprev : n'.flushPrev = n.flushPrev) :
    Wf rank (db.set h n') l pend := by
  have hmem : h ∈ db.dirties := mem_of_lookup_eq_some hn
  refine ⟨?_, hwf.nodup, hwf.disjoint, hwf.zero, ?_, ?_⟩
  · rw [next_set, prev_set, hnext, hprev, ← next_of_lookup hn, ← prev_of_lookup hn,
      update_eq_self, update_eq_self]
    exact hwf.linked
  · intro a
    rw [← hwf.mem a, Database.set, mem_insert]
    exact ⟨fun h => h.elim (fun h => h ▸ hmem) id, .inr⟩
  intro a m ha
  rw [entry_set] at ha
  split at ha
  · rename_i heq
    obtain rfl := some.inj ha
    exact heq ▸ hs
  · exact hwf.sound a m ha

theorem Wf.sound_of_lookup (hwf : Wf rank db l pend) :
    n.bare.Sound rank h := hwf.sound h n.bare (entry_of_lookup hn)

omit hn in
theorem Wf.lookup_zero (hwf : Wf rank db l pend) :
    ∃ n, db.dirties.lookup 0 = some n ∧ n.node = .nil := by
  obtain ⟨n, hn⟩ := mem_iff.1 ((hwf.mem 0).2 (.inl rfl))
  exact ⟨n, hn, ((hwf.sound_of_lookup hn).metaroot rfl).1⟩

/-! ## The flush list -/

theorem modify_of_lookup (f : CachedNode → CachedNode) : db.modify h f = .ok (db.set h (f n)) := by
  rw [modify, hn]

theorem Same.set {n' : CachedNode} (hbare : n'.bare = n.bare) : Same db (db.set h n') := by
  refine ⟨fun a => ?_, rfl, rfl, rfl⟩
  rw [entry_set]
  split
  · rename_i heq
    rw [heq, entry_of_lookup hn, hbare]
  · rfl

end

theorem modify_flushPrev (db : Database) (hmem : h ∈ db.dirties) (v : Hash) :
    ∃ db', db.modify h (fun n => { n with flushPrev := v }) = .ok db' ∧ Same db db' ∧
      db'.next = db.next ∧ db'.prev = update db.prev h v ∧ db'.oldest = db.oldest ∧
      db'.newest = db.newest := by
  obtain ⟨n, hn⟩ := mem_iff.1 hmem
  refine ⟨_, modify_of_lookup hn _, .set hn rfl, ?_, ?_, rfl, rfl⟩
  · rw [next_set, ← next_of_lookup hn, update_eq_self]
  · rw [prev_set]

theorem modify_flushNext (db : Database) (hmem : h ∈ db.dirties) (v : Hash) :
    ∃ db', db.modify h (fun n => { n with flushNext := v }) = .ok db' ∧ Same db db' ∧
      db'.next = update db.next h v ∧ db'.prev = db.prev ∧ db'.oldest = db.oldest ∧
      db'.newest = db.newest := by
  obtain ⟨n, hn⟩ := mem_iff.1 hmem
  refine ⟨_, modify_of_lookup hn _, .set hn rfl, ?_, ?_, rfl, rfl⟩
  · rw [next_set]
  · rw [prev_set, ← prev_of_lookup hn, update_eq_self]

theorem unlink_linked {l1 l2 : List Hash} (hwf : Wf rank db (l1 ++ h :: l2) pend)
    (hn : db.dirties.lookup h = some n) :
    ∃ db', db.unlink h n = .ok db' ∧ Same db db' ∧
      Linked 0 db'.next db'.prev db'.oldest db'.newest (l1 ++ l2) := by
  have hl := hwf.linked
  have hnext : n.flushNext = l2.headD 0 := by rw [← next_of_lookup hn, hl.next_eq]
  have hprev : ∀ a, l1.getLast? = some a → n.flushPrev = a := fun a ha => by
    rw [← prev_of_lookup hn, hl.prev_eq ha]
  have hmem1 : ∀ a, l1.getLast? = some a → a ∈ db.dirties := fun a ha =>
    (hwf.mem a).2 (.inr (.inl (by simp [mem_of_getLast? ha])))
  have hmem2 : l2.headD 0 ∈ db.dirties := by
    cases l2 with
    | nil => exact (hwf.mem 0).2 (.inl rfl)
    | cons b l2 => exact (hwf.mem b).2 (.inr (.inl (by simp)))
  -- only the head of the rest has its previous key changed
  have hupd : ∀ (f : Hash → Hash) (v a : Hash), a ∈ l1 ++ l2 → l2.head? ≠ some a →
      update f (l2.headD 0) v a = f a := by
    intro f v a ha hne
    refine update_of_ne (fun heq => ?_) _ _
    subst heq
    have hnot := hl.not_mem
    cases l2 with
    | nil => exact hnot (by simpa using Or.inl ha)
    | cons b l2 => exact hne rfl
  unfold unlink
  by_cases hold : h = db.oldest
  · obtain rfl := hl.eq_oldest_iff.1 hold
    rw [if_pos hold, hnext]
    obtain ⟨db', hok, hsame, hnx, hpv, ho, hnw⟩ :=
      modify_flushPrev { db with oldest := l2.headD 0 } hmem2 0
    refine ⟨db', hok, ⟨hsame.entry, hsame.disk, hsame.dirtiesSize, hsame.childrenSize⟩, ?_⟩
    refine hl.remove (fun a _ _ => congrFun hnx a) (fun a ha => nomatch ha) ?_
      (fun a b _ hb => nomatch hb) ?_ ?_
    · intro a ha hne
      rw [hpv]
      exact hupd _ _ a ha hne
    · rw [ho, if_pos rfl]
    rw [hnw]
    simp
  have hne1 : l1 ≠ [] := fun heq => hold (hl.eq_oldest_iff.2 heq)
  obtain ⟨a, ha⟩ := isSome_iff_exists.1 (getLast?_isSome.2 hne1)
  rw [if_neg hold, hprev a ha]
  have hupd1 : ∀ (f : Hash → Hash) (v b : Hash), l1.getLast? ≠ some b → update f a v b = f b := by
    intro f v b hb
    refine update_of_ne (fun heq => hb ?_) _ _
    rw [heq, ha]
  by_cases hnew : h = db.newest
  · obtain rfl := hl.eq_newest_iff.1 hnew
    rw [if_pos hnew]
    obtain ⟨db', hok, hsame, hnx, hpv, ho, hnw⟩ :=
      modify_flushNext { db with newest := a } (hmem1 a ha) 0
    refine ⟨db', hok, ⟨hsame.entry, hsame.disk, hsame.dirtiesSize, hsame.childrenSize⟩, ?_⟩
    refine hl.remove ?_ ?_ (fun b _ _ => congrFun hpv b) (fun b _ hb => nomatch hb) ?_ ?_
    · intro b _ hb
      rw [hnx]
      exact hupd1 _ _ b hb
    · intro b hb
      obtain rfl := some.inj (ha.symm.trans hb)
      rw [hnx, update_self]
      rfl
    · rw [ho, if_neg hne1]
    · rw [hnw, ha]
      rfl
  have hne2 : l2 ≠ [] := fun heq => hnew (hl.eq_newest_iff.2 heq)
  rw [if_neg hnew, hnext]
  obtain ⟨db₁, hok1, hsame1, hnx1, hpv1, ho1, hnw1⟩ :=
    modify_flushNext db (hmem1 a ha) (l2.headD 0)
  obtain ⟨db2, hok2, hsame2, hnx2, hpv2, ho2, hnw2⟩ :=
    modify_flushPrev db₁ (hsame1.mem.2 hmem2) a
  refine ⟨db2, bind_eq_ok.2 ⟨db₁, hok1, hok2⟩, hsame1.trans hsame2, ?_⟩
  refine hl.remove ?_ ?_ ?_ ?_ ?_ ?_
  · intro b _ hb
    rw [hnx2, hnx1]
    exact hupd1 _ _ b hb
  · intro b hb
    obtain rfl := some.inj (ha.symm.trans hb)
    rw [hnx2, hnx1, update_self]
  · intro b hb hne
    rw [hpv2, hpv1]
    exact hupd _ _ b hb hne
  · intro b d hb hd
    obtain rfl := some.inj (ha.symm.trans hd)
    have hhead : l2.headD 0 = b := by
      rw [headD_eq_head?_getD, hb]
      rfl
    rw [hpv2, hhead, update_self]
  · rw [ho2, ho1, if_neg hne1]
  · rw [hnw2, hnw1, if_neg hne2]

theorem unlink_spec (hwf : Wf rank db l pend) (hmem : h ∈ l) (hn : db.dirties.lookup h = some n) :
    ∃ db', db.unlink h n = .ok db' ∧ Wf rank db' (l.erase h) (h :: pend) ∧ Same db db' := by
  obtain ⟨l1, l2, rfl⟩ := append_of_mem hmem
  obtain ⟨db', hok, hsame, hl⟩ := unlink_linked hwf hn
  have hnd := hwf.linked.nodup
  rw [nodup_append, nodup_cons] at hnd
  have hnot1 : h ∉ l1 := fun hh => hnd.2.2 h hh h (by simp) rfl
  have hperm : ∀ a, a ∈ l1 ++ h :: l2 ↔ a = h ∨ a ∈ l1 ++ l2 := fun a => by
    simp only [mem_append, mem_cons]
    exact or_left_comm
  have hpend : h ∉ pend := fun hh => hwf.disjoint h hh hmem
  refine ⟨db', hok, ?_, hsame⟩
  rw [erase_append_right _ hnot1, erase_cons_head]
  refine ⟨hl, nodup_cons.2 ⟨hpend, hwf.nodup⟩, ?_, ?_, ?_, ?_⟩
  · intro a ha
    rcases mem_cons.1 ha with rfl | ha
    · rw [mem_append, not_or]
      exact ⟨hnot1, hnd.2.1.1⟩
    · exact fun hin => hwf.disjoint a ha ((hperm a).2 (.inr hin))
  · rw [mem_cons, not_or]
    refine ⟨fun heq => hwf.linked.not_mem (heq ▸ hmem), hwf.zero⟩
  · intro a
    rw [hsame.mem, hwf.mem a, hperm a, mem_cons]
    tauto
  · intro p m hp
    rw [hsame.entry] at hp
    exact hwf.sound p m hp

/-! ## Giving up references -/

theorem dropChild_cases (hn : db.dirties.lookup p = some n) :
    (n.count c = 0 ∧ db.dropChild c p = .ok db) ∨
    (∃ m, n.children = some m ∧ m.lookup c = some 1 ∧
      db.dropChild c p = .ok { db.set p { n with children := some (m.erase c) } with
        childrenSize := db.childrenSize - 34 }) ∨
    ∃ m k, n.children = some m ∧ m.lookup c = some (k + 2) ∧
      db.dropChild c p = .ok (db.set p { n with children := some (m.insert c (k + 1)) }) := by
  unfold dropChild CachedNode.count
  simp only [hn]
  cases hch : n.children with
  | none => exact .inl ⟨rfl, rfl⟩
  | some m =>
    cases hk : m.lookup c with
    | none => exact .inl ⟨by simp [hk], by simp [hk]⟩
    | some k =>
      match k with
      | 0 => exact .inl ⟨by simp [hk], by simp [hk]⟩
      | 1 => exact .inr (.inl ⟨m, rfl, hk, by simp [hk]⟩)
      | k + 2 => exact .inr (.inr ⟨m, k, rfl, hk, by simp [hk]⟩)

theorem Wf.set_children (hwf : Wf rank db l pend) (hn : db.dirties.lookup p = some n)
    {m m' : Counters} (hch : n.children = some m) {k : Nat} (hk : m.lookup c = some k)
    (hm' : ∀ a k', m'.lookup a = some k' → m.lookup a = some k' ∨ a = c ∧ p = 0) :
    Wf rank (db.set p { n with children := some m' }) l pend := by
  have hs := hwf.sound_of_lookup hn
  refine hwf.set hn ⟨hs.kids, ?_, fun h0 => ⟨(hs.metaroot h0).1, by simp [CachedNode.bare]⟩⟩ rfl rfl
  intro m1 hm1 a k' hk'
  obtain rfl : m' = m1 := some.inj hm1
  rcases hm' a k' hk' with hold | ⟨rfl, hp⟩
  · exact hs.ext m hch a k' hold
  · exact ⟨(hs.ext m hch a k hk).1, .inl hp⟩

theorem dropChild_spec (hwf : Wf rank db l pend) (hn : db.dirties.lookup p = some n) :
    ∃ db' n', db.dropChild c p = .ok db' ∧ Wf rank db' l pend ∧ db'.dirties.lookup p = some n' ∧
      (∀ a, a ≠ p → db'.dirties.lookup a = db.dirties.lookup a) ∧
      (∀ a, n'.count a = n.count a - if a = c then 1 else 0) ∧
      n' = { n with children := n'.children } ∧ n'.children.isSome = n.children.isSome ∧
      db'.disk = db.disk := by
  have hother : ∀ (n' : CachedNode) (a : Hash), a ≠ p →
      (db.dirties.insert p n').lookup a = db.dirties.lookup a := fun n' a ha =>
    lookup_insert_of_ne _ ha
  rcases dropChild_cases hn with ⟨h0, hok⟩ | ⟨m, hch, hk, hok⟩ | ⟨m, k, hch, hk, hok⟩
  · refine ⟨db, n, hok, hwf, hn, fun _ _ => rfl, fun a => ?_, rfl, rfl, rfl⟩
    split
    · rename_i heq
      rw [heq, h0]
    · rfl
  · refine ⟨_, { n with children := some (m.erase c) }, hok,
      (hwf.set_children hn hch hk ?_).of_dirties rfl rfl rfl, lookup_insert _, hother _, ?_,
      rfl, by rw [hch]; rfl, rfl⟩
    · intro a k' hk'
      by_cases hac : a = c
      · rw [hac, lookup_erase] at hk'
        cases hk'
      · rw [lookup_erase_ne hac] at hk'
        exact .inl hk'
    intro a
    rw [CachedNode.count_of_children hch, CachedNode.count_of_children rfl]
    split
    · rename_i hac
      rw [hac, hk, lookup_erase]
      rfl
    rename_i hac
    rw [lookup_erase_ne hac]
    rfl
  have hp : p = 0 := by
    rcases ((hwf.sound_of_lookup hn).ext m hch c _ hk).2 with hp | ⟨h1, -⟩
    · exact hp
    · omega
  refine ⟨_, { n with children := some (m.insert c (k + 1)) }, hok,
    hwf.set_children hn hch hk ?_, lookup_insert _, hother _, ?_, rfl, by rw [hch]; rfl,
    rfl⟩
  · intro a k' hk'
    by_cases hac : a = c
    · exact .inr ⟨hac, hp⟩
    rw [lookup_insert_of_ne _ hac] at hk'
    exact .inl hk'
  intro a
  rw [CachedNode.count_of_children hch, CachedNode.count_of_children rfl]
  split
  · rename_i hac
    rw [hac, hk, lookup_insert]
    rfl
  rename_i hac
  rw [lookup_insert_of_ne _ hac]
  rfl

theorem Wf.erase (hwf : Wf rank db l (h :: pend)) (hd : db'.dirties = db.dirties.erase h)
    (ho : db'.oldest = db.oldest) (hn : db'.newest = db.newest) : Wf rank db' l pend := by
  have hnot : h ∉ l := hwf.disjoint h (by simp)
  have hne : ∀ a ∈ l, a ≠ h := fun a ha heq => hnot (heq ▸ ha)
  obtain ⟨hnp, hnd⟩ := nodup_cons.1 hwf.nodup
  have hz := hwf.zero
  rw [mem_cons, not_or] at hz
  refine ⟨?_, hnd, fun a ha => hwf.disjoint a (by simp [ha]), hz.2, ?_, ?_⟩
  · rw [ho, hn]
    refine hwf.linked.congr (fun a ha => ?_) fun a ha => ?_
    · rw [next, next, hd, lookup_erase_ne (hne a ha)]
    · rw [prev, prev, hd, lookup_erase_ne (hne a (mem_of_mem_tail ha))]
  · intro a
    rw [hd, mem_erase, hwf.mem a, mem_cons]
    constructor
    · tauto
    rintro (rfl | ha | ha)
    · exact ⟨hz.1, .inl rfl⟩
    · exact ⟨hne a ha, .inr (.inl ha)⟩
    · exact ⟨fun heq => hnp (heq ▸ ha), .inr (.inr (.inr ha))⟩
  intro p m hp
  rw [entry_erase hd] at hp
  split at hp
  · cases hp
  · exact hwf.sound p m hp

/-- What an invariant over the pending entries and the references still owed has to be kept by. -/
structure Released (ord : MapOrder) (rank : Hash → Nat)
    (I : Database → List Hash → List Hash → List Hash → Prop) : Prop where
  same : ∀ {db db' l pend owed}, I db l pend owed → Same db db' → I db' l pend owed
  /-- A reference to what is not cached. -/
  gone : ∀ {db l pend owed c}, Wf rank db l pend → I db l pend (c :: owed) → c ∉ db.dirties →
    I db l pend owed
  /-- The entry has other parents. -/
  keep : ∀ {db l pend owed c n}, Wf rank db l pend → I db l pend (c :: owed) →
    db.dirties.lookup c = some n → c ∈ l → n.parents - 1 ≠ 0 →
    I (db.set c { n with parents := n.parents - 1 }) l pend owed
  /-- The last reference to an entry: its own references are owed. -/
  enter : ∀ {db l pend owed c n}, Wf rank db l pend → I db l pend (c :: owed) →
    db.dirties.lookup c = some n → c ∈ l → n.parents - 1 = 0 →
    I (db.set c { n with parents := n.parents - 1 }) (l.erase c) (c :: pend)
      (n.childs ord c ++ owed)
  drop : ∀ {db db' l pend owed p c}, Wf rank db l pend → I db l pend owed → p ∈ pend →
    db.dropChild c p = .ok db' → I db' l pend owed
  /-- The entry itself goes, when it has no external children any more. -/
  leave : ∀ {db l pend owed c n}, Wf rank db l (c :: pend) → I db l (c :: pend) owed →
    db.dirties.lookup c = some n → (∀ m, n.children = some m → m = ∅) →
    I (db.forget c n) l pend owed

variable {ord : MapOrder} {I : Database → List Hash → List Hash → List Hash → Prop}

/-- Up to `fuel`, a reference to a child below the pending entries can be given up. -/
def Releases (ord : MapOrder) (rank : Hash → Nat)
    (I : Database → List Hash → List Hash → List Hash → Prop) (fuel : Nat) : Prop :=
  ∀ {child parent db db₁ l pend owed}, rank child < fuel → child ≠ 0 →
    db.dropChild child parent = .ok db₁ → Wf rank db₁ l pend → (∀ p ∈ pend, rank child < rank p) →
    I db₁ l pend (child :: owed) →
    ∃ db' l', dereference ord fuel child parent db = .ok db' ∧ Wf rank db' l' pend ∧
      I db' l' pend owed ∧ ∀ p ∈ pend, db'.entry p = db₁.entry p

theorem foldlM_dereference (hI : Released ord rank I) {fuel : Nat} (hrec : Releases ord rank I fuel)
    {child : Hash} (hfuel : rank child ≤ fuel) (hbelow : ∀ p ∈ pend, rank child < rank p) :
    ∀ {cs : List Hash} {db l n}, (∀ c ∈ cs, c ≠ 0 ∧ rank c < rank child) →
      Wf rank db l (child :: pend) → I db l (child :: pend) (cs ++ owed) →
      db.dirties.lookup child = some n → (∀ a, n.count a ≠ 0 → a ∈ cs) →
      ∃ db' l' n', cs.foldlM (fun db c => dereference ord fuel c child db) db = .ok db' ∧
        Wf rank db' l' (child :: pend) ∧ I db' l' (child :: pend) owed ∧
        db'.dirties.lookup child = some n' ∧ n'.size = n.size ∧
        n'.children.isSome = n.children.isSome ∧ (∀ a, n'.count a = 0) ∧
        ∀ p ∈ pend, db'.entry p = db.entry p := by
  intro cs
  induction cs with
  | nil =>
    intro db l n _ hwf hi hn hcount
    refine ⟨db, l, n, rfl, hwf, hi, hn, rfl, rfl, fun a => ?_, fun _ _ => rfl⟩
    by_contra hne
    exact absurd (hcount a hne) (by simp)
  | cons c cs ih =>
    intro db l n hcs hwf hi hn hcount
    have hchild : child ≠ 0 := fun heq => hwf.zero (by simp [heq])
    obtain ⟨db₁, n1, hok, hwf1, hn1, hother, hcount1, heq1, hsome1, -⟩ := dropChild_spec hwf hn
    have hc := hcs c (by simp)
    have hpend : ∀ p ∈ child :: pend, rank c < rank p := by
      intro p hp
      rcases mem_cons.1 hp with rfl | hp
      · exact hc.2
      · exact hc.2.trans (hbelow p hp)
    obtain ⟨db2, l2, hok2, hwf2, hi2, hent2⟩ := hrec (by omega) hc.1 hok hwf1 hpend
      (hI.drop hwf hi (by simp) hok)
    obtain ⟨n2, hn2, hbare⟩ := lookup_of_entry ((hent2 child (by simp)).trans (entry_of_lookup hn1))
    obtain ⟨hsize, hch⟩ := CachedNode.eq_of_bare hbare
    have hleft : ∀ a, n2.count a ≠ 0 → a ∈ cs := by
      intro a ha
      have hca : n2.count a = n1.count a := by rw [CachedNode.count, hch, CachedNode.count]
      have hle : n.count a ≤ 1 := by
        unfold CachedNode.count
        cases hm : n.children with
        | none => simp
        | some m =>
          cases hk : m.lookup a with
          | none => simp [hk]
          | some k =>
            rcases ((hwf.sound_of_lookup hn).ext m hm a k hk).2 with h0 | ⟨rfl, -⟩
            · exact absurd h0 hchild
            · simp [hk]
      rw [hca, hcount1] at ha
      split at ha
      · omega
      rename_i hne
      rcases mem_cons.1 (hcount a (by omega)) with heq | hmem
      · exact absurd heq hne
      · exact hmem
    obtain ⟨db3, l3, n3, hok3, hwf3, hi3, hn3, hsize3, hsome3, hcount3, hent3⟩ :=
      ih (fun c' hc' => hcs c' (by simp [hc'])) hwf2 hi2 hn2 hleft
    refine ⟨db3, l3, n3, ?_, hwf3, hi3, hn3, ?_, ?_, hcount3, ?_⟩
    · exact bind_eq_ok.2 ⟨db2, hok2, hok3⟩
    · rw [hsize3, hsize, heq1]
    · rw [hsome3, hch, hsome1]
    intro p hp
    have hne : p ≠ child := fun heq => (nodup_cons.1 hwf.nodup).1 (heq ▸ hp)
    rw [hent3 p hp, hent2 p (by simp [hp]), entry, hother p hne, entry]

/-- **A cascade of dereferences.** Giving up a reference to a child below the pending entries never
fails, and it keeps every invariant that the single changes keep. -/
theorem dereference_spec (hI : Released ord rank I) (fuel : Nat) : Releases ord rank I fuel := by
  induction fuel with
  | zero =>
    intro child parent db db₁ l pend owed hfuel
    omega
  | succ fuel ih =>
    intro child parent db db₁ l pend owed hfuel hchild hdrop hwf hbelow hi
    cases hn : db₁.dirties.lookup child with
    | none =>
      exact ⟨db₁, l, bind_eq_ok.2 ⟨db₁, hdrop, by rw [hn]⟩, hwf,
        hI.gone hwf hi (lookup_eq_none.1 hn), fun _ _ => rfl⟩
    | some n =>
      have hmem : child ∈ l := by
        rcases (hwf.mem child).1 (mem_of_lookup_eq_some hn) with h0 | hl | hp
        · exact absurd h0 hchild
        · exact hl
        · exact absurd (hbelow child hp) (lt_irrefl _)
      have hs := hwf.sound_of_lookup hn
      have hne : ∀ p ∈ pend, p ≠ child := fun p hp heq => hwf.disjoint p hp (heq ▸ hmem)
      have hwf' : Wf rank (db₁.set child { n with parents := n.parents - 1 }) l pend :=
        hwf.set hn ⟨hs.kids, hs.ext, hs.metaroot⟩ rfl rfl
      by_cases hzero : n.parents - 1 = 0
      · have hn' : (db₁.set child { n with parents := n.parents - 1 }).dirties.lookup child =
            some { n with parents := n.parents - 1 } := lookup_insert _
        obtain ⟨db2, hok2, hwf2, hsame2⟩ := unlink_spec hwf' hmem hn'
        obtain ⟨n2, hn2, hbare⟩ := lookup_of_entry
          ((hsame2.entry child).trans (entry_of_lookup hn'))
        obtain ⟨hsize2, hch2⟩ := CachedNode.eq_of_bare hbare
        have hcount2 : ∀ a, n2.count a ≠ 0 → a ∈ n.childs ord child := fun a ha =>
          CachedNode.mem_childs_of_count ord child (by rwa [CachedNode.count, hch2] at ha)
        have hchilds : ∀ c ∈ n.childs ord child, c ≠ 0 ∧ rank c < rank child :=
          hs.childs hchild ord
        obtain ⟨db3, l3, n3, hok3, hwf3, hi3, hn3, hsize3, hsome3, hcount3, hent3⟩ :=
          foldlM_dereference hI ih (by omega) hbelow hchilds hwf2
            (hI.same (hI.enter hwf hi hn hmem hzero) hsame2) hn2 hcount2
        have hforget : db3.forget child { n with parents := n.parents - 1 } =
            db3.forget child n3 := by
          unfold forget
          rw [hsize3, hsize2, hsome3, hch2]
        have hempty : ∀ m, n3.children = some m → m = ∅ := by
          intro m hm
          refine ext_lookup fun a => ?_
          cases hk : m.lookup a with
          | none => simp
          | some k =>
            have hc := hcount3 a
            rcases ((hwf3.sound_of_lookup hn3).ext m hm a k hk).2 with h0 | ⟨rfl, -⟩
            · exact absurd h0 hchild
            · simp [CachedNode.count, hm, hk] at hc
        refine ⟨db3.forget child n3, l3, ?_, hwf3.erase rfl rfl rfl, hI.leave hwf3 hi3 hn3 hempty,
          fun p hp => ?_⟩
        · refine bind_eq_ok.2 ⟨db₁, hdrop, ?_⟩
          rw [hn, ← hforget]
          refine (if_neg (not_not.2 hzero)).trans ?_
          exact bind_eq_ok.2 ⟨db2, hok2, bind_eq_ok.2 ⟨db3, hok3, rfl⟩⟩
        rw [entry_erase (h := child) rfl, if_neg (hne p hp), hent3 p hp, hsame2.entry, entry_set,
          if_neg (hne p hp)]
      refine ⟨_, l, bind_eq_ok.2 ⟨db₁, hdrop, ?_⟩, hwf', hI.keep hwf hi hn hmem hzero,
        fun p hp => ?_⟩
      · rw [hn]
        exact if_pos hzero
      · rw [entry_set, if_neg (hne p hp)]

theorem dereferenceRoot_spec (hI : Released ord rank I) {fuel : Nat} (hfuel : ∀ h, rank h < fuel)
    (hwf : Wf rank db l []) (root : Hash) (hi : I db l [] [])
    (hdrop : ∀ db₁, root ≠ 0 → db.dropChild root 0 = .ok db₁ → I db₁ l [] [root]) :
    ∃ db' l', dereferenceRoot ord fuel db root = .ok db' ∧ Wf rank db' l' [] ∧ I db' l' [] [] := by
  by_cases h0 : root = 0
  · exact ⟨db, l, if_pos h0, hwf, hi⟩
  obtain ⟨n, hn, -⟩ := hwf.lookup_zero
  obtain ⟨db₁, n1, hok, hwf1, -⟩ := dropChild_spec hwf hn
  obtain ⟨db', l', hok', hwf', hi', -⟩ := dereference_spec hI fuel (hfuel root) h0 hok hwf1
    (by simp) (hdrop db₁ h0 hok)
  exact ⟨db', l', (if_neg h0).trans hok', hwf', hi'⟩

/-! ## Inserting -/

theorem addParent_of_lookup (hn : db.dirties.lookup c = some n) :
    db.addParent c = db.set c { n with parents := (n.parents + 1) % 2 ^ 32 } := by
  rw [addParent, hn]

theorem addParent_wf (hwf : Wf rank db l pend) (c : Hash) : Wf rank (db.addParent c) l pend := by
  cases hn : db.dirties.lookup c with
  | none => rwa [addParent, hn]
  | some n =>
    have hs := hwf.sound_of_lookup hn
    rw [addParent_of_lookup hn]
    exact hwf.set hn ⟨hs.kids, hs.ext, hs.metaroot⟩ rfl rfl

/-- The databases differ in the numbers of parents only. -/
structure Reparented (f : Hash → Nat) (db db' : Database) : Prop where
  lookup : ∀ a, db'.dirties.lookup a = (db.dirties.lookup a).map fun n => { n with parents := f a }
  disk : db'.disk = db.disk
  oldest : db'.oldest = db.oldest
  newest : db'.newest = db.newest
  dirtiesSize : db'.dirtiesSize = db.dirtiesSize
  childrenSize : db'.childrenSize = db.childrenSize

def parents (db : Database) (h : Hash) : Nat :=
  ((db.dirties.lookup h).map CachedNode.parents).getD 0

theorem Reparented.parents {f : Hash → Nat} (hr : Reparented f db db') (hmem : h ∈ db.dirties) :
    db'.parents h = f h := by
  obtain ⟨n, hn⟩ := mem_iff.1 hmem
  rw [Database.parents, hr.lookup, hn]
  rfl

theorem Reparented.mem {f : Hash → Nat} (hr : Reparented f db db') :
    h ∈ db'.dirties ↔ h ∈ db.dirties := by
  rw [← lookup_isSome, hr.lookup, isSome_map, lookup_isSome]

theorem reparented_refl (db : Database) : Reparented db.parents db db := by
  refine ⟨fun a => ?_, rfl, rfl, rfl, rfl, rfl⟩
  cases hn : db.dirties.lookup a with
  | none => rfl
  | some n => simp [parents, hn]

theorem reparented_addParent (db : Database) (c : Hash) :
    Reparented (fun a => if a = c then (db.parents a + 1) % 2 ^ 32 else db.parents a) db
      (db.addParent c) := by
  have hself := (reparented_refl db).lookup
  cases hn : db.dirties.lookup c with
  | none =>
    rw [addParent, hn]
    refine ⟨fun a => ?_, rfl, rfl, rfl, rfl, rfl⟩
    by_cases hac : a = c
    · rw [hac, hn]
      rfl
    · simpa only [if_neg hac] using hself a
  | some n =>
    rw [addParent_of_lookup hn]
    refine ⟨fun a => ?_, rfl, rfl, rfl, rfl, rfl⟩
    by_cases hac : a = c
    · subst hac
      rw [set]
      simp [parents, hn]
    rw [set, lookup_insert_of_ne _ hac]
    simpa only [if_neg hac] using hself a

theorem foldl_addParent (kids : List Hash) :
    ∀ {db : Database} {l pend : List Hash}, Wf rank db l pend → ∃ f,
      Wf rank (kids.foldl addParent db) l pend ∧ Reparented f db (kids.foldl addParent db) ∧
      ∀ a ∈ db.dirties, db.parents a + kids.count a < 2 ^ 32 →
        f a = db.parents a + kids.count a := by
  induction kids with
  | nil => exact fun hwf => ⟨_, hwf, reparented_refl _, fun a _ _ => by simp⟩
  | cons c kids ih =>
    intro db l pend hwf
    obtain ⟨f, hwf', hr, hf⟩ := ih (addParent_wf hwf c)
    have hc := reparented_addParent db c
    refine ⟨f, hwf', ⟨fun a => ?_, hr.disk.trans hc.disk, hr.oldest.trans hc.oldest,
      hr.newest.trans hc.newest, hr.dirtiesSize.trans hc.dirtiesSize,
      hr.childrenSize.trans hc.childrenSize⟩, fun a hmem ha => ?_⟩
    · rw [foldl_cons, hr.lookup, hc.lookup, Option.map_map]
      rfl
    have hp := hc.parents hmem
    rw [count_cons] at ha ⊢
    by_cases hac : a = c
    · simp only [hac, BEq.rfl, if_true] at ha hp ⊢
      rw [hac] at hmem
      rw [hf c (hc.mem.2 hmem) (by omega)]
      omega
    have hbeq : (c == a) = false := beq_eq_false_iff_ne.2 (.symm hac)
    simp only [hac, hbeq, if_false, Bool.false_eq_true, Nat.add_zero] at ha hp ⊢
    rw [hf a (hc.mem.2 hmem) (by rwa [hp]), hp]

theorem pushFlush_spec (hwf : Wf rank db l []) (hnot : h ∉ db.dirties)
    (hs : n.bare.Sound rank h) (hprev : n.flushPrev = db.newest) (hnext : n.flushNext = 0) :
    ∃ db', (db.set h n).pushFlush h = .ok db' ∧ Wf rank db' (l ++ [h]) [] ∧
      Same (db.set h n) db' := by
  have hnl : h ∉ l := fun hl => hnot ((hwf.mem h).2 (.inr (.inl hl)))
  have hne : ∀ a ∈ l, a ≠ h := fun a ha heq => hnl (heq ▸ ha)
  have h0 : h ≠ 0 := fun heq => hnot ((hwf.mem h).2 (.inl heq))
  have hnx := next_set db h n
  have hpv := prev_set db h n
  rw [hnext] at hnx
  rw [hprev] at hpv
  suffices ∃ db', (db.set h n).pushFlush h = .ok db' ∧ Same (db.set h n) db' ∧
      Linked 0 db'.next db'.prev db'.oldest db'.newest (l ++ [h]) by
    obtain ⟨db', hok, hsame, hl⟩ := this
    refine ⟨db', hok, ⟨hl, .nil, by simp, by simp, fun a => ?_, fun p m hp => ?_⟩, hsame⟩
    · rw [hsame.mem, Database.set, mem_insert, hwf.mem a]
      simp only [List.mem_append, List.mem_singleton, List.not_mem_nil, or_false]
      tauto
    rw [hsame.entry, entry_set] at hp
    split at hp
    · rename_i heq
      obtain rfl := some.inj hp
      exact heq ▸ hs
    · exact hwf.sound p m hp
  by_cases hl : l = []
  · subst hl
    have hold : db.oldest = 0 := hwf.linked.oldest_eq_iff.2 rfl
    refine ⟨_, if_pos hold, ⟨fun _ => rfl, rfl, rfl, rfl⟩, ?_⟩
    refine hwf.linked.push hnl h0 (fun a ha => nomatch ha) (fun hne => absurd rfl hne) ?_
      (fun a ha => nomatch ha) fun hne => absurd rfl hne
    exact (congrFun hnx h).trans (update_self ..)
  have hold : db.oldest ≠ 0 := fun heq => hl (hwf.linked.oldest_eq_iff.1 heq)
  obtain ⟨a, ha⟩ := isSome_iff_exists.1 (getLast?_isSome.2 hl)
  have hnew : db.newest ∈ l := hwf.linked.last a ha ▸ mem_of_getLast? ha
  have hmem : db.newest ∈ (db.set h n).dirties := by
    rw [set, mem_insert]
    exact .inr ((hwf.mem _).2 (.inr (.inl hnew)))
  obtain ⟨db₁, hok, hsame, hnx1, hpv1, ho, hnw⟩ := modify_flushNext (db.set h n) hmem h
  refine ⟨{ db₁ with newest := h }, (if_neg hold).trans (bind_eq_ok.2 ⟨db₁, hok, rfl⟩),
    ⟨hsame.entry, hsame.disk, hsame.dirtiesSize, hsame.childrenSize⟩, ?_⟩
  have ho' : db₁.oldest = if l = [] then h else db.oldest := ho.trans (if_neg hl).symm
  show Linked 0 db₁.next db₁.prev db₁.oldest h (l ++ [h])
  rw [ho', hnx1, hpv1, hnx, hpv]
  refine hwf.linked.push hnl h0 (fun b hb hbn => ?_) (fun _ => update_self ..) ?_
    (fun b hb => update_of_ne (hne b hb) _ _) fun _ => update_self ..
  · rw [update_of_ne hbn, update_of_ne (hne b hb)]
  · rw [update_of_ne (symm (hne _ hnew)), update_self]

theorem insert_spec (hwf : Wf rank db l []) (hnot : h ∉ db.dirties) {node : RawNode}
    (hs : ∀ c ∈ node.gatherChildren, c ≠ 0 ∧ rank c < rank h) (size : Nat) :
    ∃ (db' : Database) (f : Hash → Nat), db.insert h size node = .ok db' ∧
      Wf rank db' (l ++ [h]) [] ∧ db'.disk = db.disk ∧
      db'.dirtiesSize = db.dirtiesSize + ((32 + size % 2 ^ 16) % 2 ^ 16 : Nat) ∧
      db'.childrenSize = db.childrenSize ∧
      db'.entry h = some { node, size := size % 2 ^ 16 } ∧
      (∀ a, a ≠ h → db'.entry a = (db.entry a).map fun n => { n with parents := f a }) ∧
      ∀ a ∈ db.dirties, db.parents a + node.gatherChildren.count a < 2 ^ 32 →
        f a = db.parents a + node.gatherChildren.count a := by
  obtain ⟨f, hwf1, hr, hf⟩ := foldl_addParent node.gatherChildren hwf
  have h0 : h ≠ 0 := fun heq => hnot ((hwf.mem h).2 (.inl heq))
  obtain ⟨db₁, hok, hwf', hsame⟩ := pushFlush_spec (h := h)
    (n := { node, size := size % 2 ^ 16, flushPrev := db.newest }) hwf1
      (fun hh => hnot (hr.mem.1 hh))
    ⟨hs, (fun m hm => nomatch hm), fun heq => absurd heq h0⟩ hr.newest.symm rfl
  refine ⟨{ db₁ with dirtiesSize := db₁.dirtiesSize +
    ((32 + size % 2 ^ 16) % 2 ^ 16 : Nat) }, f, ?_,
    hwf'.of_dirties rfl rfl rfl, hsame.disk.trans hr.disk, ?_, ?_, ?_, ?_, hf⟩
  · rw [insert, lookup_eq_none.2 hnot]
    exact bind_eq_ok.2 ⟨db₁, hok, rfl⟩
  · rw [hsame.dirtiesSize]
    show (node.gatherChildren.foldl addParent db).dirtiesSize + _ = _
    rw [hr.dirtiesSize]
  · exact hsame.childrenSize.trans hr.childrenSize
  · refine (hsame.entry h).trans ?_
    rw [entry_set, if_pos rfl]
    rfl
  intro a ha
  refine (hsame.entry a).trans ?_
  rw [entry_set, if_neg ha, entry, hr.lookup, entry, Option.map_map, Option.map_map]
  rfl

/-! ## References -/

section Reference

variable {child parent : Hash} {nc np : CachedNode} {m : Counters}

theorem addReference_spec (hwf : Wf rank db l pend) (hc : db.dirties.lookup child = some nc)
    (hp : db.dirties.lookup parent = some np) (hch : np.children = some m) (h0 : child ≠ 0)
    (hnew : parent = 0 ∨ child ∉ m ∧ rank child < rank parent) :
    ∃ db', db.addReference child parent = .ok db' ∧ Wf rank db' l pend ∧ db'.disk = db.disk ∧
      db'.dirtiesSize = db.dirtiesSize ∧
      db'.childrenSize = db.childrenSize + (if (np.count child + 1) % 2 ^ 16 = 1 then 34 else 0) ∧
      ∀ a, db'.entry a = if a = parent then
          some { np.bare with children := some (m.insert child ((np.count child + 1) % 2 ^ 16)) }
        else if a = child then some { nc.bare with parents := (nc.parents + 1) % 2 ^ 32 }
        else db.entry a := by
  have hne : parent ≠ child := by
    rcases hnew with rfl | ⟨-, hrank⟩
    · exact .symm h0
    rintro rfl
    exact absurd hrank (lt_irrefl _)
  have hwf1 := addParent_wf hwf child
  have hs := hwf.sound_of_lookup hp
  rw [addParent_of_lookup hc] at hwf1
  have hp1 : (db.set child { nc with parents := (nc.parents + 1) % 2 ^ 32 }).dirties.lookup parent =
      some np := (lookup_insert_of_ne _ hne).trans hp
  obtain ⟨k, hk⟩ : ∃ k, k = (np.count child + 1) % 2 ^ 16 := ⟨_, rfl⟩
  have hs' : CachedNode.Sound rank parent { np.bare with children := some (m.insert child k) } := by
    refine ⟨hs.kids, ?_, fun hz => ⟨(hs.metaroot hz).1, by simp⟩⟩
    intro m' hm' c k' hk'
    obtain rfl : m.insert child k = m' := some.inj hm'
    by_cases hcc : c = child
    · subst hcc
      refine ⟨h0, hnew.imp id fun ⟨hnot, hrank⟩ => ⟨?_, hrank⟩⟩
      rw [lookup_insert] at hk'
      rw [← some.inj hk', hk, CachedNode.count_of_children hch, lookup_eq_none.2 hnot]
      rfl
    rw [lookup_insert_of_ne _ hcc] at hk'
    exact hs.ext m hch c k' hk'
  have hwf2 := hwf1.set hp1 (show CachedNode.Sound rank parent
    (.bare { np with children := some (m.insert child k) }) from hs') rfl rfl
  obtain ⟨db2, hdb2⟩ : ∃ db2, db2 =
      (db.set child { nc with parents := (nc.parents + 1) % 2 ^ 32 }).set parent
        { np with children := some (m.insert child k) } := ⟨_, rfl⟩
  rw [← hdb2] at hwf2
  rw [← hk]
  refine ⟨{ db2 with childrenSize := db2.childrenSize + if k = 1 then 34 else 0 }, ?_,
    hwf2.of_dirties rfl rfl rfl, ?_, ?_, ?_, fun a => ?_⟩
  · unfold addReference
    rw [addParent_of_lookup hc]
    simp only [hp1, hch, ← CachedNode.count_of_children hch, ← hk, ← hdb2]
    split <;> simp
  · rw [hdb2]
    rfl
  · rw [hdb2]
    rfl
  · rw [hdb2]
    rfl
  · show db2.entry a = _
    rw [hdb2, entry_set, entry_set]
    rfl

theorem reference_spec (hwf : Wf rank db l pend) (hc : db.dirties.lookup child = some nc)
    (hp : db.dirties.lookup parent = some np) (h0 : child ≠ 0)
    (hrank : parent = 0 ∨ rank child < rank parent) :
    (parent ≠ 0 ∧ db.reference child parent = .ok db) ∨
    ∃ db', db.reference child parent = .ok db' ∧ Wf rank db' l pend ∧ db'.disk = db.disk ∧
      db'.dirtiesSize = db.dirtiesSize ∧
      db'.childrenSize = db.childrenSize + (if np.children.isSome then 0 else 48) +
        (if (np.count child + 1) % 2 ^ 16 = 1 then 34 else 0) ∧
      ∀ a, db'.entry a = if a = parent then
          some { np.bare with
            children := some ((np.children.getD ∅).insert child ((np.count child + 1) % 2 ^ 16)) }
        else if a = child then some { nc.bare with parents := (nc.parents + 1) % 2 ^ 32 }
        else db.entry a := by
  have hs := hwf.sound_of_lookup hp
  unfold reference
  simp only [hc, hp]
  cases hch : np.children with
  | none =>
    have hne : child ≠ parent := by
      rcases hrank with rfl | hrank
      · exact h0
      rintro rfl
      exact absurd hrank (lt_irrefl _)
    have hpar : parent ≠ 0 := fun hz => (hs.metaroot hz).2 hch
    have hcount : np.count child = 0 := by
      rw [CachedNode.count, hch]
      rfl
    have hwf1 : Wf rank (db.set parent { np with children := some ∅ }) l pend := by
      refine hwf.set hp ⟨hs.kids, ?_, fun hz => absurd hz hpar⟩ rfl rfl
      intro m hm c k hk
      obtain rfl : ∅ = m := some.inj hm
      simp at hk
    have hwf0 : Wf rank { db.set parent { np with children := some ∅ } with
        childrenSize := db.childrenSize + 48 } l pend := hwf1.of_dirties rfl rfl rfl
    obtain ⟨db', hok, hwf', hdisk, hsize, hcsize, hent⟩ := addReference_spec hwf0
      ((lookup_insert_of_ne _ hne).trans hc) (lookup_insert _) rfl h0
      (.inr ⟨notMem_empty, hrank.resolve_left hpar⟩)
    refine .inr ⟨db', hok, hwf', hdisk, hsize, ?_, fun a => ?_⟩
    · rw [hcsize]
      simp [CachedNode.count, hch]
    rw [hent a, hcount]
    split
    · rfl
    rename_i hap
    refine ite_congr rfl (fun _ => rfl) fun _ => ?_
    exact (entry_set a).trans (if_neg hap)
  | some m =>
    by_cases hold : child ∈ m ∧ parent ≠ 0
    · exact .inl ⟨hold.2, if_pos hold⟩
    have hnew : parent = 0 ∨ child ∉ m ∧ rank child < rank parent := by
      by_cases hz : parent = 0
      · exact .inl hz
      · exact .inr ⟨fun hm => hold ⟨hm, hz⟩, hrank.resolve_left hz⟩
    obtain ⟨db', hok, hwf', hdisk, hsize, hcsize, hent⟩ :=
      addReference_spec hwf hc hp hch h0 hnew
    refine .inr ⟨db', (if_neg hold).trans hok, hwf', hdisk, hsize, ?_, hent⟩
    rw [hcsize]
    simp

end Reference

/-! ## The start -/

theorem new_wf (rank : Hash → Nat) (disk : Finmap fun _ : Hash => RawNode) :
    Wf rank (new disk) [] [] := by
  have hlookup : ∀ h n, (new disk).dirties.lookup h = some n →
      h = 0 ∧ n = { node := .nil, size := 0, children := some ∅ } := by
    intro h n hn
    by_cases h0 : h = 0
    · subst h0
      exact ⟨rfl, (some.inj ((lookup_insert _).symm.trans hn)).symm⟩
    · rw [new, lookup_insert_of_ne _ h0] at hn
      simp at hn
  refine ⟨linked_nil 0, .nil, by simp, by simp, fun h => ?_, fun p n hp => ?_⟩
  · rw [new]
    simp [notMem_empty]
  obtain ⟨n', hn', rfl⟩ := lookup_of_entry hp
  obtain ⟨rfl, rfl⟩ := hlookup p n' hn'
  refine ⟨fun c hc => absurd hc (by simp [CachedNode.bare, RawNode.gatherChildren]), ?_,
    fun _ => ⟨rfl, by simp [CachedNode.bare]⟩⟩
  intro m hm c k hk
  obtain rfl : ∅ = m := some.inj hm
  simp at hk

end Database

end Virbicoin.Mpt
