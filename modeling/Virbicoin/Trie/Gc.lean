import Virbicoin.Trie.Flush

/-!
# Garbage collection keeps live data

A cached node that is not on disk has at least as many parents as there are references to it from
cached entries (`Guarded.counted`). When the last reference to an entry is given up the entry
becomes pending: its own references count no more and are owed instead. Children are inserted before
their parents, so `Cap` writes no node whose children stay behind (`Guarded.order`).

The operations are restricted where the code relies on its callers. A root that is given up has a
positive counter, or is not cached any more, or is on disk; and the `uint32` numbers of parents do
not overflow.
-/

namespace Virbicoin.Mpt

open Virbicoin.Lib Finmap List

def CachedNode.refs (n : CachedNode) (h : Hash) : Nat :=
  n.count h + n.node.gatherChildren.count h

theorem CachedNode.Sound.count_childs {rank : Hash → Nat} {p : Hash} {n : CachedNode}
    (hs : n.Sound rank p) (hp : p ≠ 0) (ord : MapOrder) (h : Hash) :
    (n.childs ord p).count h = n.refs h := by
  unfold CachedNode.childs CachedNode.refs
  rw [count_append]
  congr 1
  unfold count
  cases hch : n.children with
  | none => rfl
  | some m =>
    cases hk : m.lookup h with
    | none =>
      have hnot : h ∉ ord.order p m := fun hh =>
        lookup_eq_none.1 hk ((ord.mem_iff p m h).1 hh)
      simp [count_eq_zero.2 hnot, hk]
    | some k =>
      have hin := (ord.mem_iff p m h).2 (mem_of_lookup_eq_some hk)
      rcases (hs.ext m hch h k hk).2 with hz | ⟨rfl, -⟩
      · exact absurd hz hp
      · simp [count_eq_one_of_mem (ord.nodup p m) hin, hk]

namespace Database

variable {db db' : Database} {rank : Hash → Nat} {l l' pend owed : List Hash} {h c p : Hash}
  {n : CachedNode}

def refsOf (pend : List Hash) (h p : Hash) (n : CachedNode) : Nat :=
  if p ∈ pend then 0 else n.refs h

/-- The references to a hash from cached entries that are not pending. -/
def live (db : Database) (pend : List Hash) (h : Hash) : Nat := total (refsOf pend h) db.dirties

def kids (db : Database) (h : Hash) : List Hash :=
  ((db.entry h).map fun n => n.node.gatherChildren).getD []

structure Guarded (db : Database) (l pend owed : List Hash) : Prop where
  counted : ∀ h ∈ l, h ∉ db.disk → db.live pend h + owed.count h ≤ db.parents h
  dead : ∀ h, h ∉ l → h ∉ db.disk → db.live pend h = 0
  order : l.Pairwise fun a b => b ∈ db.kids a → b ∈ db.disk
  closed : ∀ h n, db.disk.lookup h = some n → ∀ c ∈ n.gatherChildren, c ∈ db.disk

theorem valueAt_refsOf (a : Hash) : valueAt (refsOf pend h) db.dirties a =
      if a ∈ pend then 0 else ((db.entry a).map fun n => n.refs h).getD 0 := by
  rw [valueAt_entry fun _ _ => rfl]
  cases db.entry a with
  | none => simp
  | some n => rfl

theorem parents_eq : db.parents h = ((db.entry h).map CachedNode.parents).getD 0 := by
  rw [entry, Option.map_map]
  rfl

theorem refs_le_live (hn : db.entry p = some n) (hp : p ∉ pend) (h : Hash) :
    n.refs h ≤ db.live pend h := by
  have hle := valueAt_le_total (f := refsOf pend h) (m := db.dirties) (fun _ _ => Nat.zero_le _) p
  rwa [valueAt_refsOf, if_neg hp, hn] at hle

/-! ## Giving up references -/

theorem Guarded.transfer (hg : Guarded db l pend owed) {pend' owed' : List Hash}
    (hent : ∀ a ∈ l, db'.entry a = db.entry a) (hdisk : db'.disk = db.disk)
    (hcounted : ∀ h ∈ l, h ∉ db.disk →
      db'.live pend' h + owed'.count h ≤ db.live pend h + owed.count h)
    (hdead : ∀ h, db'.live pend' h ≤ db.live pend h) : Guarded db' l pend' owed' := by
  refine ⟨fun h hl hd => ?_, fun h hl hd => ?_, ?_, ?_⟩
  · rw [hdisk] at hd
    rw [parents_eq, hent h hl, ← parents_eq]
    exact (hcounted h hl hd).trans (hg.counted h hl hd)
  · rw [hdisk] at hd
    exact Nat.le_zero.1 (hg.dead h hl hd ▸ hdead h)
  · refine hg.order.imp_of_mem fun {a b} ha _ hab => ?_
    rw [kids, hent a ha, hdisk]
    exact hab
  · rw [hdisk]
    exact hg.closed

theorem Guarded.same (hg : Guarded db l pend owed) (hsame : Same db db') :
    Guarded db' l pend owed := by
  have hlive : ∀ h, db'.live pend h = db.live pend h := fun h => total_congr fun a => by
    rw [valueAt_refsOf, valueAt_refsOf, hsame.entry]
  exact hg.transfer (fun a _ => hsame.entry a) hsame.disk (fun h _ _ => by rw [hlive])
    fun h => (hlive h).le

theorem Guarded.gone (hwf : Wf rank db l pend) (hg : Guarded db l pend (c :: owed))
    (hc : c ∉ db.dirties) : Guarded db l pend owed := by
  refine hg.transfer (fun _ _ => rfl) rfl (fun h hl _ => ?_) fun h => le_rfl
  have hne : c ≠ h := fun heq => hc ((hwf.mem c).2 (.inr (.inl (heq ▸ hl))))
  rw [count_cons_of_ne hne]

theorem live_set_parents (hn : db.dirties.lookup c = some n) (k : Nat) :
    (db.set c { n with parents := k }).live pend h = db.live pend h := by
  refine total_congr fun a => ?_
  rw [valueAt_refsOf, valueAt_refsOf, entry_set]
  by_cases hac : a = c
  · rw [if_pos hac, hac, entry_of_lookup hn]
    rfl
  · rw [if_neg hac]

theorem kids_set (hn : db.dirties.lookup c = some n) (n' : CachedNode) (hnode : n'.node = n.node)
    (a : Hash) : (db.set c n').kids a = db.kids a := by
  rw [kids, kids, entry_set]
  split
  · rename_i hac
    rw [hac, entry_of_lookup hn]
    show n'.node.gatherChildren = n.node.gatherChildren
    rw [hnode]
  · rfl

theorem parents_set {a : Hash} :
    (db.set c n).parents a = if a = c then n.parents else db.parents a := by
  rw [parents_eq, entry_set, parents_eq]
  split <;> rfl

theorem parents_of_lookup (hn : db.dirties.lookup c = some n) : db.parents c = n.parents := by
  rw [parents, hn]
  rfl

theorem Guarded.keep (hg : Guarded db l pend (c :: owed)) (hn : db.dirties.lookup c = some n) :
    Guarded (db.set c { n with parents := n.parents - 1 }) l pend owed := by
  refine ⟨fun h hl hd => ?_, fun h hl hd => ?_, ?_, hg.closed⟩
  · have hcount := hg.counted h hl hd
    rw [live_set_parents hn, parents_set]
    split
    · rename_i heq
      subst heq
      rw [count_cons_self, parents_of_lookup hn] at hcount
      show _ ≤ n.parents - 1
      omega
    rename_i hne
    rwa [count_cons_of_ne (symm hne)] at hcount
  · rw [live_set_parents hn]
    exact hg.dead h hl hd
  simp only [kids_set hn { n with parents := n.parents - 1 } rfl]
  exact hg.order

theorem Guarded.enter (hwf : Wf rank db l pend) (hg : Guarded db l pend (c :: owed))
    (hn : db.dirties.lookup c = some n) (hc : c ∈ l) (hzero : n.parents - 1 = 0) (ord : MapOrder) :
    Guarded (db.set c { n with parents := n.parents - 1 }) (l.erase c) (c :: pend)
      (n.childs ord c ++ owed) := by
  have hcp : c ∉ pend := fun hp => hwf.disjoint c hp hc
  have hc0 : c ≠ 0 := fun heq => hwf.linked.not_mem (heq ▸ hc)
  have hmem : ∀ {a}, a ∈ l.erase c ↔ a ≠ c ∧ a ∈ l := hwf.linked.nodup.mem_erase_iff
  -- the references of the entry are taken away
  have hlive : ∀ h, (db.set c { n with parents := n.parents - 1 }).live (c :: pend) h + n.refs h =
      db.live pend h := by
    intro h
    have hsum : total (refsOf (c :: pend) h)
          (db.set c { n with parents := n.parents - 1 }).dirties +
        valueAt (refsOf pend h) db.dirties c = total (refsOf pend h) db.dirties +
        valueAt (refsOf (c :: pend) h) (db.set c
          { n with parents := n.parents - 1 }).dirties c := by
      refine total_add_valueAt c fun a ha => ?_
      rw [valueAt_refsOf, valueAt_refsOf, entry_set]
      simp [ha]
    rw [valueAt_refsOf, valueAt_refsOf, if_neg hcp, if_pos (by simp), entry_of_lookup hn] at hsum
    exact hsum
  have hcount : ∀ h, (n.childs ord c).count h = n.refs h := fun h =>
    (hwf.sound_of_lookup hn).count_childs hc0 ord h
  refine ⟨fun h hl hd => ?_, fun h hl hd => ?_, ?_, hg.closed⟩
  · obtain ⟨hne, hl⟩ := hmem.1 hl
    have hold := hg.counted h hl hd
    rw [count_cons_of_ne hne.symm] at hold
    rw [parents_set, if_neg hne, count_append, hcount]
    have := hlive h
    omega
  · have hle := hlive h
    by_cases hhc : h = c
    · -- nothing else refers to the entry
      subst hhc
      have hold := hg.counted h hc hd
      rw [count_cons_self, parents_of_lookup hn] at hold
      omega
    have hold := hg.dead h (fun hin => hl (hmem.2 ⟨hhc, hin⟩)) hd
    omega
  simp only [kids_set hn { n with parents := n.parents - 1 } rfl]
  exact hg.order.sublist erase_sublist

theorem Guarded.drop (hwf : Wf rank db l pend) (hg : Guarded db l pend owed) (hp : p ∈ pend)
    (hok : db.dropChild c p = .ok db') : Guarded db' l pend owed := by
  obtain ⟨n, hn⟩ := mem_iff.1 ((hwf.mem p).2 (.inr (.inr hp)))
  obtain ⟨db1, n1, hok1, -, hn1, hother, -, heq, -, hdisk⟩ := dropChild_spec hwf hn
  obtain rfl := Except.ok.inj (hok1.symm.trans hok)
  have hent : ∀ a, a ≠ p → db1.entry a = db.entry a := fun a ha => by rw [entry, hother a ha, entry]
  have hne : ∀ a ∈ l, a ≠ p := fun a ha hap => hwf.disjoint p hp (hap ▸ ha)
  have hlive : ∀ h, db1.live pend h = db.live pend h := fun h => total_congr fun a => by
    rw [valueAt_refsOf, valueAt_refsOf]
    by_cases hap : a = p
    · rw [if_pos (hap ▸ hp), if_pos (hap ▸ hp)]
    · rw [hent a hap]
  exact hg.transfer (fun a ha => hent a (hne a ha)) hdisk (fun h _ _ => by rw [hlive])
    fun h => (hlive h).le

theorem Guarded.leave (hwf : Wf rank db l (c :: pend)) (hg : Guarded db l (c :: pend) owed)
    (n : CachedNode) : Guarded (db.forget c n) l pend owed := by
  have hent : ∀ a, (db.forget c n).entry a = if a = c then none else db.entry a := entry_erase rfl
  have hne : ∀ a ∈ l, a ≠ c := fun a ha hac => hwf.disjoint c (by simp) (hac ▸ ha)
  have hlive : ∀ h, (db.forget c n).live pend h = db.live (c :: pend) h := fun h =>
    total_congr fun a => by
      rw [valueAt_refsOf, valueAt_refsOf, hent]
      by_cases hac : a = c
      · simp [hac]
      · simp [hac]
  exact hg.transfer (fun a ha => by rw [hent, if_neg (hne a ha)]) rfl
    (fun h _ _ => by rw [hlive]) fun h => (hlive h).le

theorem released_guarded (ord : MapOrder) : Released ord rank Guarded where
  same hg hsame := hg.same hsame
  gone hwf hg hc := hg.gone hwf hc
  keep _ hg hn _ _ := hg.keep hn
  enter hwf hg hn hc hzero := hg.enter hwf hn hc hzero ord
  drop hwf hg hp hok := hg.drop hwf hp hok
  leave hwf hg _ _ := hg.leave hwf _

def metaCount (db : Database) (h : Hash) : Nat :=
  ((db.dirties.lookup 0).map fun n => n.count h).getD 0

section

variable (hwf : Wf rank db l [])
include hwf

variable (hg : Guarded db l [] [])
include hg

theorem dereferenceRoot_guarded (ord : MapOrder) {fuel : Nat} (hfuel : ∀ h, rank h < fuel)
    {root : Hash} (hroot : root ∈ db.dirties → root ∉ db.disk → 0 < db.metaCount root) :
    ∃ db' l', dereferenceRoot ord fuel db root = .ok db' ∧ Wf rank db' l' [] ∧
      Guarded db' l' [] [] := by
  refine dereferenceRoot_spec (released_guarded ord) hfuel hwf root hg ?_
  intro db1 h0 hok
  obtain ⟨n, hn, hnode⟩ := hwf.lookup_zero
  obtain ⟨db2, n2, hok2, -, hn2, hother, hcount, heq, -, hdisk⟩ := dropChild_spec hwf hn
  obtain rfl := Except.ok.inj (hok2.symm.trans hok)
  have hent : ∀ a, a ≠ 0 → db2.entry a = db.entry a := fun a ha => by rw [entry, hother a ha, entry]
  have hne : ∀ a ∈ l, a ≠ 0 := fun a ha hz => hwf.linked.not_mem (hz ▸ ha)
  have hnode2 : n2.node = n.node := by rw [heq]
  have hlive : ∀ h, db2.live [] h + n.count h = db.live [] h + n2.count h := by
    intro h
    have hsum : total (refsOf [] h) db2.dirties + valueAt (refsOf [] h) db.dirties 0 =
        total (refsOf [] h) db.dirties + valueAt (refsOf [] h) db2.dirties 0 := by
      refine total_add_valueAt 0 fun a ha => ?_
      rw [valueAt_refsOf, valueAt_refsOf, hent a ha]
    rw [valueAt_of_lookup _ hn, valueAt_of_lookup _ hn2] at hsum
    simp only [refsOf, not_mem_nil, if_false, CachedNode.refs, hnode2, hnode,
      RawNode.gatherChildren, count_nil, Nat.add_zero] at hsum
    exact hsum
  refine hg.transfer (fun a ha => hent a (hne a ha)) hdisk (fun h hl hd => ?_) fun h => ?_
  · have hcnt := hcount h
    have := hlive h
    by_cases hhr : h = root
    · subst hhr
      have hpos := hroot ((hwf.mem h).2 (.inr (.inl hl))) hd
      rw [metaCount, hn] at hpos
      simp only [Option.map_some, Option.getD_some] at hpos
      rw [if_pos rfl] at hcnt
      rw [count_singleton_self]
      omega
    rw [count_cons_of_ne (symm hhr)]
    omega
  have hcnt := hcount h
  have := hlive h
  omega

/-! ## Writing to disk -/

omit hwf in
theorem Guarded.retrievable (hn : db.entry p = some n) (hc : n.refs c ≠ 0) :
    c ∈ l ∨ c ∈ db.disk := by
  by_contra hnot
  rw [not_or] at hnot
  have hdead := hg.dead c hnot.1 hnot.2
  have hle := refs_le_live hn not_mem_nil c
  omega

omit hwf in
omit hg in
theorem refs_ne_zero (hc : c ∈ n.node.gatherChildren) : n.refs c ≠ 0 := by
  have := count_pos_iff.2 hc
  unfold CachedNode.refs
  omega

theorem Guarded.flushed {done : List Hash} (hf : Flushed db l db' l' done)
    (hdone : ∀ a ∈ done, ∀ c ∈ db.kids a, c ∈ db.disk ∨ c ∈ done) : Guarded db' l' [] [] := by
  have hdisk : ∀ a, a ∈ db'.disk ↔ a ∈ done ∨ a ∈ db.disk := by
    intro a
    rw [← lookup_isSome, hf.disk]
    split
    · rename_i ha
      have hin : (db.entry a).isSome :=
        mem_iff_entry.1 ((hwf.mem a).2 (.inr (.inl (hf.done_mem a ha))))
      simp [ha, hin]
    rename_i ha
    rw [lookup_isSome, or_iff_right ha]
  have hent : ∀ a, a ∉ done → db'.entry a = db.entry a := fun a ha => by rw [hf.entry, if_neg ha]
  have hlive : ∀ h, db'.live [] h ≤ db.live [] h := fun h => total_le fun a => by
    rw [valueAt_refsOf, valueAt_refsOf, hf.entry]
    by_cases ha : a ∈ done
    · simp [ha]
    · simp [ha]
  refine ⟨fun h hl hd => ?_, fun h hl hd => ?_, ?_, ?_⟩
  · obtain ⟨hl, hnot⟩ := (hf.mem_iff h).1 hl
    rw [hdisk, not_or] at hd
    rw [parents_eq, hent h hnot, ← parents_eq]
    exact (Nat.add_le_add_right (hlive h) _).trans (hg.counted h hl hd.2)
  · rw [hdisk, not_or] at hd
    have hnl : h ∉ l := fun hin => hl ((hf.mem_iff h).2 ⟨hin, hd.1⟩)
    exact Nat.le_zero.1 (hg.dead h hnl hd.2 ▸ hlive h)
  · refine (hg.order.sublist hf.sublist).imp_of_mem fun {a b} ha _ hab hkid => ?_
    rw [kids, hent a ((hf.mem_iff a).1 ha).2] at hkid
    exact (hdisk b).2 (.inr (hab hkid))
  intro h node hnode c hc
  rw [hf.disk] at hnode
  rw [hdisk]
  split at hnode
  · rename_i hh
    obtain ⟨n, hn, rfl⟩ := Option.map_eq_some_iff.1 hnode
    refine (hdone h hh c ?_).symm
    rw [kids, hn]
    exact hc
  · exact .inr (hg.closed h node hnode c hc)

omit hwf in
omit hg in
theorem refs_of_kids (hc : c ∈ db.kids p) :
    ∃ n, db.entry p = some n ∧ c ∈ n.node.gatherChildren := by
  unfold kids at hc
  cases hn : db.entry p with
  | none => simp [hn] at hc
  | some n => exact ⟨n, rfl, by simpa [hn] using hc⟩

theorem cap_guarded (limit : Int) :
    ∃ db' l', db.cap limit = .ok db' ∧ Wf rank db' l' [] ∧ Guarded db' l' [] [] := by
  obtain ⟨db', l3, l4, hok, rfl, hwf', hf, -, -⟩ := cap_spec hwf limit
  refine ⟨db', l4, hok, hwf', hg.flushed hwf hf fun a ha c hc => ?_⟩
  obtain ⟨n, hn, hkid⟩ := refs_of_kids hc
  rcases hg.retrievable hn (refs_ne_zero hkid) with hl | hd
  · rcases mem_append.1 hl with h3 | h4
    · exact .inr h3
    -- the child comes after its parent in the flush list
    exact .inl ((pairwise_append.1 hg.order).2.2 a ha c h4 hc)
  · exact .inl hd

theorem commitRoot_guarded (ord : MapOrder) {fuel : Nat} (hfuel : ∀ h, rank h < fuel) {root : Hash}
    (h0 : root ≠ 0) :
    ∃ db' l', db.commitRoot ord fuel root = .ok db' ∧ Wf rank db' l' [] ∧ Guarded db' l' [] [] := by
  obtain ⟨db', l', done, hok, hc, -⟩ := commitRoot_spec hwf ord hfuel h0
  refine ⟨db', l', hok, hc.wf, hg.flushed hwf hc.flushed fun a ha c hkid => ?_⟩
  obtain ⟨n, hn, hkid⟩ := refs_of_kids hkid
  rcases hg.retrievable hn (refs_ne_zero hkid) with hl | hd
  · have hin := hc.closed a (by simpa using ha) n hn c (mem_append_right _ hkid)
      ((hwf.mem c).2 (.inr (.inl hl)))
    exact .inr (by simpa using hin)
  · exact .inl hd

/-! ## Inserting and referencing -/

theorem insert_guarded {node : RawNode}
    (hs : ∀ c ∈ node.gatherChildren, c ≠ 0 ∧ rank c < rank h ∧ db.Retrievable c)
    (hover : ∀ c ∈ db.dirties, db.parents c + node.gatherChildren.count c < 2 ^ 32) (size : Nat) :
    ∃ db' l', db.insert h size node = .ok db' ∧ Wf rank db' l' [] ∧ Guarded db' l' [] [] := by
  by_cases hmem : h ∈ db.dirties
  · obtain ⟨n, hn⟩ := mem_iff.1 hmem
    exact ⟨db, l, by rw [insert, hn], hwf, hg⟩
  obtain ⟨db', f, hok, hwf', hdisk, -, -, hent, hother, hf⟩ :=
    insert_spec hwf hmem (fun c hc => ⟨(hs c hc).1, (hs c hc).2.1⟩) size
  refine ⟨db', _, hok, hwf', ?_⟩
  have hnl : h ∉ l := fun hl => hmem ((hwf.mem h).2 (.inr (.inl hl)))
  have hne : ∀ a ∈ l, a ≠ h := fun a ha heq => hnl (heq ▸ ha)
  have hkidh : h ∉ node.gatherChildren := fun hin => absurd (hs h hin).2.1 (lt_irrefl _)
  have hlive : ∀ a, db'.live [] a = db.live [] a + node.gatherChildren.count a := by
    intro a
    have hsum := (sameButParents_of_inserted hother).total (f := refsOf [] a) fun _ _ => rfl
    rw [valueAt_of_not_mem _ hmem, valueAt_refsOf, hent] at hsum
    rw [live, live]
    simpa [CachedNode.refs, CachedNode.count] using hsum
  have hparents : ∀ a ∈ l, db'.parents a = db.parents a + node.gatherChildren.count a := by
    intro a ha
    have hin : a ∈ db.dirties := (hwf.mem a).2 (.inr (.inl ha))
    obtain ⟨n, hn⟩ := Option.isSome_iff_exists.1 (mem_iff_entry.1 hin)
    rw [parents_eq, hother a (hne a ha), hn]
    exact hf a hin (hover a hin)
  have hkids : ∀ a ∈ l, db'.kids a = db.kids a := fun a ha => by
    rw [kids, hother a (hne a ha), Option.map_map]
    rfl
  -- nothing refers to the new node yet, unless it is on disk
  have hnew : h ∉ db.disk → db'.live [] h = 0 := fun hd => by
    rw [hlive, hg.dead h hnl hd, count_eq_zero.2 hkidh]
  refine ⟨fun a ha hd => ?_, fun a ha hd => ?_, ?_, ?_⟩
  · rw [hdisk] at hd
    rcases mem_append.1 ha with ha | ha
    · have := hg.counted a ha hd
      rw [hlive, hparents a ha]
      omega
    obtain rfl := mem_singleton.1 ha
    rw [hnew hd]
    exact Nat.zero_le _
  · rw [hdisk] at hd
    rw [mem_append, not_or] at ha
    have hnot : a ∉ node.gatherChildren := by
      intro hin
      obtain ⟨ha0, -, hret⟩ := hs a hin
      rcases hret with hin' | hin'
      · rcases (hwf.mem a).1 hin' with hz | hl | hp
        · exact ha0 hz
        · exact ha.1 hl
        · cases hp
      · exact hd hin'
    rw [hlive, hg.dead a ha.1 hd, count_eq_zero.2 hnot]
  · rw [pairwise_append, hdisk]
    refine ⟨?_, by simp, ?_⟩
    · refine hg.order.imp_of_mem fun {a b} ha _ hab => ?_
      rwa [hkids a ha]
    intro a ha b hb hkid
    obtain rfl := mem_singleton.1 hb
    rw [hkids a ha] at hkid
    obtain ⟨n, hn, hkid⟩ := refs_of_kids hkid
    exact (hg.retrievable hn (refs_ne_zero hkid)).resolve_left hnl
  · rw [hdisk]
    exact hg.closed

omit hwf in
omit hg in
theorem refs_referenced (np : CachedNode) (child a : Hash) : CachedNode.refs { np.bare with
      children := some ((np.children.getD ∅).insert child ((np.count child + 1) % 2 ^ 16)) } a ≤
      np.refs a + if a = child then 1 else 0 := by
  have hcount : CachedNode.count { np.bare with
        children := some ((np.children.getD ∅).insert child ((np.count child + 1) % 2 ^ 16)) } a ≤
      np.count a + if a = child then 1 else 0 := by
    rw [CachedNode.count_of_children rfl]
    by_cases hac : a = child
    · subst hac
      rw [lookup_insert, if_pos rfl]
      exact Nat.mod_le _ _
    rw [lookup_insert_of_ne _ hac, CachedNode.count]
    cases np.children <;> simp
  unfold CachedNode.refs
  have hnode : np.bare.node = np.node := rfl
  rw [hnode]
  omega

theorem reference_guarded {child parent : Hash} (h0 : child ≠ 0)
    (hparent : child ∈ db.dirties → parent ∈ db.dirties)
    (hrank : parent = 0 ∨ rank child < rank parent) (hover : db.parents child + 1 < 2 ^ 32) :
    ∃ db' l', db.reference child parent = .ok db' ∧ Wf rank db' l' [] ∧ Guarded db' l' [] [] := by
  cases hc : db.dirties.lookup child with
  | none => exact ⟨db, l, by rw [reference, hc], hwf, hg⟩
  | some nc =>
    have hmem := mem_of_lookup_eq_some hc
    obtain ⟨np, hp⟩ := mem_iff.1 (hparent hmem)
    rcases reference_spec hwf hc hp h0 hrank with ⟨-, hok⟩ | ⟨db', hok, hwf', hdisk, -, -, hent⟩
    · exact ⟨db, l, hok, hwf, hg⟩
    refine ⟨db', l, hok, hwf', ?_⟩
    have hne : child ≠ parent := by
      rcases hrank with rfl | hrank
      · exact h0
      rintro rfl
      exact absurd hrank (lt_irrefl _)
    -- one reference more at most
    have hlive : ∀ a, db'.live [] a ≤ db.live [] a + if a = child then 1 else 0 := by
      intro a
      have hsum := (sameButParents_of_referenced hc hent).total (f := refsOf [] a) fun _ _ => rfl
      have hrefs := refs_referenced np child a
      rw [valueAt_refsOf, valueAt_refsOf, hent parent, if_pos rfl, entry_of_lookup hp] at hsum
      have hsum' := hsum.trans_le (Nat.add_le_add_left hrefs _)
      have hbare : ((some np.bare).map fun n => n.refs a).getD 0 = np.refs a := rfl
      rw [if_neg not_mem_nil] at hsum'
      rw [live, live]
      omega
    have hparents : ∀ a, db'.parents a = db.parents a + if a = child then 1 else 0 := by
      intro a
      rw [parents_eq, hent a, parents_eq]
      by_cases hac : a = child
      · subst hac
        rw [parents_of_lookup hc] at hover
        rw [if_neg hne, if_pos rfl, if_pos rfl, entry_of_lookup hc]
        exact Nat.mod_eq_of_lt hover
      split
      · rename_i hap
        rw [hap, entry_of_lookup hp]
        rfl
      · rfl
    have hkids : ∀ a, db'.kids a = db.kids a := by
      intro a
      rw [kids, kids, hent a]
      split
      · rename_i hap
        rw [hap, entry_of_lookup hp]
        rfl
      split
      · rename_i hac
        rw [hac, entry_of_lookup hc]
        rfl
      · rfl
    refine ⟨fun a ha hd => ?_, fun a ha hd => ?_, ?_, ?_⟩
    · have hold := hg.counted a ha (hdisk ▸ hd)
      have hle := hlive a
      rw [hparents]
      omega
    · have hold := hg.dead a ha (hdisk ▸ hd)
      have hle := hlive a
      have hac : a ≠ child := by
        rintro rfl
        rcases (hwf.mem a).1 hmem with hz | hl | hp
        · exact h0 hz
        · exact ha hl
        · cases hp
      rw [if_neg hac] at hle
      omega
    · simp only [hkids, hdisk]
      exact hg.order
    · rw [hdisk]
      exact hg.closed

/-! ## Runs -/

/-- The operations that garbage collection is safe for. -/
def Admissible (rank : Hash → Nat) (db : Database) : Op → Prop
  | .insert hash _ node =>
    (∀ c ∈ node.gatherChildren, c ≠ 0 ∧ rank c < rank hash ∧ db.Retrievable c) ∧
    ∀ c ∈ db.dirties, db.parents c + node.gatherChildren.count c < 2 ^ 32
  | .reference child parent => child ≠ 0 ∧ (child ∈ db.dirties → parent ∈ db.dirties) ∧
    (parent = 0 ∨ rank child < rank parent) ∧ db.parents child + 1 < 2 ^ 32
  | .dereference root => root ∈ db.dirties → root ∉ db.disk → 0 < db.metaCount root
  | .cap _ => True
  | .commit node => node ≠ 0

def AdmissibleRun (rank : Hash → Nat) (fuel : Nat) : Database → List (MapOrder × Op) → Prop
  | _, [] => True
  | db, op :: ops => Admissible rank db op.2 ∧
    ∀ db', step fuel db op = .ok db' → AdmissibleRun rank fuel db' ops

theorem step_guarded {fuel : Nat} (hfuel : ∀ h, rank h < fuel) {op : MapOrder × Op}
    (hop : Admissible rank db op.2) :
    ∃ db' l', step fuel db op = .ok db' ∧ Wf rank db' l' [] ∧ Guarded db' l' [] [] := by
  obtain ⟨ord, op⟩ := op
  cases op with
  | insert hash size node => exact insert_guarded hwf hg hop.1 hop.2 size
  | reference child parent =>
    obtain ⟨h0, hparent, hrank, hover⟩ := hop
    exact reference_guarded hwf hg h0 hparent hrank hover
  | dereference root => exact dereferenceRoot_guarded hwf hg ord hfuel hop
  | cap limit => exact cap_guarded hwf hg limit
  | commit root => exact commitRoot_guarded hwf hg ord hfuel hop

end

theorem run_guarded {fuel : Nat} (hfuel : ∀ h, rank h < fuel) :
    ∀ {ops : List (MapOrder × Op)} {db : Database} {l : List Hash}, Wf rank db l [] →
      Guarded db l [] [] → AdmissibleRun rank fuel db ops →
      ∃ db' l', run (step fuel) db ops = .ok db' ∧ Wf rank db' l' [] ∧ Guarded db' l' [] [] := by
  intro ops
  induction ops with
  | nil => exact fun {db l} hwf hg _ => ⟨db, l, rfl, hwf, hg⟩
  | cons op ops ih =>
    intro db l hwf hg ⟨hop, hops⟩
    obtain ⟨db1, l1, hok1, hwf1, hg1⟩ := step_guarded hwf hg hfuel hop
    obtain ⟨db2, l2, hok2, hwf2, hg2⟩ := ih hwf1 hg1 (hops db1 hok1)
    exact ⟨db2, l2, run_cons_ok.2 ⟨db1, hok1, hok2⟩, hwf2, hg2⟩

theorem new_guarded {disk : Finmap fun _ : Hash => RawNode}
    (hdisk : ∀ h n, disk.lookup h = some n → ∀ c ∈ n.gatherChildren, c ∈ disk) :
    Guarded (new disk) [] [] [] := by
  refine ⟨by simp, fun h _ _ => ?_, .nil, hdisk⟩
  have hsum := total_insert (refsOf [] h) (∅ : Finmap fun _ : Hash => CachedNode) 0
    { node := .nil, size := 0, children := some ∅ }
  exact hsum.trans (by simp [total, refsOf, CachedNode.refs, CachedNode.count,
    RawNode.gatherChildren])

/-- What is reachable from a root that has a positive counter, through the hash children of nodes
and the external children of cached nodes. -/
inductive Reach (db : Database) : Hash → Prop where
  | root {h : Hash} : 0 < db.metaCount h → Reach db h
  | cached {p c : Hash} {n : CachedNode} : Reach db p → db.dirties.lookup p = some n →
    c ∈ n.node.gatherChildren ∨ n.count c ≠ 0 → Reach db c
  | disk {p c : Hash} {n : RawNode} : Reach db p → db.disk.lookup p = some n →
    c ∈ n.gatherChildren → Reach db c

theorem Guarded.reach_retrievable (hwf : Wf rank db l []) (hg : Guarded db l [] [])
    (hr : db.Reach h) : db.Retrievable h := by
  have hin : ∀ {p n c}, db.dirties.lookup p = some n → n.refs c ≠ 0 → db.Retrievable c := by
    intro p n c hn hc
    rcases hg.retrievable (entry_of_lookup hn) hc with hl | hd
    · exact .inl ((hwf.mem c).2 (.inr (.inl hl)))
    · exact .inr hd
  cases hr with
  | root hpos =>
    obtain ⟨n, hn, -⟩ := hwf.lookup_zero
    refine hin hn ?_
    rw [metaCount, hn] at hpos
    simp only [Option.map_some, Option.getD_some] at hpos
    unfold CachedNode.refs
    omega
  | cached _ hn hc =>
    rcases hc with hc | hc
    · exact hin hn (refs_ne_zero hc)
    refine hin hn ?_
    unfold CachedNode.refs
    omega
  | disk _ hn hc => exact .inr (hg.closed _ _ hn _ hc)

end Database

end Virbicoin.Mpt
