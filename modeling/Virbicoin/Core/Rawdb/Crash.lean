import Virbicoin.Core.Rawdb.TableLog

/-!
# Crash repair of a freezer table

A crash leaves a beginning of the index, cut anywhere, and a beginning of the data file that the
last whole entry points to, or not even that. `Halfway` is what holds between two rounds of
`repairLoop`: the index is that of a layout, and the head file is shorter or longer than the layout
has it, but otherwise the same.

An index cut inside its first entry is emptied and not given a first entry again. The table opens,
but counts its items from minus one (`crash_repair_iff`).
-/

namespace Virbicoin.Rawdb

open Virbicoin.Lib Function List

/-! ## Between two rounds of the repair -/

def Agree (a b : Bytes) : Prop := a <+: b ∨ b <+: a

theorem Agree.eq_take {a b : Bytes} (h : Agree a b) (hle : b.length ≤ a.length) :
    a.take b.length = b := by
  obtain h | h := h
  · rw [h.eq_of_length (le_antisymm h.length_le hle), take_length]
  · exact (prefix_iff_eq_take.1 h).symm

/-- The index is that of a layout, and the head file is open and agrees with it. -/
structure Halfway (t : FreezerTable) (lay : Layout) : Prop where
  index : t.dir.index = lay.entries.flatMap IndexEntry.marshallBinary
  indexPos : t.index = some t.dir.index.length
  tailId : t.tailId = lay.tailId
  itemOffset : t.itemOffset = 0
  head : t.head = some lay.headId
  headFile : t.files lay.headId = some ⟨false, (t.contents lay.headId).length⟩
  notOpen : ∀ f, f ≠ lay.headId → t.files f = none
  present : (t.dir.data lay.headId).isSome
  data : ∀ f, lay.tailId ≤ f → f < lay.headId → t.dir.data f = some (segment lay.its f)
  agree : Agree (t.contents lay.headId) (segment lay.its lay.headId)

namespace FreezerTable

variable {t t' : FreezerTable} {lay : Layout}

def lastOf (lay : Layout) : IndexEntry := ⟨lay.headId, (segment lay.its lay.headId).length⟩

theorem segment_cut_initial (h : lay.itemOffset = 0) (n f : Nat) :
    segment (lay.cut h n).its f <+: segment lay.its f := by
  rw [← segment_take_append lay.its n f]
  exact prefix_append _ _

theorem truncateIndex_cut (h : Halfway t lay) (hzero : lay.itemOffset = 0) (k : Nat) :
    (t.truncateIndex ((min k lay.its.length + 1) * indexEntrySize)).dir.index =
      (lay.cut hzero k).entries.flatMap IndexEntry.marshallBinary := by
  have hlen : min k lay.its.length + 1 ≤ lay.entries.length := by
    rw [lay.entries_length]
    omega
  show resize t.dir.index _ = _
  rw [h.index, resize_records IndexEntry.marshallBinary_length hlen, Layout.cut_entries]
  congr 1
  rw [take_eq_take_iff, lay.entries_length]
  omega

theorem halfway_dropLast (h : Halfway t lay) (hzero : lay.itemOffset = 0) {k : Nat}
    (hk : lay.its.length = k + 1)
    (hlt : (t.contents lay.headId).length < (segment lay.its lay.headId).length) :
    ∃ t', Halfway t' (lay.cut hzero k) ∧ t'.noCompression = t.noCompression ∧
      repairLoop (k + 2) t (lastOf lay) (t.contents lay.headId).length =
        repairLoop (k + 1) t' (lastOf (lay.cut hzero k))
          (t'.contents (lay.cut hzero k).headId).length := by
  have hlen : (lay.cut hzero k).its.length = k := by
    rw [Layout.cut_its, length_take]
    omega
  have hindex := truncateIndex_cut h hzero k
  rw [hk, Nat.min_eq_left k.le_succ] at hindex
  set lay' := lay.cut hzero k
  set t1 := t.truncateIndex ((k + 1) * indexEntrySize)
  have hpos : t1.index = some t1.dir.index.length := congrArg some resize_length.symm
  have hread := readEntry_last hindex
  rw [hlen] at hread
  have hloop : repairLoop (k + 2) t (lastOf lay) (t.contents lay.headId).length =
      if lay'.headId ≠ lay.headId then do
        let t ← (t1.releaseFile lay.headId).openHead lay'.headId
        repairLoop (k + 1) t (lastOf lay') (t.contents lay'.headId).length
      else repairLoop (k + 1) t1 (lastOf lay') (t.contents lay.headId).length := by
    have hoff : (t.contents lay.headId).length < (lastOf lay).offset := hlt
    rw [repairLoop.eq_def, if_neg (Nat.ne_of_gt hoff), if_neg (Nat.not_lt.2 (Nat.le_of_lt hoff))]
    simp only [Nat.succ_ne_zero, if_false, Nat.add_sub_cancel]
    change (if ((t1.readEntry k).getD (lastOf lay)).filenum ≠ _ then _ else _) = _
    rw [hread]
    rfl
  by_cases hsame : lay'.headId = lay.headId
  · refine ⟨t1, ?_, rfl, ?_⟩
    · refine { index := hindex, indexPos := hpos, tailId := h.tailId, itemOffset := h.itemOffset,
               head := hsame ▸ h.head, headFile := ?_, notOpen := fun f hf => ?_, present := ?_,
               data := fun f hlo hhi => ?_, agree := ?_ }
      · rw [hsame]
        exact h.headFile
      · rw [hsame] at hf
        exact h.notOpen f hf
      · rw [hsame]
        exact h.present
      · rw [Layout.cut_segment hhi hlo]
        exact h.data f hlo (hsame ▸ hhi)
      have hcut := segment_cut_initial hzero k lay.headId
      have hfile := h.agree.resolve_right fun hba => Nat.not_lt.2 hba.length_le hlt
      rw [hsame]
      exact prefix_or_prefix_of_prefix hfile hcut
    rw [hloop, if_neg (not_not.2 hsame), hsame]
    rfl
  have hback : lay'.headId < lay.headId := Nat.lt_of_le_of_ne Layout.cut_headId_le hsame
  have htail : lay.tailId ≤ lay'.headId := lay'.tailId_le_headId
  have hdata := h.data _ htail hback
  set t2 := t1.releaseFile lay.headId
  have hclosed : t2.files lay'.headId = none :=
    (update_of_ne hsame _ _).trans (h.notOpen _ hsame)
  refine ⟨(t2.withFiles (update t2.files lay'.headId
    (some ⟨false, (segment lay.its lay'.headId).length⟩))).setHead lay'.headId, ?_, rfl, ?_⟩
  rotate_left
  · rw [hloop, if_pos hsame, openHead, openFile_existing hclosed hdata]
    rfl
  have hcontents : ∀ files, (t2.withFiles files).contents lay'.headId =
      segment lay.its lay'.headId := by
    intro files
    show (t.dir.data _).getD [] = _
    rw [hdata]
    rfl
  refine { index := hindex, indexPos := hpos, tailId := h.tailId, itemOffset := h.itemOffset,
           head := rfl, headFile := ?_, notOpen := fun f hf => ?_, present := ?_,
           data := fun f hlo hhi => ?_, agree := ?_ }
  · refine (update_self _ _ _).trans ?_
    rw [← hcontents (fun _ => none)]
    rfl
  · refine (update_of_ne hf _ _).trans ?_
    by_cases hold : f = lay.headId
    · rw [hold]
      exact update_self _ _ _
    · exact (update_of_ne hold _ _).trans (h.notOpen f hold)
  · exact Option.isSome_iff_exists.2 ⟨_, hdata⟩
  · rw [Layout.cut_segment hhi hlo]
    exact h.data f hlo (Nat.lt_trans hhi hback)
  · refine .inr ?_
    have hcut := segment_cut_initial hzero k lay'.headId
    rw [← hcontents (fun _ => none)] at hcut
    exact hcut

theorem halfway_truncateHead (h : Halfway t lay)
    (hle : (segment lay.its lay.headId).length ≤ (t.contents lay.headId).length) :
    ∃ t', t.truncateHead (segment lay.its lay.headId).length = .ok t' ∧ Halfway t' lay ∧
      t'.contents lay.headId = segment lay.its lay.headId ∧
      t'.noCompression = t.noCompression := by
  have hcut : resize (t.contents lay.headId) (segment lay.its lay.headId).length =
      segment lay.its lay.headId := by
    rw [resize_of_le hle, h.agree.eq_take hle]
  have hcontents : (t.setFile lay.headId (segment lay.its lay.headId)
      ⟨false, (segment lay.its lay.headId).length⟩).contents lay.headId =
        segment lay.its lay.headId := by
    simp [contents, setFile]
  refine ⟨t.setFile lay.headId (segment lay.its lay.headId)
    ⟨false, (segment lay.its lay.headId).length⟩, ?_, ?_, hcontents, rfl⟩
  · unfold truncateHead
    simp only [h.head, h.headFile, Bool.false_eq_true, if_false, hcut]
  refine { index := h.index, indexPos := h.indexPos, tailId := h.tailId,
           itemOffset := h.itemOffset, head := h.head, headFile := ?_,
           notOpen := fun f hf => (update_of_ne hf _ _).trans (h.notOpen f hf),
           present := ?_, data := fun f hlo hhi => ?_, agree := ?_ }
  · rw [hcontents]
    exact update_self _ _ _
  · show (update t.dir.data lay.headId _ lay.headId).isSome
    rw [update_self]
    rfl
  · exact (update_of_ne (ne_of_lt hhi) _ _).trans (h.data f hlo hhi)
  · rw [hcontents]
    exact .inl (prefix_refl _)

theorem repairLoop_settled (h : Halfway t lay)
    (hle : (lastOf lay).offset ≤ (t.contents lay.headId).length) (n : Nat) :
    ∃ t', repairLoop n t (lastOf lay) (t.contents lay.headId).length =
        .ok (t', n, lastOf lay, (lastOf lay).offset) ∧ Halfway t' lay ∧
      t'.contents lay.headId = segment lay.its lay.headId ∧
      t'.noCompression = t.noCompression := by
  by_cases heq : (lastOf lay).offset = (t.contents lay.headId).length
  · refine ⟨t, ?_, h, ?_, rfl⟩
    · rw [repairLoop_of_eq heq, heq]
    rw [← h.agree.eq_take hle]
    exact (take_of_length_le (le_of_eq heq.symm)).symm
  obtain ⟨t', htrunc, hhalf, hcontents, hnc⟩ := halfway_truncateHead h hle
  refine ⟨t', ?_, hhalf, hcontents, hnc⟩
  rw [repairLoop.eq_def, if_neg heq, if_pos (lt_of_le_of_ne hle heq)]
  exact bind_eq_ok.2 ⟨t', htrunc, rfl⟩

theorem repairLoop_halfway (h : Halfway t lay) (hzero : lay.itemOffset = 0) :
    ∃ t' lay', repairLoop (lay.its.length + 1) t (lastOf lay) (t.contents lay.headId).length =
        .ok (t', lay'.its.length + 1, lastOf lay', (lastOf lay').offset) ∧
      Halfway t' lay' ∧ t'.contents lay'.headId = segment lay'.its lay'.headId ∧
      lay'.itemOffset = 0 ∧ lay'.its <+: lay.its ∧ t'.noCompression = t.noCompression := by
  -- induction on the number of items: a round that cuts the index takes one away
  induction hk : lay.its.length generalizing t lay with
  | zero =>
    -- entry 0 ends no item, so the head file is never too short for it
    have hle : (lastOf lay).offset ≤ (t.contents lay.headId).length := by
      rw [lastOf, eq_nil_of_length_eq_zero hk]
      exact Nat.zero_le _
    obtain ⟨t', hloop, hhalf, hcontents, hnc⟩ := repairLoop_settled h hle (lay.its.length + 1)
    exact ⟨t', lay, hk ▸ hloop, hhalf, hcontents, hzero, prefix_refl _, hnc⟩
  | succ k ih =>
    by_cases hlt : (t.contents lay.headId).length < (lastOf lay).offset
    · obtain ⟨t1, h1, hnc, hloop⟩ := halfway_dropLast h hzero hk hlt
      have hlen : (lay.cut hzero k).its.length = k := by
        rw [Layout.cut_its, length_take]
        omega
      obtain ⟨t', lay', hrest, hhalf, hcontents, hzero', hits, hnc'⟩ := ih h1 hzero hlen
      refine ⟨t', lay', hloop.trans hrest, hhalf, hcontents, hzero', ?_, hnc'.trans hnc⟩
      exact hits.trans ( take_prefix _ _)
    obtain ⟨t', hloop, hhalf, hcontents, hnc⟩ :=
      repairLoop_settled h (not_lt.1 hlt) (lay.its.length + 1)
    exact ⟨t', lay, hk ▸ hloop, hhalf, hcontents, hzero, prefix_refl _, hnc⟩

/-! ## Opening after a crash -/

theorem repairHead_agree (hzero : lay.itemOffset = 0)
    (hindex : t.dir.index = lay.entries.flatMap IndexEntry.marshallBinary)
    (hpos : t.index = some t.dir.index.length) (hfiles : t.files = fun _ => none)
    (hdata : ∀ f, lay.tailId ≤ f → f < lay.headId → t.dir.data f = some (segment lay.its f))
    (hhead : Agree (t.contents lay.headId) (segment lay.its lay.headId)) :
    ∃ t' lay', t.repairHead = .ok t' ∧ Opened t' lay' ∧ lay'.itemOffset = 0 ∧
      lay'.its <+: lay.its ∧ t'.noCompression = t.noCompression := by
  have hn : t.dir.index.length / indexEntrySize = lay.its.length + 1 := by
    rw [hindex, records_length IndexEntry.marshallBinary_length, lay.entries_length]
    exact Nat.mul_div_cancel _ (by decide)
  set t0 := t.setTail ⟨lay.tailId, lay.itemOffset⟩ with ht0
  set head := (t0.setFile lay.headId (t.contents lay.headId)
    ⟨false, (t.contents lay.headId).length⟩).setHead lay.headId
  have hfirst : t.readEntry 0 = some ⟨lay.tailId, lay.itemOffset⟩ := readEntry_eq hindex 0
  have hlast : t0.readEntry lay.its.length = some (lastOf lay) := readEntry_last hindex
  have hopen : t0.openHead lay.headId = .ok head := by
    have hnone : t0.files lay.headId = none := congrFun hfiles _
    rw [openHead, openFile_forAppend hnone]
    rfl
  have hsame : head.contents lay.headId = t.contents lay.headId := by
    simp [head, contents, setHead, setFile]
  have hhalf : Halfway head lay := by
    refine { index := hindex, indexPos := hpos, tailId := rfl, itemOffset := hzero, head := rfl,
             headFile := ?_, notOpen := fun f hf => ?_, present := ?_,
             data := fun f hlo hhi => ?_, agree := ?_ }
    · rw [hsame]
      exact update_self _ _ _
    · exact (update_of_ne hf _ _).trans (congrFun hfiles f)
    · show (update t.dir.data lay.headId _ lay.headId).isSome
      rw [update_self]
      rfl
    · exact (update_of_ne (Nat.ne_of_lt hhi) _ _).trans (hdata f hlo hhi)
    · rw [hsame]
      exact hhead
  obtain ⟨t1, lay', hloop, h1, hcontents, hzero', hits, hnc⟩ := repairLoop_halfway hhalf hzero
  rw [hsame] at hloop
  have hrepaired : Repaired (t1.setCounters (lay'.its.length + 1) (lastOf lay')
      (lastOf lay').offset) lay' lay'.headId := by
    refine { index := h1.index, indexPos := h1.indexPos, items := ?_, tailId := h1.tailId,
             itemOffset := h1.itemOffset.trans hzero'.symm, headId := rfl,
             headBytes := Nat.mod_eq_of_lt (lay'.size_lt _), data := fun f hlo hhi => ?_ }
    · rw [hzero', ← h1.itemOffset]
      rfl
    by_cases heq : f = lay'.headId
    · obtain ⟨b, hb⟩ := Option.isSome_iff_exists.1 h1.present
      have hc : b = segment lay'.its lay'.headId := by
        rw [← hcontents, contents, hb]
        rfl
      subst heq
      exact hb.trans (congrArg some hc)
    · exact h1.data f hlo (Nat.lt_of_le_of_ne hhi heq)
  have hfile := h1.headFile
  rw [hcontents] at hfile
  obtain ⟨t', hpre, hopened, hnc'⟩ := preopen_opened hrepaired hfile
  refine ⟨t', lay', ?_, hopened, hzero', hits, hnc'.trans hnc⟩
  rw [repairHead]
  simp only [hn, hfirst, Option.getD_some, Nat.add_sub_cancel, ← ht0, hlast, Nat.succ_ne_zero,
    if_false]
  refine bind_eq_ok.2 ⟨_, hopen, bind_eq_ok.2
    ⟨(t1, lay'.its.length + 1, lastOf lay', (lastOf lay').offset), ?_, hpre⟩⟩
  show repairLoop _ _ _ (contents _ lay.headId).length = _
  rw [hsame]
  exact hloop

theorem repairIndex_cut (hpos : t.index = some t.dir.index.length) (h : t.dir.index.length ≠ 0) :
    t.repairIndex = t.truncateIndex (t.dir.index.length / indexEntrySize * indexEntrySize) := by
  have hsize : t.dir.index.length - t.dir.index.length % indexEntrySize =
      t.dir.index.length / indexEntrySize * indexEntrySize := by
    rw [indexEntrySize]
    omega
  unfold repairIndex
  simp only [if_neg h]
  split
  · rw [hsize]
  have hall : t.dir.index.length / indexEntrySize * indexEntrySize = t.dir.index.length := by omega
  rw [hall, truncateIndex, resize_of_le (le_refl _), take_length, ← hpos]

theorem preopen_index (h : t.preopen = .ok t') : t'.dir.index = t.dir.index := by
  obtain ⟨t1, hrun, hopen⟩ := bind_eq_ok.1 h
  have hstep : t1.dir.index = t.dir.index :=
    run_invariant (I := fun u => u.dir.index = t.dir.index)
      (fun u i u' hu hu' => (openFile_frame hu').2.trans hu) rfl hrun
  exact (openHead_frame hopen).2.1.trans hstep

theorem repairLoop_zero {e : IndexEntry} {size num : Nat}
    {r : FreezerTable × Nat × IndexEntry × Nat} (hhead : t.head = some num)
    (h : repairLoop 0 t e size = .ok r) : r.1.dir.index = t.dir.index := by
  rw [repairLoop.eq_def] at h
  split at h
  · cases h
    rfl
  split at h
  · obtain ⟨t1, htrunc, h⟩ := bind_eq_ok.1 h
    cases h
    exact (truncateHead_frame hhead htrunc).1
  · cases h

theorem repairHead_nil (hindex : t.dir.index = []) (h : t.repairHead = .ok t') :
    t'.dir.index = [] := by
  rw [repairHead] at h
  simp only [hindex, length_nil, Nat.zero_div, if_true] at h
  obtain ⟨t1, hopen, h⟩ := bind_eq_ok.1 h
  obtain ⟨r, hloop, h⟩ := bind_eq_ok.1 h
  obtain ⟨-, hopenIndex, hhead⟩ := openHead_frame hopen
  rw [preopen_index h]
  exact (repairLoop_zero hhead hloop).trans (hopenIndex.trans hindex)

/-! ## Crashes -/

def lastWhole (index : Bytes) : Option IndexEntry :=
  if index.length / indexEntrySize = 0 then none
  else (readAt index ((index.length / indexEntrySize - 1) * indexEntrySize) indexEntrySize).map
    IndexEntry.unmarshalBinary

/-- What a crash may leave of a directory: a beginning of the index, a beginning of the data file
that the last entry points to or none at all, and the other files. -/
structure Crashed (dir dir' : Dir) : Prop where
  index : dir'.index <+: dir.index
  head : ∀ e, lastWhole dir'.index = some e → dir'.data e.filenum = none ∨
    ∃ b, dir'.data e.filenum = some b ∧ b <+: (dir.data e.filenum).getD []
  rest : ∀ e, lastWhole dir'.index = some e → ∀ f, f ≠ e.filenum → dir'.data f = dir.data f

/-- A table is open on a beginning of a list of items: its index has an entry for each of them, the
last one holds the size of the head file, and the items are read as they were appended. -/
structure Recovered (snappy : Snappy) (t : FreezerTable) (log : List Bytes) : Prop where
  items_le : t.items ≤ log.length
  index : t.dir.index.length = (t.items + 1) * indexEntrySize
  head : t.readEntry t.items = some ⟨t.headId, (t.contents t.headId).length⟩
  present : ∀ i blob, i < t.items → log[i]? = some blob → t.retrieve snappy i = .ok blob

theorem opened_recovered {snappy : Snappy} {log : List Bytes} {lay' : Layout}
    (hopened : Opened t lay') (hzero : lay'.itemOffset = 0) (hits : lay'.its <+: lay.its)
    (hlog : lay.its.map (·.2) = log.map (t.encode snappy)) : Recovered snappy t log := by
  have hlen : lay.its.length = log.length := by
    have := congrArg length hlog
    simpa using this
  have hitems : t.items = lay'.its.length := by rw [hopened.items, hzero, zero_add]
  have hrep : Represents snappy t 0 (log.take t.items) := by
    refine ⟨lay', hopened, hzero, Nat.zero_le _, ?_⟩
    rw [drop_zero, map_take, ← hlog, ← map_take, hitems, ← prefix_iff_eq_take.1 hits]
  refine ⟨?_, ?_, ?_, fun i blob hi hblob => ?_⟩
  · rw [hitems, ← hlen]
    exact hits.length_le
  · rw [hopened.index, records_length IndexEntry.marshallBinary_length, lay'.entries_length, hitems]
  · have hdata := hopened.data _ lay'.tailId_le_headId (le_refl _)
    rw [hitems, readEntry_last hopened.index, hopened.headId, contents, hdata]
    rfl
  · refine hrep.shows.present i blob (Nat.zero_le _) ?_
    rw [getElem?_take_of_lt hi]
    exact hblob

theorem index_cut (hzero : lay.itemOffset = 0) {index : Bytes} {k : Nat}
    (h : index <+: lay.entries.flatMap IndexEntry.marshallBinary)
    (hk : index.length / indexEntrySize = k + 1) :
    resize index ((k + 1) * indexEntrySize) =
        (lay.cut hzero k).entries.flatMap IndexEntry.marshallBinary ∧
      lastWhole index = some (lastOf (lay.cut hzero k)) := by
  have hle : (k + 1) * indexEntrySize ≤ index.length := by
    rw [← hk]
    exact Nat.div_mul_le_self _ _
  have hcount : k < lay.entries.length := by
    have hlen := h.length_le
    rw [records_length IndexEntry.marshallBinary_length] at hlen
    simp only [indexEntrySize] at hle hlen
    omega
  have hcut : resize index ((k + 1) * indexEntrySize) =
      (lay.cut hzero k).entries.flatMap IndexEntry.marshallBinary := by
    have htake := prefix_iff_eq_take.1 h
    rw [resize_of_le hle, Layout.cut_entries, ← take_records IndexEntry.marshallBinary_length,
      htake, take_take]
    congr 1
    omega
  refine ⟨hcut, ?_⟩
  have hits : (lay.cut hzero k).its.length = k := by
    rw [Layout.cut_its, length_take]
    rw [lay.entries_length] at hcount
    omega
  have hread : (readAt (resize index ((k + 1) * indexEntrySize)) (k * indexEntrySize)
      indexEntrySize).map .unmarshalBinary = some (lastOf (lay.cut hzero k)) := by
    have hlast := readEntry_last (t := ⟨0, true, 0, none, fun _ => none, 0, 0, none, 0, 0,
      ⟨resize index ((k + 1) * indexEntrySize), fun _ => none⟩⟩) hcut
    rwa [hits] at hlast
  have hsum : k * indexEntrySize + indexEntrySize = (k + 1) * indexEntrySize :=
    (Nat.succ_mul _ _).symm
  rw [readAt_resize (hsum ▸ hle) (le_of_eq hsum)] at hread
  rw [lastWhole, hk]
  exact hread

theorem crashed_agree {dir dir' : Dir} (hstored : lay.Stored dir) (hzero : lay.itemOffset = 0)
    (hcrash : Crashed dir dir') {k : Nat}
    (hlast : lastWhole dir'.index = some (lastOf (lay.cut hzero k))) :
    (∀ f, lay.tailId ≤ f → f < (lay.cut hzero k).headId →
      dir'.data f = some (segment (lay.cut hzero k).its f)) ∧
    Agree ((dir'.data (lay.cut hzero k).headId).getD [])
      (segment (lay.cut hzero k).its (lay.cut hzero k).headId) := by
  have hle : (lay.cut hzero k).headId ≤ lay.headId := Layout.cut_headId_le
  constructor
  · intro f hlo hhi
    rw [hcrash.rest _ hlast f (Nat.ne_of_lt hhi), Layout.cut_segment hhi hlo]
    exact hstored.data f hlo (lt_of_lt_of_le hhi hle)
  have horig : (dir.data (lay.cut hzero k).headId).getD [] =
      segment lay.its (lay.cut hzero k).headId := by
    obtain hlt | heq := lt_or_eq_of_le hle
    · rw [hstored.data _ (lay.cut hzero k).tailId_le_headId hlt]
      rfl
    · rw [heq]
      exact hstored.head
  obtain hnone | ⟨b, hb, hpre⟩ := hcrash.head _ hlast
  · have hnil : dir'.data (lay.cut hzero k).headId = none := hnone
    rw [hnil]
    exact .inl nil_prefix
  have hsome : dir'.data (lay.cut hzero k).headId = some b := hb
  rw [hsome]
  refine prefix_or_prefix_of_prefix ?_ (segment_cut_initial hzero k _)
  rw [← horig]
  exact hpre

/-- **A table opens on a beginning of its items after a crash, unless the index was cut inside its
first entry.** -/
theorem crash_repair_iff (snappy : Snappy) {dir dir' : Dir} {noCompression : Bool}
    {log : List Bytes} (h : HoldsLog snappy dir noCompression 0 log) (hcrash : Crashed dir dir')
    (maxFilesize : Nat) :
    (∃ t, newCustomTable dir' maxFilesize noCompression = .ok t ∧ Recovered snappy t log) ↔
      dir'.index.length = 0 ∨ indexEntrySize ≤ dir'.index.length := by
  obtain ⟨lay, hstored, hzero, -, hits⟩ := h
  have hlog : ∀ t : FreezerTable, t.noCompression = noCompression →
      lay.its.map (·.2) = log.map (t.encode snappy) := by
    intro t hnc
    rw [hits]
    refine map_congr_left fun b _ => ?_
    rw [encode, hnc]
  constructor
  · rintro ⟨t, hopen, hrec⟩
    by_contra hpart
    rw [not_or, not_le] at hpart
    rw [newCustomTable, repair, repairIndex_cut rfl hpart.1] at hopen
    have hnil := repairHead_nil (t := truncateIndex _ _) ?_ hopen
    · have hlen := hrec.index
      rw [hnil, indexEntrySize] at hlen
      simp at hlen
    show resize dir'.index (dir'.index.length / indexEntrySize * indexEntrySize) = []
    rw [Nat.div_eq_of_lt hpart.2]
    exact eq_nil_of_length_eq_zero resize_length
  intro hwhole
  by_cases hempty : dir'.index.length = 0
  · -- a new index gets its first entry, and whatever was in file 0 is cut off
    have hnil := eq_nil_of_length_eq_zero hempty
    have hrepair : (indexOpened dir' maxFilesize noCompression).repairIndex =
        (indexOpened dir' maxFilesize noCompression).writeIndex (replicate indexEntrySize 0) := by
      unfold repairIndex indexOpened
      simp only [hempty, if_true]
      rfl
    obtain ⟨t, lay', hopen, hopened, hzero', hits', hnc⟩ := @repairHead_agree
      ((indexOpened dir' maxFilesize noCompression).writeIndex
        (replicate indexEntrySize 0)) .empty rfl
      (by simp only [writeIndex, indexOpened, hnil]; decide)
      (by simp only [writeIndex, indexOpened, hnil]; decide) rfl
      (fun f _ hhi => absurd hhi f.not_lt_zero) (.inr nil_prefix)
    refine ⟨t, ?_, opened_recovered hopened hzero' (hits'.trans nil_prefix) (hlog t hnc)⟩
    rw [newCustomTable, repair, hrepair]
    exact hopen
  obtain ⟨k, hk⟩ : ∃ k, dir'.index.length / indexEntrySize = k + 1 :=
    Nat.exists_eq_succ_of_ne_zero (Nat.ne_of_gt
      (Nat.div_pos (hwhole.resolve_left hempty) (by decide)))
  have hindex : dir.index = lay.entries.flatMap IndexEntry.marshallBinary := by
    obtain hindex | ⟨hnil, -⟩ := hstored.index
    · exact hindex
    have hlen := hcrash.index.length_le
    rw [hnil] at hlen
    exact absurd (Nat.le_zero.1 hlen) hempty
  obtain ⟨hcut, hlast⟩ := index_cut hzero (hindex ▸ hcrash.index) hk
  obtain ⟨hdata, hagree⟩ := crashed_agree hstored hzero hcrash hlast
  obtain ⟨t, lay', hopen, hopened, hzero', hits', hnc⟩ := @repairHead_agree
    ((indexOpened dir' maxFilesize noCompression).truncateIndex
      ((k + 1) * indexEntrySize)) (lay.cut hzero k) hzero hcut
    (congrArg some resize_length.symm) rfl hdata hagree
  refine ⟨t, ?_, opened_recovered hopened hzero' (hits'.trans ( take_prefix _ _)) (hlog t hnc)⟩
  rw [newCustomTable, repair, repairIndex_cut rfl hempty]
  show repairHead (truncateIndex _ (dir'.index.length / indexEntrySize * _)) = _
  rw [hk]
  exact hopen

def threeItems : Layout where
  tailId := 0
  itemOffset := 0
  its := [(0, [0x0a]), (0, [0x0b]), (1, [0x0c])]
  ascending := by simp [Ascending]
  tail_le := by simp
  tail_lt := Layout.empty.tail_lt
  file_lt := by simp
  offset_lt := Layout.empty.offset_lt
  size_lt := by
    intro f
    by_cases hzero : f = 0
    · subst hzero
      decide
    by_cases hone : f = 1
    · subst hone
      decide
    · simp [Lib.segment, Ne.symm hzero, Ne.symm hone]
  nonempty := .inl rfl

def threeItemsDir : Dir where
  index := threeItems.entries.flatMap IndexEntry.marshallBinary
  data := fun f => if f = 0 then some [0x0a, 0x0b] else if f = 1 then some [0x0c] else none

theorem holdsLog_threeItems : HoldsLog plain threeItemsDir true 0 [[0x0a], [0x0b], [0x0c]] := by
  refine ⟨threeItems, ⟨.inl rfl, fun f _ hhi => ?_, by decide⟩, rfl, Nat.zero_le _, rfl⟩
  have hhead : threeItems.headId = 1 := by decide
  obtain rfl : f = 0 := by omega
  rfl

def crashedDir : Dir where
  index := threeItemsDir.index.take 23
  data := fun f => if f = 0 then some [0x0a] else if f = 1 then some [0x0c] else none

theorem crash_repair_threeItems :
    ∃ t, newCustomTable crashedDir 2 true = .ok t ∧
      Recovered plain t [[0x0a], [0x0b], [0x0c]] := by
  refine (crash_repair_iff plain holdsLog_threeItems ⟨ take_prefix _ _, ?_, ?_⟩ 2).2
    (.inr (by decide))
  · intro e he
    obtain rfl : (⟨0, 2⟩ : IndexEntry) = e := Option.some.inj he
    exact .inr ⟨[0x0a], rfl, ⟨[0x0b], rfl⟩⟩
  intro e he f hf
  obtain rfl : (⟨0, 2⟩ : IndexEntry) = e := Option.some.inj he
  show (if f = 0 then _ else _) = (if f = 0 then _ else _)
  rw [if_neg hf, if_neg hf]

/-- An index cut inside its first entry: the table opens without an error, and the number of its
items is minus one. -/
theorem crash_first_entry :
    HoldsLog plain threeItemsDir true 0 [[0x0a], [0x0b], [0x0c]] ∧
      Crashed threeItemsDir { threeItemsDir with index := threeItemsDir.index.take 3 } ∧
      (newCustomTable { threeItemsDir with index := threeItemsDir.index.take 3 } 2 true).map
        (fun t => (t.items, t.dir.index.length)) = .ok (2 ^ 64 - 1, 0) := by
  refine ⟨holdsLog_threeItems, ⟨ take_prefix _ _, fun e he => ?_, fun e he => ?_⟩,
    by decide +kernel⟩
  · cases he
  · cases he

end FreezerTable

end Virbicoin.Rawdb
