import Virbicoin.Core.Rawdb.FreezerTable

/-!
# A freezer table is a log

`Layout` is what the files of a table stand for: the items that are there, each with the file that
it lies in. `Layout.Stored` says that a directory holds a layout, `Opened` that a table is open on
one. Opening a directory that holds a layout gives such a table; appending, truncating and reopening
take one layout to another, and `retrieve` reads the items of the layout.
-/

namespace Virbicoin.Rawdb

open Virbicoin.Lib Function List Option

/-! ## Layouts -/

/-- The items that a table holds, each with its file. File numbers never go down and fit in an
index entry, and so do the sizes of the files. Entry `0` of the index serves as the end of no item
when there is none, so a table that lost items from its tail still has some. -/
structure Layout where
  tailId : Nat
  itemOffset : Nat
  its : List (Nat × Bytes)
  ascending : Ascending its
  tail_le : ∀ it ∈ its, tailId ≤ it.1
  tail_lt : tailId < 2 ^ 16
  file_lt : ∀ it ∈ its, it.1 < 2 ^ 16
  offset_lt : itemOffset < 2 ^ 32
  size_lt : ∀ f, (segment its f).length < 2 ^ 32
  nonempty : itemOffset = 0 ∨ its ≠ []

namespace Layout

variable (lay : Layout)

def empty : Layout where
  tailId := 0
  itemOffset := 0
  its := []
  ascending := List.Pairwise.nil
  tail_le := by simp
  tail_lt := by decide
  file_lt := by simp
  offset_lt := by decide
  size_lt := fun f => Nat.two_pow_pos 32
  nonempty := .inl rfl

def headId : Nat := (lay.its.getLast?.map (·.1)).getD lay.tailId

def ending (its : List (Nat × Bytes)) (j : Nat) (it : Nat × Bytes) : IndexEntry :=
  ⟨it.1, (segment (its.take (j + 1)) it.1).length⟩

def entries : List IndexEntry :=
  ⟨lay.tailId, lay.itemOffset⟩ :: lay.its.mapIdx (ending lay.its)

@[simp] theorem entries_length : lay.entries.length = lay.its.length + 1 := by
  rw [entries, length_cons, length_mapIdx]

theorem entries_succ (j : Nat) : lay.entries[j + 1]? = lay.its[j]?.map (ending lay.its j) := by
  rw [entries, getElem?_cons_succ, getElem?_mapIdx]

theorem headId_eq {its : List (Nat × Bytes)} {it : Nat × Bytes} (h : lay.its = its ++ [it]) :
    lay.headId = it.1 := by
  rw [headId, h, getLast?_concat]
  rfl

theorem headId_cases : (lay.its = [] ∧ lay.headId = lay.tailId ∧ lay.itemOffset = 0) ∨
    ∃ its it, lay.its = its ++ [it] ∧ lay.headId = it.1 := by
  obtain hnil | ⟨its, it, hits⟩ := eq_nil_or_concat lay.its
  · exact .inl ⟨hnil, by rw [headId, hnil]; rfl, lay.nonempty.resolve_right (· hnil)⟩
  rw [concat_eq_append] at hits
  exact .inr ⟨its, it, hits, lay.headId_eq hits⟩

theorem headId_lt : lay.headId < 2 ^ 16 := by
  obtain ⟨-, hhead, -⟩ | ⟨its, it, hits, hhead⟩ := lay.headId_cases
  · exact hhead ▸ lay.tail_lt
  · exact hhead ▸ lay.file_lt it (by simp [hits])

theorem tailId_le_headId : lay.tailId ≤ lay.headId := by
  obtain ⟨-, hhead, -⟩ | ⟨its, it, hits, hhead⟩ := lay.headId_cases
  · exact le_of_eq hhead.symm
  · exact hhead ▸ lay.tail_le it (by simp [hits])

theorem file_le_headId {it : Nat × Bytes} (h : it ∈ lay.its) : it.1 ≤ lay.headId := by
  obtain ⟨hnil, -⟩ | ⟨its, last, hits, hhead⟩ := lay.headId_cases
  · rw [hnil] at h
    cases h
  have hlast : lay.its[its.length]? = some last := by simp [hits]
  have hmem : it ∈ lay.its.take (its.length + 1) := by rwa [take_of_length_le (by simp [hits])]
  exact hhead ▸ lay.ascending.take_le hlast hmem

theorem entries_last :
    lay.entries[lay.its.length]? = some ⟨lay.headId, (segment lay.its lay.headId).length⟩ := by
  obtain ⟨hnil, hhead, hzero⟩ | ⟨its, it, hits, hhead⟩ := lay.headId_cases
  · simp [entries, hnil, hhead, hzero]
  have hlen : lay.its.length = its.length + 1 := by simp [hits]
  have htake : (its ++ [it]).take (its.length + 1) = its ++ [it] :=
    take_of_length_le (by simp)
  rw [hlen, entries_succ, hhead]
  simp [hits, ending, htake]

theorem entry_lt {e : IndexEntry} (h : e ∈ lay.entries) :
    e.filenum < 2 ^ 16 ∧ e.offset < 2 ^ 32 := by
  obtain ⟨i, hi⟩ := mem_iff_getElem?.1 h
  cases i with
  | zero =>
    cases hi
    exact ⟨lay.tail_lt, lay.offset_lt⟩
  | succ j =>
    rw [entries_succ, map_eq_some_iff] at hi
    obtain ⟨it, hit, rfl⟩ := hi
    exact ⟨lay.file_lt it (mem_of_getElem? hit),
      lt_of_le_of_lt segment_take_length_le (lay.size_lt it.1)⟩

/-! ### Appending and cutting -/

def push (f : Nat) (b : Bytes) (hle : lay.headId ≤ f) (hf : f < 2 ^ 16)
    (hb : (segment lay.its f).length + b.length < 2 ^ 32) : Layout where
  tailId := lay.tailId
  itemOffset := lay.itemOffset
  its := lay.its ++ [(f, b)]
  ascending := by
    refine pairwise_append.2 ⟨lay.ascending, pairwise_singleton _ _, ?_⟩
    intro it hit last hlast
    rw [mem_singleton.1 hlast]
    exact Nat.le_trans (lay.file_le_headId hit) hle
  tail_le := by
    intro it hit
    obtain hit | hit := mem_append.1 hit
    · exact lay.tail_le it hit
    rw [mem_singleton.1 hit]
    exact Nat.le_trans lay.tailId_le_headId hle
  tail_lt := lay.tail_lt
  file_lt := by
    intro it hit
    obtain hit | hit := mem_append.1 hit
    · exact lay.file_lt it hit
    rw [mem_singleton.1 hit]
    exact hf
  offset_lt := lay.offset_lt
  size_lt := by
    intro g
    rw [segment_append, length_append, segment_singleton]
    split
    · rename_i heq
      exact heq ▸ hb
    · exact lay.size_lt g
  nonempty := .inr (by simp)

section Push

variable {lay} {f : Nat} {b : Bytes} {hle : lay.headId ≤ f} {hf : f < 2 ^ 16}
  {hb : (segment lay.its f).length + b.length < 2 ^ 32}

@[simp] theorem push_its : (lay.push f b hle hf hb).its = lay.its ++ [(f, b)] := rfl

@[simp] theorem push_headId : (lay.push f b hle hf hb).headId = f := headId_eq _ push_its

theorem push_entries : (lay.push f b hle hf hb).entries =
    lay.entries ++ [⟨f, (segment lay.its f).length + b.length⟩] := by
  have hending : ending (lay.its ++ [(f, b)]) lay.its.length (f, b) =
      ⟨f, (segment lay.its f).length + b.length⟩ := by
    have htake : (lay.its ++ [(f, b)]).take (lay.its.length + 1) = lay.its ++ [(f, b)] :=
      take_of_length_le (by simp)
    rw [ending, htake, segment_append, segment_singleton, if_pos rfl, length_append]
  have hold : (lay.its.mapIdx fun j it => ending (lay.its ++ [(f, b)]) j it) =
      lay.its.mapIdx (ending lay.its) := by
    refine mapIdx_eq_mapIdx_iff.2 fun j hj => ?_
    simp only [ending, take_append_of_le_length (Nat.succ_le_of_lt hj)]
  rw [entries, push_its, mapIdx_append, hold]
  simp only [mapIdx_cons, mapIdx_nil, zero_add, hending]
  rfl

end Push

def cut (h : lay.itemOffset = 0) (n : Nat) : Layout where
  tailId := lay.tailId
  itemOffset := lay.itemOffset
  its := lay.its.take n
  ascending := lay.ascending.take n
  tail_le := fun it hit => lay.tail_le it (mem_of_mem_take hit)
  tail_lt := lay.tail_lt
  file_lt := fun it hit => lay.file_lt it (mem_of_mem_take hit)
  offset_lt := lay.offset_lt
  size_lt := fun f => Nat.lt_of_le_of_lt (segment_take_length_le) (lay.size_lt f)
  nonempty := .inl h

section Cut

variable {lay} {h : lay.itemOffset = 0} {n : Nat}

@[simp] theorem cut_its : (lay.cut h n).its = lay.its.take n := rfl

theorem cut_entries : (lay.cut h n).entries = lay.entries.take (n + 1) := by
  have hmap : (lay.its.take n).mapIdx (ending (lay.its.take n)) =
      (lay.its.mapIdx (ending lay.its)).take n := by
    refine ext_getElem? fun j => ?_
    rw [getElem?_mapIdx, getElem?_take, getElem?_take, getElem?_mapIdx]
    split
    · rename_i hj
      have htake : (lay.its.take n).take (j + 1) = lay.its.take (j + 1) := by
        rw [take_take, min_eq_left hj]
      have heq : ending (lay.its.take n) j = ending lay.its j := by
        funext it
        rw [ending, ending, htake]
      rw [heq]
    · rfl
  rw [entries, cut_its, hmap]
  rfl

theorem cut_headId_le : (lay.cut h n).headId ≤ lay.headId := by
  obtain ⟨-, hhead, -⟩ | ⟨its, it, hits, hhead⟩ := (lay.cut h n).headId_cases
  · exact hhead ▸ lay.tailId_le_headId
  refine hhead ▸ lay.file_le_headId (mem_of_mem_take (i := n) ?_)
  rw [← cut_its (h := h), hits]
  simp

theorem cut_segment {f : Nat} (hf : f < (lay.cut h n).headId) (htail : lay.tailId ≤ f) :
    segment (lay.cut h n).its f = segment lay.its f := by
  obtain ⟨-, hhead, -⟩ | ⟨its, it, hits, hhead⟩ := (lay.cut h n).headId_cases
  · rw [hhead] at hf
    exact absurd hf (not_lt.2 htail)
  rw [cut_its] at hits ⊢
  have hlen : lay.its.take n = lay.its.take (its.length + 1) := by
    have hle := congrArg length hits
    simp only [length_take, length_append, length_singleton] at hle
    rw [take_eq_take_iff]
    omega
  have hit : lay.its[its.length]? = some it := by
    have : (lay.its.take n)[its.length]? = some it := by simp [hits]
    rw [hlen, getElem?_take_of_lt (Nat.lt_succ_self _)] at this
    exact this
  rw [hlen]
  exact segment_take_of_lt lay.ascending hit (hhead ▸ hf)

end Cut

end Layout

/-! ## Directories and tables -/

/-- A directory holds a layout. The index of a new table is empty, and its head file need not
exist. -/
structure Layout.Stored (lay : Layout) (dir : Dir) : Prop where
  index : dir.index = lay.entries.flatMap IndexEntry.marshallBinary ∨
    (dir.index = [] ∧ lay = .empty)
  data : ∀ f, lay.tailId ≤ f → f < lay.headId → dir.data f = some (segment lay.its f)
  head : (dir.data lay.headId).getD [] = segment lay.its lay.headId

/-- The counters of a table and its files are those of a layout, with the given file as the head. -/
structure Repaired (t : FreezerTable) (lay : Layout) (num : Nat) : Prop where
  index : t.dir.index = lay.entries.flatMap IndexEntry.marshallBinary
  indexPos : t.index = some t.dir.index.length
  items : t.items = lay.itemOffset + lay.its.length
  tailId : t.tailId = lay.tailId
  itemOffset : t.itemOffset = lay.itemOffset
  headId : t.headId = num
  headBytes : t.headBytes = (segment lay.its num).length
  data : ∀ f, lay.tailId ≤ f → f ≤ num → t.dir.data f = some (segment lay.its f)

/-- A table is open on a layout, with the given file as the head. What lies behind the head is not
open, so that it is emptied before it is written to. -/
structure OpenedAt (t : FreezerTable) (lay : Layout) (num : Nat) : Prop
    extends Repaired t lay num where
  head : t.head = some num
  headFile : t.files num = some ⟨false, (segment lay.its num).length⟩
  isOpen : ∀ f, lay.tailId ≤ f → f ≤ num → (t.files f).isSome
  notOpen : ∀ f, num < f → t.files f = none

def Opened (t : FreezerTable) (lay : Layout) : Prop := OpenedAt t lay lay.headId

namespace FreezerTable

variable {t t' : FreezerTable} {lay : Layout}

/-! ### Reading the index -/

theorem readEntry_eq (h : t.dir.index = lay.entries.flatMap IndexEntry.marshallBinary) (i : Nat) :
    t.readEntry i = lay.entries[i]? := by
  rw [readEntry, h]
  cases hi : lay.entries[i]? with
  | some e =>
    have hlt := lay.entry_lt (mem_of_getElem? hi)
    rw [readAt_records IndexEntry.marshallBinary_length hi, map_some,
      IndexEntry.unmarshal_marshall hlt.1 hlt.2]
  | none =>
    have hlen := getElem?_eq_none_iff.1 hi
    rw [readAt, if_neg, map_none]
    rw [records_length IndexEntry.marshallBinary_length]
    simp only [indexEntrySize]
    omega

theorem readEntry_last (h : t.dir.index = lay.entries.flatMap IndexEntry.marshallBinary) :
    t.readEntry lay.its.length = some ⟨lay.headId, (segment lay.its lay.headId).length⟩ := by
  rw [readEntry_eq h, lay.entries_last]

/-! ### Opening files -/

def withFiles (t : FreezerTable) (files : Nat → Option OpenFile) : FreezerTable :=
  { t with files := files }

@[simp] theorem withFiles_files (files : Nat → Option OpenFile) :
    (t.withFiles files).files = files := rfl

variable {it : Nat × Bytes} {num : Nat}

theorem openFile_forAppend (h : t.files num = none) : t.openFile num .forAppend =
    .ok (t.setFile num (t.contents num) ⟨false, (t.contents num).length⟩) := by
  rw [openFile, h]

theorem setFile_contents {b : Bytes} (h : t.dir.data num = some b) (fd : OpenFile) :
    t.setFile num b fd = t.withFiles (update t.files num (some fd)) := by
  rw [setFile, ← h, update_eq_self]
  rfl

theorem openFile_existing {b : Bytes} (hfile : t.files num = none) (h : t.dir.data num = some b) :
    t.openFile num .forAppend =
      .ok (t.withFiles (update t.files num (some ⟨false, b.length⟩))) := by
  rw [openFile_forAppend hfile, contents, h, getD_some, setFile_contents h]

theorem openFile_forReadOnly {b : Bytes} (h : t.dir.data num = some b) :
    ∃ files, t.openFile num .forReadOnly = .ok (t.withFiles files) ∧ (files num).isSome ∧
      ∀ f, f ≠ num → files f = t.files f := by
  cases hfile : t.files num with
  | some fd =>
    refine ⟨t.files, ?_, by rw [hfile]; rfl, fun _ _ => rfl⟩
    rw [openFile, hfile]
    rfl
  | none =>
    refine ⟨update t.files num (some ⟨true, 0⟩), ?_, by simp, ?_⟩
    · rw [openFile, hfile]
      simp only [h]
      rw [setFile_contents h]
    intro f hf
    exact update_of_ne hf _ _

theorem run_openFile (nums : List Nat) (h : ∀ num ∈ nums, (t.dir.data num).isSome) :
    ∃ files, run (fun t i => t.openFile i .forReadOnly) t nums = .ok (t.withFiles files) ∧
      (∀ f ∈ nums, (files f).isSome) ∧ ∀ f, f ∉ nums → files f = t.files f := by
  induction nums generalizing t with
  | nil => exact ⟨t.files, rfl, by simp, fun _ _ => rfl⟩
  | cons num nums ih =>
    obtain ⟨b, hb⟩ := isSome_iff_exists.1 (h num mem_cons_self)
    obtain ⟨files, hopen, hsome, hother⟩ := openFile_forReadOnly hb
    obtain ⟨files', hrun, hsome', hother'⟩ :=
      ih (t := t.withFiles files) (fun n hn => h n (mem_cons_of_mem _ hn))
    refine ⟨files', ?_, ?_, ?_⟩
    · rw [run, foldlM_cons, hopen]
      exact hrun
    · intro f hf
      by_cases hmem : f ∈ nums
      · exact hsome' f hmem
      obtain rfl := (mem_cons.1 hf).resolve_right hmem
      rw [hother' f hmem]
      exact hsome
    intro f hf
    rw [mem_cons, not_or] at hf
    rw [hother' f hf.2]
    exact hother f hf.1

/-! ### Opening a table -/

theorem preopen_opened (h : Repaired t lay lay.headId)
    (hfile : t.files lay.headId = some ⟨false, (segment lay.its lay.headId).length⟩) :
    ∃ t', t.preopen = .ok t' ∧ Opened t' lay ∧ t'.noCompression = t.noCompression := by
  have hmem : ∀ f, f ∈ range' lay.tailId (lay.headId - lay.tailId) ↔
      lay.tailId ≤ f ∧ f < lay.headId := by
    intro f
    rw [mem_range'_1]
    omega
  obtain ⟨files, hrun, hsome, hother⟩ := run_openFile
    (t := t.withFiles fun f => if 0 < f then none else t.files f)
    (range' lay.tailId (lay.headId - lay.tailId)) (by
      intro f hf
      obtain ⟨hlo, hhi⟩ := (hmem f).1 hf
      exact isSome_iff_exists.2 ⟨_, h.data f hlo (le_of_lt hhi)⟩)
  have hnotMem : lay.headId ∉ range' lay.tailId (lay.headId - lay.tailId) := by
    rw [hmem]
    omega
  have hlast : ∃ files', (t.withFiles files).openFile lay.headId .forAppend =
      .ok (t.withFiles files') ∧
      files' lay.headId = some ⟨false, (segment lay.its lay.headId).length⟩ ∧
      ∀ f, f ≠ lay.headId → files' f = files f := by
    have hdata := h.data _ lay.tailId_le_headId (le_refl _)
    cases hopen : files lay.headId with
    | some fd =>
      refine ⟨files, ?_, ?_, fun _ _ => rfl⟩
      · rw [openFile, withFiles_files, hopen]
      rw [hother _ hnotMem, withFiles_files] at hopen ⊢
      by_cases hzero : 0 < lay.headId
      · simp [hzero] at hopen
      rw [if_neg hzero]
      exact hfile
    | none =>
      refine ⟨_, openFile_existing hopen hdata, update_self _ _ _, ?_⟩
      intro f hf
      exact update_of_ne hf _ _
  obtain ⟨files', hopen, hhead, hrest⟩ := hlast
  refine ⟨(t.withFiles files').setHead lay.headId, ?_, ?_, rfl⟩
  · rw [← h.tailId, ← h.headId] at hrun
    rw [← h.headId] at hopen ⊢
    exact bind_eq_ok.2 ⟨_, hrun, bind_eq_ok.2 ⟨_, hopen, rfl⟩⟩
  refine { h with
    head := rfl, headFile := hhead, isOpen := ?_, notOpen := ?_ }
  · intro f hlo hhi
    by_cases heq : f = lay.headId
    · rw [heq]
      exact isSome_iff_exists.2 ⟨_, hhead⟩
    · have hlt := (hmem f).2 ⟨hlo, lt_of_le_of_ne hhi heq⟩
      exact (congrArg isSome (hrest f heq)).trans (hsome f hlt)
  intro f hlt
  have hne : f ≠ lay.headId := (ne_of_lt hlt).symm
  have hnot : f ∉ range' lay.tailId (lay.headId - lay.tailId) := by
    rw [hmem]
    omega
  have hnone := hother f hnot
  rw [withFiles_files, if_pos (Nat.zero_lt_of_lt hlt)] at hnone
  exact (hrest f hne).trans hnone

theorem repairIndex_whole {n : Nat} (h : t.dir.index.length = (n + 1) * indexEntrySize) :
    t.repairIndex = t := by
  have hpositive : t.dir.index.length ≠ 0 := by
    rw [h, indexEntrySize]
    omega
  have hwhole : ¬ t.dir.index.length % indexEntrySize ≠ 0 := by
    rw [h]
    simp
  rw [repairIndex]
  simp only [if_neg hpositive, if_neg hwhole]

theorem repairIndex_stored (h : lay.Stored t.dir) (hpos : t.index = some t.dir.index.length) :
    ∃ bytes, bytes = lay.entries.flatMap IndexEntry.marshallBinary ∧ t.repairIndex =
      { t with index := some bytes.length, dir := { t.dir with index := bytes } } := by
  refine ⟨_, rfl, ?_⟩
  obtain hindex | ⟨hindex, rfl⟩ := h.index
  · have hlen : t.dir.index.length = (lay.its.length + 1) * indexEntrySize := by
      rw [hindex, records_length IndexEntry.marshallBinary_length, lay.entries_length]
    rw [repairIndex_whole hlen, ← hindex, ← hpos]
  rw [repairIndex]
  simp only [hindex, writeIndex, hpos]
  rfl

theorem repairLoop_of_eq {n : Nat} {e : IndexEntry} {size : Nat} (h : e.offset = size) :
    repairLoop n t e size = .ok (t, n, e, size) := by
  rw [repairLoop.eq_def, if_pos h]

theorem repairHead_eq {first last : IndexEntry} {n : Nat}
    (hn : t.dir.index.length / indexEntrySize = n + 1) (hfirst : t.readEntry 0 = some first)
    (hlast : t.readEntry n = some last) (hfile : t.files last.filenum = none)
    (hsize : last.offset = (t.contents last.filenum).length) :
    t.repairHead = preopen ((((t.setTail first).setFile last.filenum (t.contents last.filenum)
      ⟨false, last.offset⟩).setHead last.filenum).setCounters (n + 1) last last.offset) := by
  have hlast' : (t.setTail first).readEntry n = some last := hlast
  have hopen : (t.setTail first).openHead last.filenum = .ok (((t.setTail first).setFile
      last.filenum (t.contents last.filenum) ⟨false, last.offset⟩).setHead last.filenum) := by
    rw [hsize, openHead, openFile_forAppend (t := t.setTail first) hfile]
    rfl
  have hcontents : ((((t.setTail first).setFile last.filenum (t.contents last.filenum)
      ⟨false, last.offset⟩).setHead last.filenum).contents last.filenum).length = last.offset := by
    simp [contents, setHead, setFile, hsize]
  rw [repairHead]
  simp only [hn, hfirst, getD_some, Nat.add_sub_cancel, hlast', if_neg n.succ_ne_zero]
  rw [hopen]
  show (repairLoop _ _ _ _ >>= _) = _
  rw [hcontents, repairLoop_of_eq rfl]
  rfl

theorem repairHead_opened (hindex : t.dir.index = lay.entries.flatMap IndexEntry.marshallBinary)
    (hpos : t.index = some t.dir.index.length) (hfiles : t.files lay.headId = none)
    (hdata : ∀ f, lay.tailId ≤ f → f < lay.headId → t.dir.data f = some (segment lay.its f))
    (hhead : t.contents lay.headId = segment lay.its lay.headId) :
    ∃ t', t.repairHead = .ok t' ∧ Opened t' lay ∧ t'.noCompression = t.noCompression := by
  have hn : t.dir.index.length / indexEntrySize = lay.its.length + 1 := by
    rw [hindex, records_length IndexEntry.marshallBinary_length, lay.entries_length]
    exact Nat.mul_div_cancel _ (by decide)
  rw [repairHead_eq hn (readEntry_eq hindex 0) (readEntry_last hindex) hfiles
    (congrArg length hhead.symm)]
  refine preopen_opened ?_ ?_
  · refine { index := hindex, indexPos := hpos, items := rfl, tailId := rfl, itemOffset := rfl,
             headId := rfl, headBytes := Nat.mod_eq_of_lt (lay.size_lt _), data := ?_ }
    intro f hlo hhi
    by_cases heq : f = lay.headId
    · subst heq
      simp [setCounters, setHead, setFile, setTail, hhead]
    · have hlt := lt_of_le_of_ne hhi heq
      simpa [setCounters, setHead, setFile, setTail, heq] using hdata f hlo hlt
  · simp [setCounters, setHead, setFile, setTail]

theorem newCustomTable_opened {dir : Dir} (h : lay.Stored dir) (maxFilesize : Nat)
    (noCompression : Bool) : ∃ t, newCustomTable dir maxFilesize noCompression = .ok t ∧
      Opened t lay ∧ t.noCompression = noCompression := by
  obtain ⟨bytes, hbytes, hrepair⟩ :=
    repairIndex_stored (t := indexOpened dir maxFilesize noCompression) h rfl
  rw [newCustomTable, repair, hrepair]
  exact repairHead_opened hbytes rfl rfl h.data h.head

/-! ### Retrieving -/

theorem ending_offset {j : Nat} (h : lay.its[j]? = some it) : (Layout.ending lay.its j it).offset =
      (segment (lay.its.take j) it.1).length + it.2.length := by
  rw [Layout.ending, segment_take_succ h, if_pos rfl, length_append]

theorem getBounds_opened (hindex : t.dir.index = lay.entries.flatMap IndexEntry.marshallBinary)
    {j : Nat} (hit : lay.its[j]? = some it) :
    t.getBounds j = .ok ((segment (lay.its.take j) it.1).length,
      (segment (lay.its.take j) it.1).length + it.2.length, it.1) := by
  have hend : t.readEntry (j + 1) = some (Layout.ending lay.its j it) := by
    rw [readEntry_eq hindex, lay.entries_succ, hit, map_some]
  rw [getBounds, hend]
  simp only [ending_offset hit]
  cases j with
  | zero => simp [Layout.ending]
  | succ k =>
    have hlt : k < lay.its.length := by
      have := (List.getElem?_eq_some_iff.1 hit).1
      omega
    have hprev : lay.its[k]? = some lay.its[k] := getElem?_eq_getElem hlt
    have hstart : t.readEntry (k + 1) = some (Layout.ending lay.its k lay.its[k]) := by
      rw [readEntry_eq hindex, lay.entries_succ, hprev, map_some]
    rw [hstart]
    by_cases hfile : lay.its[k].1 = it.1
    · simp [Layout.ending, hfile]
    have hnil := segment_take_of_ne lay.ascending hprev hit hfile
    simp [Layout.ending, hfile, hnil]

theorem item_length_lt {j : Nat} (h : lay.its[j]? = some it) : it.2.length < 2 ^ 32 := by
  have hlen := lay.size_lt it.1
  rw [← segment_take_append lay.its (j + 1), segment_take_succ h, if_pos rfl] at hlen
  simp only [length_append] at hlen
  omega

theorem readBlob_opened (snappy : Snappy) (h : Opened t lay) {j : Nat}
    (hit : lay.its[j]? = some it) :
    t.readBlob snappy (segment (lay.its.take j) it.1).length
      ((segment (lay.its.take j) it.1).length + it.2.length) it.1 = t.decode snappy it.2 := by
  have hmem := mem_of_getElem? hit
  have hdata := h.data it.1 (lay.tail_le it hmem) (lay.file_le_headId hmem)
  obtain ⟨fd, hfd⟩ := isSome_iff_exists.1
    (h.isOpen it.1 (lay.tail_le it hmem) (lay.file_le_headId hmem))
  rw [readBlob, hfd, subUint32_add (item_length_lt hit), contents, hdata]
  show t.decodeRead snappy (readAt (segment lay.its it.1) _ _) = _
  rw [read_item hit]
  rfl

theorem retrieve_opened (snappy : Snappy) (h : Opened t lay) {i : Nat} (hi : lay.itemOffset ≤ i)
    (hit : lay.its[i - lay.itemOffset]? = some it) :
    t.retrieve snappy i = t.decode snappy it.2 := by
  have hlt := (List.getElem?_eq_some_iff.1 hit).1
  rw [retrieve, if_neg (by rw [h.indexPos, h.head]; simp), if_neg (by rw [h.items]; omega),
    if_neg (by rw [h.itemOffset]; omega), h.itemOffset, getBounds_opened h.index hit]
  exact readBlob_opened snappy h hit

/-! ### Appending -/

theorem segment_next : segment lay.its (lay.headId + 1) = [] :=
  segment_eq_nil fun _ hit => Nat.ne_of_lt (Nat.lt_succ_of_le (lay.file_le_headId hit))

theorem advanceHead_opened (h : Opened t lay) (hnext : lay.headId + 1 < 2 ^ 16) :
    ∃ t', t.advanceHead = .ok t' ∧ OpenedAt t' lay (lay.headId + 1) ∧
      t'.noCompression = t.noCompression := by
  have hid : (t.headId + 1) % 2 ^ 32 = lay.headId + 1 := by
    rw [h.headId]
    exact Nat.mod_eq_of_lt (Nat.lt_trans hnext (by decide))
  have hne : lay.headId ≠ lay.headId + 1 := (Nat.succ_ne_self _).symm
  set t1 := t.setFile (lay.headId + 1) [] ⟨false, 0⟩
  have htrunc : t.openFile (lay.headId + 1) .truncated = .ok t1 := by
    rw [openFile, h.notOpen _ (Nat.lt_succ_self _)]
  have hdata : ∀ f, lay.tailId ≤ f → f ≤ lay.headId + 1 →
      t1.dir.data f = some (segment lay.its f) := by
    intro f hlo hhi
    by_cases heq : f = lay.headId + 1
    · subst heq
      simp [t1, setFile, segment_next]
    · simpa [t1, setFile, heq] using h.data f hlo (by omega)
  obtain ⟨files, hopen, hsome, hother⟩ := openFile_forReadOnly
    (t := t1.releaseFile lay.headId) (hdata _ lay.tailId_le_headId (Nat.le_succ _))
  have hfiles : ∀ f, f ≠ lay.headId → f ≠ lay.headId + 1 → files f = t.files f := by
    intro f hf hf'
    rw [hother f hf]
    simp [t1, releaseFile, setFile, hf, hf']
  have hnew : files (lay.headId + 1) = some ⟨false, 0⟩ := by
    rw [hother _ hne.symm]
    simp [t1, releaseFile, setFile]
  refine ⟨((t1.releaseFile lay.headId).withFiles files).swapHead (lay.headId + 1), ?_, ?_, rfl⟩
  · rw [advanceHead, hid]
    refine bind_eq_ok.2 ⟨_, htrunc, bind_eq_ok.2 ⟨_, ?_, rfl⟩⟩
    have hold : t1.headId = lay.headId := h.headId
    rw [hold]
    exact hopen
  refine { index := h.index, indexPos := h.indexPos, items := h.items, tailId := h.tailId,
           itemOffset := h.itemOffset, headId := rfl, headBytes := ?_, data := hdata, head := rfl,
           headFile := ?_, isOpen := ?_, notOpen := ?_ }
  · rw [segment_next]
    rfl
  · rw [segment_next]
    exact hnew
  · intro f hlo hhi
    show (files f).isSome
    by_cases hold : f = lay.headId
    · exact hold ▸ hsome
    by_cases heq : f = lay.headId + 1
    · rw [heq, hnew]
      rfl
    · rw [hfiles f hold heq]
      exact h.isOpen f hlo (by omega)
  · intro f hf
    exact (hfiles f (by omega) (by omega)).trans (h.notOpen f (by omega))

theorem writeItem_opened {f : Nat} {b : Bytes} (h : OpenedAt t lay f) (hle : lay.headId ≤ f)
    (hf : f < 2 ^ 16) (hb : (segment lay.its f).length + b.length < 2 ^ 32) :
    ∃ t', t.writeItem b = .ok t' ∧ OpenedAt t' (lay.push f b hle hf hb) f ∧
      t'.noCompression = t.noCompression := by
  have htail : lay.tailId ≤ f := Nat.le_trans lay.tailId_le_headId hle
  have hwrite : t.writeHead b = .ok (t.setFile f (segment lay.its f ++ b)
      ⟨false, (segment lay.its f).length + b.length⟩) := by
    rw [writeHead, h.head]
    simp only [h.headFile]
    rw [if_neg (by simp), contents, h.data f htail (Nat.le_refl _), getD_some, writeAt_length]
  have hoffset : (t.headBytes + b.length % 2 ^ 32) % 2 ^ 32 =
      (segment lay.its f).length + b.length := by
    rw [h.headBytes]
    omega
  have hpush : ∀ g, segment (lay.push f b hle hf hb).its g =
      segment lay.its g ++ if f = g then b else [] := by
    intro g
    rw [Layout.push_its, segment_append, segment_singleton]
  have hbytes : (lay.push f b hle hf hb).entries.flatMap IndexEntry.marshallBinary =
      t.dir.index ++ IndexEntry.marshallBinary ⟨f, (segment lay.its f).length + b.length⟩ := by
    rw [Layout.push_entries, flatMap_append, ← h.index, flatMap_singleton]
  refine ⟨{ t.setFile f (segment lay.its f ++ b) ⟨false, (segment lay.its f).length + b.length⟩ with
    items := t.items + 1
    headBytes := (segment lay.its f).length + b.length
    index := some ((lay.push f b hle hf hb).entries.flatMap IndexEntry.marshallBinary).length
    dir := ⟨(lay.push f b hle hf hb).entries.flatMap IndexEntry.marshallBinary,
      update t.dir.data f (some (segment lay.its f ++ b))⟩ }, ?_, ?_, rfl⟩
  · rw [writeItem, hwrite]
    show .ok _ = Except.ok _
    simp only [countItem, writeIndex, setFile, h.indexPos, h.headId, hoffset, writeAt_length,
      hbytes, length_append]
  refine { index := rfl, indexPos := rfl, items := ?_, tailId := h.tailId,
           itemOffset := h.itemOffset, headId := h.headId, headBytes := ?_, data := ?_,
           head := h.head, headFile := ?_, isOpen := ?_, notOpen := ?_ }
  · rw [Layout.push_its, length_append]
    exact congrArg (· + 1) h.items
  · rw [hpush, if_pos rfl, length_append]
  · intro g hlo hhi
    rw [hpush]
    by_cases heq : g = f
    · subst heq
      rw [if_pos rfl]
      exact update_self _ _ _
    rw [if_neg (Ne.symm heq), append_nil]
    exact (update_of_ne heq _ _).trans (h.data g hlo hhi)
  · rw [hpush, if_pos rfl, length_append]
    exact update_self _ _ _
  · intro g hlo hhi
    show (update t.files f _ g).isSome
    by_cases heq : g = f
    · subst heq
      rw [update_self]
      rfl
    rw [update_of_ne heq]
    exact h.isOpen g hlo hhi
  · intro g hg
    exact (update_of_ne (Nat.ne_of_gt hg) _ _).trans (h.notOpen g hg)

def nextFile (t : FreezerTable) (bLen : Nat) : Nat :=
  if t.rollsOver bLen then t.headId + 1 else t.headId

/-- **Appending adds an item.** The length of its encoding and the number of the file it goes to
must fit in an index entry. -/
theorem append_opened (snappy : Snappy) (h : Opened t lay) {blob : Bytes}
    (hlen : (t.encode snappy blob).length < 2 ^ 32)
    (hfile : t.nextFile (t.encode snappy blob).length < 2 ^ 16) :
    ∃ t' lay', t.append snappy t.items blob = .ok t' ∧ Opened t' lay' ∧
      lay'.itemOffset = lay.itemOffset ∧
      lay'.its.map (·.2) = lay.its.map (·.2) ++ [t.encode snappy blob] ∧
      t'.noCompression = t.noCompression := by
  generalize hb : t.encode snappy blob = b at hlen hfile ⊢
  have hready : ∃ t1 f, t.makeRoom b.length = .ok t1 ∧
      OpenedAt t1 lay f ∧ lay.headId ≤ f ∧ f < 2 ^ 16 ∧
      (segment lay.its f).length + b.length < 2 ^ 32 ∧ t1.noCompression = t.noCompression := by
    rw [nextFile, h.headId] at hfile
    rw [makeRoom]
    by_cases hroll : t.rollsOver b.length
    · rw [if_pos hroll] at hfile ⊢
      obtain ⟨t1, hadv, hopened, hnc⟩ := advanceHead_opened h hfile
      exact ⟨t1, _, hadv, hopened, Nat.le_succ _, hfile, by simpa [segment_next] using hlen, hnc⟩
    rw [if_neg hroll]
    refine ⟨t, _, rfl, h, le_refl _, lay.headId_lt, ?_, rfl⟩
    rw [rollsOver, h.headBytes] at hroll
    have := lay.size_lt lay.headId
    omega
  obtain ⟨t1, f, hadv, hopened, hle, hf, hfits, hnc⟩ := hready
  obtain ⟨t', hwrite, hopened', hnc'⟩ := writeItem_opened hopened hle hf hfits
  refine ⟨t', lay.push f b hle hf hfits, ?_, ?_, rfl, by simp, hnc'.trans hnc⟩
  · rw [append, if_neg (by rw [h.indexPos, h.head]; simp), if_neg (by simp)]
    simp only [hb, Nat.mod_eq_of_lt hlen]
    exact bind_eq_ok.2 ⟨t1, hadv, hwrite⟩
  rw [Opened, Layout.push_headId]
  exact hopened'

/-! ### Truncating -/

def withHead (t : FreezerTable) (num : Nat) (files : Nat → Option OpenFile)
    (data : Nat → Option Bytes) : FreezerTable :=
  { t with head := some num, headId := num, files := files, dir := { t.dir with data := data } }

theorem resetHead_opened (h : Opened t lay) (htail : lay.tailId ≤ num) (hnum : num ≤ lay.headId)
    (size : Nat) : ∃ files data,
      (t.truncateIndex size).resetHead num = .ok ((t.truncateIndex size).withHead num files data) ∧
      files num = some ⟨false, (segment lay.its num).length⟩ ∧
      (∀ f, lay.tailId ≤ f → f ≤ num → (files f).isSome) ∧
      (∀ f, lay.tailId ≤ f → f ≤ num → data f = some (segment lay.its f)) ∧
      ∀ f, num < f → files f = none := by
  set t1 := t.truncateIndex size
  by_cases heq : num = lay.headId
  · refine ⟨t.files, t.dir.data, ?_, heq ▸ h.headFile, heq ▸ h.isOpen, heq ▸ h.data,
      heq ▸ h.notOpen⟩
    have hid : t1.headId = num := h.headId.trans heq.symm
    have hhead : t.head = some num := heq ▸ h.head
    rw [resetHead, if_neg (by simp [hid])]
    have hsame : t.withHead num t.files t.dir.data = t := by
      rw [withHead, ← hhead, ← hid]
      rfl
    exact congrArg (fun t' : FreezerTable => Except.ok (t'.truncateIndex size)) hsame.symm
  set t2 := t1.releaseFile num
  have hdata := h.data num htail hnum
  have hid : num ≠ t1.headId := fun hid => heq (hid.trans h.headId)
  have hopen : t2.openHead num = .ok ((t2.withFiles (update t2.files num
      (some ⟨false, (segment lay.its num).length⟩))).setHead num) := by
    have hfile : t2.files num = none := by simp [t2, releaseFile]
    rw [openHead, openFile_existing hfile hdata]
    rfl
  generalize hfiles : update t2.files num (some ⟨false, (segment lay.its num).length⟩) = files
    at hopen
  have hself : files num = some ⟨false, (segment lay.its num).length⟩ := by
    rw [← hfiles, update_self]
  have hother : ∀ f, f ≠ num → files f = t.files f := by
    intro f hf
    rw [← hfiles, update_of_ne hf]
    exact update_of_ne hf _ _
  refine ⟨fun f => if num < f then none else files f, fun f => if (true : Bool) ∧ num < f ∧
    (files f).isSome then none else t.dir.data f, ?_, ?_, ?_, ?_, ?_⟩
  · rw [resetHead, if_pos hid, hopen]
    rfl
  · exact (if_neg num.lt_irrefl).trans hself
  · intro f hlo hhi
    refine (congrArg isSome (if_neg (not_lt.2 hhi))).trans ?_
    by_cases hf : f = num
    · rw [hf, hself]
      rfl
    · rw [hother f hf]
      exact h.isOpen f hlo (le_trans hhi hnum)
  · intro f hlo hhi
    have hnot : ¬ ((true : Bool) ∧ num < f ∧ (files f).isSome) := by omega
    exact (if_neg hnot).trans (h.data f hlo (le_trans hhi hnum))
  · intro f hf
    exact if_pos hf

theorem truncate_opened (h : Opened t lay) (hzero : lay.itemOffset = 0) {n : Nat}
    (hn : n < t.items) : ∃ t', t.truncate n = .ok t' ∧ Opened t' (lay.cut hzero n) ∧
      t'.noCompression = t.noCompression := by
  have hlen : n < lay.its.length := by
    have := h.items
    omega
  have hindex : (t.truncateIndex ((n + 1) * indexEntrySize)).dir.index =
      (lay.cut hzero n).entries.flatMap IndexEntry.marshallBinary := by
    rw [Layout.cut_entries, truncateIndex, h.index]
    exact resize_records IndexEntry.marshallBinary_length (by rw [lay.entries_length]; omega)
  have hcut : (lay.cut hzero n).its.length = n := by
    rw [Layout.cut_its, length_take, Nat.min_eq_left (Nat.le_of_lt hlen)]
  set lay' := lay.cut hzero n with hlay'
  set t1 := t.truncateIndex ((n + 1) * indexEntrySize)
  have hread := readEntry_last hindex
  rw [hcut] at hread
  set seg := segment lay'.its lay'.headId with hseg
  obtain ⟨files, data, hreset, hhead, hopen, hdata, hnot⟩ := resetHead_opened h
    lay'.tailId_le_headId Layout.cut_headId_le ((n + 1) * indexEntrySize)
  have hdataHead := hdata _ lay'.tailId_le_headId (Nat.le_refl _)
  have htrunc : (t1.withHead lay'.headId files data).truncateHead seg.length =
      .ok ((t1.withHead lay'.headId files data).setFile lay'.headId seg ⟨false, seg.length⟩) := by
    have hresize : resize (segment lay.its lay'.headId) seg.length = seg := by
      rw [hseg, hlay', Layout.cut_its, resize_of_le segment_take_length_le, ← segment_take_eq]
    rw [truncateHead]
    simp only [withHead, hhead, contents, hdataHead, getD_some, hresize]
    rfl
  refine ⟨{ (t1.withHead lay'.headId files data).setFile lay'.headId seg ⟨false, seg.length⟩ with
    items := n, headBytes := seg.length }, ?_, ?_, rfl⟩
  · rw [truncate, if_neg (Nat.not_le.2 hn), if_neg (by rw [h.indexPos]; simp)]
    have hexpected : (t.truncateIndex ((n + 1) * indexEntrySize)).readEntry n = _ := hread
    simp only [hexpected]
    exact bind_eq_ok.2 ⟨_, hreset, bind_eq_ok.2 ⟨_, htrunc, rfl⟩⟩
  refine { index := hindex, indexPos := ?_, items := ?_, tailId := h.tailId,
           itemOffset := h.itemOffset, headId := rfl, headBytes := rfl, data := ?_, head := rfl,
           headFile := update_self _ _ _, isOpen := ?_, notOpen := ?_ }
  · exact congrArg some resize_length.symm
  · show n = lay.itemOffset + lay'.its.length
    rw [hzero, hcut, Nat.zero_add]
  · intro f hlo hhi
    by_cases heq : f = lay'.headId
    · subst heq
      exact update_self _ _ _
    · rw [Layout.cut_segment (Nat.lt_of_le_of_ne hhi heq) hlo]
      exact (update_of_ne heq _ _).trans (hdata f hlo hhi)
  · intro f hlo hhi
    show (update files lay'.headId _ f).isSome
    by_cases heq : f = lay'.headId
    · subst heq
      rw [update_self]
      rfl
    rw [update_of_ne heq]
    exact hopen f hlo hhi
  · intro f hf
    exact (update_of_ne (Nat.ne_of_gt hf) _ _).trans (hnot f hf)

/-! ## Runs -/

section Runs

variable (snappy : Snappy)

theorem decode_encode (b : Bytes) : t.decode snappy (t.encode snappy b) = .ok b := by
  rw [decode, encode]
  split
  · rfl
  · rw [snappy.decode_encode]

theorem encode_eq (h : t'.noCompression = t.noCompression) :
    t'.encode snappy = t.encode snappy := by
  funext b
  rw [encode, encode, h]

/-- What the operations do to the list of all items, those that were deleted from the tail
included. -/
def logStep (log : List Bytes) : Op → List Bytes
  | .append item blob => if item = log.length then log ++ [blob] else log
  | .truncate items => log.take items
  | .reopen _ => log

/-- A table shows a list of items of which the first were deleted from its tail. -/
structure Shows (t : FreezerTable) (offset : Nat) (log : List Bytes) : Prop where
  items : t.items = log.length
  present : ∀ i blob, offset ≤ i → log[i]? = some blob → t.retrieve snappy i = .ok blob
  absent : ∀ i, i < offset ∨ log.length ≤ i → t.retrieve snappy i = .error .outOfBounds

def Represents (t : FreezerTable) (offset : Nat) (log : List Bytes) : Prop :=
  ∃ lay, Opened t lay ∧ lay.itemOffset = offset ∧ offset ≤ log.length ∧
    lay.its.map (·.2) = (log.drop offset).map (t.encode snappy)

/-- An operation stays inside what the format can hold, and does not truncate a table that lost
items from its tail. -/
def Within (t : FreezerTable) : Op → Prop
  | .append item blob => item = t.items →
      (t.encode snappy blob).length < 2 ^ 32 ∧ t.nextFile (t.encode snappy blob).length < 2 ^ 16
  | .truncate items => t.itemOffset ≤ items ∧ (t.itemOffset = 0 ∨ t.items ≤ items)
  | .reopen _ => True

def WithinAll : FreezerTable → List Op → Prop
  | _, [] => True
  | t, op :: ops => t.Within snappy op ∧
      ∀ t', t.step snappy op = .ok t' → WithinAll t' ops

variable {snappy} {offset : Nat} {log : List Bytes}

theorem Represents.shows (h : Represents snappy t offset log) : Shows snappy t offset log := by
  obtain ⟨lay, hopened, rfl, hle, hits⟩ := h
  have hlen : lay.itemOffset + lay.its.length = log.length := by
    have := congrArg length hits
    simp only [length_map, length_drop] at this
    omega
  refine ⟨hopened.items.trans hlen, fun i blob hoff hi => ?_, fun i hi => ?_⟩
  · have hget := congrArg (fun l => l[i - lay.itemOffset]?) hits
    simp only [getElem?_map, getElem?_drop, Nat.add_sub_cancel' hoff, hi,
      map_some, map_eq_some_iff] at hget
    obtain ⟨it, hit, hb⟩ := hget
    rw [retrieve_opened snappy hopened hoff hit, hb, decode_encode]
  rw [← hlen] at hi
  rw [retrieve, if_neg (by rw [hopened.indexPos, hopened.head]; simp), hopened.items,
    hopened.itemOffset]
  split
  · rfl
  · rw [if_pos (by omega)]

theorem opened_stored (h : Opened t lay) : lay.Stored t.dir where
  index := .inl h.index
  data := fun f hlo hhi => h.data f hlo (le_of_lt hhi)
  head := by
    rw [h.data _ lay.tailId_le_headId (le_refl _)]
    rfl

theorem step_represents {op : Op} (h : Represents snappy t offset log) (hop : t.Within snappy op) :
    ∃ t', t.step snappy op = .ok t' ∧ Represents snappy t' offset (logStep log op) := by
  have hitems : t.items = log.length := h.shows.items
  obtain ⟨lay, hopened, rfl, hle, hits⟩ := id h
  cases op with
  | append item blob =>
    rw [logStep, ← hitems]
    by_cases hitem : item = t.items
    · obtain ⟨hlen, hfile⟩ := hop hitem
      subst hitem
      obtain ⟨t', lay', happend, hopened', hoff, hits', hnc⟩ :=
        append_opened snappy hopened hlen hfile
      rw [if_pos rfl]
      refine ⟨t', by rw [step, happend], lay', hopened', hoff, ?_, ?_⟩
      · rw [length_append]
        exact Nat.le_add_right_of_le hle
      · rw [hits', hits, drop_append_of_le_length hle, map_append, encode_eq snappy hnc,
          map_singleton]
    rw [if_neg hitem]
    refine ⟨t, ?_, h⟩
    rw [step, append, if_neg (by rw [hopened.indexPos, hopened.head]; simp), if_pos (.symm hitem)]
  | truncate n =>
    rw [logStep]
    obtain ⟨hoff, hcut⟩ := hop
    by_cases hn : t.items ≤ n
    · refine ⟨t, by rw [step, truncate, if_pos hn], ?_⟩
      rwa [take_of_length_le (hitems ▸ hn)]
    have hzero : lay.itemOffset = 0 := hopened.itemOffset ▸ hcut.resolve_right hn
    obtain ⟨t', htrunc, hopened', hnc⟩ := truncate_opened hopened hzero (not_le.1 hn)
    refine ⟨t', htrunc, _, hopened', rfl, by rw [hzero]; exact Nat.zero_le _, ?_⟩
    rw [hzero, drop_zero] at hits ⊢
    rw [Layout.cut_its, map_take, hits, encode_eq snappy hnc, map_take]
  | reopen maxFilesize =>
    obtain ⟨t', hopen, hopened', hnc⟩ :=
      newCustomTable_opened (opened_stored hopened) maxFilesize t.noCompression
    exact ⟨t', hopen, lay, hopened', rfl, hle, by rw [hits, encode_eq snappy hnc]; rfl⟩

theorem run_represents {ops : List Op} (h : Represents snappy t offset log)
    (hops : WithinAll snappy t ops) :
    ∃ t', run (step snappy) t ops = .ok t' ∧
      Represents snappy t' offset (ops.foldl logStep log) := by
  induction ops generalizing t log with
  | nil => exact ⟨t, rfl, h⟩
  | cons op ops ih =>
    obtain ⟨t1, hstep, h1⟩ := step_represents h hops.1
    obtain ⟨t', hrun, h'⟩ := ih h1 (hops.2 t1 hstep)
    exact ⟨t', run_cons_ok.2 ⟨t1, hstep, hrun⟩, h'⟩

/-! ### Truncating a table that lost items

The new size of the index does not take the lost items into account: it keeps one entry for every
item up to the limit, as if all of them were there. The head file ends where the last of these
entries says, so the table opens without a repair, and then counts the lost items again. -/

theorem openFile_frame {opener : Opener} (h : t.openFile num opener = .ok t') :
    t'.items = t.items ∧ t'.dir.index = t.dir.index := by
  unfold openFile at h
  split at h
  · cases h
    exact ⟨rfl, rfl⟩
  split at h
  · cases h
    exact ⟨rfl, rfl⟩
  · cases h
    exact ⟨rfl, rfl⟩
  split at h
  · cases h
  cases h
  exact ⟨rfl, rfl⟩

theorem openHead_frame (h : t.openHead num = .ok t') :
    t'.items = t.items ∧ t'.dir.index = t.dir.index ∧ t'.head = some num := by
  obtain ⟨t1, hopen, h⟩ := bind_eq_ok.1 h
  cases h
  exact ⟨(openFile_frame hopen).1, (openFile_frame hopen).2, rfl⟩

theorem preopen_items (h : t.preopen = .ok t') : t'.items = t.items := by
  obtain ⟨t1, hrun, hopen⟩ := bind_eq_ok.1 h
  have hstep : t1.items = t.items := run_invariant (I := fun u => u.items = t.items)
    (fun u i u' hu hu' => (openFile_frame hu').1.trans hu) rfl hrun
  exact (openHead_frame hopen).1.trans hstep

theorem resetHead_frame (hhead : t.head = some t.headId)
    (h : t.resetHead num = .ok t') : t'.dir.index = t.dir.index ∧ t'.head = some num := by
  rw [resetHead] at h
  by_cases heq : num = t.headId
  · rw [if_neg (by simp [heq])] at h
    cases h
    exact ⟨rfl, heq ▸ hhead⟩
  rw [if_pos heq] at h
  obtain ⟨t1, hopen, h⟩ := bind_eq_ok.1 h
  cases h
  exact (openHead_frame hopen).2

theorem truncateHead_frame {num size : Nat} (hhead : t.head = some num)
    (h : t.truncateHead size = .ok t') :
    t'.dir.index = t.dir.index ∧ (t'.contents num).length = size := by
  rw [truncateHead, hhead] at h
  simp only at h
  split at h
  · cases h
  split at h
  · cases h
  cases h
  simp [setFile, contents]

theorem truncate_frame (h : Opened t lay) {n : Nat} (hn : n < t.items)
    (htrunc : t.truncate n = .ok t') :
    t'.dir.index = resize t.dir.index ((n + 1) * indexEntrySize) ∧
      ∃ e, t'.readEntry n = some e ∧ e.offset = (t'.contents e.filenum).length := by
  rw [truncate, if_neg (not_le.2 hn), if_neg (by rw [h.indexPos]; simp)] at htrunc
  cases hread : (t.truncateIndex ((n + 1) * indexEntrySize)).readEntry n with
  | none =>
    simp only [hread] at htrunc
    cases htrunc
  | some e =>
    simp only [hread] at htrunc
    obtain ⟨t1, hreset, htrunc⟩ := bind_eq_ok.1 htrunc
    obtain ⟨t2, hcut, htrunc⟩ := bind_eq_ok.1 htrunc
    cases htrunc
    have hhead : (t.truncateIndex ((n + 1) * indexEntrySize)).head =
        some (t.truncateIndex ((n + 1) * indexEntrySize)).headId :=
      h.head.trans (congrArg some h.headId.symm)
    obtain ⟨hindex1, hhead1⟩ := resetHead_frame hhead hreset
    obtain ⟨hindex2, hsize⟩ := truncateHead_frame hhead1 hcut
    have hindex := hindex2.trans hindex1
    refine ⟨hindex, e, ?_, hsize.symm⟩
    rw [← hread, readEntry, readEntry, ← hindex]

/-- **A table that lost items counts them again after it was truncated and opened.** -/
theorem truncate_reopen (h : Opened t lay) {n : Nat} (hn : n < t.items) {maxFilesize : Nat}
    (hrun : run (step snappy) t [.truncate n, .reopen maxFilesize] = .ok t') :
    t'.items = lay.itemOffset + n := by
  obtain ⟨t1, htrunc, hrun⟩ := run_cons_ok.1 hrun
  rw [run_singleton] at hrun
  obtain ⟨hindex, e, he, hsize⟩ := truncate_frame h hn htrunc
  have hlen : t1.dir.index.length = (n + 1) * indexEntrySize := by rw [hindex, resize_length]
  have hfirst : t1.readEntry 0 = some ⟨lay.tailId, lay.itemOffset⟩ := by
    rw [readEntry, hindex, readAt_resize]
    · exact readEntry_eq h.index 0
    · rw [h.index, records_length IndexEntry.marshallBinary_length]
      exact Nat.le_mul_of_pos_left _ (Nat.succ_pos _)
    · exact Nat.le_mul_of_pos_left _ (Nat.succ_pos _)
  have hwhole := repairIndex_whole (t := indexOpened t1.close.dir maxFilesize t1.noCompression) hlen
  have hhead := repairHead_eq (t := indexOpened t1.close.dir maxFilesize t1.noCompression)
    (Nat.div_eq_of_eq_mul_left (by decide) hlen) hfirst he rfl hsize
  rw [step, newCustomTable, repair, hwhole, hhead] at hrun
  exact preopen_items hrun

end Runs

/-- A directory holds a list of items, of which the first were deleted from the tail. -/
def HoldsLog (snappy : Snappy) (dir : Dir) (noCompression : Bool) (offset : Nat)
    (log : List Bytes) : Prop :=
  ∃ lay : Layout, lay.Stored dir ∧ lay.itemOffset = offset ∧ offset ≤ log.length ∧
    lay.its.map (·.2) =
      (log.drop offset).map fun blob => if noCompression then blob else snappy.encode blob

/-- **A freezer table is a log, as long as no items that are left of a table that lost some are
truncated.** A truncation that cuts, followed by a reopen, keeps to that if and only if nothing was
deleted from the tail. -/
theorem freezerTable_log_iff (snappy : Snappy) {dir : Dir} {noCompression : Bool} {offset : Nat}
    {log : List Bytes} (h : HoldsLog snappy dir noCompression offset log) (maxFilesize : Nat) :
    ∃ t, newCustomTable dir maxFilesize noCompression = .ok t ∧
      (∀ ops, WithinAll snappy t ops → ∃ t', run (step snappy) t ops = .ok t' ∧
        Shows snappy t' offset (ops.foldl logStep log)) ∧
      ∀ n, offset ≤ n → n < log.length → ∀ maxFilesize',
        ((∃ t', run (step snappy) t [.truncate n, .reopen maxFilesize'] = .ok t' ∧
          Shows snappy t' offset (log.take n)) ↔ offset = 0) := by
  obtain ⟨lay, hstored, rfl, hle, hits⟩ := h
  obtain ⟨t, hopen, hopened, hnc⟩ := newCustomTable_opened hstored maxFilesize noCompression
  have hrep : Represents snappy t lay.itemOffset log := by
    refine ⟨lay, hopened, rfl, hle, hits.trans ?_⟩
    refine map_congr_left fun b _ => ?_
    rw [encode, hnc]
  refine ⟨t, hopen, fun ops hops => ?_, fun n hoff hn maxFilesize' => ⟨?_, fun hzero => ?_⟩⟩
  · obtain ⟨t', hrun, hrep'⟩ := run_represents hrep hops
    exact ⟨t', hrun, hrep'.shows⟩
  · rintro ⟨t', hrun, hshows⟩
    have hitems := truncate_reopen hopened (hrep.shows.items ▸ hn) hrun
    have hcount := hshows.items
    rw [length_take] at hcount
    omega
  have hops : WithinAll snappy t [.truncate n, .reopen maxFilesize'] := by
    refine ⟨⟨?_, .inl ?_⟩, fun t' _ => ⟨trivial, fun _ _ => trivial⟩⟩
    · rw [hopened.itemOffset]
      exact hoff
    · rw [hopened.itemOffset, hzero]
  obtain ⟨t', hrun, hrep'⟩ := run_represents hrep hops
  exact ⟨t', hrun, hrep'.shows⟩

/-! ### A table that lost its first item -/

def plain : Snappy := ⟨id, some, fun _ => rfl⟩

def cropped : Dir where
  index := IndexEntry.marshallBinary ⟨1, 1⟩ ++ IndexEntry.marshallBinary ⟨1, 1⟩ ++
    IndexEntry.marshallBinary ⟨1, 2⟩
  data := fun f => if f = 1 then some [0x0b, 0x0c] else none

def croppedLayout : Layout where
  tailId := 1
  itemOffset := 1
  its := [(1, [0x0b]), (1, [0x0c])]
  ascending := by simp [Ascending]
  tail_le := by simp
  tail_lt := by decide
  file_lt := by simp
  offset_lt := by decide
  size_lt := by
    intro f
    by_cases hf : f = 1
    · subst hf
      decide
    · simp [Lib.segment, Ne.symm hf]
  nonempty := .inr (by simp)

theorem holdsLog_cropped : HoldsLog plain cropped true 1 [[0x0a], [0x0b], [0x0c]] := by
  refine ⟨croppedLayout, ⟨.inl (by decide), ?_, by decide⟩, rfl, by decide, by decide⟩
  intro f hlo hhi
  exact absurd (lt_of_le_of_lt hlo hhi) (by decide)

theorem freezerTable_log_cropped :
    ∃ t, newCustomTable cropped 2 true = .ok t ∧
      (∀ ops, WithinAll plain t ops → ∃ t', run (step plain) t ops = .ok t' ∧
        Shows plain t' 1 (ops.foldl logStep [[0x0a], [0x0b], [0x0c]])) ∧
      ∀ n, 1 ≤ n → n < 3 → ∀ maxFilesize',
        ((∃ t', run (step plain) t [.truncate n, .reopen maxFilesize'] = .ok t' ∧
          Shows plain t' 1 ([[0x0a], [0x0b], [0x0c]].take n)) ↔ 1 = 0) :=
  freezerTable_log_iff plain holdsLog_cropped 2

/-- Of the three items, one was lost and one is truncated. The table counts three again, and the
truncated item is back. -/
theorem truncate_cropped_returns :
    (newCustomTable cropped 2 true >>= fun t =>
      run (step plain) t [.truncate 2, .reopen 2]).map (fun t => (t.items, t.retrieve plain 2)) =
        .ok (3, .ok [0x0c]) ∧
      [Op.truncate 2, .reopen 2].foldl logStep [[0x0a], [0x0b], [0x0c]] = [[0x0a], [0x0b]] := by
  decide +kernel

end FreezerTable

end Virbicoin.Rawdb
