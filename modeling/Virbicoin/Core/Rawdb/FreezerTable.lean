import Mathlib.Data.BitVec
import Mathlib.Logic.Function.Basic
import Virbicoin.Lib.BigEndian
import Virbicoin.Lib.Run
import Virbicoin.Lib.Segments

/-!
# Freezer tables

`core/rawdb/freezer_table.go`: an index file of entries of six bytes and numbered data files. Entry
`i + 1` of the index holds the number of the file that item `i` lies in and the offset where it
ends; entry `0` holds the number of the first file and, in place of an offset, how many items were
deleted from the tail.

A table is modelled together with its directory. A descriptor of a data file carries its position
and whether it is open for reading only. Sizes and positions are natural numbers where the source
has 64 bits, and numbers modulo `2 ^ 32` where it has `uint32`.
-/

namespace Virbicoin.Rawdb

open Virbicoin.Lib

abbrev Bytes := List (BitVec 8)

/-! ## Index entries -/

structure IndexEntry where
  filenum : Nat
  offset : Nat
  deriving DecidableEq

def indexEntrySize : Nat := 6

def IndexEntry.unmarshalBinary (b : Bytes) : IndexEntry :=
  ⟨ofBigEndian (b.take 2), ofBigEndian ((b.drop 2).take 4)⟩

def IndexEntry.marshallBinary (i : IndexEntry) : Bytes :=
  bigEndian 2 i.filenum ++ bigEndian 4 i.offset

@[simp] theorem IndexEntry.marshallBinary_length (i : IndexEntry) :
    i.marshallBinary.length = indexEntrySize := by
  simp [marshallBinary, indexEntrySize]

theorem IndexEntry.unmarshal_marshall {i : IndexEntry} (hf : i.filenum < 2 ^ 16)
    (ho : i.offset < 2 ^ 32) : unmarshalBinary i.marshallBinary = i := by
  have hfile : (bigEndian 2 i.filenum ++ bigEndian 4 i.offset).take 2 = bigEndian 2 i.filenum :=
    List.take_left' (bigEndian_length 2 _)
  have hoff : (bigEndian 2 i.filenum ++ bigEndian 4 i.offset).drop 2 = bigEndian 4 i.offset :=
    List.drop_left' (bigEndian_length 2 _)
  rw [unmarshalBinary, marshallBinary, hfile, hoff,
    List.take_of_length_le (Nat.le_of_eq (bigEndian_length 4 _)), ofBigEndian_bigEndian,
    ofBigEndian_bigEndian]
  exact congrArg₂ IndexEntry.mk (Nat.mod_eq_of_lt hf) (Nat.mod_eq_of_lt ho)

/-! ## Tables -/

/-- The files of a table. An index file that does not exist is empty. -/
structure Dir where
  index : Bytes
  data : Nat → Option Bytes

structure OpenFile where
  readOnly : Bool
  pos : Nat
  deriving DecidableEq

inductive Err
  | closed
  | unexpectedItem (want got : Nat)
  | outOfBounds
  | missingDataFile (filenum : Nat)
  | corrupt
  | io
  deriving DecidableEq

/-- The compression of items, which loses nothing. -/
structure Snappy where
  encode : Bytes → Bytes
  decode : Bytes → Option Bytes
  decode_encode : ∀ b, decode (encode b) = some b

structure FreezerTable where
  items : Nat := 0
  noCompression : Bool
  maxFileSize : Nat
  head : Option Nat := none
  files : Nat → Option OpenFile := fun _ => none
  headId : Nat := 0
  tailId : Nat := 0
  /-- The position of the descriptor of the index file, `none` once it is closed. -/
  index : Option Nat
  itemOffset : Nat := 0
  headBytes : Nat := 0
  dir : Dir

inductive Opener
  | forAppend
  | forReadOnly
  | truncated

namespace FreezerTable

/-! ## Files -/

def contents (t : FreezerTable) (num : Nat) : Bytes := (t.dir.data num).getD []

def setFile (t : FreezerTable) (num : Nat) (b : Bytes) (fd : OpenFile) : FreezerTable :=
  { t with
    files := Function.update t.files num (some fd)
    dir := { t.dir with data := Function.update t.dir.data num (some b) } }

def openFile (t : FreezerTable) (num : Nat) (opener : Opener) : Except Err FreezerTable :=
  match t.files num with
  | some _ => .ok t
  | none =>
    match opener with
    | .forAppend => .ok (t.setFile num (t.contents num) ⟨false, (t.contents num).length⟩)
    | .truncated => .ok (t.setFile num [] ⟨false, 0⟩)
    | .forReadOnly =>
      match t.dir.data num with
      | none => .error .io
      | some b => .ok (t.setFile num b ⟨true, 0⟩)

def releaseFile (t : FreezerTable) (num : Nat) : FreezerTable :=
  { t with files := Function.update t.files num none }

def releaseFilesAfter (t : FreezerTable) (num : Nat) (remove : Bool) : FreezerTable :=
  { t with
    files := fun f => if num < f then none else t.files f
    dir := { t.dir with
      data := fun f => if remove ∧ num < f ∧ (t.files f).isSome then none else t.dir.data f } }

/-- `truncateFreezerFile(t.index, size)` -/
def truncateIndex (t : FreezerTable) (size : Nat) : FreezerTable :=
  { t with index := some size, dir := { t.dir with index := resize t.dir.index size } }

/-- `truncateFreezerFile(t.head, size)` -/
def truncateHead (t : FreezerTable) (size : Nat) : Except Err FreezerTable :=
  match t.head with
  | none => .error .io
  | some num =>
    match t.files num with
    | none => .error .io
    | some fd =>
      if fd.readOnly then .error .io
      else .ok (t.setFile num (resize (t.contents num) size) ⟨false, size⟩)

/-- `t.head.Write(b)` -/
def writeHead (t : FreezerTable) (b : Bytes) : Except Err FreezerTable :=
  match t.head with
  | none => .error .io
  | some num =>
    match t.files num with
    | none => .error .io
    | some fd =>
      if fd.readOnly then .error .io
      else .ok (t.setFile num (writeAt (t.contents num) fd.pos b) ⟨false, fd.pos + b.length⟩)

/-- `t.index.Write(b)` -/
def writeIndex (t : FreezerTable) (b : Bytes) : FreezerTable :=
  match t.index with
  | none => t
  | some pos =>
    { t with
      index := some (pos + b.length)
      dir := { t.dir with index := writeAt t.dir.index pos b } }

/-- `t.index.ReadAt(buffer, i * indexEntrySize)` -/
def readEntry (t : FreezerTable) (i : Nat) : Option IndexEntry :=
  (readAt t.dir.index (i * indexEntrySize) indexEntrySize).map IndexEntry.unmarshalBinary

/-! ## Opening -/

def setHead (t : FreezerTable) (num : Nat) : FreezerTable := { t with head := some num }

def openHead (t : FreezerTable) (num : Nat) : Except Err FreezerTable := do
  let t ← t.openFile num .forAppend
  .ok (t.setHead num)

/-- The loop of `repair` over an index of `n` entries. The read in front of the only entry fails and
leaves the buffer as it is; an empty index cannot be cut. -/
def repairLoop (n : Nat) (t : FreezerTable) (lastIndex : IndexEntry) (contentSize : Nat) :
    Except Err (FreezerTable × Nat × IndexEntry × Nat) :=
  if lastIndex.offset = contentSize then .ok (t, n, lastIndex, contentSize)
  else if lastIndex.offset < contentSize then do
    let t ← t.truncateHead lastIndex.offset
    .ok (t, n, lastIndex, lastIndex.offset)
  else
    match n with
    | 0 => .error .io
    | n + 1 => do
      let t := t.truncateIndex (n * indexEntrySize)
      let newLastIndex := if n = 0 then lastIndex else (t.readEntry (n - 1)).getD lastIndex
      if newLastIndex.filenum ≠ lastIndex.filenum then do
        let t ← (t.releaseFile lastIndex.filenum).openHead newLastIndex.filenum
        repairLoop n t newLastIndex (t.contents newLastIndex.filenum).length
      else repairLoop n t newLastIndex contentSize

def preopen (t : FreezerTable) : Except Err FreezerTable := do
  let t := t.releaseFilesAfter 0 false
  let t ← run (fun t i => t.openFile i .forReadOnly) t (List.range' t.tailId (t.headId - t.tailId))
  t.openHead t.headId

def repairIndex (t : FreezerTable) : FreezerTable :=
  let size := t.dir.index.length
  let t := if size = 0 then t.writeIndex (List.replicate indexEntrySize 0) else t
  let overflow := size % indexEntrySize
  if overflow ≠ 0 then t.truncateIndex (size - overflow) else t

def setTail (t : FreezerTable) (firstIndex : IndexEntry) : FreezerTable :=
  { t with tailId := firstIndex.filenum, itemOffset := firstIndex.offset }

/-- The counters, from the number of entries of the index, the last of them and the size of the head
file. An index without entries makes the number of items wrap around. -/
def setCounters (t : FreezerTable) (n : Nat) (lastIndex : IndexEntry) (contentSize : Nat) :
    FreezerTable :=
  { t with
    items := if n = 0 then (t.itemOffset + (2 ^ 64 - 1)) % 2 ^ 64 else t.itemOffset + (n - 1)
    headBytes := contentSize % 2 ^ 32
    headId := lastIndex.filenum }

def repairHead (t : FreezerTable) : Except Err FreezerTable := do
  let n := t.dir.index.length / indexEntrySize
  let firstIndex := (t.readEntry 0).getD ⟨0, 0⟩
  let t := t.setTail firstIndex
  let lastIndex := if n = 0 then firstIndex else (t.readEntry (n - 1)).getD firstIndex
  let t ← t.openHead lastIndex.filenum
  let (t, n, lastIndex, contentSize) ←
    repairLoop n t lastIndex (t.contents lastIndex.filenum).length
  (t.setCounters n lastIndex contentSize).preopen

def repair (t : FreezerTable) : Except Err FreezerTable := t.repairIndex.repairHead

def indexOpened (dir : Dir) (maxFilesize : Nat) (noCompression : Bool) : FreezerTable :=
  { noCompression := noCompression, maxFileSize := maxFilesize, dir := dir,
    index := some dir.index.length }

def newCustomTable (dir : Dir) (maxFilesize : Nat) (noCompression : Bool) :
    Except Err FreezerTable :=
  (indexOpened dir maxFilesize noCompression).repair

def close (t : FreezerTable) : FreezerTable := { t with index := none, head := none }

/-! ## Truncating -/

def resetHead (t : FreezerTable) (filenum : Nat) : Except Err FreezerTable :=
  if filenum ≠ t.headId then do
    let t ← (t.releaseFile filenum).openHead filenum
    .ok { t.releaseFilesAfter filenum true with headId := filenum }
  else .ok t

def truncate (t : FreezerTable) (items : Nat) : Except Err FreezerTable :=
  if t.items ≤ items then .ok t
  else if t.index = none then .error .io
  else do
    let t := t.truncateIndex ((items + 1) * indexEntrySize)
    match t.readEntry items with
    | none => .error .io
    | some expected => do
      let t ← t.resetHead expected.filenum
      let t ← t.truncateHead expected.offset
      .ok { t with items := items, headBytes := expected.offset }

/-! ## Appending and retrieving -/

section Items

variable (snappy : Snappy)

def encode (t : FreezerTable) (blob : Bytes) : Bytes :=
  if t.noCompression then blob else snappy.encode blob

def rollsOver (t : FreezerTable) (bLen : Nat) : Prop :=
  (t.headBytes + bLen) % 2 ^ 32 < bLen ∨ t.maxFileSize < (t.headBytes + bLen) % 2 ^ 32

instance (t : FreezerTable) (bLen : Nat) : Decidable (t.rollsOver bLen) :=
  inferInstanceAs (Decidable (_ ∨ _))

def swapHead (t : FreezerTable) (num : Nat) : FreezerTable :=
  { t with head := some num, headBytes := 0, headId := num }

/-- The next file becomes the head; the old head is opened again for reading only. -/
def advanceHead (t : FreezerTable) : Except Err FreezerTable := do
  let nextID := (t.headId + 1) % 2 ^ 32
  let t ← t.openFile nextID .truncated
  let t ← (t.releaseFile t.headId).openFile t.headId .forReadOnly
  .ok (t.swapHead nextID)

def makeRoom (t : FreezerTable) (bLen : Nat) : Except Err FreezerTable :=
  if t.rollsOver bLen then t.advanceHead else .ok t

def countItem (t : FreezerTable) (newOffset : Nat) : FreezerTable :=
  { t with headBytes := newOffset, items := t.items + 1 }

def writeItem (t : FreezerTable) (blob : Bytes) : Except Err FreezerTable := do
  let t ← t.writeHead blob
  let newOffset := (t.headBytes + blob.length % 2 ^ 32) % 2 ^ 32
  .ok ((t.writeIndex (IndexEntry.marshallBinary ⟨t.headId, newOffset⟩)).countItem newOffset)

def append (t : FreezerTable) (item : Nat) (blob : Bytes) : Except Err FreezerTable :=
  if t.index = none ∨ t.head = none then .error .closed
  else if t.items ≠ item then .error (.unexpectedItem t.items item)
  else do
    let blob := t.encode snappy blob
    let t ← t.makeRoom (blob.length % 2 ^ 32)
    t.writeItem blob

def subUint32 (x y : Nat) : Nat := (x + 2 ^ 32 - y) % 2 ^ 32

theorem subUint32_add {x y : Nat} (h : y < 2 ^ 32) : subUint32 (x + y) x = y := by
  rw [subUint32]
  omega

/-- Start, end and file of an item, counted from the first that is there. -/
def getBounds (t : FreezerTable) (item : Nat) : Except Err (Nat × Nat × Nat) :=
  match t.readEntry (item + 1) with
  | none => .error .io
  | some endIdx =>
    if item ≠ 0 then
      match t.readEntry item with
      | none => .error .io
      | some startIdx =>
        if startIdx.filenum ≠ endIdx.filenum then .ok (0, endIdx.offset, endIdx.filenum)
        else .ok (startIdx.offset, endIdx.offset, endIdx.filenum)
    else .ok (0, endIdx.offset, endIdx.filenum)

def decode (t : FreezerTable) (blob : Bytes) : Except Err Bytes :=
  if t.noCompression then .ok blob
  else
    match snappy.decode blob with
    | none => .error .corrupt
    | some b => .ok b

def decodeRead (t : FreezerTable) : Option Bytes → Except Err Bytes
  | none => .error .io
  | some blob => t.decode snappy blob

def readBlob (t : FreezerTable) (startOffset endOffset filenum : Nat) : Except Err Bytes :=
  match t.files filenum with
  | none => .error (.missingDataFile filenum)
  | some _ => t.decodeRead snappy
      (readAt (t.contents filenum) startOffset (subUint32 endOffset startOffset))

def retrieve (t : FreezerTable) (item : Nat) : Except Err Bytes :=
  if t.index = none ∨ t.head = none then .error .closed
  else if t.items ≤ item then .error .outOfBounds
  else if item < t.itemOffset then .error .outOfBounds
  else do
    let (startOffset, endOffset, filenum) ← t.getBounds (item - t.itemOffset)
    t.readBlob snappy startOffset endOffset filenum

/-! ## Runs -/

/-- The operations on a table. It is closed and opened again with any limit on the file size. -/
inductive Op
  | append (item : Nat) (blob : Bytes)
  | truncate (items : Nat)
  | reopen (maxFilesize : Nat)

/-- One operation. An item under another number than the next is refused and leaves the table as it
is; every other error is one of the system. -/
def step (t : FreezerTable) : Op → Except Err FreezerTable
  | .append item blob =>
    match t.append snappy item blob with
    | .error (.unexpectedItem _ _) => .ok t
    | r => r
  | .truncate items => t.truncate items
  | .reopen maxFilesize => newCustomTable t.close.dir maxFilesize t.noCompression

end Items

end FreezerTable

end Virbicoin.Rawdb
