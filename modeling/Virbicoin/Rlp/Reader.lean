import Virbicoin.Rlp.Encode

/-!
# The three outputs of the encoder

Besides `toBytes` the buffer of `rlp/encode.go` is written to an `io.Writer` (`toWriter`) or read
piece by piece through an `io.Reader` (`encReader`, what `EncodeToReader` returns). A piece is a
part of the string data, or a list header that was just written into the scratch array `sizebuf` of
the buffer; a header that does not fit the caller's slice stays in `sizebuf` until the next `Read`.

What the reader still has to deliver is `EncReader.rest`. `next` takes a piece off it (`next_spec`),
and one `Read` takes off what fits (`read_spec`). `none` stands for a slice out of range.
-/

namespace Virbicoin.Rlp

open Virbicoin.Lib List Option

/-! ## What is written -/

/-- The values the writers of strings, unsigned integers and slices take. -/
inductive Datum where
  | bytes (b : List Byte)
  | uint (i : BitVec 64)
  | list (ds : List Datum)

def EncBuf.encodeUint (w : EncBuf) (i : Nat) : EncBuf :=
  if i = 0 then { w with str := w.str ++ [0x80] }
  else if i < 128 then { w with str := w.str ++ [BitVec.ofNat 8 i] }
  else { w with str := w.str ++ (0x80 + BitVec.ofNat 8 (putint i).length) :: putint i }

mutual

def Datum.write : Datum → EncBuf → EncBuf
  | .bytes b, w => w.encodeString b
  | .uint i, w => w.encodeUint i.toNat
  | .list ds, w => (Datum.writeElems ds w.list).listEnd w.lheads.length

def Datum.writeElems : List Datum → EncBuf → EncBuf
  | [], w => w
  | d :: ds, w => Datum.writeElems ds (d.write w)

end

/-! ## The format -/

/-- The header in front of `size` bytes: the size in the tag, or its length in the tag and then the
size, big endian without leading zeros. -/
def header (short long : Nat) (size : Nat) : List Byte :=
  if size < 56 then [BitVec.ofNat 8 (short + size)]
  else BitVec.ofNat 8 (long + byteSize size) :: bigEndian (byteSize size) size

/-- A byte below 128 is its own encoding. -/
def rlpString (b : List Byte) : List Byte :=
  if b.length = 1 ∧ ∀ x ∈ b, x.toNat < 128 then b else header 0x80 0xB7 b.length ++ b

/-- The bytes of an integer, big endian without leading zeros. -/
def uintBytes (i : Nat) : List Byte := if i = 0 then [] else bigEndian (byteSize i) i

mutual

def rlp : Datum → List Byte
  | .bytes b => rlpString b
  | .uint i => rlpString (uintBytes i.toNat)
  | .list ds => header 0xC0 0xF7 (rlps ds).length ++ rlps ds

def rlps : List Datum → List Byte
  | [] => []
  | d :: ds => rlp d ++ rlps ds

end

/-! ## Output -/

def slice (b : List Byte) (lo hi : Nat) : Option (List Byte) :=
  if lo ≤ hi ∧ hi ≤ b.length then some ((b.drop lo).take (hi - lo)) else none

theorem slice_eq {b : List Byte} {lo hi : Nat} (hlo : lo ≤ hi) (hhi : hi ≤ b.length) :
    slice b lo hi = some ((b.drop lo).take (hi - lo)) := if_pos ⟨hlo, hhi⟩

/-- `copy(out[pos:], src)`: what does not fit is dropped. -/
def copyAt (out : List Byte) (pos : Nat) (src : List Byte) : List Byte :=
  out.take pos ++ src.take (out.length - pos) ++ out.drop (pos + src.length)

namespace EncBuf

/-- The loop of `toBytes`. A header that does not fit into `out[pos:]` is an index out of range. -/
def fill (str : List Byte) : List Byte → Nat → Nat → List ListHead → Option (List Byte)
  | out, strpos, pos, [] => (slice str strpos str.length).map (copyAt out pos)
  | out, strpos, pos, head :: lheads => do
    let src ← slice str strpos head.offset
    let n := min (out.length - pos) src.length
    let out := copyAt out pos src
    (if out.length < pos + n + head.encode.length then none
      else fill str (copyAt out (pos + n) head.encode) (strpos + n) (pos + n + head.encode.length)
        lheads)

/-- `toBytes` with the slice of `size` bytes that it fills. -/
def toBytesOut (w : EncBuf) : Option (List Byte) :=
  fill w.str (replicate w.size 0) 0 0 w.lheads

section ToWriter

variable {σ ε : Type} (write : σ → List Byte → σ × Nat × Option ε)

/-- The loop of `toWriter` from position `strpos` on. The writer returns the number of bytes it took
and its error. -/
def writeLoop (str : List Byte) : σ → Nat → List ListHead → Option (σ × Option ε)
  | out, strpos, [] =>
    if strpos < str.length then do
      let src ← slice str strpos str.length
      let (out, _, err) := write out src
      some (out, err)
    else some (out, none)
  | out, strpos, head :: lheads => do
    let (out, strpos, err) ← (if head.offset - strpos > 0 then do
        let src ← slice str strpos head.offset
        let (out, n, err) := write out src
        some (out, strpos + n, err)
      else some (out, strpos, none))
    match err with
    | some e => some (out, some e)
    | none =>
      match write out head.encode with
      | (out, _, some e) => some (out, some e)
      | (out, _, none) => writeLoop str out strpos lheads

def toWriter (w : EncBuf) (out : σ) : Option (σ × Option ε) := writeLoop write w.str out 0 w.lheads

end ToWriter

end EncBuf

/-- Where the next bytes of the reader are: a part of the string data or of `sizebuf`. -/
inductive Piece where
  | nil
  | str (lo hi : Nat)
  | head (lo hi : Nat)
  deriving DecidableEq, Repr

def Piece.drop (n : Nat) : Piece → Piece
  | .nil => .nil
  | .str lo hi => .str (lo + n) hi
  | .head lo hi => .head (lo + n) hi

structure EncReader where
  /-- The buffer that is read, `none` from the end on. -/
  buf : Option EncBuf
  /-- The scratch array of the buffer. -/
  sizebuf : List Byte
  lhpos : Nat := 0
  strpos : Nat := 0
  piece : Piece := .nil

namespace EncReader

def bytes (r : EncReader) : Option (List Byte) :=
  match r.piece, r.buf with
  | .nil, _ => some []
  | .str lo hi, some w => slice w.str lo hi
  | .str _ _, none => none
  | .head lo hi, _ => slice r.sizebuf lo hi

/-- `next`, with the assignment of its result to `piece`. -/
def next (r : EncReader) : EncReader :=
  match r.buf with
  | none => { r with piece := .nil }
  | some w =>
    if r.piece ≠ .nil then r
    else
      match w.lheads[r.lhpos]? with
      | some head =>
        if head.offset - r.strpos > 0 then
          { r with strpos := head.offset, piece := .str r.strpos head.offset }
        else
          -- the header overwrites the scratch array from its beginning
          { r with
            lhpos := r.lhpos + 1
            sizebuf := head.encode ++ r.sizebuf.drop head.encode.length
            piece := .head 0 head.encode.length }
      | none =>
        if r.strpos < w.str.length then
          { r with strpos := w.str.length, piece := .str r.strpos w.str.length }
        else { r with piece := .nil }

def pending (r : EncReader) : Nat :=
  match r.buf with
  | none => 0
  | some w =>
    (if r.piece = .nil then 0 else 1) + 2 * (w.lheads.length - r.lhpos) +
      match w.lheads[r.lhpos]? with
      | some head => if head.offset - r.strpos > 0 then 1 else 0
      | none => if r.strpos < w.str.length then 1 else 0

theorem pending_next (r : EncReader) (h : r.next.piece ≠ .nil) :
    pending { r.next with piece := .nil } < pending r := by
  unfold next at h ⊢
  cases hbuf : r.buf with
  | none => simp [hbuf] at h
  | some w =>
    simp only [hbuf] at h ⊢
    by_cases hpiece : r.piece = .nil
    · simp only [hpiece, ne_eq, not_true_eq_false, if_false] at h ⊢
      cases hhead : w.lheads[r.lhpos]? with
      | some head =>
        have hlt := (List.getElem?_eq_some_iff.1 hhead).1
        by_cases hoff : head.offset - r.strpos > 0
        · simp [pending, hbuf, hpiece, hhead, hoff]
        simp only [pending, hbuf, hpiece, hhead, hoff, if_false, if_true]
        repeat' split
        all_goals omega
      | none =>
        simp only [hhead] at h ⊢
        by_cases hstr : r.strpos < w.str.length
        · simp [pending, hbuf, hpiece, hhead, hstr]
        · simp [hstr] at h
    · simp [pending, hbuf, hpiece]

/-- The loop of `Read` into a slice of `k` bytes, of which `out` are written. The flag is
`io.EOF`. -/
def readLoop (r : EncReader) (k : Nat) (out : List Byte) : Option (List Byte × Bool × EncReader) :=
  if _h : r.next.piece = .nil then some (out, true, { r.next with buf := none })
  else do
    let piece ← r.next.bytes
    let nn := min (k - out.length) piece.length
    if nn < piece.length then
      some (out ++ piece.take nn, false, { r.next with piece := r.next.piece.drop nn })
    else readLoop { r.next with piece := .nil } k (out ++ piece)
termination_by pending r
decreasing_by exact pending_next r _h

def read (r : EncReader) (k : Nat) : Option (List Byte × Bool × EncReader) := readLoop r k []

def reads : EncReader → List Nat → Option (List (List Byte × Bool))
  | _, [] => some []
  | r, k :: ks => do
    let (out, eof, r) ← r.read k
    let outs ← reads r ks
    some ((out, eof) :: outs)

end EncReader

/-- `EncodeToReader`: the size and the reader. The scratch array holds what the writers left in
it. -/
def encodeToReader (d : Datum) (sizebuf : List Byte) : Nat × EncReader :=
  ((d.write {}).size, { buf := some (d.write {}), sizebuf })

/-! ## The buffer holds the format -/

theorem puthead_header {short long size : Nat} (h : size < 2 ^ 64) :
    puthead (BitVec.ofNat 8 short) (BitVec.ofNat 8 long) size = header short long size := by
  unfold puthead header
  rw [putint_eq h, bigEndian_length, ← BitVec.ofNat_add, ← BitVec.ofNat_add]

theorem encString_rlpString {b : List Byte} (h : b.length < 2 ^ 64) :
    encString b = rlpString b := by
  have hhead : puthead 0x80 0xB7 b.length = header 0x80 0xB7 b.length := puthead_header h
  unfold encString rlpString
  split
  · rename_i x
    have hx : x ≤ 0x7F ↔ x.toNat < 128 := by exact Nat.lt_succ_iff.symm
    simp only [length_singleton, mem_singleton, forall_eq, true_and, hx] at hhead ⊢
    rw [← hhead]
  rename_i hne
  have hlen : ¬ (b.length = 1 ∧ ∀ x ∈ b, x.toNat < 128) := by
    rintro ⟨hone, -⟩
    obtain ⟨x, rfl⟩ := length_eq_one_iff.1 hone
    exact hne x rfl
  rw [if_neg hlen, ← hhead]

theorem uintBytes_length_le {i : Nat} (h : i < 2 ^ 64) : (uintBytes i).length ≤ 8 := by
  unfold uintBytes
  split
  · simp
  rw [bigEndian_length]
  exact intsize_le h

theorem encString_short {b : List Byte} (hlen : b.length < 56) (hb : ∀ x, b = [x] → ¬ x ≤ 0x7F) :
    encString b = (0x80 + BitVec.ofNat 8 b.length) :: b := by
  unfold encString
  split
  · rename_i x
    rw [if_neg (hb x rfl)]
    rfl
  unfold puthead
  rw [if_pos hlen, singleton_append]

theorem encodeUint_eq {w : EncBuf} {i : Nat} (h : i < 2 ^ 64) :
    w.encodeUint i = w.encodeString (uintBytes i) := by
  rw [encodeString_eq]
  unfold EncBuf.encodeUint uintBytes
  by_cases h0 : i = 0
  · subst h0
    rfl
  rw [if_neg h0, if_neg h0]
  have hlen : (bigEndian (byteSize i) i).length < 56 := by
    rw [bigEndian_length]
    exact Nat.lt_of_le_of_lt (intsize_le h) (by decide)
  -- A single byte is the number itself.
  have hone : ∀ x, bigEndian (byteSize i) i = [x] → x = BitVec.ofNat 8 i ∧ i < 256 := by
    intro x hx
    have hsize : byteSize i = 1 := by rw [← bigEndian_length (byteSize i) i, hx, length_singleton]
    have hlt := lt_pow_byteSize i
    rw [hsize] at hx hlt
    simp only [bigEndian, pow_zero, Nat.div_one, cons.injEq, and_true] at hx
    exact ⟨hx.symm, by simpa using hlt⟩
  by_cases hsmall : i < 128
  · have hsize : byteSize i = 1 := by
      unfold byteSize
      rw [if_pos (by omega)]
    have hle : BitVec.ofNat 8 i ≤ 0x7F := by
      rw [BitVec.le_def, BitVec.toNat_ofNat, Nat.mod_eq_of_lt (by omega)]
      exact Nat.le_of_lt_succ hsmall
    rw [if_pos hsmall, hsize]
    simp only [bigEndian, pow_zero, Nat.div_one, encString, if_pos hle]
  rw [if_neg hsmall, putint_eq h, encString_short hlen]
  intro x hx hle
  obtain ⟨rfl, hlt⟩ := hone x hx
  rw [BitVec.le_def, BitVec.toNat_ofNat, Nat.mod_eq_of_lt (by omega)] at hle
  exact hsmall (Nat.lt_succ_of_le hle)

mutual

def Datum.toValue : Datum → Value
  | .bytes b => .bytes b
  | .uint i => .bytes (uintBytes i.toNat)
  | .list ds => .list (Datum.toValues ds)

def Datum.toValues : List Datum → List Value
  | [] => []
  | d :: ds => d.toValue :: Datum.toValues ds

end

mutual

theorem Datum.write_eq (d : Datum) (w : EncBuf) : d.write w = encode d.toValue w := by
  cases d with
  | bytes b => rw [write, toValue, encode]
  | uint i => rw [write, toValue, encode, encodeUint_eq i.isLt]
  | list ds => rw [write, toValue, encode, writeElems_eq ds]

theorem Datum.writeElems_eq (ds : List Datum) (w : EncBuf) :
    Datum.writeElems ds w = encodeElems (Datum.toValues ds) w := by
  cases ds with
  | nil => rw [writeElems, toValues, encodeElems]
  | cons d ds => rw [writeElems, toValues, encodeElems, write_eq d, writeElems_eq ds]

end

theorem length_le_rlpString (b : List Byte) : b.length ≤ (rlpString b).length := by
  unfold rlpString
  split
  · exact le_refl _
  rw [length_append]
  omega

mutual

theorem rlp_eq (d : Datum) (h : (rlp d).length < 2 ^ 64) : rlp d = enc d.toValue := by
  cases d with
  | bytes b =>
    rw [rlp] at h ⊢
    rw [Datum.toValue, enc, encString_rlpString (Nat.lt_of_le_of_lt (length_le_rlpString b) h)]
  | uint i =>
    rw [rlp, Datum.toValue, enc, encString_rlpString]
    exact lt_of_le_of_lt (uintBytes_length_le i.isLt) (by decide)
  | list ds =>
    rw [rlp, length_append] at h
    have hlt : (rlps ds).length < 2 ^ 64 := by omega
    rw [rlp, Datum.toValue, enc, ← rlps_eq ds hlt, ← puthead_header hlt]
    rfl

theorem rlps_eq (ds : List Datum) (h : (rlps ds).length < 2 ^ 64) :
    rlps ds = encs (Datum.toValues ds) := by
  cases ds with
  | nil => rw [rlps, Datum.toValues, encs]
  | cons d ds =>
    rw [rlps, length_append] at h
    rw [rlps, Datum.toValues, encs, rlp_eq d (by omega), rlps_eq ds (by omega)]

end

/-! ## Headers in order -/

/-- The headers stand one after the other in the string data, from position `strpos` on. -/
def Ordered (len : Nat) : Nat → List ListHead → Prop
  | strpos, [] => strpos ≤ len
  | strpos, head :: lheads => strpos ≤ head.offset ∧ Ordered len head.offset lheads

theorem Ordered.le {len strpos : Nat} {lheads : List ListHead} (h : Ordered len strpos lheads) :
    strpos ≤ len := by
  induction lheads generalizing strpos with
  | nil => exact h
  | cons head lheads ih => exact le_trans h.1 (ih h.2)

theorem Ordered.mono {len a b : Nat} {lheads : List ListHead} (h : Ordered len b lheads)
    (hab : a ≤ b) : Ordered len a lheads := by
  cases lheads with
  | nil => exact le_trans hab h
  | cons head lheads => exact ⟨le_trans hab h.1, h.2⟩

mutual

theorem ordered_listHeads {len offset : Nat} {lheads : List ListHead} (v : Value)
    (h : Ordered len (offset + (strData v).length) lheads) :
    Ordered len offset (listHeads offset v ++ lheads) := by
  cases v with
  | bytes b => exact h.mono (Nat.le_add_right _ _)
  | list vs =>
    rw [listHeads, cons_append]
    rw [strData] at h
    exact ⟨le_refl _, ordered_listHeadss vs h⟩

theorem ordered_listHeadss {len offset : Nat} {lheads : List ListHead} (vs : List Value)
    (h : Ordered len (offset + (strDatas vs).length) lheads) :
    Ordered len offset (listHeadss offset vs ++ lheads) := by
  cases vs with
  | nil => exact h
  | cons v vs =>
    rw [strDatas, length_append, ← add_assoc] at h
    rw [listHeadss, append_assoc]
    exact ordered_listHeads v (ordered_listHeadss vs h)

end

mutual

theorem listHeads_size {offset : Nat} (v : Value) (h : ListsFit v) :
    ∀ head ∈ listHeads offset v, head.size < 2 ^ 64 := by
  cases v with
  | bytes b => simp [listHeads]
  | list vs =>
    rw [ListsFit] at h
    intro head hmem
    rw [listHeads, mem_cons] at hmem
    obtain rfl | hmem := hmem
    · exact h.1
    · exact listHeadss_size vs h.2 head hmem

theorem listHeadss_size {offset : Nat} (vs : List Value) (h : ListsFits vs) :
    ∀ head ∈ listHeadss offset vs, head.size < 2 ^ 64 := by
  cases vs with
  | nil => simp [listHeadss]
  | cons v vs =>
    rw [ListsFits] at h
    intro head hmem
    rw [listHeadss, mem_append] at hmem
    obtain hmem | hmem := hmem
    · exact listHeads_size v h.1 head hmem
    · exact listHeadss_size vs h.2 head hmem

end

/-- What the outputs rely on: the headers are in order and fit the scratch array, and together with
the string data they are the bytes of the encoding. -/
structure EncBuf.Holds (w : EncBuf) (b : List Byte) : Prop where
  ordered : Ordered w.str.length 0 w.lheads
  fits : ∀ head ∈ w.lheads, head.encode.length ≤ 9
  bytes : w.toBytes = b
  size : w.size = b.length

theorem Datum.write_holds {d : Datum} (h : (rlp d).length < 2 ^ 64) :
    (d.write {}).Holds (rlp d) := by
  have heq := rlp_eq d h
  have hpay : payload d.toValue < 2 ^ 64 := lt_of_le_of_lt (payload_le _) (heq ▸ h)
  have hfit := listsFit_of_payload _ hpay
  have hlen := encodeToBytes_length hpay
  rw [write_eq, heq, ← encodeToBytes_of_payload hpay]
  refine ⟨?_, ?_, rfl, hlen.symm⟩
  · rw [encode_eq _ _ hfit.inner]
    have hend : Ordered (strData d.toValue).length (0 + (strData d.toValue).length) [] :=
      le_of_eq (zero_add _)
    simpa using ordered_listHeads d.toValue hend
  rw [encode_eq _ _ hfit.inner]
  intro head hmem
  have hsize := listHeads_size d.toValue hfit head (by simpa using hmem)
  rw [ListHead.encode, puthead_length hsize, headsize]
  have := intsize_le hsize
  split <;> omega

/-! ## `toBytes` and `toWriter` -/

theorem copyAt_append {a z src : List Byte} (h : src.length ≤ z.length) :
    copyAt (a ++ z) a.length src = a ++ src ++ z.drop src.length := by
  rw [copyAt, take_left, length_append, Nat.add_sub_cancel_left,
    take_of_length_le h, ← drop_drop, drop_left]

variable {lheads : List ListHead}

theorem pieces_ordered {str : List Byte} {strpos : Nat} {head : ListHead}
    (h : strpos ≤ head.offset) :
    EncBuf.pieces str strpos (head :: lheads) = (str.drop strpos).take (head.offset - strpos) ++
        (head.encode ++ EncBuf.pieces str head.offset lheads) := by
  rw [EncBuf.pieces, Nat.add_sub_cancel' h, append_assoc]

theorem pieces_advance {str : List Byte} {strpos hi : Nat} (hle : strpos ≤ hi)
    (hord : Ordered str.length hi lheads) :
    EncBuf.pieces str strpos lheads =
      (str.drop strpos).take (hi - strpos) ++ EncBuf.pieces str hi lheads := by
  have hdrop : str.drop hi = (str.drop strpos).drop (hi - strpos) := by
    rw [drop_drop, Nat.add_sub_cancel' hle]
  cases lheads with
  | nil => rw [EncBuf.pieces, EncBuf.pieces, hdrop, take_append_drop]
  | cons head lheads =>
    have hsplit : head.offset - strpos = hi - strpos + (head.offset - hi) := by
      have := hord.1
      omega
    rw [pieces_ordered (le_trans hle hord.1), pieces_ordered hord.1, hsplit, take_add,
      hdrop, append_assoc]

theorem fill_eq {str : List Byte} {a z : List Byte} {strpos : Nat}
    (hord : Ordered str.length strpos lheads)
    (hlen : z.length = (EncBuf.pieces str strpos lheads).length) :
    EncBuf.fill str (a ++ z) strpos a.length lheads =
      some (a ++ EncBuf.pieces str strpos lheads) := by
  induction lheads generalizing a z strpos with
  | nil =>
    rw [EncBuf.pieces] at hlen
    rw [EncBuf.fill, slice_eq hord (Nat.le_refl _), ← length_drop, take_length,
      EncBuf.pieces, map_some, copyAt_append (Nat.le_of_eq hlen.symm),
      drop_eq_nil_of_le (le_of_eq hlen), append_nil]
  | cons head lheads ih =>
    obtain ⟨hle, hrest⟩ := hord
    have hend := hrest.le
    have hslice := slice_eq hle hend
    rw [pieces_ordered hle] at hlen ⊢
    generalize hsrc : (str.drop strpos).take (head.offset - strpos) = src at hlen hslice ⊢
    have hsize : src.length = head.offset - strpos := by
      rw [← hsrc, length_take, length_drop]
      omega
    simp only [length_append] at hlen
    have hmin : min ((a ++ z).length - a.length) src.length = src.length := by
      rw [length_append]
      omega
    have hroom : ¬ ((a ++ src ++ z.drop src.length).length <
        a.length + src.length + head.encode.length) := by
      simp only [length_append, length_drop]
      omega
    have hcopy : copyAt (a ++ src ++ z.drop src.length) (a.length + src.length) head.encode =
        a ++ src ++ head.encode ++ (z.drop src.length).drop head.encode.length := by
      rw [← length_append, copyAt_append (by rw [length_drop]; omega)]
    have hdata : copyAt (a ++ z) a.length src = a ++ src ++ z.drop src.length :=
      copyAt_append (by omega)
    have hstep := ih (a := a ++ src ++ head.encode)
      (z := (z.drop src.length).drop head.encode.length) hrest (by
        simp only [length_drop]
        omega)
    rw [EncBuf.fill, hslice]
    simp only [bind_eq_bind, bind_some, hmin, hdata, if_neg hroom, hcopy]
    rw [hsize, Nat.add_sub_cancel' hle]
    simp only [length_append, append_assoc, hsize, add_assoc] at hstep ⊢
    exact hstep

theorem EncBuf.Holds.toBytesOut {w : EncBuf} {b : List Byte} (h : w.Holds b) :
    w.toBytesOut = some b := by
  have hlen : (replicate w.size (0 : Byte)).length = (pieces w.str 0 w.lheads).length := by
    rw [length_replicate, h.size, ← h.bytes]
    rfl
  have hfill := fill_eq (a := []) h.ordered hlen
  rw [← h.bytes]
  exact hfill

section ToWriter

variable {σ ε : Type} {write : σ → List Byte → σ × Nat × Option ε} {sent : σ → List Byte}

/-- A writer that takes everything it is given; `sent` is what it has received. -/
def Takes (write : σ → List Byte → σ × Nat × Option ε) (sent : σ → List Byte) : Prop :=
  ∀ out b, ∃ out', write out b = (out', b.length, none) ∧ sent out' = sent out ++ b

theorem writeLoop_eq (htakes : Takes write sent) {str : List Byte}
    {strpos : Nat} (out : σ) (hord : Ordered str.length strpos lheads) :
    ∃ out', EncBuf.writeLoop write str out strpos lheads = some (out', none) ∧
      sent out' = sent out ++ EncBuf.pieces str strpos lheads := by
  induction lheads generalizing out strpos with
  | nil =>
    by_cases hlt : strpos < str.length
    · obtain ⟨out', hwrite, hsent⟩ := htakes out (str.drop strpos)
      refine ⟨out', ?_, by rw [hsent, EncBuf.pieces]⟩
      rw [EncBuf.writeLoop, if_pos hlt, slice_eq hord (Nat.le_refl _), ← length_drop, take_length]
      simp only [bind_eq_bind, bind_some, hwrite]
    refine ⟨out, ?_, ?_⟩
    · rw [EncBuf.writeLoop, if_neg hlt]
    · rw [EncBuf.pieces, drop_eq_nil_of_le (by omega), append_nil]
  | cons head lheads ih =>
    obtain ⟨hle, hrest⟩ := hord
    have hend := hrest.le
    rw [pieces_ordered hle]
    by_cases hoff : head.offset - strpos > 0
    · have hsize : ((str.drop strpos).take (head.offset - strpos)).length =
          head.offset - strpos := by
        rw [length_take, length_drop]
        omega
      obtain ⟨out1, hwrite1, hsent1⟩ := htakes out ((str.drop strpos).take (head.offset - strpos))
      obtain ⟨out2, hwrite2, hsent2⟩ := htakes out1 head.encode
      obtain ⟨out', hloop, hsent⟩ := ih out2 hrest
      refine ⟨out', ?_, by rw [hsent, hsent2, hsent1]; simp only [append_assoc]⟩
      rw [EncBuf.writeLoop, if_pos hoff, slice_eq hle hend]
      simp only [bind_eq_bind, bind_some, hwrite1, hwrite2, hsize, Nat.add_sub_cancel' hle]
      exact hloop
    have heq : head.offset = strpos := by omega
    obtain ⟨out1, hwrite1, hsent1⟩ := htakes out head.encode
    obtain ⟨out', hloop, hsent⟩ := ih out1 hrest
    refine ⟨out', ?_, ?_⟩
    · rw [EncBuf.writeLoop, if_neg hoff]
      simp only [bind_eq_bind, bind_some, hwrite1]
      rw [← heq]
      exact hloop
    · rw [hsent, hsent1, heq, Nat.sub_self, take_zero, nil_append, append_assoc]

theorem EncBuf.Holds.toWriter {w : EncBuf} {b : List Byte} (h : w.Holds b)
    (htakes : Takes write sent) (out : σ) :
    ∃ out', w.toWriter write out = some (out', none) ∧ sent out' = sent out ++ b := by
  rw [← h.bytes]
  exact writeLoop_eq htakes out h.ordered

end ToWriter

/-! ## The reader -/

theorem slice_drop {b x : List Byte} {lo hi n : Nat} (h : slice b lo hi = some x)
    (hn : n ≤ x.length) : slice b (lo + n) hi = some (x.drop n) := by
  unfold slice at h
  split at h
  · rename_i hc
    cases h
    rw [length_take] at hn
    rw [slice_eq (by omega) hc.2, drop_take, drop_drop, Nat.sub_add_eq]
  · cases h

namespace EncReader

/-- What every `Read` relies on while the buffer is being read. -/
structure Valid (w : EncBuf) (r : EncReader) : Prop where
  buf : r.buf = some w
  ordered : Ordered w.str.length r.strpos (w.lheads.drop r.lhpos)
  fits : ∀ head ∈ w.lheads, head.encode.length ≤ 9
  sizebuf : r.sizebuf.length = 9
  piece : ∃ b, r.bytes = some b ∧ (r.piece ≠ .nil → b ≠ [])

def rest (w : EncBuf) (r : EncReader) : List Byte :=
  r.bytes.getD [] ++ EncBuf.pieces w.str r.strpos (w.lheads.drop r.lhpos)

theorem bytes_nil {r : EncReader} (h : r.piece = .nil) : r.bytes = some [] := by rw [bytes, h]

theorem bytes_drop {r : EncReader} {b : List Byte} {n : Nat} (h : r.bytes = some b)
    (hn : n ≤ b.length) : bytes { r with piece := r.piece.drop n } = some (b.drop n) := by
  unfold bytes at h ⊢
  cases hpiece : r.piece with
  | nil =>
    rw [hpiece] at h
    cases h
    simp [Piece.drop]
  | str lo hi =>
    cases hbuf : r.buf with
    | none => simp [hpiece, hbuf] at h
    | some w =>
      simp only [hpiece, hbuf, Piece.drop] at h ⊢
      exact slice_drop h hn
  | head lo hi =>
    simp only [hpiece, Piece.drop] at h ⊢
    exact slice_drop h hn

/-- `r'` has the same bytes to deliver as `r`, and has a piece unless there are none. -/
def Delivers (w : EncBuf) (r r' : EncReader) : Prop :=
  r'.Valid w ∧ r'.rest w = r.rest w ∧ (r'.piece = .nil → r.rest w = [])

section Next

variable {w : EncBuf} {r : EncReader}

theorem delivers_str (h : r.Valid w) (hpiece : r.piece = .nil) {hi : Nat} (hlt : r.strpos < hi)
    (hord : Ordered w.str.length hi (w.lheads.drop r.lhpos)) :
    Delivers w r { r with strpos := hi, piece := .str r.strpos hi } := by
  have hend := hord.le
  have hb : bytes { r with strpos := hi, piece := .str r.strpos hi } =
      some ((w.str.drop r.strpos).take (hi - r.strpos)) := by
    rw [h.buf]
    exact slice_eq (le_of_lt hlt) hend
  refine ⟨⟨h.buf, hord, h.fits, h.sizebuf, _, hb, ?_⟩, ?_, nofun⟩
  · intro _ hnil
    have := congrArg length hnil
    simp only [length_take, length_drop, length_nil] at this
    omega
  rw [rest, rest, hb, bytes_nil hpiece]
  exact (pieces_advance (le_of_lt hlt) hord).symm

theorem delivers_head (h : r.Valid w) (hpiece : r.piece = .nil) {head : ListHead}
    (hhead : w.lheads[r.lhpos]? = some head) (hoff : head.offset = r.strpos) :
    Delivers w r { r with
      lhpos := r.lhpos + 1
      sizebuf := head.encode ++ r.sizebuf.drop head.encode.length
      piece := .head 0 head.encode.length } := by
  obtain ⟨hlt, hget⟩ := List.getElem?_eq_some_iff.1 hhead
  have hdrop : w.lheads.drop r.lhpos = head :: w.lheads.drop (r.lhpos + 1) := by
    rw [drop_eq_getElem_cons hlt, hget]
  have hord := h.ordered
  have hfit := h.fits head (hget ▸ getElem_mem hlt)
  have hsize := h.sizebuf
  rw [hdrop] at hord
  have hb : slice (head.encode ++ r.sizebuf.drop head.encode.length) 0 head.encode.length =
      some head.encode := by
    rw [slice_eq (Nat.zero_le _) (by rw [length_append]; omega), drop_zero, Nat.sub_zero, take_left]
  refine ⟨⟨h.buf, hord.2.mono hord.1, h.fits, ?_, _, hb, fun _ => puthead_ne_nil _ _ _⟩, ?_, nofun⟩
  · simp only [length_append, length_drop]
    omega
  · rw [rest, rest, bytes_nil hpiece, hdrop, pieces_ordered hord.1, hoff, Nat.sub_self]
    simp only [bytes, hb, getD_some, take_zero, nil_append]

theorem next_spec (h : r.Valid w) : Delivers w r r.next := by
  have hbuf := h.buf
  obtain ⟨buf, sizebuf, lhpos, strpos, piece⟩ := r
  subst hbuf
  by_cases hpiece : piece = .nil
  · subst hpiece
    simp only [next, ne_eq, not_true_eq_false, if_false]
    cases hhead : w.lheads[lhpos]? with
    | none =>
      have hdrop : w.lheads.drop lhpos = [] :=
        drop_eq_nil_of_le (getElem?_eq_none_iff.1 hhead)
      by_cases hstr : strpos < w.str.length
      · simp only [if_pos hstr]
        exact delivers_str h rfl hstr (by rw [hdrop]; exact le_refl _)
      simp only [if_neg hstr]
      refine ⟨h, rfl, fun _ => ?_⟩
      rw [rest, hdrop, EncBuf.pieces, drop_eq_nil_of_le (Nat.not_lt.1 hstr)]
      rfl
    | some head =>
      obtain ⟨hlt, hget⟩ := List.getElem?_eq_some_iff.1 hhead
      have hdrop : w.lheads.drop lhpos = head :: w.lheads.drop (lhpos + 1) := by
        rw [drop_eq_getElem_cons hlt, hget]
      have hord : Ordered w.str.length strpos (head :: w.lheads.drop (lhpos + 1)) :=
        hdrop ▸ h.ordered
      by_cases hoff : head.offset - strpos > 0
      · simp only [if_pos hoff]
        have hlt' : strpos < head.offset := by omega
        exact delivers_str h rfl hlt' (by rw [hdrop]; exact ⟨le_refl _, hord.2⟩)
      simp only [if_neg hoff]
      have heq : head.offset = strpos := le_antisymm (by omega) hord.1
      exact delivers_head h rfl hhead heq
  simp only [next, ne_eq, hpiece, not_false_eq_true, if_true]
  exact ⟨h, rfl, fun hnil => absurd hnil hpiece⟩

end Next

/-- What a `Read` into `k` bytes does: it delivers the first `k` bytes, and it reports the end as
soon as nothing is left. -/
def ReadSpec (w : EncBuf) (b : List Byte) (k : Nat) (result : List Byte × Bool × EncReader) :
    Prop :=
  result.1 = b.take k ∧ result.2.1 = decide (b.length ≤ k) ∧
    (if b.length ≤ k then result.2.2.buf = none
      else result.2.2.Valid w ∧ result.2.2.rest w = b.drop k)

variable {r : EncReader}

theorem readLoop_spec {w : EncBuf} {k : Nat} {out : List Byte} (h : r.Valid w)
    (hout : out.length ≤ k) :
    ∃ result, readLoop r k out = some result ∧ ReadSpec w (out ++ r.rest w) k result := by
  -- Each round of the loop takes a piece, so the induction is on the number of pieces to come.
  induction hn : pending r using Nat.strongRecOn generalizing r out with
  | _ n ih =>
    subst hn
    obtain ⟨hvalid, hrest, hend⟩ := next_spec h
    rw [readLoop]
    by_cases hpiece : r.next.piece = .nil
    · rw [dif_pos hpiece]
      refine ⟨_, rfl, ?_⟩
      rw [hend hpiece, append_nil]
      refine ⟨(take_of_length_le hout).symm, (decide_eq_true hout).symm, ?_⟩
      rw [if_pos hout]
    obtain ⟨b, hb, hne⟩ := hvalid.piece
    rw [dif_neg hpiece, hb]
    simp only [bind_eq_bind, bind_some]
    rw [← hrest, rest, hb, getD_some]
    by_cases hfit : min (k - out.length) b.length < b.length
    · have hmin : min (k - out.length) b.length = k - out.length := by omega
      have hdrop := bytes_drop hb (min_le_right (k - out.length) b.length)
      rw [hmin] at hdrop hfit ⊢
      rw [if_pos hfit]
      refine ⟨_, rfl, ?_, ?_, ?_⟩
      · rw [take_append, take_of_length_le hout, take_append_of_le_length (by omega)]
      · refine (decide_eq_false ?_).symm
        simp only [length_append]
        omega
      rw [if_neg (by simp only [length_append]; omega)]
      refine ⟨⟨hvalid.buf, hvalid.ordered, hvalid.fits, hvalid.sizebuf, _, hdrop, ?_⟩, ?_⟩
      · intro _ hnil
        have := congrArg length hnil
        simp only [length_drop, length_nil] at this
        omega
      rw [rest, hdrop, getD_some, drop_append, drop_eq_nil_of_le hout,
        nil_append, drop_append_of_le_length (by omega)]
    have hle : (out ++ b).length ≤ k := by
      rw [length_append]
      omega
    have hbytes : bytes { r.next with piece := .nil } = some [] := bytes_nil rfl
    have hnext : Valid w { r.next with piece := .nil } :=
      ⟨hvalid.buf, hvalid.ordered, hvalid.fits, hvalid.sizebuf, [], hbytes,
        fun hnil => absurd rfl hnil⟩
    rw [if_neg hfit]
    obtain ⟨result, hloop, hspec⟩ := ih _ (pending_next r hpiece) hnext hle rfl
    refine ⟨result, hloop, ?_⟩
    rw [append_assoc] at hspec
    exact hspec

theorem read_spec {w : EncBuf} (h : r.Valid w) (k : Nat) :
    ∃ result, r.read k = some result ∧ ReadSpec w (r.rest w) k result :=
  readLoop_spec h k.zero_le

theorem read_none (h : r.buf = none) (k : Nat) :
    ∃ r', r.read k = some ([], true, r') ∧ r'.buf = none := by
  have hnext : r.next = { r with piece := .nil } := by rw [next, h]
  refine ⟨{ r with buf := none, piece := .nil }, ?_, rfl⟩
  rw [read, readLoop, dif_pos (by rw [hnext]), hnext]

/-- Bytes cut into chunks of the given sizes, with a flag at the last chunk and from then on. -/
def chunks (b : List Byte) : List Nat → List (List Byte × Bool)
  | [] => []
  | k :: ks => (b.take k, decide (b.length ≤ k)) :: chunks (b.drop k) ks

theorem reads_none (h : r.buf = none) (ks : List Nat) : r.reads ks = some (chunks [] ks) := by
  induction ks generalizing r with
  | nil => rfl
  | cons k ks ih =>
    obtain ⟨r', hread, hbuf⟩ := read_none h k
    rw [reads, hread]
    simp only [bind_eq_bind, bind_some, ih hbuf]
    simp [chunks]

theorem reads_spec {w : EncBuf} (h : r.Valid w) (ks : List Nat) :
    r.reads ks = some (chunks (r.rest w) ks) := by
  induction ks generalizing r with
  | nil => rfl
  | cons k ks ih =>
    obtain ⟨⟨out, eof, r'⟩, hread, hout, heof, hrest⟩ := read_spec h k
    simp only at hout heof hrest
    rw [reads, hread]
    simp only [bind_eq_bind, bind_some, chunks, hout, heof]
    by_cases hle : (r.rest w).length ≤ k
    · rw [if_pos hle] at hrest
      rw [reads_none hrest, drop_eq_nil_of_le hle, bind_some]
    · rw [if_neg hle] at hrest
      rw [ih hrest.1, hrest.2, bind_some]

theorem chunks_flatten (b : List Byte) (ks : List Nat) :
    ((chunks b ks).map Prod.fst).flatten = b.take ks.sum := by
  induction ks generalizing b with
  | nil => simp [chunks]
  | cons k ks ih => rw [chunks, map_cons, flatten_cons, ih, sum_cons, take_add]

theorem chunks_take (b : List Byte) (ks : List Nat) (i : Nat) :
    (chunks b ks).take i = chunks b (ks.take i) := by
  induction ks generalizing b i with
  | nil => simp [chunks]
  | cons k ks ih =>
    cases i with
    | zero => rfl
    | succ i => rw [chunks, take_succ_cons, ih, take_succ_cons, chunks]

theorem chunks_getElem? (b : List Byte) (ks : List Nat) (i : Nat) (c : List Byte × Bool)
    (h : (chunks b ks)[i]? = some c) : c.2 = decide (b.length ≤ (ks.take (i + 1)).sum) := by
  induction ks generalizing b i with
  | nil => simp [chunks] at h
  | cons k ks ih =>
    cases i with
    | zero =>
      simp only [chunks, getElem?_cons_zero, some.injEq] at h
      simp [← h]
    | succ i =>
      rw [ih _ _ h, length_drop, take_succ_cons, sum_cons]
      exact decide_eq_decide.2 (by omega)

theorem chunks_length (b : List Byte) (ks : List Nat) : (chunks b ks).length = ks.length := by
  induction ks generalizing b with
  | nil => rfl
  | cons k ks ih => rw [chunks, length_cons, ih, length_cons]

end EncReader

theorem EncBuf.Holds.valid {w : EncBuf} {b sizebuf : List Byte} (h : w.Holds b)
    (hsize : sizebuf.length = 9) :
    EncReader.Valid w { buf := some w, sizebuf } ∧
      EncReader.rest w { buf := some w, sizebuf } = b := by
  refine ⟨⟨rfl, h.ordered, h.fits, hsize, [], rfl, fun hnil => absurd rfl hnil⟩, ?_⟩
  rw [← h.bytes]
  rfl

/-- **All three outputs are the encoding**: what `toBytes` returns, what a writer receives, and what
a sequence of reads delivers, with `io.EOF` from the read on that completes it. -/
theorem encbuf_outputs {σ ε : Type} {write : σ → List Byte → σ × Nat × Option ε}
    {sent : σ → List Byte} (htakes : Takes write sent) (d : Datum)
    (h : (rlp d).length < 2 ^ 64) (sizebuf : List Byte) (hsize : sizebuf.length = 9) :
    (d.write {}).toBytesOut = some (rlp d) ∧ (d.write {}).toBytes = rlp d ∧
      (d.write {}).size = (rlp d).length ∧
      (∀ out, ∃ out', (d.write {}).toWriter write out = some (out', none) ∧
        sent out' = sent out ++ rlp d) ∧
      (encodeToReader d sizebuf).1 = (rlp d).length ∧
      ∀ ks : List Nat, ∃ outs, (encodeToReader d sizebuf).2.reads ks = some outs ∧
        outs.length = ks.length ∧
        (outs.map Prod.fst).flatten = (rlp d).take ks.sum ∧
        ∀ i (c : List Byte × Bool), outs[i]? = some c →
          (c.2 = true ↔ (rlp d).length ≤ (ks.take (i + 1)).sum) ∧
          (c.2 = true → ((outs.take (i + 1)).map Prod.fst).flatten = rlp d) := by
  have hholds := d.write_holds h
  obtain ⟨hvalid, hrest⟩ := hholds.valid hsize
  refine ⟨hholds.toBytesOut, hholds.bytes, hholds.size, hholds.toWriter htakes, hholds.size, ?_⟩
  intro ks
  have hreads := EncReader.reads_spec hvalid ks
  rw [hrest] at hreads
  refine ⟨_, hreads, EncReader.chunks_length _ _, EncReader.chunks_flatten _ _, ?_⟩
  intro i c hc
  have hflag := EncReader.chunks_getElem? _ _ _ _ hc
  have hiff : c.2 = true ↔ (rlp d).length ≤ (ks.take (i + 1)).sum := by
    rw [hflag, decide_eq_true_iff]
  refine ⟨hiff, fun heof => ?_⟩
  rw [EncReader.chunks_take, EncReader.chunks_flatten, take_of_length_le (hiff.1 heof)]

theorem encbuf_outputs_pair :
    ((Datum.list [.list [.bytes [1]], .uint 1024]).write {}).toBytesOut =
      some [0xC5, 0xC1, 0x01, 0x82, 0x04, 0x00] := by
  have htakes : Takes (fun (out : List Byte) b => (out ++ b, b.length, (none : Option Unit))) id :=
    fun out b => ⟨out ++ b, rfl, rfl⟩
  have hrlp : rlp (.list [.list [.bytes [1]], .uint 1024]) =
      [0xC5, 0xC1, 0x01, 0x82, 0x04, 0x00] := by
    simp [rlp, rlps, rlpString, uintBytes, header, byteSize, bigEndian]
  have hout := (encbuf_outputs htakes (.list [.list [.bytes [1]], .uint 1024])
    (by rw [hrlp]; decide) (replicate 9 0) rfl).1
  rwa [hrlp] at hout

end Virbicoin.Rlp
