import Virbicoin.Lib.BigEndian

/-!
# RLP encoding

`rlp/encode.go` on trees of byte strings and lists (`Value`), as an `interface{}` holds them.

The encoder writes string data into one buffer and keeps the list headers apart. The header of a
list is added when the list begins, its size is filled in when the list ends, and `toBytes` puts the
headers between the pieces of the string data.
-/

namespace Virbicoin.Rlp

open Virbicoin.Lib List

abbrev Byte := BitVec 8

/-- The values that `interface{}` takes: `[]byte` or `[]interface{}`. -/
inductive Value where
  | bytes (b : List Byte)
  | list (vs : List Value)
  deriving Repr, Inhabited

/-! ## Headers -/

def intsize (i : Nat) : Nat := byteSize i

def putint (i : Nat) : List Byte :=
  if i < 2 ^ 8 then bigEndian 1 i
  else if i < 2 ^ 16 then bigEndian 2 i
  else if i < 2 ^ 24 then bigEndian 3 i
  else if i < 2 ^ 32 then bigEndian 4 i
  else if i < 2 ^ 40 then bigEndian 5 i
  else if i < 2 ^ 48 then bigEndian 6 i
  else if i < 2 ^ 56 then bigEndian 7 i
  else bigEndian 8 i

def headsize (size : Nat) : Nat := if size < 56 then 1 else 1 + intsize size

def puthead (smalltag largetag : Byte) (size : Nat) : List Byte :=
  if size < 56 then [smalltag + BitVec.ofNat 8 size]
  else (largetag + BitVec.ofNat 8 (putint size).length) :: putint size

theorem putint_eq {i : Nat} (h : i < 2 ^ 64) : putint i = bigEndian (byteSize i) i := by
  have hsize : ∀ k, 256 ^ k ≤ i → i < 256 ^ (k + 1) → bigEndian (k + 1) i =
      bigEndian (byteSize i) i := by
    intro k hlow hhigh
    rw [byteSize_eq hlow hhigh]
  unfold putint
  by_cases h0 : i < 2 ^ 8
  · rw [if_pos h0]
    unfold byteSize
    rw [if_pos (by simpa using h0)]
  rw [if_neg h0]
  repeat' split
  · exact hsize 1 (by omega) (by omega)
  · exact hsize 2 (by omega) (by omega)
  · exact hsize 3 (by omega) (by omega)
  · exact hsize 4 (by omega) (by omega)
  · exact hsize 5 (by omega) (by omega)
  · exact hsize 6 (by omega) (by omega)
  · exact hsize 7 (by omega) (by omega)

theorem intsize_le {i : Nat} (h : i < 2 ^ 64) : intsize i ≤ 8 :=
  byteSize_le (by decide) (by simpa using h)

theorem puthead_length {small large : Byte} {size : Nat} (h : size < 2 ^ 64) :
    (puthead small large size).length = headsize size := by
  unfold puthead headsize intsize
  split
  · rfl
  · rw [length_cons, putint_eq h, bigEndian_length, add_comm]

/-! ## The buffer -/

structure ListHead where
  /-- Index of the header in the string data. -/
  offset : Nat
  /-- Size of the encoded list, inner headers included. -/
  size : Nat
  deriving DecidableEq, Repr

def ListHead.encode (head : ListHead) : List Byte := puthead 0xC0 0xF7 head.size

structure EncBuf where
  /-- String data: everything except the list headers. -/
  str : List Byte := []
  lheads : List ListHead := []
  /-- Sum of the sizes of all encoded list headers. -/
  lhsize : Nat := 0
  deriving DecidableEq, Repr

namespace EncBuf

def size (w : EncBuf) : Nat := w.str.length + w.lhsize

def encodeStringHeader (w : EncBuf) (size : Nat) : EncBuf :=
  { w with str := w.str ++ puthead 0x80 0xB7 size }

def encodeString (w : EncBuf) (b : List Byte) : EncBuf :=
  match b with
  | [x] => if x ≤ 0x7F then { w with str := w.str ++ [x] }
    else let w := w.encodeStringHeader 1; { w with str := w.str ++ [x] }
  | b => let w := w.encodeStringHeader b.length; { w with str := w.str ++ b }

/-- Adds a new list header. The caller keeps its index for `listEnd`. -/
def list (w : EncBuf) : EncBuf :=
  { w with lheads := w.lheads ++ [⟨w.str.length, w.lhsize⟩] }

/-- Fills in the size of the list whose header has the given index. Until then the header holds the
size of the headers that were complete when the list began. -/
def listEnd (w : EncBuf) (index : Nat) : EncBuf :=
  match w.lheads[index]? with
  | none => w
  | some lh =>
    let size := w.size - lh.offset - lh.size
    { w with
      lheads := w.lheads.set index { lh with size }
      lhsize := if size < 56 then w.lhsize + 1 else w.lhsize + (1 + intsize size) }

def pieces (str : List Byte) : Nat → List ListHead → List Byte
  | strpos, [] => str.drop strpos
  | strpos, head :: lheads =>
    (str.drop strpos).take (head.offset - strpos) ++ head.encode ++
      pieces str (strpos + (head.offset - strpos)) lheads

/-- The source copies the pieces into a buffer of `size` bytes; `encodeToBytes_length` shows that
they fill it. -/
def toBytes (w : EncBuf) : List Byte := pieces w.str 0 w.lheads

end EncBuf

mutual

/-- `encbuf.encode`: the writers of `[]byte` and of `[]interface{}`. -/
def encode : Value → EncBuf → EncBuf
  | .bytes b, w => w.encodeString b
  | .list vs, w => (encodeElems vs w.list).listEnd w.lheads.length

def encodeElems : List Value → EncBuf → EncBuf
  | [], w => w
  | v :: vs, w => encodeElems vs (encode v w)

end

def encodeToBytes (v : Value) : List Byte := (encode v {}).toBytes

/-! ## The encoding of the format -/

def encString (b : List Byte) : List Byte :=
  match b with
  | [x] => if x ≤ 0x7F then [x] else puthead 0x80 0xB7 1 ++ [x]
  | b => puthead 0x80 0xB7 b.length ++ b

mutual

def enc : Value → List Byte
  | .bytes b => encString b
  | .list vs => puthead 0xC0 0xF7 (encs vs).length ++ encs vs

def encs : List Value → List Byte
  | [] => []
  | v :: vs => enc v ++ encs vs

end

theorem puthead_ne_nil (small large : Byte) (size : Nat) : puthead small large size ≠ [] := by
  unfold puthead
  split <;> simp

theorem encString_ne_nil (b : List Byte) : encString b ≠ [] := by
  unfold encString
  repeat' split
  · simp
  · simp
  · simp [puthead_ne_nil]

theorem enc_ne_nil (v : Value) : enc v ≠ [] := by
  cases v with
  | bytes b => rw [enc]; exact encString_ne_nil b
  | list vs => rw [enc]; simp [puthead_ne_nil]

theorem encs_eq_flatMap (vs : List Value) : encs vs = vs.flatMap enc := by
  induction vs with
  | nil => rfl
  | cons v vs ih => rw [encs, ih, flatMap_cons]

theorem encs_append (vs ws : List Value) : encs (vs ++ ws) = encs vs ++ encs ws := by
  rw [encs_eq_flatMap, encs_eq_flatMap, encs_eq_flatMap, flatMap_append]

theorem enc_length_lt {v : Value} {vs : List Value} (h : v ∈ vs) :
    (enc v).length < (enc (.list vs)).length := by
  obtain ⟨l, r, rfl⟩ := append_of_mem h
  have hpos := length_pos_iff.2 (puthead_ne_nil 0xC0 0xF7 (encs (l ++ v :: r)).length)
  rw [enc, length_append, encs_append, encs, length_append, length_append] at *
  omega

def payload : Value → Nat
  | .bytes b => b.length
  | .list vs => (encs vs).length

theorem payload_le (v : Value) : payload v ≤ (enc v).length := by
  cases v with
  | bytes b =>
    rw [payload, enc]
    unfold encString
    repeat' split
    all_goals simp
  | list vs =>
    rw [payload, enc, length_append]
    omega

/-! ## The buffer holds the encoding -/

mutual

def strData : Value → List Byte
  | .bytes b => encString b
  | .list vs => strDatas vs

def strDatas : List Value → List Byte
  | [] => []
  | v :: vs => strData v ++ strDatas vs

end

mutual

def listHeads (offset : Nat) : Value → List ListHead
  | .bytes _ => []
  | .list vs => ⟨offset, (encs vs).length⟩ :: listHeadss offset vs

def listHeadss (offset : Nat) : List Value → List ListHead
  | [] => []
  | v :: vs => listHeads offset v ++ listHeadss (offset + (strData v).length) vs

end

mutual

def headSizes : Value → Nat
  | .bytes _ => 0
  | .list vs => headsize (encs vs).length + headSizess vs

def headSizess : List Value → Nat
  | [] => 0
  | v :: vs => headSizes v + headSizess vs

end

/-! The size of an inner list is counted when the list ends, with the size of the header its payload
will get; that is the true one for payloads shorter than `2 ^ 64` bytes. -/

mutual

/-- The payload of every list in the value is shorter than `2 ^ 64` bytes. -/
def ListsFit : Value → Prop
  | .bytes _ => True
  | .list vs => (encs vs).length < 2 ^ 64 ∧ ListsFits vs

def ListsFits : List Value → Prop
  | [] => True
  | v :: vs => ListsFit v ∧ ListsFits vs

end

/-- The lists inside the value fit; the value itself may be a list of any size. -/
def InnerFit : Value → Prop
  | .bytes _ => True
  | .list vs => ListsFits vs

theorem ListsFit.inner {v : Value} (h : ListsFit v) : InnerFit v := by
  cases v with
  | bytes b => trivial
  | list vs => exact h.2

theorem listsFits_iff {vs : List Value} : ListsFits vs ↔ ∀ v ∈ vs, ListsFit v := by
  induction vs with
  | nil => simp [ListsFits]
  | cons v vs ih => simp [ListsFits, ih]

theorem InnerFit.listsFit {v : Value} (h : InnerFit v) (hlt : payload v < 2 ^ 64) : ListsFit v := by
  cases v with
  | bytes b => rw [ListsFit]; trivial
  | list vs => exact ⟨hlt, h⟩

mutual

theorem listsFit_of_payload (v : Value) (h : payload v < 2 ^ 64) : ListsFit v := by
  cases v with
  | bytes b => rw [ListsFit]; trivial
  | list vs =>
    rw [payload] at h
    rw [ListsFit]
    exact ⟨h, listsFits_of_length vs h⟩

theorem listsFits_of_length (vs : List Value) (h : (encs vs).length < 2 ^ 64) : ListsFits vs := by
  cases vs with
  | nil => rw [ListsFits]; trivial
  | cons v vs =>
    have hle := payload_le v
    rw [encs, length_append] at h
    rw [ListsFits]
    exact ⟨listsFit_of_payload v (by omega), listsFits_of_length vs (by omega)⟩

end

mutual

theorem enc_length (v : Value) (h : ListsFit v) :
    (enc v).length = (strData v).length + headSizes v := by
  cases v with
  | bytes b => rw [enc, strData, headSizes, add_zero]
  | list vs =>
    rw [ListsFit] at h
    rw [enc, length_append, puthead_length h.1, strData, headSizes]
    have hlen := encs_length vs h.2
    omega

theorem encs_length (vs : List Value) (h : ListsFits vs) :
    (encs vs).length = (strDatas vs).length + headSizess vs := by
  cases vs with
  | nil => rfl
  | cons v vs =>
    rw [ListsFits] at h
    rw [encs, length_append, strDatas, headSizess, length_append, enc_length v h.1,
      encs_length vs h.2]
    omega

end

theorem encodeString_eq (w : EncBuf) (b : List Byte) :
    w.encodeString b = { w with str := w.str ++ encString b } := by
  unfold EncBuf.encodeString encString EncBuf.encodeStringHeader
  repeat' split
  all_goals simp

mutual

theorem encode_eq (v : Value) (w : EncBuf) (h : InnerFit v) :
    encode v w = ⟨w.str ++ strData v, w.lheads ++ listHeads w.str.length v,
      w.lhsize + headSizes v⟩ := by
  cases v with
  | bytes b => simp only [encode, encodeString_eq, strData, listHeads, headSizes,
      append_nil, Nat.add_zero]
  | list vs =>
    rw [InnerFit] at h
    have hlen := encs_length vs h
    -- The header of this list holds the old `lhsize`, so its own size is what is left over.
    have hsize : w.str.length + (strDatas vs).length + (w.lhsize + headSizess vs) - w.str.length
        - w.lhsize = (encs vs).length := by omega
    rw [encode, encodeElems_eq vs w.list h]
    simp only [EncBuf.list, EncBuf.listEnd, EncBuf.size, append_assoc, singleton_append,
      length_append, getElem?_append_right (Nat.le_refl _), Nat.sub_self,
      getElem?_cons_zero, hsize, set_append_right _ _ (Nat.le_refl _), set_cons_zero,
      strData, listHeads, headSizes, headsize]
    congr 1
    split <;> omega

theorem encodeElems_eq (vs : List Value) (w : EncBuf) (h : ListsFits vs) :
    encodeElems vs w = ⟨w.str ++ strDatas vs, w.lheads ++ listHeadss w.str.length vs,
      w.lhsize + headSizess vs⟩ := by
  cases vs with
  | nil => simp only [encodeElems, strDatas, listHeadss, headSizess, append_nil, add_zero]
  | cons v vs =>
    rw [ListsFits] at h
    rw [encodeElems, encode_eq v w h.1.inner, encodeElems_eq vs _ h.2]
    simp only [strDatas, listHeadss, headSizess, append_assoc, length_append, add_assoc]

end

theorem pieces_skip (a b : List Byte) (lheads : List ListHead) {pos : Nat} (hpos : pos = a.length)
    (rest : List Byte) (h : ∀ head ∈ lheads, pos + b.length ≤ head.offset) :
    EncBuf.pieces (a ++ b ++ rest) pos lheads =
      b ++ EncBuf.pieces (a ++ b ++ rest) (pos + b.length) lheads := by
  subst hpos
  cases lheads with
  | nil =>
    simp only [EncBuf.pieces, append_assoc, drop_left]
    rw [← append_assoc, ← length_append, drop_left]
  | cons head lheads =>
    have hoff := h head mem_cons_self
    have hend : a.length + (head.offset - a.length) =
        a.length + b.length + (head.offset - (a.length + b.length)) := by omega
    have htake : head.offset - a.length = b.length + (head.offset - (a.length + b.length)) := by
      omega
    have hdrop : (a ++ (b ++ rest)).drop (a.length + b.length) = rest := by
      rw [← append_assoc, ← length_append, drop_left]
    rw [EncBuf.pieces, EncBuf.pieces, hend]
    simp only [append_assoc, drop_left, hdrop]
    rw [htake, take_length_add_append, append_assoc]

mutual

theorem listHeads_offset (offset : Nat) (v : Value) :
    ∀ head ∈ listHeads offset v, offset ≤ head.offset := by
  cases v with
  | bytes b => simp [listHeads]
  | list vs =>
    intro head hmem
    rw [listHeads, mem_cons] at hmem
    obtain rfl | hmem := hmem
    · exact le_refl _
    · exact listHeadss_offset offset vs head hmem

theorem listHeadss_offset (offset : Nat) (vs : List Value) :
    ∀ head ∈ listHeadss offset vs, offset ≤ head.offset := by
  cases vs with
  | nil => simp [listHeadss]
  | cons v vs =>
    intro head hmem
    rw [listHeadss, mem_append] at hmem
    obtain hmem | hmem := hmem
    · exact listHeads_offset offset v head hmem
    · exact Nat.le_trans (Nat.le_add_right _ _) (listHeadss_offset _ vs head hmem)

end

mutual

theorem pieces_value (v : Value) (a rest : List Byte) (lheads : List ListHead)
    (h : ∀ head ∈ lheads, a.length + (strData v).length ≤ head.offset) :
    EncBuf.pieces (a ++ strData v ++ rest) a.length (listHeads a.length v ++ lheads) =
      enc v ++ EncBuf.pieces (a ++ strData v ++ rest) (a.length + (strData v).length) lheads := by
  cases v with
  | bytes b => exact pieces_skip a (encString b) lheads rfl rest h
  | list vs =>
    simp only [strData] at h ⊢
    rw [listHeads, cons_append, EncBuf.pieces, Nat.sub_self, take_zero, nil_append,
      Nat.add_zero, pieces_values vs a rest lheads h, enc, ListHead.encode]
    simp only [append_assoc]

theorem pieces_values (vs : List Value) (a rest : List Byte) (lheads : List ListHead)
    (h : ∀ head ∈ lheads, a.length + (strDatas vs).length ≤ head.offset) :
    EncBuf.pieces (a ++ strDatas vs ++ rest) a.length (listHeadss a.length vs ++ lheads) =
      encs vs ++ EncBuf.pieces (a ++ strDatas vs ++ rest) (a.length + (strDatas vs).length)
        lheads := by
  cases vs with
  | nil => simp [listHeadss, strDatas, encs]
  | cons v vs =>
    simp only [strDatas, length_append] at h ⊢
    have hlater : ∀ head ∈ listHeadss (a.length + (strData v).length) vs ++ lheads,
        a.length + (strData v).length ≤ head.offset := by
      intro head hmem
      obtain hmem | hmem := mem_append.1 hmem
      · exact listHeadss_offset _ vs head hmem
      have := h head hmem
      omega
    have hhead := pieces_value v a (strDatas vs ++ rest) _ hlater
    have htail := pieces_values vs (a ++ strData v) rest lheads (by
      intro head hmem
      have := h head hmem
      rw [length_append]
      omega)
    simp only [append_assoc, length_append, ← add_assoc] at hhead htail ⊢
    rw [listHeadss, append_assoc, hhead, htail, encs, append_assoc]

end

theorem encodeToBytes_eq {v : Value} (h : InnerFit v) : encodeToBytes v = enc v := by
  have hpieces := pieces_value v [] [] [] (by simp)
  simp only [nil_append, append_nil, length_nil, Nat.zero_add, EncBuf.pieces,
    drop_length] at hpieces
  rw [encodeToBytes, encode_eq v {} h]
  exact hpieces

theorem encodeToBytes_of_payload {v : Value} (h : payload v < 2 ^ 64) : encodeToBytes v = enc v :=
  encodeToBytes_eq (listsFit_of_payload v h).inner

theorem encodeToBytes_length {v : Value} (h : payload v < 2 ^ 64) :
    (encodeToBytes v).length = (encode v {}).size := by
  have hfit := listsFit_of_payload v h
  rw [encodeToBytes_of_payload h, encode_eq v {} hfit.inner, enc_length v hfit]
  simp [EncBuf.size]

/-! ## Lists with raw elements -/

/-- An element of a list that is written by its own encoder: a byte string, or bytes that are an
encoding already. -/
inductive Item where
  | bytes (b : List Byte)
  | raw (b : List Byte)

def Item.write (w : EncBuf) : Item → EncBuf
  | .bytes b => w.encodeString b
  | .raw b => { w with str := w.str ++ b }

def encodeItems (items : List Item) : List Byte :=
  ((items.foldl Item.write ({} : EncBuf).list).listEnd 0).toBytes

def Item.enc : Item → List Byte
  | .bytes b => encString b
  | .raw b => b

theorem foldl_write (items : List Item) (w : EncBuf) :
    items.foldl Item.write w = { w with str := w.str ++ items.flatMap Item.enc } := by
  induction items generalizing w with
  | nil => simp
  | cons item items ih =>
    rw [foldl_cons, ih, flatMap_cons, ← append_assoc]
    cases item with
    | bytes b => rw [Item.write, encodeString_eq, Item.enc]
    | raw b => rfl

theorem encodeItems_eq (items : List Item) : encodeItems items =
      puthead 0xC0 0xF7 (items.flatMap Item.enc).length ++ items.flatMap Item.enc := by
  rw [encodeItems, foldl_write]
  simp [EncBuf.list, EncBuf.listEnd, EncBuf.size, EncBuf.toBytes, EncBuf.pieces, ListHead.encode]

end Virbicoin.Rlp
