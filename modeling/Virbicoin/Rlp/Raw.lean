import Virbicoin.Lib.Run
import Virbicoin.Rlp.Decode

/-!
# Splitting RLP

`rlp/raw.go`: the first value of a byte string, without decoding what is inside. On encodings the
functions return what was encoded (`split_enc`, `splitString_enc`, `splitList_enc`,
`countLoop_encs`).
-/

namespace Virbicoin.Rlp.Raw

open Virbicoin.Lib List

/-- A size of `slen` bytes, which is at least 56 and has no leading zero byte. -/
def readSize (b : List Byte) (slen : Nat) : Except Err Nat :=
  if slen > b.length then .error .unexpectedEOF
  else
    let s := ofBigEndian (b.take slen)
    if s < 56 ∨ b.head? = some 0 then .error .canonSize else .ok s

/-- The kind of the first value with the sizes of its tag and of its content, before they are
compared with the input. -/
def readTag (b : Byte) (tail : List Byte) : Except Err (Kind × Nat × Nat) :=
  if b < 0x80 then .ok (.byte, 0, 1)
  else if b < 0xB8 then
    let contentsize := (b - 0x80).toNat
    -- strings that should have been single bytes
    if contentsize = 1 ∧ tail.head?.any (· < 128) then .error .canonSize
    else .ok (.string, 1, contentsize)
  else if b < 0xC0 then
    (readSize tail (b - 0xB7).toNat).map fun size => (.string, (b - 0xB7).toNat + 1, size)
  else if b < 0xF8 then .ok (.list, 1, (b - 0xC0).toNat)
  else (readSize tail (b - 0xF7).toNat).map fun size => (.list, (b - 0xF7).toNat + 1, size)

def readKind (buf : List Byte) : Except Err (Kind × Nat × Nat) :=
  match buf with
  | [] => .error .unexpectedEOF
  | b :: tail => do
    let (k, tagsize, contentsize) ← readTag b tail
    if contentsize > buf.length - tagsize then .error .valueTooLarge
    else .ok (k, tagsize, contentsize)

/-- `Split`: the content of the first value and the bytes after it. -/
def split (b : List Byte) : Except Err (Kind × List Byte × List Byte) :=
  (readKind b).map fun (k, ts, cs) => (k, (b.drop ts).take cs, b.drop (ts + cs))

def splitString (b : List Byte) : Except Err (List Byte × List Byte) := do
  let (k, content, rest) ← split b
  if k = .list then .error .expectedString else .ok (content, rest)

def splitList (b : List Byte) : Except Err (List Byte × List Byte) := do
  let (k, content, rest) ← split b
  if k ≠ .list then .error .expectedList else .ok (content, rest)

def countLoop : Nat → List Byte → Except Err Nat
  | _, [] => .ok 0
  | 0, _ :: _ => .error .outOfFuel
  | fuel + 1, b :: tail => do
    let (_, tagsize, size) ← readKind (b :: tail)
    (· + 1) <$> countLoop fuel ((b :: tail).drop (tagsize + size))

def countValues (b : List Byte) : Except Err Nat := countLoop b.length b

/-! ## Splitting encodings -/

/-- The kind of an encoded value: single bytes below 0x80 are their own encoding. -/
def kindOf : Value → Kind
  | .bytes b => if b.length = 1 ∧ b.headD 0 < 128 then .byte else .string
  | .list _ => .list

def contentOf : Value → List Byte
  | .bytes b => b
  | .list vs => encs vs

theorem readSize_putint {size : Nat} (h56 : 56 ≤ size) (h : size < 2 ^ 64) (rest : List Byte) :
    readSize (putint size ++ rest) (putint size).length = .ok size := by
  obtain ⟨hval, hhead⟩ := (bigEndian_byteSize_eq_iff (n := size) (by omega)).1 (putint_eq h).symm
  have hpos := (Stream.putint_length h).1
  have hne : (putint size ++ rest).head? ≠ some 0 := by
    obtain ⟨b, bytes, hput⟩ := exists_cons_of_ne_nil (length_pos_iff.1 hpos)
    rw [hput] at hhead ⊢
    simpa using hhead
  have hnot : ¬ (size < 56 ∨ (putint size ++ rest).head? = some 0) := by
    rintro (hlt | h0)
    · omega
    · exact hne h0
  unfold readSize
  rw [if_neg (by simp), take_left, hval]
  simp only [if_neg hnot]

theorem readTag_string {size : Nat} (h : size < 2 ^ 64) {rest : List Byte}
    (hcanon : ¬ (size = 1 ∧ rest.head?.any (· < 128))) :
    ∃ b tail, puthead 0x80 0xB7 size ++ rest = b :: tail ∧
      readTag b tail = .ok (.string, (puthead 0x80 0xB7 size).length, size) := by
  unfold puthead
  split
  · refine ⟨_, rest, rfl, ?_⟩
    have hb : ((0x80 + BitVec.ofNat 8 size : Byte) - 0x80).toNat = size := by bv_omega
    rw [readTag, if_neg (by bv_omega), if_pos (by bv_omega)]
    simp only [hb, if_neg hcanon]
    rfl
  rename_i hge
  refine ⟨_, putint size ++ rest, rfl, ?_⟩
  obtain ⟨hpos, hle⟩ := Stream.putint_length h
  have hread := readSize_putint (Nat.not_lt.1 hge) h rest
  rw [length_cons]
  generalize (putint size).length = n at hpos hle hread
  have hb : ((0xB7 + BitVec.ofNat 8 n : Byte) - 0xB7).toNat = n := by bv_omega
  rw [readTag, if_neg (by bv_omega), if_neg (by bv_omega), if_pos (by bv_omega)]
  simp only [hb, hread]
  rfl

theorem readTag_list {size : Nat} (h : size < 2 ^ 64) (rest : List Byte) :
    ∃ b tail, puthead 0xC0 0xF7 size ++ rest = b :: tail ∧
      readTag b tail = .ok (.list, (puthead 0xC0 0xF7 size).length, size) := by
  unfold puthead
  split
  · refine ⟨_, rest, rfl, ?_⟩
    have hb : ((0xC0 + BitVec.ofNat 8 size : Byte) - 0xC0).toNat = size := by bv_omega
    rw [readTag, if_neg (by bv_omega), if_neg (by bv_omega), if_neg (by bv_omega),
      if_pos (by bv_omega), hb]
    rfl
  rename_i hge
  refine ⟨_, putint size ++ rest, rfl, ?_⟩
  obtain ⟨hpos, hle⟩ := Stream.putint_length h
  have hread := readSize_putint (Nat.not_lt.1 hge) h rest
  rw [length_cons]
  generalize (putint size).length = n at hpos hle hread
  have hb : ((0xF7 + BitVec.ofNat 8 n : Byte) - 0xF7).toNat = n := by bv_omega
  rw [readTag, if_neg (by bv_omega), if_neg (by bv_omega), if_neg (by bv_omega),
    if_neg (by bv_omega)]
  simp only [hb, hread]
  rfl

theorem readKind_of_tag {b : Byte} {tail head content rest : List Byte} {k : Kind}
    (heq : head ++ content ++ rest = b :: tail)
    (htag : readTag b tail = .ok (k, head.length, content.length)) :
    readKind (head ++ content ++ rest) = .ok (k, head.length, content.length) := by
  have hlen : ¬ content.length > (b :: tail).length - head.length := by
    rw [← heq]
    simp
  rw [heq, readKind, htag]
  change (if content.length > (b :: tail).length - head.length then _ else _) = _
  rw [if_neg hlen]

theorem readKind_enc (v : Value) (h : payload v < 2 ^ 64) (rest : List Byte) :
    ∃ ts, readKind (enc v ++ rest) = .ok (kindOf v, ts, (contentOf v).length) ∧
      (enc v).drop ts = contentOf v ∧ ts ≤ (enc v).length := by
  cases v with
  | bytes b =>
    rw [kindOf]
    by_cases hbyte : b.length = 1 ∧ b.headD 0 < 128
    · obtain ⟨x, rfl⟩ := length_eq_one_iff.1 hbyte.1
      have hx : x < 0x80 := hbyte.2
      have htag : readTag x rest = .ok (.byte, 0, 1) := by rw [readTag, if_pos hx]
      have heq : [] ++ [x] ++ rest = x :: rest := rfl
      rw [if_pos hbyte, enc_byte hx]
      exact ⟨0, readKind_of_tag heq htag, rfl, Nat.zero_le _⟩
    have hcanon : ¬ (b.length = 1 ∧ (b ++ rest).head?.any (· < 128)) := by
      rintro ⟨hone, hlt⟩
      obtain ⟨x, rfl⟩ := length_eq_one_iff.1 hone
      exact hbyte ⟨rfl, of_decide_eq_true hlt⟩
    obtain ⟨c, tail, heq, htag⟩ := readTag_string h hcanon
    rw [← append_assoc] at heq
    rw [if_neg hbyte, enc_string hbyte]
    exact ⟨_, readKind_of_tag heq htag, drop_left, by simp⟩
  | list vs =>
    obtain ⟨c, tail, heq, htag⟩ := readTag_list h (encs vs ++ rest)
    rw [← append_assoc] at heq
    rw [enc]
    exact ⟨_, readKind_of_tag heq htag, drop_left, by simp⟩

theorem split_enc (v : Value) (h : payload v < 2 ^ 64) (rest : List Byte) :
    split (enc v ++ rest) = .ok (kindOf v, contentOf v, rest) := by
  obtain ⟨ts, hkind, hdrop, hle⟩ := readKind_enc v h rest
  have hlen : ts + (contentOf v).length = (enc v).length := by
    rw [← hdrop, length_drop]
    omega
  rw [split, hkind]
  simp only [Except.map, hlen, drop_left]
  rw [drop_append_of_le_length hle, hdrop, take_left]

theorem splitString_enc {b : List Byte} (h : b.length < 2 ^ 64) (rest : List Byte) :
    splitString (enc (.bytes b) ++ rest) = .ok (b, rest) := by
  have hkind : kindOf (.bytes b) ≠ .list := by
    rw [kindOf]
    split <;> simp
  rw [splitString, split_enc (.bytes b) h]
  change (if kindOf (.bytes b) = .list then _ else _) = _
  rw [if_neg hkind]
  rfl

theorem splitList_enc {vs : List Value} (h : (encs vs).length < 2 ^ 64) (rest : List Byte) :
    splitList (enc (.list vs) ++ rest) = .ok (encs vs, rest) := by
  rw [splitList, split_enc (.list vs) h]
  rfl

theorem countLoop_encs {vs : List Value} (h : (encs vs).length < 2 ^ 64) {fuel : Nat}
    (hfuel : vs.length ≤ fuel) : countLoop fuel (encs vs) = .ok vs.length := by
  induction vs generalizing fuel with
  | nil => cases fuel <;> rfl
  | cons v vs ih =>
    obtain ⟨fuel, rfl⟩ : ∃ f, fuel = f + 1 := ⟨fuel - 1, by simp at hfuel; omega⟩
    simp only [encs, length_append] at h ⊢
    have hpay := payload_le v
    obtain ⟨ts, hkind, hdrop, hle⟩ := readKind_enc v (by omega) (encs vs)
    have hlen : ts + (contentOf v).length = (enc v).length := by
      rw [← hdrop, length_drop]
      omega
    obtain ⟨b, tail, hb⟩ := exists_cons_of_ne_nil (enc_ne_nil v)
    rw [hb, cons_append] at hkind ⊢
    rw [countLoop, hkind]
    change (· + 1) <$> countLoop fuel _ = _
    rw [hlen, ← cons_append, ← hb, drop_left, ih (by omega) (by simpa using hfuel)]
    rfl

theorem length_le_encs (vs : List Value) : vs.length ≤ (encs vs).length := by
  induction vs with
  | nil => exact le_refl _
  | cons v vs ih =>
    have := length_pos_iff.2 (enc_ne_nil v)
    rw [encs, length_append, length_cons]
    omega

end Virbicoin.Rlp.Raw
