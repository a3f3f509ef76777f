import Virbicoin.Lib.Patricia
import Virbicoin.Rlp.Encode

/-!
# Key encodings

`trie/encoding.go`. A key given as bytes is walked as hex: one digit a nibble, followed by the
terminator 16. On disk a path is stored in the compact encoding, two nibbles a byte behind a flag
that tells whether the number of nibbles is odd and whether the path ends with the terminator.
-/

namespace Virbicoin.Mpt

open Virbicoin.Lib.Patricia

abbrev Byte := Rlp.Byte

/-- A digit of a hex key: a nibble, or the terminator 16. -/
abbrev Nibble := Fin 17

instance (priority := high) nibbleNeZero : NeZero 17 := ⟨by decide⟩

abbrev terminator : Nibble := 16

def hasTerm (s : List Nibble) : Bool := s.getLast? == some terminator

def hiNibble (b : Byte) : Nibble := ⟨b.toNat / 16, by have : b.toNat < 256 := b.isLt; omega⟩

def loNibble (b : Byte) : Nibble := ⟨b.toNat % 16, by omega⟩

def nibbles : List Byte → List Nibble
  | [] => []
  | b :: str => hiNibble b :: loNibble b :: nibbles str

def keybytesToHex (str : List Byte) : List Nibble := nibbles str ++ [terminator]

/-- Two nibbles as a byte: `hi<<4 | lo`. -/
def packNibbles (hi lo : Nibble) : Byte := BitVec.ofNat 8 hi.val <<< 4 ||| BitVec.ofNat 8 lo.val

def decodeNibbles : List Nibble → List Byte
  | hi :: lo :: rest => packNibbles hi lo :: decodeNibbles rest
  | _ => []

def hexToCompact (hex : List Nibble) : List Byte :=
  let terminator : Byte := if hasTerm hex then 1 else 0
  let hex := if hasTerm hex then hex.dropLast else hex
  let flag := terminator <<< 5
  match hex with
  | [] => [flag]
  | x :: rest =>
    if hex.length % 2 = 1 then (flag ||| 1 <<< 4 ||| BitVec.ofNat 8 x.val) :: decodeNibbles rest
    else flag :: decodeNibbles hex

def compactToHex (compact : List Byte) : List Nibble :=
  match compact with
  | [] => []
  | b :: _ =>
    let flag := hiNibble b
    let base := keybytesToHex compact
    -- delete the terminator if the flag says so, then the flag itself
    let base := if flag < 2 then base.dropLast else base
    base.drop (2 - flag.val % 2)

/-- `none` is the panic. -/
def hexToKeybytes (hex : List Nibble) : Option (List Byte) :=
  let hex := if hasTerm hex then hex.dropLast else hex
  if hex.length % 2 ≠ 0 then none else some (decodeNibbles hex)

/-! ## Hex keys -/

theorem hiNibble_lt (b : Byte) : (hiNibble b).val < 16 := by
  simp only [hiNibble]
  omega

theorem loNibble_lt (b : Byte) : (loNibble b).val < 16 := by
  simp only [loNibble]
  omega

theorem nibble_ne_terminator {a : Nibble} (h : a.val < 16) : a ≠ terminator := by
  rintro rfl
  exact absurd h (by decide)

theorem terminator_not_mem_nibbles (str : List Byte) : terminator ∉ nibbles str := by
  induction str with
  | nil => simp [nibbles]
  | cons b str ih =>
    rw [nibbles, List.mem_cons, List.mem_cons, not_or, not_or]
    exact ⟨(nibble_ne_terminator (hiNibble_lt b)).symm, (nibble_ne_terminator (loNibble_lt b)).symm,
      ih⟩

theorem isKey_keybytesToHex (str : List Byte) : IsKey terminator (keybytesToHex str) :=
  isKey_iff.2 ⟨nibbles str, terminator_not_mem_nibbles str, rfl⟩

theorem nibbles_length (str : List Byte) : (nibbles str).length = 2 * str.length := by
  induction str with
  | nil => rfl
  | cons b str ih =>
    simp only [nibbles, List.length_cons, ih]
    omega

theorem packNibbles_toNat {hi lo : Nibble} (hhi : hi.val < 16) (hlo : lo.val < 16) :
    (packNibbles hi lo).toNat = hi.val * 16 + lo.val := by
  revert hi lo
  decide

theorem packNibbles_byte (b : Byte) : packNibbles (hiNibble b) (loNibble b) = b := by
  apply BitVec.eq_of_toNat_eq
  rw [packNibbles_toNat (hiNibble_lt b) (loNibble_lt b)]
  simp only [hiNibble, loNibble]
  omega

theorem decodeNibbles_nibbles (str : List Byte) : decodeNibbles (nibbles str) = str := by
  induction str with
  | nil => rfl
  | cons b str ih => rw [nibbles, decodeNibbles, packNibbles_byte, ih]

theorem keybytesToHex_injective : Function.Injective keybytesToHex := by
  intro k l h
  have hnibbles : nibbles k = nibbles l := List.append_cancel_right h
  rw [← decodeNibbles_nibbles k, hnibbles, decodeNibbles_nibbles]

/-! ## Compact paths -/

theorem hiNibble_packNibbles {hi lo : Nibble} (hhi : hi.val < 16) (hlo : lo.val < 16) :
    hiNibble (packNibbles hi lo) = hi := by
  have hpack := packNibbles_toNat hhi hlo
  apply Fin.ext
  simp only [hiNibble]
  omega

theorem loNibble_packNibbles {hi lo : Nibble} (hhi : hi.val < 16) (hlo : lo.val < 16) :
    loNibble (packNibbles hi lo) = lo := by
  have hpack := packNibbles_toNat hhi hlo
  apply Fin.ext
  simp only [loNibble]
  omega

theorem val_lt_of_ne_terminator {a : Nibble} (h : a ≠ terminator) : a.val < 16 := by
  have h16 : a.val ≠ 16 := fun hv => h (Fin.ext hv)
  omega

variable {p : List Nibble}

theorem nibbles_decodeNibbles (ht : terminator ∉ p) (heven : p.length % 2 = 0) :
    nibbles (decodeNibbles p) = p := by
  fun_induction decodeNibbles p with
  | case1 hi lo rest ih =>
    simp only [List.mem_cons, not_or] at ht
    have hhi := val_lt_of_ne_terminator (.symm ht.1)
    have hlo := val_lt_of_ne_terminator (.symm ht.2.1)
    rw [nibbles, hiNibble_packNibbles hhi hlo, loNibble_packNibbles hhi hlo,
      ih ht.2.2 (by simp only [List.length_cons] at heven; omega)]
  | case2 p hp =>
    match p, hp with
    | [], _ => rfl
    | [_], _ => simp at heven
    | a :: b :: rest, hp => exact absurd rfl (hp a b rest)

/-- A path of nibbles that ends with the terminator or not. -/
def path (p : List Nibble) (term : Bool) : List Nibble := if term then p ++ [terminator] else p

theorem hasTerm_path (ht : terminator ∉ p) (term : Bool) : hasTerm (path p term) = term := by
  cases term with
  | true => simp [hasTerm, path]
  | false =>
    simp only [hasTerm, path, Bool.false_eq_true, if_false, beq_eq_false_iff_ne]
    intro h
    exact ht (List.mem_of_getLast? h)

def flagNibble (odd term : Bool) : Nibble :=
  (if term then 2 else 0) + (if odd then 1 else 0)

theorem flagNibble_lt (odd term : Bool) : (flagNibble odd term).val < 16 := by
  revert odd term
  decide

theorem hexToCompact_even (ht : terminator ∉ p) (heven : p.length % 2 = 0) (term : Bool) :
    hexToCompact (path p term) = packNibbles (flagNibble false term) 0 :: decodeNibbles p := by
  have hp : (if term then (path p term).dropLast else path p term) = p := by
    cases term <;> simp [path]
  unfold hexToCompact
  simp only [hasTerm_path ht, hp]
  cases p with
  | nil =>
    cases term <;> rfl
  | cons x p =>
    dsimp only
    rw [if_neg (by omega)]
    cases term <;> rfl

theorem hexToCompact_odd {x : Nibble} (ht : terminator ∉ x :: p) (heven : p.length % 2 = 0)
    (term : Bool) :
    hexToCompact (path (x :: p) term) =
      packNibbles (flagNibble true term) x :: decodeNibbles p := by
  have hp : (if term then (path (x :: p) term).dropLast else path (x :: p) term) = x :: p := by
    cases term with
    | true => exact List.dropLast_concat
    | false => rfl
  unfold hexToCompact
  simp only [hasTerm_path ht, hp]
  rw [if_pos (by simp only [List.length_cons]; omega)]
  cases term <;> rfl

theorem compactToHex_pack {f x : Nibble} (hf : f.val < 16) (hx : x.val < 16) (str : List Byte) :
    compactToHex (packNibbles f x :: str) =
      (if f < 2 then f :: x :: nibbles str else f :: x :: nibbles str ++ [terminator]).drop
        (2 - f.val % 2) := by
  unfold compactToHex
  simp only [hiNibble_packNibbles hf hx, loNibble_packNibbles hf hx, keybytesToHex, nibbles]
  split
  · have hlast : (f :: x :: nibbles str ++ [terminator]).dropLast = f :: x :: nibbles str :=
      List.dropLast_concat
    exact congrArg _ hlast
  · rfl

theorem hexToKeybytes_keybytesToHex (str : List Byte) :
    hexToKeybytes (keybytesToHex str) = some str := by
  have hterm : hasTerm (keybytesToHex str) = true :=
    hasTerm_path (terminator_not_mem_nibbles str) true
  unfold hexToKeybytes
  rw [hterm, if_pos rfl, keybytesToHex, List.dropLast_concat, if_neg, decodeNibbles_nibbles]
  rw [nibbles_length]
  omega

theorem compactToHex_hexToCompact (ht : terminator ∉ p) (term : Bool) :
    compactToHex (hexToCompact (path p term)) = path p term := by
  obtain heven | hodd := Nat.mod_two_eq_zero_or_one p.length
  · rw [hexToCompact_even ht heven, compactToHex_pack (flagNibble_lt _ _) (by decide),
      nibbles_decodeNibbles ht heven]
    cases term <;> rfl
  cases p with
  | nil => simp at hodd
  | cons x p =>
    have heven : p.length % 2 = 0 := by
      simp only [List.length_cons] at hodd
      omega
    have hmem := ht
    rw [List.mem_cons, not_or] at hmem
    rw [hexToCompact_odd ht heven, compactToHex_pack (flagNibble_lt _ _)
      (val_lt_of_ne_terminator (symm hmem.1)), nibbles_decodeNibbles hmem.2 heven]
    cases term <;> rfl

end Virbicoin.Mpt
