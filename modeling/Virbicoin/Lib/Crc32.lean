import Mathlib.Logic.Function.Iterate
import Mathlib.Tactic.Common
import Mathlib.Tactic.Ring

/-!
# The IEEE CRC-32

`Crc32.update` is the table-driven update of a checksum by a byte string (reflected polynomial,
complemented before and after). It is affine in the checksum: on two checksums it differs by
`advance` applied, once a byte, to their difference (`update_xor_update`). `advance` is linear and
injective, so a byte string that leaves a checksum where it is moves every other one whose
difference `advance` moves (`update_ne_of_advance_ne`).
-/

namespace Virbicoin.Lib

namespace Crc32

def poly : BitVec 32 := 0xEDB88320#32

def shift (c : BitVec 32) : BitVec 32 :=
  if c.getLsbD 0 then (c >>> 1) ^^^ poly else c >>> 1

def table (i : BitVec 8) : BitVec 32 := shift^[8] (i.setWidth 32)

def updateByte (c : BitVec 32) (v : BitVec 8) : BitVec 32 :=
  table (c.setWidth 8 ^^^ v) ^^^ (c >>> 8)

def update (crc : BitVec 32) (p : List (BitVec 8)) : BitVec 32 :=
  ~~~ p.foldl updateByte (~~~ crc)

def checksum (p : List (BitVec 8)) : BitVec 32 := update 0#32 p

/-- The checksum of the ASCII bytes of `123456789`, the usual check value. -/
example : checksum [0x31, 0x32, 0x33, 0x34, 0x35, 0x36, 0x37, 0x38, 0x39] = 0xCBF43926#32 := by
  decide +kernel

/-! ## The update is affine -/

theorem xor_cancel_middle (a b p : BitVec 32) : a ^^^ p ^^^ (b ^^^ p) = a ^^^ b := by
  rw [BitVec.xor_assoc, b.xor_comm p, ← p.xor_assoc, BitVec.xor_self, BitVec.zero_xor]

theorem shift_xor (a b : BitVec 32) : shift (a ^^^ b) = shift a ^^^ shift b := by
  unfold shift
  rw [BitVec.getLsbD_xor, BitVec.ushiftRight_xor_distrib]
  cases a.getLsbD 0 <;> cases b.getLsbD 0
  · rfl
  · exact BitVec.xor_assoc _ _ _
  · show a >>> 1 ^^^ b >>> 1 ^^^ poly = a >>> 1 ^^^ poly ^^^ b >>> 1
    rw [BitVec.xor_assoc, BitVec.xor_comm (b >>> 1), ← BitVec.xor_assoc]
  · exact (xor_cancel_middle _ _ _).symm

theorem iterate_shift_xor (n : Nat) (a b : BitVec 32) :
    shift^[n] (a ^^^ b) = shift^[n] a ^^^ shift^[n] b := by
  induction n generalizing a b with
  | zero => rfl
  | succ n ih => rw [Function.iterate_succ_apply, shift_xor, ih]; rfl

theorem table_xor (i j : BitVec 8) : table (i ^^^ j) = table i ^^^ table j := by
  unfold table
  rw [BitVec.setWidth_xor, iterate_shift_xor]

def advance (c : BitVec 32) : BitVec 32 := updateByte c 0#8

theorem updateByte_xor_updateByte (c d : BitVec 32) (v : BitVec 8) :
    updateByte c v ^^^ updateByte d v = advance (c ^^^ d) := by
  unfold advance updateByte
  rw [BitVec.xor_zero, BitVec.setWidth_xor, table_xor, table_xor, table_xor,
    BitVec.ushiftRight_xor_distrib]
  ext i hi
  simp only [BitVec.getElem_xor]
  cases (table (c.setWidth 8))[i] <;> cases (table (d.setWidth 8))[i] <;> cases (table v)[i] <;>
    cases (c >>> 8)[i] <;> cases (d >>> 8)[i] <;> rfl

theorem advance_xor (c d : BitVec 32) : advance (c ^^^ d) = advance c ^^^ advance d :=
  (updateByte_xor_updateByte c d 0#8).symm

theorem foldl_updateByte_xor (p : List (BitVec 8)) (c d : BitVec 32) :
    p.foldl updateByte c ^^^ p.foldl updateByte d = advance^[p.length] (c ^^^ d) := by
  induction p generalizing c d with
  | nil => rfl
  | cons v p ih =>
    rw [List.foldl_cons, List.foldl_cons, ih, updateByte_xor_updateByte, List.length_cons,
      Function.iterate_succ_apply]

theorem not_xor_not (x y : BitVec 32) : ~~~ x ^^^ ~~~ y = x ^^^ y := by
  ext i hi
  simp only [BitVec.getElem_xor, BitVec.getElem_not]
  cases x[i] <;> cases y[i] <;> rfl

/-- **The update is affine**: its effect on a difference does not depend on the bytes. -/
theorem update_xor_update (p : List (BitVec 8)) (c d : BitVec 32) :
    update c p ^^^ update d p = advance^[p.length] (c ^^^ d) := by
  unfold update
  rw [not_xor_not, foldl_updateByte_xor, not_xor_not]

/-! ## The update is injective -/

theorem eq_of_xor_eq_zero {c d : BitVec 32} (h : c ^^^ d = 0#32) : c = d := by
  calc c = c ^^^ d ^^^ d := by rw [BitVec.xor_assoc, BitVec.xor_self, BitVec.xor_zero]
    _ = d := by rw [h]; exact BitVec.zero_xor

theorem table_zero : table 0#8 = 0#32 := by decide

theorem table_top : ∀ i : BitVec 8, table i >>> 24 = 0#32 → i = 0#8 := by decide +kernel

theorem eq_zero_of_advance {c : BitVec 32} (h : advance c = 0#32) : c = 0#32 := by
  unfold advance updateByte at h
  rw [BitVec.xor_zero] at h
  have htable : table (c.setWidth 8) = c >>> 8 := eq_of_xor_eq_zero h
  have htop : table (c.setWidth 8) >>> 24 = 0#32 := by
    rw [htable]
    apply BitVec.eq_of_toNat_eq
    simp
    omega
  have hlow : c.setWidth 8 = 0#8 := table_top _ htop
  rw [hlow, table_zero] at htable
  apply BitVec.eq_of_toNat_eq
  have hl := congrArg BitVec.toNat hlow
  have hh := congrArg BitVec.toNat htable
  simp at hl hh ⊢
  omega

theorem advance_injective : Function.Injective advance := by
  intro c d h
  apply eq_of_xor_eq_zero
  apply eq_zero_of_advance
  rw [advance_xor, h, BitVec.xor_self]

theorem update_ne_of_advance_ne {p : List (BitVec 8)} {c d : BitVec 32}
    (h : advance^[p.length] (c ^^^ d) ≠ c ^^^ d) : update c p ≠ c ∨ update d p ≠ d := by
  by_contra hfix
  rw [not_or, not_not, not_not] at hfix
  apply h
  rw [← update_xor_update, hfix.1, hfix.2]

end Crc32

end Virbicoin.Lib
