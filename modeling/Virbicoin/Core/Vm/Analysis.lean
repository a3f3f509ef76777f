import Mathlib.Logic.Relation
import Virbicoin.Core.Vm.Common
import Virbicoin.Lib.Ensures

/-!
# Jump analysis

A sweep over the code goes from instruction to instruction, over the data of the pushes.
`codeBitmap` takes the same steps and marks what is skipped, eight positions at a time: it never
writes out of its bounds and marks the skipped positions and no others (`codeBitmap_spec`). So a
destination is valid exactly if the sweep stops there (`validDest_spec`).
-/

namespace Virbicoin.Vm

open Lib State

/-! ## The sweep -/

def pushSize (op : BitVec 8) : Nat := if 0x60 ≤ op ∧ op ≤ 0x7f then op.toNat - 0x60 + 1 else 0

theorem pushSize_le (op : BitVec 8) : pushSize op ≤ 32 := by
  unfold pushSize
  split
  · rename_i h
    have := BitVec.le_def.1 h.2
    have : (0x7f : BitVec 8).toNat = 127 := rfl
    omega
  · exact Nat.zero_le _

def Advance (code : Bytes) (p q : Nat) : Prop :=
  p < code.length ∧ q = p + 1 + pushSize (code.getD p 0)

abbrev Sweep (code : Bytes) : Nat → Nat → Prop := Relation.ReflTransGen (Advance code)

/-- A sweep from `s` on skips `pos` as data of a push. -/
def Skipped (code : Bytes) (s pos : Nat) : Prop :=
  ∃ p, Sweep code s p ∧ p < code.length ∧ p < pos ∧ pos ≤ p + pushSize (code.getD p 0)

variable {code : Bytes} {s p q pos : Nat}

theorem Sweep.le (h : Sweep code p q) : p ≤ q := by
  induction h with
  | refl => exact le_rfl
  | tail _ hadv ih =>
    obtain ⟨-, rfl⟩ := hadv
    omega

theorem sweep_of_not_skipped (hs : s ≤ pos) (hpos : pos < code.length)
    (h : ¬ Skipped code s pos) : Sweep code s pos := by
  induction hn : pos - s using Nat.strong_induction_on generalizing s with
  | _ n ih =>
    by_cases heq : s = pos
    · rw [heq]
    have hadv : Advance code s (s + 1 + pushSize (code.getD s 0)) := ⟨by omega, rfl⟩
    have hnext : s + 1 + pushSize (code.getD s 0) ≤ pos := by
      by_contra hlt
      exact h ⟨s, .refl, by omega, by omega, by omega⟩
    refine .head hadv (ih _ (by omega) hnext ?_ rfl)
    rintro ⟨p, hp, hskip⟩
    exact h ⟨p, .head hadv hp, hskip⟩

theorem Sweep.not_skipped (h : Sweep code s pos) : ¬ Skipped code s pos := by
  rintro ⟨p, hp, hlt, hpos, hle⟩
  have hunique : Relator.RightUnique (Advance code) := fun _ _ _ ⟨_, h⟩ ⟨_, h'⟩ => h.trans h'.symm
  rcases hp.total_of_right_unique hunique h with hsweep | hsweep
  · rcases hsweep.cases_head with rfl | ⟨q, ⟨-, rfl⟩, hrest⟩
    · omega
    have := le hrest
    omega
  have := le hsweep
  omega

theorem not_skipped_of_le (h : code.length ≤ s) : ¬ Skipped code s pos := by
  rintro ⟨p, hp, hlt, -⟩
  have := hp.le
  omega

theorem skipped_cons (hlt : s < code.length) : Skipped code s pos ↔
    (s < pos ∧ pos ≤ s + pushSize (code.getD s 0)) ∨
      Skipped code (s + 1 + pushSize (code.getD s 0)) pos := by
  constructor
  · rintro ⟨p, hp, hskip⟩
    rcases hp.cases_head with rfl | ⟨q, ⟨-, rfl⟩, hrest⟩
    · exact .inl hskip.2
    · exact .inr ⟨p, hrest, hskip⟩
  rintro (h | ⟨p, hp, hskip⟩)
  · exact ⟨s, .refl, hlt, h⟩
  · exact ⟨p, .head ⟨hlt, rfl⟩ hp, hskip⟩

/-! ## The bit vector -/

def Marked (bits : Bitvec) (pos : Nat) : Prop := bits.getD (pos / 8) 0 &&& 0x80 >>> (pos % 8) ≠ 0

def Marks (bits : Bitvec) (lo hi : Nat) (b : Bitvec) : Prop :=
  b.length = bits.length ∧ ∀ q, Marked b q ↔ Marked bits q ∨ lo ≤ q ∧ q < hi

variable {bits : Bitvec} {i lo hi : Nat}

theorem Marks.trans {b b' : Bitvec} (h : Marks bits lo pos b) (h' : Marks b pos hi b')
    (hlo : lo ≤ pos) (hhi : pos ≤ hi) : Marks bits lo hi b' := by
  refine ⟨h'.1.trans h.1, fun q => ?_⟩
  rw [h'.2, h.2, or_assoc]
  exact or_congr_right (by omega)

theorem or_marks (mask : BitVec 8) (h : i < bits.length) :
    Ensures (fun _ => False) (fun b => b.length = bits.length ∧ ∀ q, Marked b q ↔
      Marked bits q ∨ q / 8 = i ∧ mask &&& 0x80 >>> (q % 8) ≠ 0) (bits.or i mask) := by
  unfold Bitvec.or
  rw [List.getElem?_eq_getElem h]
  refine Ensures.ok ⟨List.length_set, fun q => ?_⟩
  unfold Marked
  rw [List.getD_eq_getElem?_getD, List.getD_eq_getElem?_getD, List.getElem?_set]
  by_cases hi : i = q / 8
  · subst hi
    have hdist : ∀ x y k : BitVec 8, (x ||| y) &&& k ≠ 0 ↔ x &&& k ≠ 0 ∨ y &&& k ≠ 0 := by
      intro x y k
      rw [← not_and_or, not_iff_not, BitVec.and_comm, BitVec.and_or_distrib_left,
        k.and_comm, k.and_comm]
      exact BitVec.or_eq_zero_iff
    rw [if_pos rfl, if_pos h, List.getElem?_eq_getElem h, and_iff_right rfl]
    exact hdist _ _ _
  · simp [hi, Ne.symm hi]

theorem set_marks (h : pos < 8 * bits.length) :
    Ensures (fun _ => False) (Marks bits pos (pos + 1)) (bits.set pos) := by
  refine (or_marks _ (by omega)).imp fun b hb => ⟨hb.1, fun q => ?_⟩
  have hbit : ∀ r s : Fin 8,
      (↑(0x80 >>> r.val) &&& ↑(0x80 >>> s.val) : BitVec 8) ≠ 0 ↔ s.val = r.val := by decide
  rw [hb.2, hbit ⟨pos % 8, Nat.mod_lt _ (by decide)⟩ ⟨q % 8, Nat.mod_lt _ (by decide)⟩]
  exact or_congr_right (by dsimp only; omega)

theorem set8_marks (h : pos + 8 < 8 * bits.length) :
    Ensures (fun _ => False) (Marks bits pos (pos + 8)) (bits.set8 pos) := by
  refine (or_marks _ (by omega)).bind fun b hb => ?_
  refine (or_marks _ (by omega)).imp fun b' hb' => ⟨hb'.1.trans hb.1, fun q => ?_⟩
  have hlow : ∀ r s : Fin 8,
      (↑(0xFF >>> r.val) &&& ↑(0x80 >>> s.val) : BitVec 8) ≠ 0 ↔ r.val ≤ s.val := by decide
  have hhigh : ∀ r s : Fin 8,
      (~~~ ↑(0xFF >>> r.val) &&& ↑(0x80 >>> s.val) : BitVec 8) ≠ 0 ↔ s.val < r.val := by decide
  rw [hb'.2, hb.2, hlow ⟨pos % 8, Nat.mod_lt _ (by decide)⟩ ⟨q % 8, Nat.mod_lt _ (by decide)⟩,
    hhigh ⟨pos % 8, Nat.mod_lt _ (by decide)⟩ ⟨q % 8, Nat.mod_lt _ (by decide)⟩, or_assoc]
  exact or_congr_right (by dsimp only; omega)

theorem set8s_marks (n : Nat) (h : pos + 8 * n < 8 * bits.length) :
    Ensures (fun _ => False) (Marks bits pos (pos + 8 * n)) (Bitvec.set8s n pos bits) := by
  induction n generalizing pos bits with
  | zero => exact .ok ⟨rfl, fun q => (or_iff_left (by omega)).symm⟩
  | succ n ih =>
    refine (set8_marks (by omega)).bind fun b hb => ?_
    have hlen := hb.1
    refine (ih (by omega)).imp fun b' hb' => ?_
    rw [show pos + 8 * (n + 1) = pos + 8 + 8 * n by omega]
    exact hb.trans hb' (by omega) (by omega)

theorem sets_marks (n : Nat) (h : pos + n ≤ 8 * bits.length) :
    Ensures (fun _ => False) (Marks bits pos (pos + n)) (Bitvec.sets n pos bits) := by
  induction n generalizing pos bits with
  | zero => exact .ok ⟨rfl, fun q => (or_iff_left (by omega)).symm⟩
  | succ n ih =>
    refine (set_marks (by omega)).bind fun b hb => ?_
    have hlen := hb.1
    refine (ih (by omega)).imp fun b' hb' => ?_
    rw [show pos + (n + 1) = pos + 1 + n by omega]
    exact hb.trans hb' (by omega) (by omega)

/-! ## The analysis -/

theorem codeBitmapLoop_marks (fuel : Nat)
    (hbits : bits.length = code.length / 8 + 1 + 4) (hfuel : code.length ≤ pos + fuel) :
    Ensures (fun _ => False) (fun b => b.length = bits.length ∧
      ∀ q, Marked b q ↔ Marked bits q ∨ Skipped code pos q)
      (codeBitmapLoop code fuel pos bits) := by
  induction fuel generalizing pos bits with
  | zero => exact .ok ⟨rfl, fun q => (or_iff_left (not_skipped_of_le hfuel)).symm⟩
  | succ fuel ih =>
    refine .ite (fun hpos => ?_) fun hpos =>
      Ensures.ok ⟨rfl, fun q => (or_iff_left (not_skipped_of_le (by omega))).symm⟩
    -- the rest of the loop after the data of this instruction is marked
    have hrest : ∀ {b}, Marks bits (pos + 1) (pos + 1 + pushSize (code.getD pos 0)) b →
        Ensures (fun _ => False) (fun b => b.length = bits.length ∧
          ∀ q, Marked b q ↔ Marked bits q ∨ Skipped code pos q)
          (codeBitmapLoop code fuel (pos + 1 + pushSize (code.getD pos 0)) b) := by
      intro b hb
      refine (ih (hb.1.trans hbits) (by omega)).imp fun b' hb' => ⟨hb'.1.trans hb.1, fun q => ?_⟩
      rw [hb'.2, hb.2, skipped_cons hpos, or_assoc]
      exact or_congr_right (or_congr_left (by omega))
    have hsize := pushSize_le (code.getD pos 0)
    unfold pushSize at hsize hrest
    refine .ite (fun hop => ?_) fun hop => ?_
    · rw [if_pos hop] at hsize hrest
      refine (set8s_marks _ (by omega)).bind fun b hb => ?_
      have hlen := hb.1
      refine (sets_marks _ (by omega)).bind fun b' hb' => hrest ?_
      rw [mul_comm 8] at hb
      refine (congrArg (Marks bits (pos + 1) · b') ?_).mp (hb.trans hb' (by omega) (by omega))
      omega
    rw [if_neg hop] at hrest
    exact hrest ⟨rfl, fun q => (or_iff_left (by omega)).symm⟩

theorem codeBitmap_spec (code : Bytes) :
    ∃ bits, codeBitmap code = .ok bits ∧ bits.length = code.length / 8 + 1 + 4 ∧
      ∀ pos, Marked bits pos ↔ Skipped code 0 pos := by
  have hmarks : Ensures _ _ (codeBitmap code) :=
    codeBitmapLoop_marks code.length List.length_replicate (by omega)
  obtain ⟨bits, hok, hlen, hmarked⟩ := hmarks.exists_ok
  rw [List.length_replicate] at hlen
  refine ⟨bits, hok, hlen, fun pos => (hmarked pos).trans (or_iff_right ?_)⟩
  unfold Marked
  rw [List.getD_eq_getElem?_getD, List.getElem?_replicate]
  split <;> simp

theorem codeSegment_spec (h : pos < 8 * bits.length) :
    ∃ isCode, bits.codeSegment pos = .ok isCode ∧ (isCode = true ↔ ¬ Marked bits pos) := by
  unfold Bitvec.codeSegment Marked
  rw [List.getD_eq_getElem?_getD, List.getElem?_eq_getElem (by omega)]
  exact ⟨_, rfl, by simp⟩

theorem validDest_spec (c : Contract) (op : BitVec 8) (dest : Nat) :
    ∃ valid, c.validDest op dest = .ok valid ∧ (valid = true ↔
      dest < c.code.length ∧ c.code.getD dest 0 = op ∧ Sweep c.code 0 dest) := by
  unfold Contract.validDest
  split
  · exact ⟨false, rfl, by simp; omega⟩
  split
  · exact ⟨false, rfl, by simp_all⟩
  rename_i hlt hop
  obtain ⟨bits, hok, hlen, hmarked⟩ := codeBitmap_spec c.code
  obtain ⟨isCode, hcode, hiff⟩ := codeSegment_spec (show dest < 8 * bits.length by omega)
  refine ⟨isCode, bind_eq_ok.2 ⟨bits, hok, hcode⟩, ?_⟩
  rw [hiff, hmarked, and_iff_right (Nat.lt_of_not_le hlt), and_iff_right (Decidable.not_not.1 hop)]
  exact ⟨sweep_of_not_skipped (Nat.zero_le _) (Nat.lt_of_not_le hlt), Sweep.not_skipped⟩

variable {E : Stop → Prop}

theorem validDest_ensures (c : Contract) (op : BitVec 8) (dest : Nat) :
    Ensures E (fun valid => valid = true →
      dest < c.code.length ∧ c.code.getD dest 0 = op ∧ Sweep c.code 0 dest)
      (c.validDest op dest) := by
  obtain ⟨valid, hok, hiff⟩ := validDest_spec c op dest
  rw [hok]
  exact .ok hiff.1

theorem validJumpdest_ensures (c : Contract) (dest : Word) :
    Ensures E (fun valid => valid = true → Sweep c.code 0 (lowUint64 dest))
      (c.validJumpdest dest) :=
  Ensures.ite (fun _ => .ok nofun) fun _ =>
    (validDest_ensures c _ _).imp fun _ h hv => (h hv).2.2

theorem validJumpSubdest_ensures (c : Contract) (dest : Nat) :
    Ensures E (fun valid => valid = true →
      dest < c.code.length ∧ c.code.getD dest 0 = 0x5c ∧ Sweep c.code 0 dest)
      (c.validJumpSubdest dest) :=
  Ensures.ite (fun _ => .ok nofun) fun _ => validDest_ensures c _ _

end Virbicoin.Vm
