import Mathlib.Data.List.Basic
import Mathlib.Tactic.Common
import Mathlib.Tactic.Ring

/-!
# Big-endian bytes

`bigEndian k n` are the low `k` bytes of `n`, the most significant first, and `ofBigEndian` reads
bytes back. Either undoes the other, on numbers modulo `256 ^ k` (`ofBigEndian_bigEndian`) and on
byte strings of length `k` (`bigEndian_ofBigEndian`).
-/

namespace Virbicoin.Lib

/-- The low `k` bytes of `n`, the most significant first. -/
def bigEndian : Nat → Nat → List (BitVec 8)
  | 0, _ => []
  | k + 1, n => BitVec.ofNat 8 (n / 256 ^ k) :: bigEndian k n

@[simp] theorem bigEndian_length (k n : Nat) : (bigEndian k n).length = k := by
  induction k with
  | zero => rfl
  | succ k ih => simp [bigEndian, ih]

variable {n : Nat}

theorem bigEndian_eq {k m : Nat} (h : bigEndian k m = bigEndian k n) :
    m % 256 ^ k = n % 256 ^ k := by
  induction k with
  | zero => simp [Nat.mod_one]
  | succ k ih =>
    simp only [bigEndian, List.cons.injEq] at h
    have hhead : m / 256 ^ k % 256 = n / 256 ^ k % 256 := by
      have := congrArg BitVec.toNat h.1
      simpa using this
    rw [Nat.pow_succ, Nat.mod_mul, Nat.mod_mul, hhead, ih h.2]

theorem bigEndian_lt {k m : Nat} (h : m % 256 ^ k < n % 256 ^ k) :
    bigEndian k m < bigEndian k n := by
  induction k with
  | zero => simp [Nat.mod_one] at h
  | succ k ih =>
    rw [Nat.pow_succ, Nat.mod_mul, Nat.mod_mul] at h
    rw [bigEndian, bigEndian, List.cons_lt_cons_iff, BitVec.lt_def, ← BitVec.toNat_inj,
      BitVec.toNat_ofNat, BitVec.toNat_ofNat]
    obtain hlt | heq | hgt := Nat.lt_trichotomy (m / 256 ^ k % 256) (n / 256 ^ k % 256)
    · exact .inl hlt
    · rw [heq] at h
      exact .inr ⟨heq, ih (Nat.lt_of_add_lt_add_right h)⟩
    have hpos : 0 < 256 ^ k := Nat.pow_pos (by decide)
    have hm := n.mod_lt hpos
    have := Nat.mul_le_mul_left (256 ^ k) hgt
    rw [Nat.mul_succ] at this
    omega

/-! ## Reading bytes -/

def ofBigEndian : List (BitVec 8) → Nat
  | [] => 0
  | b :: bytes => b.toNat * 256 ^ bytes.length + ofBigEndian bytes

theorem ofBigEndian_lt (bytes : List (BitVec 8)) : ofBigEndian bytes < 256 ^ bytes.length := by
  induction bytes with
  | nil => simp [ofBigEndian]
  | cons b bytes ih =>
    have hb : b.toNat < 256 := b.isLt
    calc b.toNat * 256 ^ bytes.length + ofBigEndian bytes
        < b.toNat * 256 ^ bytes.length + 256 ^ bytes.length := by omega
      _ = (b.toNat + 1) * 256 ^ bytes.length := by ring
      _ ≤ 256 * 256 ^ bytes.length := Nat.mul_le_mul_right _ hb
      _ = 256 ^ bytes.length * 256 := mul_comm _ _

theorem ofBigEndian_bigEndian (k n : Nat) : ofBigEndian (bigEndian k n) = n % 256 ^ k := by
  induction k with
  | zero => simp [bigEndian, ofBigEndian, Nat.mod_one]
  | succ k ih =>
    have hbyte : (BitVec.ofNat 8 (n / 256 ^ k)).toNat = n / 256 ^ k % 256 := BitVec.toNat_ofNat _ _
    rw [bigEndian, ofBigEndian, bigEndian_length, ih, hbyte, Nat.pow_succ, Nat.mod_mul,
      mul_comm, add_comm]

theorem bigEndian_add_mul (k m n : Nat) : bigEndian k (m * 256 ^ k + n) = bigEndian k n := by
  induction k generalizing m with
  | zero => rfl
  | succ k ih =>
    have hpos : 0 < 256 ^ k := Nat.pow_pos (by decide)
    have hsplit : m * 256 ^ (k + 1) + n = m * 256 * 256 ^ k + n := by ring
    rw [bigEndian, hsplit, ih (m * 256), Nat.add_comm, Nat.add_mul_div_right _ _ hpos]
    congr 1
    apply BitVec.eq_of_toNat_eq
    simp only [BitVec.toNat_ofNat]
    omega

theorem bigEndian_ofBigEndian (bytes : List (BitVec 8)) :
    bigEndian bytes.length (ofBigEndian bytes) = bytes := by
  induction bytes with
  | nil => rfl
  | cons b bytes ih =>
    have hpos : 0 < 256 ^ bytes.length := Nat.pow_pos (by decide)
    rw [ofBigEndian, List.length_cons, bigEndian, bigEndian_add_mul, ih, Nat.add_comm,
      Nat.add_mul_div_right _ _ hpos, Nat.div_eq_of_lt (ofBigEndian_lt bytes), Nat.zero_add,
      BitVec.ofNat_toNat, BitVec.setWidth_eq]

/-! ## The least number of bytes -/

/-- The least positive number of bytes that hold `n`. -/
def byteSize (n : Nat) : Nat := if n < 256 then 1 else byteSize (n / 256) + 1
decreasing_by omega

theorem byteSize_pos (n : Nat) : 0 < byteSize n := by
  unfold byteSize
  split <;> omega

theorem lt_pow_byteSize (n : Nat) : n < 256 ^ byteSize n := by
  fun_induction byteSize n with
  | case1 n h => simpa using h
  | case2 n h ih => omega

theorem pow_byteSize_le (h : 256 ≤ n) : 256 ^ (byteSize n - 1) ≤ n := by
  fun_induction byteSize n with
  | case1 n hlt => omega
  | case2 n hlt ih =>
    rw [Nat.add_sub_cancel]
    by_cases hn : 256 ≤ n / 256
    · have hpos := byteSize_pos (n / 256)
      have hstep := ih hn
      obtain ⟨k, hk⟩ := Nat.exists_eq_add_of_lt hpos
      rw [hk, Nat.add_sub_cancel] at hstep
      rw [hk]
      omega
    have hone : byteSize (n / 256) = 1 := by
      unfold byteSize
      rw [if_pos (by omega)]
    rw [hone]
    exact h

theorem byteSize_le {k : Nat} (hk : 0 < k) (h : n < 256 ^ k) : byteSize n ≤ k := by
  by_contra hlt
  by_cases hn : 256 ≤ n
  · have hle := pow_byteSize_le hn
    have hmono : 256 ^ k ≤ 256 ^ (byteSize n - 1) := Nat.pow_le_pow_right (by decide) (by omega)
    omega
  unfold byteSize at hlt
  rw [if_pos (by omega)] at hlt
  omega

theorem byteSize_eq {k : Nat} (hlow : 256 ^ k ≤ n) (hhigh : n < 256 ^ (k + 1)) :
    byteSize n = k + 1 := by
  apply le_antisymm (byteSize_le k.succ_pos hhigh)
  by_contra hlt
  have hmono : 256 ^ byteSize n ≤ 256 ^ k := Nat.pow_le_pow_right (by decide) (by omega)
  have := lt_pow_byteSize n
  omega

theorem bigEndian_byteSize_head (h : 0 < n) :
    ∃ b bytes, bigEndian (byteSize n) n = b :: bytes ∧ b ≠ 0#8 := by
  obtain ⟨k, hk⟩ := Nat.exists_eq_add_of_lt (byteSize_pos n)
  rw [Nat.zero_add] at hk
  refine ⟨_, _, by rw [hk, bigEndian], ?_⟩
  intro hzero
  have hlt := lt_pow_byteSize n
  rw [hk] at hlt
  have hdiv : n / 256 ^ k < 256 := Nat.div_lt_of_lt_mul hlt
  have hzero' := congrArg BitVec.toNat hzero
  rw [BitVec.toNat_ofNat, Nat.mod_eq_of_lt hdiv] at hzero'
  have hsmall : n < 256 ^ k := by
    have := Nat.lt_of_div_eq_zero (Nat.pow_pos (by decide)) hzero'
    exact this
  by_cases hn : 256 ≤ n
  · have hle := pow_byteSize_le hn
    rw [hk, Nat.add_sub_cancel] at hle
    omega
  have hone : byteSize n = 1 := by
    unfold byteSize
    rw [if_pos (by omega)]
  have hk0 : k = 0 := by omega
  rw [hk0] at hsmall
  omega

theorem pow_le_ofBigEndian {bytes : List (BitVec 8)} (h : bytes.head? ≠ some 0)
    (hne : bytes ≠ []) : 256 ^ (bytes.length - 1) ≤ ofBigEndian bytes := by
  cases bytes with
  | nil => exact absurd rfl hne
  | cons b bytes =>
    have hb : 0 < b.toNat := by
      refine pos_of_ne_zero fun h0 => h ?_
      rw [List.head?_cons, BitVec.eq_of_toNat_eq (y := 0) h0]
    exact Nat.le_add_right_of_le (Nat.le_mul_of_pos_left _ hb)

theorem bigEndian_byteSize_eq_iff (h : 0 < n) {bytes : List (BitVec 8)} :
    bigEndian (byteSize n) n = bytes ↔ ofBigEndian bytes = n ∧ bytes.head? ≠ some 0#8 := by
  constructor
  · rintro rfl
    refine ⟨?_, ?_⟩
    · rw [ofBigEndian_bigEndian, Nat.mod_eq_of_lt (lt_pow_byteSize n)]
    obtain ⟨b, bytes, hbytes, hb⟩ := bigEndian_byteSize_head h
    simpa [hbytes] using hb
  rintro ⟨rfl, hhead⟩
  cases bytes with
  | nil => simp [ofBigEndian] at h
  | cons b bytes =>
    have hlow := pow_le_ofBigEndian hhead (List.cons_ne_nil b bytes)
    rw [byteSize_eq hlow (ofBigEndian_lt (b :: bytes))]
    exact bigEndian_ofBigEndian (b :: bytes)

end Virbicoin.Lib
