import Virbicoin.Core.Vm.Effects

/-!
# Memory ranges

The memory size functions compute, with overflow checks, the end of the ranges that an operation
accesses; an empty range may lie anywhere. A size that they return covers these ranges (`Covers`),
the preparation of the operation makes the memory at least that large, and the memory fee bounds it
(`maxMemory`). In a memory like this the accessors do not fail, although they take the low 64 bits
of their operands and, in `GetPtr`, signed numbers.
-/

namespace Virbicoin.Vm

open Lib State Params

def Covers (size : Nat) (off len : Word) : Prop := len = 0 ∨ off.toNat + len.toNat ≤ size

variable {s : List Word} {v size : Nat}

theorem Covers.mono {size' : Nat} {off len : Word} (h : Covers size off len) (hle : size ≤ size') :
    Covers size' off len :=
  h.imp_right fun h => h.trans hle

/-! ## Sizes -/

theorem isUint64_iff {x : Word} : isUint64 x = true ↔ x.toNat < 2 ^ 64 := by
  exact decide_eq_true_iff

theorem lowUint64_of_lt {x : Word} (h : x.toNat < 2 ^ 64) : lowUint64 x = x.toNat :=
  Nat.mod_eq_of_lt h

theorem calcMemSize64WithUint_eq_some {off : Word} {length : Nat} (hlen : length < 2 ^ 64)
    (h : calcMemSize64WithUint off length = some v) : length = 0 ∨ off.toNat + length ≤ v := by
  unfold calcMemSize64WithUint at h
  split at h
  · exact .inl ‹_›
  split at h
  · cases h
  rename_i hoff
  have hoff : off.toNat < 2 ^ 64 := isUint64_iff.1 (by simpa using hoff)
  simp only [lowUint64_of_lt hoff] at h
  split at h
  · cases h
  cases h
  -- the sum did not wrap around, since it is not below the offset
  right
  by_cases hsum : off.toNat + length < 2 ^ 64
  · rw [Nat.mod_eq_of_lt hsum]
  · omega

theorem calcMemSize64_covers {off len : Word} (h : calcMemSize64 off len = some v) :
    Covers v off len := by
  unfold calcMemSize64 at h
  split at h
  · cases h
  rename_i hlen
  have hlen : len.toNat < 2 ^ 64 := isUint64_iff.1 (by simpa using hlen)
  rw [lowUint64_of_lt hlen] at h
  refine (calcMemSize64WithUint_eq_some hlen h).imp (fun h0 => ?_) id
  exact BitVec.eq_of_toNat_eq h0

theorem le_toWordSize (h : safeMul (toWordSize v) 32 = some size) : v ≤ size := by
  unfold safeMul at h
  split at h
  · rename_i hlt
    cases h
    unfold toWordSize maxUint64 at hlt ⊢
    split at hlt
    · omega
    rw [if_neg ‹_›]
    omega
  · cases h

def MemorySizeFunc.Covered (f : MemorySizeFunc) (s : List Word) (size : Nat) : Prop :=
  match f with
  | .range off len => ∀ x y, s[off]? = some x → s[len]? = some y → Covers size x y
  | .fixed length => ∀ x, s[0]? = some x → x.toNat + length ≤ size
  | .two xOff xLen yOff yLen =>
    (∀ x y, s[xOff]? = some x → s[xLen]? = some y → Covers size x y) ∧
      (∀ x y, s[yOff]? = some x → s[yLen]? = some y → Covers size x y)

theorem memoryRange_covers {off len : Nat} (h : memoryRange off len s = .ok (some v)) :
    ∀ x y, s[off]? = some x → s[len]? = some y → Covers v x y := by
  obtain ⟨x, hx, h⟩ := bind_eq_ok.1 h
  obtain ⟨y, hy, h⟩ := bind_eq_ok.1 h
  intro x' y' hx' hy'
  rw [(back_own s off).of_ok hx] at hx'
  rw [(back_own s len).of_ok hy] at hy'
  cases hx'
  cases hy'
  exact calcMemSize64_covers (Except.ok.inj h)

theorem MemorySizeFunc.covered_of_size {f : MemorySizeFunc}
    (hf : ∀ length, f = .fixed length → 0 < length ∧ length < 2 ^ 64)
      (h : f.size s = .ok (some v)) :
    f.Covered s v := by
  cases f with
  | range off len => exact memoryRange_covers h
  | fixed length =>
    obtain ⟨x, hx, h⟩ := bind_eq_ok.1 h
    intro x' hx'
    rw [(back_own s 0).of_ok hx] at hx'
    cases hx'
    obtain ⟨hpos, hlt⟩ := hf length rfl
    rcases calcMemSize64WithUint_eq_some hlt (Except.ok.inj h) with h0 | hle
    · omega
    · exact hle
  | two xOff xLen yOff yLen =>
    obtain ⟨x, hx, h⟩ := bind_eq_ok.1 h
    cases x with
    | none => cases h
    | some x =>
      obtain ⟨y, hy, h⟩ := bind_eq_ok.1 h
      cases y with
      | none => cases h
      | some y =>
        cases h
        refine ⟨fun a b ha hb => (memoryRange_covers hx a b ha hb).mono ?_,
          fun a b ha hb => (memoryRange_covers hy a b ha hb).mono ?_⟩ <;> split <;> omega

theorem MemorySizeFunc.Covered.mono {f : MemorySizeFunc} (h : f.Covered s v) (hle : v ≤ size) :
    f.Covered s size := by
  cases f with
  | range off len => exact fun x y hx hy => (h x y hx hy).mono hle
  | fixed length => exact fun x hx => (h x hx).trans hle
  | two xOff xLen yOff yLen =>
    exact ⟨fun x y hx hy => (h.1 x y hx hy).mono hle, fun x y hx hy => (h.2 x y hx hy).mono hle⟩

theorem requiredMemory_covered {o : Operation} {f : MemorySizeFunc}
    (hf : ∀ length, f = .fixed length → 0 < length ∧ length < 2 ^ 64) (hmem : o.memorySize = some f)
    (h : requiredMemory o s = .ok size) : f.Covered s size := by
  unfold requiredMemory at h
  rw [hmem] at h
  obtain ⟨v, hv, h⟩ := bind_eq_ok.1 h
  obtain ⟨v, hv', h⟩ := bind_eq_ok.1 h
  rw [(checked_ensures _).of_ok hv'] at hv
  have hsize := (checked_ensures _).of_ok h
  exact (MemorySizeFunc.covered_of_size hf hv).mono (le_toWordSize hsize)

/-! ## Accessors -/

theorem int64_of_lt {x : Nat} (h : x < 2 ^ 63) : int64 x = x := if_pos h

theorem overwrite_nil (b : Bytes) (offset : Nat) : overwrite b offset [] = b := by simp [overwrite]

section Accessors

variable {mem : Memory} {size : Nat} {off len : Word}

def Memory.slice (mem : Memory) (off len : Word) : Bytes :=
  (mem.store.drop off.toNat).take len.toNat

section

variable (h : Covers size off len)

include h

theorem length_slice (hstore : size ≤ mem.store.length) :
    (mem.slice off len).length = len.toNat := by
  simp only [Memory.slice, List.length_take, List.length_drop]
  rcases h with rfl | h
  · exact zero_min _
  · omega

theorem length_overwrite_covered {b : Bytes} (hb : size ≤ b.length)
    (value : Bytes) : (overwrite b off.toNat (value.take len.toNat)).length = b.length := by
  rcases h with rfl | h
  · exact congrArg List.length (overwrite_nil b _)
  refine length_overwrite ?_
  rw [List.length_take]
  omega

theorem getPtr_covered (hmax : size ≤ maxMemory) (hstore : size ≤ mem.store.length) :
    mem.getPtr (int64 (lowUint64 off)) (int64 (lowUint64 len)) = .ok (mem.slice off len) := by
  unfold Memory.slice
  unfold maxMemory at hmax
  rcases h with rfl | h
  · simp [Memory.getPtr, lowUint64, int64]
  have hoff : lowUint64 off = off.toNat := lowUint64_of_lt (by omega)
  have hlen : lowUint64 len = len.toNat := lowUint64_of_lt (by omega)
  rw [hoff, hlen, int64_of_lt (by omega), int64_of_lt (by omega)]
  unfold Memory.getPtr
  by_cases h0 : len.toNat = 0
  · simp [h0]
  rw [if_neg (by omega), if_pos (by omega), if_pos (by omega)]
  rfl

theorem set_covered (hmax : size ≤ maxMemory) (hstore : size ≤ mem.store.length) (value : Bytes) :
    mem.set (lowUint64 off) (lowUint64 len) value =
      .ok { mem with store := overwrite mem.store off.toNat (value.take len.toNat) } := by
  unfold maxMemory at hmax
  rcases h with rfl | h
  · simp [Memory.set, lowUint64, overwrite_nil]
  have hoff : lowUint64 off = off.toNat := lowUint64_of_lt (by omega)
  have hlen : lowUint64 len = len.toNat := lowUint64_of_lt (by omega)
  rw [hoff, hlen]
  unfold Memory.set
  by_cases h0 : len.toNat = 0
  · simp [h0, overwrite_nil]
  · rw [if_pos (by omega), if_neg (by omega)]

end

theorem resize_store : size ≤ (mem.resize size).store.length ∧
      ∃ k, (mem.resize size).store = mem.store ++ List.replicate k 0 := by
  by_cases h : mem.store.length < size
  · have hr : (mem.resize size).store =
        mem.store ++ List.replicate (size - mem.store.length) 0 := by
      unfold Memory.resize
      rw [if_pos h]
    refine ⟨?_, _, hr⟩
    rw [hr, List.length_append, List.length_replicate]
    omega
  have hr : mem.resize size = mem := if_neg h
  rw [hr]
  exact ⟨by omega, 0, (List.append_nil _).symm⟩

theorem Prepared.store {env : Env} {op : OpCode} {o : Operation} {m m1 : Machine}
    (h : Prepared env op o m m1) :
    ∃ size, requiredMemory o m.loc.stack = .ok size ∧ size ≤ maxMemory ∧
      size ≤ m1.loc.memory.store.length ∧
      ∃ k, m1.loc.memory.store = m.loc.memory.store ++ List.replicate k 0 := by
  obtain ⟨size, hsize, hmax, m2, ⟨l, g, c, r, al, rfl⟩, rfl⟩ := h.frame
  exact ⟨size, hsize, hmax, resize_store⟩

end Accessors

theorem CallArgs.On.covers {a : CallArgs} {kind : CallKind} {s rest : List Word}
    (ha : a.On kind.hasValue s rest)
    (hcov : MemorySizeFunc.Covered (if kind.hasValue then .two 5 6 3 4 else .two 4 5 2 3) s size) :
    Covers size a.inOffset a.inSize ∧ Covers size a.retOffset a.retSize := by
  obtain ⟨gas, h⟩ := ha
  cases hv : kind.hasValue with
  | true =>
    rw [hv] at h hcov
    subst h
    exact ⟨hcov.2 _ _ rfl rfl, hcov.1 _ _ rfl rfl⟩
  | false =>
    rw [hv] at h hcov
    obtain ⟨-, rfl⟩ := h
    exact ⟨hcov.2 _ _ rfl rfl, hcov.1 _ _ rfl rfl⟩

end Virbicoin.Vm
