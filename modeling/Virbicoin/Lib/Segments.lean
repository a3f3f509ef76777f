import Mathlib.Data.List.Basic
import Mathlib.Tactic.Common

/-!
# Files of bytes and logs in segments

A file is a list of bytes. `resize` cuts it or fills it up with zeroes, `readAt` reads a part that
lies inside, `writeAt` overwrites and extends.

A log in segments is a list of payloads, each with the number of the segment that it lies in. The
content of a segment is the concatenation of its payloads (`segment`). When the numbers never go
down, the payload of an item ends where the segment ends after it and begins where it ends before
it (`read_item`), and cutting the log cuts one segment and leaves those before alone.
-/

namespace Virbicoin.Lib

open List

variable {α β : Type}

/-! ## Files -/

/-- The bytes of a part of the file. Nothing is read from a part that does not lie inside; an empty
part always does. -/
def readAt (l : List β) (pos size : Nat) : Option (List β) :=
  if size = 0 ∨ pos + size ≤ l.length then some ((l.drop pos).take size) else none

section Files

variable [Zero β]

def resize (l : List β) (size : Nat) : List β := l.take size ++ replicate (size - l.length) 0

/-- The file with bytes written at a position, which may lie behind its end. -/
def writeAt (l : List β) (pos : Nat) (b : List β) : List β :=
  resize l pos ++ b ++ l.drop (pos + b.length)

theorem resize_of_le {l : List β} {size : Nat} (h : size ≤ l.length) :
    resize l size = l.take size := by
  rw [resize, Nat.sub_eq_zero_of_le h, replicate_zero, append_nil]

@[simp] theorem resize_length {l : List β} : (resize l size).length = size := by
  rw [resize, length_append, length_take, length_replicate]
  omega

theorem readAt_resize {l : List β} {pos size n : Nat} (hl : pos + size ≤ l.length)
    (hn : pos + size ≤ n) : readAt (resize l n) pos size = readAt l pos size := by
  have htake : (resize l n).take (pos + size) = l.take (pos + size) := by
    rw [resize, take_append_of_le_length (by rw [length_take]; omega), take_take,
      Nat.min_eq_left hn]
  rw [readAt, readAt, if_pos (.inr (by rw [resize_length]; exact hn)), if_pos (.inr hl)]
  have hswap : ∀ k : List β, (k.drop pos).take size = (k.take (pos + size)).drop pos := by
    intro k
    rw [drop_take, Nat.add_sub_cancel_left]
  rw [hswap, hswap, htake]

@[simp] theorem writeAt_length (l b : List β) : writeAt l l.length b = l ++ b := by
  rw [writeAt, resize_of_le (Nat.le_refl _), take_length, drop_of_length_le (by omega), append_nil]

end Files

/-! ## Records of equal size -/

section Records

variable {enc : α → List β} {size : Nat} (henc : ∀ a, (enc a).length = size)

include henc

theorem records_length (xs : List α) : (xs.flatMap enc).length = xs.length * size := by
  induction xs with
  | nil => simp
  | cons x xs ih =>
    rw [flatMap_cons, length_append, ih, henc, length_cons, Nat.succ_mul, Nat.add_comm]

theorem drop_records (xs : List α) (i : Nat) :
    (xs.flatMap enc).drop (i * size) = (xs.drop i).flatMap enc := by
  induction i generalizing xs with
  | zero => simp
  | succ i ih =>
    cases xs with
    | nil => simp
    | cons x xs =>
      rw [flatMap_cons, Nat.succ_mul, Nat.add_comm, ← drop_drop, ← henc x,
        drop_left, henc, ih, drop_succ_cons]

theorem take_records (xs : List α) (i : Nat) :
    (xs.flatMap enc).take (i * size) = (xs.take i).flatMap enc := by
  induction i generalizing xs with
  | zero => simp
  | succ i ih =>
    cases xs with
    | nil => simp
    | cons x xs =>
      rw [flatMap_cons, take_succ_cons, flatMap_cons, Nat.succ_mul, Nat.add_comm,
        ← henc x, take_length_add_append, henc, ih]

theorem readAt_records {xs : List α} {i : Nat} {x : α} (h : xs[i]? = some x) :
    readAt (xs.flatMap enc) (i * size) size = some (enc x) := by
  obtain ⟨hi, rfl⟩ := List.getElem?_eq_some_iff.1 h
  have hle : i * size + size ≤ xs.length * size := by
    rw [← Nat.succ_mul]
    exact Nat.mul_le_mul_right size hi
  rw [readAt, if_pos (.inr (by rw [records_length henc]; exact hle)), drop_records henc,
    drop_eq_getElem_cons hi, flatMap_cons, ← henc xs[i], take_left]

theorem resize_records [Zero β] {xs : List α} {n : Nat} (h : n ≤ xs.length) :
    resize (xs.flatMap enc) (n * size) = (xs.take n).flatMap enc := by
  rw [resize_of_le (by rw [records_length henc]; exact Nat.mul_le_mul_right size h),
    take_records henc]

end Records

/-! ## Segments -/

def segment (its : List (Nat × List β)) (f : Nat) : List β :=
  (its.filter (fun it => it.1 == f)).flatMap (·.2)

def Ascending (its : List (Nat × List β)) : Prop := its.Pairwise (·.1 ≤ ·.1)

@[simp] theorem segment_nil (f : Nat) : segment ([] : List (Nat × List β)) f = [] := rfl

section Segments

variable {its : List (Nat × List β)} {f n : Nat}

@[simp] theorem segment_append (as bs : List (Nat × List β)) :
    segment (as ++ bs) f = segment as f ++ segment bs f := by
  simp [segment]

theorem segment_singleton (g : Nat) (b : List β) :
    segment [(g, b)] f = if g = f then b else [] := by
  unfold segment
  by_cases h : g = f
  · simp [h]
  · simp [h]

theorem segment_eq_nil (h : ∀ it ∈ its, it.1 ≠ f) : segment its f = [] := by
  have hnone : its.filter (fun it => it.1 == f) = [] := by
    rw [filter_eq_nil_iff]
    intro it hit
    simpa using h it hit
  rw [segment, hnone, flatMap_nil]

theorem segment_take_append (its : List (Nat × List β)) (n f : Nat) :
    segment (its.take n) f ++ segment (its.drop n) f = segment its f := by
  rw [← segment_append, take_append_drop]

theorem segment_take_length_le : (segment (its.take n) f).length ≤ (segment its f).length := by
  rw [← segment_take_append its n f, length_append]
  exact Nat.le_add_right _ _

theorem segment_take_eq :
    segment (its.take n) f = (segment its f).take (segment (its.take n) f).length := by
  rw [← segment_take_append its n f, take_left]

theorem segment_take_succ {it : Nat × List β} (h : its[n]? = some it) :
    segment (its.take (n + 1)) f = segment (its.take n) f ++ if it.1 = f then it.2 else [] := by
  rw [take_add_one, h, segment_append]
  exact congrArg _ (segment_singleton it.1 it.2)

theorem read_item {it : Nat × List β} (h : its[n]? = some it) :
    readAt (segment its it.1) (segment (its.take n) it.1).length it.2.length = some it.2 := by
  rw [← segment_take_append its (n + 1), segment_take_succ h, if_pos rfl, readAt,
    if_pos (.inr (by simp only [length_append]; omega)), append_assoc, drop_left, take_left]

section

variable (h : Ascending its)

include h

theorem Ascending.take (n : Nat) : Ascending (its.take n) :=
  List.Pairwise.sublist (take_sublist n its) h

theorem Ascending.le {i j : Nat} {a b : Nat × List β} (hij : i < j)
    (ha : its[i]? = some a) (hb : its[j]? = some b) : a.1 ≤ b.1 := by
  obtain ⟨hi, rfl⟩ := List.getElem?_eq_some_iff.1 ha
  obtain ⟨hj, rfl⟩ := List.getElem?_eq_some_iff.1 hb
  exact pairwise_iff_getElem.1 h i j hi hj hij

theorem Ascending.take_le {a : Nat × List β} (ha : its[n]? = some a)
    {it : Nat × List β} (hit : it ∈ its.take (n + 1)) : it.1 ≤ a.1 := by
  obtain ⟨i, hi⟩ := mem_iff_getElem?.1 hit
  have hlt : i < n + 1 := by
    obtain ⟨hlen, -⟩ := List.getElem?_eq_some_iff.1 hi
    rw [length_take] at hlen
    omega
  rw [getElem?_take_of_lt hlt] at hi
  obtain hin | rfl := Nat.lt_succ_iff_lt_or_eq.1 hlt
  · exact h.le hin hi ha
  rw [hi] at ha
  cases ha
  exact Nat.le_refl _

theorem segment_take_of_ne {a b : Nat × List β} (ha : its[n]? = some a)
    (hb : its[n + 1]? = some b) (hne : a.1 ≠ b.1) : segment (its.take (n + 1)) b.1 = [] := by
  have hlt : a.1 < b.1 := Nat.lt_of_le_of_ne (h.le n.lt_succ_self ha hb) hne
  refine segment_eq_nil fun it hit => ?_
  have hle := h.take_le ha hit
  omega

theorem segment_take_of_lt {a : Nat × List β} (ha : its[n]? = some a)
    (hf : f < a.1) : segment (its.take (n + 1)) f = segment its f := by
  have hdrop : segment (its.drop (n + 1)) f = [] := by
    refine segment_eq_nil fun it hit => ?_
    obtain ⟨i, hi⟩ := mem_iff_getElem?.1 hit
    rw [getElem?_drop] at hi
    have hle := h.le (by omega : n < n + 1 + i) ha hi
    omega
  rw [← segment_take_append its (n + 1) f, hdrop, append_nil]

end

end Segments

end Virbicoin.Lib
