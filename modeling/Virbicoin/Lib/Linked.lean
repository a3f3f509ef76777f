import Mathlib.Data.List.Basic
import Mathlib.Data.List.Infix
import Mathlib.Tactic.Common

/-!
# Doubly linked lists

A doubly linked list that is threaded through the entries of a map: every entry has a next and a
previous key, and a default key `z` ends the list. `Linked` says which list the entries hold. The
previous key of the first entry is never looked at, and neither is the last key of an empty list, so
nothing is asked of them.

Entries are added at the end (`Linked.push`) and taken out anywhere (`Linked.remove`). Both lemmas
ask for what the new links are, not for how they were set.
-/

namespace Virbicoin.Lib

open List

universe u

variable {κ : Type u} {z : κ} {next prev next' prev' : κ → κ}

/-- The links inside a part of a list that comes after `p` and before `e`. -/
def Seg (next prev : κ → κ) (e : κ) : Option κ → List κ → Prop
  | _, [] => True
  | p, a :: l => next a = l.headD e ∧ (∀ b, p = some b → prev a = b) ∧ Seg next prev e (some a) l

variable {p : Option κ}

theorem seg_append {e : κ} {l1 l2 : List κ} : Seg next prev e p (l1 ++ l2) ↔
      Seg next prev (l2.headD e) p l1 ∧ Seg next prev e (l1.getLast?.or p) l2 := by
  induction l1 generalizing p with
  | nil => simp [Seg]
  | cons a l1 ih =>
    have hhead : (l1 ++ l2).headD e = l1.headD (l2.headD e) := by cases l1 <;> rfl
    have hlast : ((a :: l1).getLast?.or p) = l1.getLast?.or (some a) := by
      cases l1 with
      | nil => rfl
      | cons b l1 => simp [getLast?_eq_some_getLast]
    rw [cons_append, Seg, ih, hhead, hlast]
    exact ⟨fun ⟨h, h', h1, h2⟩ => ⟨⟨h, h', h1⟩, h2⟩, fun ⟨⟨h, h', h1⟩, h2⟩ => ⟨h, h', h1, h2⟩⟩

theorem Seg.congr {e : κ} {l : List κ} (h : Seg next prev e p l) (hnext : ∀ a ∈ l, next' a = next a)
    (hprev : ∀ a ∈ l, prev' a = prev a) :
    Seg next' prev' e p l := by
  induction l generalizing p with
  | nil => trivial
  | cons a l ih =>
    obtain ⟨hn, hp, hrest⟩ := h
    refine ⟨by rw [hnext a (by simp), hn], fun b hb => by rw [hprev a (by simp), hp b hb],
      ih hrest (fun b hb => hnext b (by simp [hb])) fun b hb => hprev b (by simp [hb])⟩

theorem Seg.relink {e e' : κ} {p' : Option κ} {l : List κ} (h : Seg next prev e p l)
    (hnext : ∀ a ∈ l, l.getLast? ≠ some a → next' a = next a)
    (hlast : ∀ a, l.getLast? = some a → next' a = e')
    (hprev : ∀ a ∈ l, l.head? ≠ some a → prev' a = prev a)
    (hhead : ∀ a, l.head? = some a → ∀ b, p' = some b → prev' a = b) (hnodup : l.Nodup) :
    Seg next' prev' e' p' l := by
  induction l generalizing p p' with
  | nil => trivial
  | cons a l ih =>
    obtain ⟨hn, hp, hrest⟩ := h
    rw [nodup_cons] at hnodup
    have hself : ∀ b ∈ l, b ≠ a := fun b hb hba => hnodup.1 (hba ▸ hb)
    refine ⟨?_, hhead a rfl, ih hrest ?_ ?_ ?_ ?_ hnodup.2⟩
    · cases l with
      | nil => exact hlast a rfl
      | cons b l =>
        rw [hnext a (by simp), hn]
        · rfl
        intro heq
        exact hnodup.1 (mem_of_getLast? heq)
    · intro b hb hne
      refine hnext b (by simp [hb]) ?_
      cases l with
      | nil => cases hb
      | cons c l => rwa [getLast?_cons_cons]
    · intro b hb
      refine hlast b ?_
      cases l with
      | nil => cases hb
      | cons c l => rwa [getLast?_cons_cons]
    · intro b hb _
      exact hprev b (by simp [hb]) fun h => hself b hb (Option.some.inj h).symm
    intro b hb c hc
    obtain rfl := Option.some.inj hc
    rw [hprev b (by simp [mem_of_head? hb]) fun h =>
      hself b (mem_of_head? hb) (Option.some.inj h).symm]
    cases l with
    | nil => cases hb
    | cons d l =>
      obtain rfl := Option.some.inj hb
      exact hrest.2.1 a rfl

/-- The entries hold the list `l`, from `oldest` to `newest`. -/
structure Linked (z : κ) (next prev : κ → κ) (oldest newest : κ) (l : List κ) : Prop where
  nodup : l.Nodup
  not_mem : z ∉ l
  head : oldest = l.headD z
  last : ∀ a, l.getLast? = some a → newest = a
  seg : Seg next prev z none l

theorem linked_nil (newest : κ) : Linked z next prev z newest [] :=
  ⟨.nil, by simp, rfl, nofun, trivial⟩

variable {oldest newest x : κ} {l l1 l2 : List κ}

theorem Linked.oldest_eq_iff (h : Linked z next prev oldest newest l) : oldest = z ↔ l = [] := by
  rw [h.head]
  cases l with
  | nil => simp
  | cons a l =>
    simp only [headD_cons, reduceCtorEq, iff_false]
    rintro rfl
    exact h.not_mem (by simp)

theorem Seg.iterate {e : κ} (h : Seg next prev e p l) {i : Nat} (hi : i ≤ l.length) :
    next^[i] (l.headD e) = l.getD i e := by
  induction l generalizing p i with
  | nil =>
    obtain rfl : i = 0 := by simpa using hi
    rfl
  | cons a l ih =>
    cases i with
    | zero => rfl
    | succ i =>
      rw [Function.iterate_succ_apply, headD_cons, h.1]
      exact ih h.2.2 (by simpa using hi)

theorem Linked.congr (h : Linked z next prev oldest newest l) (hnext : ∀ a ∈ l, next' a = next a)
    (hprev : ∀ a ∈ l.tail, prev' a = prev a) : Linked z next' prev' oldest newest l := by
  refine ⟨h.nodup, h.not_mem, h.head, h.last, ?_⟩
  have hseg := h.seg
  cases l with
  | nil => trivial
  | cons a l =>
    refine ⟨(hnext a (by simp)).trans hseg.1, (fun b hb => nomatch hb), hseg.2.2.congr ?_ hprev⟩
    exact fun b hb => hnext b (by simp [hb])

theorem Linked.push (h : Linked z next prev oldest newest l) (hx : x ∉ l) (hz : x ≠ z)
    (hnext : ∀ a ∈ l, a ≠ newest → next' a = next a) (hlast : l ≠ [] → next' newest = x)
    (hnew : next' x = z) (hprev : ∀ a ∈ l, prev' a = prev a) (hpx : l ≠ [] → prev' x = newest) :
    Linked z next' prev' (if l = [] then x else oldest) x (l ++ [x]) := by
  have hend : ∀ {a}, l.getLast? = some a → l ≠ [] ∧ a = newest := by
    intro a ha
    refine ⟨?_, (h.last a ha).symm⟩
    rintro rfl
    cases ha
  refine ⟨?_, ?_, ?_, ?_, ?_⟩
  · exact nodup_append.2 ⟨h.nodup, by simp, by simpa using fun a ha => ne_of_mem_of_not_mem ha hx⟩
  · simp [h.not_mem, symm hz]
  · cases l with
    | nil => rfl
    | cons a l => simpa using h.head
  · simp
  rw [seg_append]
  refine ⟨h.seg.relink ?_ ?_ (fun a ha _ => hprev a ha) nofun h.nodup, ?_⟩
  · intro a ha hne
    refine hnext a ha fun heq => hne ?_
    obtain ⟨b, hb⟩ := getLast?_isSome.2 (ne_nil_of_mem ha) |> Option.isSome_iff_exists.1
    rw [hb, heq, (hend hb).2]
  · intro a ha
    obtain ⟨hne, rfl⟩ := hend ha
    exact hlast hne
  refine ⟨hnew, ?_, trivial⟩
  intro b hb
  rw [Option.or_none] at hb
  obtain ⟨hne, rfl⟩ := hend hb
  exact hpx hne

section Remove

variable (h : Linked z next prev oldest newest (l1 ++ x :: l2))

include h

theorem Linked.eq_oldest_iff : x = oldest ↔ l1 = [] := by
  have hnd := h.nodup
  rw [h.head]
  cases l1 with
  | nil => simp
  | cons a l1 =>
    simp only [cons_append, headD_cons, reduceCtorEq, iff_false]
    rintro rfl
    simp at hnd

theorem Linked.eq_newest_iff : x = newest ↔ l2 = [] := by
  have hnd := h.nodup
  constructor
  · intro heq
    by_contra hne
    obtain ⟨b, hb⟩ := Option.isSome_iff_exists.1 (getLast?_isSome.2 hne)
    have hlast : (l1 ++ x :: l2).getLast? = some b := by
      rw [getLast?_append, getLast?_cons, hb]
      rfl
    have hb' := h.last b hlast
    rw [nodup_append] at hnd
    have : x ∉ l2 := (nodup_cons.1 hnd.2.1).1
    exact this (heq.trans hb' ▸ mem_of_getLast? hb)
  rintro rfl
  exact (h.last x (by simp)).symm

theorem Linked.next_eq : next x = l2.headD z := (seg_append.1 h.seg).2.1

theorem Linked.prev_eq {a : κ} (ha : l1.getLast? = some a) : prev x = a := by
  refine (seg_append.1 h.seg).2.2.1 a ?_
  rw [ha]
  rfl

theorem Linked.remove (hnext : ∀ a ∈ l1 ++ l2, l1.getLast? ≠ some a → next' a = next a)
    (hlast : ∀ a, l1.getLast? = some a → next' a = l2.headD z)
    (hprev : ∀ a ∈ l1 ++ l2, l2.head? ≠ some a → prev' a = prev a)
    (hhead : ∀ a b, l2.head? = some a → l1.getLast? = some b → prev' a = b)
    {oldest' newest' : κ} (hold : oldest' = if l1 = [] then l2.headD z else oldest)
    (hnew : newest' = if l2 = [] then l1.getLast?.getD newest else newest) :
    Linked z next' prev' oldest' newest' (l1 ++ l2) := by
  have hnd := h.nodup
  rw [nodup_append, nodup_cons] at hnd
  obtain ⟨hnd1, ⟨hx2, hnd2⟩, hdisj⟩ := hnd
  have hdisj' : ∀ a ∈ l1, a ∉ l2 := fun a ha ha' => hdisj a ha a (by simp [ha']) rfl
  obtain ⟨hseg1, hseg⟩ := seg_append.1 h.seg
  obtain ⟨-, -, hseg2⟩ := hseg
  refine ⟨?_, ?_, ?_, ?_, ?_⟩
  · exact nodup_append.2 ⟨hnd1, hnd2, fun a ha b hb => hdisj a ha b (by simp [hb])⟩
  · have := h.not_mem
    simp only [mem_append, mem_cons, not_or] at this ⊢
    exact ⟨this.1, this.2.2⟩
  · rw [hold]
    cases l1 with
    | nil => simp
    | cons a l1 => simpa using h.head
  · intro a ha
    rw [hnew]
    cases l2 with
    | nil =>
      rw [append_nil] at ha
      simp [ha]
    | cons b l2 =>
      refine h.last a ?_
      simpa [getLast?_cons] using ha
  rw [seg_append]
  constructor
  · refine hseg1.relink (fun a ha hne => hnext a (by simp [ha]) hne) hlast (fun a ha _ => ?_)
      nofun hnd1
    exact hprev a (by simp [ha]) fun heq => hdisj' a ha (mem_of_head? heq)
  refine hseg2.relink (fun a ha _ => ?_) (fun a ha => ?_) (fun a ha hne => ?_) ?_ hnd2
  · exact hnext a (by simp [ha]) fun heq => hdisj' a (mem_of_getLast? heq) ha
  · have hmem := mem_of_getLast? ha
    rw [hnext a (by simp [hmem]) fun heq => hdisj' a (mem_of_getLast? heq) hmem]
    obtain ⟨l, rfl⟩ := getLast?_eq_some_iff.1 ha
    exact (seg_append.1 hseg2).2.1
  · exact hprev a (by simp [ha]) hne
  · intro a ha b hb
    rw [Option.or_none] at hb
    exact hhead a b ha hb

end Remove

end Virbicoin.Lib
