import Mathlib.Data.List.Basic
import Mathlib.Data.List.Pairwise
import Virbicoin.Lib.Search

/-!
# A state with an undo journal

Every change of a state `σ` appends an entry to a journal, and an entry can be undone. A revision is
the length of the journal at some moment, under an increasing number; reverting to it undoes the
later entries, last one first, and forgets the revisions from that one on.

What is restored is a view `σ → ν` of the state: caches may differ. If undoing acts on the view
(`Undo`) and each change is undone by the entries it appends (`Extends`), given a property `P` of
the view that every change preserves (`Sound`), then a snapshot stays revertible to the view it was
taken at (`Keeps`) under changes, further snapshots and reverts to later ones. `none` is a failed
undo.
-/

namespace Virbicoin.Lib

open List

universe u v w

structure Undo (σ : Type u) (ε : Type v) (ν : Type w) where
  view : σ → ν
  undo : ε → σ → Option σ
  undoView : ε → ν → Option ν
  view_undo : ∀ e s, (undo e s).map view = undoView e (view s)

structure Revision where
  id : Nat
  journalIndex : Nat
  deriving DecidableEq, Repr

structure Journaled (σ : Type u) (ε : Type v) where
  state : σ
  entries : List ε := []
  validRevisions : List Revision := []
  nextRevisionId : Nat := 0

namespace Journaled

variable {σ : Type u} {ε : Type v} {ν : Type w}

/-- Undo entries in the order they are given, the last one of the journal first. -/
def undoAll (undo : ε → σ → Option σ) (es : List ε) (s : σ) : Option σ :=
  es.foldlM (fun s e => undo e s) s

variable {undo : ε → σ → Option σ} {m : Journaled σ ε}

theorem undoAll_append (es fs : List ε) (s : σ) :
    undoAll undo (es ++ fs) s = (undoAll undo es s).bind (undoAll undo fs) := by
  unfold undoAll
  rw [foldlM_append]
  rfl

@[simp] theorem undoAll_cons (e : ε) (es : List ε) (s : σ) :
    undoAll undo (e :: es) s = (undo e s).bind (undoAll undo es) := rfl

theorem view_undoAll (J : Undo σ ε ν) (es : List ε) (s : σ) :
    (undoAll J.undo es s).map J.view = undoAll J.undoView es (J.view s) := by
  induction es generalizing s with
  | nil => rfl
  | cons e es ih =>
    have hview := J.view_undo e s
    rw [undoAll_cons, undoAll_cons, ← hview]
    cases J.undo e s with
    | none => rfl
    | some t => exact ih t

/-! ## Snapshots -/

def append (m : Journaled σ ε) (e : ε) : Journaled σ ε := { m with entries := m.entries ++ [e] }

def snapshot (m : Journaled σ ε) : Nat × Journaled σ ε :=
  (m.nextRevisionId, { m with
    validRevisions := m.validRevisions ++ [⟨m.nextRevisionId, m.entries.length⟩]
    nextRevisionId := m.nextRevisionId + 1 })

def undoFrom (undo : ε → σ → Option σ) (m : Journaled σ ε) (index : Nat) : Option σ :=
  undoAll undo (m.entries.drop index).reverse m.state

def revertTo (undo : ε → σ → Option σ) (m : Journaled σ ε) (revid : Nat) :
    Option (Journaled σ ε) :=
  let idx := search m.validRevisions.length fun i =>
    m.validRevisions[i]?.any fun r => decide (revid ≤ r.id)
  match m.validRevisions[idx]? with
  | none => none
  | some r =>
    if r.id ≠ revid then none
    else (undoFrom undo m r.journalIndex).map fun s => { m with
      state := s
      entries := m.entries.take r.journalIndex
      validRevisions := m.validRevisions.take idx }

/-- The revisions are in the order of their numbers and of their positions in the journal. -/
structure Ordered (m : Journaled σ ε) : Prop where
  sorted : m.validRevisions.Pairwise fun r r' => r.id < r'.id ∧ r.journalIndex ≤ r'.journalIndex
  lt_next : ∀ r ∈ m.validRevisions, r.id < m.nextRevisionId
  le_length : ∀ r ∈ m.validRevisions, r.journalIndex ≤ m.entries.length

theorem Ordered.snapshot (h : m.Ordered) : m.snapshot.2.Ordered where
  sorted := by
    refine pairwise_append.2 ⟨h.sorted, pairwise_singleton _ _, ?_⟩
    intro r hr r' hr'
    rw [mem_singleton] at hr'
    subst hr'
    exact ⟨h.lt_next r hr, h.le_length r hr⟩
  lt_next := by
    intro r hr
    obtain hr | hr := mem_append.1 hr
    · exact Nat.lt_succ_of_lt (h.lt_next r hr)
    rw [mem_singleton.1 hr]
    exact Nat.lt_succ_self _
  le_length := by
    intro r hr
    obtain hr | hr := mem_append.1 hr
    · exact h.le_length r hr
    rw [mem_singleton.1 hr]
    exact le_refl _

theorem search_revision (h : m.Ordered) {i : Nat} {r : Revision}
    (hr : m.validRevisions[i]? = some r) :
    search m.validRevisions.length (fun i =>
      m.validRevisions[i]?.any fun r' => decide (r.id ≤ r'.id)) = i := by
  obtain ⟨hi, hget⟩ := List.getElem?_eq_some_iff.1 hr
  have hlt : ∀ a b : Nat, a < b → ∀ ra rb, m.validRevisions[a]? = some ra →
      m.validRevisions[b]? = some rb → ra.id < rb.id := by
    intro a b hab ra rb ha hb
    obtain ⟨ha', rfl⟩ := List.getElem?_eq_some_iff.1 ha
    obtain ⟨hb', rfl⟩ := List.getElem?_eq_some_iff.1 hb
    exact (pairwise_iff_getElem.1 h.sorted a b ha' hb' hab).1
  have hmono : ∀ a b, a ≤ b → b < m.validRevisions.length →
      (m.validRevisions[a]?.any fun r' => decide (r.id ≤ r'.id)) = true →
      (m.validRevisions[b]?.any fun r' => decide (r.id ≤ r'.id)) = true := by
    intro a b hab hb hfa
    obtain rfl | hab := Nat.eq_or_lt_of_le hab
    · exact hfa
    have ha : m.validRevisions[a]? = some m.validRevisions[a] :=
      getElem?_eq_getElem (by omega)
    have hb' : m.validRevisions[b]? = some m.validRevisions[b] := getElem?_eq_getElem hb
    have := hlt a b hab _ _ ha hb'
    simp only [ha, hb', Option.any_some, decide_eq_true_iff] at hfa ⊢
    omega
  obtain ⟨-, hleft, hright⟩ := search_spec hmono
  refine Nat.le_antisymm ?_ ?_
  · -- at `i` the predicate holds, so the first index is not later
    by_contra hgt
    have hfalse := hleft i (by omega)
    simp [hr] at hfalse
  by_contra hgt
  have htrue := hright _ (Nat.le_refl _) (by omega)
  have hs : m.validRevisions[search m.validRevisions.length fun i =>
      m.validRevisions[i]?.any fun r' => decide (r.id ≤ r'.id)]? = some _ :=
    getElem?_eq_getElem (by omega)
  rw [hs, Option.any_some, decide_eq_true_iff] at htrue
  have := hlt _ i (by omega) _ _ hs hr
  omega

theorem revertTo_some {m' : Journaled σ ε} {revid : Nat} (h : m.revertTo undo revid = some m') :
    ∃ i r s, m.validRevisions[i]? = some r ∧ r.id = revid ∧
      undoFrom undo m r.journalIndex = some s ∧
      m' = { m with
        state := s
        entries := m.entries.take r.journalIndex
        validRevisions := m.validRevisions.take i } := by
  unfold revertTo at h
  simp only at h
  split at h
  · cases h
  rename_i r hr
  split at h
  · cases h
  rename_i hid
  obtain ⟨s, hs, rfl⟩ := Option.map_eq_some_iff.1 h
  exact ⟨_, r, s, hr, not_not.1 hid, hs, rfl⟩

theorem revertTo_eq (h : m.Ordered) {i : Nat} {r : Revision} (hr : m.validRevisions[i]? = some r) :
    m.revertTo undo r.id = (undoFrom undo m r.journalIndex).map fun s => { m with
      state := s
      entries := m.entries.take r.journalIndex
      validRevisions := m.validRevisions.take i } := by
  unfold revertTo
  simp only [search_revision h hr, hr, ne_eq, not_true_eq_false, if_false]

theorem Ordered.le_of_mem_take (h : m.Ordered) {i : Nat} {r r' : Revision}
    (hr : m.validRevisions[i]? = some r) (hr' : r' ∈ m.validRevisions.take i) :
    r'.journalIndex ≤ r.journalIndex := by
  obtain ⟨hi, rfl⟩ := List.getElem?_eq_some_iff.1 hr
  obtain ⟨j, hj, rfl⟩ := mem_take_iff_getElem.1 hr'
  exact (pairwise_iff_getElem.1 h.sorted j i (by omega) hi (by omega)).2

theorem Ordered.revertTo {m' : Journaled σ ε} {revid : Nat} (h : m.Ordered)
    (hm : m.revertTo undo revid = some m') : m'.Ordered := by
  obtain ⟨i, r, s, hr, -, -, rfl⟩ := revertTo_some hm
  obtain ⟨hi, hget⟩ := List.getElem?_eq_some_iff.1 hr
  refine ⟨h.sorted.sublist (take_sublist _ _), ?_, ?_⟩
  · intro r' hr'
    exact h.lt_next r' (mem_of_mem_take hr')
  intro r' hr'
  have hlen := h.le_length r (hget ▸ getElem_mem hi)
  have hle := h.le_of_mem_take hr hr'
  rw [length_take]
  omega

/-! ## Changes -/

section Extends

variable (J : Undo σ ε ν) {m m' m'' : Journaled σ ε}

/-- `m'` is `m` after changes whose entries take the view back to that of `m`. -/
def Extends (m m' : Journaled σ ε) : Prop :=
  m'.validRevisions = m.validRevisions ∧ m'.nextRevisionId = m.nextRevisionId ∧
    ∃ es, m'.entries = m.entries ++ es ∧
      undoAll J.undoView es.reverse (J.view m'.state) = some (J.view m.state)

theorem Extends.of_view {s : σ} (h : J.view s = J.view m.state) :
    Extends J m { m with state := s } :=
  ⟨rfl, rfl, [], (append_nil _).symm, congrArg some h⟩

theorem Extends.refl (m : Journaled σ ε) : Extends J m m := of_view J rfl

variable {J}

theorem Extends.trans (h : Extends J m m') (h' : Extends J m' m'') : Extends J m m'' := by
  obtain ⟨hrev, hnext, es, hes, hundo⟩ := h
  obtain ⟨hrev', hnext', es', hes', hundo'⟩ := h'
  refine ⟨hrev'.trans hrev, hnext'.trans hnext, es ++ es', ?_, ?_⟩
  · rw [hes', hes, append_assoc]
  · rw [reverse_append, undoAll_append, hundo', Option.bind_some, hundo]

theorem Extends.of_entry {s : σ} {e : ε} (h : J.undoView e (J.view s) = some (J.view m.state)) :
    Extends J m { (m.append e) with state := s } := by
  refine ⟨rfl, rfl, [e], rfl, ?_⟩
  rw [reverse_singleton, undoAll_cons, h]
  rfl

theorem Extends.ordered (h : Extends J m m') (ho : m.Ordered) : m'.Ordered := by
  obtain ⟨hrev, hnext, es, hes, -⟩ := h
  refine ⟨hrev ▸ ho.sorted, ?_, ?_⟩
  · intro r hr
    rw [hnext]
    exact ho.lt_next r (hrev ▸ hr)
  intro r hr
  rw [hes, length_append]
  exact Nat.le_add_right_of_le (ho.le_length r (hrev ▸ hr))

theorem Extends.undoFrom (h : Extends J m m') {index : Nat} (hle : index ≤ m.entries.length) :
    undoAll J.undoView (m'.entries.drop index).reverse (J.view m'.state) =
      undoAll J.undoView (m.entries.drop index).reverse (J.view m.state) := by
  obtain ⟨-, -, es, hes, hundo⟩ := h
  rw [hes, drop_append_of_le_length hle, reverse_append, undoAll_append, hundo, Option.bind_some]

end Extends

/-! ## What stays revertible -/

section Keeps

variable {J : Undo σ ε ν} {P : ν → Prop} {m m' : Journaled σ ε}

/-- The position `index` can be reverted to, and the view is `v` then. -/
def Back (J : Undo σ ε ν) (m : Journaled σ ε) (index : Nat) (v : ν) : Prop :=
  undoAll J.undoView (m.entries.drop index).reverse (J.view m.state) = some v

/-- Every revision can be reverted to, and `P` holds then as it does now. -/
structure Sound (J : Undo σ ε ν) (P : ν → Prop) (m : Journaled σ ε) : Prop where
  ordered : m.Ordered
  view : P (J.view m.state)
  back : ∀ r ∈ m.validRevisions, ∃ v, Back J m r.journalIndex v ∧ P v

theorem Sound.extends (h : Sound J P m) (hext : Extends J m m') (hP : P (J.view m'.state)) :
    Sound J P m' := by
  refine ⟨hext.ordered h.ordered, hP, ?_⟩
  intro r hr
  rw [hext.1] at hr
  obtain ⟨v, hv, hPv⟩ := h.back r hr
  exact ⟨v, (hext.undoFrom (h.ordered.le_length r hr)).trans hv, hPv⟩

theorem back_length : Back J m m.entries.length (J.view m.state) := by
  unfold Back
  rw [drop_length]
  rfl

theorem Sound.snapshot (h : Sound J P m) : Sound J P m.snapshot.2 := by
  refine ⟨h.ordered.snapshot, h.view, ?_⟩
  intro r hr
  obtain hr | hr := mem_append.1 hr
  · exact h.back r hr
  rw [mem_singleton.1 hr]
  exact ⟨_, back_length, h.view⟩

theorem Back.take {a b : Nat} {v : ν} {s : σ} (h : Back J m b v) (hba : b ≤ a)
    (hs : undoFrom J.undo m a = some s) :
    Back J { m with state := s, entries := m.entries.take a } b v := by
  unfold Back at h ⊢
  have hview := view_undoAll J (m.entries.drop a).reverse m.state
  rw [undoFrom] at hs
  rw [hs] at hview
  have hsplit : m.entries.drop b = (m.entries.take a).drop b ++ m.entries.drop a := by
    rw [drop_take]
    conv_lhs => rw [← take_append_drop (a - b) (m.entries.drop b)]
    rw [drop_drop, Nat.add_sub_cancel' hba]
  rw [hsplit, reverse_append, undoAll_append, ← hview] at h
  exact h

theorem Sound.revertTo {revid : Nat} (h : Sound J P m)
    (hm : m.revertTo J.undo revid = some m') : Sound J P m' := by
  have hord := h.ordered.revertTo hm
  obtain ⟨i, r, s, hr, -, hs, rfl⟩ := revertTo_some hm
  obtain ⟨hi, hget⟩ := List.getElem?_eq_some_iff.1 hr
  obtain ⟨v, hv, hPv⟩ := h.back r (hget ▸ getElem_mem hi)
  have hview := view_undoAll J (m.entries.drop r.journalIndex).reverse m.state
  rw [undoFrom] at hs
  rw [hs, hv, Option.map_some, Option.some.injEq] at hview
  refine ⟨hord, hview ▸ hPv, ?_⟩
  intro r' hr'
  obtain ⟨v', hv', hPv'⟩ := h.back _ (mem_of_mem_take hr')
  exact ⟨v', hv'.take (h.ordered.le_of_mem_take hr hr') hs, hPv'⟩

/-- The revision `r` is valid, and reverting to it gives the view `v`. -/
structure Keeps (J : Undo σ ε ν) (r : Revision) (v : ν) (m : Journaled σ ε) : Prop where
  mem : r ∈ m.validRevisions
  back : Back J m r.journalIndex v

theorem Keeps.extends {r : Revision} {v : ν} (h : Keeps J r v m) (ho : m.Ordered)
    (hext : Extends J m m') : Keeps J r v m' :=
  ⟨hext.1 ▸ h.mem, (hext.undoFrom (ho.le_length r h.mem)).trans h.back⟩

theorem Keeps.snapshot {r : Revision} {v : ν} (h : Keeps J r v m) : Keeps J r v m.snapshot.2 :=
  ⟨mem_append_left _ h.mem, h.back⟩

theorem Keeps.revertTo_later {r : Revision} {v : ν} {revid : Nat} (h : Keeps J r v m)
    (ho : m.Ordered) (hlt : r.id < revid) (hm : m.revertTo J.undo revid = some m') :
    Keeps J r v m' := by
  obtain ⟨i, r', s, hr', hid, hs, rfl⟩ := revertTo_some hm
  obtain ⟨hi, rfl⟩ := List.getElem?_eq_some_iff.1 hr'
  obtain ⟨j, hj, rfl⟩ := getElem_of_mem h.mem
  -- the smaller number stands at the earlier position
  have hji : j < i := by
    by_contra hge
    obtain heq | hgt := Nat.eq_or_lt_of_le (Nat.le_of_not_lt hge)
    · subst heq
      omega
    · have := (pairwise_iff_getElem.1 ho.sorted i j hi hj hgt).1
      omega
  have hmem : m.validRevisions[j] ∈ m.validRevisions.take i :=
    mem_take_iff_getElem.2 ⟨j, by omega, rfl⟩
  exact ⟨hmem, h.back.take (ho.le_of_mem_take hr' hmem) hs⟩

/-- **Reverting to a valid snapshot gives back its view.** -/
theorem Keeps.revertTo {r : Revision} {v : ν} (h : Keeps J r v m) (ho : m.Ordered) :
    ∃ m', m.revertTo J.undo r.id = some m' ∧ J.view m'.state = v := by
  obtain ⟨i, hi, rfl⟩ := getElem_of_mem h.mem
  have hback := h.back
  rw [Back, ← view_undoAll] at hback
  obtain ⟨s, hs, rfl⟩ := Option.map_eq_some_iff.1 hback
  rw [revertTo_eq ho (getElem?_eq_getElem hi), undoFrom, hs]
  exact ⟨_, rfl, rfl⟩

end Keeps

end Journaled

end Virbicoin.Lib
