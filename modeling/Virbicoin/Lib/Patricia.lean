import Mathlib.Data.List.Infix
import Mathlib.Logic.Function.Basic
import Mathlib.Tactic.Common

/-!
# Patricia trees

A Patricia tree stores a finite map from terminated words to values. A node is empty, a value, an
edge labelled with a word, or a branch with one child a letter. Words end with the terminator `t`
and have it nowhere else (`IsKey`), so that no key continues another one.

A tree is canonical (`Canon`) when an edge leads to a value at a terminated path or to a branch, and
a branch has at least two children. A canonical tree is determined by its map (`eq_of_get_eq`).
-/

namespace Virbicoin.Lib.Patricia

open Function List

universe u v

variable {α : Type u} {β : Type v}

inductive Tree (α : Type u) (β : Type v) where
  | nil
  | value (v : β)
  | short (key : List α) (child : Tree α β)
  | full (children : α → Tree α β)

inductive SubTree (s : Tree α β) : Tree α β → Prop where
  | refl : SubTree s s
  | short {key : List α} {n : Tree α β} (h : SubTree s n) : SubTree s (.short key n)
  | full {ch : α → Tree α β} {a : α} (h : SubTree s (ch a)) : SubTree s (.full ch)

theorem SubTree.trans {r s n : Tree α β} (h : SubTree r s) (h' : SubTree s n) : SubTree r n := by
  induction h' with
  | refl => exact h
  | short _ ih => exact .short ih
  | full _ ih => exact .full ih

/-! ## Terminated words -/

/-- The word ends with `t` and has it nowhere else. -/
def IsKey (t : α) : List α → Prop
  | [] => False
  | a :: k => a = t ∧ k = [] ∨ a ≠ t ∧ IsKey t k

variable {t : α}

variable {k : List α}

theorem IsKey.ne_nil (h : IsKey t k) : k ≠ [] := by
  rintro rfl
  exact h

@[simp] theorem isKey_singleton : IsKey t [t] := .inl ⟨rfl, rfl⟩

theorem isKey_cons_of_ne {a : α} (h : a ≠ t) : IsKey t (a :: k) ↔ IsKey t k := by simp [IsKey, h]

theorem isKey_append {p : List α} (h : t ∉ p) : IsKey t (p ++ k) ↔ IsKey t k := by
  induction p with
  | nil => rfl
  | cons a p ih =>
    rw [mem_cons, not_or] at h
    rw [cons_append, isKey_cons_of_ne (symm h.1), ih h.2]

theorem isKey_iff : IsKey t k ↔ ∃ p, t ∉ p ∧ k = p ++ [t] := by
  constructor
  · intro h
    induction k with
    | nil => exact h.elim
    | cons a k ih =>
      obtain ⟨rfl, rfl⟩ | ⟨hne, hk⟩ := h
      · exact ⟨[], by simp, rfl⟩
      obtain ⟨p, hp, rfl⟩ := ih hk
      exact ⟨a :: p, by simp [hp, hne.symm], rfl⟩
  rintro ⟨p, hp, rfl⟩
  exact (isKey_append hp).2 isKey_singleton

theorem IsKey.not_mem_of_append {p : List α} (h : IsKey t (p ++ k)) (hk : k ≠ []) : t ∉ p := by
  induction p with
  | nil => simp
  | cons a p ih =>
    obtain ⟨-, hnil⟩ | ⟨hne, hrest⟩ := h
    · exact absurd (append_eq_nil_iff.1 hnil).2 hk
    rw [mem_cons, not_or]
    exact ⟨hne.symm, ih hrest⟩

theorem IsKey.eq_of_append {k' : List α} (h : IsKey t k) (h' : IsKey t (k ++ k')) : k' = [] := by
  by_contra hne
  obtain ⟨p, -, rfl⟩ := isKey_iff.1 h
  exact h'.not_mem_of_append hne (by simp)

/-! ## Common parts of words -/

section CommonPrefix

variable [DecidableEq α]

def common : List α → List α → List α
  | a :: k, b :: l => if a = b then a :: common k l else []
  | _, _ => []

theorem common_append_of_ne {a b : α} (h : a ≠ b) (p k l : List α) :
    common (p ++ a :: k) (p ++ b :: l) = p := by
  induction p with
  | nil => simp [common, h]
  | cons c p ih => simp [common, ih]

theorem common_length_eq_iff {k l : List α} : (common k l).length = l.length ↔ l <+: k := by
  induction k generalizing l with
  | nil => cases l <;> simp [common]
  | cons a k ih =>
    cases l with
    | nil => simp [common]
    | cons b l =>
      rw [common, cons_prefix_cons]
      by_cases hab : a = b
      · simp [hab, ih]
      · simp [hab, Ne.symm hab]

theorem common_length_le (k l : List α) : (common k l).length ≤ l.length := by
  induction k generalizing l with
  | nil => cases l <;> simp [common]
  | cons a k ih =>
    cases l with
    | nil => simp [common]
    | cons b l =>
      rw [common]
      split
      · simpa using ih l
      · simp

theorem exists_split {k l : List α} (hkl : ¬ k <+: l) (hlk : ¬ l <+: k) :
    ∃ p a k' b l', a ≠ b ∧ k = p ++ a :: k' ∧ l = p ++ b :: l' := by
  induction k generalizing l with
  | nil => exact absurd nil_prefix hkl
  | cons a k ih =>
    cases l with
    | nil => exact absurd nil_prefix hlk
    | cons b l =>
      by_cases hab : a = b
      · subst hab
        rw [cons_prefix_cons, not_and] at hkl hlk
        obtain ⟨p, c, k', d, l', hne, rfl, rfl⟩ := ih (hkl rfl) (hlk rfl)
        exact ⟨a :: p, c, k', d, l', hne, rfl, rfl⟩
      · exact ⟨[], a, k, b, l, hab, rfl, rfl⟩

end CommonPrefix

/-! ## Operations -/

/-- A node below an edge, which is left out when its word is empty. -/
def graft (k : List α) (n : Tree α β) : Tree α β :=
  match k with
  | [] => n
  | a :: k => .short (a :: k) n

def join (k : List α) (n : Tree α β) : Tree α β :=
  match n with
  | .short k' n => .short (k ++ k') n
  | n => .short k n

open Classical in
/-- A branch, replaced by an edge when one child is left. -/
noncomputable def reduce (ch : α → Tree α β) : Tree α β :=
  if h : ∃ a, ch a ≠ .nil ∧ ∀ b, ch b ≠ .nil → b = a then join [h.choose] (ch h.choose)
  else .full ch

section Operations

variable [DecidableEq α]

def get : Tree α β → List α → Option β
  | .nil, _ => none
  | .value v, k => if k = [] then some v else none
  | .short key n, k => if key <+: k then get n (k.drop key.length) else none
  | .full _, [] => none
  | .full ch, a :: k => get (ch a) k

/-- The branch at the end of the common part of an edge's word and a key. -/
def fork (key : List α) (n : Tree α β) (k : List α) (v : β) : Tree α β :=
  let p := common k key
  match key.drop p.length, k.drop p.length with
  | a :: key', b :: k' =>
    graft p (.full (update (update (fun _ => .nil) a (graft key' n))
      b (graft k' (.value v))))
  | _, _ => .nil

def insert : Tree α β → List α → β → Tree α β
  | _, [], v => .value v
  | .nil, k, v => .short k (.value v)
  | .value _, _, v => .value v
  | .short key n, k, v =>
    if key <+: k then .short key (insert n (k.drop key.length) v) else fork key n k v
  | .full ch, a :: k, v => .full (update ch a (insert (ch a) k v))

noncomputable def delete : Tree α β → List α → Tree α β
  | .nil, _ => .nil
  | .value _, _ => .nil
  | .short key n, k =>
    if key <+: k then
      if k.length = key.length then .nil else join key (delete n (k.drop key.length))
    else .short key n
  | .full ch, [] => .full ch
  | .full ch, a :: k => reduce (update ch a (delete (ch a) k))

end Operations

/-! ## Canonical trees -/

/-- A non-empty canonical tree above the terminator. -/
inductive Canon (t : α) : Tree α β → Prop where
  | leaf {key : List α} {v : β} (h : IsKey t key) : Canon t (.short key (.value v))
  | ext {key : List α} {ch : α → Tree α β} (hne : key ≠ []) (ht : t ∉ key)
      (h : Canon t (.full ch)) : Canon t (.short key (.full ch))
  | full {ch : α → Tree α β} (htwo : ∃ a b, a ≠ b ∧ ch a ≠ .nil ∧ ch b ≠ .nil)
      (hvalue : ch t = .nil ∨ ∃ v, ch t = .value v)
      (hch : ∀ a, a ≠ t → ch a ≠ .nil → Canon t (ch a)) : Canon t (.full ch)

def Canonical (t : α) (n : Tree α β) : Prop := n = .nil ∨ Canon t n

/-- What stands below the letter `a` of a branch, if anything does. -/
def Below (t a : α) (n : Tree α β) : Prop := a = t ∧ (∃ v, n = .value v) ∨ a ≠ t ∧ Canon t n

variable {n m : Tree α β} {ch : α → Tree α β} {k key p : List α} {a : α}

theorem Canon.ne_nil (h : Canon t n) : n ≠ .nil := by cases h <;> nofun

theorem Below.ne_nil (h : Below t a n) : n ≠ .nil := by
  obtain ⟨-, v, rfl⟩ | ⟨-, h⟩ := h
  · nofun
  · exact h.ne_nil

theorem canon_full : Canon t (.full ch) ↔ (∃ a b, a ≠ b ∧ ch a ≠ .nil ∧ ch b ≠ .nil) ∧
      ∀ a, ch a ≠ .nil → Below t a (ch a) := by
  constructor
  · intro h
    cases h with
    | full htwo hvalue hch =>
      refine ⟨htwo, fun a hne => ?_⟩
      by_cases ha : a = t
      · subst ha
        exact .inl ⟨rfl, hvalue.resolve_left hne⟩
      · exact .inr ⟨ha, hch a ha hne⟩
  rintro ⟨htwo, hch⟩
  refine .full htwo ?_ ?_
  · by_cases hnil : ch t = .nil
    · exact .inl hnil
    obtain ⟨-, hv⟩ | ⟨hne, -⟩ := hch t hnil
    · exact .inr hv
    · exact absurd rfl hne
  intro a ha hne
  obtain ⟨rfl, -⟩ | ⟨-, h⟩ := hch a hne
  · exact absurd rfl ha
  · exact h

theorem below_graft (h : Canon t (.short (p ++ a :: key) n)) : Below t a (graft key n) := by
  cases h with
  | leaf hkey =>
    have hp := hkey.not_mem_of_append (by simp)
    obtain ⟨rfl, rfl⟩ | ⟨hne, hk⟩ := (isKey_append hp).1 hkey
    · exact .inl ⟨rfl, _, rfl⟩
    refine .inr ⟨hne, ?_⟩
    cases key with
    | nil => exact hk.elim
    | cons b key => exact .leaf hk
  | ext hne ht h =>
    simp only [mem_append, mem_cons, not_or] at ht
    refine .inr ⟨.symm ht.2.1, ?_⟩
    cases key with
    | nil => exact h
    | cons b key => exact .ext (by simp) ht.2.2 h

theorem canon_graft (hp : t ∉ p) (h : Canon t (.full ch)) : Canon t (graft p (.full ch)) := by
  cases p with
  | nil => exact h
  | cons a p => exact .ext (by simp) hp h

theorem canonical_child (h : Canon t (.full ch)) (ha : a ≠ t) : Canonical t (ch a) := by
  by_cases hnil : ch a = .nil
  · exact .inl hnil
  · exact .inr (((canon_full.1 h).2 a hnil).resolve_left (fun h => ha h.1)).2

theorem value_child (h : Canon t (.full ch)) : ch t = .nil ∨ ∃ v, ch t = .value v := by
  cases h with
  | full htwo hvalue hch => exact hvalue

/-- The rest `k` of a key at the subtree `n`: a terminated word, or nothing where the terminator has
been passed. -/
def Fits (t : α) (n : Tree α β) (k : List α) : Prop :=
  k = [] ∧ (n = .nil ∨ ∃ v, n = .value v) ∨ IsKey t k ∧ Canonical t n

theorem Fits.short (h : Fits t (.short key n) k) : IsKey t k ∧ Canon t (.short key n) := by
  obtain ⟨-, h | ⟨v, h⟩⟩ | ⟨hk, hn⟩ := h
  · cases h
  · cases h
  · exact ⟨hk, hn.resolve_left nofun⟩

theorem Fits.full (h : Fits t (.full ch) k) : IsKey t k ∧ Canon t (.full ch) := by
  obtain ⟨-, h | ⟨v, h⟩⟩ | ⟨hk, hn⟩ := h
  · cases h
  · cases h
  · exact ⟨hk, hn.resolve_left nofun⟩

theorem Fits.value {v : β} (h : Fits t (.value v) k) : k = [] := by
  obtain ⟨hk, -⟩ | ⟨-, h | h⟩ := h
  · exact hk
  · cases h
  · cases h

theorem Canon.key_ne_nil (h : Canon t (.short key n)) : key ≠ [] := by
  cases h with
  | leaf hkey => exact hkey.ne_nil
  | ext hne ht hfull => exact hne

theorem Fits.short_child (h : Fits t (.short key n) (key ++ k)) : Fits t n k := by
  obtain ⟨hk, hcanon⟩ := h.short
  cases hcanon with
  | leaf hkey => exact .inl ⟨hkey.eq_of_append hk, .inr ⟨_, rfl⟩⟩
  | ext hne ht hfull => exact .inr ⟨(isKey_append ht).1 hk, .inr hfull⟩

theorem Fits.full_child (h : Fits t (.full ch) (a :: k)) : Fits t (ch a) k := by
  obtain ⟨hk, hcanon⟩ := h.full
  obtain ⟨rfl, rfl⟩ | ⟨hne, hk⟩ := hk
  · exact .inl ⟨rfl, value_child hcanon⟩
  · exact .inr ⟨hk, canonical_child hcanon hne⟩

variable [DecidableEq α]

/-! ## Edges -/

@[simp] theorem get_nil : get (.nil : Tree α β) k = none := by rw [get]

theorem get_value {v : β} : get (.value v : Tree α β) k = if k = [] then some v else none := by
  rw [get]

theorem get_short :
    get (.short key n) k = if key <+: k then get n (k.drop key.length) else none := by
  rw [get]

@[simp] theorem get_full : get (.full ch) (a :: k) = get (ch a) k := by rw [get]

@[simp] theorem get_full_nil : get (.full ch) [] = none := by rw [get]

theorem get_graft : get (graft p n) k = if p <+: k then get n (k.drop p.length) else none := by
  cases p with
  | nil => simp [graft]
  | cons a p => exact get_short

theorem get_join : get (join p n) k = if p <+: k then get n (k.drop p.length) else none := by
  unfold join
  split
  · rename_i key n
    rw [get_short]
    by_cases hp : p <+: k
    · obtain ⟨k, rfl⟩ := hp
      simp [get_short, drop_length_add_append]
    · rw [if_neg hp, if_neg (fun h => hp ((prefix_append p key).trans h))]
  · exact get_short

theorem get_graft_value {v : β} : get (graft p (.value v)) k = if k = p then some v else none := by
  rw [get_graft, get_value]
  by_cases hp : p <+: k
  · obtain ⟨k, rfl⟩ := hp
    simp
  rw [if_neg hp, if_neg]
  rintro rfl
  exact hp prefix_rfl

theorem get_short_value (hne : key ≠ []) (v : β) :
    get (.short key (.value v)) k = if k = key then some v else none := by
  rw [← get_graft_value]
  cases key with
  | nil => exact absurd rfl hne
  | cons a key => rfl

/-! ## Insertion -/

section Fork

variable {b : α} (hab : a ≠ b)
include hab

theorem fork_eq (p key k : List α) (n : Tree α β) (v : β) : fork (p ++ a :: key) n (p ++ b :: k) v =
      graft p (.full (update (update (fun _ => .nil) a (graft key n)) b (graft k (.value v)))) := by
  simp [fork, common_append_of_ne hab.symm]

theorem get_fork (n : Tree α β) (v : β) (k' : List α) :
    get (fork (p ++ a :: key) n (p ++ b :: k) v) k' =
      if k' = p ++ b :: k then some v else get (.short (p ++ a :: key) n) k' := by
  rw [fork_eq hab, get_graft, get_short]
  by_cases hp : p <+: k'
  · obtain ⟨k', rfl⟩ := hp
    simp only [prefix_append, if_true, drop_left, append_cancel_left_eq,
      prefix_append_right_inj, length_append, drop_length_add_append]
    cases k' with
    | nil => simp
    | cons c k' =>
      rw [get_full]
      by_cases hcb : c = b
      · subst hcb
        simp [get_graft_value, hab]
      rw [update_of_ne hcb]
      by_cases hca : c = a
      · subst hca
        simp [get_graft, hcb]
      · simp [hcb, hca, Ne.symm hca]
  rw [if_neg hp, if_neg, if_neg]
  · intro h
    exact hp ((prefix_append p _).trans h)
  · rintro rfl
    exact hp (prefix_append p _)

theorem canon_fork (v : β) (h : Canon t (.short (p ++ a :: key) n))
    (hk : IsKey t (p ++ b :: k)) : Canon t (fork (p ++ a :: key) n (p ++ b :: k) v) := by
  have ha := below_graft h
  have hb : Below t b (graft k (.value v)) := below_graft (.leaf hk)
  rw [fork_eq hab]
  apply canon_graft (hk.not_mem_of_append (by simp))
  rw [canon_full]
  refine ⟨⟨a, b, hab, ?_, ?_⟩, ?_⟩
  · rw [update_of_ne hab, update_self]
    exact ha.ne_nil
  · rw [update_self]
    exact hb.ne_nil
  refine (forall_update_iff _ fun c n => n ≠ .nil → Below t c n).2 ⟨fun _ => hb, fun c _ => ?_⟩
  exact (forall_update_iff _ fun c n => n ≠ .nil → Below t c n).2
    ⟨fun _ => ha, fun _ _ h => absurd rfl h⟩ c

end Fork

theorem split_of_canon (h : Canon t (.short key n)) (hk : IsKey t k) (hkey : ¬ key <+: k) :
    ∃ p a key' b k', a ≠ b ∧ key = p ++ a :: key' ∧ k = p ++ b :: k' := by
  refine exists_split hkey ?_
  rintro ⟨r, rfl⟩
  cases h with
  | leaf h =>
    obtain rfl := hk.eq_of_append h
    exact hkey (by simp)
  | ext hne ht h =>
    obtain ⟨p, -, rfl⟩ := isKey_iff.1 hk
    exact ht (by simp)

theorem insert_nil (h : k ≠ []) (v : β) : insert (.nil : Tree α β) k v = .short k (.value v) := by
  cases k with
  | nil => exact absurd rfl h
  | cons a k => simp [insert]

theorem insert_short (h : k ≠ []) (key : List α) (n : Tree α β) (v : β) :
    insert (.short key n) k v =
      if key <+: k then .short key (insert n (k.drop key.length) v) else fork key n k v := by
  cases k with
  | nil => exact absurd rfl h
  | cons a k => simp [insert]

theorem insert_short_fork {b : α} (hab : a ≠ b) (p key k : List α) (n : Tree α β) (v : β) :
    insert (.short (p ++ a :: key) n) (p ++ b :: k) v =
      graft p (.full (update (update (fun _ => .nil) a (graft key n)) b (graft k (.value v)))) := by
  rw [insert_short (by simp), if_neg, fork_eq hab]
  rw [prefix_append_right_inj, cons_prefix_cons]
  exact fun h => hab h.1

@[simp] theorem insert_full (ch : α → Tree α β) (a : α) (k : List α) (v : β) :
    insert (.full ch) (a :: k) v = .full (update ch a (insert (ch a) k v)) := by
  rw [insert]

@[simp] theorem insert_empty {v : β} : insert n [] v = .value v := by cases n <;> rw [insert]

theorem canon_insert (h : Canonical t n) (hk : IsKey t k) (v : β) : Canon t (insert n k v) := by
  induction n generalizing k with
  | nil =>
    rw [insert_nil hk.ne_nil]
    exact .leaf hk
  | value w =>
    obtain h | h := h
    · cases h
    · cases h
  | short key n ih =>
    have hcanon : Canon t (.short key n) := h.resolve_left nofun
    rw [insert_short hk.ne_nil]
    by_cases hkey : key <+: k
    · rw [if_pos hkey]
      obtain ⟨r, rfl⟩ := hkey
      rw [drop_left]
      cases hcanon with
      | leaf hleaf =>
        obtain rfl := hleaf.eq_of_append hk
        rw [insert_empty]
        exact .leaf hleaf
      | ext hne ht hfull =>
        have hr := (isKey_append ht).1 hk
        obtain ⟨a, r, rfl⟩ := exists_cons_of_ne_nil hr.ne_nil
        have hins := ih (.inr hfull) hr
        rw [insert_full] at hins ⊢
        exact .ext hne ht hins
    rw [if_neg hkey]
    obtain ⟨p, a, key', b, k', hab, rfl, rfl⟩ := split_of_canon hcanon hk hkey
    exact canon_fork hab v hcanon hk
  | full ch ih =>
    have hcanon : Canon t (.full ch) := h.resolve_left nofun
    obtain ⟨a, k, rfl⟩ := exists_cons_of_ne_nil hk.ne_nil
    obtain ⟨⟨c, d, hcd, hc, hd⟩, hch⟩ := canon_full.1 hcanon
    have hbelow : Below t a (insert (ch a) k v) := by
      obtain ⟨rfl, rfl⟩ | ⟨hne, hk⟩ := hk
      · exact .inl ⟨rfl, v, insert_empty⟩
      refine .inr ⟨hne, ih a ?_ hk⟩
      by_cases hnil : ch a = .nil
      · exact .inl hnil
      · exact .inr ((hch a hnil).resolve_left (fun h => hne h.1)).2
    rw [insert_full, canon_full]
    -- No child is lost, so the two that were there still are.
    have hkeep : ∀ e, ch e ≠ .nil → update ch a (insert (ch a) k v) e ≠ .nil :=
      (forall_update_iff ch fun e n => ch e ≠ .nil → n ≠ .nil).2
        ⟨fun _ => hbelow.ne_nil, fun _ _ => id⟩
    refine ⟨⟨c, d, hcd, hkeep c hc, hkeep d hd⟩, ?_⟩
    exact (forall_update_iff ch fun e n => n ≠ .nil → Below t e n).2
      ⟨fun _ => hbelow, fun e _ => hch e⟩

theorem get_insert (h : Canonical t n) (hk : IsKey t k) (v : β) (k' : List α) :
    get (insert n k v) k' = if k' = k then some v else get n k' := by
  induction n generalizing k k' with
  | nil => rw [insert_nil hk.ne_nil, get_short_value hk.ne_nil, get_nil]
  | value w =>
    obtain h | h := h
    · cases h
    · cases h
  | short key n ih =>
    have hcanon : Canon t (.short key n) := h.resolve_left nofun
    rw [insert_short hk.ne_nil]
    by_cases hkey : key <+: k
    · rw [if_pos hkey]
      obtain ⟨r, rfl⟩ := hkey
      rw [drop_left]
      cases hcanon with
      | leaf hleaf =>
        obtain rfl := hleaf.eq_of_append hk
        rw [insert_empty, get_short_value hleaf.ne_nil, get_short_value hleaf.ne_nil, append_nil]
        by_cases hk' : k' = key <;> simp [hk']
      | ext hne ht hfull =>
        rw [get_short, get_short]
        by_cases hk' : key <+: k'
        · obtain ⟨r', rfl⟩ := hk'
          simp [ih (.inr hfull) ((isKey_append ht).1 hk)]
        rw [if_neg hk', if_neg hk', if_neg]
        rintro rfl
        exact hk' (prefix_append _ _)
    rw [if_neg hkey]
    obtain ⟨p, a, key', b, k'', hab, rfl, rfl⟩ := split_of_canon hcanon hk hkey
    exact get_fork hab n v k'
  | full ch ih =>
    have hcanon : Canon t (.full ch) := h.resolve_left nofun
    obtain ⟨a, k, rfl⟩ := exists_cons_of_ne_nil hk.ne_nil
    rw [insert_full]
    cases k' with
    | nil => simp
    | cons b k' =>
      rw [get_full, get_full]
      by_cases hba : b = a
      · subst hba
        rw [update_self]
        obtain ⟨rfl, rfl⟩ | ⟨hne, hk⟩ := hk
        · rw [insert_empty, get_value]
          obtain hnil | ⟨w, hw⟩ := value_child hcanon
          · simp [hnil]
          · by_cases hk' : k' = [] <;> simp [hw, get_value, hk']
        · simp [ih b (canonical_child hcanon hne) hk]
      rw [update_of_ne hba]
      simp [hba]

/-! ## Deletion -/

omit [DecidableEq α] in
theorem canon_join (hne : k ≠ []) (ht : t ∉ k) (h : Canon t n) : Canon t (join k n) := by
  cases h with
  | leaf h => exact .leaf ((isKey_append ht).2 h)
  | ext hne' ht' h =>
    refine .ext (by simp [hne]) ?_ h
    rw [mem_append, not_or]
    exact ⟨ht, ht'⟩
  | full htwo hvalue hch => exact .ext hne ht (.full htwo hvalue hch)

omit [DecidableEq α] in
theorem canon_join_below (h : Below t a n) : Canon t (join [a] n) := by
  obtain ⟨rfl, v, rfl⟩ | ⟨hne, h⟩ := h
  · exact .leaf isKey_singleton
  · exact canon_join (by simp) (by simpa using hne.symm) h

omit [DecidableEq α] in
theorem reduce_of_unique (ha : ch a ≠ .nil) (h : ∀ b, ch b ≠ .nil → b = a) :
    reduce ch = join [a] (ch a) := by
  have hex : ∃ a, ch a ≠ .nil ∧ ∀ b, ch b ≠ .nil → b = a := ⟨a, ha, h⟩
  have heq : hex.choose = a := h _ hex.choose_spec.1
  rw [reduce, dif_pos hex, heq]

omit [DecidableEq α] in
theorem reduce_of_two (h : ∃ a b, a ≠ b ∧ ch a ≠ .nil ∧ ch b ≠ .nil) : reduce ch = .full ch := by
  rw [reduce, dif_neg]
  rintro ⟨c, -, hc⟩
  obtain ⟨a, b, hab, ha, hb⟩ := h
  exact hab ((hc a ha).trans (hc b hb).symm)

omit [DecidableEq α] in
theorem reduce_cases (ha : ch a ≠ .nil) :
    (∃ b, ch b ≠ .nil ∧ (∀ c, ch c ≠ .nil → c = b) ∧ reduce ch = join [b] (ch b)) ∨
      (∃ b c, b ≠ c ∧ ch b ≠ .nil ∧ ch c ≠ .nil) ∧ reduce ch = .full ch := by
  by_cases h : ∀ b, ch b ≠ .nil → b = a
  · exact .inl ⟨a, ha, h, reduce_of_unique ha h⟩
  push Not at h
  obtain ⟨b, hb, hne⟩ := h
  exact .inr ⟨⟨b, a, hne, hb, ha⟩, reduce_of_two ⟨b, a, hne, hb, ha⟩⟩

omit [DecidableEq α] in
theorem canon_reduce (ha : ch a ≠ .nil) (h : ∀ b, ch b ≠ .nil → Below t b (ch b)) :
    Canon t (reduce ch) := by
  obtain ⟨b, hb, -, heq⟩ | ⟨htwo, heq⟩ := reduce_cases ha
  · rw [heq]
    exact canon_join_below (h b hb)
  · rw [heq]
    exact canon_full.2 ⟨htwo, h⟩

theorem get_reduce (ha : ch a ≠ .nil) : get (reduce ch) k = get (.full ch) k := by
  obtain ⟨b, -, huniq, heq⟩ | ⟨-, heq⟩ := reduce_cases ha
  · rw [heq, get_join]
    cases k with
    | nil => simp
    | cons c k =>
      rw [get_full]
      by_cases hcb : c = b
      · subst hcb
        simp
      have hnil : ch c = .nil := by
        by_contra hne
        exact hcb (huniq c hne)
      simp [Ne.symm hcb, hnil]
  · rw [heq]

theorem delete_short (key : List α) (n : Tree α β) (k : List α) :
    delete (.short key n) k = if key <+: k then
      if k.length = key.length then .nil else join key (delete n (k.drop key.length))
    else .short key n := by
  rw [delete]

@[simp] theorem delete_full (ch : α → Tree α β) (a : α) (k : List α) :
    delete (.full ch) (a :: k) = reduce (update ch a (delete (ch a) k)) := by
  rw [delete]

omit [DecidableEq α] in
theorem exists_child_ne (h : Canon t (.full ch)) (c : α) : ∃ e, e ≠ c ∧ ch e ≠ .nil := by
  obtain ⟨⟨a, b, hab, ha, hb⟩, -⟩ := canon_full.1 h
  by_cases hac : a = c
  · exact ⟨b, fun hbc => hab (hac.trans hbc.symm), hb⟩
  · exact ⟨a, hac, ha⟩

theorem exists_child_update (h : Canon t (.full ch)) : ∃ b, update ch a n b ≠ .nil := by
  obtain ⟨b, hba, hb⟩ := exists_child_ne h a
  exact ⟨b, by rwa [update_of_ne hba]⟩

theorem canonical_delete (h : Canonical t n) (hk : IsKey t k) :
    Canonical t (delete n k) ∧ (∀ ch, n = .full ch → Canon t (delete n k)) := by
  induction n generalizing k with
  | nil | value w =>
    rw [delete]
    exact ⟨.inl rfl, nofun⟩
  | short key n ih =>
    refine ⟨?_, nofun⟩
    have hcanon : Canon t (.short key n) := h.resolve_left nofun
    rw [delete_short]
    split
    · rename_i hkey
      obtain ⟨r, rfl⟩ := hkey
      split
      · exact .inl rfl
      rename_i hlen
      cases hcanon with
      | leaf hleaf =>
        obtain rfl := hleaf.eq_of_append hk
        simp at hlen
      | ext hne ht hfull =>
        rw [drop_left]
        have hdel := (ih (.inr hfull) ((isKey_append ht).1 hk)).2 _ rfl
        exact .inr (canon_join hne ht hdel)
    · exact h
  | full ch ih =>
    have hcanon : Canon t (.full ch) := h.resolve_left nofun
    obtain ⟨a, k, rfl⟩ := exists_cons_of_ne_nil hk.ne_nil
    suffices hdel : Canon t (delete (.full ch) (a :: k)) from ⟨.inr hdel, fun _ _ => hdel⟩
    rw [delete_full]
    obtain ⟨b, hb⟩ := exists_child_update hcanon
    refine canon_reduce hb ?_
    intro c hc
    by_cases hca : c = a
    · subst hca
      rw [update_self] at hc ⊢
      obtain ⟨rfl, rfl⟩ | ⟨hne, hk⟩ := hk
      · obtain hnil | ⟨v, hv⟩ := value_child hcanon
        · rw [hnil, delete] at hc
          exact absurd rfl hc
        · rw [hv, delete] at hc
          exact absurd rfl hc
      · exact .inr ⟨hne, (ih c (canonical_child hcanon hne) hk).1.resolve_left hc⟩
    rw [update_of_ne hca] at hc ⊢
    exact (canon_full.1 hcanon).2 c hc

theorem get_delete (h : Canonical t n) (hk : IsKey t k) {k' : List α} (hk' : IsKey t k') :
    get (delete n k) k' = if k' = k then none else get n k' := by
  induction n generalizing k k' with
  | nil => simp [delete]
  | value w =>
    obtain h | h := h
    · cases h
    · cases h
  | short key n ih =>
    have hcanon : Canon t (.short key n) := h.resolve_left nofun
    rw [delete_short]
    by_cases hkey : key <+: k
    · rw [if_pos hkey]
      obtain ⟨r, rfl⟩ := hkey
      cases hcanon with
      | leaf hleaf =>
        obtain rfl := hleaf.eq_of_append hk
        rw [if_pos (by simp), get_nil, get_short_value hleaf.ne_nil, append_nil]
        by_cases heq : k' = key <;> simp [heq]
      | ext hne ht hfull =>
        have hr := (isKey_append ht).1 hk
        rw [if_neg (by simpa using hr.ne_nil), drop_left, get_join, get_short]
        by_cases hpre : key <+: k'
        · obtain ⟨r', rfl⟩ := hpre
          simp [ih (.inr hfull) hr ((isKey_append ht).1 hk')]
        · rw [if_neg hpre, if_neg hpre, ite_self]
    rw [if_neg hkey]
    by_cases heq : k' = k
    · subst heq
      rw [if_pos rfl, get_short, if_neg hkey]
    · rw [if_neg heq]
  | full ch ih =>
    have hcanon : Canon t (.full ch) := h.resolve_left nofun
    obtain ⟨a, k, rfl⟩ := exists_cons_of_ne_nil hk.ne_nil
    obtain ⟨b, hb⟩ := exists_child_update hcanon
    rw [delete_full, get_reduce hb]
    obtain ⟨c, k', rfl⟩ := exists_cons_of_ne_nil hk'.ne_nil
    rw [get_full, get_full]
    by_cases hca : c = a
    · subst hca
      rw [update_self]
      obtain ⟨rfl, rfl⟩ | ⟨hne, hk⟩ := hk
      · obtain rfl : k' = [] := by simpa [IsKey] using hk'
        obtain hnil | ⟨v, hv⟩ := value_child hcanon
        · simp [hnil, delete]
        · simp [hv, delete]
      · simp [ih c (canonical_child hcanon hne) hk ((isKey_cons_of_ne hne).1 hk')]
    rw [update_of_ne hca]
    simp [hca]

/-! ## Uniqueness -/

theorem exists_get (h : Canon t n) : ∃ k v, IsKey t k ∧ get n k = some v := by
  induction h with
  | leaf h => exact ⟨_, _, h, by rw [get_short_value h.ne_nil, if_pos rfl]⟩
  | ext hne ht h ih =>
    obtain ⟨k, v, hk, hget⟩ := ih
    exact ⟨_ ++ k, v, (isKey_append ht).2 hk, by simp [get_short, hget]⟩
  | full htwo hvalue hch ih =>
    rename_i ch
    obtain ⟨a, -, -, ha, -⟩ := htwo
    by_cases hat : a = t
    · subst hat
      obtain ⟨v, hv⟩ := hvalue.resolve_left ha
      exact ⟨[a], v, isKey_singleton, by simp [hv, get_value]⟩
    obtain ⟨k, v, hk, hget⟩ := ih a hat ha
    exact ⟨a :: k, v, (isKey_cons_of_ne hat).2 hk, by simpa using hget⟩

theorem exists_get_child (h : Canon t (.full ch)) (ha : ch a ≠ .nil) :
    ∃ k v, IsKey t (a :: k) ∧ get (.full ch) (a :: k) = some v := by
  obtain ⟨rfl, v, hv⟩ | ⟨hne, hcanon⟩ := (canon_full.1 h).2 a ha
  · exact ⟨[], v, isKey_singleton, by simp [hv, get_value]⟩
  obtain ⟨k, v, hk, hget⟩ := exists_get hcanon
  exact ⟨k, v, (isKey_cons_of_ne hne).2 hk, by simpa using hget⟩

def SameMap (t : α) (n m : Tree α β) : Prop := ∀ k, IsKey t k → get n k = get m k

theorem SameMap.symm (h : SameMap t n m) : SameMap t m n := fun k hk => (h k hk).symm

theorem prefix_of_get {v : β} (h : get (.short key n) k = some v) : key <+: k := by
  rw [get_short] at h
  by_contra hkey
  rw [if_neg hkey] at h
  cases h

theorem exists_get_ne (h : Canon t (.full ch)) (c : α) :
    ∃ e k v, e ≠ c ∧ IsKey t (e :: k) ∧ get (.full ch) (e :: k) = some v := by
  obtain ⟨e, hec, he⟩ := exists_child_ne h c
  obtain ⟨k, v, hk, hget⟩ := exists_get_child h he
  exact ⟨e, k, v, hec, hk, hget⟩

section

variable (hn : Canon t (.short key n))

include hn

theorem length_le_of_sameMap {r : List α}
    (h : SameMap t (.short key n) (.short (key ++ r) m)) : r = [] := by
  cases hn with
  | leaf hkey =>
    have hget := h key hkey
    rw [get_short_value hkey.ne_nil, if_pos rfl] at hget
    have hle := (prefix_of_get hget.symm).length_le
    rw [length_append] at hle
    exact length_eq_zero_iff.1 (by omega)
  | ext hne ht hfull =>
    by_contra hr
    obtain ⟨c, r, rfl⟩ := exists_cons_of_ne_nil hr
    obtain ⟨e, k, v, hec, hk, hget⟩ := exists_get_ne hfull c
    have hthere := h (key ++ e :: k) ((isKey_append ht).2 hk)
    rw [get_short, if_pos (prefix_append _ _), drop_left, hget] at hthere
    have hpre := prefix_of_get hthere.symm
    rw [prefix_append_right_inj, cons_prefix_cons] at hpre
    exact hec hpre.1.symm

theorem key_eq_of_sameMap {key' : List α}
    (hm : Canon t (.short key' m)) (h : SameMap t (.short key n) (.short key' m)) :
    key = key' := by
  obtain ⟨k, v, hk, hget⟩ := exists_get hn
  have hpre := prefix_of_get hget
  have hpre' := prefix_of_get ((h k hk).symm.trans hget)
  obtain ⟨r, rfl⟩ | ⟨r, rfl⟩ := prefix_or_prefix_of_prefix hpre hpre'
  · rw [length_le_of_sameMap hn h, append_nil]
  · rw [length_le_of_sameMap hm h.symm, append_nil]

theorem not_sameMap_short_full (hm : Canon t (.full ch))
    (h : SameMap t (.short key n) (.full ch)) : False := by
  obtain ⟨c, key, rfl⟩ := exists_cons_of_ne_nil hn.key_ne_nil
  obtain ⟨e, k, v, hec, hk, hget⟩ := exists_get_ne hm c
  exact hec (cons_prefix_cons.1 (prefix_of_get ((h _ hk).trans hget))).1.symm

end

theorem not_sameMap_nil (hn : Canon t n) (h : SameMap t n .nil) : False := by
  obtain ⟨k, v, hk, hget⟩ := exists_get hn
  have := h k hk
  rw [hget, get_nil] at this
  cases this

theorem eq_of_get_eq (hn : Canonical t n) (hm : Canonical t m) (h : SameMap t n m) : n = m := by
  obtain rfl | hn := hn
  · obtain rfl | hm := hm
    · rfl
    · exact (not_sameMap_nil hm h.symm).elim
  obtain rfl | hm := hm
  · exact (not_sameMap_nil hn h).elim
  induction hn generalizing m with
  | leaf hkey =>
    cases hm with
    | leaf hkey' =>
      obtain rfl := key_eq_of_sameMap (.leaf hkey) (.leaf hkey') h
      have hget := h _ hkey
      rw [get_short_value hkey.ne_nil, get_short_value hkey.ne_nil, if_pos rfl, if_pos rfl] at hget
      cases hget
      rfl
    | ext hne' ht' hfull' =>
      obtain rfl := key_eq_of_sameMap (.leaf hkey) (.ext hne' ht' hfull') h
      obtain ⟨p, -, rfl⟩ := isKey_iff.1 hkey
      exact absurd (by simp) ht'
    | full htwo' hvalue' hch' =>
      exact (not_sameMap_short_full (.leaf hkey) (.full htwo' hvalue' hch') h).elim
  | ext hne ht hfull ih =>
    cases hm with
    | leaf hkey' =>
      obtain rfl := key_eq_of_sameMap (.ext hne ht hfull) (.leaf hkey') h
      obtain ⟨p, -, rfl⟩ := isKey_iff.1 hkey'
      exact absurd (by simp) ht
    | ext hne' ht' hfull' =>
      obtain rfl := key_eq_of_sameMap (.ext hne ht hfull) (.ext hne' ht' hfull') h
      congr 1
      refine ih (fun k hk => ?_) hfull'
      have hget := h _ ((isKey_append ht).2 hk)
      simpa [get_short] using hget
    | full htwo' hvalue' hch' =>
      exact (not_sameMap_short_full (.ext hne ht hfull) (.full htwo' hvalue' hch') h).elim
  | full htwo hvalue hch ih =>
    rename_i ch
    cases hm with
    | leaf hkey' => exact (not_sameMap_short_full (.leaf hkey') (.full htwo hvalue hch) h.symm).elim
    | ext hne' ht' hfull' =>
      exact (not_sameMap_short_full (.ext hne' ht' hfull') (.full htwo hvalue hch) h.symm).elim
    | full htwo' hvalue' hch' =>
      rename_i ch'
      congr 1
      funext a
      by_cases ha : a = t
      · subst ha
        have hget := h [a] isKey_singleton
        rw [get_full, get_full] at hget
        obtain hv | ⟨v, hv⟩ := hvalue <;> obtain hv' | ⟨v', hv'⟩ := hvalue' <;>
          simp_all [get_value]
      have hsame : SameMap t (ch a) (ch' a) := by
        intro k hk
        simpa using h (a :: k) ((isKey_cons_of_ne ha).2 hk)
      by_cases hnil : ch a = .nil
      · by_cases hnil' : ch' a = .nil
        · rw [hnil, hnil']
        · exact (not_sameMap_nil (hch' a ha hnil') (hnil ▸ hsame.symm)).elim
      by_cases hnil' : ch' a = .nil
      · exact (not_sameMap_nil (hch a ha hnil) (hnil' ▸ hsame)).elim
      · exact ih a ha hnil hsame (hch' a ha hnil')

end Virbicoin.Lib.Patricia
