import Virbicoin.Trie.Hasher

/-!
# The trie as a finite map

A trie that starts empty and is changed by updates and deletions holds the map they leave, in
canonical form. No node of such a trie is a hash and none has been hashed, so its root is determined
by the tree it denotes (`Denotes.eq_of_fresh`), and the tree is determined by the map.
-/

namespace Virbicoin.Mpt

open Virbicoin.Lib Virbicoin.Lib.Patricia

inductive Op where
  | update (key value : Bytes)
  | delete (key : Bytes)
  deriving DecidableEq, Repr

def Op.step (db : NodeReader) (tr : Trie) (op : Op) : Except Err Trie :=
  match (match op with
    | .update key value => tr.tryUpdate db key value
    | .delete key => tr.tryDelete db key) with
  | (.ok (), tr) => .ok tr
  | (.error e, _) => .error e

/-- What an operation does to the map: an empty value deletes. -/
def Op.apply (m : Bytes → Option Bytes) : Op → Bytes → Option Bytes
  | .update key value => Function.update m key (if value.length ≠ 0 then some value else none)
  | .delete key => Function.update m key none

/-- The last value written under each key, unless it was deleted since. -/
def finalMap (ops : List Op) : Bytes → Option Bytes := ops.foldl Op.apply fun _ => none

noncomputable def Op.write (t : PTree) : Op → PTree
  | .update key value => Mpt.write t key value
  | .delete key => Mpt.write t key []

section

variable {known db : NodeReader} {ok : Bool → NodeFlag → PTree → Prop} {tr tr' : Trie} {t : PTree}

theorem Holds.step (hdb : known.Le db) (hok : ∀ b t, ok b newFlag t) (h : Holds known ok tr t)
    (op : Op) : ∃ tr', op.step db tr = .ok tr' ∧ Holds known ok tr' (op.write t) := by
  cases op with
  | update key value =>
    obtain ⟨tr', hrun, h'⟩ := h.tryUpdate hdb hok key value
    exact ⟨tr', by simp only [Op.step, hrun], h'⟩
  | delete key =>
    obtain ⟨tr', hrun, h'⟩ := h.tryDelete hdb hok key
    exact ⟨tr', by simp only [Op.step, hrun], h'⟩

theorem Holds.run (hdb : known.Le db) (hok : ∀ b t, ok b newFlag t) (h : Holds known ok tr t)
    (ops : List Op) :
    ∃ tr', run (Op.step db) tr ops = .ok tr' ∧ Holds known ok tr' (ops.foldl Op.write t) := by
  induction ops generalizing tr t with
  | nil => exact ⟨tr, rfl, h⟩
  | cons op ops ih =>
    obtain ⟨tr1, hstep, h1⟩ := h.step hdb hok op
    obtain ⟨tr', hrun, h'⟩ := ih h1
    exact ⟨tr', run_cons_ok.2 ⟨tr1, hstep, hrun⟩, h'⟩

end

/-! ## The map of a tree -/

/-- The tree holds the map `m`: nothing is stored but under hex keys. -/
structure HoldsMap (t : PTree) (m : Bytes → Option Bytes) : Prop where
  canonical : Canonical terminator t
  get_eq : ∀ key, get t (keybytesToHex key) = m key
  support : ∀ k v, IsKey terminator k → get t k = some v → ∃ key, k = keybytesToHex key

variable {t t' : PTree} {m : Bytes → Option Bytes}

theorem holdsMap_nil : HoldsMap .nil fun _ => none :=
  ⟨.inl rfl, fun _ => get_nil, fun _ _ _ h => by simp at h⟩

theorem HoldsMap.write (h : HoldsMap t m) (key value : Bytes) : HoldsMap (write t key value)
      (Function.update m key (if value.length ≠ 0 then some value else none)) := by
  refine ⟨canonical_write h.canonical key value, ?_, ?_⟩
  · intro key'
    rw [get_write h.canonical, Function.update_apply, h.get_eq]
  intro k v hk hget
  by_cases heq : k = keybytesToHex key
  · exact ⟨key, heq⟩
  apply h.support k v hk
  unfold Mpt.write at hget
  split at hget
  · rwa [get_insert h.canonical (isKey_keybytesToHex key), if_neg heq] at hget
  · rwa [get_delete h.canonical (isKey_keybytesToHex key) hk, if_neg heq] at hget

theorem HoldsMap.foldl (h : HoldsMap t m) (ops : List Op) :
    HoldsMap (ops.foldl Op.write t) (ops.foldl Op.apply m) := by
  induction ops generalizing t m with
  | nil => exact h
  | cons op ops ih =>
    cases op with
    | update key value => exact ih (h.write key value)
    | delete key => exact ih (h.write key [])

theorem HoldsMap.unique (h : HoldsMap t m) (h' : HoldsMap t' m) : t = t' := by
  refine eq_of_get_eq h.canonical h'.canonical fun k hk => ?_
  by_cases hex : ∃ key, k = keybytesToHex key
  · obtain ⟨key, rfl⟩ := hex
    rw [h.get_eq, h'.get_eq]
  have hnone : ∀ {t}, HoldsMap t m → get t k = none := by
    intro t ht
    cases hget : get t k with
    | none => rfl
    | some v => exact absurd (ht.support k v hk hget) hex
  rw [hnone h, hnone h']

/-! ## Tries that were never hashed -/

def noNodes : NodeReader := fun _ => none

/-- The flags of a node that was never hashed. -/
def Fresh (_ : Bool) (fl : NodeFlag) (_ : PTree) : Prop := fl = newFlag

theorem Denotes.eq_of_fresh {isRoot : Bool} {n n' : Node} (h : Denotes noNodes Fresh isRoot n t)
    (h' : Denotes noNodes Fresh isRoot n' t) : n = n' := by
  induction h generalizing n' with
  | nil =>
    cases h' with
    | nil => rfl
    | hash hknown => cases hknown
  | value v =>
    cases h' with
    | value => rfl
    | hash hknown => cases hknown
  | short hfl h ih =>
    cases h' with
    | short hfl' h' => rw [hfl, hfl', ih h']
    | hash hknown => cases hknown
  | full hfl h ih =>
    cases h' with
    | full hfl' h' =>
      rw [hfl']
      congr 1
      funext i
      exact ih i (h' i)
    | hash hknown => cases hknown
  | hash hknown => cases hknown

/-- The trees of tries that were never hashed have no cached hashes to get wrong. -/
def Unhashed (keccak : Bytes → Hash) (isRoot : Bool) (fl : NodeFlag) (t : PTree) : Prop :=
  ∀ h, fl.hash = some h → CachedHash keccak isRoot h t

theorem flagsOk_unhashed (keccak : Bytes → Hash) : FlagsOk keccak (Unhashed keccak) where
  cached hok hfl := hok _ hfl
  set := by
    intro isRoot fl t h hok hnone hc h' hfl
    obtain rfl : h = h' := Option.some.inj hfl
    exact hc

theorem Denotes.unhashed (keccak : Bytes → Hash) {isRoot : Bool} {n : Node}
    (h : Denotes noNodes Fresh isRoot n t) : Denotes noNodes (Unhashed keccak) isRoot n t := by
  have hok : ∀ {b fl t}, Fresh b fl t → Unhashed keccak b fl t := by nofun
  exact h.mono (fun hknown => hknown) hok

theorem Holds.hash_fresh (keccak : Bytes → Hash) {tr : Trie} (h : Holds noNodes Fresh tr t) :
    (tr.hash keccak).1 = rootHash keccak t :=
  have hload : LoadsHash noNodes := nofun
  (hash (flagsOk_unhashed keccak) hload ⟨h.denotes.unhashed keccak, h.canonical⟩).1

/-- **The trie is a finite map in canonical form.** After any operations on an empty trie, none of
which fails, every key has the last value written and not deleted, and the root node only depends on
this map. -/
theorem run_finalMap (keccak : Bytes → Hash) (db : NodeReader) (ops : List Op) :
    ∃ tr, run (Op.step db) .empty ops = .ok tr ∧
      (∀ key, (tr.tryGet db key).1 = .ok (finalMap ops key)) ∧
      ∀ ops' tr', run (Op.step db) .empty ops' = .ok tr' → finalMap ops' = finalMap ops →
        tr'.root = tr.root ∧ (tr'.hash keccak).1 = (tr.hash keccak).1 := by
  have hdb : NodeReader.Le noNodes db := nofun
  have hholds : ∀ ops, ∃ tr, run (Op.step db) .empty ops = .ok tr ∧
      Holds noNodes Fresh tr (ops.foldl Op.write .nil) := fun ops =>
    Holds.run hdb (fun _ _ => rfl) holds_empty ops
  have hmap : ∀ ops, HoldsMap (ops.foldl Op.write .nil) (finalMap ops) := holdsMap_nil.foldl
  obtain ⟨tr, hrun, htr⟩ := hholds ops
  refine ⟨tr, hrun, fun key => ?_, fun ops' tr' hrun' hsame => ?_⟩
  · rw [(htr.tryGet hdb key).1, (hmap ops).get_eq]
  obtain ⟨tr1, hrun1, htr'⟩ := hholds ops'
  obtain rfl : tr1 = tr' := Except.ok.inj (hrun1.symm.trans hrun')
  have htree : ops'.foldl Op.write .nil = ops.foldl Op.write .nil :=
    (hmap ops').unique (hsame ▸ hmap ops)
  rw [htree] at htr'
  refine ⟨htr'.denotes.eq_of_fresh htr.denotes, ?_⟩
  rw [htr'.hash_fresh, htr.hash_fresh]

end Virbicoin.Mpt
