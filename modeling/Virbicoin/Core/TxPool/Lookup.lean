import Mathlib.Algebra.BigOperators.Group.Multiset.Basic
import Virbicoin.Core.TxPool.Priced

/-!
# Lookup of transactions by hash

A lookup is indexed if every transaction is under its own hash, either as a local or as a remote
one, and the slots are those of its transactions. Adding a transaction whose hash is new, removing
one and making remote ones local keep this; `txs`, the transactions of the lookup, says what they
change.
-/

namespace Virbicoin.Core

open Lib Finmap

namespace TxLookup

def values (m : Finmap fun _ : Hash => Tx) : Multiset Tx := total (fun _ tx => {tx}) m

def txs (t : TxLookup) : Multiset Tx := values t.locals + values t.remotes

def hashes (t : TxLookup) : Multiset Hash := t.locals.keys.val + t.remotes.keys.val

def slotsOf (txs : Multiset Tx) : Nat := (txs.map numSlots).sum

structure Indexed (t : TxLookup) : Prop where
  locals : ∀ {hash tx}, t.locals.lookup hash = some tx → tx.hash = hash
  remotes : ∀ {hash tx}, t.remotes.lookup hash = some tx → tx.hash = hash
  disjoint : ∀ hash, hash ∈ t.locals → hash ∉ t.remotes
  slots_eq : t.slots = slotsOf t.txs

variable {t : TxLookup} {tx : Tx} {hash : Hash}

/-! ## Maps of transactions -/

section Values

variable {m : Finmap fun _ : Hash => Tx}

theorem mem_values : tx ∈ values m ↔ ∃ hash, m.lookup hash = some tx := by
  unfold values total
  rw [Multiset.mem_sum]
  constructor
  · rintro ⟨hash, -, h⟩
    refine ⟨hash, ?_⟩
    unfold valueAt at h
    cases hl : m.lookup hash with
    | none => simp [hl] at h
    | some t =>
      simp only [hl, Option.elim_some, Multiset.mem_singleton] at h
      rw [h]
  rintro ⟨hash, h⟩
  refine ⟨hash, mem_keys.2 (mem_of_lookup_eq_some h), ?_⟩
  rw [valueAt_of_lookup _ h]
  exact Multiset.mem_singleton_self tx

theorem values_insert (h : m.lookup hash = none) : values (m.insert hash tx) = tx ::ₘ values m := by
  have htotal := total_insert (fun _ tx => ({tx} : Multiset Tx)) m hash tx
  rw [valueAt_of_not_mem _ (lookup_eq_none.1 h), add_zero] at htotal
  unfold values
  rw [htotal, add_comm, Multiset.singleton_add]

theorem values_erase (h : m.lookup hash = some tx) : tx ::ₘ values (m.erase hash) = values m := by
  have htotal := total_erase (fun _ tx => ({tx} : Multiset Tx)) m hash
  rw [valueAt_of_lookup _ h, add_comm] at htotal
  exact htotal

theorem erase_of_lookup_none (h : m.lookup hash = none) : m.erase hash = m := by
  refine ext_lookup fun c => ?_
  by_cases hc : c = hash
  · rw [hc, lookup_erase, h]
  · rw [lookup_erase_ne hc]

theorem map_hash_values (h : ∀ {hash tx}, m.lookup hash = some tx → tx.hash = hash) :
    (values m).map (fun tx => tx.hash) = m.keys.val := by
  unfold values total
  rw [← Multiset.coe_mapAddMonoidHom, map_sum, ← Finset.sum_multiset_singleton]
  refine Finset.sum_congr rfl fun hash hmem => ?_
  obtain ⟨tx, htx⟩ := mem_iff.1 (mem_keys.1 hmem)
  rw [valueAt_of_lookup _ htx, Multiset.coe_mapAddMonoidHom, Multiset.map_singleton, h htx]

end Values

/-! ## Reading -/

theorem get_eq_some : t.get hash = some tx ↔ t.locals.lookup hash = some tx ∨
        t.locals.lookup hash = none ∧ t.remotes.lookup hash = some tx := by
  unfold get
  cases t.locals.lookup hash with
  | none | some t => simp

theorem get_eq_none :
    t.get hash = none ↔ t.locals.lookup hash = none ∧ t.remotes.lookup hash = none := by
  unfold get
  cases t.locals.lookup hash with
  | none | some t => simp

namespace Indexed

theorem get_iff (h : t.Indexed) : t.get hash = some tx ↔ tx ∈ t.txs ∧ tx.hash = hash := by
  rw [get_eq_some, txs, Multiset.mem_add, mem_values, mem_values]
  constructor
  · rintro (hl | ⟨-, hr⟩)
    · exact ⟨.inl ⟨_, hl⟩, h.locals hl⟩
    · exact ⟨.inr ⟨_, hr⟩, h.remotes hr⟩
  rintro ⟨⟨hash', hl⟩ | ⟨hash', hr⟩, rfl⟩
  · have := h.locals hl
    rw [this]
    exact .inl hl
  have := h.remotes hr
  rw [this]
  refine .inr ⟨lookup_eq_none.2 fun hmem => ?_, hr⟩
  exact h.disjoint _ hmem (mem_of_lookup_eq_some hr)

theorem get_of_mem (h : t.Indexed) (hmem : tx ∈ t.txs) : t.get tx.hash = some tx :=
  h.get_iff.2 ⟨hmem, rfl⟩

theorem map_hash (h : t.Indexed) : t.txs.map (fun tx => tx.hash) = t.hashes := by
  rw [txs, Multiset.map_add, map_hash_values h.locals, map_hash_values h.remotes]
  rfl

theorem nodup_hashes (h : t.Indexed) : t.hashes.Nodup := by
  refine Multiset.Nodup.add_iff t.locals.keys.nodup t.remotes.keys.nodup |>.2 ?_
  rw [Multiset.disjoint_left]
  intro hash hl hr
  exact h.disjoint hash (mem_keys.1 hl) (mem_keys.1 hr)

end Indexed

/-! ## Changing -/

theorem slotsOf_cons (txs : Multiset Tx) : slotsOf (tx ::ₘ txs) = numSlots tx + slotsOf txs := by
  simp [slotsOf]

theorem newTxLookup_indexed : newTxLookup.Indexed where
  locals h := by cases h
  remotes h := by cases h
  disjoint hash h := by cases h
  slots_eq := rfl

theorem add_txs (hnone : t.get tx.hash = none) (loc : Bool) :
    (t.add tx loc).txs = tx ::ₘ t.txs := by
  obtain ⟨hl, hr⟩ := get_eq_none.1 hnone
  unfold txs add
  cases loc with
  | true =>
    simp only [if_true]
    rw [values_insert hl, Multiset.cons_add]
  | false =>
    simp only [Bool.false_eq_true, if_false]
    rw [values_insert hr, Multiset.add_cons]

theorem lookup_insert_iff {m : Finmap fun _ : Hash => Tx} {t : Tx} :
    (m.insert tx.hash tx).lookup hash = some t →
      t = tx ∧ tx.hash = hash ∨ m.lookup hash = some t := by
  intro h
  by_cases heq : hash = tx.hash
  · subst heq
    rw [lookup_insert] at h
    cases h
    exact .inl ⟨rfl, rfl⟩
  rw [lookup_insert_of_ne _ heq] at h
  exact .inr h

theorem Indexed.add (h : t.Indexed) (hnone : t.get tx.hash = none) (loc : Bool) :
    (t.add tx loc).Indexed := by
  obtain ⟨hl, hr⟩ := get_eq_none.1 hnone
  have hslots : (t.add tx loc).slots = slotsOf (t.add tx loc).txs := by
    rw [add_txs hnone, slotsOf_cons]
    show t.slots + numSlots tx = _
    rw [h.slots_eq]
    omega
  cases loc with
  | true =>
    refine ⟨fun {_ _} hlook => ?_, h.remotes, fun hash hmem => ?_, hslots⟩
    · obtain ⟨rfl, rfl⟩ | hold := lookup_insert_iff hlook
      · rfl
      · exact h.locals hold
    obtain rfl | hold := mem_insert.1 hmem
    · exact lookup_eq_none.1 hr
    · exact h.disjoint hash hold
  | false =>
    refine ⟨h.locals, fun {_ _} hlook => ?_, fun hash hmem hmem' => ?_, hslots⟩
    · obtain ⟨rfl, rfl⟩ | hold := lookup_insert_iff hlook
      · rfl
      · exact h.remotes hold
    obtain rfl | hold := mem_insert.1 hmem'
    · exact lookup_eq_none.1 hl hmem
    · exact h.disjoint hash hmem hold

theorem remove_eq (h : t.get hash = some tx) :
    t.remove hash = ⟨t.slots - numSlots tx, t.locals.erase hash, t.remotes.erase hash⟩ := by
  unfold remove
  rw [h]

theorem get_remove {hash' : Hash} :
    (t.remove hash).get hash' = if hash' = hash then none else t.get hash' := by
  cases hget : t.get hash with
  | none =>
    have hsame : t.remove hash = t := by
      unfold remove
      rw [hget]
    rw [hsame]
    split
    · rename_i heq
      rw [heq, hget]
    · rfl
  | some tx =>
    rw [remove_eq hget]
    by_cases heq : hash' = hash
    · subst heq
      rw [if_pos rfl, get_eq_none]
      exact ⟨lookup_erase _ _, lookup_erase _ _⟩
    rw [if_neg heq]
    unfold get
    simp only [lookup_erase_ne heq]

theorem Indexed.remove_txs (h : t.Indexed) (hget : t.get hash = some tx) :
    tx ::ₘ (t.remove hash).txs = t.txs := by
  rw [remove_eq hget]
  unfold txs
  obtain hl | ⟨hl, hr⟩ := get_eq_some.1 hget
  · have hr : t.remotes.lookup hash = none :=
      lookup_eq_none.2 (h.disjoint hash (mem_of_lookup_eq_some hl))
    simp only [erase_of_lookup_none hr]
    rw [← Multiset.cons_add, values_erase hl]
  simp only [erase_of_lookup_none hl]
  rw [← Multiset.add_cons, values_erase hr]

theorem lookup_of_lookup_erase {m : Finmap fun _ : Hash => Tx} {hash' : Hash}
    (h : (m.erase hash).lookup hash' = some tx) : m.lookup hash' = some tx := by
  by_cases heq : hash' = hash
  · rw [heq, lookup_erase] at h
    cases h
  · rwa [lookup_erase_ne heq] at h

theorem Indexed.remove (h : t.Indexed) (hash : Hash) : (t.remove hash).Indexed := by
  cases hget : t.get hash with
  | none =>
    unfold TxLookup.remove
    rw [hget]
    exact h
  | some tx =>
    have hslots : (t.remove hash).slots = slotsOf (t.remove hash).txs := by
      have hall := h.slots_eq
      rw [← h.remove_txs hget, slotsOf_cons] at hall
      have hdef : (t.remove hash).slots = t.slots - numSlots tx := by rw [remove_eq hget]
      omega
    rw [remove_eq hget] at hslots ⊢
    refine ⟨fun hlook => h.locals (lookup_of_lookup_erase hlook),
      fun hlook => h.remotes (lookup_of_lookup_erase hlook), fun hash' hmem hmem' => ?_, hslots⟩
    exact h.disjoint hash' (mem_erase.1 hmem).2 (mem_erase.1 hmem').2

theorem Indexed.removeOld (h : t.Indexed) {old : Option Tx} (hold : ∀ o, old = some o → o ∈ t.txs) :
    (old.elim t fun o => t.remove o.hash).Indexed ∧
      (old.elim t fun o => t.remove o.hash).txs + old.toList = t.txs ∧
      ∀ hash, t.get hash = none → (old.elim t fun o => t.remove o.hash).get hash = none := by
  cases old with
  | none => exact ⟨h, add_zero _, fun _ hnone => hnone⟩
  | some o =>
    refine ⟨h.remove _, ?_, fun hash hnone => ?_⟩
    · show (t.remove o.hash).txs + {o} = _
      rw [← h.remove_txs (h.get_of_mem (hold o rfl)), add_comm, Multiset.singleton_add]
    · show (t.remove o.hash).get hash = none
      rw [get_remove, hnone, ite_self]

theorem Indexed.migrate {accounts : Finset Address} {acc : Nat × TxLookup}
    (h : acc.2.Indexed) (hash : Hash) :
    (TxLookup.migrate accounts acc hash).2.Indexed ∧
      (TxLookup.migrate accounts acc hash).2.txs = acc.2.txs := by
  unfold TxLookup.migrate
  split
  · exact ⟨h, rfl⟩
  rename_i tx htx
  split
  · have hhash : tx.hash = hash := h.remotes htx
    have hl : acc.2.locals.lookup hash = none := lookup_eq_none.2 fun hmem =>
      h.disjoint hash hmem (mem_of_lookup_eq_some htx)
    have htxs : values (acc.2.locals.insert hash tx) + values (acc.2.remotes.erase hash) =
        acc.2.txs := by
      rw [values_insert hl, Multiset.cons_add, ← Multiset.add_cons, values_erase htx]
      rfl
    refine ⟨⟨fun {_ _} hlook => ?_, fun hlook => h.remotes (lookup_of_lookup_erase hlook),
      fun hash' hmem hmem' => ?_, ?_⟩, htxs⟩
    · rw [← hhash] at hlook
      obtain ⟨rfl, rfl⟩ | hold := lookup_insert_iff hlook
      · rfl
      · exact h.locals hold
    · obtain ⟨hne, hold⟩ := mem_erase.1 hmem'
      obtain rfl | hmem := mem_insert.1 hmem
      · exact hne rfl
      · exact h.disjoint hash' hmem hold
    show acc.2.slots = slotsOf (values _ + values _)
    rw [htxs]
    exact h.slots_eq
  · exact ⟨h, rfl⟩

theorem Indexed.remoteToLocals (h : t.Indexed) (visit : Visit Hash) (accounts : Finset Address) :
    (t.remoteToLocals visit accounts).2.Indexed ∧
      (t.remoteToLocals visit accounts).2.txs = t.txs := by
  have hfold : ∀ (hashes : List Hash) (acc : Nat × TxLookup), acc.2.Indexed → acc.2.txs = t.txs →
      (hashes.foldl (TxLookup.migrate accounts) acc).2.Indexed ∧
        (hashes.foldl (TxLookup.migrate accounts) acc).2.txs = t.txs := by
    intro hashes
    induction hashes with
    | nil =>
      intro acc hacc htxs
      exact ⟨hacc, htxs⟩
    | cons hash hashes ih =>
      intro acc hacc htxs
      obtain ⟨hstep, hstep'⟩ : (TxLookup.migrate accounts acc hash).2.Indexed ∧
          (TxLookup.migrate accounts acc hash).2.txs = acc.2.txs := hacc.migrate hash
      exact ih _ hstep (hstep'.trans htxs)
  exact hfold _ _ h rfl

end TxLookup

end Virbicoin.Core
