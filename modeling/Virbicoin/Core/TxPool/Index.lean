import Mathlib.Data.Multiset.Count
import Virbicoin.Core.TxPool.Truncate

/-!
# The lookup and the lists of a pool

The transactions of the lookup are those of the pending lists and of the queues together
(`TxPool.Consistent`). In the middle of an operation some transactions are neither in a list nor
gone; `hand` is the multiset of these. Others have left the lookup and not yet their list; these are
`gone`. Every function of the pool moves transactions between lists, hand and lookup, and the
equation between the multisets says that none is lost or kept twice.
-/

namespace Virbicoin.Core

open Lib Finmap Multiset Option

def Tx.key (tx : Tx) : Address × Nat := (tx.origin, tx.nonce)

/-! ## Maps of lists -/

def listed (m : Finmap fun _ : Address => TxList) : Multiset Tx :=
  total (fun _ list => (list.txs : Multiset Tx)) m

def listAt (m : Finmap fun _ : Address => TxList) (addr : Address) : Multiset Tx :=
  valueAt (fun _ list => (list.txs : Multiset Tx)) m addr

/-- Every transaction is in the list of its sender, and the lists are strict or not. -/
def Owned (strict : Bool) (m : Finmap fun _ : Address => TxList) : Prop :=
  ∀ addr list, m.lookup addr = some list →
    list.strict = strict ∧ ∀ tx ∈ list.txs, tx.sender = some addr

section Maps

variable {m : Finmap fun _ : Address => TxList} {addr : Address} {list : TxList} {tx : Tx}
  {strict : Bool}

theorem Tx.origin_of_sender (h : tx.sender = some addr) : tx.origin = addr := by
  unfold origin
  rw [h]
  rfl

theorem Tx.key_eq {tx t : Tx} : tx.key = t.key ↔ tx.origin = t.origin ∧ tx.nonce = t.nonce :=
  Prod.ext_iff

theorem listAt_of_lookup (h : m.lookup addr = some list) : listAt m addr = list.txs :=
  valueAt_of_lookup _ h

theorem listAt_getD : listAt m addr = ((m.lookup addr).getD (newTxList strict)).txs := by
  cases h : m.lookup addr with
  | none => exact valueAt_of_not_mem _ (lookup_eq_none.1 h)
  | some list => exact listAt_of_lookup h

theorem listed_insert (m : Finmap fun _ : Address => TxList) (addr : Address) (list : TxList) :
    listed (m.insert addr list) + listAt m addr = listed m + list.txs :=
  total_insert _ _ _ _

theorem listed_erase (m : Finmap fun _ : Address => TxList) (addr : Address) :
    listed (m.erase addr) + listAt m addr = listed m :=
  total_erase _ _ _

theorem mem_listed : tx ∈ listed m ↔ ∃ addr list, m.lookup addr = some list ∧ tx ∈ list.txs := by
  unfold listed total
  rw [mem_sum]
  constructor
  · rintro ⟨addr, -, h⟩
    unfold valueAt at h
    cases hl : m.lookup addr with
    | none => simp [hl] at h
    | some list => exact ⟨addr, list, hl, by simpa [hl] using h⟩
  rintro ⟨addr, list, hl, h⟩
  refine ⟨addr, mem_keys.2 (mem_of_lookup_eq_some hl), ?_⟩
  rw [valueAt_of_lookup _ hl]
  exact h

namespace Owned

theorem empty (strict : Bool) : Owned strict ∅ := nofun

section

variable (h : Owned strict m)

include h

theorem insert (hstrict : list.strict = strict)
    (hsender : ∀ tx ∈ list.txs, tx.sender = some addr) : Owned strict (m.insert addr list) := by
  intro a l hl
  by_cases ha : a = addr
  · subst ha
    rw [lookup_insert] at hl
    cases hl
    exact ⟨hstrict, hsender⟩
  rw [lookup_insert_of_ne _ ha] at hl
  exact h a l hl

theorem erase (addr : Address) : Owned strict (m.erase addr) := by
  intro a l hl
  by_cases ha : a = addr
  · rw [ha, lookup_erase] at hl
    cases hl
  · rw [lookup_erase_ne ha] at hl
    exact h a l hl

theorem lookup_of_mem (hmem : tx ∈ listed m) :
    ∃ list, m.lookup tx.origin = some list ∧ tx ∈ list.txs := by
  obtain ⟨addr, list, hl, htx⟩ := mem_listed.1 hmem
  rw [Tx.origin_of_sender ((h addr list hl).2 tx htx)]
  exact ⟨list, hl, htx⟩

theorem getD (addr : Address) : ((m.lookup addr).getD (newTxList strict)).strict = strict ∧
      ∀ tx ∈ ((m.lookup addr).getD (newTxList strict)).txs,
        tx.sender = some addr ∧ tx ∈ listed m := by
  cases hl : m.lookup addr with
  | none => exact ⟨rfl, fun tx htx => by cases htx⟩
  | some list =>
    obtain ⟨hstrict, hsender⟩ := h addr list hl
    exact ⟨hstrict, fun tx htx => ⟨hsender tx htx, mem_listed.2 ⟨addr, list, hl, htx⟩⟩⟩

end

end Owned

end Maps

/-! ## Consistent pools -/

namespace TxPool

def listedTxs (p : TxPool) : Multiset Tx := listed p.pending + listed p.queue

structure Consistent (gone hand : Multiset Tx) (p : TxPool) : Prop where
  all_eq : p.all.txs + gone = p.listedTxs + hand
  keys : ((p.listedTxs + hand).map Tx.key).Nodup
  sender : ∀ tx ∈ p.listedTxs + hand, tx.sender = some tx.origin
  indexed : p.all.Indexed
  pending : Owned true p.pending
  queue : Owned false p.queue

namespace Consistent

variable {p q : TxPool} {gone gone' hand hand' : Multiset Tx} {tx t : Tx} {addr : Address}
  {list list' : TxList} {s : Sched}

section

variable (h : Consistent gone hand p)
include h

theorem congr (hall : q.all = p.all) (hpending : q.pending = p.pending)
    (hqueue : q.queue = p.queue) :
    Consistent gone hand q := by
  have hlisted : q.listedTxs = p.listedTxs := by
    unfold listedTxs
    rw [hpending, hqueue]
  obtain ⟨hsum, hkeys, hsender, hindexed, hp, hq⟩ := h
  rw [← hlisted] at hsum hkeys hsender
  rw [← hall] at hsum hindexed
  exact ⟨hsum, hkeys, hsender, hindexed, hpending ▸ hp, hqueue ▸ hq⟩

omit h in
theorem free (h : Consistent gone (tx ::ₘ hand) p) (ht : t ∈ p.listedTxs) : t.key ≠ tx.key := by
  intro hkey
  have hnodup := h.keys
  rw [map_add, map_cons, add_cons, nodup_cons] at hnodup
  refine hnodup.1 (mem_add.2 (.inl ?_))
  rw [← hkey]
  exact mem_map_of_mem _ ht

theorem relist {old new : Multiset Tx} (hall : q.all = p.all)
    (hlisted : q.listedTxs + old = p.listedTxs + new)
    (hmove : hand + old + gone' = hand' + new + gone) (hgone : gone' ≤ gone)
    (hpending : Owned true q.pending) (hqueue : Owned false q.queue) :
    Consistent gone' hand' q := by
  have hall' : q.all.txs + gone' = q.listedTxs + hand' := by
    rw [hall]
    ext x
    have h1 := congrArg (count x) h.all_eq
    have h2 := congrArg (count x) hlisted
    have h3 := congrArg (count x) hmove
    simp only [count_add] at h1 h2 h3 ⊢
    omega
  have hle : q.listedTxs + hand' ≤ p.listedTxs + hand := by
    rw [← hall', ← h.all_eq, hall]
    exact Multiset.add_le_add_left hgone
  refine ⟨hall', nodup_of_le (map_le_map hle) h.keys,
    fun tx htx => h.sender tx (mem_of_le hle htx), ?_, hpending, hqueue⟩
  rw [hall]
  exact h.indexed

section

variable (hgone : gone' ≤ gone) (hsender : ∀ tx ∈ list.txs, tx.sender = some addr)
include hgone hsender

theorem setPending (hmove : hand + listAt p.pending addr + gone' = hand' + list.txs + gone)
    (hstrict : list.strict = true) : Consistent gone' hand' (p.setPending addr list) := by
  refine h.relist rfl ?_ hmove hgone (h.pending.insert hstrict hsender) h.queue
  have hins := listed_insert p.pending addr list
  show listed (p.pending.insert addr list) + listed p.queue + _ = _
  rw [add_right_comm, hins, add_right_comm]
  rfl

theorem setQueue (hmove : hand + listAt p.queue addr + gone' = hand' + list.txs + gone)
    (hstrict : list.strict = false) : Consistent gone' hand' (p.setQueue addr list) := by
  refine h.relist rfl ?_ hmove hgone h.pending (h.queue.insert hstrict hsender)
  have hins := listed_insert p.queue addr list
  show listed p.pending + listed (p.queue.insert addr list) + _ = _
  rw [add_assoc, hins, ← add_assoc]
  rfl

theorem tidyPending (hmove : hand + listAt p.pending addr + gone' = hand' + list.txs + gone)
    (hstrict : list.strict = true) : Consistent gone' hand' (p.tidyPending addr list) := by
  unfold TxPool.tidyPending
  split
  · rename_i hempty
    rw [TxList.empty_iff] at hempty
    refine h.relist rfl ?_ hmove hgone (h.pending.erase addr) h.queue
    have hera := listed_erase p.pending addr
    show listed (p.pending.erase addr) + listed p.queue + _ = _
    rw [add_right_comm, hera, hempty]
    exact (add_zero _).symm
  · exact h.setPending hgone hsender hmove hstrict

theorem tidyQueue (hmove : hand + listAt p.queue addr + gone' = hand' + list.txs + gone)
    (hstrict : list.strict = false) : Consistent gone' hand' (p.tidyQueue addr list) := by
  unfold TxPool.tidyQueue
  split
  · rename_i hempty
    rw [TxList.empty_iff] at hempty
    refine h.relist rfl ?_ hmove hgone h.pending (h.queue.erase addr)
    have hera := listed_erase p.queue addr
    show listed p.pending + listed (p.queue.erase addr) + _ = _
    rw [add_assoc, hera, hempty]
    exact (add_zero _).symm
  · exact h.setQueue hgone hsender hmove hstrict

end

end

theorem forget (h : Consistent 0 (tx ::ₘ hand) p) : Consistent 0 hand (p.forget tx) := by
  have hmem : tx ∈ p.all.txs := by
    have hall := h.all_eq
    rw [add_zero] at hall
    rw [hall]
    simp
  have hrem := h.indexed.remove_txs (h.indexed.get_of_mem hmem)
  refine ⟨?_, ?_, fun t ht => h.sender t ?_, h.indexed.remove _, h.pending, h.queue⟩
  · have hall := h.all_eq
    rw [← hrem, add_cons, cons_add] at hall
    exact (cons_inj_right tx).1 hall
  · have hkeys := h.keys
    rw [add_cons, map_cons, nodup_cons] at hkeys
    exact hkeys.2
  rw [add_cons]
  exact mem_cons_of_mem ht

theorem forgetTxs {txs : List Tx} (h : Consistent 0 (↑txs + hand) p) :
    Consistent 0 hand (p.forgetTxs txs) := by
  induction txs generalizing p with
  | nil =>
    rw [coe_nil, zero_add] at h
    exact h
  | cons tx txs ih =>
    rw [← cons_coe, cons_add] at h
    exact ih h.forget

/-! ### Transactions in hand go to a list -/

section

variable (h : Consistent gone (tx ::ₘ hand) p)
include h

theorem queue_get : (p.queueOf tx.origin).get tx.nonce = none := by
  refine TxList.get_eq_none.2 fun t ht hnonce => ?_
  obtain ⟨hsender, hmem⟩ := (h.queue.getD tx.origin).2 t ht
  exact h.free (mem_add.2 (.inr hmem)) (Tx.key_eq.2 ⟨Tx.origin_of_sender hsender, hnonce⟩)

theorem pending_get : (p.pendingOf tx.origin).get tx.nonce = none := by
  refine TxList.get_eq_none.2 fun t ht hnonce => ?_
  obtain ⟨hsender, hmem⟩ := (h.pending.getD tx.origin).2 t ht
  exact h.free (mem_add.2 (.inl hmem)) (Tx.key_eq.2 ⟨Tx.origin_of_sender hsender, hnonce⟩)

theorem sender_hand : tx.sender = some tx.origin := h.sender tx (by simp)

omit h in
theorem put_move (hget : list.get tx.nonce = none) :
    (tx ::ₘ hand) + list.txs + gone = hand + (list.put tx).txs + gone := by
  have hput := list.put_perm tx
  rw [hget] at hput
  have hcoe : ((list.put tx).txs : Multiset Tx) = tx ::ₘ list.txs := by exact coe_eq_coe.2 hput
  rw [hcoe, cons_add, add_cons]

omit h in
theorem sender_put (hlist : ∀ t ∈ list.txs, t.sender = some addr) (htx : tx.sender = some addr) :
    ∀ t ∈ (list.put tx).txs, t.sender = some addr := by
  intro t ht
  obtain rfl | ⟨ht, -⟩ := TxList.mem_putTx.1 ht
  · exact htx
  · exact hlist t ht

theorem enqueueTx (loc : Bool) : Consistent gone hand (p.enqueueTx s tx loc false).1 := by
  have hget := h.queue_get
  obtain ⟨hstrict, hown⟩ := h.queue.getD tx.origin
  have hset : Consistent gone hand (p.setQueue tx.origin ((p.queueOf tx.origin).put tx)) :=
    h.setQueue le_rfl (sender_put (fun t ht => (hown t ht).1) h.sender_hand)
      (by rw [listAt_getD]; exact put_move hget) hstrict
  unfold TxPool.enqueueTx TxList.add
  rw [hget]
  exact hset.congr (touch_all _ _ _) (touch_pending _ _ _) (touch_queue _ _ _)

omit h in
theorem requeueTxs {txs : List Tx} (h : Consistent gone (↑txs + hand) p) :
    Consistent gone hand (p.requeueTxs s txs) := by
  induction txs generalizing p with
  | nil =>
    rw [coe_nil, zero_add] at h
    exact h
  | cons tx txs ih =>
    rw [← cons_coe, cons_add] at h
    exact ih (h.enqueueTx false)

theorem promoteTx : Consistent gone hand (p.promoteTx s tx.origin tx).1 := by
  have hget := h.pending_get
  obtain ⟨hstrict, hown⟩ := h.pending.getD tx.origin
  have hset : Consistent gone hand (p.setPending tx.origin ((p.pendingOf tx.origin).put tx)) :=
    h.setPending le_rfl (sender_put (fun t ht => (hown t ht).1) h.sender_hand)
      (by rw [listAt_getD]; exact put_move hget) hstrict
  unfold TxPool.promoteTx TxList.add
  rw [hget]
  exact hset.congr rfl rfl rfl

end

theorem promoteTxs {txs : List Tx} (h : Consistent gone (↑txs + hand) p)
    (hsender : ∀ tx ∈ txs, tx.sender = some addr) :
    Consistent gone hand (p.promoteTxs s addr txs).1 := by
  induction txs generalizing p with
  | nil =>
    rw [coe_nil, zero_add] at h
    exact h
  | cons tx txs ih =>
    rw [← cons_coe, cons_add] at h
    have hstep := h.promoteTx (s := s)
    rw [Tx.origin_of_sender (hsender tx List.mem_cons_self)] at hstep
    exact ih hstep fun t ht => hsender t (List.mem_cons_of_mem _ ht)

/-! ### Removal -/

theorem unlistTx (h : Consistent {tx} 0 p) : Consistent 0 0 (p.unlistTx s tx) := by
  have hmem : tx ∈ p.listedTxs + 0 := by
    rw [← h.all_eq]
    simp
  unfold TxPool.unlistTx
  split
  · rename_i invalids pending hrem
    obtain ⟨list, hlist, hrem⟩ := bind_eq_some_iff.1 hrem
    obtain ⟨found, hfound, hperm⟩ := TxList.remove_perm hrem
    have hin := TxList.get_eq_some.1 hfound
    have hown := h.pending tx.origin list hlist
    obtain rfl : found = tx := by
      refine inj_on_of_nodup_map h.keys _ ?_ _ hmem
        (Tx.key_eq.2 ⟨Tx.origin_of_sender (hown.2 _ hin.1), hin.2⟩)
      rw [add_zero]
      exact mem_add.2 (.inl (mem_listed.2 ⟨_, _, hlist, hin.1⟩))
    have hsub : ∀ t ∈ pending.txs, t ∈ list.txs := fun t ht =>
      hperm.subset (List.mem_cons_of_mem _ (List.mem_append_right _ ht))
    have hstrict : pending.strict = list.strict := TxList.remove_strict hrem
    have htidy : Consistent 0 (↑invalids + 0) (p.tidyPending found.origin pending) := by
      refine h.tidyPending (zero_le _) (fun t ht => hown.2 t (hsub t ht)) ?_ (hstrict.trans hown.1)
      rw [listAt_of_lookup hlist, ← coe_eq_coe.2 hperm, ← cons_coe,
        ← coe_add, zero_add, add_zero, add_zero, ← singleton_add, add_comm]
    exact htidy.requeueTxs.congr rfl rfl rfl
  rename_i hnone
  have hqueue : tx ∈ listed p.queue := by
    rw [add_zero] at hmem
    obtain hp | hq := mem_add.1 hmem
    · obtain ⟨list, hlist, hin⟩ := h.pending.lookup_of_mem hp
      rw [hlist] at hnone
      exact absurd rfl (TxList.get_eq_none.1 (TxList.remove_eq_none hnone) tx hin)
    · exact hq
  obtain ⟨future, hfuture, hin⟩ := h.queue.lookup_of_mem hqueue
  simp only [hfuture]
  have hown := h.queue tx.origin future hfuture
  have hget : future.get tx.nonce = some tx := TxList.get_eq_some.2 ⟨hin, rfl⟩
  have hrem : future.remove tx = some ([], future.withoutNonce tx.nonce) := by
    unfold TxList.remove TxList.overlaps
    rw [hget, hown.1]
    rfl
  rw [hrem]
  have hperm := TxList.withoutNonce_perm hget
  refine h.tidyQueue (zero_le _)
    (fun t ht => hown.2 t (hperm.subset (List.mem_cons_of_mem _ ht))) ?_ hown.1
  rw [listAt_of_lookup hfuture, ← coe_eq_coe.2 hperm, add_zero, zero_add, add_comm]
  rfl

variable (h : Consistent 0 0 p)
include h

theorem removeTx (hash : Hash) (outofbound : Bool) :
    Consistent 0 0 (p.removeTx s hash outofbound) := by
  unfold TxPool.removeTx
  split
  · exact h
  rename_i tx htx
  have hgone : Consistent {tx} 0 (p.forgetHash hash) := by
    refine ⟨?_, h.keys, h.sender, h.indexed.remove hash, h.pending, h.queue⟩
    show (p.all.remove hash).txs + {tx} = p.listedTxs + 0
    rw [← h.all_eq, add_zero, ← h.indexed.remove_txs htx, add_comm, singleton_add]
  refine .unlistTx ?_
  split
  · exact hgone.congr rfl rfl rfl
  · exact hgone

theorem removeTxs (txs : List Tx) (outofbound : Bool) :
    Consistent 0 0 (p.removeTxs s txs outofbound) :=
  removeTxs_invariant (fun _ hash hq => hq.removeTx hash outofbound) h txs

/-! ### Insertion -/

theorem exchange {old : Option Tx} {loc : Bool} (hnew : p.all.get tx.hash = none)
    (hsender : tx.sender = some tx.origin)
    (hall : q.all = ((old.elim p.all fun o => p.all.remove o.hash).add tx loc))
    (hlisted : q.listedTxs + old.toList = tx ::ₘ p.listedTxs)
    (hold : ∀ o, old = some o → o ∈ p.listedTxs ∧ o.key = tx.key)
    (hfree : old = none → ∀ t ∈ p.listedTxs, t.key ≠ tx.key) (hpending : Owned true q.pending)
    (hqueue : Owned false q.queue) : Consistent 0 0 q := by
  have hall0 : p.all.txs = p.listedTxs := by
    have := h.all_eq
    rwa [add_zero, add_zero] at this
  have hkeys0 : (p.listedTxs.map Tx.key).Nodup := by
    have := h.keys
    rwa [add_zero] at this
  have hmem : ∀ t ∈ q.listedTxs, t = tx ∨ t ∈ p.listedTxs := by
    intro t ht
    have : t ∈ q.listedTxs + old.toList := mem_add.2 (.inl ht)
    rw [hlisted] at this
    exact mem_cons.1 this
  obtain ⟨hidx, htxs, hlost⟩ := h.indexed.removeOld fun o ho => hall0 ▸ (hold o ho).1
  have hnone := hlost tx.hash hnew
  have hall' : q.all.txs = q.listedTxs := by
    rw [hall, TxLookup.add_txs hnone]
    have hsum : tx ::ₘ (old.elim p.all fun o => p.all.remove o.hash).txs +
        (old.toList : Multiset Tx) = q.listedTxs + old.toList := by
      rw [cons_add, htxs, hall0, hlisted]
    exact add_right_cancel hsum
  refine ⟨by rw [hall'], ?_, fun t ht => ?_, ?_, hpending, hqueue⟩
  · rw [add_zero]
    have hmap := congrArg (map Tx.key) hlisted
    rw [map_add, map_cons] at hmap
    cases old with
    | none =>
      rw [toList_none, coe_nil, map_zero, add_zero] at hmap
      rw [hmap, nodup_cons]
      refine ⟨fun hin => ?_, hkeys0⟩
      obtain ⟨t, ht, hkey⟩ := mem_map.1 hin
      exact hfree rfl t ht hkey
    | some o =>
      have hsame : map Tx.key q.listedTxs = map Tx.key p.listedTxs := by
        rw [toList_some, coe_singleton, map_singleton, (hold o rfl).2, add_comm] at hmap
        exact (cons_inj_right _).1 hmap
      rwa [hsame]
  · rw [add_zero] at ht
    obtain rfl | ht := hmem t ht
    · exact hsender
    · exact h.sender t (by rwa [add_zero])
  rw [hall]
  exact hidx.add hnone loc

omit h in
theorem put_listed {L L' : Multiset Tx} (h : L' + list.txs = L + (list.put tx).txs) :
    L' + (list.get tx.nonce).toList = tx ::ₘ L := by
  have hput := coe_eq_coe.2 (list.put_perm tx)
  rw [← coe_add, ← cons_coe] at hput
  have hsum : L' + ((list.get tx.nonce).toList : Multiset Tx) + list.txs = tx ::ₘ L + list.txs := by
    rw [add_right_comm, h, add_assoc, add_comm ((list.put tx).txs : Multiset Tx), hput,
      add_cons, cons_add]
  exact add_right_cancel hsum

theorem enqueueNew (hnew : p.all.get tx.hash = none) (hsender : tx.sender = some tx.origin)
    (hpend : ∀ t ∈ listed p.pending, t.key ≠ tx.key) (loc : Bool) :
    Consistent 0 0 (p.enqueueTx s tx loc true).1 := by
  obtain ⟨hstrict, hown⟩ := h.queue.getD tx.origin
  have hat : listAt p.queue tx.origin = (p.queueOf tx.origin).txs := listAt_getD
  unfold TxPool.enqueueTx
  cases hadd : (p.queueOf tx.origin).add tx p.config.priceBump with
  | none => exact h.setQueue le_rfl (fun t ht => (hown t ht).1) (by rw [hat]) hstrict
  | some r =>
    obtain ⟨list', old⟩ := r
    obtain ⟨rfl, rfl, -⟩ := TxList.add_eq_some hadd
    refine h.exchange hnew hsender ((touch_all _ _ _).trans
      (congrArg (TxLookup.add · tx loc) (forgetOld_all _ _ _))) ?_ (fun o ho => ?_)
      (fun hnone t ht hkey => ?_) ?_ ?_
    · refine put_listed ?_
      have hins := listed_insert p.queue tx.origin ((p.queueOf tx.origin).put tx)
      rw [hat] at hins
      unfold listedTxs
      rw [touch_pending, touch_queue, add_assoc]
      show listed (forgetOld s _ _).pending + (listed (forgetOld s _ _).queue + _) = _
      rw [forgetOld_pending, forgetOld_queue, add_assoc]
      exact congrArg _ hins
    · obtain ⟨hmem, hnonce⟩ := TxList.get_eq_some.1 ho
      obtain ⟨hsend, hlisted⟩ := hown o hmem
      exact ⟨mem_add.2 (.inr hlisted), Tx.key_eq.2 ⟨Tx.origin_of_sender hsend, hnonce⟩⟩
    · obtain hp | hq := mem_add.1 ht
      · exact hpend t hp hkey
      obtain ⟨l, hl, hmem⟩ := h.queue.lookup_of_mem hq
      obtain ⟨horigin, hnonce⟩ := Tx.key_eq.1 hkey
      rw [horigin] at hl
      have hlist : p.queueOf tx.origin = l := by
        unfold queueOf
        rw [hl]
        rfl
      rw [hlist] at hnone
      exact TxList.get_eq_none.1 hnone t hmem hnonce
    · rw [touch_pending]
      show Owned true (forgetOld s _ _).pending
      rw [forgetOld_pending]
      exact h.pending
    · rw [touch_queue]
      show Owned false (forgetOld s _ _).queue
      rw [forgetOld_queue]
      exact h.queue.insert hstrict (sender_put (fun t ht => (hown t ht).1) hsender)

theorem replacePending (hnew : p.all.get tx.hash = none) (hsender : tx.sender = some tx.origin)
    (hlist : p.pending.lookup tx.origin = some list) (hover : list.overlaps tx = true)
    (isLocal : Bool) :
    Consistent 0 0 (p.replacePending s list tx isLocal).1 := by
  obtain ⟨hstrict, hown⟩ := h.pending tx.origin list hlist
  unfold TxPool.replacePending
  cases hadd : list.add tx p.config.priceBump with
  | none => exact h
  | some r =>
    obtain ⟨list', old⟩ := r
    obtain ⟨rfl, rfl, -⟩ := TxList.add_eq_some hadd
    refine h.exchange hnew hsender (congrArg (TxLookup.add · tx isLocal) (forgetOld_all _ _ _)) ?_
      (fun o ho => ?_) (fun hnone => ?_) ?_ ?_
    · refine put_listed ?_
      have hins := listed_insert p.pending tx.origin (list.put tx)
      rw [listAt_of_lookup hlist] at hins
      show listed (forgetOld s _ _).pending + listed (forgetOld s _ _).queue + _ = _
      rw [forgetOld_pending, forgetOld_queue]
      unfold listedTxs
      rw [add_right_comm, add_right_comm (listed p.pending)]
      exact congrArg (· + listed p.queue) hins
    · obtain ⟨hmem, hnonce⟩ := TxList.get_eq_some.1 ho
      exact ⟨mem_add.2 (.inl (mem_listed.2 ⟨_, _, hlist, hmem⟩)),
        Tx.key_eq.2 ⟨Tx.origin_of_sender (hown o hmem), hnonce⟩⟩
    · unfold TxList.overlaps at hover
      rw [hnone] at hover
      cases hover
    · show Owned true (forgetOld s _ _).pending
      rw [forgetOld_pending]
      exact h.pending.insert hstrict (sender_put hown hsender)
    · show Owned false (forgetOld s _ _).queue
      rw [forgetOld_queue]
      exact h.queue

theorem markLocal (addr : Address) : Consistent 0 0 (p.markLocal s addr) := by
  unfold TxPool.markLocal
  split
  · exact h
  obtain ⟨hidx, htxs⟩ := h.indexed.remoteToLocals s.hashes (insert addr p.locals)
  refine ⟨?_, h.keys, h.sender, hidx, h.pending, h.queue⟩
  show (p.all.remoteToLocals s.hashes (insert addr p.locals)).2.txs + 0 = _
  rw [htxs]
  exact h.all_eq

theorem insertTx (hnew : p.all.get tx.hash = none) (hsender : tx.sender = some tx.origin)
    (loc isLocal : Bool) :
    Consistent 0 0 (p.insertTx s tx loc isLocal).1 := by
  unfold TxPool.insertTx
  split
  · rename_i list hlist
    obtain ⟨hlist, hover⟩ := filter_eq_some_iff.1 hlist
    exact h.replacePending hnew hsender hlist hover isLocal
  rename_i hnone
  have hpend : ∀ t ∈ listed p.pending, t.key ≠ tx.key := by
    intro t ht hkey
    obtain ⟨horigin, hnonce⟩ := Tx.key_eq.1 hkey
    obtain ⟨list, hlist, hmem⟩ := h.pending.lookup_of_mem ht
    rw [horigin] at hlist
    have hover : list.overlaps tx = true := by
      unfold TxList.overlaps
      rw [TxList.get_eq_some.2 ⟨hmem, hnonce⟩]
      rfl
    rw [hlist, filter_some, if_pos hover] at hnone
    cases hnone
  have hq := h.enqueueNew (s := s) hnew hsender hpend isLocal
  split
  · rename_i heq
    rw [heq] at hq
    exact hq
  rename_i heq
  rw [heq] at hq
  split
  · exact hq.markLocal _
  · exact hq

theorem add (tx : Tx) (loc : Bool) : Consistent 0 0 (p.add s tx loc).1 := by
  obtain ⟨priced, e, hadd, -⟩ | ⟨priced, drop, hnew, hvalid, -, -, hadd⟩ := add_cases s p tx loc
  · rw [hadd]
    exact h.congr rfl rfl rfl
  rw [hadd]
  have hroom : Consistent 0 0 ((p.setPriced priced).removeTxs s drop false) :=
    removeTxs (p := p.setPriced priced) (h.congr rfl rfl rfl) drop false
  have hlost : Lost tx.hash ((p.setPriced priced).removeTxs s drop false) :=
    Lost.removeTxs (p := p.setPriced priced) hnew drop false
  exact hroom.insertTx hlost hvalid.sender loc _

end Consistent

/-! ## Whole operations -/

structure Sound (p : TxPool) : Prop where
  consistent : Consistent 0 0 p
  pending : Filled p.pending
  queue : Filled p.queue

namespace Sound

variable {p q : TxPool} {s : Sched} {tx : Tx} {addr : Address} {list : TxList}

theorem congr (h : Sound p) (hall : q.all = p.all) (hpending : q.pending = p.pending)
    (hqueue : q.queue = p.queue) : Sound q := by
  exact ⟨h.consistent.congr hall hpending hqueue, hpending ▸ h.pending, hqueue ▸ h.queue⟩

theorem removeTx (h : Sound p) (hash : Hash) (outofbound : Bool) :
    Sound (p.removeTx s hash outofbound) :=
  have hfilled := NoneEmpty.removeTx ⟨h.pending, h.queue⟩ outofbound
  ⟨h.consistent.removeTx hash outofbound, hfilled.1, hfilled.2⟩

theorem removeTxs (h : Sound p) (txs : List Tx) (outofbound : Bool) :
    Sound (p.removeTxs s txs outofbound) :=
  removeTxs_invariant (I := Sound) (fun _ _ hq => hq.removeTx _ outofbound) h txs

theorem add (h : Sound p) (tx : Tx) (loc : Bool) : Sound (p.add s tx loc).1 := by
  have hfilled := NoneEmpty.add (s := s) ⟨h.pending, h.queue⟩ tx loc
  exact ⟨h.consistent.add tx loc, hfilled.1, hfilled.2⟩

theorem addTxsLocked (h : Sound p) (txs : List Tx) (loc : Bool) :
    Sound (p.addTxsLocked s txs loc).1 := by
  induction txs generalizing p with
  | nil => exact h
  | cons tx txs ih => exact ih (h.add tx loc)

end Sound

/-! ### Promotion -/

section Promote

variable {p q : TxPool} {s : Sched} {addr : Address} {list : TxList}

/-- A queue in the middle of a promotion: it may be empty. -/
structure Open (p : TxPool) (addr : Address) (list : TxList) : Prop where
  consistent : Consistent 0 0 p
  pending : Filled p.pending
  queue : FilledBut addr p.queue
  lookup : p.queue.lookup addr = some list

namespace Open

variable (h : Open p addr list)
include h

theorem owned : list.strict = false ∧ ∀ tx ∈ list.txs, tx.sender = some addr :=
  h.consistent.queue addr list h.lookup

variable {list' : TxList}

theorem take {txs : List Tx} (hperm : (txs ++ list'.txs).Perm list.txs)
    (hstrict : list'.strict = list.strict) :
    Consistent 0 (↑txs + 0) (p.setQueue addr list') ∧ ∀ tx ∈ txs, tx.sender = some addr := by
  obtain ⟨hfalse, hsender⟩ := h.owned
  refine ⟨h.consistent.setQueue le_rfl
      (fun tx htx => hsender tx (hperm.subset (List.mem_append_right _ htx))) ?_
      (hstrict.trans hfalse),
    fun tx htx => hsender tx (hperm.subset (List.mem_append_left _ htx))⟩
  rw [listAt_of_lookup h.lookup, ← coe_eq_coe.2 hperm]
  simp

theorem of_setQueue (hcons : Consistent 0 0 q) (hpending : Filled q.pending)
    (hqueue : q.queue = (p.setQueue addr list').queue) :
    Open q addr list' := by
  exact ⟨hcons, hpending, hqueue ▸ h.queue.insert_any list', hqueue ▸ lookup_insert _⟩

theorem drop {txs : List Tx} (hperm : (txs ++ list'.txs).Perm list.txs)
    (hstrict : list'.strict = list.strict) :
    Open ((p.setQueue addr list').forgetTxs txs) addr list' := by
  refine h.of_setQueue (h.take hperm hstrict).1.forgetTxs ?_ (forgetTxs_queue _ _)
  rw [forgetTxs_pending]
  exact h.pending

theorem congr (hall : q.all = p.all) (hpending : q.pending = p.pending)
    (hqueue : q.queue = p.queue) :
    Open q addr list := by
  exact ⟨h.consistent.congr hall hpending hqueue, hpending ▸ h.pending, hqueue ▸ h.queue,
    hqueue ▸ h.lookup⟩

theorem cleanQueue : Open (p.cleanQueue addr list) addr (p.cleanList addr list).2.2 := by
  refine h.drop ?_ (cleanList_strict p addr list)
  have hperm := cleanList_perm p addr list
  rwa [cleanList_invalids h.owned.1] at hperm

theorem promoteReady :
    Open (p.promoteReady s addr list).1 addr (list.ready (p.pendingNonces.get addr)).2 := by
  obtain ⟨hcons, hsender⟩ := h.take
    (.of_eq (list.ready_append (p.pendingNonces.get addr))) (list.ready_strict _)
  exact h.of_setQueue (hcons.promoteTxs hsender) (promoteTxs_filled s _ addr _ h.pending)
    (promoteTxs_queue s _ addr _)

omit h in
theorem capQueue {caps : List Tx} (hcap : p.capQueue addr list = some (caps, list')) :
    (caps ++ list'.txs).Perm list.txs ∧ list'.strict = list.strict := by
  unfold TxPool.capQueue at hcap
  split at hcap
  · cases hcap
    exact ⟨.refl _, rfl⟩
  · exact ⟨TxList.cap_perm hcap, TxList.cap_strict hcap⟩

theorem tidy : Sound (p.tidyQueue addr list) := by
  obtain ⟨hstrict, hsender⟩ := h.owned
  refine ⟨h.consistent.tidyQueue le_rfl hsender ?_ hstrict, ?_, tidyQueue_filled _ _ _ h.queue⟩
  · rw [listAt_of_lookup h.lookup]
  rw [tidyQueue_pending]
  exact h.pending

theorem shortenQueue {removed : Nat} (hq : p.shortenQueue s addr list removed = some q) :
    Sound q := by
  unfold TxPool.shortenQueue at hq
  split at hq
  · cases hq
  rename_i caps list' hcap
  obtain ⟨hperm, hstrict⟩ := capQueue hcap
  cases hq
  have hdrop : Open (pricedRemoved s ((p.setQueue addr list').forgetTxs caps)
      (removed + caps.length)) addr list' := (h.drop hperm hstrict).congr rfl rfl rfl
  exact hdrop.tidy

end Open

theorem Sound.promoteAccount {promoted : List Tx} (h : Sound p)
    (hq : p.promoteAccount s addr = some (q, promoted)) : Sound q := by
  unfold TxPool.promoteAccount at hq
  split at hq
  · cases hq
    exact h
  rename_i list hlist
  have hopen : Open p addr list := ⟨h.consistent, h.pending, h.queue.but addr, hlist⟩
  obtain ⟨q', hshort, hq⟩ := map_eq_some_iff.1 hq
  cases hq
  exact hopen.cleanQueue.promoteReady.shortenQueue hshort

theorem Sound.promoteExecutables {accounts : List Address} {promoted : List Tx} (h : Sound p)
    (hq : p.promoteExecutables s accounts = some (q, promoted)) : Sound q := by
  induction accounts generalizing p promoted with
  | nil =>
    cases hq
    exact h
  | cons addr accounts ih =>
    unfold promoteExecutables at hq
    split at hq
    · cases hq
    rename_i p' promoted' hp'
    obtain ⟨r, hr, hq⟩ := map_eq_some_iff.1 hq
    cases hq
    exact ih (h.promoteAccount hp') hr

end Promote

/-! ### Demotion -/

section Demote

variable {p q : TxPool} {s : Sched} {addr : Address} {list list' : TxList}

structure OpenPending (p : TxPool) (addr : Address) (list : TxList) : Prop where
  consistent : Consistent 0 0 p
  pending : FilledBut addr p.pending
  queue : Filled p.queue
  lookup : p.pending.lookup addr = some list

namespace OpenPending

variable (h : OpenPending p addr list)
include h

theorem owned : list.strict = true ∧ ∀ tx ∈ list.txs, tx.sender = some addr :=
  h.consistent.pending addr list h.lookup

theorem take {hand : Multiset Tx} (hmove : hand + list'.txs = list.txs)
    (hstrict : list'.strict = list.strict) :
    Consistent 0 hand (p.setPending addr list') := by
  obtain ⟨htrue, hsender⟩ := h.owned
  refine h.consistent.setPending le_rfl (fun tx htx => hsender tx ?_) ?_ (hstrict.trans htrue)
  rotate_left
  · rw [listAt_of_lookup h.lookup, hmove, zero_add]
  show tx ∈ (list.txs : Multiset Tx)
  rw [← hmove]
  exact mem_add.2 (.inr htx)

theorem of_setPending (hcons : Consistent 0 0 q)
    (hpending : q.pending = (p.setPending addr list').pending) (hqueue : Filled q.queue) :
    OpenPending q addr list' := by
  exact ⟨hcons, hpending ▸ h.pending.insert_any list', hqueue, hpending ▸ lookup_insert _⟩

theorem cleanPending :
    OpenPending (p.cleanPending s addr list) addr (p.cleanList addr list).2.2 := by
  have hperm := coe_eq_coe.2 (cleanList_perm p addr list)
  rw [← coe_add, ← coe_add, ← add_assoc] at hperm
  have htake := h.take hperm (cleanList_strict p addr list)
  have hforget := htake.forgetTxs
  rw [← add_zero ((p.cleanList addr list).2.1 : Multiset Tx)] at hforget
  have hpriced := hforget.congr
    (q := pricedRemoved s _ (p.cleanList addr list).1.length) rfl rfl rfl
  refine h.of_setPending (hpriced.requeueTxs (s := s)) ?_ (requeueTxs_filled ?_)
  · exact requeueTxs_pending.trans (forgetTxs_pending _ _)
  show Filled (forgetTxs _ _).queue
  rw [forgetTxs_queue]
  exact h.queue

theorem demoteGapped {nonce : Nat} (hq : p.demoteGapped s addr list nonce = some (q, list')) :
    OpenPending q addr list' := by
  unfold TxPool.demoteGapped at hq
  split at hq
  · obtain ⟨⟨gapped, rest⟩, hcap, hq⟩ := map_eq_some_iff.1 hq
    cases hq
    have hperm := coe_eq_coe.2 (TxList.cap_perm hcap)
    rw [← coe_add, ← add_zero (gapped : Multiset Tx)] at hperm
    refine h.of_setPending (h.take hperm (TxList.cap_strict hcap)).requeueTxs
      requeueTxs_pending (requeueTxs_filled (p := p.setPending addr rest) h.queue)
  cases hq
  exact h

theorem tidy : Sound (p.tidyPending addr list) := by
  obtain ⟨hstrict, hsender⟩ := h.owned
  refine ⟨h.consistent.tidyPending le_rfl hsender ?_ hstrict,
    tidyPending_filled _ _ _ h.pending, ?_⟩
  · rw [listAt_of_lookup h.lookup]
  rw [tidyPending_queue]
  exact h.queue

end OpenPending

theorem Sound.demoteAccount (h : Sound p) (hq : p.demoteAccount s addr = some q) : Sound q := by
  unfold TxPool.demoteAccount at hq
  split at hq
  · cases hq
    exact h
  rename_i list hlist
  have hopen : OpenPending p addr list := ⟨h.consistent, h.pending.but addr, h.queue, hlist⟩
  obtain ⟨⟨q', list'⟩, hgap, hq⟩ := map_eq_some_iff.1 hq
  cases hq
  exact (hopen.cleanPending.demoteGapped hgap).tidy

theorem Sound.demoteAccounts {accounts : List Address} (h : Sound p)
    (hq : p.demoteAccounts s accounts = some q) : Sound q := by
  induction accounts generalizing p with
  | nil =>
    cases hq
    exact h
  | cons addr accounts ih =>
    unfold demoteAccounts at hq
    split at hq
    · cases hq
    rename_i p' hp'
    exact ih (h.demoteAccount hp') hq

end Demote

/-! ### Truncation -/

theorem Sound.dropped {p : TxPool} {s : Sched} {addr : Address} {list : TxList} {last : Tx}
    (h : Sound p) (hlist : p.pending.lookup addr = some list)
    (hlast : list.lastElement = some last) (hlen : 2 ≤ list.len) :
    Sound (p.dropped s addr list last) := by
  have happ := TxList.front_append hlast
  have hopen : OpenPending p addr list := ⟨h.consistent, h.pending.but addr, h.queue, hlist⟩
  have hmove : (last ::ₘ 0) + (list.front.txs : Multiset Tx) = list.txs := by
    rw [← happ, add_comm]
    rfl
  have htake : Consistent 0 (last ::ₘ 0) (p.setPending addr list.front) := hopen.take hmove rfl
  refine ⟨htake.forget.congr rfl rfl rfl, (h.pending.but addr).insert ?_, h.queue⟩
  intro hnil
  have hfront := list.front_len
  unfold TxList.len at hfront hlen
  rw [hnil, List.length_nil] at hfront
  omega

/-! ## Runs -/

inductive Call where
  | add (tx : Tx) (loc : Bool)
  | addTxs (txs : List Tx) (loc : Bool)
  | removeTx (hash : Hash) (outofbound : Bool)
  | promoteExecutables (accounts : List Address)
  | demoteUnexecutables
  | truncatePending
  | truncateQueue
  | reset (oldHead newHead : Option Header)
  | runReorg (reset : Option (Option Header × Option Header)) (dirty : Finset Address)
  | evict
  | setGasPrice (price : Int)

structure Event where
  sched : Sched
  chain : BlockChain
  call : Call

def step (p : TxPool) (ev : Event) : Option TxPool :=
  match ev.call with
  | .add tx loc => some (p.add ev.sched tx loc).1
  | .addTxs txs loc => some (p.addTxs ev.sched txs loc).1
  | .removeTx hash outofbound => some (p.removeTx ev.sched hash outofbound)
  | .promoteExecutables accounts => (p.promoteExecutables ev.sched accounts).map Prod.fst
  | .demoteUnexecutables => p.demoteUnexecutables ev.sched
  | .truncatePending => p.truncatePending ev.sched
  | .truncateQueue => p.truncateQueue ev.sched
  | .reset oldHead newHead => p.reset ev.sched ev.chain oldHead newHead
  | .runReorg reset dirty => p.runReorg ev.sched ev.chain reset dirty
  | .evict => some (p.evict ev.sched)
  | .setGasPrice price => some (p.setGasPrice ev.sched price)

def runEvents : TxPool → List Event → Option TxPool
  | p, [] => some p
  | p, ev :: evs =>
    match p.step ev with
    | none => none
    | some p => runEvents p evs

structure Steady (p : TxPool) : Prop where
  sound : Sound p
  accountSlots : 1 ≤ p.config.accountSlots

namespace Steady

variable {p q : TxPool} {s : Sched} {c : BlockChain}

variable (h : Steady p)
include h

theorem of_sound (hq : Sound q) (hhead : SameHead p q) : Steady q :=
  ⟨hq, by rw [hhead.config]; exact h.accountSlots⟩

theorem removeTx (hash : Hash) (outofbound : Bool) : Steady (p.removeTx s hash outofbound) :=
  h.of_sound (h.sound.removeTx hash outofbound) (removeTx_sameHead outofbound)

theorem removeTxs (txs : List Tx) (outofbound : Bool) : Steady (p.removeTxs s txs outofbound) :=
  removeTxs_invariant (fun _ hash hq => hq.removeTx hash outofbound) h txs

theorem addTxsLocked (txs : List Tx) (loc : Bool) : Steady (p.addTxsLocked s txs loc).1 :=
  h.of_sound (h.sound.addTxsLocked txs loc) (addTxsLocked_sameHead txs loc)

theorem promoteExecutables {accounts : List Address} {promoted : List Tx}
    (hq : p.promoteExecutables s accounts = some (q, promoted)) : Steady q :=
  h.of_sound (h.sound.promoteExecutables hq) (promoteExecutables_sameHead s hq)

theorem demoteUnexecutables (hq : p.demoteUnexecutables s = some q) : Steady q :=
  h.of_sound (h.sound.demoteAccounts hq) (demoteAccounts_sameHead s hq)

theorem truncatePending (hq : p.truncatePending s = some q) : Steady q := by
  obtain ⟨q', hq', hsound, hhead⟩ := truncatePending_spec (s := s) (I := Sound)
    (fun _ _ _ _ hp hlist hlast hlen => hp.dropped hlist hlast hlen) h.sound h.accountSlots
  rw [hq] at hq'
  cases hq'
  exact h.of_sound hsound hhead

theorem truncateQueue (hq : p.truncateQueue s = some q) : Steady q := by
  unfold TxPool.truncateQueue at hq
  simp only at hq
  split at hq
  · cases hq
    exact h
  · exact dropQueued_invariant (fun _ hash hp => hp.removeTx hash true) h hq

theorem settle (hq : p.settle s = some q) : Steady q := by
  obtain ⟨p1, hp1, hq⟩ := bind_eq_some_iff.1 hq
  obtain ⟨p2, hp2, hq⟩ := bind_eq_some_iff.1 hq
  have h2 := (h.truncatePending hp1).truncateQueue hp2
  obtain ⟨txn, rfl⟩ := updateNonces_eq hq
  exact ⟨h2.sound.congr rfl rfl rfl, h2.accountSlots⟩

theorem reset {oldHead newHead : Option Header} (hq : p.reset s c oldHead newHead = some q) :
    Steady q := by
  unfold TxPool.reset at hq
  split at hq
  · cases hq
  · cases hq
    exact h
  simp only at hq
  split at hq
  · cases hq
    exact h
  rename_i txs _ _ statedb _
  cases hq
  have hhead : Steady (p.setHead statedb (newHead.getD c.currentBlock.header)) :=
    ⟨h.sound.congr rfl rfl rfl, h.accountSlots⟩
  have hadd := hhead.addTxsLocked (s := s) txs false
  exact ⟨hadd.sound.congr rfl rfl rfl, hadd.accountSlots⟩

theorem runReorg {reset : Option (Option Header × Option Header)} {dirty : Finset Address}
    (hq : p.runReorg s c reset dirty = some q) : Steady q := by
  unfold TxPool.runReorg at hq
  split at hq
  · obtain ⟨p1, hp1, hq⟩ := bind_eq_some_iff.1 hq
    obtain ⟨⟨p2, promoted⟩, hp2, hq⟩ := bind_eq_some_iff.1 hq
    obtain ⟨p3, hp3, hq⟩ := bind_eq_some_iff.1 hq
    exact (((h.reset hp1).promoteExecutables hp2).demoteUnexecutables hp3).settle hq
  obtain ⟨⟨p1, promoted⟩, hp1, hq⟩ := bind_eq_some_iff.1 hq
  exact (h.promoteExecutables hp1).settle hq

theorem step {ev : Event} (hq : p.step ev = some q) : Steady q := by
  unfold TxPool.step at hq
  split at hq
  · rename_i tx loc _
    cases hq
    exact h.of_sound (h.sound.add tx loc) (add_sameHead _)
  · cases hq
    exact h.addTxsLocked _ _
  · cases hq
    exact h.removeTx _ _
  · obtain ⟨⟨q', promoted⟩, hq', hq⟩ := map_eq_some_iff.1 hq
    cases hq
    exact h.promoteExecutables hq'
  · exact h.demoteUnexecutables hq
  · exact h.truncatePending hq
  · exact h.truncateQueue hq
  · exact h.reset hq
  · exact h.runReorg hq
  · cases hq
    exact evict_invariant (fun _ hash hp => hp.removeTx hash true) h
  · cases hq
    refine .removeTxs ?_ _ _
    exact ⟨h.sound.congr rfl rfl rfl, h.accountSlots⟩

theorem runEvents {evs : List Event} (hq : p.runEvents evs = some q) : Steady q := by
  induction evs generalizing p with
  | nil =>
    cases hq
    exact h
  | cons ev evs ih =>
    unfold runEvents at hq
    split at hq
    · cases hq
    rename_i p' hp'
    exact ih (h.step hp') hq

end Steady

theorem newTxPool_steady {config : TxPoolConfig} {chainconfig : ChainConfig}
    {c : BlockChain} {p : TxPool} (h : newTxPool config chainconfig c = some p) : Steady p := by
  obtain ⟨statedb, -, rfl⟩ := map_eq_some_iff.1 h
  refine ⟨⟨⟨rfl, nodup_zero, fun tx htx => ?_, TxLookup.newTxLookup_indexed,
    Owned.empty true, .empty false⟩, fun a l hl => (by cases hl), fun a l hl => (by cases hl)⟩,
    ?_⟩
  · exact absurd htx (notMem_zero tx)
  show 1 ≤ (if config.accountSlots < 1 then defaultTxPoolConfig.accountSlots
    else config.accountSlots)
  split
  · decide
  · omega

structure Indexes (p : TxPool) : Prop where
  /-- The hashes of the lookup are those of the pending lists and of the queues. -/
  hashes_eq : p.all.hashes = (listed p.pending).map (fun tx => tx.hash) +
    (listed p.queue).map fun tx => tx.hash
  /-- No hash occurs twice. -/
  hashes_nodup : p.all.hashes.Nodup
  /-- No nonce of an account is pending and queued. -/
  nonce_ne : ∀ addr list list', p.pending.lookup addr = some list →
    p.queue.lookup addr = some list' → ∀ tx ∈ list.txs, ∀ tx' ∈ list'.txs, tx.nonce ≠ tx'.nonce
  pending_ne_nil : ∀ addr list, p.pending.lookup addr = some list → list.txs ≠ []
  queue_ne_nil : ∀ addr list, p.queue.lookup addr = some list → list.txs ≠ []
  pending_sender : ∀ addr list, p.pending.lookup addr = some list →
    ∀ tx ∈ list.txs, tx.sender = some addr
  queue_sender : ∀ addr list, p.queue.lookup addr = some list →
    ∀ tx ∈ list.txs, tx.sender = some addr
  slots_eq : p.all.slots = ((p.all.txs.map numSlots).sum : Nat)

theorem Sound.indexes {p : TxPool} (h : Sound p) : Indexes p := by
  have hall : p.all.txs = listed p.pending + listed p.queue := by
    have := h.consistent.all_eq
    rwa [add_zero, add_zero] at this
  refine ⟨?_, h.consistent.indexed.nodup_hashes, fun addr list list' hl hl' tx htx tx' htx' => ?_,
    h.pending, h.queue, fun addr list hl => (h.consistent.pending addr list hl).2,
    fun addr list hl => (h.consistent.queue addr list hl).2, h.consistent.indexed.slots_eq⟩
  · rw [← h.consistent.indexed.map_hash, hall, map_add]
  intro hnonce
  have hkeys := h.consistent.keys
  rw [add_zero, listedTxs, map_add] at hkeys
  have hdisj := (nodup_add.1 hkeys).2.2
  have hkey : tx.key = tx'.key := by
    refine Tx.key_eq.2 ⟨?_, hnonce⟩
    rw [Tx.origin_of_sender ((h.consistent.pending addr list hl).2 tx htx),
      Tx.origin_of_sender ((h.consistent.queue addr list' hl').2 tx' htx')]
  refine disjoint_left.1 hdisj (mem_map_of_mem _ (mem_listed.2 ⟨_, _, hl, htx⟩)) ?_
  rw [hkey]
  exact mem_map_of_mem _ (mem_listed.2 ⟨_, _, hl', htx'⟩)

/-- **The indexes of a pool agree after every sequence of calls**, whatever the configuration, the
chain and the orders in which the pool visits its maps. -/
theorem runEvents_indexes (config : TxPoolConfig) (chainconfig : ChainConfig)
    (c : BlockChain) (p₀ p : TxPool) (h₀ : newTxPool config chainconfig c = some p₀)
    (evs : List Event) (h : p₀.runEvents evs = some p) : Indexes p :=
  ((newTxPool_steady h₀).runEvents h).sound.indexes

theorem runEvents_indexes_promoted :
    ∃ p₀ p, newTxPool defaultTxPoolConfig {} richChain = some p₀ ∧
      p₀.runEvents ([.add (pricedTransaction 1 1 0 200 1) true,
        .add (pricedTransaction 2 2 5 200 1) false, .runReorg none {1, 2}].map
          (Event.mk testSched richChain)) = some p ∧ p.Indexes :=
  ⟨_, _, rfl, (some_get (by decide +kernel)).symm,
    runEvents_indexes defaultTxPoolConfig {} richChain _ _ rfl _ (some_get _).symm⟩

end TxPool

end Virbicoin.Core
