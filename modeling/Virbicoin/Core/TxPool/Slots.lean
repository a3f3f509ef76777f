import Virbicoin.Core.TxPool.Index

/-!
# Slots of a pool with remote transactions

A full pool drops cheap transactions until a new one fits. What is dropped frees the slots that are
asked for, because no transaction is twice in the price heap (`Tracks`): the entry of a transaction
that was replaced stays in the heap, but leaves it before the more expensive one that replaced it.

The pool asks whether it is full by the number of its transactions and not by their slots. Where it
takes itself for not full, nothing keeps the slots within the limit (`add_slots_iff`).
-/

namespace Virbicoin.Core

open Lib Multiset

/-! ## Order of the heap -/

theorem priceLess_iff {a b : Tx} :
    priceLess a b = true ↔ a.price < b.price ∨ a.price = b.price ∧ a.nonce > b.nonce := by
  exact decide_eq_true_iff

theorem priceLess_strictWeak : Heap.StrictWeak priceLess where
  asymm {a b} h := by
    rw [priceLess_iff] at h
    rw [← Bool.not_eq_true, priceLess_iff]
    omega
  trans {a b c} h h' := by
    rw [← Bool.not_eq_true, priceLess_iff] at h h' ⊢
    omega

/-- The price heap of a lookup: no entry is there twice, and an entry without its transaction was
replaced by a more expensive one. Transactions are told apart by their hashes. -/
structure Tracks (U : Tx → Prop) (txs : Multiset Tx) (entries : List Tx) : Prop where
  heap : Heap.IsHeap priceLess entries
  nodup : entries.Nodup
  known : ∀ e ∈ entries, U e
  live : ∀ e ∈ entries, e ∈ txs ∨ ∃ w ∈ txs, w.key = e.key ∧ e.price < w.price

namespace Tracks

variable {U : Tx → Prop} {txs txs' : Multiset Tx} {entries rest : List Tx} {tx : Tx}

variable (h : Tracks U txs entries)
include h

theorem pop (hpop : Heap.pop priceLess entries = some (tx, rest)) :
    Tracks U txs rest ∧ U tx ∧ tx ∉ rest ∧ ∀ e ∈ rest, tx.price ≤ e.price := by
  obtain ⟨hroot, hperm⟩ := Heap.pop_perm hpop
  have hnodup := hperm.nodup_iff.1 h.nodup
  rw [List.nodup_cons] at hnodup
  have hsub : ∀ e ∈ rest, e ∈ entries := fun e he => hperm.symm.subset (List.mem_cons_of_mem _ he)
  refine ⟨⟨Heap.pop_heap priceLess_strictWeak h.heap hpop, hnodup.2,
    fun e he => h.known e (hsub e he), fun e he => h.live e (hsub e he)⟩,
    h.known tx (hperm.symm.subset List.mem_cons_self), hnodup.1, fun e he => ?_⟩
  have hmin := h.heap.root priceLess_strictWeak hroot (hsub e he)
  rw [← Bool.not_eq_true, priceLess_iff] at hmin
  omega

theorem push (hU : U tx) (hmem : tx ∈ txs) (hnot : tx ∉ entries) :
    Tracks U txs (Heap.push priceLess entries tx) := by
  have hperm : (Heap.push priceLess entries tx).Perm (tx :: entries) := Heap.push_perm tx
  refine ⟨Heap.push_heap priceLess_strictWeak h.heap tx, ?_, fun e he => ?_, fun e he => ?_⟩
  · rw [hperm.nodup_iff, List.nodup_cons]
    exact ⟨hnot, h.nodup⟩
  · obtain rfl | he := List.mem_cons.1 (hperm.subset he)
    · exact hU
    · exact h.known e he
  obtain rfl | he := List.mem_cons.1 (hperm.subset he)
  · exact .inl hmem
  · exact h.live e he

theorem mono (hle : txs ≤ txs') : Tracks U txs' entries := by
  refine ⟨h.heap, h.nodup, h.known, fun e he => ?_⟩
  obtain he | ⟨w, hw, hkey, hprice⟩ := h.live e he
  · exact .inl (mem_of_le hle he)
  · exact .inr ⟨w, mem_of_le hle hw, hkey, hprice⟩

omit h in
theorem popLive (h : Tracks U (tx ::ₘ txs) entries)
    (hpop : Heap.pop priceLess entries = some (tx, rest)) : Tracks U txs rest := by
  obtain ⟨hrest, -, hnot, hmin⟩ := h.pop hpop
  refine ⟨hrest.heap, hrest.nodup, hrest.known, fun e he => ?_⟩
  obtain hlive | ⟨w, hw, hkey, hprice⟩ := hrest.live e he
  · obtain rfl | hlive := mem_cons.1 hlive
    · exact absurd he hnot
    · exact .inl hlive
  obtain rfl | hw := mem_cons.1 hw
  · exact absurd hprice (not_lt.2 (hmin e he))
  · exact .inr ⟨w, hw, hkey, hprice⟩

theorem mem_of_live (he : tx ∈ entries) (hmem : tx ∈ txs') (hle : txs ≤ txs')
    (hkeys : (txs'.map Tx.key).Nodup) : tx ∈ txs := by
  obtain hlive | ⟨w, hw, hkey, hprice⟩ := h.live tx he
  · exact hlive
  obtain rfl := inj_on_of_nodup_map hkeys w (mem_of_le hle hw) tx hmem hkey
  exact absurd hprice (lt_irrefl _)

theorem exchange {old : Option Tx} (hU : U tx) (hnot : tx ∉ txs) (hsum : txs' + old.toList = txs)
    (hold : ∀ o, old = some o → o.key = tx.key ∧ o.price < tx.price)
    (hkey : ∀ w ∈ txs, w.key = tx.key → old = some w) :
    Tracks U (tx ::ₘ txs') (Heap.push priceLess entries tx) := by
  have hsplit : ∀ t ∈ txs, t ∈ txs' ∨ old = some t := by
    intro t ht
    rw [← hsum] at ht
    obtain ht | ht := mem_add.1 ht
    · exact .inl ht
    · exact .inr (Option.mem_toList.1 ht)
  have hcover : Tracks U (tx ::ₘ txs') entries := by
    refine ⟨h.heap, h.nodup, h.known, fun e he => ?_⟩
    obtain hlive | ⟨w, hw, hwkey, hprice⟩ := h.live e he
    · obtain hlive | hold' := hsplit e hlive
      · exact .inl (mem_cons_of_mem hlive)
      obtain ⟨hkey', hlt⟩ := hold e hold'
      exact .inr ⟨tx, mem_cons_self _ _, hkey'.symm, hlt⟩
    obtain hw | hold' := hsplit w hw
    · exact .inr ⟨w, mem_cons_of_mem hw, hwkey, hprice⟩
    obtain ⟨hkey', hlt⟩ := hold w hold'
    exact .inr ⟨tx, mem_cons_self _ _, hkey'.symm.trans hwkey, hprice.trans hlt⟩
  refine hcover.push hU (mem_cons_self _ _) fun he => ?_
  obtain hlive | ⟨w, hw, hwkey, hprice⟩ := h.live tx he
  · exact hnot hlive
  · exact absurd (hold w (hkey w hw hwkey)).2 (not_lt.2 (le_of_lt hprice))

end Tracks

/-! ## Taking entries off the heap -/

structure RemoteLookup (U : Tx → Prop) (all : TxLookup) : Prop where
  indexed : all.Indexed
  locals : all.locals = ∅
  known : ∀ tx ∈ all.txs, U tx
  keys : (all.txs.map Tx.key).Nodup

section Lookup

variable {U : Tx → Prop} (hU : ∀ {a b : Tx}, U a → U b → a.hash = b.hash → a = b) {all : TxLookup}
  {l l' : TxPricedList} {tx : Tx}

theorem slotsOf_add :
    TxLookup.slotsOf (txs + txs') = TxLookup.slotsOf txs + TxLookup.slotsOf txs' := by
  simp [TxLookup.slotsOf]

theorem reheap_tracks (hidx : all.Indexed) (hknown : ∀ t ∈ all.txs, U t) (visit : Visit Hash) :
    Tracks U all.txs (TxPricedList.reheap visit all).remotes := by
  have hperm : (TxPricedList.reheap visit all).remotes.Perm
      ((visit.order all.remotes.keys).filterMap all.getRemote) := Heap.init_perm _
  have hmem : ∀ e ∈ (TxPricedList.reheap visit all).remotes, e ∈ all.txs := by
    intro e he
    obtain ⟨hash, -, hlook⟩ := List.mem_filterMap.1 (hperm.subset he)
    exact mem_add.2 (.inr (TxLookup.mem_values.2 ⟨hash, hlook⟩))
  refine ⟨Heap.init_heap priceLess_strictWeak _, ?_, fun e he => hknown e (hmem e he),
    fun e he => .inl (hmem e he)⟩
  rw [hperm.nodup_iff]
  refine .filterMap (fun a b t ha hb => ?_) (visit.nodup _)
  exact (hidx.remotes ha).symm.trans (hidx.remotes hb)

include hU

theorem RemoteLookup.mem_of_getRemote (h : RemoteLookup U all) (htx : U tx)
    (hremote : (all.getRemote tx.hash).isSome) : tx ∈ all.txs := by
  obtain ⟨t, ht⟩ := Option.isSome_iff_exists.1 hremote
  have hmem : t ∈ all.txs := mem_add.2 (.inr (TxLookup.mem_values.2 ⟨_, ht⟩))
  have heq := hU (h.known t hmem) htx (h.indexed.remotes ht)
  rwa [heq] at hmem

omit hU in
theorem popStales_tracks {fuel : Nat} (h : Tracks U all.txs l.remotes) :
    Tracks U all.txs (TxPricedList.popStales all fuel l).remotes := by
  induction fuel generalizing l with
  | zero => exact h
  | succ fuel ih =>
    unfold TxPricedList.popStales
    split
    · exact h
    rename_i head rest hpop
    split
    · exact ih (l := l.popStale rest) (h.pop hpop).1
    · exact h

theorem discardLoop_tracks (hall : RemoteLookup U all) {fuel : Nat} {slots : Int} {drop : List Tx}
    {txs : Multiset Tx} (h : Tracks U txs l.remotes) (hsum : txs + drop = all.txs) :
    ∃ txs', Tracks U txs' (TxPricedList.discardLoop all fuel l slots drop).2.2.remotes ∧
      txs' + (TxPricedList.discardLoop all fuel l slots drop).1 = all.txs ∧
      (TxPricedList.discardLoop all fuel l slots drop).2.1 +
        TxLookup.slotsOf (TxPricedList.discardLoop all fuel l slots drop).1 =
          slots + TxLookup.slotsOf drop := by
  induction fuel generalizing l slots drop txs with
  | zero => exact ⟨txs, h, hsum, rfl⟩
  | succ fuel ih =>
    unfold TxPricedList.discardLoop
    split
    · exact ⟨txs, h, hsum, rfl⟩
    split
    · exact ⟨txs, h, hsum, rfl⟩
    rename_i tx rest hpop
    obtain ⟨hrest, htx, -⟩ := h.pop hpop
    split
    · exact ih (l := l.popStale rest) hrest hsum
    rename_i hremote
    rw [Bool.not_eq_true, Option.isNone_eq_false_iff] at hremote
    have hle : txs ≤ all.txs := by
      rw [← hsum]
      exact le_add_right _ _
    have hmem : tx ∈ txs := h.mem_of_live ((Heap.pop_perm hpop).2.symm.subset List.mem_cons_self)
      (hall.mem_of_getRemote hU htx hremote) hle hall.keys
    obtain ⟨txs', rfl⟩ := exists_cons_of_mem hmem
    have hsum' : txs' + ((drop ++ [tx] : List Tx) : Multiset Tx) = all.txs := by
      rw [← hsum, ← coe_add, cons_add, ← add_assoc]
      exact add_comm _ _
    obtain ⟨txs'', htracks, hsum'', hslots⟩ :=
      @ih (l.popDrop rest) (slots - numSlots tx) (drop ++ [tx]) txs' (h.popLive hpop) hsum'
    refine ⟨txs'', htracks, hsum'', hslots.trans ?_⟩
    rw [← coe_add, slotsOf_add]
    have hone : TxLookup.slotsOf {tx} = numSlots tx := by simp [TxLookup.slotsOf]
    push_cast
    omega

omit hU in
theorem pushAll_tracks (hall : RemoteLookup U all) {drop : List Tx} {entries : List Tx}
    (h : Tracks U all.txs entries) (hmem : ∀ t ∈ drop, t ∈ all.txs) (hnodup : drop.Nodup)
    (hdisj : ∀ t ∈ drop, t ∉ entries) :
    Tracks U all.txs (drop.foldl (Heap.push priceLess) entries) := by
  induction drop generalizing entries with
  | nil => exact h
  | cons tx drop ih =>
    obtain ⟨hnot, hnodup⟩ := List.nodup_cons.1 hnodup
    have htx := hmem tx List.mem_cons_self
    refine ih (h.push (hall.known tx htx) htx (hdisj tx List.mem_cons_self))
      (fun t ht => hmem t (List.mem_cons_of_mem _ ht)) hnodup fun t ht hpush => ?_
    obtain rfl | hin := List.mem_cons.1 ((Heap.push_perm _).subset hpush)
    · exact hnot ht
    · exact hdisj t (List.mem_cons_of_mem _ ht) hin

theorem discard_tracks (hall : RemoteLookup U all) (h : Tracks U all.txs l.remotes) {slots : Int}
    {drop : Option (List Tx)} (hd : l.discard all slots false = (drop, l')) :
    drop = none ∧ Tracks U all.txs l'.remotes ∨
    ∃ d txs', drop = some d ∧ Tracks U txs' l'.remotes ∧ txs' + d = all.txs ∧
      slots ≤ TxLookup.slotsOf d := by
  have hloop := @discardLoop_tracks U @hU all l hall l.remotes.length slots [] all.txs h
    (add_zero _)
  unfold TxPricedList.discard at hd
  generalize TxPricedList.discardLoop all l.remotes.length l slots [] = r at hd hloop
  obtain ⟨drop', slots', l''⟩ := r
  obtain ⟨txs', htracks, hsum, hslots⟩ := hloop
  simp only at hd htracks hsum hslots
  have hle : txs' ≤ all.txs := by
    rw [← hsum]
    exact le_add_right _ _
  split at hd
  · cases hd
    have hnodup := Multiset.Nodup.of_map _ hall.keys
    rw [← hsum] at hnodup
    obtain ⟨-, hdrop, hdisj⟩ := nodup_add.1 hnodup
    refine .inl ⟨rfl, pushAll_tracks hall (htracks.mono hle) (fun t ht => ?_)
      (coe_nodup.1 hdrop) fun t ht hin => ?_⟩
    · rw [← hsum]
      exact mem_add.2 (.inr ht)
    have htxs : t ∈ all.txs := by
      rw [← hsum]
      exact mem_add.2 (.inr ht)
    exact disjoint_left.1 hdisj (htracks.mem_of_live hin htxs hle hall.keys) ht
  rename_i hdone
  cases hd
  refine .inr ⟨drop', txs', rfl, htracks, hsum, ?_⟩
  have hle' : slots' ≤ 0 := by
    by_contra hpos
    exact hdone ⟨not_le.1 hpos, trivial⟩
  omega

end Lookup

/-! ## Pools with remote transactions -/

namespace TxPool

structure RemotePool (U : Tx → Prop) (p : TxPool) : Prop where
  sound : Sound p
  locals : p.locals = ∅
  pending : p.pending = ∅
  allLocals : p.all.locals = ∅
  known : ∀ tx ∈ p.all.txs, U tx
  tracks : Tracks U p.all.txs p.priced.remotes

section Remote

variable {U : Tx → Prop} (hU : ∀ {a b : Tx}, U a → U b → a.hash = b.hash → a = b) {p q : TxPool}
  {s : Sched} {tx : Tx}

theorem Sound.keys (h : Sound p) : (p.all.txs.map Tx.key).Nodup := by
  have hall := h.consistent.all_eq
  rw [add_zero] at hall
  rw [hall]
  exact h.consistent.keys

theorem RemotePool.lookup (h : RemotePool U p) : RemoteLookup U p.all :=
  ⟨h.sound.consistent.indexed, h.allLocals, h.known, h.sound.keys⟩

theorem RemotePool.setPriced (h : RemotePool U p) {l : TxPricedList}
    (hl : Tracks U p.all.txs l.remotes) : RemotePool U (p.setPriced l) :=
  ⟨h.sound.congr rfl rfl rfl, h.locals, h.pending, h.allLocals, h.known, hl⟩

theorem unlistTx_of_empty (hp : p.pending = ∅) :
    (p.unlistTx s tx).all = p.all ∧ (p.unlistTx s tx).pending = ∅ ∧
      (p.unlistTx s tx).priced = p.priced ∧ (p.unlistTx s tx).locals = p.locals := by
  have hnone : (p.pending.lookup tx.origin).bind (TxList.remove · tx) = none := by
    rw [hp]
    rfl
  unfold unlistTx
  simp only [hnone]
  split
  · exact ⟨rfl, hp, rfl, rfl⟩
  unfold tidyQueue
  split <;> exact ⟨rfl, hp, rfl, rfl⟩

theorem removeTx_of_empty (hp : p.pending = ∅) (hash : Hash) :
    (p.removeTx s hash false).all = p.all.remove hash ∧ (p.removeTx s hash false).pending = ∅ ∧
      (p.removeTx s hash false).priced = p.priced ∧
      (p.removeTx s hash false).locals = p.locals := by
  unfold removeTx
  split
  · rename_i hnone
    refine ⟨?_, hp, rfl, rfl⟩
    unfold TxLookup.remove
    rw [hnone]
  · exact unlistTx_of_empty (p := p.forgetHash hash) hp

theorem removeTxs_of_empty {drop : List Tx} {txs : Multiset Tx} (h : Sound p) (hp : p.pending = ∅)
    (hl : p.all.locals = ∅) (hsum : txs + drop = p.all.txs) :
    (p.removeTxs s drop false).all.txs = txs ∧ (p.removeTxs s drop false).all.locals = ∅ ∧
      (p.removeTxs s drop false).pending = ∅ ∧ (p.removeTxs s drop false).priced = p.priced ∧
      (p.removeTxs s drop false).locals = p.locals := by
  induction drop generalizing p with
  | nil => exact ⟨hsum.symm.trans (add_zero _), hl, hp, rfl, rfl⟩
  | cons tx drop ih =>
    obtain ⟨hall, hp', hpriced, hlocals⟩ := removeTx_of_empty (s := s) hp tx.hash
    have hmem : tx ∈ p.all.txs := by
      rw [← hsum]
      simp
    have hget := h.consistent.indexed.get_of_mem hmem
    have hsum' : txs + (drop : Multiset Tx) = (p.removeTx s tx.hash false).all.txs := by
      rw [hall]
      have hrem := h.consistent.indexed.remove_txs hget
      rw [← hsum, ← cons_coe, add_cons] at hrem
      exact ((cons_inj_right tx).1 hrem).symm
    have hl' : (p.removeTx s tx.hash false).all.locals = ∅ := by
      rw [hall, TxLookup.remove_eq hget, hl]
      rfl
    obtain ⟨h1, h2, h3, h4, h5⟩ := ih (h.removeTx tx.hash false) hp' hl' hsum'
    exact ⟨h1, h2, h3, h4.trans hpriced, h5.trans hlocals⟩

theorem containsTx_empty : containsTx ∅ tx = false := by
  unfold containsTx
  cases tx.sender <;> rfl

include hU in
theorem RemotePool.discardFor (h : RemotePool U p) (tx : Tx) :
    RemotePool U (p.discardFor s tx false).1 ∧ ((p.discardFor s tx false).2.isSome →
        (p.discardFor s tx false).1.all.slots + numSlots tx ≤ toInt64 p.config.capacity) := by
  have hslots := h.sound.consistent.indexed.slots_eq
  cases hd : p.priced.discard p.all (p.all.slots - toInt64 p.config.capacity + numSlots tx)
      false with
  | mk drop priced =>
    unfold TxPool.discardFor
    rw [hd]
    obtain ⟨rfl, htracks⟩ | ⟨d, txs, rfl, htracks, hsum, hfree⟩ :=
      discard_tracks hU h.lookup h.tracks hd
    · exact ⟨h.setPriced htracks, nofun⟩
    have hsound : Sound (p.setPriced priced) := h.sound.congr rfl rfl rfl
    obtain ⟨hall, hl, hp, hpriced, hlocals⟩ : _ ∧ _ ∧ _ ∧ _ ∧ _ :=
      removeTxs_of_empty (p := p.setPriced priced) (s := s) hsound h.pending h.allLocals hsum
    have hle : txs ≤ p.all.txs := by
      rw [← hsum]
      exact le_add_right _ _
    have hrem := hsound.removeTxs (s := s) d false
    refine ⟨⟨hrem, hlocals.trans h.locals, hp, hl, fun t ht => ?_, ?_⟩, fun _ => ?_⟩
    · exact h.known t (mem_of_le hle (hall ▸ ht))
    · rw [hall, hpriced]
      exact htracks
    rw [hrem.consistent.indexed.slots_eq, hall]
    rw [← hsum, slotsOf_add] at hslots
    omega

include hU in
theorem RemotePool.makeRoom (h : RemotePool U p) (tx : Tx) :
    RemotePool U (p.makeRoom s tx false).1 ∧ ∀ drop, (p.makeRoom s tx false).2 = .ok drop →
        p.config.capacity < p.all.count + numSlots tx →
        (p.makeRoom s tx false).1.all.slots + numSlots tx ≤ toInt64 p.config.capacity := by
  unfold TxPool.makeRoom
  split
  · have hstales : Tracks U p.all.txs (p.priced.underpriced p.all tx).2.remotes :=
      popStales_tracks h.tracks
    simp only [Bool.false_eq_true, if_false]
    split
    · rename_i priced hunder
      rw [hunder] at hstales
      exact ⟨h.setPriced hstales, fun drop hd => by cases hd⟩
    rename_i priced hunder
    rw [hunder] at hstales
    have hdiscard := (h.setPriced hstales).discardFor hU (s := s) tx
    split
    · rename_i hd
      rw [hd] at hdiscard
      exact ⟨hdiscard.1, fun drop hd => by cases hd⟩
    rename_i hd
    rw [hd] at hdiscard
    exact ⟨hdiscard.1, fun _ _ _ => hdiscard.2 rfl⟩
  rename_i hfull
  exact ⟨h, fun _ _ hfull' => absurd hfull' hfull⟩

def holder (p : TxPool) (tx : Tx) : Option Tx := (p.queueOf tx.origin).get tx.nonce

theorem insertTx_of_empty (hp : p.pending = ∅) :
    p.insertTx s tx false false = p.enqueueTx s tx false true := by
  have hnone : (p.pending.lookup tx.origin).filter (fun list => list.overlaps tx) = none := by
    rw [hp]
    rfl
  unfold insertTx
  simp only [hnone]
  cases p.enqueueTx s tx false true with
  | mk q r => cases r <;> rfl

theorem RemotePool.holder_iff (h : RemotePool U p) {t : Tx} :
    p.holder tx = some t ↔ t ∈ p.all.txs ∧ t.key = tx.key := by
  have hall : p.all.txs = listed p.queue := by
    have := h.sound.consistent.all_eq
    rw [add_zero, add_zero, listedTxs, h.pending] at this
    exact this.trans (zero_add _)
  rw [hall]
  unfold holder
  rw [TxList.get_eq_some]
  constructor
  · rintro ⟨hmem, hnonce⟩
    obtain ⟨hsend, hlisted⟩ := (h.sound.consistent.queue.getD tx.origin).2 t hmem
    exact ⟨hlisted, Tx.key_eq.2 ⟨Tx.origin_of_sender hsend, hnonce⟩⟩
  rintro ⟨hmem, hkey⟩
  obtain ⟨horigin, hnonce⟩ := Tx.key_eq.1 hkey
  obtain ⟨list, hlist, hin⟩ := h.sound.consistent.queue.lookup_of_mem hmem
  rw [horigin] at hlist
  unfold queueOf
  rw [hlist]
  exact ⟨hin, hnonce⟩

theorem forgetOld_remotes (old : Option Tx) :
    (p.forgetOld s old).priced.remotes = p.priced.remotes ∨
      (p.forgetOld s old).priced = TxPricedList.reheap s.hashes (p.forgetOld s old).all := by
  cases old with
  | none => exact .inl rfl
  | some o =>
    show (p.priced.removed s.hashes (p.all.remove o.hash) 1).remotes = _ ∨
      p.priced.removed s.hashes (p.all.remove o.hash) 1 = _
    unfold TxPricedList.removed
    split
    · exact .inl rfl
    · exact .inr rfl

theorem touch_locals {addr : Address} : (p.touch s addr).locals = p.locals := by
  unfold touch
  split <;> rfl

theorem RemotePool.enqueueTx (h : RemotePool U p) (htx : U tx) (hnew : p.all.get tx.hash = none)
    (hsound : Sound (p.enqueueTx s tx false true).1) :
    RemotePool U (p.enqueueTx s tx false true).1 ∧ ∀ r, (p.enqueueTx s tx false true).2 = .ok r →
        (p.enqueueTx s tx false true).1.all.slots + (p.holder tx).elim 0 numSlots =
          p.all.slots + numSlots tx := by
  have hidx := h.sound.consistent.indexed
  unfold TxPool.enqueueTx at hsound ⊢
  cases hadd : (p.queueOf tx.origin).add tx p.config.priceBump with
  | none =>
    rw [hadd] at hsound
    exact ⟨⟨hsound, h.locals, h.pending, h.allLocals, h.known, h.tracks⟩, fun r hr => by cases hr⟩
  | some r =>
    obtain ⟨list, old⟩ := r
    rw [hadd] at hsound
    obtain ⟨rfl, hold, hprice⟩ := TxList.add_eq_some hadd
    have hholder : p.holder tx = old := hold.symm
    obtain ⟨hmid, hsum, hlost⟩ := hidx.removeOld fun o ho => (h.holder_iff.1 (hholder.trans ho)).1
    have hnone := hlost tx.hash hnew
    have hgone : ∀ w ∈ (old.elim p.all fun o => p.all.remove o.hash).txs, w.key ≠ tx.key := by
      intro w hw hkey
      have hmem : w ∈ p.all.txs := by
        rw [← hsum]
        exact mem_add.2 (.inl hw)
      have hw' : old = some w := hholder.symm.trans (h.holder_iff.2 ⟨hmem, hkey⟩)
      have hnodup := Multiset.Nodup.of_map _ h.sound.keys
      rw [← hsum] at hnodup
      refine disjoint_left.1 (nodup_add.1 hnodup).2.2 hw ?_
      rw [hw']
      exact mem_singleton_self w
    have hfresh : ∀ {t : TxLookup}, t.Indexed → t.get tx.hash = none → tx ∉ t.txs :=
      fun ht hget hmem => by
        rw [ht.get_of_mem hmem] at hget
        cases hget
    have hall : ((((p.setQueue tx.origin ((p.queueOf tx.origin).put tx)).forgetOld s old).recordIf
        true tx false).touch s tx.origin).all =
          (old.elim p.all fun o => p.all.remove o.hash).add tx false := by
      rw [touch_all]
      exact congrArg (TxLookup.add · tx false) (forgetOld_all _ _ _)
    have htxs := TxLookup.add_txs hnone false
    refine ⟨⟨hsound, ?_, ?_, ?_, ?_, ?_⟩, fun _ _ => ?_⟩
    · rw [touch_locals]
      refine .trans ?_ h.locals
      cases old <;> rfl
    · rw [touch_pending]
      refine .trans ?_ h.pending
      cases old <;> rfl
    · rw [hall]
      cases old with
      | none => exact h.allLocals
      | some o =>
        show (p.all.remove o.hash).locals = ∅
        rw [TxLookup.remove_eq (hidx.get_of_mem (h.holder_iff.1 hholder).1), h.allLocals]
        rfl
    · rw [hall, htxs]
      intro t ht
      obtain rfl | ht := mem_cons.1 ht
      · exact htx
      refine h.known t ?_
      rw [← hsum]
      exact mem_add.2 (.inl ht)
    · rw [hall, htxs, touch_priced]
      show Tracks U _ (Heap.push priceLess (forgetOld s _ old).priced.remotes tx)
      obtain hsame | hheap := forgetOld_remotes old
      · rw [hsame]
        refine h.tracks.exchange htx (hfresh hidx hnew) hsum
          (fun o ho => ⟨(h.holder_iff.1 (hholder.trans ho)).2, hprice o ho⟩) fun w hw hkey => ?_
        exact hholder.symm.trans (h.holder_iff.2 ⟨hw, hkey⟩)
      rw [hheap, forgetOld_all]
      have hknown : ∀ t ∈ (old.elim p.all fun o => p.all.remove o.hash).txs, U t := by
        intro t ht
        refine h.known t ?_
        rw [← hsum]
        exact mem_add.2 (.inl ht)
      have hnothing : (old.elim p.all fun o => p.all.remove o.hash).txs +
          (none : Option Tx).toList = (old.elim p.all fun o => p.all.remove o.hash).txs :=
        add_zero _
      exact (reheap_tracks hmid hknown _).exchange htx (hfresh hmid hnone) hnothing
        (fun o ho => by cases ho) fun w hw hkey => absurd hkey (hgone w hw)
    · have hslots := hsound.consistent.indexed.slots_eq
      rw [hall] at hslots ⊢
      rw [htxs, TxLookup.slotsOf_cons] at hslots
      have hbefore := hidx.slots_eq
      rw [← hsum, slotsOf_add] at hbefore
      have hold' : TxLookup.slotsOf (old.toList : Multiset Tx) = old.elim 0 numSlots := by
        cases old with
        | none => rfl
        | some o => simp [TxLookup.slotsOf]
      rw [hslots, hbefore, hold', hholder]
      cases old <;> simp <;> omega

def slotLimit (p : TxPool) : Int := p.config.globalSlots + p.config.globalQueue

include hU in
theorem RemotePool.add (h : RemotePool U p) (htx : U tx) :
    RemotePool U (p.add s tx false).1 ∧ ∀ r, (p.add s tx false).2 = .ok r →
      (p.config.capacity < p.all.count + numSlots tx →
        (p.add s tx false).1.all.slots ≤ p.slotLimit) ∧
      (p.all.count + numSlots tx ≤ p.config.capacity →
        (p.add s tx false).1.all.slots + (p.holder tx).elim 0 numSlots =
          p.all.slots + numSlots tx) := by
  have hlocal : (false || containsTx p.locals tx) = false := by
    rw [h.locals, containsTx_empty]
    rfl
  have hsound := h.sound.add (s := s) tx false
  obtain ⟨hroom, hfree⟩ := h.makeRoom hU (s := s) tx
  have hcases := makeRoom_cases s p tx false
  unfold TxPool.add at hsound ⊢
  simp only [hlocal] at hsound ⊢
  split
  · exact ⟨h, fun r hr => by cases hr⟩
  rename_i hknown
  rw [if_neg hknown] at hsound
  rw [Bool.not_eq_true, Option.isSome_eq_false_iff, Option.isNone_iff_eq_none] at hknown
  cases hv : p.validateTx tx false with
  | error e => exact ⟨h, fun r hr => by cases hr⟩
  | ok u =>
    rw [hv] at hsound
    obtain ⟨priced, e, hm, -⟩ | ⟨priced, drop, hm, -⟩ := hcases
    · simp only [hm] at hroom ⊢
      exact ⟨hroom, fun r hr => by cases hr⟩
    simp only [hm] at hroom hfree hsound ⊢
    have hnew : ((p.setPriced priced).removeTxs s drop false).all.get tx.hash = none :=
      Lost.removeTxs (p := p.setPriced priced) hknown drop false
    rw [insertTx_of_empty hroom.pending] at hsound ⊢
    obtain ⟨henq, hslots⟩ := hroom.enqueueTx htx hnew hsound
    refine ⟨henq, fun r hr => ⟨fun hfull => ?_, fun hnot => ?_⟩⟩
    · have hlimit : toInt64 p.config.capacity ≤ p.slotLimit := by
        unfold toInt64 slotLimit TxPoolConfig.capacity
        split <;> omega
      have := hslots r hr
      have := hfree drop rfl hfull
      omega
    -- a pool that is not full stays as it is until the transaction is queued
    have hsame : p.makeRoom s tx false = (p, .ok []) := by
      unfold TxPool.makeRoom
      rw [if_neg (Nat.not_lt.2 hnot)]
    rw [hsame] at hm
    have hpool := congrArg Prod.fst hm
    simp only at hpool
    rw [← hpool] at hslots hr ⊢
    exact hslots r hr

/-! ## Runs -/

def addRemotesRun (p : TxPool) (run : List (Sched × Tx)) : TxPool :=
  run.foldl (fun p x => (p.add x.1 x.2 false).1) p

include hU in
theorem RemotePool.addRemotesRun (h : RemotePool U p) {run : List (Sched × Tx)}
    (hrun : ∀ x ∈ run, U x.2) : RemotePool U (p.addRemotesRun run) := by
  induction run generalizing p with
  | nil => exact h
  | cons x run ih =>
    exact ih (h.add hU (hrun x List.mem_cons_self)).1 fun y hy => hrun y (List.mem_cons_of_mem _ hy)

theorem addRemotesRun_sameHead (p : TxPool) (run : List (Sched × Tx)) :
    SameHead p (p.addRemotesRun run) := by
  induction run generalizing p with
  | nil => exact .refl p
  | cons x run ih => exact (add_sameHead false).trans (ih _)

theorem newTxPool_remotePool {config : TxPoolConfig} {chainconfig : ChainConfig} {c : BlockChain}
    (hno : config.locals = []) (h : newTxPool config chainconfig c = some p) : RemotePool U p := by
  have hsteady := (newTxPool_steady h).sound
  obtain ⟨statedb, -, rfl⟩ := Option.map_eq_some_iff.1 h
  refine ⟨hsteady, ?_, rfl, rfl, fun tx htx => absurd htx (notMem_zero tx),
    ⟨Heap.init_heap priceLess_strictWeak [], List.nodup_nil, fun e he => (by cases he),
      fun e he => (by cases he)⟩⟩
  show config.locals.toFinset = ∅
  rw [hno]
  rfl

end Remote

/-- **A pool to which remote transactions are added is within its limit of slots exactly if it was
full by the number of its transactions, or if the transaction fits in the place of the one that it
replaces.** -/
theorem add_slots_iff (config : TxPoolConfig) (chainconfig : ChainConfig) (c : BlockChain)
    (p₀ : TxPool) (hno : config.locals = []) (h₀ : newTxPool config chainconfig c = some p₀)
    (run : List (Sched × Tx)) (s : Sched) (tx : Tx)
    (hhash : ∀ a ∈ tx :: run.map Prod.snd, ∀ b ∈ tx :: run.map Prod.snd, a.hash = b.hash → a = b)
    (replaced : Bool) (hok : ((p₀.addRemotesRun run).add s tx false).2 = .ok replaced) :
    ((p₀.addRemotesRun run).add s tx false).1.all.slots ≤ p₀.slotLimit ↔
      p₀.config.capacity < (p₀.addRemotesRun run).all.count + numSlots tx ∨
      (p₀.addRemotesRun run).all.slots + numSlots tx ≤
        p₀.slotLimit + ((p₀.addRemotesRun run).holder tx).elim 0 numSlots := by
  have hU : ∀ {a b : Tx}, a ∈ tx :: run.map Prod.snd → b ∈ tx :: run.map Prod.snd →
      a.hash = b.hash → a = b := fun {a b} ha hb => hhash a ha b hb
  have hpool : RemotePool (· ∈ tx :: run.map Prod.snd) (p₀.addRemotesRun run) :=
    (newTxPool_remotePool hno h₀).addRemotesRun hU fun x hx =>
      List.mem_cons_of_mem _ (List.mem_map_of_mem hx)
  have hconfig : (p₀.addRemotesRun run).config = p₀.config :=
    (addRemotesRun_sameHead p₀ run).config
  have hlimit : (p₀.addRemotesRun run).slotLimit = p₀.slotLimit := by
    unfold slotLimit
    rw [hconfig]
  obtain ⟨hfull, hfree⟩ := (hpool.add hU (s := s) List.mem_cons_self).2 replaced hok
  rw [hconfig, hlimit] at hfull
  rw [hconfig] at hfree
  by_cases h : p₀.config.capacity < (p₀.addRemotesRun run).all.count + numSlots tx
  · exact ⟨fun _ => .inl h, fun _ => hfull h⟩
  constructor
  · intro hle
    exact .inr (by omega)
  rintro (hlt | hle)
  · exact absurd hlt h
  · omega

end TxPool

/-! ## A pool above its limit -/

theorem add_slots_small :
    ∃ p₀, newTxPool defaultTxPoolConfig {} richChain = some p₀ ∧
      (p₀.add testSched (pricedTransaction 1 1 0 200 1) false).1.all.slots ≤ p₀.slotLimit :=
  ⟨_, rfl, (TxPool.add_slots_iff defaultTxPoolConfig {} richChain _ rfl rfl [] testSched
    (pricedTransaction 1 1 0 200 1)
    (fun a ha b hb _ => (mem_singleton.1 ha).trans (mem_singleton.1 hb).symm) false
    (by decide +kernel)).2 (.inr (by decide +kernel))⟩

/-- A pool for two slots takes a transaction of two slots, and then another one, since it has only
one transaction so far. -/
theorem add_exceeds_slots :
    ∃ p₀, newTxPool { defaultTxPoolConfig with globalSlots := 1, globalQueue := 1 } {} richChain =
        some p₀ ∧
      let p := p₀.addRemotesRun [(testSched, pricedTransaction 1 1 0 40000 1)]
      let r := p.add testSched (pricedTransaction 2 2 0 200 1) false
      r.2 = .ok false ∧ p₀.slotLimit < r.1.all.slots :=
  ⟨_, rfl, by decide +kernel⟩

end Virbicoin.Core
