import Virbicoin.Core.TxPool.Lookup
import Virbicoin.Core.TxPool.Pool

/-!
# What the functions of a pool leave alone

Facts that hold in every pool, whatever its lists and its lookup have. Removals never bring a hash
back to the lookup (`Lost`), no list becomes empty without leaving its map (`Filled`), and only
`reset` changes the state on which the pool stands (`SameHead`).
-/

namespace Virbicoin.Core

open Lib

def Filled (m : Finmap fun _ : Address => TxList) : Prop :=
  ∀ addr list, m.lookup addr = some list → list.txs ≠ []

def FilledBut (addr : Address) (m : Finmap fun _ : Address => TxList) : Prop :=
  ∀ a list, a ≠ addr → m.lookup a = some list → list.txs ≠ []

section Filled

variable {m : Finmap fun _ : Address => TxList} {addr : Address} {list : TxList}

theorem Filled.but (h : Filled m) (addr : Address) : FilledBut addr m := fun a l _ => h a l

theorem FilledBut.insert (h : FilledBut addr m) (hlist : list.txs ≠ []) :
    Filled (m.insert addr list) := by
  intro a l hl
  by_cases ha : a = addr
  · subst ha
    rw [Finmap.lookup_insert] at hl
    cases hl
    exact hlist
  rw [Finmap.lookup_insert_of_ne _ ha] at hl
  exact h a l ha hl

theorem FilledBut.insert_any (h : FilledBut addr m) (list : TxList) :
    FilledBut addr (m.insert addr list) := by
  intro a l ha hl
  rw [Finmap.lookup_insert_of_ne _ ha] at hl
  exact h a l ha hl

theorem FilledBut.erase (h : FilledBut addr m) : Filled (m.erase addr) := by
  intro a l hl
  by_cases ha : a = addr
  · rw [ha, Finmap.lookup_erase] at hl
    cases hl
  · rw [Finmap.lookup_erase_ne ha] at hl
    exact h a l ha hl

theorem TxList.put_ne_nil : (list.put tx).txs ≠ [] :=
  List.ne_nil_of_mem (TxList.mem_putTx.2 (.inl rfl))

end Filled

namespace TxPool

structure SameHead (p q : TxPool) : Prop where
  config : q.config = p.config
  currentState : q.currentState = p.currentState
  currentMaxGas : q.currentMaxGas = p.currentMaxGas

namespace SameHead

variable {p q r : TxPool}

theorem refl (p : TxPool) : SameHead p p := ⟨rfl, rfl, rfl⟩

theorem trans (h : SameHead p q) (h' : SameHead q r) : SameHead p r :=
  ⟨h'.1.trans h.1, h'.2.trans h.2, h'.3.trans h.3⟩

end SameHead

section Parts

variable (s : Sched) (p : TxPool) (tx : Tx) (addr : Address) (list : TxList)

@[simp] theorem touch_all : (p.touch s addr).all = p.all := by
  unfold touch
  split <;> rfl

@[simp] theorem touch_pending : (p.touch s addr).pending = p.pending := by
  unfold touch
  split <;> rfl

@[simp] theorem touch_queue : (p.touch s addr).queue = p.queue := by
  unfold touch
  split <;> rfl

theorem touch_priced : (p.touch s addr).priced = p.priced := by
  unfold touch
  split <;> rfl

theorem touch_sameHead : SameHead p (p.touch s addr) := by
  unfold touch
  split <;> exact ⟨rfl, rfl, rfl⟩

theorem forgetOld_all (old : Option Tx) :
    (p.forgetOld s old).all = old.elim p.all fun o => p.all.remove o.hash := by
  cases old <;> rfl

@[simp] theorem forgetOld_pending (old : Option Tx) : (p.forgetOld s old).pending = p.pending := by
  cases old <;> rfl

@[simp] theorem forgetOld_queue (old : Option Tx) : (p.forgetOld s old).queue = p.queue := by
  cases old <;> rfl

theorem forgetOld_sameHead (old : Option Tx) : SameHead p (p.forgetOld s old) := by
  cases old <;> exact ⟨rfl, rfl, rfl⟩

theorem recordIf_pending : (p.recordIf addAll tx loc).pending = p.pending := by cases addAll <;> rfl

theorem recordIf_queue : (p.recordIf addAll tx loc).queue = p.queue := by cases addAll <;> rfl

theorem recordIf_sameHead : SameHead p (p.recordIf addAll tx loc) := by
  cases addAll <;> exact ⟨rfl, rfl, rfl⟩

theorem tidyPending_all : (p.tidyPending addr list).all = p.all := by
  unfold tidyPending
  split <;> rfl

theorem tidyPending_queue : (p.tidyPending addr list).queue = p.queue := by
  unfold tidyPending
  split <;> rfl

theorem tidyPending_sameHead : SameHead p (p.tidyPending addr list) := by
  unfold tidyPending
  split <;> exact ⟨rfl, rfl, rfl⟩

theorem tidyQueue_all : (p.tidyQueue addr list).all = p.all := by
  unfold tidyQueue
  split <;> rfl

theorem tidyQueue_pending : (p.tidyQueue addr list).pending = p.pending := by
  unfold tidyQueue
  split <;> rfl

theorem tidyQueue_sameHead : SameHead p (p.tidyQueue addr list) := by
  unfold tidyQueue
  split <;> exact ⟨rfl, rfl, rfl⟩

theorem tidyPending_filled (h : FilledBut addr p.pending) :
    Filled (p.tidyPending addr list).pending := by
  unfold tidyPending
  split
  · exact h.erase
  rename_i hempty
  rw [TxList.empty_iff] at hempty
  exact h.insert hempty

theorem tidyQueue_filled (h : FilledBut addr p.queue) : Filled (p.tidyQueue addr list).queue := by
  unfold tidyQueue
  split
  · exact h.erase
  rename_i hempty
  rw [TxList.empty_iff] at hempty
  exact h.insert hempty

end Parts

/-! ## Queueing -/

section Enqueue

variable (s : Sched) (p : TxPool) (tx : Tx) (loc addAll : Bool)

@[simp] theorem enqueueTx_pending : (p.enqueueTx s tx loc addAll).1.pending = p.pending := by
  unfold enqueueTx
  split
  · rfl
  rw [touch_pending, recordIf_pending, forgetOld_pending]
  rfl

theorem enqueueTx_sameHead : SameHead p (p.enqueueTx s tx loc addAll).1 := by
  unfold enqueueTx
  split
  · exact ⟨rfl, rfl, rfl⟩
  refine .trans ?_ (touch_sameHead _ _ _)
  refine .trans ?_ (recordIf_sameHead _ _)
  exact .trans (q := p.setQueue tx.origin _) ⟨rfl, rfl, rfl⟩ (forgetOld_sameHead _ _ _)

theorem enqueueTx_filled (h : Filled p.queue) : Filled (p.enqueueTx s tx loc addAll).1.queue := by
  unfold enqueueTx
  split
  · rename_i hadd
    obtain ⟨old, hold⟩ := TxList.add_eq_none hadd
    exact (h.but _).insert (List.ne_nil_of_mem (TxList.get_eq_some.1 hold).1)
  rename_i list old hadd
  obtain ⟨rfl, -, -⟩ := TxList.add_eq_some hadd
  rw [touch_queue, recordIf_queue, forgetOld_queue]
  exact (h.but _).insert TxList.put_ne_nil

end Enqueue

def Lost (hash : Hash) (p : TxPool) : Prop := p.all.get hash = none

section Removal

variable {s : Sched} {p : TxPool} {hash : Hash} {txs : List Tx}

theorem Lost.forget (h : Lost hash p) (tx : Tx) : Lost hash (p.forget tx) := by
  show (p.all.remove tx.hash).get hash = none
  rw [TxLookup.get_remove, h, ite_self]

theorem Lost.enqueueTx (h : Lost hash p) (tx : Tx) (loc : Bool) :
    Lost hash (p.enqueueTx s tx loc false).1 := by
  unfold TxPool.enqueueTx
  split
  · exact h
  rename_i old hadd
  unfold Lost
  rw [touch_all]
  cases old with
  | none => exact h
  | some o => exact h.forget o

theorem requeueTxs_invariant {I : TxPool → Prop}
    (hstep : ∀ p tx, I p → I (p.enqueueTx s tx false false).1) (h : I p) :
    I (p.requeueTxs s txs) := by
  induction txs generalizing p with
  | nil => exact h
  | cons tx txs ih => exact ih (hstep p tx h)

theorem requeueTxs_pending : (p.requeueTxs s txs).pending = p.pending :=
  requeueTxs_invariant (I := fun q => q.pending = p.pending)
    (fun q tx h => by rw [enqueueTx_pending, h]) rfl

theorem requeueTxs_sameHead : SameHead p (p.requeueTxs s txs) :=
  requeueTxs_invariant (I := SameHead p) (fun _ _ h => h.trans (enqueueTx_sameHead _ _ _ _ _))
    (.refl p)

theorem requeueTxs_filled (h : Filled p.queue) : Filled (p.requeueTxs s txs).queue :=
  requeueTxs_invariant (I := fun q => Filled q.queue) (fun _ _ => enqueueTx_filled _ _ _ _ _) h

theorem Lost.unlistTx (h : Lost hash p) (tx : Tx) : Lost hash (p.unlistTx s tx) := by
  unfold TxPool.unlistTx
  split
  · refine requeueTxs_invariant (I := Lost hash) (fun q t hq => hq.enqueueTx t false) ?_
    unfold Lost
    rw [tidyPending_all]
    exact h
  split
  · exact h
  unfold Lost
  rw [tidyQueue_all]
  exact h

theorem unlistTx_sameHead (tx : Tx) : SameHead p (p.unlistTx s tx) := by
  unfold unlistTx
  split
  · exact ((tidyPending_sameHead _ _ _).trans requeueTxs_sameHead).trans ⟨rfl, rfl, rfl⟩
  split
  · exact .refl p
  · exact tidyQueue_sameHead _ _ _

def NoneEmpty (p : TxPool) : Prop := Filled p.pending ∧ Filled p.queue

theorem NoneEmpty.unlistTx (h : NoneEmpty p) (tx : Tx) : NoneEmpty (p.unlistTx s tx) := by
  obtain ⟨hp, hq⟩ := h
  unfold TxPool.unlistTx
  split
  · refine ⟨?_, ?_⟩
    · show Filled (requeueTxs s _ _).pending
      rw [requeueTxs_pending]
      exact tidyPending_filled _ _ _ (hp.but _)
    refine requeueTxs_filled ?_
    rw [tidyPending_queue]
    exact hq
  split
  · exact ⟨hp, hq⟩
  refine ⟨?_, tidyQueue_filled _ _ _ (hq.but _)⟩
  rw [tidyQueue_pending]
  exact hp

theorem Lost.removeTx (h : Lost hash p) (hash' : Hash) (outofbound : Bool) :
    Lost hash (p.removeTx s hash' outofbound) := by
  unfold TxPool.removeTx
  split
  · exact h
  have hrem : Lost hash (p.forgetHash hash') := by
    show (p.all.remove hash').get hash = none
    rw [TxLookup.get_remove, h, ite_self]
  refine .unlistTx ?_ _
  split
  · exact hrem
  · exact hrem

theorem removeTx_lost (outofbound : Bool) : Lost hash (p.removeTx s hash outofbound) := by
  unfold removeTx
  split
  · assumption
  have hrem : Lost hash (p.forgetHash hash) := by
    show (p.all.remove hash).get hash = none
    rw [TxLookup.get_remove, if_pos rfl]
  refine .unlistTx ?_ _
  split
  · exact hrem
  · exact hrem

theorem removeTx_sameHead (outofbound : Bool) : SameHead p (p.removeTx s hash outofbound) := by
  unfold removeTx
  split
  · exact .refl p
  refine .trans ?_ (unlistTx_sameHead _)
  split <;> exact ⟨rfl, rfl, rfl⟩

theorem NoneEmpty.removeTx (h : NoneEmpty p) (outofbound : Bool) :
    NoneEmpty (p.removeTx s hash outofbound) := by
  unfold TxPool.removeTx
  split
  · exact h
  refine .unlistTx ?_ _
  split <;> exact h

theorem removeTxs_invariant {I : TxPool → Prop} {outofbound : Bool}
    (hstep : ∀ p hash, I p → I (p.removeTx s hash outofbound)) (h : I p) (txs : List Tx) :
    I (p.removeTxs s txs outofbound) := by
  induction txs generalizing p with
  | nil => exact h
  | cons tx txs ih => exact ih (hstep p tx.hash h)

theorem Lost.removeTxs (h : Lost hash p) (txs : List Tx) (outofbound : Bool) :
    Lost hash (p.removeTxs s txs outofbound) :=
  removeTxs_invariant (I := Lost hash) (fun _ _ hq => hq.removeTx _ outofbound) h txs

theorem removeTxs_lost {tx : Tx} (h : tx ∈ txs)
    (outofbound : Bool) : Lost tx.hash (p.removeTxs s txs outofbound) := by
  induction txs generalizing p with
  | nil => cases h
  | cons t txs ih =>
    obtain rfl | h := List.mem_cons.1 h
    · exact .removeTxs (removeTx_lost outofbound) txs outofbound
    · exact ih h

end Removal

/-! ## Making room -/

theorem discardLoop_remote {all : TxLookup} {fuel : Nat} {l : TxPricedList} {slots : Int}
    {drop : List Tx} (h : ∀ t ∈ drop, (all.getRemote t.hash).isSome) :
    ∀ t ∈ (TxPricedList.discardLoop all fuel l slots drop).1, (all.getRemote t.hash).isSome := by
  induction fuel generalizing l slots drop with
  | zero => exact h
  | succ fuel ih =>
    unfold TxPricedList.discardLoop
    split
    · exact h
    split
    · exact h
    split
    · exact ih h
    rename_i hremote
    refine ih fun t ht => ?_
    obtain ht | ht := List.mem_append.1 ht
    · exact h t ht
    rw [List.mem_singleton.1 ht]
    rwa [Bool.not_eq_true, Option.isNone_eq_false_iff] at hremote

theorem discard_remote {l l' : TxPricedList} {all : TxLookup} {slots : Int} {force : Bool}
    {drop : List Tx} (h : l.discard all slots force = (some drop, l')) :
    ∀ t ∈ drop, (all.getRemote t.hash).isSome := by
  have hloop : ∀ t ∈ (TxPricedList.discardLoop all l.remotes.length l slots []).1,
      (all.getRemote t.hash).isSome := discardLoop_remote fun t ht => by cases ht
  unfold TxPricedList.discard at h
  split at h
  rename_i drop' slots' l'' hdrop
  rw [hdrop] at hloop
  split at h
  · cases h
  cases h
  exact hloop

theorem discardFor_cases (s : Sched) (p : TxPool) (tx : Tx) (isLocal : Bool) :
    (∃ priced, p.discardFor s tx isLocal = (p.setPriced priced, none)) ∨
    ∃ priced drop, p.discardFor s tx isLocal =
        ((p.setPriced priced).removeTxs s drop false, some drop) ∧
      ∀ t ∈ drop, (p.all.getRemote t.hash).isSome := by
  unfold discardFor
  split
  · rename_i priced _
    exact .inl ⟨priced, rfl⟩
  · rename_i drop priced hdrop
    exact .inr ⟨priced, drop, rfl, discard_remote hdrop⟩

theorem makeRoom_cases (s : Sched) (p : TxPool) (tx : Tx) (isLocal : Bool) :
    (∃ priced e, p.makeRoom s tx isLocal = (p.setPriced priced, .error e) ∧
      e ≠ .replaceUnderpriced) ∨
    ∃ priced drop, p.makeRoom s tx isLocal =
        ((p.setPriced priced).removeTxs s drop false, .ok drop) ∧
      (∀ t ∈ drop, (p.all.getRemote t.hash).isSome) := by
  unfold makeRoom
  split
  · split
    · obtain ⟨priced, hd⟩ | ⟨priced, drop, hd, hremote⟩ := discardFor_cases s p tx true
      · rw [hd]
        exact .inr ⟨priced, [], rfl, fun t ht => by cases ht⟩
      · rw [hd]
        exact .inr ⟨priced, drop, rfl, hremote⟩
    split
    · rename_i priced _
      exact .inl ⟨priced, _, rfl, nofun⟩
    rename_i priced0 _
    obtain ⟨priced, hd⟩ | ⟨priced, drop, hd, hremote⟩ :=
      discardFor_cases s (p.setPriced priced0) tx false
    · rw [hd]
      exact .inl ⟨priced, _, rfl, nofun⟩
    · rw [hd]
      exact .inr ⟨priced, drop, rfl, hremote⟩
  · exact .inr ⟨p.priced, [], rfl, fun t ht => by cases ht⟩

/-! ## Adding -/

structure Valid (p : TxPool) (tx : Tx) : Prop where
  sender : tx.sender = some tx.origin
  size : tx.size ≤ txMaxSize
  gas : tx.gas ≤ p.currentMaxGas
  nonce : p.currentState.getNonce tx.origin ≤ tx.nonce
  cost : tx.cost ≤ p.currentState.getBalance tx.origin

theorem validateTx_ensures (p : TxPool) (tx : Tx) (loc : Bool) :
    Ensures (fun e => e ≠ .replaceUnderpriced) (fun _ => Valid p tx) (p.validateTx tx loc) := by
  refine .failIf_bind nofun fun hsize => ?_
  refine .failIf_bind nofun fun _ => ?_
  refine .failIf_bind nofun fun hgas => ?_
  cases hsender : tx.sender with
  | none => exact .error nofun
  | some addr =>
    have horigin : tx.origin = addr := by
      unfold Tx.origin
      rw [hsender]
      rfl
    refine .failIf_bind nofun fun _ => ?_
    refine .failIf_bind nofun fun hnonce => ?_
    refine .failIf_bind nofun fun hcost => ?_
    subst horigin
    cases intrinsicGas tx.payload tx.recipient.isNone true p.istanbul with
    | error e => exact .error nofun
    | ok intrGas =>
      exact .failIf nofun fun _ =>
        ⟨hsender, not_lt.1 hsize, not_lt.1 hgas, not_lt.1 hnonce, not_lt.1 hcost⟩

theorem add_cases (s : Sched) (p : TxPool) (tx : Tx) (loc : Bool) :
    (∃ priced e, p.add s tx loc = (p.setPriced priced, .error e) ∧ e ≠ .replaceUnderpriced) ∨
    ∃ priced drop, p.all.get tx.hash = none ∧ Valid p tx ∧
      p.makeRoom s tx (loc || containsTx p.locals tx) =
        ((p.setPriced priced).removeTxs s drop false, .ok drop) ∧
      (∀ t ∈ drop, (p.all.getRemote t.hash).isSome) ∧
      p.add s tx loc = ((p.setPriced priced).removeTxs s drop false).insertTx s tx loc
        (loc || containsTx p.locals tx) := by
  unfold add
  split
  · exact .inl ⟨p.priced, _, rfl, nofun⟩
  rename_i hknown
  rw [Bool.not_eq_true, Option.isSome_eq_false_iff, Option.isNone_iff_eq_none] at hknown
  have hvalid := validateTx_ensures p tx (loc || containsTx p.locals tx)
  cases hv : p.validateTx tx (loc || containsTx p.locals tx) with
  | error e =>
    rw [hv] at hvalid
    exact .inl ⟨p.priced, e, by simp only [hv]; rfl, hvalid⟩
  | ok u =>
    rw [hv] at hvalid
    obtain ⟨priced, e, hroom, hne⟩ | ⟨priced, drop, hroom, hremote⟩ :=
      makeRoom_cases s p tx (loc || containsTx p.locals tx)
    · exact .inl ⟨priced, e, by simp only [hv, hroom], hne⟩
    · exact .inr ⟨priced, drop, hknown, hvalid, hroom, hremote, by simp only [hv, hroom]⟩

section Insert

variable {s : Sched} {p : TxPool} {tx : Tx}

theorem NoneEmpty.replacePending (h : NoneEmpty p) (list : TxList) (isLocal : Bool) :
    NoneEmpty (p.replacePending s list tx isLocal).1 := by
  unfold TxPool.replacePending
  split
  · exact h
  rename_i hadd
  obtain ⟨rfl, -, -⟩ := TxList.add_eq_some hadd
  refine ⟨?_, ?_⟩
  · show Filled (forgetOld s _ _).pending
    rw [forgetOld_pending]
    exact (h.1.but _).insert TxList.put_ne_nil
  show Filled (forgetOld s _ _).queue
  rw [forgetOld_queue]
  exact h.2

theorem NoneEmpty.insertTx (h : NoneEmpty p) (loc isLocal : Bool) :
    NoneEmpty (p.insertTx s tx loc isLocal).1 := by
  unfold TxPool.insertTx
  split
  · exact h.replacePending _ isLocal
  have henq : NoneEmpty (p.enqueueTx s tx isLocal true).1 :=
    ⟨by rw [enqueueTx_pending]; exact h.1, enqueueTx_filled s p tx isLocal true h.2⟩
  split
  · rename_i heq
    rw [heq] at henq
    exact henq
  rename_i heq
  rw [heq] at henq
  split
  · unfold markLocal
    split <;> exact henq
  · exact henq

theorem insertTx_sameHead {isLocal : Bool} : SameHead p (p.insertTx s tx loc isLocal).1 := by
  unfold insertTx
  split
  · unfold replacePending
    split
    · exact .refl p
    refine .trans (q := forgetOld s (p.setPending tx.origin _) _) ?_ ⟨rfl, rfl, rfl⟩
    exact .trans (q := p.setPending tx.origin _) ⟨rfl, rfl, rfl⟩ (forgetOld_sameHead _ _ _)
  have henq := enqueueTx_sameHead s p tx isLocal true
  split
  · rename_i heq
    rw [heq] at henq
    exact henq
  rename_i q _ heq
  rw [heq] at henq
  split
  · refine henq.trans ?_
    unfold markLocal
    split <;> exact ⟨rfl, rfl, rfl⟩
  · exact henq

theorem add_sameHead (loc : Bool) : SameHead p (p.add s tx loc).1 := by
  obtain ⟨priced, e, hadd, -⟩ | ⟨priced, drop, -, -, -, -, hadd⟩ := add_cases s p tx loc
  · rw [hadd]
    exact ⟨rfl, rfl, rfl⟩
  rw [hadd]
  refine .trans (q := p.setPriced priced) ⟨rfl, rfl, rfl⟩ ?_
  exact (removeTxs_invariant (I := SameHead _) (fun _ _ h => h.trans (removeTx_sameHead _))
    (.refl _) drop).trans insertTx_sameHead

theorem addTxsLocked_sameHead (txs : List Tx) (loc : Bool) :
    SameHead p (p.addTxsLocked s txs loc).1 := by
  induction txs generalizing p with
  | nil => exact .refl p
  | cons tx txs ih => exact (add_sameHead loc).trans ih

theorem NoneEmpty.add (h : NoneEmpty p) (tx : Tx) (loc : Bool) : NoneEmpty (p.add s tx loc).1 := by
  obtain ⟨priced, e, hadd, -⟩ | ⟨priced, drop, -, -, -, -, hadd⟩ := add_cases s p tx loc
  · rw [hadd]
    exact h
  rw [hadd]
  refine .insertTx ?_ loc _
  exact removeTxs_invariant (p := p.setPriced priced) (fun _ _ hq => hq.removeTx false) h drop

end Insert

/-! ## Promotion and demotion -/

section Promote

variable (s : Sched) (p : TxPool) (addr : Address) (list : TxList) (txs : List Tx)

theorem forgetTxs_invariant {I : TxPool → Prop} (hstep : ∀ p tx, I p → I (p.forget tx))
    {p : TxPool} (h : I p) (txs : List Tx) : I (p.forgetTxs txs) := by
  induction txs generalizing p with
  | nil => exact h
  | cons tx txs ih => exact ih (hstep p tx h)

theorem forgetTxs_pending : (p.forgetTxs txs).pending = p.pending :=
  forgetTxs_invariant (I := fun q => q.pending = p.pending) (fun _ _ h => h) rfl txs

theorem forgetTxs_queue : (p.forgetTxs txs).queue = p.queue :=
  forgetTxs_invariant (I := fun q => q.queue = p.queue) (fun _ _ h => h) rfl txs

theorem forgetTxs_sameHead : SameHead p (p.forgetTxs txs) :=
  forgetTxs_invariant (I := SameHead p) (fun _ _ h => h.trans ⟨rfl, rfl, rfl⟩) (.refl p) txs

theorem cleanList_perm : ((p.cleanList addr list).1 ++ ((p.cleanList addr list).2.1 ++
    (p.cleanList addr list).2.2.txs)).Perm list.txs := by
  have hfilter := (list.forward (p.currentState.getNonce addr)).2.filter_perm
    (p.currentState.getBalance addr) p.currentMaxGas
  unfold cleanList
  rw [List.append_assoc]
  exact (hfilter.append_left _).trans (list.forward_perm _)

theorem cleanList_strict : (p.cleanList addr list).2.2.strict = list.strict := TxList.filter_strict

theorem cleanList_invalids {p : TxPool} {addr : Address} {list : TxList}
    (h : list.strict = false) : (p.cleanList addr list).2.1 = [] :=
  TxList.filter_invalids (l := (list.forward (p.currentState.getNonce addr)).2) h _ _

theorem promoteTx_queue (tx : Tx) : (p.promoteTx s addr tx).1.queue = p.queue := by
  unfold promoteTx
  split
  · rfl
  show (forgetOld s _ _).queue = _
  rw [forgetOld_queue]
  rfl

theorem promoteTx_sameHead (tx : Tx) : SameHead p (p.promoteTx s addr tx).1 := by
  unfold promoteTx
  split
  · exact ⟨rfl, rfl, rfl⟩
  refine .trans (q := forgetOld s (p.setPending addr _) _) ?_ ⟨rfl, rfl, rfl⟩
  exact .trans (q := p.setPending addr _) ⟨rfl, rfl, rfl⟩ (forgetOld_sameHead _ _ _)

theorem promoteTx_filled (h : Filled p.pending) (tx : Tx) :
    Filled (p.promoteTx s addr tx).1.pending := by
  unfold promoteTx
  split
  · rename_i hadd
    obtain ⟨old, hold⟩ := TxList.add_eq_none hadd
    exact (h.but _).insert (List.ne_nil_of_mem (TxList.get_eq_some.1 hold).1)
  rename_i hadd
  obtain ⟨rfl, -, -⟩ := TxList.add_eq_some hadd
  show Filled (forgetOld s _ _).pending
  rw [forgetOld_pending]
  exact (h.but _).insert TxList.put_ne_nil

theorem promoteTxs_invariant {I : TxPool → Prop}
    (hstep : ∀ p tx, I p → I (p.promoteTx s addr tx).1) {p : TxPool} (h : I p) (txs : List Tx) :
    I (p.promoteTxs s addr txs).1 := by
  induction txs generalizing p with
  | nil => exact h
  | cons tx txs ih => exact ih (hstep p tx h)

theorem promoteTxs_queue : (p.promoteTxs s addr txs).1.queue = p.queue :=
  promoteTxs_invariant s addr (I := fun q => q.queue = p.queue)
    (fun q tx h => (promoteTx_queue s q addr tx).trans h) rfl txs

theorem promoteTxs_sameHead : SameHead p (p.promoteTxs s addr txs).1 :=
  promoteTxs_invariant s addr (I := SameHead p)
    (fun q tx h => h.trans (promoteTx_sameHead s q addr tx)) (.refl p) txs

theorem promoteTxs_filled (h : Filled p.pending) : Filled (p.promoteTxs s addr txs).1.pending :=
  promoteTxs_invariant s addr (I := fun q => Filled q.pending)
    (fun q tx hq => promoteTx_filled s q addr hq tx) h txs

theorem cleanQueue_sameHead : SameHead p (p.cleanQueue addr list) :=
  SameHead.trans (q := p.setQueue addr _) ⟨rfl, rfl, rfl⟩ (forgetTxs_sameHead _ _)

theorem promoteReady_sameHead : SameHead p (p.promoteReady s addr list).1 :=
  SameHead.trans (q := p.setQueue addr _) ⟨rfl, rfl, rfl⟩ (promoteTxs_sameHead _ _ _ _)

variable {q : TxPool}

theorem shortenQueue_sameHead {removed : Nat} (h : p.shortenQueue s addr list removed = some q) :
    SameHead p q := by
  unfold shortenQueue at h
  split at h
  · cases h
  rename_i caps list' _
  cases h
  refine .trans ?_ (tidyQueue_sameHead _ _ _)
  refine .trans (q := p.setQueue addr list') ⟨rfl, rfl, rfl⟩ ?_
  exact (forgetTxs_sameHead _ caps).trans ⟨rfl, rfl, rfl⟩

theorem promoteAccount_sameHead {promoted : List Tx}
    (h : p.promoteAccount s addr = some (q, promoted)) : SameHead p q := by
  unfold promoteAccount at h
  split at h
  · cases h
    exact .refl p
  rename_i list _
  obtain ⟨q', hshort, hq⟩ := Option.map_eq_some_iff.1 h
  cases hq
  refine (cleanQueue_sameHead p addr list).trans ?_
  exact (promoteReady_sameHead s _ addr _).trans (shortenQueue_sameHead s _ addr _ hshort)

theorem promoteExecutables_sameHead {p : TxPool} {accounts : List Address} {promoted : List Tx}
    (h : p.promoteExecutables s accounts = some (q, promoted)) : SameHead p q := by
  induction accounts generalizing p promoted with
  | nil =>
    cases h
    exact .refl _
  | cons addr accounts ih =>
    unfold promoteExecutables at h
    split at h
    · cases h
    rename_i p' promoted' hp'
    obtain ⟨r, hr, hq⟩ := Option.map_eq_some_iff.1 h
    cases hq
    exact (promoteAccount_sameHead s p addr hp').trans (ih hr)

theorem cleanPending_sameHead : SameHead p (p.cleanPending s addr list) := by
  refine .trans (q := p.setPending addr (p.cleanList addr list).2.2) ⟨rfl, rfl, rfl⟩ ?_
  refine .trans (forgetTxs_sameHead _ (p.cleanList addr list).1) ?_
  exact .trans (q := pricedRemoved s _ (p.cleanList addr list).1.length) ⟨rfl, rfl, rfl⟩
    requeueTxs_sameHead

theorem demoteAccount_sameHead (h : p.demoteAccount s addr = some q) : SameHead p q := by
  unfold demoteAccount at h
  split at h
  · cases h
    exact .refl p
  rename_i list _
  obtain ⟨⟨q', list'⟩, hgap, hq⟩ := Option.map_eq_some_iff.1 h
  cases hq
  refine (cleanPending_sameHead s p addr list).trans (.trans ?_ (tidyPending_sameHead _ _ _))
  unfold demoteGapped at hgap
  split at hgap
  · obtain ⟨⟨gapped, rest⟩, -, hq⟩ := Option.map_eq_some_iff.1 hgap
    cases hq
    exact .trans (q := setPending _ addr rest) ⟨rfl, rfl, rfl⟩ requeueTxs_sameHead
  cases hgap
  exact .refl _

theorem demoteAccounts_sameHead {p : TxPool} {accounts : List Address}
    (h : p.demoteAccounts s accounts = some q) : SameHead p q := by
  induction accounts generalizing p with
  | nil =>
    cases h
    exact .refl _
  | cons addr accounts ih =>
    unfold demoteAccounts at h
    split at h
    · cases h
    rename_i p' hp'
    exact (demoteAccount_sameHead s p addr hp').trans (ih h)

end Promote

/-! ## Runs of removals and of nonces -/

theorem dropQueued_invariant {s : Sched} {I : TxPool → Prop}
    (hstep : ∀ p hash, I p → I (p.removeTx s hash true)) {addresses : List Address} {drop : Nat}
    {p q : TxPool} (hp : I p) (h : dropQueued s addresses drop p = some q) : I q := by
  induction addresses generalizing drop p with
  | nil =>
    cases h
    exact hp
  | cons addr addresses ih =>
    unfold dropQueued at h
    split at h
    · cases h
      exact hp
    split at h
    · cases h
    split at h
    · exact ih (removeTxs_invariant hstep hp _) h
    · exact ih (removeTxs_invariant hstep hp _) h

theorem evict_invariant {s : Sched} {I : TxPool → Prop}
    (hstep : ∀ p hash, I p → I (p.removeTx s hash true)) {p : TxPool} (hp : I p) :
    I (p.evict s) := by
  unfold evict
  generalize (s.accounts .evict).order p.queue.keys = accounts
  induction accounts generalizing p with
  | nil => exact hp
  | cons addr accounts ih =>
    refine ih ?_
    unfold evictAccount
    split
    · exact hp
    split
    · exact removeTxs_invariant hstep hp _
    · exact hp

theorem updateNonces_eq {accounts : List Address} {p q : TxPool}
    (h : p.updateNonces accounts = some q) : ∃ txn, q = { p with pendingNonces := txn } := by
  induction accounts generalizing p with
  | nil =>
    cases h
    exact ⟨q.pendingNonces, rfl⟩
  | cons addr accounts ih =>
    unfold updateNonces at h
    split at h
    · cases h
    rename_i p' hp'
    obtain ⟨txn, rfl⟩ := ih h
    unfold updateNonce at hp'
    split at hp'
    · cases hp'
      exact ⟨txn, rfl⟩
    obtain ⟨tx, -, hset⟩ := Option.map_eq_some_iff.1 hp'
    cases hset
    exact ⟨txn, rfl⟩

end TxPool

end Virbicoin.Core
