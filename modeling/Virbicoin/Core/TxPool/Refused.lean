import Virbicoin.Core.TxPool.Frames

/-!
# Refused transactions

`add` makes room in a full pool before it compares the price of a transaction with the one that it
would replace. All other errors are found before anything is removed. So a refused transaction
leaves lookup and lists as they were, unless it is refused as an underpriced replacement after other
transactions were dropped for it.
-/

namespace Virbicoin.Core

open Lib State Params

namespace TxPool

variable {s : Sched} {p q : TxPool} {tx : Tx} {loc isLocal : Bool} {e : PoolError}

structure SameTxs (p q : TxPool) : Prop where
  all : q.all = p.all
  pending : q.pending = p.pending
  queue : q.queue = p.queue

/-- The transactions that `add` drops to make room. -/
def dropsFor (s : Sched) (p : TxPool) (tx : Tx) (loc : Bool) : List Tx :=
  match (p.makeRoom s tx (loc || containsTx p.locals tx)).2 with
  | .ok drop => drop
  | .error _ => []

/-! ## Errors of the insertion -/

theorem enqueueTx_error {addAll : Bool} (h : (p.enqueueTx s tx loc addAll).2 = .error e) :
    e = .replaceUnderpriced ∧ SameTxs p (p.enqueueTx s tx loc addAll).1 := by
  unfold enqueueTx at h ⊢
  split at h
  · rename_i hadd
    cases h
    refine ⟨rfl, rfl, rfl, ?_⟩
    -- the list is there, and it is written back as it was
    obtain ⟨old, hold⟩ := TxList.add_eq_none hadd
    refine Finmap.ext_lookup fun addr => ?_
    show (p.queue.insert tx.origin (p.queueOf tx.origin)).lookup addr = _
    by_cases haddr : addr = tx.origin
    · subst haddr
      rw [Finmap.lookup_insert]
      unfold queueOf at hold ⊢
      cases hl : p.queue.lookup tx.origin with
      | none =>
        rw [hl] at hold
        cases hold
      | some list => rfl
    · exact Finmap.lookup_insert_of_ne _ haddr
  · cases h

theorem insertTx_error (h : (p.insertTx s tx loc isLocal).2 = .error e) :
    e = .replaceUnderpriced ∧ SameTxs p (p.insertTx s tx loc isLocal).1 := by
  unfold insertTx at h ⊢
  split at h
  · unfold replacePending at h ⊢
    split at h
    · cases h
      exact ⟨rfl, rfl, rfl, rfl⟩
    · cases h
  split at h
  · rename_i henq
    have herr := enqueueTx_error (congrArg Prod.snd henq)
    cases h
    rw [henq] at herr
    exact herr
  · cases h

/-! ## Errors of `add` -/

end TxPool

/-! ## A pool that drops a transaction in vain -/

def addRun (s : Sched) (p : TxPool) (txs : List Tx) : TxPool := (p.addTxsLocked s txs false).1

end Virbicoin.Core
