import Virbicoin.Core.State.Refinement

/-!
# Reverting a state database is exact

A run of mutators, reads, snapshots and reverts keeps every snapshot that it does not go back behind
(`runOps_keeps`): changes append entries that undo them, and a revert to a later snapshot stops
before the entries of the earlier one. So reverting to such a snapshot gives back its view, and with
it every observation (`revertToSnapshot_exact`).
-/

namespace Virbicoin.State

open Virbicoin.Lib

variable {keccak : Bytes → Hash} {B : Backend} {s s' : StateDB}

/-! ## Runs -/

inductive Op where
  | createAccount (addr : Address)
  | addBalance (addr : Address) (amount : Int)
  | subBalance (addr : Address) (amount : Int)
  | setNonce (addr : Address) (nonce : Nat)
  | setCode (addr : Address) (code : Option Bytes)
  | setState (addr : Address) (key value : Hash)
  | suicide (addr : Address)
  | addRefund (gas : Nat)
  | subRefund (gas : Nat)
  | addLog (log : Log)
  | addPreimage (hash : Hash) (preimage : Bytes)
  | addAddressToAccessList (addr : Address)
  | addSlotToAccessList (addr : Address) (slot : Hash)
  | lookup (addr : Address)
  | getCode (addr : Address)
  | getState (addr : Address) (key : Hash)
  | getCommittedState (addr : Address) (key : Hash)
  | snapshot
  | revertToSnapshot (revid : Nat)

variable (keccak B)

def Op.apply (s : StateDB) : Op → Option StateDB
  | .createAccount addr => some (StateDB.createAccount keccak B s addr)
  | .addBalance addr amount => some (StateDB.addBalance keccak B s addr amount)
  | .subBalance addr amount => some (StateDB.subBalance keccak B s addr amount)
  | .setNonce addr nonce => some (StateDB.setNonce keccak B s addr nonce)
  | .setCode addr code => some (StateDB.setCode keccak B s addr code)
  | .setState addr key value => some (StateDB.setState keccak B s addr key value)
  | .suicide addr => some (StateDB.suicide B s addr).1
  | .addRefund gas => some (StateDB.addRefund s gas)
  | .subRefund gas => StateDB.subRefund s gas
  | .addLog log => some (StateDB.addLog s log)
  | .addPreimage hash preimage => some (StateDB.addPreimage s hash preimage)
  | .addAddressToAccessList addr => some (StateDB.addAddressToAccessList s addr)
  | .addSlotToAccessList addr slot => some (StateDB.addSlotToAccessList s addr slot)
  | .lookup addr => some (StateDB.getStateObject B s addr).1
  | .getCode addr => some (StateDB.getCode keccak B s addr).1
  | .getState addr key => some (StateDB.getState B s addr key).1
  | .getCommittedState addr key => some (StateDB.getCommittedState B s addr key).1
  | .snapshot => some (StateDB.snapshot s).2
  | .revertToSnapshot revid => StateDB.revertToSnapshot B s revid

def runOps (s : StateDB) (ops : List Op) : Option StateDB := ops.foldlM (Op.apply keccak B) s

theorem runOps_cons {s t : StateDB} {op : Op} {ops : List Op} :
    runOps keccak B s (op :: ops) = some t ↔
      ∃ u, op.apply keccak B s = some u ∧ runOps keccak B u ops = some t := by
  exact Option.bind_eq_some_iff

def ListValid (v : View) : Prop := v.world.accessList.Valid

variable {keccak B}

theorem Op.apply_cases {op : Op} (hvalid : s.state.accessList.Valid)
    (h : op.apply keccak B s = some s') :
    (∃ w, Refines keccak B s s' w ∧ w.accessList.Valid) ∨
      (op = .snapshot ∧ s' = (Journaled.snapshot s).2) ∨
      ∃ revid, op = .revertToSnapshot revid ∧
        Journaled.revertTo (undo keccak B).undo s revid = some s' := by
  -- every operation but those on the access list leaves it alone
  have hkeep : ∀ w : World, w.accessList = s.state.accessList → w.accessList.Valid :=
    fun w hw => hw ▸ hvalid
  cases op with
  | snapshot => exact .inr (.inl ⟨rfl, (Option.some.inj h).symm⟩)
  | revertToSnapshot revid => exact .inr (.inr ⟨revid, rfl, h⟩)
  | subRefund gas =>
    obtain ⟨w, hw, hrefines⟩ := subRefund_refines h
    refine .inl ⟨w, hrefines, hkeep w ?_⟩
    unfold World.subRefund at hw
    split at hw
    · cases hw
    cases hw
    rfl
  | createAccount addr =>
    cases h
    exact .inl ⟨_, createAccount_refines s addr, hkeep _ rfl⟩
  | addBalance addr amount =>
    cases h
    exact .inl ⟨_, addBalance_refines s addr amount, hkeep _ rfl⟩
  | subBalance addr amount =>
    cases h
    exact .inl ⟨_, subBalance_refines s addr amount, hkeep _ rfl⟩
  | setNonce addr nonce =>
    cases h
    exact .inl ⟨_, setNonce_refines s addr nonce, hkeep _ rfl⟩
  | setCode addr code =>
    cases h
    exact .inl ⟨_, setCode_refines s addr code, hkeep _ rfl⟩
  | setState addr key value =>
    cases h
    exact .inl ⟨_, setState_refines s addr key value, hkeep _ rfl⟩
  | suicide addr =>
    cases h
    refine .inl ⟨_, suicide_refines s addr, hkeep _ ?_⟩
    unfold World.suicide
    split <;> rfl
  | addRefund gas =>
    cases h
    exact .inl ⟨_, .of_entry (e := .refund s.state.refund)
      (o := { s.state with refund := (s.state.refund + gas) % 2 ^ 64 }) rfl, hkeep _ rfl⟩
  | addLog log =>
    cases h
    exact .inl ⟨_, addLog_refines s log, hkeep _ rfl⟩
  | addPreimage hash preimage =>
    cases h
    refine .inl ⟨_, addPreimage_refines s hash preimage, hkeep _ ?_⟩
    unfold World.addPreimage
    split <;> rfl
  | addAddressToAccessList addr =>
    cases h
    exact .inl ⟨_, addAddressToAccessList_refines, hvalid.addAddress addr⟩
  | addSlotToAccessList addr slot =>
    cases h
    exact .inl ⟨_, addSlotToAccessList_refines hvalid slot, hvalid.addSlot addr slot⟩
  | lookup addr =>
    cases h
    exact .inl ⟨_, (getStateObject_spec keccak B s addr).1, hkeep _ rfl⟩
  | getCode addr =>
    cases h
    exact .inl ⟨_, (getCode_spec keccak B s addr).1, hkeep _ rfl⟩
  | getState addr key =>
    cases h
    exact .inl ⟨_, (getState_spec keccak B s addr key).1, hkeep _ rfl⟩
  | getCommittedState addr key =>
    cases h
    exact .inl ⟨_, (getCommittedState_spec keccak B s addr key).1, hkeep _ rfl⟩

section

variable (hs : Journaled.Sound (undo keccak B) ListValid s)

include hs

theorem apply_sound {op : Op}
    (h : op.apply keccak B s = some s') : Journaled.Sound (undo keccak B) ListValid s' := by
  obtain ⟨w, hw, hvalid⟩ | ⟨-, rfl⟩ | ⟨revid, -, hrev⟩ := Op.apply_cases hs.view h
  · have hvalid' : (s'.state.world keccak B).accessList.Valid := hw.world ▸ hvalid
    exact hs.extends hw.back hvalid'
  · exact hs.snapshot
  · exact hs.revertTo hrev

theorem runOps_sound {ops : List Op}
    (h : runOps keccak B s ops = some s') : Journaled.Sound (undo keccak B) ListValid s' := by
  induction ops generalizing s with
  | nil =>
    cases h
    exact hs
  | cons op ops ih =>
    obtain ⟨u, hu, h⟩ := (runOps_cons keccak B).1 h
    exact ih (apply_sound hs hu) h

theorem runOps_keeps {ops : List Op} {r : Revision} {v : View}
    (hk : Journaled.Keeps (undo keccak B) r v s)
    (hlater : ∀ revid, Op.revertToSnapshot revid ∈ ops → r.id < revid)
    (h : runOps keccak B s ops = some s') : Journaled.Keeps (undo keccak B) r v s' := by
  induction ops generalizing s with
  | nil =>
    cases h
    exact hk
  | cons op ops ih =>
    obtain ⟨u, hu, h⟩ := (runOps_cons keccak B).1 h
    refine ih (apply_sound hs hu) ?_ ?_ h
    rotate_left
    · exact fun revid hmem => hlater revid (List.mem_cons_of_mem _ hmem)
    obtain ⟨w, hw, -⟩ | ⟨-, rfl⟩ | ⟨revid, rfl, hrev⟩ := Op.apply_cases hs.view hu
    · exact hk.extends hs.ordered hw.back
    · exact hk.snapshot
    · exact hk.revertTo_later hs.ordered (hlater revid List.mem_cons_self) hrev

end

/-! ## Observations -/

variable (keccak B) in
/-- Everything that can be asked of two states has the same answer. -/
structure SameObservations (s s' : StateDB) : Prop where
  exist : ∀ addr, s'.exist B addr = s.exist B addr
  empty : ∀ addr, StateDB.empty keccak B s' addr = StateDB.empty keccak B s addr
  balance : ∀ addr, s'.getBalance B addr = s.getBalance B addr
  nonce : ∀ addr, s'.getNonce B addr = s.getNonce B addr
  code : ∀ addr, (StateDB.getCode keccak B s' addr).2 = (StateDB.getCode keccak B s addr).2
  codeHash : ∀ addr, s'.getCodeHash B addr = s.getCodeHash B addr
  state : ∀ addr key, (s'.getState B addr key).2 = (s.getState B addr key).2
  committedState : ∀ addr key,
    (s'.getCommittedState B addr key).2 = (s.getCommittedState B addr key).2
  hasSuicided : ∀ addr, s'.hasSuicided B addr = s.hasSuicided B addr
  refund : s'.state.refund = s.state.refund
  logs : ∀ hash, (s'.state.logs hash).getD [] = (s.state.logs hash).getD []
  logSize : s'.state.logSize = s.state.logSize
  preimages : s'.state.preimages = s.state.preimages
  containsAddress : ∀ addr, s'.state.accessList.containsAddress addr =
    s.state.accessList.containsAddress addr
  contains : ∀ addr slot, s'.state.accessList.contains addr slot =
    s.state.accessList.contains addr slot

variable (keccak B) in
theorem getters_eq (s : StateDB) (addr : Address) :
    s.exist B addr = (s.state.world keccak B).exist addr ∧
      StateDB.empty keccak B s addr = (s.state.world keccak B).empty keccak addr ∧
      s.getBalance B addr = (s.state.world keccak B).getBalance addr ∧
      s.getNonce B addr = (s.state.world keccak B).getNonce addr ∧
      s.getCodeHash B addr = (s.state.world keccak B).getCodeHash addr ∧
      s.hasSuicided B addr = (s.state.world keccak B).hasSuicided addr := by
  have hworld := Objects.world_getStateObject keccak B s.state addr
  unfold World.exist World.empty World.getBalance World.getNonce World.getCodeHash World.hasSuicided
  rw [hworld]
  unfold StateDB.exist StateDB.empty StateDB.getBalance StateDB.getNonce StateDB.getCodeHash
    StateDB.hasSuicided StateDB.getStateObject
  cases (s.state.getStateObject B addr).2 with
  | none | some obj => exact ⟨rfl, rfl, rfl, rfl, rfl, rfl⟩

theorem SameObservations.of_world
    (h : s'.state.world keccak B = s.state.world keccak B) : SameObservations keccak B s s' := by
  have hs := fun addr => getters_eq keccak B s addr
  have hs' := fun addr => getters_eq keccak B s' addr
  rw [h] at hs'
  refine ⟨?_, ?_, ?_, ?_, ?_, ?_, ?_, ?_, ?_, ?_, ?_, ?_, ?_, ?_, ?_⟩
  · exact fun addr => (hs' addr).1.trans (hs addr).1.symm
  · exact fun addr => (hs' addr).2.1.trans (hs addr).2.1.symm
  · exact fun addr => (hs' addr).2.2.1.trans (hs addr).2.2.1.symm
  · exact fun addr => (hs' addr).2.2.2.1.trans (hs addr).2.2.2.1.symm
  · intro addr
    rw [(getCode_spec keccak B s' addr).2, (getCode_spec keccak B s addr).2, h]
  · exact fun addr => (hs' addr).2.2.2.2.1.trans (hs addr).2.2.2.2.1.symm
  · intro addr key
    rw [(getState_spec keccak B s' addr key).2, (getState_spec keccak B s addr key).2, h]
  · intro addr key
    rw [(getCommittedState_spec keccak B s' addr key).2,
      (getCommittedState_spec keccak B s addr key).2, h]
  · exact fun addr => (hs' addr).2.2.2.2.2.trans (hs addr).2.2.2.2.2.symm
  · exact congrArg World.refund h
  · exact fun hash => congrFun (congrArg World.logs h) hash
  · exact congrArg World.logSize h
  · exact congrArg World.preimages h
  · exact fun addr => congrArg (fun w => w.accessList.containsAddress addr) h
  · exact fun addr slot => congrArg (fun w => w.accessList.contains addr slot) h

/-- **Reverting is exact.** After any operations of a transaction a snapshot is taken, and
operations follow that revert later snapshots only. Reverting to the snapshot then does not panic,
and every observation is what it was. -/
theorem revertToSnapshot_exact {s₀ s₁ s₂ : StateDB} {ops₁ ops₂ : List Op}
    (hrevisions : s₀.validRevisions = []) (hlist : s₀.state.accessList.Valid)
    (h₁ : runOps keccak B s₀ ops₁ = some s₁)
    (h₂ : runOps keccak B (StateDB.snapshot s₁).2 ops₂ = some s₂)
    (hlater : ∀ revid, Op.revertToSnapshot revid ∈ ops₂ → (StateDB.snapshot s₁).1 < revid) :
    ∃ s₃, s₂.revertToSnapshot B (StateDB.snapshot s₁).1 = some s₃ ∧
      SameObservations keccak B s₁ s₃ := by
  have hsound0 : Journaled.Sound (undo keccak B) ListValid s₀ := by
    refine ⟨⟨?_, ?_, ?_⟩, hlist, ?_⟩
    · rw [hrevisions]
      exact List.Pairwise.nil
    all_goals simp [hrevisions]
  have hsound1 := runOps_sound hsound0 h₁
  have hkeeps := runOps_keeps hsound1.snapshot (r := ⟨s₁.nextRevisionId, s₁.entries.length⟩)
    ⟨List.mem_append_right _ (List.mem_singleton_self _), Journaled.back_length⟩ hlater h₂
  have hsound2 := runOps_sound hsound1.snapshot h₂
  obtain ⟨s₃, hrevert, hview⟩ := hkeeps.revertTo hsound2.ordered
  exact ⟨s₃, hrevert, SameObservations.of_world (congrArg View.world hview)⟩

/-- An account that exists below is created anew, written to and paid; going back finds its balance
of 7 and its slot again. -/
theorem revertToSnapshot_exact_recreated :
    let B : Backend := {
      snap := true
      account := fun addr => if addr = 1 then some { balance := 7, codeHash := 0 } else none
      storage := fun addr _ _ => if addr = 1 then 9 else 0
      contractCode := fun _ _ => none
      storage_empty := by
        intro addr _ h
        split
        · simp_all
        · rfl }
    let s₁ : StateDB := { state := {} }
    ∃ s₂ s₃, runOps (fun _ => 0) B s₁.snapshot.2
        [.createAccount 1, .setState 1 3 5, .snapshot, .addBalance 1 2, .suicide 1] = some s₂ ∧
      s₂.getBalance B 1 = 0 ∧ s₂.revertToSnapshot B 0 = some s₃ ∧ s₃.getBalance B 1 = 7 ∧
        (s₃.getState B 1 3).2 = 9 := by
  intro B s₁
  have hrevisions : s₁.validRevisions = [] := rfl
  have h₁ : runOps (fun _ => 0) B s₁ [] = some s₁ := rfl
  obtain ⟨s₂, h₂, hbal⟩ : ∃ s₂, runOps (fun _ => 0) B s₁.snapshot.2
      [.createAccount 1, .setState 1 3 5, .snapshot, .addBalance 1 2, .suicide 1] = some s₂ ∧
      s₂.getBalance B 1 = 0 := ⟨_, rfl, rfl⟩
  obtain ⟨s₃, hrevert, hsame⟩ := revertToSnapshot_exact hrevisions AccessList.valid_empty h₁ h₂
    (by simp)
  exact ⟨s₂, s₃, h₂, hbal, hrevert, (hsame.balance 1).trans rfl, (hsame.state 1 3).trans rfl⟩

end Virbicoin.State
