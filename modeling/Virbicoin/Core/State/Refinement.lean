import Virbicoin.Core.State.View

/-!
# The state database refines the world

Every mutator of the `StateDB` does to the world it stands for what the operation of the same name
does there, and appends entries that take the view back to where it was (`Refines`). A mutator first
finds its object, or creates one (`Found`, `Created`), then replaces it (`Found.set`).

The one property of the view that is used is that the access list is valid: then a slot that is
taken back leaves the list as it was before the slot was added.
-/

namespace Virbicoin.State

open Virbicoin.Lib Function Option

variable (keccak : Bytes → Hash) (B : Backend)

/-! ## What a mutator does -/

/-- `s'` stands for the world `w`, and its new entries take it back to `s`. -/
structure Refines (s s' : StateDB) (w : World) : Prop where
  back : Journaled.Extends (undo keccak B) s s'
  world : s'.state.world keccak B = w

variable {keccak B} {s s' s'' : StateDB} {w w' : World} {addr : Address}

theorem Refines.trans (h : Refines keccak B s s' w) (h' : Refines keccak B s' s'' w') :
    Refines keccak B s s'' w' :=
  ⟨h.back.trans h'.back, h'.world⟩

theorem Refines.refl (s : StateDB) : Refines keccak B s s (s.state.world keccak B) :=
  ⟨.refl _ s, rfl⟩

theorem Refines.of_view {o : Objects} (h : o.view keccak B = s.state.view keccak B) :
    Refines keccak B s { s with state := o } (s.state.world keccak B) :=
  ⟨Journaled.Extends.of_view _ h, congrArg View.world h⟩

variable {obj : StateObject} {e : JournalEntry}

theorem Refines.of_entry {o : Objects}
    (h : undoView keccak B e (o.view keccak B) = some (s.state.view keccak B)) :
    Refines keccak B s { s.append e with state := o } (o.world keccak B) :=
  ⟨.of_entry h, rfl⟩

theorem Objects.world_account {o : Objects} (h : o.lookup B addr = some obj) :
    (o.world keccak B).account addr = some (obj.view keccak B addr (o.snapDestructs addr)) := by
  simp [world, h]

theorem Refines.set {g : Acct → Acct} (hobj : s.state.lookup B addr = some obj) (obj' : StateObject)
    (hdel : obj'.deleted = false)
    (he : ∀ v x, v.modify addr g = some x → undoView keccak B e v = some x)
    (hg : g (obj'.view keccak B addr (s.state.snapDestructs addr)) =
      obj.view keccak B addr (s.state.snapDestructs addr)) :
    Refines keccak B s (StateDB.setStateObject (s.append e) addr obj')
      ((s.state.world keccak B).set addr
        (obj'.view keccak B addr (s.state.snapDestructs addr))) := by
  have hundo : undoView keccak B e ((s.state.setStateObject addr obj').view keccak B) =
      some (s.state.view keccak B) := by
    rw [Objects.view_setStateObject]
    refine he _ _ ?_
    rw [View.modify, World.getStateObject_set hdel, map_some, World.set_set, hg,
      World.set_eq_self (Objects.world_account hobj)]
    rfl
  have hrefines := Refines.of_entry hundo
  rw [Objects.world_setStateObject] at hrefines
  exact hrefines

/-! ## Objects are found or created -/

variable (keccak B) in
theorem getStateObject_spec (s : StateDB) (addr : Address) :
    Refines keccak B s (s.getStateObject B addr).1 (s.state.world keccak B) ∧
      (s.getStateObject B addr).1.state.snapDestructs = s.state.snapDestructs ∧
      match (s.getStateObject B addr).2 with
      | none => (s.state.world keccak B).getStateObject addr = none
      | some obj => (s.getStateObject B addr).1.state.lookup B addr = some obj ∧
          obj.deleted = false ∧ (s.state.world keccak B).getStateObject addr =
            some (obj.view keccak B addr (s.state.snapDestructs addr)) := by
  have hlookup : (s.state.getStateObject B addr).1.lookup B = s.state.lookup B := by
    rw [Objects.getStateObject_fst, Objects.lookup_getDeletedStateObject]
  have hsnd := Objects.getStateObject_snd B s.state addr
  have hworld := Objects.world_getStateObject keccak B s.state addr
  refine ⟨Refines.of_view (Objects.view_getStateObject keccak B s.state addr),
    Objects.snapDestructs_getStateObject B s.state addr, ?_⟩
  simp only [StateDB.getStateObject] at hsnd ⊢
  cases hobj : (s.state.getStateObject B addr).2 with
  | none =>
    rw [hworld, hobj]
    rfl
  | some obj =>
    rw [hobj] at hsnd hworld
    obtain ⟨obj', hfound, hif⟩ := bind_eq_some_iff.1 hsnd.symm
    split at hif
    · cases hif
    rename_i hdel
    cases hif
    exact ⟨hlookup ▸ hfound, by simpa using hdel, hworld⟩

variable (keccak B) in
/-- What `createObject` returns and leaves behind. Its entry undoes the change whatever the new
object becomes until then. -/
structure Created (s s' : StateDB) (newobj : StateObject) (prev : Option StateObject)
    (addr : Address) : Prop where
  refines : ∀ obj, Refines keccak B s (StateDB.setStateObject s' addr obj)
    ((s.state.world keccak B).set addr (obj.view keccak B addr (s'.state.snapDestructs addr)))
  self : StateDB.setStateObject s' addr newobj = s'
  lookup : s'.state.lookup B addr = some newobj
  deleted : newobj.deleted = false
  view : newobj.view keccak B addr (s'.state.snapDestructs addr) = World.newAcct keccak
  balance : (s.state.world keccak B).getBalance addr = prev.elim 0 (·.data.balance)

theorem StateDB.setStateObject_idem {obj' : StateObject} :
    StateDB.setStateObject (StateDB.setStateObject s addr obj) addr obj' =
      StateDB.setStateObject s addr obj' := by
  simp [StateDB.setStateObject, Objects.setStateObject]

variable (keccak B) in
theorem createObject_spec (s : StateDB) (addr : Address) :
    Created keccak B s (StateDB.createObject keccak B s addr).1
      (StateDB.createObject keccak B s addr).2.1
      (StateDB.createObject keccak B s addr).2.2 addr := by
  have hlookup := Objects.getDeletedStateObject_lookup B s.state addr
  have hview := Objects.view_getDeletedStateObject keccak B s.state addr
  unfold StateDB.createObject StateDB.getDeletedStateObject
  generalize s.state.getDeletedStateObject B addr = r at hlookup hview ⊢
  obtain ⟨o, prev⟩ := r
  have hworld : o.world keccak B = s.state.world keccak B := congrArg View.world hview
  have hmarks : o.snapDestructs = s.state.snapDestructs := congrArg View.destructed hview
  cases prev with
  | none =>
    have hacc : B.account addr = none := by
      unfold Objects.lookup at hlookup
      split at hlookup
      · cases hlookup
      · exact map_eq_none_iff.1 hlookup.symm
    have hnone : (s.state.world keccak B).account addr = none := by simp [Objects.world, ← hlookup]
    have hnew := StateObject.view_newObject keccak B addr (o.snapDestructs addr) (.inr (.inr hacc))
    refine ⟨?_, StateDB.setStateObject_idem, ?_, rfl, hnew, ?_⟩
    · intro obj
      rw [StateDB.setStateObject_idem]
      have hundo : undoView keccak B (.createObject addr)
          ((o.setStateObject addr obj).view keccak B) = some (s.state.view keccak B) := by
        rw [Objects.view_setStateObject, hworld, hmarks]
        simp only [undoView, hacc, map_none, World.set, update_idem]
        rw [← hnone, update_eq_self]
        rfl
      have hrefines := Refines.of_entry hundo
      rw [Objects.world_setStateObject, hworld] at hrefines
      exact hrefines
    · simp [StateDB.setStateObject, Objects.lookup, Objects.setStateObject]
    · simp [World.getBalance, World.getStateObject, hnone]
  | some prev =>
    -- the mark is set if there is a snapshot, and stays as it is otherwise
    have hmark : (if (B.snap && !(B.snap && o.snapDestructs addr)) = true then
        update o.snapDestructs addr true else o.snapDestructs) =
        update o.snapDestructs addr (B.snap || o.snapDestructs addr) := by
      cases B.snap with
      | false => simp
      | true =>
        cases hd : o.snapDestructs addr with
        | false => simp
        | true => simp [← hd]
    have hunmark : (if (!(B.snap && o.snapDestructs addr) && B.snap) = true then
        update o.snapDestructs addr false
        else update o.snapDestructs addr (B.snap || o.snapDestructs addr)) =
        o.snapDestructs := by
      cases B.snap with
      | false => simp
      | true =>
        cases hd : o.snapDestructs addr with
        | false | true => simp [← hd]
    simp only [hmark]
    have hnew := StateObject.view_newObject keccak B addr (B.snap || o.snapDestructs addr) (by
      cases B.snap <;> simp)
    have hacc : (s.state.world keccak B).account addr =
        some (prev.view keccak B addr (s.state.snapDestructs addr)) :=
      Objects.world_account hlookup.symm
    refine ⟨?_, StateDB.setStateObject_idem, ?_, rfl, ?_, ?_⟩
    · intro obj
      have hset := Objects.view_reset keccak B o addr obj (B.snap || o.snapDestructs addr)
      have hundo : undoView keccak B (.resetObject addr prev (B.snap && o.snapDestructs addr))
          (Objects.view keccak B { o.setStateObject addr obj with
            snapDestructs :=
              update o.snapDestructs addr (B.snap || o.snapDestructs addr) }) =
          some (s.state.view keccak B) := by
        rw [hset, undoView]
        simp only [update_idem, hunmark, World.set_set]
        rw [hworld, hmarks, World.set_eq_self hacc]
        rfl
      have hrefines := Refines.of_entry hundo
      rw [show Objects.world keccak B _ = _ from congrArg View.world hset, hworld] at hrefines
      simpa [StateDB.setStateObject, Objects.setStateObject, Journaled.append] using hrefines
    · simp [StateDB.setStateObject, Objects.lookup, Objects.setStateObject]
    · simpa [StateDB.setStateObject, Objects.setStateObject, Journaled.append] using hnew
    · simp only [World.getBalance, World.getStateObject, hacc, StateObject.view]
      split <;> rfl

variable (keccak B) in
structure Found (s s' : StateDB) (obj : StateObject) (addr : Address) : Prop where
  refines : Refines keccak B s s'
    ((s.state.world keccak B).set addr ((s.state.world keccak B).getOrNew keccak addr))
  lookup : s'.state.lookup B addr = some obj
  deleted : obj.deleted = false
  view : obj.view keccak B addr (s'.state.snapDestructs addr) =
    (s.state.world keccak B).getOrNew keccak addr

variable (keccak B) in
theorem getOrNewStateObject_spec (s : StateDB) (addr : Address) :
    ∃ s1 obj, StateDB.getOrNewStateObject keccak B s addr = (s1, obj) ∧
      Found keccak B s s1 obj addr := by
  obtain ⟨hrefines, hmarks, hobj⟩ := getStateObject_spec keccak B s addr
  unfold StateDB.getOrNewStateObject
  generalize s.getStateObject B addr = r at hrefines hmarks hobj ⊢
  obtain ⟨s1, obj⟩ := r
  cases obj with
  | some obj =>
    obtain ⟨hlookup, hdel, hworld⟩ := hobj
    have hnew : (s.state.world keccak B).getOrNew keccak addr =
        obj.view keccak B addr (s.state.snapDestructs addr) := by
      rw [World.getOrNew, hworld, getD_some]
    refine ⟨_, _, rfl, ?_, hlookup, hdel, ?_⟩
    · rw [hnew, World.set_eq_self (World.account_of_getStateObject hworld)]
      exact hrefines
    · rw [hmarks, hnew]
  | none =>
    have hnew : (s.state.world keccak B).getOrNew keccak addr = World.newAcct keccak := by
      rw [World.getOrNew, hobj, getD_none]
    obtain ⟨hcreate, hself, hlookup, hdel, hview, -⟩ := createObject_spec keccak B s1 addr
    have hcreate := hcreate (StateDB.createObject keccak B s1 addr).2.1
    rw [hself, hview, hrefines.world] at hcreate
    refine ⟨_, _, rfl, ?_, hlookup, hdel, ?_⟩
    · rw [hnew]
      exact hrefines.trans hcreate
    · rw [hnew]
      exact hview

theorem Found.set {s1 : StateDB} {g : Acct → Acct} (h : Found keccak B s s1 obj addr)
    (obj' : StateObject) (hdel : obj'.deleted = false)
    (he : ∀ v x, v.modify addr g = some x → undoView keccak B e v = some x)
    (hg : g (obj'.view keccak B addr (s1.state.snapDestructs addr)) =
      obj.view keccak B addr (s1.state.snapDestructs addr)) :
    Refines keccak B s (StateDB.setStateObject (s1.append e) addr obj')
      ((s.state.world keccak B).set addr
        (obj'.view keccak B addr (s1.state.snapDestructs addr))) := by
  have hset := Refines.set h.lookup obj' hdel he hg
  rw [h.refines.world, World.set_set] at hset
  exact h.refines.trans hset

theorem setBalance_refines {s1 : StateDB} (h : Found keccak B s s1 obj addr) (amount : Int) :
    Refines keccak B s (StateDB.setBalance s1 addr obj amount) ((s.state.world keccak B).set addr
        { (s.state.world keccak B).getOrNew keccak addr with balance := amount }) := by
  rw [← h.view]
  exact h.set (g := fun a => { a with balance := obj.data.balance }) _ h.deleted
    (fun _ _ hv => hv) rfl

theorem Refines.cache {obj' : StateObject} (hobj : s.state.lookup B addr = some obj)
    (hview : obj'.view keccak B addr (s.state.snapDestructs addr) =
      obj.view keccak B addr (s.state.snapDestructs addr)) :
    Refines keccak B s (StateDB.setStateObject s addr obj') (s.state.world keccak B) := by
  refine .of_view ?_
  rw [Objects.view_setStateObject, hview, World.set_eq_self (Objects.world_account hobj)]
  rfl

theorem Found.cache {s1 : StateDB} {obj' : StateObject} (h : Found keccak B s s1 obj addr)
    (hview : obj'.view keccak B addr (s1.state.snapDestructs addr) =
      obj.view keccak B addr (s1.state.snapDestructs addr)) :
    Found keccak B s (StateDB.setStateObject s1 addr obj') obj' addr := by
  have hdel : obj'.deleted = obj.deleted := congrArg Acct.deleted hview
  have hcache := Refines.cache h.lookup hview
  rw [h.refines.world] at hcache
  refine ⟨h.refines.trans hcache, ?_, hdel.trans h.deleted, hview.trans h.view⟩
  simp [StateDB.setStateObject, Objects.lookup_setStateObject]

/-! ## The mutators -/

section Mutators

variable (s addr)

theorem createAccount_refines : Refines keccak B s (StateDB.createAccount keccak B s addr)
      ((s.state.world keccak B).createAccount keccak addr) := by
  have hcreated := createObject_spec keccak B s addr
  unfold StateDB.createAccount World.createAccount
  generalize StateDB.createObject keccak B s addr = r at hcreated ⊢
  obtain ⟨s1, newobj, prev⟩ := r
  rw [hcreated.balance, ← hcreated.view]
  cases prev with
  | none =>
    have hbal : newobj.data.balance = 0 := congrArg Acct.balance hcreated.view
    have hrefines := hcreated.refines newobj
    rw [hcreated.self] at hrefines
    simp only [elim_none, ← hbal]
    exact hrefines
  | some prev => exact hcreated.refines (newobj.setBalance prev.data.balance)

theorem addBalance_refines (amount : Int) :
    Refines keccak B s (StateDB.addBalance keccak B s addr amount)
      ((s.state.world keccak B).addBalance keccak addr amount) := by
  obtain ⟨s1, obj, heq, hfound⟩ := getOrNewStateObject_spec keccak B s addr
  unfold StateDB.addBalance World.addBalance
  simp only [heq]
  have hbal := congrArg Acct.balance hfound.view
  split
  · rename_i h0
    subst h0
    simp only [Int.add_zero]
    split
    · -- the entry of a touch has nothing to undo
      have htouch : Refines keccak B s1 (s1.append (.touch addr)) (s1.state.world keccak B) :=
        Refines.of_entry (s := s1) (o := s1.state) (e := .touch addr) rfl
      rw [hfound.refines.world] at htouch
      exact hfound.refines.trans htouch
    · exact hfound.refines
  rw [← hbal]
  exact setBalance_refines hfound _

theorem subBalance_refines (amount : Int) :
    Refines keccak B s (StateDB.subBalance keccak B s addr amount)
      ((s.state.world keccak B).subBalance keccak addr amount) := by
  obtain ⟨s1, obj, heq, hfound⟩ := getOrNewStateObject_spec keccak B s addr
  unfold StateDB.subBalance World.subBalance
  simp only [heq]
  have hbal := congrArg Acct.balance hfound.view
  split
  · rename_i h0
    subst h0
    simp only [Int.sub_zero]
    exact hfound.refines
  rw [← hbal]
  exact setBalance_refines hfound _

theorem setNonce_refines (nonce : Nat) : Refines keccak B s (StateDB.setNonce keccak B s addr nonce)
      ((s.state.world keccak B).setNonce keccak addr nonce) := by
  obtain ⟨s1, obj, heq, hfound⟩ := getOrNewStateObject_spec keccak B s addr
  unfold StateDB.setNonce World.setNonce
  rw [heq]
  rw [← hfound.view]
  exact hfound.set (g := fun a => { a with nonce := obj.data.nonce }) _ hfound.deleted
    (fun _ _ hv => hv) rfl

theorem setCode_refines (code : Option Bytes) :
    Refines keccak B s (StateDB.setCode keccak B s addr code)
      ((s.state.world keccak B).setCode keccak addr code) := by
  obtain ⟨s1, obj, heq, hfound⟩ := getOrNewStateObject_spec keccak B s addr
  unfold StateDB.setCode World.setCode
  simp only [heq]
  have hview := StateObject.view_getCode keccak B obj addr (s1.state.snapDestructs addr)
  have hcode := StateObject.getCode_value keccak B obj addr (s1.state.snapDestructs addr)
  rw [← hview] at hcode
  have hcache := hfound.cache hview
  generalize obj.getCode keccak B addr = r at hview hcode hcache ⊢
  obtain ⟨obj1, prevcode⟩ := r
  simp only at hview hcode hcache ⊢
  have hset := hcache.set (e := .code addr prevcode obj1.data.codeHash) (g := fun a => { a with
      codeHash := obj1.data.codeHash
      code := StateObject.codeOf keccak B addr obj1.data.codeHash prevcode })
    (obj1.setCode (keccak (code.getD [])) code) hcache.deleted (fun _ _ hv => hv) (by
      subst hcode
      simp only [StateObject.view, StateObject.setCode, StateObject.codeOf_codeOf]
      rfl)
  rw [StateObject.view_setCode, hcache.view] at hset
  simpa [StateDB.setStateObject, Objects.setStateObject, Journaled.append] using hset

theorem setState_refines (key value : Hash) :
    Refines keccak B s (StateDB.setState keccak B s addr key value)
      ((s.state.world keccak B).setState keccak addr key value) := by
  obtain ⟨s1, obj, heq, hfound⟩ := getOrNewStateObject_spec keccak B s addr
  unfold StateDB.setState World.setState
  simp only [heq]
  have hview := StateObject.view_getState keccak B obj addr (s1.state.snapDestructs addr) key
  have hvalue := StateObject.getState_value keccak B obj addr (s1.state.snapDestructs addr) key
  rw [hfound.view] at hvalue
  have hcache := hfound.cache hview
  generalize obj.getState B addr (s1.state.snapDestructs addr) key = r at hvalue hcache ⊢
  obtain ⟨obj1, prev⟩ := r
  simp only at hvalue hcache ⊢
  by_cases hsame : prev = value
  · rw [if_pos hsame, ← hsame, hvalue, update_eq_self]
    exact hcache.refines
  rw [if_neg hsame]
  have hset := hcache.set (e := .storage addr key prev)
    (g := fun a => { a with storage := update a.storage key prev })
    (obj1.setState key value) hcache.deleted (fun _ _ hv => hv) (by
      rw [StateObject.view_setState, hcache.view, hvalue]
      simp only [update_idem, update_eq_self])
  rw [StateObject.view_setState, hcache.view] at hset
  simpa [StateDB.setStateObject, Objects.setStateObject, Journaled.append] using hset

theorem suicide_refines : Refines keccak B s (StateDB.suicide B s addr).1
      ((s.state.world keccak B).suicide addr).1 := by
  obtain ⟨hrefines, hmarks, hobj⟩ := getStateObject_spec keccak B s addr
  unfold StateDB.suicide World.suicide
  generalize s.getStateObject B addr = r at hrefines hmarks hobj ⊢
  obtain ⟨s1, obj⟩ := r
  cases obj with
  | none =>
    rw [hobj]
    exact hrefines
  | some obj =>
    obtain ⟨hlookup, hdel, hworld⟩ := hobj
    rw [hworld]
    have hundo : ∀ v x, v.modify addr (fun a =>
        { a with suicided := obj.suicided, balance := obj.data.balance }) = some x →
        undoView keccak B (.suicide addr obj.suicided obj.data.balance) v = some x := by
      intro v x hv
      rw [undoView, hv]
      rfl
    have hset := Refines.set hlookup ({ obj with suicided := true }.setBalance 0) hdel hundo rfl
    rw [hrefines.world, hmarks] at hset
    exact hrefines.trans hset

theorem subRefund_refines {s s' : StateDB} {gas : Nat} (h : StateDB.subRefund s gas = some s') :
    ∃ w, (s.state.world keccak B).subRefund gas = some w ∧ Refines keccak B s s' w := by
  unfold StateDB.subRefund at h
  split at h
  · cases h
  rename_i hle
  cases h
  refine ⟨_, if_neg hle, ?_⟩
  exact .of_entry (e := .refund s.state.refund)
    (o := { s.state with refund := s.state.refund - gas }) rfl

theorem addLog_refines (log : Log) :
    Refines keccak B s (StateDB.addLog s log) ((s.state.world keccak B).addLog log) := by
  have hadd := fun log => world_logs keccak B s.state s.state.thash
    (some ((s.state.logs s.state.thash).getD [] ++ [log])) (s.state.logSize + 1) rfl
  have hundo : ∀ log, undoView keccak B (.addLog s.state.thash) (Objects.view keccak B
      { s.state with
        logs := update s.state.logs s.state.thash
          (some ((s.state.logs s.state.thash).getD [] ++ [log]))
        logSize := s.state.logSize + 1 }) = some (s.state.view keccak B) := by
    intro log
    simp only [undoView, Objects.view, hadd, update_self, List.append_eq_nil_iff,
      List.cons_ne_nil, and_false, if_false, getD_some, List.dropLast_concat,
      update_idem, Nat.add_sub_cancel, some.injEq, View.mk.injEq, and_true]
    rw [update_eq_self (f := fun hash => (s.state.logs hash).getD [])]
    rfl
  have hrefines := Refines.of_entry (hundo { log with
    txHash := s.state.thash, blockHash := s.state.bhash, txIndex := s.state.txIndex,
    index := s.state.logSize })
  rw [hadd] at hrefines
  exact hrefines

theorem addPreimage_refines (hash : Hash) (preimage : Bytes) :
    Refines keccak B s (StateDB.addPreimage s hash preimage)
      ((s.state.world keccak B).addPreimage hash preimage) := by
  unfold StateDB.addPreimage World.addPreimage
  have hpre : (s.state.world keccak B).preimages = s.state.preimages := rfl
  rw [hpre]
  cases hhash : s.state.preimages hash with
  | some _ => exact .refl s
  | none =>
    have hundo : undoView keccak B (.addPreimage hash) (Objects.view keccak B
        { s.state with preimages := update s.state.preimages hash (some preimage) }) =
        some (s.state.view keccak B) := by
      simp only [undoView, Objects.view, Objects.world, update_idem, Objects.lookup]
      rw [← hhash, update_eq_self]
    exact Refines.of_entry hundo

end Mutators

/-! ## The access list

Here the undo relies on the list being valid: a list of slots that becomes empty when a slot is
taken back is the one that the slot had started. -/

theorem deleteSlot_addSlot_new {al : AccessList} {slot : Hash} : AccessList.deleteSlot
        { addresses := update al.addresses addr (some (some al.slots.length))
          slots := al.slots ++ [{slot}] } addr slot =
      some { al with addresses := update al.addresses addr (some none) } := by
  simp [AccessList.deleteSlot]

theorem deleteSlot_addSlot_old {al : AccessList} {slot : Hash} {idx : Nat}
    {slotmap : Finset Hash} (haddr : al.addresses addr = some (some idx))
    (hslots : al.slots[idx]? = some slotmap) (hne : slotmap ≠ ∅) (hnot : slot ∉ slotmap) :
    AccessList.deleteSlot { al with slots := al.slots.set idx (insert slot slotmap) } addr slot =
      some al := by
  obtain ⟨hlt, rfl⟩ := getElem?_eq_some_iff.1 hslots
  have hset : al.slots.set idx al.slots[idx] = al.slots := List.set_getElem_self hlt
  simp only [AccessList.deleteSlot, haddr, List.getElem?_set_self hlt,
    Finset.erase_insert hnot, if_neg hne, List.set_set, hset]

theorem Refines.accessList {al : AccessList}
    (h : undoView keccak B e ⟨{ s.state.world keccak B with accessList := al },
      s.state.snapDestructs⟩ = some (s.state.view keccak B)) :
    Refines keccak B s { s.append e with state := { s.state with accessList := al } }
      { s.state.world keccak B with accessList := al } :=
  of_entry (o := { s.state with accessList := al }) h

theorem addAddressToAccessList_refines : Refines keccak B s (StateDB.addAddressToAccessList s addr)
      ((s.state.world keccak B).addAddressToAccessList addr) := by
  unfold StateDB.addAddressToAccessList World.addAddressToAccessList AccessList.addAddress
  have hal : (s.state.world keccak B).accessList = s.state.accessList := rfl
  rw [hal]
  cases haddr : s.state.accessList.addresses addr with
  | some _ => exact .refl s
  | none =>
    refine .accessList (e := .accessListAddAccount addr) ?_
    simp only [undoView, AccessList.deleteAddress, update_idem]
    rw [← haddr, update_eq_self]
    rfl

theorem addSlotToAccessList_refines (hvalid : s.state.accessList.Valid) (slot : Hash) :
    Refines keccak B s (StateDB.addSlotToAccessList s addr slot)
      ((s.state.world keccak B).addSlotToAccessList addr slot) := by
  unfold StateDB.addSlotToAccessList World.addSlotToAccessList AccessList.addSlot
  have hal : (s.state.world keccak B).accessList = s.state.accessList := rfl
  rw [hal]
  cases haddr : s.state.accessList.addresses addr with
  | some present =>
    cases present with
    | some idx =>
      obtain ⟨slotmap, hslots, hne⟩ := hvalid addr idx haddr
      simp only [hslots]
      by_cases hmem : slot ∈ slotmap
      · simp only [if_pos hmem]
        exact .refl s
      simp only [if_neg hmem]
      refine .accessList (e := .accessListAddSlot addr slot) ?_
      rw [undoView, deleteSlot_addSlot_old haddr hslots hne hmem]
      rfl
    | none =>
      refine .accessList (e := .accessListAddSlot addr slot) ?_
      rw [undoView, deleteSlot_addSlot_new, ← haddr, update_eq_self]
      rfl
  | none =>
    -- two entries: the address without slots in between
    have hmid : Refines keccak B s { s.append (.accessListAddAccount addr) with
        state := { s.state with accessList := { s.state.accessList with
          addresses := update s.state.accessList.addresses addr (some none) } } }
        { s.state.world keccak B with accessList := { s.state.accessList with
          addresses := update s.state.accessList.addresses addr (some none) } } := by
      refine .accessList (e := .accessListAddAccount addr) ?_
      simp only [undoView, AccessList.deleteAddress, update_idem]
      rw [← haddr, update_eq_self]
      rfl
    refine hmid.trans (.accessList (e := .accessListAddSlot addr slot) ?_)
    rw [undoView, deleteSlot_addSlot_new]
    rfl

/-! ## Reads -/

theorem read_spec {α : Type} (read : StateObject → Bool → StateObject × α) (get : Acct → α) (a : α)
    (hview : ∀ obj d, (read obj d).1.view keccak B addr d = obj.view keccak B addr d)
    (hget : ∀ obj d, (read obj d).2 = get (obj.view keccak B addr d)) {obj : Option StateObject}
    (hobj : s.getStateObject B addr = (s', obj)) :
    Refines keccak B s (obj.elim s' fun obj =>
        StateDB.setStateObject s' addr (read obj (s'.state.snapDestructs addr)).1)
      (s.state.world keccak B) ∧
    obj.elim a (fun obj => (read obj (s'.state.snapDestructs addr)).2) =
      ((s.state.world keccak B).getStateObject addr).elim a get := by
  obtain ⟨hrefines, hmarks, hspec⟩ := getStateObject_spec keccak B s addr
  rw [hobj] at hrefines hmarks hspec
  cases obj with
  | none =>
    rw [hspec]
    exact ⟨hrefines, rfl⟩
  | some obj =>
    obtain ⟨hlookup, -, hworld⟩ := hspec
    have hcache := Refines.cache hlookup (hview obj _)
    rw [hrefines.world] at hcache
    rw [hworld, ← hmarks]
    exact ⟨hrefines.trans hcache, hget obj _⟩

variable (keccak B s addr)

theorem getCode_spec :
    Refines keccak B s (StateDB.getCode keccak B s addr).1 (s.state.world keccak B) ∧
      (StateDB.getCode keccak B s addr).2 = (s.state.world keccak B).getCode addr := by
  unfold StateDB.getCode
  split <;> rename_i hobj <;>
  exact read_spec (fun obj _ => obj.getCode keccak B addr) Acct.code none
    (StateObject.view_getCode keccak B · addr) (StateObject.getCode_value keccak B · addr) hobj

theorem getState_spec (key : Hash) :
    Refines keccak B s (StateDB.getState B s addr key).1 (s.state.world keccak B) ∧
      (StateDB.getState B s addr key).2 = (s.state.world keccak B).getState addr key := by
  unfold StateDB.getState
  split <;> rename_i hobj <;> exact read_spec (fun obj d => obj.getState B addr d key)
    (Acct.storage · key) 0 (StateObject.view_getState keccak B · addr · key)
    (StateObject.getState_value keccak B · addr · key) hobj

theorem getCommittedState_spec (key : Hash) :
    Refines keccak B s (StateDB.getCommittedState B s addr key).1 (s.state.world keccak B) ∧
      (StateDB.getCommittedState B s addr key).2 =
        (s.state.world keccak B).getCommittedState addr key := by
  unfold StateDB.getCommittedState
  split <;> rename_i hobj <;> exact read_spec (fun obj d => obj.getCommittedState B addr d key)
    (Acct.committed · key) 0 (StateObject.view_getCommittedState keccak B · addr · key)
    (StateObject.getCommittedState_value B · addr · key) hobj

end Virbicoin.State
