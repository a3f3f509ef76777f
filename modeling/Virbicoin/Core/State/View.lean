import Virbicoin.Core.State.StateDB

/-!
# The world a state database stands for

A `StateDB` stands for a `World`: what its getters return. `Objects.view` is that world, together
with the destruct marks, which decide what an account without cached slots reads. Caching does not
change the view (`view_getStateObject`), and undoing a journal entry acts on the view alone
(`view_revert`), so a journal of such entries is an instance of the library on journals (`undo`).
-/

namespace Virbicoin.State

open Virbicoin.Lib Function Option

variable (keccak : Bytes → Hash) (B : Backend)

/-! ## The view of an object -/

namespace StateObject

def committed (obj : StateObject) (addr : Address) (destructed : Bool) (key : Hash) : Hash :=
  match obj.pendingStorage key with
  | some value => value
  | none =>
    match obj.originStorage key with
    | some value => value
    | none => if B.snap && destructed then 0 else B.storage addr obj.data.root key

def codeOf (addr : Address) (codeHash : Hash) (code : Option Bytes) : Option Bytes :=
  match code with
  | some code => some code
  | none => if codeHash = keccak [] then none else B.contractCode addr codeHash

def view (addr : Address) (destructed : Bool) (obj : StateObject) : Acct where
  nonce := obj.data.nonce
  balance := obj.data.balance
  codeHash := obj.data.codeHash
  code := codeOf keccak B addr obj.data.codeHash obj.code
  committed := obj.committed B addr destructed
  storage := fun key => (obj.dirtyStorage key).getD (obj.committed B addr destructed key)
  suicided := obj.suicided
  deleted := obj.deleted

variable (obj : StateObject) (addr : Address) (destructed : Bool) (key : Hash)

theorem getCommittedState_value :
    (obj.getCommittedState B addr destructed key).2 = obj.committed B addr destructed key := by
  unfold getCommittedState committed
  repeat' split
  all_goals simp_all

theorem committed_getCommittedState :
    (obj.getCommittedState B addr destructed key).1.committed B addr destructed =
      obj.committed B addr destructed := by
  funext k
  unfold getCommittedState
  cases hp : obj.pendingStorage key with
  | some value => rfl
  | none =>
    cases ho : obj.originStorage key with
    | some value => rfl
    | none =>
      cases hd : B.snap && destructed with
      | true => rfl
      | false =>
        by_cases hk : k = key
        · subst hk
          simp [committed, hp, ho, hd]
        · simp [committed, update_of_ne hk]

theorem getCommittedState_eq : ∃ origin, (obj.getCommittedState B addr destructed key).1 =
      { obj with originStorage := origin } := by
  unfold getCommittedState
  repeat' split
  all_goals exact ⟨_, rfl⟩

theorem view_getCommittedState :
    (obj.getCommittedState B addr destructed key).1.view keccak B addr destructed =
      obj.view keccak B addr destructed := by
  obtain ⟨origin, heq⟩ := getCommittedState_eq B obj addr destructed key
  have hcommitted := committed_getCommittedState B obj addr destructed key
  rw [heq] at hcommitted ⊢
  simp only [view, hcommitted]

theorem getState_value : (obj.getState B addr destructed key).2 =
      (obj.view keccak B addr destructed).storage key := by
  cases hdirty : obj.dirtyStorage key with
  | some value => simp [getState, view, hdirty]
  | none => simpa [getState, view, hdirty] using getCommittedState_value B obj addr destructed key

theorem view_getState : (obj.getState B addr destructed key).1.view keccak B addr destructed =
      obj.view keccak B addr destructed := by
  unfold getState
  split
  · rfl
  · exact view_getCommittedState keccak B obj addr destructed key

theorem getCode_value :
    (obj.getCode keccak B addr).2 = (obj.view keccak B addr destructed).code := by
  unfold getCode view codeOf
  repeat' split
  all_goals simp_all

theorem view_getCode : (obj.getCode keccak B addr).1.view keccak B addr destructed =
      obj.view keccak B addr destructed := by
  unfold getCode
  split
  · rfl
  rename_i hcode
  split
  · rfl
  rename_i hhash
  simp only [view, hcode, codeOf, if_neg hhash]
  congr 1
  cases B.contractCode addr obj.data.codeHash <;> rfl

theorem codeOf_codeOf (h : Hash) (code : Option Bytes) :
    codeOf keccak B addr h (codeOf keccak B addr h code) = codeOf keccak B addr h code := by
  cases code with
  | some code => rfl
  | none =>
    by_cases hempty : h = keccak []
    · simp [codeOf, hempty]
    cases hc : B.contractCode addr h with
    | some code | none => simp [codeOf, hempty, hc]

theorem view_setCode (code : Option Bytes) :
    (obj.setCode (keccak (code.getD [])) code).view keccak B addr destructed =
      { obj.view keccak B addr destructed with
        codeHash := keccak (code.getD []), code } := by
  have hcode : codeOf keccak B addr (keccak (code.getD [])) code = code := by
    cases code with
    | some code => rfl
    | none => exact if_pos rfl
  simp only [view, setCode, hcode]
  rfl

theorem view_setState (value : Hash) : (obj.setState key value).view keccak B addr destructed =
      { obj.view keccak B addr destructed with
        storage := update (obj.view keccak B addr destructed).storage key value } := by
  simp only [view, setState]
  congr 1
  funext k
  by_cases hk : k = key
  · subst hk
    simp
  · simp only [update_of_ne hk]
    rfl

theorem view_newObject (h : (B.snap && destructed) = true ∨ B.snap = false ∨
    B.account addr = none) :
    (newObject { codeHash := keccak [] }).view keccak B addr destructed = World.newAcct keccak := by
  have hcommitted : (newObject { codeHash := keccak [] }).committed B addr destructed =
      fun _ => 0 := by
    funext key
    unfold committed newObject
    simp only
    split
    · rfl
    rename_i hd
    refine B.storage_empty addr key ?_
    obtain h | h | h := h
    · exact absurd h hd
    · exact .inl h
    · exact .inr h
  simp only [view, hcommitted]
  simp [newObject, World.newAcct, codeOf]

end StateObject

/-! ## The view of the state -/

structure View where
  world : World
  destructed : Address → Bool

namespace Objects

def lookup (s : Objects) (addr : Address) : Option StateObject :=
  match s.stateObjects addr with
  | some obj => some obj
  | none => (B.account addr).map newObject

def world (s : Objects) : World where
  account := fun addr =>
    (s.lookup B addr).map (StateObject.view keccak B addr (s.snapDestructs addr))
  refund := s.refund
  thash := s.thash
  bhash := s.bhash
  txIndex := s.txIndex
  logs := fun hash => (s.logs hash).getD []
  logSize := s.logSize
  preimages := s.preimages
  accessList := s.accessList

def view (s : Objects) : View := ⟨s.world keccak B, s.snapDestructs⟩

variable (s : Objects) (addr : Address)

theorem getDeletedStateObject_lookup : (s.getDeletedStateObject B addr).2 = s.lookup B addr := by
  cases hobj : s.stateObjects addr with
  | some obj => simp only [getDeletedStateObject, lookup, hobj]
  | none =>
    cases hacc : B.account addr with
    | none | some data => simp [getDeletedStateObject, lookup, hobj, hacc]

theorem lookup_setStateObject :
    (s.setStateObject addr obj).lookup B = update (s.lookup B) addr (some obj) := by
  funext a
  by_cases ha : a = addr
  · subst ha
    simp [lookup, setStateObject]
  · simp [lookup, setStateObject, update_of_ne ha]

theorem lookup_getDeletedStateObject :
    (s.getDeletedStateObject B addr).1.lookup B = s.lookup B := by
  unfold getDeletedStateObject
  cases hobj : s.stateObjects addr with
  | some obj => rfl
  | none =>
    cases hacc : B.account addr with
    | none => rfl
    | some data =>
      simp only [lookup_setStateObject]
      simp [lookup, hobj, hacc]

theorem getDeletedStateObject_eq :
    ∃ objs, (s.getDeletedStateObject B addr).1 = { s with stateObjects := objs } := by
  unfold getDeletedStateObject
  repeat' split
  all_goals exact ⟨_, rfl⟩

theorem view_getDeletedStateObject :
    (s.getDeletedStateObject B addr).1.view keccak B = s.view keccak B := by
  obtain ⟨objs, heq⟩ := getDeletedStateObject_eq B s addr
  have hlookup := lookup_getDeletedStateObject B s addr
  rw [heq] at hlookup ⊢
  simp only [view, world, hlookup]

theorem getStateObject_fst : (s.getStateObject B addr).1 = (s.getDeletedStateObject B addr).1 := by
  unfold getStateObject
  split <;> simp_all

theorem view_getStateObject : (s.getStateObject B addr).1.view keccak B = s.view keccak B := by
  rw [getStateObject_fst, view_getDeletedStateObject]

theorem snapDestructs_getStateObject :
    (s.getStateObject B addr).1.snapDestructs = s.snapDestructs :=
  congrArg View.destructed (view_getStateObject (fun _ => 0) B s addr)

theorem getStateObject_snd : (s.getStateObject B addr).2 =
      (s.lookup B addr).bind fun obj => if obj.deleted then none else some obj := by
  rw [← getDeletedStateObject_lookup]
  unfold getStateObject
  split <;> simp_all

theorem world_getStateObject : (s.world keccak B).getStateObject addr =
      (s.getStateObject B addr).2.map (StateObject.view keccak B addr (s.snapDestructs addr)) := by
  rw [getStateObject_snd]
  unfold World.getStateObject world
  simp only
  cases s.lookup B addr with
  | none => rfl
  | some obj =>
    simp only [map_some, bind_some, StateObject.view]
    split <;> rfl

theorem view_reset (obj : StateObject) (d : Bool) : view keccak B { s.setStateObject addr obj with
        snapDestructs := update s.snapDestructs addr d } =
      ⟨(s.world keccak B).set addr (obj.view keccak B addr d), update s.snapDestructs addr d⟩ := by
  simp only [view, world, World.set, View.mk.injEq, and_true]
  congr 1
  funext a
  by_cases ha : a = addr
  · subst ha
    simp [lookup, setStateObject]
  · simp [lookup, setStateObject, update_of_ne ha]

theorem view_setStateObject (obj : StateObject) : (s.setStateObject addr obj).view keccak B =
      ⟨(s.world keccak B).set addr (obj.view keccak B addr (s.snapDestructs addr)),
        s.snapDestructs⟩ := by
  have hreset := view_reset keccak B s addr obj (s.snapDestructs addr)
  rw [update_eq_self] at hreset
  exact hreset

theorem world_setStateObject : (s.setStateObject addr obj).world keccak B =
      (s.world keccak B).set addr (obj.view keccak B addr (s.snapDestructs addr)) :=
  congrArg View.world (view_setStateObject keccak B s addr obj)

end Objects

/-! ## Undoing an entry acts on the view -/

def View.modify (v : View) (addr : Address) (f : Acct → Acct) : Option View :=
  (v.world.getStateObject addr).map fun a => ⟨v.world.set addr (f a), v.destructed⟩

def undoView : JournalEntry → View → Option View
  | .createObject account, v =>
    let below := (B.account account).map fun data =>
      (newObject data).view keccak B account (v.destructed account)
    some ⟨{ v.world with account := update v.world.account account below }, v.destructed⟩
  | .resetObject account prev prevdestruct, v =>
    let destructed := if !prevdestruct && B.snap then update v.destructed account false
      else v.destructed
    some ⟨v.world.set account (prev.view keccak B account (destructed account)), destructed⟩
  | .suicide account prev prevbalance, v =>
    some ((v.modify account fun a => { a with suicided := prev, balance := prevbalance }).getD v)
  | .balance account prev, v => v.modify account fun a => { a with balance := prev }
  | .nonce account prev, v => v.modify account fun a => { a with nonce := prev }
  | .storage account key prevalue, v =>
    v.modify account fun a => { a with storage := update a.storage key prevalue }
  | .code account prevcode prevhash, v =>
    v.modify account fun a => { a with
      codeHash := prevhash
      code := StateObject.codeOf keccak B account prevhash prevcode }
  | .refund prev, v => some ⟨{ v.world with refund := prev }, v.destructed⟩
  | .addLog txhash, v =>
    if v.world.logs txhash = [] then none
    else some ⟨{ v.world with
      logs := update v.world.logs txhash (v.world.logs txhash).dropLast
      logSize := v.world.logSize - 1 }, v.destructed⟩
  | .addPreimage hash, v =>
    some ⟨{ v.world with preimages := update v.world.preimages hash none }, v.destructed⟩
  | .touch _, v => some v
  | .accessListAddAccount address, v =>
    some ⟨{ v.world with accessList := v.world.accessList.deleteAddress address }, v.destructed⟩
  | .accessListAddSlot address slot, v =>
    (v.world.accessList.deleteSlot address slot).map fun al =>
      ⟨{ v.world with accessList := al }, v.destructed⟩

theorem modify_view (s : Objects) (account : Address) {f : StateObject → StateObject}
    {g : Acct → Acct}
    (hfg : ∀ obj d, (f obj).view keccak B account d = g (obj.view keccak B account d)) :
    (match s.getStateObject B account with
      | (s, some obj) => some (s.setStateObject account (f obj))
      | (_, none) => none).map (Objects.view keccak B) = (s.view keccak B).modify account g := by
  have hview := Objects.view_getStateObject keccak B s account
  have hworld := Objects.world_getStateObject keccak B s account
  have hdestructed := Objects.snapDestructs_getStateObject B s account
  unfold View.modify
  rw [show (s.view keccak B).world = s.world keccak B from rfl, hworld]
  generalize s.getStateObject B account = r at *
  obtain ⟨s', obj⟩ := r
  cases obj with
  | none => rfl
  | some obj =>
    simp only [map_some] at hview hdestructed ⊢
    rw [Objects.view_setStateObject, hfg, hdestructed]
    have hw : s'.world keccak B = s.world keccak B := congrArg View.world hview
    rw [hw]
    rfl

theorem world_logs (s : Objects) (hash : Hash) (entry : Option (List Log)) (n : Nat)
    {logs : List Log} (h : entry.getD [] = logs) :
    Objects.world keccak B { s with logs := update s.logs hash entry, logSize := n } =
      { s.world keccak B with
        logs := update (fun hash => (s.logs hash).getD []) hash logs
        logSize := n } := by
  unfold Objects.world
  congr 1
  funext k
  by_cases hk : k = hash
  · subst hk
    simp [h]
  · simp [update_of_ne hk]

theorem view_revert (e : JournalEntry) (s : Objects) :
    (e.revert B s).map (Objects.view keccak B) = undoView keccak B e (s.view keccak B) := by
  cases e with
  | createObject account =>
    -- without a live object the account is read from below again
    simp only [JournalEntry.revert, undoView, map_some, Objects.view, Objects.world,
      some.injEq, View.mk.injEq, and_true]
    congr 1
    funext a
    by_cases ha : a = account
    · subst ha
      simp only [Objects.lookup, update_self, map_map]
      rfl
    · simp only [Objects.lookup, update_of_ne ha]
  | resetObject account prev prevdestruct =>
    simp only [JournalEntry.revert, undoView, map_some, some.injEq]
    split
    · rw [show (s.setStateObject account prev).snapDestructs = s.snapDestructs from rfl,
        Objects.view_reset, update_self]
      rfl
    rw [Objects.view_setStateObject]
    rfl
  | suicide account prev prevbalance =>
    have hmodify := modify_view keccak B s account
      (f := fun obj => { obj with suicided := prev }.setBalance prevbalance)
      (g := fun a => { a with suicided := prev, balance := prevbalance }) (fun _ _ => rfl)
    have hview := Objects.view_getStateObject keccak B s account
    simp only [JournalEntry.revert, undoView]
    rw [← hmodify]
    generalize s.getStateObject B account = r at hview ⊢
    obtain ⟨s', obj⟩ := r
    cases obj with
    | none => exact congrArg some hview
    | some obj => rfl
  | balance account prev =>
    exact modify_view keccak B s account (f := fun obj => obj.setBalance prev) (fun _ _ => rfl)
  | nonce account prev =>
    exact modify_view keccak B s account (f := fun obj => obj.setNonce prev) (fun _ _ => rfl)
  | storage account key prevalue =>
    exact modify_view keccak B s account (f := fun obj => obj.setState key prevalue)
      (fun obj d => StateObject.view_setState keccak B obj account d key prevalue)
  | code account prevcode prevhash =>
    exact modify_view keccak B s account (f := fun obj => obj.setCode prevhash prevcode)
      (fun _ _ => rfl)
  | refund prev => rfl
  | addLog txhash =>
    have hworld : (s.view keccak B).world.logs = fun hash => (s.logs hash).getD [] := rfl
    simp only [JournalEntry.revert, undoView, hworld]
    split
    · rename_i hlogs
      rw [hlogs]
      rfl
    · rename_i log hlogs
      rw [hlogs, if_neg (List.cons_ne_nil _ _)]
      simp only [map_some, some.injEq, Objects.view, View.mk.injEq, and_true]
      exact world_logs keccak B s txhash none _ rfl
    rename_i logs hne hone
    rw [if_neg hne]
    simp only [map_some, some.injEq, Objects.view, View.mk.injEq, and_true]
    exact world_logs keccak B s txhash (some _) _ rfl
  | addPreimage hash | touch account | accessListAddAccount address => rfl
  | accessListAddSlot address slot =>
    simp only [JournalEntry.revert, undoView, map_map]
    rfl

def undo : Undo Objects JournalEntry View where
  view := Objects.view keccak B
  undo := fun e s => e.revert B s
  undoView := undoView keccak B
  view_undo := view_revert keccak B

end Virbicoin.State
