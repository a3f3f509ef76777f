import Virbicoin.Trie.Committer
import Virbicoin.Trie.Proof

/-!
# Committed tries

A trie that is committed and opened again reads the same, from the cache and, once the database is
committed as well, from disk.

Three things are carried through the operations of a session. The trie holds a tree, with flags that
say what of it is stored (`Stowed`). Below a node with a cached hash all nodes are hashed
(`Settled`), so the committer takes a node without a hash rightly for one that is stored in its
parent. The database is stocked.
-/

namespace Virbicoin.Mpt

open Virbicoin.Lib Virbicoin.Lib.Patricia Function Finmap

/-! ## Cached hashes -/

section Settled

variable (keccak : Bytes → Hash)

def Hashed (force : Bool) (n : Node) : Prop := (hash keccak n force).2 = n

/-- Below a node with a cached hash all nodes are hashed. -/
def Settled : Node → Prop
  | .nil => True
  | .value _ => True
  | .hash _ => True
  | .short _ c fl => (fl.hash ≠ none → Hashed keccak false c) ∧ Settled c
  | .full ch fl => (fl.hash ≠ none → ∀ i, Hashed keccak false (ch i)) ∧ ∀ i, Settled (ch i)

variable {keccak} {n c : Node} {ch : Nibble → Node} {k : List Nibble} {fl : NodeFlag} {force : Bool}

def fullRaw (keccak : Bytes → Hash) (ch : Nibble → Node) : RawNode :=
  .full fun i => if i ≠ terminator ∧ (ch i).isNil then .value [] else (hash keccak (ch i) false).1

theorem eq_of_hash? {raw : RawNode} {h : Hash} (hraw : raw.hash? = some h) : raw = .hash h := by
  cases raw with
  | hash h' => rw [Option.some.inj hraw]
  | _ => cases hraw

theorem hash_of_cached {h : Hash} (hn : n.cachedHash = some h) :
    hash keccak n force = (.hash h, n) := by
  cases n with
  | short k c fl | full ch fl =>
    rw [hash]
    simp only [Node.cachedHash] at hn
    rw [hn]
  | _ => cases hn

theorem hash_short (hfl : fl.hash = none) : hash keccak (.short k c fl) force =
      (toHash keccak (.short (hexToCompact k) (hash keccak c false).1) force,
        .short k (hash keccak c false).2 { fl with hash :=
          (toHash keccak (.short (hexToCompact k) (hash keccak c false).1) force).hash? }) := by
  rw [hash, hfl]

theorem hash_full (hfl : fl.hash = none) : hash keccak (.full ch fl) force =
      (toHash keccak (fullRaw keccak ch) force,
        .full (fun i => (hash keccak (ch i) false).2) { fl with hash :=
          (toHash keccak (fullRaw keccak ch) force).hash? }) := by
  rw [hash, hfl]
  rfl

theorem hashed_of_cached {h : Hash} (hn : n.cachedHash = some h) : Hashed keccak force n := by
  rw [Hashed, hash_of_cached hn]

theorem hashed_short (hfl : fl.hash = none) :
    Hashed keccak force (.short k c fl) ↔ Hashed keccak false c ∧
      (toHash keccak (.short (hexToCompact k) (hash keccak c false).1) force).hash? = none := by
  obtain ⟨hash, dirty⟩ := fl
  obtain rfl : hash = none := hfl
  rw [Hashed, hash_short rfl]
  simp [Hashed]

theorem hashed_full (hfl : fl.hash = none) :
    Hashed keccak force (.full ch fl) ↔ (∀ i, Hashed keccak false (ch i)) ∧
      (toHash keccak (fullRaw keccak ch) force).hash? = none := by
  obtain ⟨hash, dirty⟩ := fl
  obtain rfl : hash = none := hfl
  rw [Hashed, hash_full rfl]
  simp [Hashed, funext_iff]

theorem hash_isNil : (hash keccak n force).2.isNil = n.isNil := by
  cases n with
  | short k c fl | full ch fl =>
    rw [hash]
    cases fl.hash <;> rfl
  | _ => rfl

theorem hash_hash : hash keccak (hash keccak n force).2 force = hash keccak n force := by
  induction n generalizing force with
  | nil | value v | hash h => rfl
  | short k c fl ih =>
    cases hfl : fl.hash with
    | some h =>
      rw [hash_of_cached (n := .short k c fl) hfl, hash_of_cached (n := .short k c fl) hfl]
    | none =>
      rw [hash_short hfl]
      cases hraw : (toHash keccak (.short (hexToCompact k) (hash keccak c false).1)
        force).hash? with
      | some h => rw [hash_of_cached rfl, eq_of_hash? hraw]
      | none => rw [hash_short rfl, ih, hraw]
  | full ch fl ih =>
    cases hfl : fl.hash with
    | some h => rw [hash_of_cached (n := .full ch fl) hfl, hash_of_cached (n := .full ch fl) hfl]
    | none =>
      have hraw' : fullRaw keccak (fun i => (hash keccak (ch i) false).2) = fullRaw keccak ch := by
        simp only [fullRaw, hash_isNil, ih]
      rw [hash_full hfl]
      cases hraw : (toHash keccak (fullRaw keccak ch) force).hash? with
      | some h => rw [hash_of_cached rfl, eq_of_hash? hraw]
      | none =>
        rw [hash_full rfl, hraw', hraw]
        simp only [ih]

theorem hashed_hash : Hashed keccak force (hash keccak n force).2 := by rw [Hashed, hash_hash]

theorem settled_hash (h : Settled keccak n) (force : Bool) :
    Settled keccak (hash keccak n force).2 := by
  induction n generalizing force with
  | nil | value v | hash h => trivial
  | short k c fl ih =>
    cases hfl : fl.hash with
    | some hsh => rwa [hash_of_cached (n := .short k c fl) hfl]
    | none =>
      rw [hash_short hfl]
      exact ⟨fun _ => hashed_hash, ih h.2 false⟩
  | full ch fl ih =>
    cases hfl : fl.hash with
    | some hsh => rwa [hash_of_cached (n := .full ch fl) hfl]
    | none =>
      rw [hash_full hfl]
      exact ⟨fun _ i => hashed_hash, fun i => ih i (h.2 i) false⟩

/-! ### Loaded nodes -/

theorem loadRef_isNil : (loadRef keccak t).isNil = isNil t := by
  cases t with
  | nil | value v => rfl
  | short k t | full ch =>
    rw [loadRef]
    split <;> rfl

theorem hash_loadRef (t : PTree) :
    hash keccak (loadRef keccak t) false = (ref keccak t, loadRef keccak t) := by
  have hsmall : ∀ {s}, (encoding keccak s).length < 32 →
      toHash keccak (collapse keccak s) false = collapse keccak s := by
    intro s hs
    rw [toHash, if_pos ⟨hs, rfl⟩]
  induction t with
  | nil | value v => rfl
  | short k t ih =>
    rw [loadRef]
    split
    · rename_i hlt
      have hraw : RawNode.short (hexToCompact k) (hash keccak (loadRef keccak t) false).1 =
          collapse keccak (.short k t) := by
        rw [ih]
        rfl
      rw [hash_short rfl, hraw, hsmall hlt, ih, ref_small rfl hlt]
      rfl
    rename_i hlt
    rw [ref_large rfl (not_lt.1 hlt)]
    rfl
  | full ch ih =>
    rw [loadRef]
    split
    · rename_i hlt
      have hraw : fullRaw keccak (fun i => loadRef keccak (ch i)) = collapse keccak (.full ch) := by
        simp only [fullRaw, loadRef_isNil, ih]
        rfl
      rw [hash_full rfl, hraw, hsmall hlt, ref_small rfl hlt]
      simp only [ih]
      rfl
    rename_i hlt
    rw [ref_large rfl (not_lt.1 hlt)]
    rfl

theorem hashed_loadRef (t : PTree) : Hashed keccak false (loadRef keccak t) := by
  rw [Hashed, hash_loadRef]

theorem settled_loadRef (t : PTree) : Settled keccak (loadRef keccak t) := by
  induction t with
  | nil | value v => trivial
  | short k t ih | full ch ih =>
    rw [loadRef]
    split
    · exact ⟨fun hne => absurd rfl hne, ih⟩
    · trivial

theorem settled_load (hash : Option Hash) (t : PTree) : Settled keccak (load keccak hash t) := by
  cases t with
  | nil | value v => trivial
  | short k t => exact ⟨fun _ => hashed_loadRef t, settled_loadRef t⟩
  | full ch => exact ⟨fun _ i => hashed_loadRef (ch i), fun i => settled_loadRef (ch i)⟩

/-! ### Changes -/

variable {db : NodeReader}

theorem settled_newShort (h : Settled keccak c) : Settled keccak (.short k c newFlag) :=
  ⟨fun hne => absurd rfl hne, h⟩

theorem settled_newFull (h : ∀ i, Settled keccak (ch i)) : Settled keccak (.full ch newFlag) :=
  ⟨fun hne => absurd rfl hne, h⟩

theorem settled_update (h : ∀ i, Settled keccak (ch i)) (hn : Settled keccak n) (a i : Nibble) :
    Settled keccak (update ch a n i) :=
  (forall_update_iff ch fun _ c => Settled keccak c).2 ⟨hn, fun i _ => h i⟩ i

theorem settled_insertNil (h : Settled keccak n) (key : List Nibble) :
    Settled keccak (insertNil key n) := by
  cases key with
  | nil => exact h
  | cons a key => exact settled_newShort h

theorem settled_nil : Settled keccak .nil := trivial

theorem settled_value (v : Bytes) : Settled keccak (.value v) := trivial

variable {path key : List Nibble} {r : Bool × Node}

theorem settled_branchOut {v : Bytes} (h : Settled keccak c)
    (hr : branchOut k c key (.value v) = .ok r) : Settled keccak r.2 := by
  unfold branchOut at hr
  dsimp only at hr
  split at hr
  · rename_i a k' b key' _ _
    have hbranch : Settled keccak (.full (update (update (fun _ => .nil) a
        (insertNil k' c)) b (insertNil key' (.value v))) newFlag) :=
      settled_newFull (settled_update (settled_update (fun _ => settled_nil)
        (settled_insertNil h k') a) (settled_insertNil (settled_value v) key') b)
    split at hr
    · cases hr
      exact hbranch
    · cases hr
      exact settled_newShort hbranch
  · cases hr

theorem settled_insertEnd {v : Bytes} (hr : insertEnd n (.value v) = .ok r) :
    Settled keccak r.2 := by
  cases n <;> cases hr <;> exact settled_value v

/-- What an operation does at a hash leaves a settled node. -/
def SettledAt (keccak : Bytes → Hash)
    (onHash : Hash → List Nibble → List Nibble → Except Err (Bool × Node)) : Prop :=
  ∀ h path key r, onHash h path key = .ok r → Settled keccak r.2

theorem settled_insertWith {onHash : Hash → List Nibble → List Nibble → Except Err (Bool × Node)}
    (hhash : SettledAt keccak onHash) {v : Bytes} (h : Settled keccak n)
    (hr : insertWith onHash (.value v) n path key = .ok r) :
    Settled keccak r.2 := by
  induction n generalizing path key r with
  | nil =>
    cases key with
    | nil => exact settled_insertEnd hr
    | cons a key =>
      cases hr
      exact settled_newShort (settled_value v)
  | value w =>
    cases key with
    | nil => exact settled_insertEnd hr
    | cons a key => cases hr
  | hash hsh =>
    cases key with
    | nil => exact settled_insertEnd hr
    | cons a key => exact hhash _ _ _ _ hr
  | short k c fl ih =>
    cases key with
    | nil => exact settled_insertEnd hr
    | cons a key =>
      rw [insertWith] at hr
      split at hr
      · obtain ⟨⟨dirty, nn⟩, hnn, hr⟩ := bind_eq_ok.1 hr
        cases dirty with
        | true =>
          cases hr
          exact settled_newShort (ih h.2 hnn)
        | false =>
          cases hr
          exact h
      · exact settled_branchOut h.2 hr
  | full ch fl ih =>
    cases key with
    | nil => exact settled_insertEnd hr
    | cons a key =>
      obtain ⟨⟨dirty, nn⟩, hnn, hr⟩ := bind_eq_ok.1 hr
      cases dirty with
      | true =>
        cases hr
        exact settled_newFull (settled_update h.2 (ih a (h.2 a) hnn) a)
      | false =>
        cases hr
        exact h

def SettledDb (keccak : Bytes → Hash) (db : NodeReader) : Prop :=
  ∀ h n, db h = some n → Settled keccak n

variable (hdb : SettledDb keccak db)
include hdb

theorem SettledDb.resolveHash {h : Hash} (hn : resolveHash db h path = .ok n) :
    Settled keccak n := by
  unfold Mpt.resolveHash at hn
  split at hn
  · rename_i hdb'
    cases hn
    exact hdb _ _ hdb'
  · cases hn

theorem settledAt_resolve {next : Node → List Nibble → List Nibble → Except Err (Bool × Node)}
    (hnext : ∀ n path key r, Settled keccak n → next n path key = .ok r → Settled keccak r.2) :
    SettledAt keccak fun h path key => (do
      let rn ← resolveHash db h path
      let (dirty, nn) ← next rn path key
      if dirty then .ok (true, nn) else .ok (false, rn)) := by
  intro h path key r hr
  obtain ⟨rn, hrn, hr⟩ := bind_eq_ok.1 hr
  obtain ⟨⟨dirty, nn⟩, hnn, hr⟩ := bind_eq_ok.1 hr
  have hloaded := hdb.resolveHash hrn
  cases dirty with
  | true =>
    cases hr
    exact hnext _ _ _ _ hloaded hnn
  | false =>
    cases hr
    exact hloaded

theorem settled_insert {fuel : Nat} {v : Bytes} (h : Settled keccak n)
    (hr : insert db (.value v) fuel n path key = .ok r) : Settled keccak r.2 := by
  induction fuel generalizing n path key r with
  | zero => exact settled_insertWith (fun _ _ _ _ hr => by cases hr) h hr
  | succ fuel ih =>
    exact settled_insertWith (settledAt_resolve hdb fun _ _ _ _ h hr => ih h hr) h hr

theorem settled_reduceFull (h : ∀ i, Settled keccak (ch i))
    (hr : reduceFull db ch path = .ok r) : Settled keccak r.2 := by
  unfold reduceFull at hr
  split at hr
  · cases hr
    exact settled_newFull h
  rename_i pos _
  split at hr
  · obtain ⟨loaded, hres, hr⟩ := bind_eq_ok.1 hr
    have hloaded : Settled keccak loaded := by
      unfold resolve at hres
      split at hres
      · exact hdb.resolveHash hres
      cases hres
      exact h pos
    split at hr
    · cases hr
      exact settled_newShort hloaded.2
    · cases hr
      exact settled_newShort (h pos)
  cases hr
  exact settled_newShort (h pos)

theorem settled_deleteWith {onHash : Hash → List Nibble → List Nibble → Except Err (Bool × Node)}
    (hhash : SettledAt keccak onHash) (h : Settled keccak n)
    (hr : deleteWith db onHash n path key = .ok r) :
    Settled keccak r.2 := by
  induction n generalizing path key r with
  | nil | value w =>
    cases hr
    exact settled_nil
  | hash hsh => exact hhash _ _ _ _ hr
  | short k c fl ih =>
    rw [deleteWith] at hr
    split at hr
    · cases hr
      exact h
    split at hr
    · cases hr
      exact settled_nil
    obtain ⟨⟨dirty, child⟩, hchild, hr⟩ := bind_eq_ok.1 hr
    have hc : Settled keccak child := ih h.2 hchild
    cases dirty with
    | true =>
      cases child with
      | short k' c' fl' =>
        cases hr
        exact settled_newShort hc.2
      | _ =>
        cases hr
        exact settled_newShort hc
    | false =>
      cases hr
      exact h
  | full ch fl ih =>
    cases key with
    | nil => cases hr
    | cons a key =>
      obtain ⟨⟨dirty, nn⟩, hnn, hr⟩ := bind_eq_ok.1 hr
      cases dirty with
      | true => exact settled_reduceFull hdb (settled_update h.2 (ih a (h.2 a) hnn) a) hr
      | false =>
        cases hr
        exact h

theorem settled_delete {fuel : Nat} (h : Settled keccak n)
    (hr : delete db fuel n path key = .ok r) : Settled keccak r.2 := by
  induction fuel generalizing n path key r with
  | zero => exact settled_deleteWith hdb (fun _ _ _ _ hr => by cases hr) h hr
  | succ fuel ih =>
    exact settled_deleteWith hdb (settledAt_resolve hdb fun _ _ _ _ h hr => ih h hr) h hr

theorem settled_tryGet {known : NodeReader} {ok : Bool → NodeFlag → PTree → Prop} {isRoot : Bool}
    {t : PTree} (hflags : FlagsOk keccak ok) (hload : LoadsHash known) (hle : known.Le db)
    (h : Denotes known ok isRoot n t) (hkey : Fits terminator t key)
    {fuel : Nat} (hfuel : need n key ≤ fuel) {r : Option Bytes × Node × Bool}
    (hset : Settled keccak n) (hr : tryGet db fuel n path key = .ok r) :
    Settled keccak r.2.1 ∧ (Hashed keccak isRoot n → Hashed keccak isRoot r.2.1) := by
  have href : ∀ {c c' : Node} {t : PTree}, Denotes known ok false c t →
    Denotes known ok false c' t →
      (hash keccak c' false).1 = (hash keccak c false).1 := fun hc hc' => by
    rw [(hash_denotes hflags hload hc).1, (hash_denotes hflags hload hc').1]
  induction h generalizing key fuel path r with
  | nil | value v => cases fuel <;> cases hr <;> exact ⟨hset, id⟩
  | short hfl h ih =>
    rename_i isRoot k c fl t
    rw [tryGet_short] at hr
    by_cases hpre : k <+: key
    · obtain ⟨rest, rfl⟩ := hpre
      have hneed := need_short_child hkey.short.2.key_ne_nil hfuel
      obtain ⟨c', didResolve, hget, hc'⟩ :=
        tryGet_denotes hle h hkey.short_child hneed (path ++ k)
      obtain ⟨hset', hhashed⟩ := ih hkey.short_child hneed hset.2 hget
      simp only [List.prefix_append, if_true, List.drop_left, hget] at hr
      cases hr
      cases didResolve with
      | false => exact ⟨hset, id⟩
      | true =>
        refine ⟨⟨fun hne => hhashed (hset.1 hne), hset'⟩, fun hself => ?_⟩
        cases hcached : fl.hash with
        | some hsh => exact hashed_of_cached (n := .short k c' fl) hcached
        | none =>
          rw [hashed_short hcached] at hself
          refine (hashed_short hcached).2 ⟨hhashed hself.1, ?_⟩
          rw [href h hc']
          exact hself.2
    rw [if_neg hpre] at hr
    cases hr
    exact ⟨hset, id⟩
  | full hfl h ih =>
    rename_i isRoot ch fl tch
    obtain ⟨a, key, rfl⟩ := List.exists_cons_of_ne_nil hkey.full.1.ne_nil
    have hneed := need_full_child hfuel
    obtain ⟨c', didResolve, hget, hc'⟩ :=
      tryGet_denotes hle (h a) hkey.full_child hneed (path ++ [a])
    obtain ⟨hset', hhashed⟩ := ih a hkey.full_child hneed (hset.2 a) hget
    rw [tryGet_full, hget] at hr
    cases hr
    cases didResolve with
    | false => exact ⟨hset, id⟩
    | true =>
      have hupd : (∀ i, Hashed keccak false (ch i)) →
          ∀ i, Hashed keccak false (update ch a c' i) := fun hall =>
        (forall_update_iff ch fun _ c => Hashed keccak false c).2
          ⟨hhashed (hall a), fun i _ => hall i⟩
      refine ⟨⟨fun hne => hupd (hset.1 hne), settled_update hset.2 hset' a⟩, fun hself => ?_⟩
      cases hcached : fl.hash with
      | some hsh => exact hashed_of_cached (n := .full (update ch a c') fl) hcached
      | none =>
        rw [hashed_full hcached] at hself
        refine (hashed_full hcached).2 ⟨hupd hself.1, ?_⟩
        have hraw : fullRaw keccak (update ch a c') = fullRaw keccak ch := by
          unfold fullRaw
          congr 1
          funext i
          by_cases hi : i = a
          · subst hi
            rw [update_self, href (h i) hc', hc'.isNil_eq, (h i).isNil_eq]
          · rw [update_of_ne hi]
        rw [hraw]
        exact hself.2
  | hash hknown hinner hn ih =>
    rename_i isRoot hsh n t
    obtain ⟨fuel, rfl, hneed⟩ := need_hash hinner hfuel
    obtain ⟨n', didResolve, hget, -⟩ := tryGet_denotes hle hn hkey hneed path
    obtain ⟨hset', hhashed⟩ := ih hkey hneed (hdb _ _ (hle hknown)) hget
    simp only [tryGet, tryGetWith, resolveHash, hle hknown] at hr
    change (tryGet db fuel n path key >>= fun r => .ok (r.1, r.2.1, true)) = _ at hr
    rw [hget] at hr
    cases hr
    exact ⟨hset', fun _ => hhashed (hashed_of_cached (hload _ _ hknown hinner))⟩

end Settled

/-! ## What the flags say -/

section Stowed

variable {keccak : Bytes → Hash} {P Q : Hash → Prop} {isRoot : Bool} {n : Node} {t : PTree}

/-- Cached hashes are right. A clean node is stored with all that is below it, on its own if it has
a hash and in its parent otherwise. -/
structure Stowed (keccak : Bytes → Hash) (P : Hash → Prop) (isRoot : Bool) (fl : NodeFlag)
    (t : PTree) : Prop where
  cached : ∀ h, fl.hash = some h → CachedHash keccak isRoot h t
  kept : ∀ h, fl.hash = some h → fl.dirty = false → Kept keccak P t
  embedded : fl.hash = none → fl.dirty = false →
    isRoot = false ∧ (encoding keccak t).length < 32

theorem flagsOk_stowed (keccak : Bytes → Hash) (P : Hash → Prop) :
    FlagsOk keccak (Stowed keccak P) where
  cached hok hfl := hok.cached _ hfl
  set := by
    intro isRoot fl t h hok hnone hc
    refine ⟨fun h' hfl => ?_, fun h' _ hdirty => ?_, nofun⟩
    · obtain rfl : h = h' := Option.some.inj hfl
      exact hc
    · obtain ⟨hroot, hlt⟩ := hok.embedded hnone hdirty
      exact absurd (hc.2 hroot) (not_le.2 hlt)

theorem Stowed.mono {fl : NodeFlag} (h : Stowed keccak P isRoot fl t) (hPQ : ∀ h, P h → Q h) :
    Stowed keccak Q isRoot fl t :=
  ⟨h.cached, fun hsh hfl hdirty => (h.kept hsh hfl hdirty).mono hPQ, h.embedded⟩

theorem Stowed.kept_of_root {fl : NodeFlag} (h : Stowed keccak P true fl t)
    (hclean : fl.dirty = false) : Kept keccak P t := by
  cases hcached : fl.hash with
  | some hsh => exact h.kept _ hcached hclean
  | none => exact absurd (h.embedded hcached hclean).1 (by decide)

variable {known : NodeReader}

/-- Loaded nodes know their hash and are clean. -/
def LoadsClean (known : NodeReader) : Prop :=
  ∀ h n, known h = some n → n.isInner = true → n.cachedHash = some h ∧ n.dirty = false

theorem LoadsClean.loadsHash (h : LoadsClean known) : LoadsHash known :=
  fun hsh n hn hinner => (h hsh n hn hinner).1

theorem Denotes.kept (hload : LoadsClean known) {h : Hash}
    (hn : Denotes known (Stowed keccak P) isRoot (.hash h) t) :
    CachedHash keccak isRoot h t ∧ Kept keccak P t := by
  cases hn with
  | hash hknown hinner hn =>
    obtain ⟨hcached, hclean⟩ := hload _ _ hknown hinner
    cases hn with
    | short hfl h | full hfl h => exact ⟨hfl.cached _ hcached, hfl.kept _ hcached hclean⟩
    | _ => cases hinner

/-- The reader returns every tree whose hash has the property `P`. -/
def Returns (keccak : Bytes → Hash) (U : Set PTree) (P : Hash → Prop) (known : NodeReader) : Prop :=
  ∀ {t}, t ∈ U → P (hashOf keccak t) →
    known (hashOf keccak t) = some (load keccak (some (hashOf keccak t)) t)

variable {rank : Hash → Nat} {U : Set PTree} {known : NodeReader}

theorem stowed_load (hkept : Kept keccak P t)
    (hlen : isRoot = false → 32 ≤ (encoding keccak t).length) :
    Stowed keccak P isRoot ⟨some (hashOf keccak t), false⟩ t := by
  refine ⟨fun h hfl => ?_, fun _ _ _ => hkept, nofun⟩
  obtain rfl := Option.some.inj hfl
  exact ⟨rfl, hlen⟩

theorem stowed_plain (hlt : (encoding keccak t).length < 32) :
    Stowed keccak P false ⟨none, false⟩ t := by
  refine ⟨?_, ?_, fun _ _ => ⟨rfl, hlt⟩⟩
  · nofun
  · nofun

theorem denotes_loadRef (hret : Returns keccak U P known) (hU : CollisionFreeOn keccak rank U)
    (ht : isInner t = true → t ∈ U) (h : StoredFrom keccak P t) :
    Denotes known (Stowed keccak P) false (loadRef keccak t) t := by
  induction t with
  | nil => exact .nil
  | value v => exact .value v
  | short k t ih =>
    have hc := ih (hU.sub (ht rfl) (.short .refl)) h.2
    rw [loadRef]
    split
    · rename_i hlt
      exact .short (stowed_plain hlt) hc
    rename_i hlt
    have hlen := not_lt.1 hlt
    have hkept := h.1 rfl hlen
    exact .hash (hret (ht rfl) hkept) rfl (.short (stowed_load ⟨hkept, h.2⟩ fun _ => hlen) hc)
  | full ch ih =>
    have hc : ∀ i, Denotes known (Stowed keccak P) false (loadRef keccak (ch i)) (ch i) :=
      fun i => ih i (hU.sub (ht rfl) (.full .refl)) (h.2 i)
    rw [loadRef]
    split
    · rename_i hlt
      exact .full (stowed_plain hlt) hc
    rename_i hlt
    have hlen := not_lt.1 hlt
    have hkept := h.1 rfl hlen
    exact .hash (hret (ht rfl) hkept) rfl (.full (stowed_load ⟨hkept, h.2⟩ fun _ => hlen) hc)

theorem denotes_load (hret : Returns keccak U P known) (hU : CollisionFreeOn keccak rank U)
    (ht : t ∈ U) (hkept : Kept keccak P t) :
    Denotes known (Stowed keccak P) true (load keccak (some (hashOf keccak t)) t) t := by
  have hinner := isInner_of_canon (hU.canon ht)
  have hflags : Stowed keccak P true ⟨some (hashOf keccak t), false⟩ t := stowed_load hkept nofun
  cases t with
  | nil | value v => cases hinner
  | short k t => exact .short hflags (denotes_loadRef hret hU (hU.sub ht (.short .refl)) hkept.2)
  | full ch =>
    exact .full hflags fun i => denotes_loadRef hret hU (hU.sub ht (.full .refl)) (hkept.2 i)

end Stowed

/-! ## Stocked databases as readers -/

section Reader

variable {keccak : Bytes → Hash} {rank : Hash → Nat} {U : Set PTree} {db db' : Database}
  {l l' : List Hash}

theorem load_cachedHash {t : PTree} (h : isInner t = true) (hash : Option Hash) :
    (load keccak hash t).cachedHash = hash ∧ (load keccak hash t).dirty = false := by
  cases t with
  | nil | value v => cases h
  | short k t | full ch => exact ⟨rfl, rfl⟩

variable (hdb : Stocked keccak U db) (hU : CollisionFreeOn keccak rank U)
include hdb hU

theorem Stocked.returns : Returns keccak U db.Retrievable db.node := hdb.node hU

theorem Stocked.loadsClean (hwf : db.Wf rank l []) : LoadsClean db.node := by
  intro h n hn hinner
  obtain ⟨-, rfl⟩ | ⟨t, ht, rfl, -, rfl⟩ := hdb.node_inv hU hwf hn
  · cases hinner
  · exact load_cachedHash (isInner_of_canon (hU.canon ht)) _

theorem Stocked.settledDb (hwf : db.Wf rank l []) : SettledDb keccak db.node := by
  intro h n hn
  obtain ⟨-, rfl⟩ | ⟨t, ht, rfl, -, rfl⟩ := hdb.node_inv hU hwf hn
  · exact settled_nil
  · exact settled_load _ t

theorem Stocked.le (hdb' : Stocked keccak U db') (hwf : db.Wf rank l [])
    (hwf' : db'.Wf rank l' []) (hmono : ∀ h, db.Retrievable h → db'.Retrievable h) :
    db.node.Le db'.node := by
  intro h n hn
  obtain ⟨rfl, rfl⟩ | ⟨t, ht, rfl, hret, rfl⟩ := hdb.node_inv hU hwf hn
  · obtain ⟨m, hm, hnode⟩ := hwf'.lookup_zero
    rw [Database.node, hm]
    simp only [hnode]
    rfl
  · exact hdb'.node hU ht (hmono _ hret)

end Reader

/-! ## Committing -/

section Commit

variable {keccak : Bytes → Hash} {rank : Hash → Nat} {U : Set PTree} {db db' db'' : Database}
  {isRoot : Bool} {n : Node} {t : PTree}

structure Extends (keccak : Bytes → Hash) (rank : Hash → Nat) (U : Set PTree) (db db' : Database) :
    Prop where
  wf : ∃ l, db'.Wf rank l []
  stocked : Stocked keccak U db'
  mono : ∀ h, db.Retrievable h → db'.Retrievable h

theorem Extends.trans (h : Extends keccak rank U db db') (h' : Extends keccak rank U db' db'') :
    Extends keccak rank U db db'' :=
  ⟨h'.wf, h'.stocked, fun hsh hh => h'.mono hsh (h.mono hsh hh)⟩

theorem Extends.refl (h : Extends keccak rank U db db') : Extends keccak rank U db' db' :=
  ⟨h.wf, h.stocked, fun _ => id⟩

variable (hU : CollisionFreeOn keccak rank U)
include hU

theorem insert_stored (hdb : Extends keccak rank U db db) (ht : t ∈ U)
    (hbelow : StoredBelow keccak db.Retrievable t) (size : Nat) :
    ∃ db', db.insert (hashOf keccak t) size (stored keccak t) = .ok db' ∧
      Extends keccak rank U db db' ∧ db'.Retrievable (hashOf keccak t) := by
  obtain ⟨l, hwf⟩ := hdb.wf
  by_cases hmem : hashOf keccak t ∈ db.dirties
  · obtain ⟨n, hn⟩ := mem_iff.1 hmem
    exact ⟨db, by rw [Database.insert, hn], hdb, .inl hmem⟩
  have hkids : ∀ c ∈ (stored keccak t).gatherChildren, c ≠ 0 ∧ rank c < rank (hashOf keccak t) := by
    intro c hc
    have hne : StoredBelow keccak (· ≠ 0) t :=
      hU.storedBelow_of_forall (fun _ => hU.ne_zero) fun _ => ht
    exact ⟨hne.gatherChildren c hc, (hU.rank_lt ht).gatherChildren c hc⟩
  obtain ⟨db', f, hok, hwf', hdisk, -, -, hself, hother, -⟩ :=
    Database.insert_spec hwf hmem hkids size
  have hmem' : ∀ a, a ∈ db'.dirties ↔ a = hashOf keccak t ∨ a ∈ db.dirties := by
    intro a
    rw [Database.mem_iff_entry]
    by_cases ha : a = hashOf keccak t
    · rw [ha, hself]
      simp
    · rw [hother a ha, Option.isSome_map, ← Database.mem_iff_entry]
      simp [ha]
  have hret : ∀ a, db'.Retrievable a ↔ a = hashOf keccak t ∨ db.Retrievable a := by
    intro a
    rw [Database.Retrievable, Database.Retrievable, hmem', hdisk, or_assoc]
  refine ⟨db', hok, ⟨⟨_, hwf'⟩, ⟨?_, ?_, ?_, ?_⟩, fun a ha => (hret a).2 (.inr ha)⟩,
    (hret _).2 (.inl rfl)⟩
  · intro a n h0 hn
    by_cases ha : a = hashOf keccak t
    · rw [ha, hself] at hn
      rw [← Option.some.inj hn]
      exact ⟨t, ht, ha, rfl⟩
    rw [hother a ha] at hn
    obtain ⟨m, hm, rfl⟩ := Option.map_eq_some_iff.1 hn
    obtain ⟨s, hs, heq, hnode⟩ := hdb.stocked.cached h0 hm
    exact ⟨s, hs, heq, hnode⟩
  · rw [hdisk]
    exact hdb.stocked.disk
  · intro s hs hrets c hc
    refine (hret c).2 (.inr ?_)
    rcases (hret _).1 hrets with heq | hrets
    · obtain rfl := hU.inj hs ht heq
      exact hbelow.gatherChildren c hc
    · exact hdb.stocked.kids hs hrets c hc
  · rw [hdisk]
    exact hdb.stocked.closed

def storedAt (keccak : Bytes → Hash) (isRoot : Bool) (t : PTree) : RawNode :=
  if isRoot = true ∨ 32 ≤ (encoding keccak t).length then .hash (hashOf keccak t)
  else stored keccak t

omit hU in
theorem storedAt_false (h : isInner t = true) :
    storedAt keccak false t = storedRef keccak t (stored keccak t) := by
  exact if_congr (by simp [h]) rfl rfl

/-- The node of `t` was committed: it is stored on its own or to be stored in its parent, and what
is below it is stored. -/
structure Committed (keccak : Bytes → Hash) (rank : Hash → Nat) (U : Set PTree) (isRoot : Bool)
    (t : PTree) (db : Database) (raw : RawNode) (db' : Database) : Prop where
  ext : Extends keccak rank U db db'
  raw : raw = storedAt keccak isRoot t
  self : isRoot = true ∨ 32 ≤ (encoding keccak t).length → db'.Retrievable (hashOf keccak t)
  below : StoredBelow keccak db'.Retrievable t

omit hU in
theorem committed_of_kept (hdb : Extends keccak rank U db db) {h : Hash}
    (hc : CachedHash keccak isRoot h t) (hkept : Kept keccak db.Retrievable t) :
    Committed keccak rank U isRoot t db (.hash h) db := by
  refine ⟨hdb, ?_, fun _ => hkept.1, hkept.2⟩
  have hlarge : isRoot = true ∨ 32 ≤ (encoding keccak t).length := by
    by_cases hroot : isRoot = true
    · exact .inl hroot
    · exact .inr (hc.2 (by simpa using hroot))
  rw [storedAt, if_pos hlarge, hc.1]
  rfl

variable {known : NodeReader}

omit hU in
theorem Denotes.small_of_hashed {ok : Bool → NodeFlag → PTree → Prop} (hflags : FlagsOk keccak ok)
    (hload : LoadsHash known) (h : Denotes known ok isRoot n t) (hinner : n.isInner = true)
    (hhashed : Hashed keccak isRoot n) (hn : n.cachedHash = none) :
    isRoot = false ∧ (encoding keccak t).length < 32 := by
  have hnone : (Mpt.hash keccak n isRoot).1.hash? = none := by
    cases n with
    | short k c fl =>
      rw [hash_short hn]
      exact ((hashed_short hn).1 hhashed).2
    | full ch fl =>
      rw [hash_full hn]
      exact ((hashed_full hn).1 hhashed).2
    | _ => cases hinner
  rw [(hash_denotes hflags hload h).1, refAt_of_inner (h.isInner hinner), toHash] at hnone
  split at hnone
  · rename_i hsmall
    exact ⟨hsmall.2, hsmall.1⟩
  · cases hnone

theorem store_stored (hdb : Extends keccak rank U db db) (ht : t ∈ U) {hash : Option Hash}
    (hcached : ∀ h, hash = some h → CachedHash keccak isRoot h t)
    (hsmall : hash = none → isRoot = false ∧ (encoding keccak t).length < 32)
    (hbelow : StoredBelow keccak db.Retrievable t) :
    ∃ raw db', Committer.store hash (stored keccak t) db = .ok (raw, db') ∧
      Committed keccak rank U isRoot t db raw db' := by
  cases hash with
  | none =>
    obtain ⟨rfl, hlt⟩ := hsmall rfl
    have hnot : ¬ (false = true ∨ 32 ≤ (encoding keccak t).length) := by
      rintro (hf | hle)
      · cases hf
      · omega
    exact ⟨stored keccak t, db, rfl, hdb, by rw [storedAt, if_neg hnot],
      fun hlarge => absurd hlarge hnot, hbelow⟩
  | some h =>
    have hc := hcached h rfl
    obtain ⟨db', hok, hext, hself⟩ :=
      insert_stored hU hdb ht hbelow (stored keccak t).estimateSize
    have hcomm := committed_of_kept hext.refl hc ⟨hself, hbelow.mono hext.mono⟩
    refine ⟨.hash h, db', ?_, hext, hcomm.raw, hcomm.self, hcomm.below⟩
    rw [hc.1]
    exact bind_eq_ok.2 ⟨db', hok, rfl⟩

omit hU in
theorem foldlM_commitChildren {db0 : Database} {ch : Nibble → Node} {tch : Nibble → PTree}
    (hnil : ∀ i, (ch i).isNil = isNil (tch i))
    (hrec : ∀ i, i ≠ terminator → tch i ≠ .nil → ∀ db, Extends keccak rank U db0 db →
      ∃ raw db', Committer.commit (ch i) db = .ok (raw, db') ∧ isInner (tch i) = true ∧
        Committed keccak rank U false (tch i) db raw db') :
    ∀ {is : List Nibble} {kids : Nibble → RawNode} {db : Database},
      (∀ i ∈ is, i ≠ terminator) → Extends keccak rank U db0 db →
      (∀ i, tch i = .nil → kids i = .nil) →
      ∃ kids' db', is.foldlM (fun s i =>
          if (ch i).isNil then .ok s
          else do
            let (kid, db) ← Committer.commit (ch i) s.2
            .ok (update s.1 i kid, db)) (kids, db) = .ok (kids', db') ∧
        Extends keccak rank U db db' ∧
        (∀ i, kids' i = if i ∈ is then storedRef keccak (tch i) (stored keccak (tch i))
          else kids i) ∧
        ∀ i ∈ is, StoredFrom keccak db'.Retrievable (tch i) := by
  intro is
  induction is with
  | nil =>
    intro kids db _ hext _
    exact ⟨kids, db, rfl, hext.refl, by simp, by simp⟩
  | cons i is ih =>
    intro kids db his hext hkids
    by_cases hi : tch i = .nil
    · obtain ⟨kids', db', hok, hext', hkids', hstored⟩ :=
        ih (fun j hj => his j (by simp [hj])) hext hkids
      refine ⟨kids', db', ?_, hext', fun j => ?_, fun j hj => ?_⟩
      · rw [List.foldlM_cons, hnil i, hi]
        exact hok
      · rw [hkids' j]
        by_cases hji : j = i
        · subst hji
          rw [hi, hkids j hi]
          exact (ite_self _).trans (ite_self _).symm
        · simp [hji]
      rcases List.mem_cons.1 hj with rfl | hj
      · rw [hi]
        exact ⟨nofun, trivial⟩
      · exact hstored j hj
    obtain ⟨raw, db₁, hok1, hinner, hcomm⟩ := hrec i (his i (by simp)) hi db hext
    have hkids1 : ∀ j, tch j = .nil → update kids i raw j = .nil := by
      intro j hj
      have hji : j ≠ i := fun hji => hi (hji ▸ hj)
      rw [update_of_ne hji]
      exact hkids j hj
    obtain ⟨kids', db', hok, hext', hkids', hstored⟩ :=
      ih (fun j hj => his j (by simp [hj])) (hext.trans hcomm.ext) hkids1
    refine ⟨kids', db', ?_, hcomm.ext.trans hext', fun j => ?_, fun j hj => ?_⟩
    · have hne : isNil (tch i) = false := Bool.eq_false_iff.2 fun h => hi (isNil_iff.1 h)
      rw [List.foldlM_cons, hnil i, hne]
      exact bind_eq_ok.2 ⟨_, bind_eq_ok.2 ⟨(raw, db₁), hok1, rfl⟩, hok⟩
    · rw [hkids' j]
      by_cases hji : j = i
      · subst hji
        rw [hcomm.raw, storedAt_false hinner]
        simp
      · simp [hji]
    by_cases hmem : j ∈ is
    · exact hstored j hmem
    obtain rfl : j = i := (List.mem_cons.1 hj).resolve_right hmem
    exact ⟨fun _ hlen => hext'.mono _ (hcomm.self (.inr hlen)), hcomm.below.mono hext'.mono⟩

omit hU in
theorem commit_shortChild {db0 : Database} {c : Node} {k : List Nibble}
    (hload : LoadsClean known) (h : Denotes known (Stowed keccak db0.Retrievable) false c t)
    (hcanon : Canon terminator (.short k t)) (hext : Extends keccak rank U db0 db)
    (hrec : isInner t = true → ∃ raw db', Committer.commit c db = .ok (raw, db') ∧
      Committed keccak rank U false t db raw db') :
    ∃ db', (if c.isFull then Committer.commit c db else .ok (simplifyNode c, db)) =
        .ok (storedRef keccak t (stored keccak t), db') ∧
      Extends keccak rank U db db' ∧ StoredFrom keccak db'.Retrievable t := by
  cases hcanon with
  | leaf hk =>
    rename_i v
    cases h with
    | value => exact ⟨db, by rw [storedRef_leaf rfl]; rfl, hext.refl, nofun, trivial⟩
    | hash hknown hinner h => exact absurd rfl ((Denotes.hash hknown hinner h).ne_value.2 v)
  | ext hne hk hfull =>
    cases h with
    | full hfl hch =>
      obtain ⟨raw, db', hok, hcomm⟩ := hrec rfl
      refine ⟨db', ?_, hcomm.ext, fun _ hlen => hcomm.self (.inr hlen), hcomm.below⟩
      rw [← storedAt_false rfl, ← hcomm.raw]
      exact hok
    | hash hknown hinner h =>
      obtain ⟨hc, hkept⟩ := (Denotes.hash hknown hinner h).kept hload
      refine ⟨db, ?_, hext.refl, fun _ _ => hext.mono _ hkept.1, hkept.2.mono hext.mono⟩
      rw [storedRef_large rfl (hc.2 rfl), ← hc.1]
      rfl

/-- **The committer stores the tree that a hashed node denotes**: the node itself and everything
that is below it. -/
theorem commit_denotes {db0 : Database} (hload : LoadsClean known)
    (h : Denotes known (Stowed keccak db0.Retrievable) isRoot n t) (ht : t ∈ U)
    (hset : Settled keccak n) (hhashed : Hashed keccak isRoot n)
    (hext : Extends keccak rank U db0 db) :
    ∃ raw db', Committer.commit n db = .ok (raw, db') ∧
      Committed keccak rank U isRoot t db raw db' := by
  have hflags := flagsOk_stowed keccak db0.Retrievable
  induction h generalizing db with
  | nil | value v => exact absurd (hU.canon ht) nofun
  | hash hknown hinner h ih =>
    obtain ⟨hc, hkept⟩ := (Denotes.hash hknown hinner h).kept hload
    exact ⟨_, db, rfl, committed_of_kept hext.refl hc (hkept.mono hext.mono)⟩
  | short hfl h ih =>
    rename_i isRoot k c fl t
    rw [Committer.commit]
    split
    · rename_i hsh hcached hclean
      exact ⟨_, db, rfl, committed_of_kept hext.refl (hfl.cached _ hcached)
        ((hfl.kept _ hcached hclean).mono hext.mono)⟩
    -- below a cached hash, and below a hashed node without one, everything is hashed
    have hchild : Hashed keccak false c := by
      cases hcached : fl.hash with
      | some hsh => exact hset.1 (by rw [hcached]; exact nofun)
      | none => exact ((hashed_short hcached).1 hhashed).1
    obtain ⟨db₁, hok1, hext1, hstored⟩ := commit_shortChild hload h (hU.canon ht) hext
      fun hinner => ih (hU.sub ht (.short .refl) hinner) hset.2 hchild hext
    obtain ⟨raw, db', hok, hcomm⟩ := store_stored hU hext1.refl ht hfl.cached
      (fun hnone => (Denotes.short hfl h).small_of_hashed hflags hload.loadsHash rfl
        hhashed hnone) hstored
    exact ⟨raw, db', bind_eq_ok.2 ⟨_, hok1, hok⟩, hext1.trans hcomm.ext, hcomm.raw, hcomm.self,
      hcomm.below⟩
  | full hfl h ih =>
    rename_i isRoot ch fl tch
    rw [Committer.commit]
    split
    · rename_i hsh hcached hclean
      exact ⟨_, db, rfl, committed_of_kept hext.refl (hfl.cached _ hcached)
        ((hfl.kept _ hcached hclean).mono hext.mono)⟩
    have hchild : ∀ i, Hashed keccak false (ch i) := by
      cases hcached : fl.hash with
      | some hsh => exact hset.1 (by rw [hcached]; exact nofun)
      | none => exact ((hashed_full hcached).1 hhashed).1
    obtain ⟨kids, db₁, hok1, hext1, hkids, hstored⟩ := foldlM_commitChildren
      (fun i => (h i).isNil_eq) (fun i hi hne db hext => by
        have hinner := isInner_of_canon ((canonical_child (hU.canon ht) hi).resolve_left hne)
        obtain ⟨raw, db', hok, hcomm⟩ :=
          ih i (hU.sub ht (.full .refl) hinner) (hset.2 i) (hchild i) hext
        exact ⟨raw, db', hok, hinner, hcomm⟩)
      (fun i hi => mem_childIndices.1 hi) hext fun i _ => rfl
    -- the value is taken as it is
    have hvalue : simplifyNode (ch terminator) =
        storedRef keccak (tch terminator) (stored keccak (tch terminator)) ∧
        StoredFrom keccak db₁.Retrievable (tch terminator) := by
      have hterm := h terminator
      obtain hv | ⟨v, hv⟩ := value_child (hU.canon ht)
      · rw [hv] at hterm ⊢
        rw [hterm.nil_iff.2 rfl]
        exact ⟨rfl, nofun, trivial⟩
      rw [hv] at hterm ⊢
      cases hch : ch terminator with
      | hash hsh =>
        rw [hch] at hterm
        exact absurd rfl (hterm.ne_value.2 v)
      | value w =>
        rw [hch] at hterm
        cases hterm
        exact ⟨rfl, nofun, trivial⟩
      | _ =>
        rw [hch] at hterm
        cases hterm
    have hraw : RawNode.full (update kids terminator (simplifyNode (ch terminator))) =
        stored keccak (.full tch) := by
      congr 1
      funext i
      by_cases hi : i = terminator
      · subst hi
        rw [update_self, hvalue.1]
      · rw [update_of_ne hi, hkids i, if_pos (mem_childIndices.2 hi)]
    have hbelow : StoredBelow keccak db₁.Retrievable (.full tch) := by
      intro i
      by_cases hi : i = terminator
      · subst hi
        exact hvalue.2
      · exact hstored i (mem_childIndices.2 hi)
    obtain ⟨raw, db', hok, hcomm⟩ := store_stored hU hext1.refl ht hfl.cached
      (fun hnone => (Denotes.full hfl h).small_of_hashed hflags hload.loadsHash rfl hhashed hnone)
      hbelow
    rw [← hraw] at hok
    exact ⟨raw, db', bind_eq_ok.2 ⟨_, hok1, hok⟩, hext1.trans hcomm.ext, hcomm.raw, hcomm.self,
      hcomm.below⟩

theorem commitRoot_extends (hdb : Extends keccak rank U db db) (ord : MapOrder) {fuel : Nat}
    (hfuel : ∀ h, rank h < fuel) {root : Hash} (h0 : root ≠ 0) :
    ∃ db', db.commitRoot ord fuel root = .ok db' ∧ Extends keccak rank U db db' ∧
      (db.Retrievable root → root ∈ db'.disk) := by
  obtain ⟨l, hwf⟩ := hdb.wf
  obtain ⟨db', l', done, hok, hc, hroot⟩ := Database.commitRoot_spec hwf ord hfuel h0
  have hne : ∀ a ∈ done, a ≠ 0 := fun a ha h0 =>
    hwf.linked.not_mem (h0 ▸ hc.flushed.done_mem a ha)
  have hentry : ∀ a ∈ done, ∃ n, db.entry a = some n := by
    intro a ha
    have hmem : a ∈ db.dirties := (hwf.mem a).2 (.inr (.inl (hc.flushed.done_mem a ha)))
    exact Option.isSome_iff_exists.1 (Database.mem_iff_entry.1 hmem)
  have hdone : ∀ a ∈ done, a ∈ db'.disk := by
    intro a ha
    obtain ⟨n, hn⟩ := hentry a ha
    rw [← lookup_isSome, hc.flushed.disk, if_pos ha, hn]
    rfl
  have hdisk_iff : ∀ {a}, a ∉ done → (a ∈ db'.disk ↔ a ∈ db.disk) := by
    intro a had
    rw [← lookup_isSome, hc.flushed.disk, if_neg had, lookup_isSome]
  have hret_iff : ∀ {a}, a ∉ done → (db'.Retrievable a ↔ db.Retrievable a) := by
    intro a had
    rw [Database.Retrievable, Database.mem_iff_entry, hc.flushed.entry, if_neg had,
      ← Database.mem_iff_entry, hdisk_iff had]
    rfl
  have hdisk : ∀ a, a ∈ db.disk → a ∈ db'.disk := by
    intro a ha
    by_cases had : a ∈ done
    · exact hdone a had
    · exact (hdisk_iff had).2 ha
  have hmono : ∀ a, db.Retrievable a → db'.Retrievable a := by
    intro a ha
    by_cases had : a ∈ done
    · exact .inr (hdone a had)
    · exact (hret_iff had).2 ha
  -- conversely nothing new comes up
  have hback : ∀ a, db'.Retrievable a → db.Retrievable a := by
    intro a ha
    by_cases had : a ∈ done
    · exact .inl ((hwf.mem a).2 (.inr (.inl (hc.flushed.done_mem a had))))
    · exact (hret_iff had).1 ha
  refine ⟨db', hok, ⟨⟨l', hc.wf⟩, ⟨?_, ?_, ?_, ?_⟩, hmono⟩, fun hret => ?_⟩
  · intro a n ha hn
    rw [hc.flushed.entry] at hn
    split at hn
    · cases hn
    · exact hdb.stocked.cached ha hn
  · intro a raw hraw
    rw [hc.flushed.disk] at hraw
    split at hraw
    · rename_i ha
      obtain ⟨n, hn, rfl⟩ := Option.map_eq_some_iff.1 hraw
      exact hdb.stocked.cached (hne a ha) hn
    · exact hdb.stocked.disk hraw
  · intro t ht hret c hkid
    exact hmono c (hdb.stocked.kids ht (hback _ hret) c hkid)
  · intro t ht hmem c hkid
    by_cases had : hashOf keccak t ∈ done
    · obtain ⟨n, hn⟩ := hentry _ had
      obtain ⟨s, hs, heq, hnode⟩ := hdb.stocked.cached (hne _ had) hn
      obtain rfl := hU.inj ht hs heq
      have hchild : c ∈ n.childs ord (hashOf keccak t) :=
        List.mem_append_right _ (by rw [hnode]; exact hkid)
      rcases hdb.stocked.kids ht (hback _ (.inr hmem)) c hkid with hcd | hcd
      · refine hdone c ?_
        simpa using hc.closed _ (by simpa using had) n hn c hchild hcd
      · exact hdisk c hcd
    · exact hdisk c (hdb.stocked.closed ht ((hdisk_iff had).1 hmem) c hkid)
  · rcases hret with hmem | hmem
    · exact hdone root (hroot hmem)
    · exact hdisk root hmem

theorem new_extends (hdb : Extends keccak rank U db db) :
    Extends keccak rank U (Database.new db.disk) (Database.new db.disk) := by
  have hwf := Database.new_wf rank db.disk
  have hmem : ∀ {a}, a ≠ 0 → a ∉ (Database.new db.disk).dirties := by
    intro a ha hm
    rcases (hwf.mem a).1 hm with h0 | hl | hp
    · exact ha h0
    · cases hl
    · cases hp
  refine ⟨⟨[], hwf⟩, ⟨?_, hdb.stocked.disk, ?_, hdb.stocked.closed⟩, fun _ => id⟩
  · intro a n ha hn
    exact absurd (Database.mem_iff_entry.2 (by rw [hn]; rfl)) (hmem ha)
  · intro t ht hret c hc
    exact .inr (hdb.stocked.closed ht (hret.resolve_left (hmem (hU.ne_zero ht))) c hc)

end Commit

/-! ## Tries over a database -/

section Opened

variable {keccak : Bytes → Hash} {rank : Hash → Nat} {U : Set PTree} {db db' : Database}
  {tr tr' : Trie} {t : PTree}

/-- The trie holds the tree `t` over a stocked database. Any part of it may be unloaded. -/
structure Opened (keccak : Bytes → Hash) (rank : Hash → Nat) (U : Set PTree) (tr : Trie)
    (db : Database) (t : PTree) : Prop where
  ext : Extends keccak rank U db db
  holds : Holds db.node (Stowed keccak db.Retrievable) tr t
  settled : Settled keccak tr.root
  mem : t = .nil ∨ t ∈ U

variable (hU : CollisionFreeOn keccak rank U)
include hU

variable (h : Opened keccak rank U tr db t)
include h

theorem Opened.loadsClean : LoadsClean db.node := by
  obtain ⟨l, hwf⟩ := h.ext.wf
  exact h.ext.stocked.loadsClean hU hwf

theorem Opened.settledDb : SettledDb keccak db.node := by
  obtain ⟨l, hwf⟩ := h.ext.wf
  exact h.ext.stocked.settledDb hU hwf

omit hU in
theorem Opened.read (key : Bytes) : (tr.tryGet db.node key).1 = .ok (get t (keybytesToHex key)) :=
  (h.holds.tryGet (fun hn => hn) key).1

theorem Opened.get (key : Bytes) : Opened keccak rank U (tr.tryGet db.node key).2 db t := by
  refine ⟨h.ext, (h.holds.tryGet (fun hn => hn) key).2, ?_, h.mem⟩
  obtain ⟨n', didResolve, hget, -⟩ :=
    tryGet_denotes (fun hn => hn) h.holds.denotes (h.holds.fits key) (need_le _ _) []
  have hset := (settled_tryGet (h.settledDb hU) (flagsOk_stowed keccak _)
    (h.loadsClean hU).loadsHash (fun hn => hn) h.holds.denotes (h.holds.fits key) (need_le _ _)
    h.settled hget).1
  unfold Trie.tryGet
  simp only [hget]
  cases didResolve with
  | true => exact hset
  | false => exact h.settled

theorem Opened.write (op : Op) (hmem : op.write t = .nil ∨ op.write t ∈ U) :
    ∃ tr', op.step db.node tr = .ok tr' ∧ Opened keccak rank U tr' db (op.write t) := by
  obtain ⟨tr', hok, hholds⟩ := h.holds.step (fun hn => hn) (fun _ _ => ⟨nofun, nofun, nofun⟩) op
  refine ⟨tr', hok, h.ext, hholds, ?_, hmem⟩
  have hdelete : ∀ key, tr.tryDelete db.node key = (.ok (), tr') → Settled keccak tr'.root := by
    intro key hr
    unfold Trie.tryDelete at hr
    dsimp only at hr
    split at hr
    · rename_i hr'
      cases hr
      exact settled_delete (h.settledDb hU) h.settled hr'
    · cases hr
  cases op with
  | delete key =>
    refine hdelete key ?_
    unfold Op.step at hok
    split at hok
    · rename_i heq
      cases hok
      exact heq
    · cases hok
  | update key value =>
    unfold Op.step at hok
    dsimp only at hok
    split at hok
    · rename_i heq
      cases hok
      unfold Trie.tryUpdate at heq
      split at heq
      · dsimp only at heq
        split at heq
        · rename_i hr'
          cases heq
          exact settled_insert (h.settledDb hU) h.settled hr'
        · cases heq
      · exact hdelete key heq
    · cases hok

theorem Opened.hash :
    (tr.hash keccak).1 = rootHash keccak t ∧ Opened keccak rank U (tr.hash keccak).2 db t ∧
      (tr.root.isNil = false → Hashed keccak true (tr.hash keccak).2.root) := by
  obtain ⟨hroot, hholds⟩ :=
    h.holds.hash (flagsOk_stowed keccak _) (h.loadsClean hU).loadsHash
  refine ⟨hroot, ⟨h.ext, hholds, ?_, h.mem⟩, fun hne => ?_⟩
  · unfold Trie.hash
    split
    · exact h.settled
    · exact settled_hash h.settled true
  unfold Trie.hash
  rw [hne]
  exact hashed_hash

theorem Opened.mono (hext : Extends keccak rank U db db') : Opened keccak rank U tr db' t := by
  obtain ⟨l, hwf⟩ := h.ext.wf
  obtain ⟨l', hwf'⟩ := hext.wf
  have hle : db.node.Le db'.node := h.ext.stocked.le hU hext.stocked hwf hwf' hext.mono
  exact ⟨hext.refl, ⟨h.holds.denotes.mono hle fun hok => hok.mono hext.mono, h.holds.canonical⟩,
    h.settled, h.mem⟩

omit h in
theorem rootHash_of_mem (ht : t ∈ U) : rootHash keccak t = hashOf keccak t := by
  have hinner := isInner_of_canon (hU.canon ht)
  cases t with
  | nil | value v => cases hinner
  | short k t | full ch => rfl

omit h in
theorem new_opened (hdb : Extends keccak rank U db db)
    (ht : t = .nil ∨ t ∈ U ∧ db.Retrievable (hashOf keccak t)) :
    ∃ tr, Trie.new (rootHash keccak t) db.node = .ok tr ∧ Opened keccak rank U tr db t := by
  obtain rfl | ⟨ht, hret⟩ := ht
  · refine ⟨.empty, if_neg fun hne => hne.2 rfl, hdb, holds_empty, trivial, .inl rfl⟩
  refine ⟨⟨load keccak (some (hashOf keccak t)) t, 0⟩, ?_, hdb, ⟨?_, .inr (hU.canon ht)⟩,
    settled_load _ t, .inr ht⟩
  · rw [rootHash_of_mem hU ht, Trie.new, if_pos ⟨hU.ne_zero ht, hU.ne_emptyRoot ht⟩, resolveHash,
      hdb.stocked.node hU ht hret]
    rfl
  · exact denotes_load (hdb.stocked.returns hU) hU ht (hdb.stocked.kept hU ht hret)

theorem Opened.commit : ∃ tr' db', tr.commit keccak db = .ok (rootHash keccak t, tr', db') ∧
      Opened keccak rank U tr' db' t ∧ Extends keccak rank U db db' ∧
      (t = .nil ∨ t ∈ U ∧ db'.Retrievable (hashOf keccak t)) := by
  obtain ⟨hroot, hopen, hhashed⟩ := h.hash hU
  have hnil := h.holds.denotes.isNil_eq
  unfold Trie.commit
  generalize tr.hash keccak = r at hroot hopen hhashed
  obtain ⟨root, tr₁⟩ := r
  dsimp only at hroot hopen hhashed
  obtain rfl | ht := h.mem
  · rw [hnil]
    exact ⟨tr, db, rfl, h, h.ext, .inl rfl⟩
  have hne : tr.root.isNil = false := by
    rw [hnil]
    cases hU.canon ht <;> rfl
  rw [hne, hroot]
  by_cases hclean : tr₁.root.dirty = false
  · -- a clean root has been stored before
    refine ⟨tr₁, db, if_pos hclean, hopen, h.ext, .inr ⟨ht, ?_⟩⟩
    have hden := hopen.holds.denotes
    generalize tr₁.root = n at hden hclean
    cases hden with
    | short hfl _ | full hfl _ => exact (hfl.kept_of_root hclean).1
    | _ => cases hclean
  obtain ⟨raw, db', hok, hcomm⟩ := commit_denotes hU (hopen.loadsClean hU) hopen.holds.denotes ht
    hopen.settled (hhashed hne) h.ext
  have hraw : raw = .hash (hashOf keccak t) := by rw [hcomm.raw, storedAt, if_pos (.inl rfl)]
  have hret := hcomm.self (.inl rfl)
  have hst := hcomm.ext.stocked
  refine ⟨{ tr₁ with root := .hash (hashOf keccak t) }, db', ?_, ?_, hcomm.ext, .inr ⟨ht, hret⟩⟩
  · rw [hraw] at hok
    exact (if_neg hclean).trans (bind_eq_ok.2 ⟨_, hok, rfl⟩)
  refine ⟨hcomm.ext.refl, ⟨.hash (hst.node hU ht hret) ?_ ?_, .inr (hU.canon ht)⟩, trivial, .inr ht⟩
  · cases hU.canon ht <;> rfl
  · exact denotes_load (hst.returns hU) hU ht (hst.kept hU ht hret)

end Opened

/-! ## Sessions -/

/-- What is done with a trie and its database. -/
inductive Action where
  | write (op : Op)
  | get (key : Bytes)
  | hash
  | commit
  /-- Commit the trie and open it again. -/
  | reopen
  /-- Commit the trie and then the database. -/
  | persist (ord : MapOrder)

namespace Action

def step (keccak : Bytes → Hash) (fuel : Nat) :
    Trie × Database → Action → Except Err (Trie × Database)
  | (tr, db), .write op => (op.step db.node tr).map fun tr => (tr, db)
  | (tr, db), .get key => (tr.tryGet db.node key).1.map fun _ => ((tr.tryGet db.node key).2, db)
  | (tr, db), .hash => .ok ((tr.hash keccak).2, db)
  | (tr, db), .commit => do
    let (_, tr, db) ← tr.commit keccak db
    .ok (tr, db)
  | (tr, db), .reopen => do
    let (root, _, db) ← tr.commit keccak db
    let tr ← Trie.new root db.node
    .ok (tr, db)
  | (tr, db), .persist ord => do
    let (root, tr, db) ← tr.commit keccak db
    let db ← db.commitRoot ord fuel root
    .ok (tr, db)

noncomputable def apply (t : PTree) : Action → PTree
  | .write op => op.write t
  | _ => t

/-- All trees of a session are in `U`, or empty. -/
def Within (U : Set PTree) : PTree → List Action → Prop
  | t, [] => t = .nil ∨ t ∈ U
  | t, a :: acts => (t = .nil ∨ t ∈ U) ∧ Within U (a.apply t) acts

theorem Within.head {U : Set PTree} {t : PTree} {acts : List Action} (h : Within U t acts) :
    t = .nil ∨ t ∈ U := by
  cases acts with
  | nil => exact h
  | cons a acts => exact h.1

end Action

section Session

variable {keccak : Bytes → Hash} {rank : Hash → Nat} {U : Set PTree} {db : Database} {tr : Trie}
  {t : PTree} {fuel : Nat}

variable (hU : CollisionFreeOn keccak rank U)
include hU

theorem rootHash_ne_zero (ht : t = .nil ∨ t ∈ U) : rootHash keccak t ≠ 0 := by
  obtain rfl | ht := ht
  · exact (by decide : emptyRoot ≠ 0)
  rw [rootHash_of_mem hU ht]
  exact hU.ne_zero ht

theorem Opened.step (h : Opened keccak rank U tr db t) (hfuel : ∀ h, rank h < fuel) (a : Action)
    (hmem : a.apply t = .nil ∨ a.apply t ∈ U) :
    ∃ tr' db', a.step keccak fuel (tr, db) = .ok (tr', db') ∧
      Opened keccak rank U tr' db' (a.apply t) := by
  cases a with
  | write op =>
    obtain ⟨tr', hok, h'⟩ := h.write hU op hmem
    exact ⟨tr', db, map_eq_ok.2 ⟨tr', hok, rfl⟩, h'⟩
  | get key => exact ⟨_, db, map_eq_ok.2 ⟨_, h.read key, rfl⟩, h.get hU key⟩
  | hash => exact ⟨_, db, rfl, (h.hash hU).2.1⟩
  | commit =>
    obtain ⟨tr', db', hok, h', -⟩ := h.commit hU
    exact ⟨tr', db', bind_eq_ok.2 ⟨_, hok, rfl⟩, h'⟩
  | reopen =>
    obtain ⟨tr₁, db', hok, h', -, hstored⟩ := h.commit hU
    obtain ⟨tr', hnew, hopen⟩ := new_opened hU h'.ext hstored
    exact ⟨tr', db', bind_eq_ok.2 ⟨_, hok, bind_eq_ok.2 ⟨tr', hnew, rfl⟩⟩, hopen⟩
  | persist ord =>
    obtain ⟨tr', db₁, hok, h', -, -⟩ := h.commit hU
    obtain ⟨db', hok', hext, -⟩ :=
      commitRoot_extends hU h'.ext ord hfuel (rootHash_ne_zero hU h.mem)
    exact ⟨tr', db', bind_eq_ok.2 ⟨_, hok, bind_eq_ok.2 ⟨db', hok', rfl⟩⟩, h'.mono hU hext⟩

theorem Opened.run (h : Opened keccak rank U tr db t) (hfuel : ∀ h, rank h < fuel)
    {acts : List Action} (hin : Action.Within U t acts) :
    ∃ tr' db', Lib.run (Action.step keccak fuel) (tr, db) acts = .ok (tr', db') ∧
      Opened keccak rank U tr' db' (acts.foldl Action.apply t) := by
  induction acts generalizing tr db t with
  | nil => exact ⟨tr, db, rfl, h⟩
  | cons a acts ih =>
    obtain ⟨tr₁, db₁, hstep, h1⟩ := h.step hU hfuel a hin.2.head
    obtain ⟨tr', db', hrun, h'⟩ := ih h1 hin.2
    exact ⟨tr', db', run_cons_ok.2 ⟨_, hstep, hrun⟩, h'⟩

/-- **A committed trie reads the same when it is opened again**, after every session: from the
database, and once that is committed from nothing but the disk. -/
theorem run_commit_new (hfuel : ∀ h, rank h < fuel) (h : Opened keccak rank U tr db t)
    {acts : List Action} (hin : Action.Within U t acts) (ord : MapOrder) :
    ∃ tr₁ db₁, Lib.run (Action.step keccak fuel) (tr, db) acts = .ok (tr₁, db₁) ∧
      ∃ root tr₂ db₂ db₃ reopened fromDisk,
        tr₁.commit keccak db₁ = .ok (root, tr₂, db₂) ∧
        Trie.new root db₂.node = .ok reopened ∧
        db₂.commitRoot ord fuel root = .ok db₃ ∧
        Trie.new root (Database.new db₃.disk).node = .ok fromDisk ∧
        ∀ key, ∃ v, (tr₁.tryGet db₁.node key).1 = .ok v ∧
          (reopened.tryGet db₂.node key).1 = .ok v ∧
          (fromDisk.tryGet (Database.new db₃.disk).node key).1 = .ok v := by
  obtain ⟨tr₁, db₁, hrun, h1⟩ := h.run hU hfuel hin
  obtain ⟨tr₂, db₂, hcommit, h2, -, hstored⟩ := h1.commit hU
  obtain ⟨reopened, hnew, hre⟩ := new_opened hU h2.ext hstored
  obtain ⟨db₃, hroot, hext, hdisk⟩ :=
    commitRoot_extends hU h2.ext ord hfuel (rootHash_ne_zero hU h1.mem)
  have hstored' : acts.foldl Action.apply t = .nil ∨ acts.foldl Action.apply t ∈ U ∧
      (Database.new db₃.disk).Retrievable (hashOf keccak (acts.foldl Action.apply t)) := by
    refine hstored.imp_right fun ⟨ht, hret⟩ => ⟨ht, .inr ?_⟩
    rw [rootHash_of_mem hU ht] at hdisk
    exact hdisk hret
  obtain ⟨fromDisk, hnew', hfd⟩ := new_opened hU (new_extends hU hext.refl) hstored'
  exact ⟨tr₁, db₁, hrun, _, tr₂, db₂, db₃, reopened, fromDisk, hcommit, hnew, hroot, hnew',
    fun key => ⟨_, h1.read key, hre.read key, hfd.read key⟩⟩

end Session

open Proof (leafHash storable_leafTrie subTree_leaf)

theorem collisionFreeOn_leaf :
    CollisionFreeOn leafHash (fun _ => 0) {.short [1, 2, 16] (.value [0xab])} where
  canon := by
    rintro t rfl
    exact .leaf (isKey_keybytesToHex [0x12])
  storable := by
    rintro t rfl
    exact storable_leafTrie
  sub := by
    rintro t s rfl hs hinner
    obtain rfl | rfl := subTree_leaf hs
    · rfl
    · cases hinner
  inj := by
    rintro t s rfl rfl -
    rfl
  ne_zero := by
    rintro t rfl
    decide
  ne_emptyRoot := by
    rintro t rfl
    decide
  rank_lt := by
    rintro t rfl
    exact ⟨nofun, trivial⟩

theorem extends_empty : Extends leafHash (fun _ => 0) {.short [1, 2, 16] (.value [0xab])}
    (Database.new ∅) (Database.new ∅) := by
  have hwf := Database.new_wf (fun _ => 0) ∅
  refine ⟨⟨[], hwf⟩, ⟨fun {a n} ha hn => ?_, fun hraw => by simp [Database.new] at hraw,
    fun {t} ht _ c hc => ?_, fun {t} ht _ c hc => ?_⟩, fun _ => id⟩
  · rcases (hwf.mem a).1 (Database.mem_iff_entry.2 (by rw [hn]; rfl)) with h0 | hl | hp
    · exact absurd h0 ha
    · cases hl
    · cases hp
  · obtain rfl := ht
    cases hc
  obtain rfl := ht
  cases hc

theorem run_commit_new_leaf :
    ∃ tr₁ db₁, Lib.run (Action.step leafHash 1) (.empty, Database.new ∅)
        [.write (.update [0x12] [0xab]), .hash, .reopen, .get [0x12],
          .persist .increasing, .commit] =
          .ok (tr₁, db₁) ∧
      ∃ root tr₂ db₂ db₃ reopened fromDisk,
        tr₁.commit leafHash db₁ = .ok (root, tr₂, db₂) ∧
        Trie.new root db₂.node = .ok reopened ∧
        db₂.commitRoot .increasing 1 root = .ok db₃ ∧
        Trie.new root (Database.new db₃.disk).node = .ok fromDisk ∧
        ∀ key, ∃ v, (tr₁.tryGet db₁.node key).1 = .ok v ∧
          (reopened.tryGet db₂.node key).1 = .ok v ∧
          (fromDisk.tryGet (Database.new db₃.disk).node key).1 = .ok v := by
  refine run_commit_new collisionFreeOn_leaf (fun _ => by decide)
    ⟨new_extends collisionFreeOn_leaf extends_empty, holds_empty, trivial, .inl rfl⟩ ?_ .increasing
  refine ⟨.inl rfl, ?_⟩
  exact ⟨.inr rfl, .inr rfl, .inr rfl, .inr rfl, .inr rfl, .inr rfl⟩

end Virbicoin.Mpt
