import Virbicoin.Lib.Run
import Virbicoin.Trie.Node

/-!
# The trie

`trie/trie.go`: reading, updating and deleting. Nodes that are not loaded are represented by their
hash and are loaded from the database when an operation reaches them. `insertWith` and `deleteWith`
are the recursion in the node with the continuation at a hash as a parameter, and `insert` and
`delete` tie the knot with fuel that counts the nodes loaded. A key of `n` digits passes at most
`n + 1` hashes.

A node denotes a Patricia tree once the hashes in it are resolved (`Denotes`). The operations of the
trie follow those of the tree step by step, so what is known of canonical trees holds for the trie.
-/

namespace Virbicoin.Mpt

open Virbicoin.Lib Virbicoin.Lib.Patricia Function List

inductive Err where
  /-- `MissingNodeError` -/
  | missingNode (nodeHash : Hash) (path : List Nibble)
  /-- A failed type switch, type assertion or index. -/
  | panic
  | outOfFuel
  deriving DecidableEq, Repr

abbrev NodeReader := Hash → Option Node

def prefixLen (a b : List Nibble) : Nat := (common a b).length

def resolveHash (db : NodeReader) (h : Hash) (path : List Nibble) : Except Err Node :=
  match db h with
  | some n => .ok n
  | none => .error (.missingNode h path)

def resolve (db : NodeReader) (n : Node) (path : List Nibble) : Except Err Node :=
  match n with
  | .hash h => resolveHash db h path
  | n => .ok n

/-! ## Reading -/

/-- `tryGet` with the continuation at a hash. It returns the value, the node with what was loaded
put in place, and whether anything was loaded. `path` is the part of the key that was walked. -/
def tryGetWith
    (onHash : Hash → List Nibble → List Nibble → Except Err (Option Bytes × Node × Bool)) :
    Node → List Nibble → List Nibble → Except Err (Option Bytes × Node × Bool)
  | .nil, _, _ => .ok (none, .nil, false)
  | .value v, _, _ => .ok (some v, .value v, false)
  | .short k c fl, path, key =>
    if k <+: key then do
      let (value, newnode, didResolve) ← tryGetWith onHash c (path ++ k) (key.drop k.length)
      .ok (value, if didResolve then .short k newnode fl else .short k c fl, didResolve)
    else .ok (none, .short k c fl, false)
  | .full _ _, _, [] => .error .panic
  | .full ch fl, path, a :: key => do
    let (value, newnode, didResolve) ← tryGetWith onHash (ch a) (path ++ [a]) key
    .ok (value, if didResolve then .full (update ch a newnode) fl else .full ch fl,
      didResolve)
  | .hash h, path, key => onHash h path key

def tryGet (db : NodeReader) : Nat → Node → List Nibble → List Nibble →
    Except Err (Option Bytes × Node × Bool)
  | 0 => tryGetWith fun _ _ _ => .error .outOfFuel
  | fuel + 1 => tryGetWith fun h path key => do
    let child ← resolveHash db h path
    let (value, newnode, _) ← tryGet db fuel child path key
    .ok (value, newnode, true)

/-! ## Inserting -/

def insertNil (key : List Nibble) (value : Node) : Node :=
  match key with
  | [] => value
  | a :: key => .short (a :: key) value newFlag

def branchOut (k : List Nibble) (c : Node) (key : List Nibble) (value : Node) :
    Except Err (Bool × Node) :=
  let matchlen := prefixLen key k
  match k.drop matchlen, key.drop matchlen with
  | a :: k', b :: key' =>
    let branch := Node.full (update (update (fun _ => .nil) a (insertNil k' c))
      b (insertNil key' value)) newFlag
    if matchlen = 0 then .ok (true, branch)
    else .ok (true, .short (key.take matchlen) branch newFlag)
  | _, _ => .error .panic

def insertEnd (n value : Node) : Except Err (Bool × Node) :=
  match n with
  | .value v =>
    match value with
    | .value w => .ok (v != w, value)
    | _ => .error .panic
  | _ => .ok (true, value)

/-- `insert` with the continuation at a hash. It returns whether the node changed. -/
def insertWith (onHash : Hash → List Nibble → List Nibble → Except Err (Bool × Node))
    (value : Node) : Node → List Nibble → List Nibble → Except Err (Bool × Node)
  | n, _, [] => insertEnd n value
  | .short k c fl, path, a :: key =>
    if prefixLen (a :: key) k = k.length then do
      let (dirty, nn) ← insertWith onHash value c (path ++ k) ((a :: key).drop k.length)
      if dirty then .ok (true, .short k nn newFlag) else .ok (false, .short k c fl)
    else branchOut k c (a :: key) value
  | .full ch fl, path, a :: key => do
    let (dirty, nn) ← insertWith onHash value (ch a) (path ++ [a]) key
    if dirty then .ok (true, .full (update ch a nn) newFlag) else .ok (false, .full ch fl)
  | .nil, _, a :: key => .ok (true, .short (a :: key) value newFlag)
  | .hash h, path, a :: key => onHash h path (a :: key)
  | .value _, _, _ :: _ => .error .panic

def insert (db : NodeReader) (value : Node) : Nat → Node → List Nibble → List Nibble →
    Except Err (Bool × Node)
  | 0 => insertWith (fun _ _ _ => .error .outOfFuel) value
  | fuel + 1 => insertWith (fun h path key => do
    let rn ← resolveHash db h path
    let (dirty, nn) ← insert db value fuel rn path key
    if dirty then .ok (true, nn) else .ok (false, rn)) value

/-! ## Deleting -/

/-- The position of the only child that is left, if there is one: the loop over the children. -/
def onlyChild (ch : Nibble → Node) : Option Nibble :=
  match (finRange 17).filter fun i => !(ch i).isNil with
  | [pos] => some pos
  | _ => none

/-- A full node after a deletion below it: with one child left it becomes a short node, which takes
over the path of that child if the child is a short node itself. -/
def reduceFull (db : NodeReader) (ch : Nibble → Node) (path : List Nibble) :
    Except Err (Bool × Node) :=
  match onlyChild ch with
  | none => .ok (true, .full ch newFlag)
  | some pos =>
    if pos ≠ terminator then do
      match ← resolve db (ch pos) path with
      | .short k c _ => .ok (true, .short (pos :: k) c newFlag)
      | _ => .ok (true, .short [pos] (ch pos) newFlag)
    else .ok (true, .short [pos] (ch pos) newFlag)

/-- `delete` with the continuation at a hash. -/
def deleteWith (db : NodeReader)
    (onHash : Hash → List Nibble → List Nibble → Except Err (Bool × Node)) :
    Node → List Nibble → List Nibble → Except Err (Bool × Node)
  | .short k c fl, path, key =>
    if prefixLen key k < k.length then .ok (false, .short k c fl)
    else if prefixLen key k = key.length then .ok (true, .nil)
    else do
      let (dirty, child) ← deleteWith db onHash c (path ++ k) (key.drop k.length)
      if dirty then
        match child with
        | .short k' c' _ => .ok (true, .short (k ++ k') c' newFlag)
        | child => .ok (true, .short k child newFlag)
      else .ok (false, .short k c fl)
  | .full _ _, _, [] => .error .panic
  | .full ch fl, path, a :: key => do
    let (dirty, nn) ← deleteWith db onHash (ch a) (path ++ [a]) key
    if dirty then reduceFull db (update ch a nn) path else .ok (false, .full ch fl)
  | .value _, _, _ => .ok (true, .nil)
  | .nil, _, _ => .ok (false, .nil)
  | .hash h, path, key => onHash h path key

def delete (db : NodeReader) : Nat → Node → List Nibble → List Nibble → Except Err (Bool × Node)
  | 0 => deleteWith db fun _ _ _ => .error .outOfFuel
  | fuel + 1 => deleteWith db fun h path key => do
    let rn ← resolveHash db h path
    let (dirty, nn) ← delete db fuel rn path key
    if dirty then .ok (true, nn) else .ok (false, rn)

/-! ## The trie -/

structure Trie where
  root : Node
  /-- Number of updates since the last hashing; it decides whether hashing is done in parallel. -/
  unhashed : Nat

def Trie.empty : Trie := ⟨.nil, 0⟩

namespace Trie

def tryGet (db : NodeReader) (t : Trie) (key : Bytes) : Except Err (Option Bytes) × Trie :=
  let k := keybytesToHex key
  match Mpt.tryGet db (k.length + 1) t.root [] k with
  | .ok (value, newroot, didResolve) =>
    (.ok value, if didResolve then { t with root := newroot } else t)
  | .error e => (.error e, t)

def tryDelete (db : NodeReader) (t : Trie) (key : Bytes) : Except Err Unit × Trie :=
  let t := { t with unhashed := t.unhashed + 1 }
  let k := keybytesToHex key
  match delete db (k.length + 1) t.root [] k with
  | .ok (_, n) => (.ok (), { t with root := n })
  | .error e => (.error e, t)

def tryUpdate (db : NodeReader) (t : Trie) (key value : Bytes) : Except Err Unit × Trie :=
  if value.length ≠ 0 then
    let t := { t with unhashed := t.unhashed + 1 }
    let k := keybytesToHex key
    match insert db (.value value) (k.length + 1) t.root [] k with
    | .ok (_, n) => (.ok (), { t with root := n })
    | .error e => (.error e, t)
  else tryDelete db t key

end Trie

/-! ## The tree a node denotes -/

/-- The trees of the trie: hex keys and byte strings. -/
abbrev PTree := Tree Nibble Bytes

/-- The node `n` denotes the tree `t`: it is `t` once hashes are resolved in `known`. What a hash is
resolved to is a short or a full node. `ok` is what is asked of the flags of a node that denotes
`t`, which may differ for the root of a trie (`isRoot`) and for the nodes below. -/
inductive Denotes (known : NodeReader) (ok : Bool → NodeFlag → PTree → Prop) :
    Bool → Node → PTree → Prop where
  | nil {isRoot : Bool} : Denotes known ok isRoot .nil .nil
  | value {isRoot : Bool} (v : Bytes) : Denotes known ok isRoot (.value v) (.value v)
  | short {isRoot : Bool} {k : List Nibble} {c : Node} {fl : NodeFlag} {t : PTree}
      (hfl : ok isRoot fl (.short k t)) (h : Denotes known ok false c t) :
      Denotes known ok isRoot (.short k c fl) (.short k t)
  | full {isRoot : Bool} {ch : Nibble → Node} {fl : NodeFlag} {tch : Nibble → PTree}
      (hfl : ok isRoot fl (.full tch)) (h : ∀ i, Denotes known ok false (ch i) (tch i)) :
      Denotes known ok isRoot (.full ch fl) (.full tch)
  | hash {isRoot : Bool} {h : Hash} {n : Node} {t : PTree} (hknown : known h = some n)
      (hinner : n.isInner = true) (hn : Denotes known ok isRoot n t) :
      Denotes known ok isRoot (.hash h) t

/-- The database `db` returns the nodes that `known` returns. -/
def NodeReader.Le (known db : NodeReader) : Prop := ∀ {h n}, known h = some n → db h = some n

section Simulation

variable {known db : NodeReader} {ok : Bool → NodeFlag → PTree → Prop} {isRoot : Bool} {n : Node}
  {t : PTree}

theorem Denotes.mono {known' : NodeReader} {ok' : Bool → NodeFlag → PTree → Prop}
    (h : Denotes known ok isRoot n t) (hle : known.Le known')
    (hok : ∀ {b fl t}, ok b fl t → ok' b fl t) : Denotes known' ok' isRoot n t := by
  induction h with
  | nil => exact .nil
  | value v => exact .value v
  | short hfl h ih => exact .short (hok hfl) ih
  | full hfl h ih => exact .full (hok hfl) ih
  | hash hknown hinner h ih => exact .hash (hle hknown) hinner ih

theorem Denotes.nil_iff (h : Denotes known ok isRoot n t) : n = .nil ↔ t = .nil := by
  induction h with
  | hash hdb hinner hn ih =>
    rename_i h n t
    cases n <;> simp_all [Node.isInner]
  | _ => simp

theorem Denotes.ne_value {hsh : Hash} (h : Denotes known ok isRoot (.hash hsh) t) :
    t ≠ .nil ∧ ∀ v, t ≠ .value v := by
  cases h with
  | hash hdb hinner hn => cases hn <;> simp_all [Node.isInner]

/-- The fuel an operation needs at a node: one for each digit, and one for a hash. -/
def need (n : Node) (key : List Nibble) : Nat :=
  match n with
  | .hash _ => key.length + 1
  | _ => key.length

theorem need_le (n : Node) (key : List Nibble) : need n key ≤ key.length + 1 := by
  cases n <;> simp [need]

theorem need_short_child {k r : List Nibble} {c : Node} {fl : NodeFlag} {fuel : Nat} (hk : k ≠ [])
    (h : need (.short k c fl) (k ++ r) ≤ fuel) : need c r ≤ fuel := by
  have hpos := length_pos_iff.2 hk
  have hle := need_le c r
  simp only [need, length_append] at h
  omega

theorem need_full_child {ch : Nibble → Node} {fl : NodeFlag} {a : Nibble} {key : List Nibble}
    {fuel : Nat} (h : need (.full ch fl) (a :: key) ≤ fuel) : need (ch a) key ≤ fuel := by
  have hle := need_le (ch a) key
  simp only [need, length_cons] at h
  omega

theorem need_hash (hn : n.isInner = true) {hsh : Hash} {key : List Nibble} {fuel : Nat}
    (h : need (.hash hsh) key ≤ fuel) : ∃ fuel', fuel = fuel' + 1 ∧ need n key ≤ fuel' := by
  simp only [need] at h
  refine ⟨fuel - 1, by omega, ?_⟩
  cases n <;> simp_all [Node.isInner, need] <;> omega

/-! ### Reading -/

section

variable (fuel : Nat) (path key : List Nibble)

theorem tryGet_short (k : List Nibble) (c : Node) (fl : NodeFlag) :
    tryGet db fuel (.short k c fl) path key = if k <+: key then do
        let (value, newnode, didResolve) ← tryGet db fuel c (path ++ k) (key.drop k.length)
        .ok (value, if didResolve then .short k newnode fl else .short k c fl, didResolve)
      else .ok (none, .short k c fl, false) := by
  cases fuel <;> rfl

theorem tryGet_full (ch : Nibble → Node) (fl : NodeFlag) (a : Nibble) :
    tryGet db fuel (.full ch fl) path (a :: key) = (do
      let (value, newnode, didResolve) ← tryGet db fuel (ch a) (path ++ [a]) key
      .ok (value, if didResolve then .full (update ch a newnode) fl else .full ch fl,
        didResolve)) := by
  cases fuel <;> rfl

end

theorem tryGet_denotes (hdb : known.Le db) (h : Denotes known ok isRoot n t) {key : List Nibble}
    (hkey : Fits terminator t key) {fuel : Nat} (hfuel : need n key ≤ fuel) (path : List Nibble) :
    ∃ n' didResolve, tryGet db fuel n path key = .ok (get t key, n', didResolve) ∧
      Denotes known ok isRoot n' t := by
  induction h generalizing key fuel path with
  | nil => exact ⟨.nil, false, by cases fuel <;> simp [tryGet, tryGetWith], .nil⟩
  | value v =>
    obtain rfl := hkey.value
    refine ⟨.value v, false, ?_, .value v⟩
    cases fuel <;> simp [tryGet, tryGetWith, get_value]
  | short hfl h ih =>
    rename_i k c fl t
    rw [tryGet_short, get_short]
    by_cases hpre : k <+: key
    · obtain ⟨r, rfl⟩ := hpre
      have hne := hkey.short.2.key_ne_nil
      have hneed := need_short_child hne hfuel
      obtain ⟨n', didResolve, hget, hn'⟩ := ih hkey.short_child hneed (path ++ k)
      simp only [prefix_append, if_true, drop_left, hget]
      refine ⟨_, didResolve, rfl, ?_⟩
      cases didResolve with
      | true => exact .short hfl hn'
      | false => exact .short hfl h
    simp only [if_neg hpre]
    exact ⟨_, false, rfl, .short hfl h⟩
  | full hfl h ih =>
    obtain ⟨a, key, rfl⟩ := exists_cons_of_ne_nil hkey.full.1.ne_nil
    have hneed := need_full_child hfuel
    obtain ⟨n', didResolve, hget, hn'⟩ := ih a hkey.full_child hneed (path ++ [a])
    rw [tryGet_full, hget]
    refine ⟨_, didResolve, rfl, ?_⟩
    cases didResolve with
    | true =>
      refine .full hfl fun i => ?_
      by_cases hi : i = a
      · subst hi
        simpa using hn'
      · simpa [hi] using h i
    | false => exact .full hfl h
  | hash hknown hinner hn ih =>
    rename_i hsh n t
    obtain ⟨fuel, rfl, hneed⟩ := need_hash hinner hfuel
    obtain ⟨n', didResolve, hget, hn'⟩ := ih hkey hneed path
    refine ⟨n', true, ?_, hn'⟩
    simp only [tryGet, tryGetWith, resolveHash, hdb hknown]
    change (tryGet db fuel n path key >>= fun r => .ok (r.1, r.2.1, true)) = _
    rw [hget]
    rfl

/-! ### Inserting -/

theorem prefixLen_eq_length {key k : List Nibble} : prefixLen key k = k.length ↔ k <+: key :=
  common_length_eq_iff

section

variable (fuel : Nat) (value : Node) (path : List Nibble)

theorem insert_end : insert db value fuel n path [] = insertEnd n value := by
  cases fuel <;> cases n <;> rfl

theorem insert_short (k : List Nibble) (c : Node) (fl : NodeFlag) {key : List Nibble}
    (hkey : key ≠ []) :
    insert db value fuel (.short k c fl) path key = if prefixLen key k = k.length then do
        let (dirty, nn) ← insert db value fuel c (path ++ k) (key.drop k.length)
        if dirty then .ok (true, .short k nn newFlag) else .ok (false, .short k c fl)
      else branchOut k c key value := by
  cases key with
  | nil => exact absurd rfl hkey
  | cons a key => cases fuel <;> rfl

theorem insert_full (ch : Nibble → Node) (fl : NodeFlag) (a : Nibble) (key : List Nibble) :
    insert db value fuel (.full ch fl) path (a :: key) = (do
      let (dirty, nn) ← insert db value fuel (ch a) (path ++ [a]) key
      if dirty then .ok (true, .full (update ch a nn) newFlag)
      else .ok (false, .full ch fl)) := by
  cases fuel <;> rfl

theorem insert_nil {key : List Nibble} (hkey : key ≠ []) :
    insert db value fuel .nil path key = .ok (true, .short key value newFlag) := by
  cases key with
  | nil => exact absurd rfl hkey
  | cons a key => cases fuel <;> rfl

theorem insert_hash {h : Hash} (hdb : db h = some n) {key : List Nibble} (hkey : key ≠ []) :
    insert db value (fuel + 1) (.hash h) path key = (do
      let (dirty, nn) ← insert db value fuel n path key
      if dirty then .ok (true, nn) else .ok (false, n)) := by
  cases key with
  | nil => exact absurd rfl hkey
  | cons a key =>
    simp only [insert, insertWith, resolveHash, hdb]
    rfl

end

theorem Denotes.update {ch : Nibble → Node} {tch : Nibble → PTree} {a : Nibble}
    (h : ∀ i, Denotes known ok false (ch i) (tch i)) (hn : Denotes known ok false n t)
    (i : Nibble) :
    Denotes known ok false (update ch a n i) (update tch a t i) := by
  by_cases hi : i = a
  · subst hi
    simpa using hn
  · simpa [hi] using h i

theorem denotes_insertNil (hok : ∀ b t, ok b newFlag t) (h : Denotes known ok false n t)
    (key : List Nibble) :
    Denotes known ok false (insertNil key n) (graft key t) := by
  cases key with
  | nil => exact h
  | cons a key => exact .short (hok _ _) h

theorem branchOut_denotes (hok : ∀ b t, ok b newFlag t) {k key : List Nibble} {c : Node}
    (hc : Denotes known ok false c t) (hcanon : Canon terminator (.short k t))
    (hkey : IsKey terminator key) (hpre : ¬ k <+: key) (v : Bytes) :
    ∃ n', branchOut k c key (.value v) = .ok (true, n') ∧
      Denotes known ok isRoot n' (fork k t key v) := by
  obtain ⟨p, a, k', b, key', hab, rfl, rfl⟩ := split_of_canon hcanon hkey hpre
  have hbranch : ∀ r, Denotes known ok r
      (.full (update (update (fun _ => .nil) a (insertNil k' c)) b
        (insertNil key' (.value v))) newFlag)
      (.full (update (update (fun _ => .nil) a (graft k' t)) b (graft key' (.value v)))) :=
    fun r => .full (hok _ _) (.update (.update (fun _ => .nil) (denotes_insertNil hok hc k'))
        (denotes_insertNil hok (.value v) key'))
  rw [fork_eq hab]
  unfold branchOut
  simp only [prefixLen, common_append_of_ne hab.symm, drop_left, take_left, length_eq_zero_iff]
  split
  · rename_i hnil
    subst hnil
    exact ⟨_, rfl, hbranch _⟩
  rename_i hne
  obtain ⟨c, p, rfl⟩ := exists_cons_of_ne_nil hne
  exact ⟨_, rfl, .short (hok _ _) (hbranch _)⟩

theorem insert_denotes (hdb : known.Le db) (hok : ∀ b t, ok b newFlag t)
    (h : Denotes known ok isRoot n t) {key : List Nibble} (hkey : Fits terminator t key)
    {fuel : Nat} (hfuel : need n key ≤ fuel) (path : List Nibble) (v : Bytes) :
    ∃ dirty n', insert db (.value v) fuel n path key = .ok (dirty, n') ∧
      Denotes known ok isRoot n' (Patricia.insert t key v) ∧
      (dirty = false → Patricia.insert t key v = t) := by
  induction h generalizing key fuel path with
  | nil =>
    by_cases hnil : key = []
    · subst hnil
      refine ⟨true, .value v, by rw [insert_end]; rfl, ?_, nofun⟩
      exact .value v
    refine ⟨true, _, insert_nil _ _ _ hnil, ?_, nofun⟩
    rw [Patricia.insert_nil hnil]
    exact .short (hok _ _) (.value v)
  | value w =>
    obtain rfl := hkey.value
    refine ⟨w != v, .value v, by rw [insert_end]; rfl, ?_, ?_⟩
    · exact .value v
    intro heq
    rw [insert_empty, bne_eq_false_iff_eq.1 heq]
  | short hfl h ih =>
    rename_i k c fl t
    obtain ⟨hk, hcanon⟩ := hkey.short
    rw [insert_short _ _ _ _ _ _ hk.ne_nil, Patricia.insert_short hk.ne_nil]
    simp only [prefixLen_eq_length]
    by_cases hpre : k <+: key
    · obtain ⟨r, rfl⟩ := hpre
      have hneed := need_short_child hcanon.key_ne_nil hfuel
      obtain ⟨dirty, n', hins, hn', hsame⟩ := ih hkey.short_child hneed (path ++ k)
      simp only [prefix_append, if_true, drop_left, hins]
      cases dirty with
      | true => exact ⟨true, _, rfl, .short (hok _ _) hn', nofun⟩
      | false =>
        rw [hsame rfl]
        exact ⟨false, _, rfl, .short hfl h, fun _ => rfl⟩
    simp only [if_neg hpre]
    obtain ⟨n', hbranch, hn'⟩ := branchOut_denotes hok h hcanon hk hpre v
    exact ⟨true, n', hbranch, hn', nofun⟩
  | full hfl h ih =>
    obtain ⟨a, key, rfl⟩ := exists_cons_of_ne_nil hkey.full.1.ne_nil
    have hneed := need_full_child hfuel
    obtain ⟨dirty, n', hins, hn', hsame⟩ := ih a hkey.full_child hneed (path ++ [a])
    rw [insert_full, hins, Patricia.insert_full]
    cases dirty with
    | true => exact ⟨true, _, rfl, .full (hok _ _) (.update h hn'), nofun⟩
    | false =>
      rw [hsame rfl, update_eq_self]
      exact ⟨false, _, rfl, .full hfl h, fun _ => rfl⟩
  | hash hknown hinner hn ih =>
    obtain ⟨fuel, rfl, hneed⟩ := need_hash hinner hfuel
    have hne : key ≠ [] := by
      rintro rfl
      obtain ⟨-, hnil | ⟨w, hw⟩⟩ | ⟨hk, -⟩ := hkey
      · exact (Denotes.ne_value (.hash hknown hinner hn)).1 hnil
      · exact (Denotes.ne_value (.hash hknown hinner hn)).2 w hw
      · exact hk
    obtain ⟨dirty, n', hins, hn', hsame⟩ := ih hkey hneed path
    rw [insert_hash _ _ _ (hdb hknown) hne, hins]
    cases dirty with
    | true => exact ⟨true, _, rfl, hn', nofun⟩
    | false =>
      refine ⟨false, _, rfl, ?_, fun _ => hsame rfl⟩
      rw [hsame rfl]
      exact hn

/-! ### Deleting -/

section

variable (fuel : Nat) (path : List Nibble)

theorem delete_short (k : List Nibble) (c : Node) (fl : NodeFlag) (key : List Nibble) :
    delete db fuel (.short k c fl) path key =
      if prefixLen key k < k.length then .ok (false, .short k c fl)
      else if prefixLen key k = key.length then .ok (true, .nil)
      else (do
        let (dirty, child) ← delete db fuel c (path ++ k) (key.drop k.length)
        if dirty then
          match child with
          | .short k' c' _ => .ok (true, .short (k ++ k') c' newFlag)
          | child => .ok (true, .short k child newFlag)
        else .ok (false, .short k c fl)) := by
  cases fuel <;> rfl

theorem delete_full (ch : Nibble → Node) (fl : NodeFlag) (a : Nibble) (key : List Nibble) :
    delete db fuel (.full ch fl) path (a :: key) = (do
      let (dirty, nn) ← delete db fuel (ch a) (path ++ [a]) key
      if dirty then reduceFull db (update ch a nn) path
      else .ok (false, .full ch fl)) := by
  cases fuel <;> rfl

theorem delete_hash {h : Hash} (hdb : db h = some n) (key : List Nibble) :
    delete db (fuel + 1) (.hash h) path key = (do
      let (dirty, nn) ← delete db fuel n path key
      if dirty then .ok (true, nn) else .ok (false, n)) := by
  simp only [delete, deleteWith, resolveHash, hdb]
  rfl

end

theorem onlyChild_some {ch : Nibble → Node} {pos : Nibble} (h : onlyChild ch = some pos) :
    ch pos ≠ .nil ∧ ∀ i, ch i ≠ .nil → i = pos := by
  unfold onlyChild at h
  split at h
  · rename_i p hfilter
    obtain rfl : p = pos := Option.some.inj h
    have hmem : ∀ i, ch i ≠ .nil ↔ i = p := by
      intro i
      have : i ∈ (finRange 17).filter (fun i => !(ch i).isNil) ↔ i ∈ [p] := by rw [hfilter]
      simpa [Node.isNil_eq_false] using this
    exact ⟨(hmem p).2 rfl, fun i => (hmem i).1⟩
  · cases h

theorem onlyChild_none {ch : Nibble → Node} {a : Nibble} (h : onlyChild ch = none)
    (ha : ch a ≠ .nil) : ∃ b c, b ≠ c ∧ ch b ≠ .nil ∧ ch c ≠ .nil := by
  have hmem : ∀ i, i ∈ (finRange 17).filter (fun i => !(ch i).isNil) ↔ ch i ≠ .nil := by
    simp [Node.isNil_eq_false]
  have hnodup := (nodup_finRange 17).filter (fun i => !(ch i).isNil)
  unfold onlyChild at h
  generalize (finRange 17).filter (fun i => !(ch i).isNil) = l at h hmem hnodup
  match l, h, hmem, hnodup with
  | [], _, hmem, _ => exact absurd ((hmem a).2 ha) (by simp)
  | b :: c :: l, _, hmem, hnodup =>
    refine ⟨b, c, ?_, (hmem b).1 (by simp), (hmem c).1 (by simp)⟩
    rintro rfl
    simp at hnodup

theorem Denotes.resolve (hdb : known.Le db) (h : Denotes known ok isRoot n t) (path : List Nibble) :
    ∃ n', resolve db n path = .ok n' ∧ Denotes known ok isRoot n' t ∧ ∀ hsh, n' ≠ .hash hsh := by
  cases h with
  | hash hknown hinner h =>
    rename_i hsh n'
    refine ⟨n', by simp [resolve, resolveHash, hdb hknown], h, ?_⟩
    rintro hsh rfl
    cases hinner
  | nil => exact ⟨_, rfl, .nil, nofun⟩
  | value v => exact ⟨_, rfl, .value v, nofun⟩
  | short hfl h => exact ⟨_, rfl, .short hfl h, nofun⟩
  | full hfl h => exact ⟨_, rfl, .full hfl h, nofun⟩

def joinNode (k : List Nibble) (loaded n : Node) : Node :=
  match loaded with
  | .short k' c _ => .short (k ++ k') c newFlag
  | _ => .short k n newFlag

theorem denotes_joinNode (hok : ∀ b t, ok b newFlag t) (k : List Nibble) {loaded : Node}
    (hl : Denotes known ok false loaded t) (hloaded : ∀ hsh, loaded ≠ .hash hsh)
    (hn : Denotes known ok false n t) :
    Denotes known ok isRoot (joinNode k loaded n) (join k t) := by
  cases hl with
  | hash hdb hinner h => exact absurd rfl (hloaded _)
  | nil | value v => exact .short (hok _ _) hn
  | short hfl h => exact .short (hok _ _) h
  | full hfl h => exact .short (hok _ _) hn

theorem reduceFull_denotes (hdb : known.Le db) (hok : ∀ b t, ok b newFlag t)
    {ch : Nibble → Node} {tch : Nibble → PTree} (h : ∀ i, Denotes known ok false (ch i) (tch i))
    {a : Nibble} (ha : tch a ≠ .nil)
    (hvalue : ∀ k t, tch terminator ≠ .short k t) (path : List Nibble) :
    ∃ n', reduceFull db ch path = .ok (true, n') ∧ Denotes known ok isRoot n' (reduce tch) ∧
      ∀ hsh, n' ≠ .hash hsh := by
  have hnil : ∀ i, ch i ≠ .nil ↔ tch i ≠ .nil := fun i => not_congr (h i).nil_iff
  unfold reduceFull
  split
  · rename_i hnone
    obtain ⟨b, c, hbc, hb, hc⟩ := onlyChild_none hnone ((hnil a).2 ha)
    rw [reduce_of_two ⟨b, c, hbc, (hnil b).1 hb, (hnil c).1 hc⟩]
    exact ⟨_, rfl, .full (hok _ _) h, nofun⟩
  rename_i pos hpos
  obtain ⟨hne, huniq⟩ := onlyChild_some hpos
  rw [reduce_of_unique ((hnil pos).1 hne) fun b hb => huniq b ((hnil b).2 hb)]
  split
  · obtain ⟨loaded, hres, hl, hnot⟩ := (h pos).resolve hdb path
    refine ⟨joinNode [pos] loaded (ch pos), ?_, denotes_joinNode hok [pos] hl hnot (h pos), ?_⟩
    · simp only [hres]
      cases loaded <;> rfl
    · unfold joinNode
      split <;> nofun
  rename_i hterm
  obtain rfl : pos = terminator := not_not.1 hterm
  refine ⟨_, rfl, ?_, nofun⟩
  unfold join
  split
  · rename_i k t heq
    exact absurd heq (hvalue k t)
  · exact .short (hok _ _) (h _)

theorem delete_denotes (hdb : known.Le db) (hok : ∀ b t, ok b newFlag t)
    (h : Denotes known ok isRoot n t) {key : List Nibble} (hkey : Fits terminator t key)
    {fuel : Nat} (hfuel : need n key ≤ fuel) (path : List Nibble) :
    ∃ dirty n', delete db fuel n path key = .ok (dirty, n') ∧
      Denotes known ok isRoot n' (Patricia.delete t key) ∧
      (dirty = false → Patricia.delete t key = t) ∧
      (dirty = true → ∀ hsh, n' ≠ .hash hsh) := by
  induction h generalizing key fuel path with
  | nil =>
    refine ⟨false, .nil, by cases fuel <;> rfl, ?_, ?_, by simp⟩
    · exact .nil
    · exact fun _ => rfl
  | value w =>
    refine ⟨true, .nil, by cases fuel <;> rfl, ?_, by simp, fun _ _ h => by cases h⟩
    exact .nil
  | short hfl h ih =>
    rename_i k c fl t
    obtain ⟨hk, hcanon⟩ := hkey.short
    rw [delete_short, Patricia.delete_short]
    by_cases hpre : k <+: key
    · have hlen : prefixLen key k = k.length := prefixLen_eq_length.2 hpre
      obtain ⟨r, rfl⟩ := hpre
      rw [hlen, if_neg (Nat.lt_irrefl _), if_pos (prefix_append _ _)]
      by_cases hr : k.length = (k ++ r).length
      · rw [if_pos hr, if_pos hr.symm]
        exact ⟨true, _, rfl, .nil, by simp, fun _ _ h => by cases h⟩
      rw [if_neg hr, if_neg (Ne.symm hr), drop_left]
      have hneed := need_short_child hcanon.key_ne_nil hfuel
      obtain ⟨dirty, child, hdel, hchild, hsame, hloaded⟩ :=
        ih hkey.short_child hneed (path ++ k)
      rw [hdel]
      cases dirty with
      | true =>
        refine ⟨true, joinNode k child child, ?_,
          denotes_joinNode hok k hchild (hloaded rfl) hchild, by simp, fun _ => ?_⟩
        · cases child <;> rfl
        unfold joinNode
        split <;> (intro hsh h; cases h)
      | false =>
        rw [hsame rfl]
        have hjoin : join k t = .short k t := by
          cases hcanon with
          | leaf hleaf =>
            rw [hleaf.eq_of_append hk] at hr
            simp at hr
          | ext hne ht hfull => rfl
        rw [hjoin]
        exact ⟨false, _, rfl, .short hfl h, fun _ => rfl, by simp⟩
    have hlt : prefixLen key k < k.length :=
      Nat.lt_of_le_of_ne (common_length_le key k) fun heq => hpre (prefixLen_eq_length.1 heq)
    rw [if_pos hlt, if_neg hpre]
    exact ⟨false, _, rfl, .short hfl h, fun _ => rfl, by simp⟩
  | full hfl h ih =>
    rename_i ch fl tch
    obtain ⟨hk, hcanon⟩ := hkey.full
    obtain ⟨a, key, rfl⟩ := exists_cons_of_ne_nil hk.ne_nil
    have hneed := need_full_child hfuel
    obtain ⟨dirty, n', hdel, hn', hsame, -⟩ := ih a hkey.full_child hneed (path ++ [a])
    rw [delete_full, hdel, Patricia.delete_full]
    cases dirty with
    | true =>
      obtain ⟨b, hb⟩ := exists_child_update hcanon
      have hvalue : ∀ k t, update tch a (Patricia.delete (tch a) key) terminator ≠ .short k t := by
        by_cases hterm : terminator = a
        · subst hterm
          obtain hv | ⟨v, hv⟩ := value_child hcanon <;>
            simp [hv, Patricia.delete]
        · obtain hv | ⟨v, hv⟩ := value_child hcanon <;> simp [hterm, hv]
      obtain ⟨n'', hred, hn'', hloaded⟩ :=
        reduceFull_denotes hdb hok (Denotes.update h hn') hb hvalue path
      exact ⟨true, n'', hred, hn'', by simp, fun _ => hloaded⟩
    | false =>
      rw [hsame rfl, update_eq_self, reduce_of_two (canon_full.1 hcanon).1]
      exact ⟨false, _, rfl, .full hfl h, fun _ => rfl, by simp⟩
  | hash hknown hinner hn ih =>
    obtain ⟨fuel, rfl, hneed⟩ := need_hash hinner hfuel
    obtain ⟨dirty, n', hdel, hn', hsame, hloaded⟩ := ih hkey hneed path
    rw [delete_hash _ _ (hdb hknown), hdel]
    cases dirty with
    | true => exact ⟨true, _, rfl, hn', by simp, fun _ => hloaded rfl⟩
    | false =>
      refine ⟨false, _, rfl, ?_, fun _ => hsame rfl, by simp⟩
      rw [hsame rfl]
      exact hn

end Simulation

/-! ## Updates of a trie -/

/-- The tree after a value is written under a key; the empty value deletes. -/
noncomputable def write (t : PTree) (key value : Bytes) : PTree :=
  if value.length ≠ 0 then Patricia.insert t (keybytesToHex key) value
  else Patricia.delete t (keybytesToHex key)

structure Holds (known : NodeReader) (ok : Bool → NodeFlag → PTree → Prop) (tr : Trie) (t : PTree) :
    Prop where
  denotes : Denotes known ok true tr.root t
  canonical : Canonical terminator t

section Updates

variable {known db : NodeReader} {ok : Bool → NodeFlag → PTree → Prop} {tr : Trie} {t : PTree}

theorem Holds.fits (h : Holds known ok tr t) (key : Bytes) :
    Fits terminator t (keybytesToHex key) :=
  .inr ⟨isKey_keybytesToHex key, h.canonical⟩

theorem holds_empty : Holds known ok .empty .nil := ⟨.nil, .inl rfl⟩

theorem Holds.tryGet (hdb : known.Le db) (h : Holds known ok tr t) (key : Bytes) :
    (tr.tryGet db key).1 = .ok (get t (keybytesToHex key)) ∧
      Holds known ok (tr.tryGet db key).2 t := by
  obtain ⟨n', didResolve, hget, hn'⟩ := tryGet_denotes hdb h.denotes (h.fits key) (need_le _ _) []
  unfold Trie.tryGet
  simp only [hget]
  cases didResolve with
  | true => exact ⟨trivial, hn', h.canonical⟩
  | false => exact ⟨trivial, h⟩

theorem canonical_write (h : Canonical terminator t) (key value : Bytes) :
    Canonical terminator (write t key value) := by
  unfold write
  split
  · exact .inr (canon_insert h (isKey_keybytesToHex key) value)
  · exact (canonical_delete h (isKey_keybytesToHex key)).1

theorem Holds.tryDelete (hdb : known.Le db) (hok : ∀ b t, ok b newFlag t) (h : Holds known ok tr t)
    (key : Bytes) :
    ∃ tr', tr.tryDelete db key = (.ok (), tr') ∧ Holds known ok tr' (write t key []) := by
  obtain ⟨dirty, n', hdel, hn', -⟩ := delete_denotes hdb hok h.denotes (h.fits key) (need_le _ _) []
  refine ⟨⟨n', tr.unhashed + 1⟩, ?_, hn', canonical_write h.canonical key []⟩
  unfold Trie.tryDelete
  simp only [hdel]

theorem Holds.tryUpdate (hdb : known.Le db) (hok : ∀ b t, ok b newFlag t) (h : Holds known ok tr t)
    (key value : Bytes) :
    ∃ tr', tr.tryUpdate db key value = (.ok (), tr') ∧ Holds known ok tr' (write t key value) := by
  unfold Trie.tryUpdate
  by_cases hvalue : value.length ≠ 0
  · obtain ⟨dirty, n', hins, hn', -⟩ :=
      insert_denotes hdb hok h.denotes (h.fits key) (need_le _ _) [] value
    refine ⟨⟨n', tr.unhashed + 1⟩, ?_, ?_, canonical_write h.canonical key value⟩
    · rw [if_pos hvalue]
      simp only [hins]
    · rw [write, if_pos hvalue]
      exact hn'
  obtain rfl : value = [] := length_eq_zero_iff.1 (not_not.1 hvalue)
  exact h.tryDelete hdb hok key

theorem get_write (h : Canonical terminator t) (key value key' : Bytes) :
    get (write t key value) (keybytesToHex key') =
      if key' = key then (if value.length ≠ 0 then some value else none)
      else get t (keybytesToHex key') := by
  have hkey := isKey_keybytesToHex key
  unfold write
  split
  · rw [get_insert h hkey]
    simp only [keybytesToHex_injective.eq_iff]
  · rw [get_delete h hkey (isKey_keybytesToHex key')]
    simp only [keybytesToHex_injective.eq_iff]

end Updates

end Virbicoin.Mpt
