import Virbicoin.Trie.Flush

/-!
# Committing a trie

`trie/committer.go` stores the nodes of a trie in the database, and `New` of `trie/trie.go` opens a
trie that is stored there. A node that is smaller than 32 bytes is stored inside its parent.

`stored` is the form in which the root node of a tree is stored. Whether it is read from the cache
or decoded from disk, it gives the same node (`expandNode_stored`, `stored_encode`). A database
is `Stocked` if it holds nothing but stored trees together with their children.
-/

namespace Virbicoin.Mpt

open Virbicoin.Lib Virbicoin.Lib.Patricia

/-! ## Reading from the database -/

/-- `expandNode`. A missing child stays missing; a missing node is never expanded. -/
def expandNode : Option Hash → RawNode → Node
  | _, .nil => .nil
  | _, .value v => .value v
  | _, .hash h => .hash h
  | hash, .short key val => .short (compactToHex key) (expandNode none val) ⟨hash, false⟩
  | hash, .full ch => .full (fun i => expandNode none (ch i)) ⟨hash, false⟩

/-- `Database.node`. The source panics when the bytes on disk do not decode. -/
def Database.node (db : Database) : NodeReader := fun hash =>
  match db.dirties.lookup hash with
  | some dirty => some (expandNode (some hash) dirty.node)
  | none =>
    match db.disk.lookup hash with
    | some node => (decodeNode (some hash) node.encode).toOption
    | none => none

def Trie.new (root : Hash) (db : NodeReader) : Except Err Trie :=
  if root ≠ 0 ∧ root ≠ emptyRoot then (resolveHash db root []).map fun n => ⟨n, 0⟩
  else .ok .empty

/-! ## The committer -/

/-- `estimateSize`. The source panics at a missing node that is not a child of a full node. -/
def RawNode.estimateSize : RawNode → Nat
  | .nil => 0
  | .value v => 1 + v.length
  | .hash _ => 1 + 32
  | .short key val => 3 + key.length + val.estimateSize
  | .full ch =>
    3 + (childIndices.map fun i => if (ch i).isNil then 1 else (ch i).estimateSize).sum

/-- `simplifyNode`, which drops the flags. -/
def simplifyNode : Node → RawNode
  | .nil => .nil
  | .value v => .value v
  | .hash h => .hash h
  | .short k c _ => .short (k.map fun a => BitVec.ofNat 8 a) (simplifyNode c)
  | .full ch _ => .full fun i => simplifyNode (ch i)

def Node.isFull : Node → Bool
  | .full _ _ => true
  | _ => false

def Node.dirty : Node → Bool
  | .full _ flags => flags.dirty
  | .short _ _ flags => flags.dirty
  | _ => true

namespace Committer

/-- `store`: a node without a hash is a small one, which is stored in its parent. -/
def store (hash : Option Hash) (n : RawNode) (db : Database) : Except Err (RawNode × Database) :=
  match hash with
  | none => .ok (n, db)
  | some h => do
    let db ← db.insert h n.estimateSize n
    .ok (.hash h, db)

/-- `commit`: the collapsed node, or its hash if it is stored on its own. The child of a short node
is a full node, a hash or a value; of a full node the value at the terminator is taken as it is. -/
def commit : Node → Database → Except Err (RawNode × Database)
  | .nil, _ => .error .panic
  | .value _, _ => .error .panic
  | .hash h, db => .ok (.hash h, db)
  | .short k c fl, db =>
    match fl.hash, fl.dirty with
    | some h, false => .ok (.hash h, db)
    | _, _ => do
      let (val, db) ← (if c.isFull then commit c db else .ok (simplifyNode c, db))
      store fl.hash (.short (hexToCompact k) val) db
  | .full ch fl, db =>
    match fl.hash, fl.dirty with
    | some h, false => .ok (.hash h, db)
    | _, _ => do
      let (kids, db) ← childIndices.foldlM (fun s i =>
          if (ch i).isNil then .ok s
          else do
            let (kid, db) ← commit (ch i) s.2
            .ok (Function.update s.1 i kid, db))
        ((fun _ => .nil : Nibble → RawNode), db)
      store fl.hash (.full (Function.update kids terminator (simplifyNode (ch terminator)))) db

end Committer

def Trie.commit (keccak : Bytes → Hash) (tr : Trie) (db : Database) :
    Except Err (Hash × Trie × Database) :=
  if tr.root.isNil then .ok (emptyRoot, tr, db)
  else
    let (rootHash, tr) := tr.hash keccak
    if tr.root.dirty = false then .ok (rootHash, tr, db)
    else do
      let (newRoot, db) ← Committer.commit tr.root db
      match newRoot with
      | .hash h => .ok (rootHash, { tr with root := .hash h }, db)
      | _ => .error .panic

/-! ## The stored form -/

section Stored

variable (keccak : Bytes → Hash)

/-- The form in which a tree is stored in its parent. -/
def storedRef (t : PTree) (raw : RawNode) : RawNode :=
  if isInner t = true ∧ 32 ≤ (encoding keccak t).length then .hash (keccak (encoding keccak t))
  else raw

/-- The form in which the root node of a tree is stored. Missing children are missing. -/
def stored : PTree → RawNode
  | .nil => .nil
  | .value v => .value v
  | .short k t => .short (hexToCompact k) (storedRef keccak t (stored t))
  | .full ch => .full fun i => storedRef keccak (ch i) (stored (ch i))

variable {keccak} {t s : PTree}

theorem storedRef_large (hinner : isInner t = true) (h : 32 ≤ (encoding keccak t).length)
    (raw : RawNode) : storedRef keccak t raw = .hash (keccak (encoding keccak t)) := by
  rw [storedRef, if_pos ⟨hinner, h⟩]

theorem storedRef_small (h : (encoding keccak t).length < 32) (raw : RawNode) :
    storedRef keccak t raw = raw := by
  rw [storedRef, if_neg fun hc => absurd hc.2 (not_le.2 h)]

theorem storedRef_leaf (h : isInner t = false) (raw : RawNode) : storedRef keccak t raw = raw := by
  rw [storedRef, if_neg (by simp [h])]

theorem stored_isNil : (stored keccak t).isNil = (collapse keccak t).isNil := by cases t <;> rfl

theorem storedRef_toValue (h : (stored keccak t).toValue = (collapse keccak t).toValue) :
    (storedRef keccak t (stored keccak t)).toValue = (ref keccak t).toValue ∧
      (storedRef keccak t (stored keccak t)).isNil = (ref keccak t).isNil := by
  by_cases hinner : isInner t = true
  · by_cases hlarge : 32 ≤ (encoding keccak t).length
    · rw [storedRef_large hinner hlarge, ref_large hinner hlarge]
      exact ⟨rfl, rfl⟩
    · rw [storedRef_small (not_le.1 hlarge), ref_small hinner (not_le.1 hlarge)]
      exact ⟨h, stored_isNil⟩
  rw [storedRef_leaf (by simpa using hinner), ref_leaf (by simpa using hinner)]
  exact ⟨h, stored_isNil⟩

theorem stored_toValue : (stored keccak t).toValue = (collapse keccak t).toValue := by
  induction t with
  | nil | value v => rfl
  | short k t ih =>
    obtain ⟨hval, hnil⟩ := storedRef_toValue ih
    rw [stored, RawNode.toValue, hval, hnil]
    rfl
  | full ch ih =>
    rw [stored, RawNode.toValue]
    congr 2
    funext i
    rw [(storedRef_toValue (ih i)).1]
    exact (toValue_child ch i).symm

theorem stored_encode : (stored keccak t).encode = encoding keccak t := by
  rw [RawNode.encode, stored_toValue]
  rfl

theorem canon_of_subTree (hcanon : Canon terminator t) (hs : SubTree s t)
    (hinner : isInner s = true) : Canon terminator s := by
  induction hs with
  | refl => exact hcanon
  | short h ih =>
    cases hcanon with
    | leaf hk =>
      cases h
      cases hinner
    | ext hne ht hc => exact ih hc
  | full h ih =>
    rename_i ch a
    by_cases ha : a = terminator
    · obtain hnil | ⟨v, hv⟩ := value_child hcanon
      · rw [ha, hnil] at h
        cases h
        cases hinner
      rw [ha, hv] at h
      cases h
      cases hinner
    obtain hnil | hc := canonical_child hcanon ha
    · rw [hnil] at h
      cases h
      cases hinner
    · exact ih hc

theorem compactToHex_of_canon {k : List Nibble} (hcanon : Canon terminator (.short k t)) :
    compactToHex (hexToCompact k) = k := by
  cases hcanon with
  | leaf hk => exact (hasTerm_of_isKey hk).2
  | ext hne hk h => exact (hasTerm_of_not_mem hk).2

theorem expandNode_storedRef
    (h : isInner t = true → expandNode none (stored keccak t) = load keccak none t) :
    expandNode none (storedRef keccak t (stored keccak t)) = loadRef keccak t := by
  by_cases hinner : isInner t = true
  · by_cases hlarge : 32 ≤ (encoding keccak t).length
    · rw [storedRef_large hinner hlarge, loadRef_large hinner hlarge]
      rfl
    · have hsmall := not_le.1 hlarge
      rw [storedRef_small hsmall, loadRef_small hinner hsmall, h hinner]
  cases t with
  | nil | value v => rfl
  | short k t | full ch => exact absurd rfl hinner

theorem expandNode_stored (hcanon : Canon terminator t) (hash : Option Hash) :
    expandNode hash (stored keccak t) = load keccak hash t := by
  induction t generalizing hash with
  | nil | value v => cases hcanon
  | short k t ih =>
    have hchild := expandNode_storedRef fun hinner =>
      ih (canon_of_subTree hcanon (.short .refl) hinner) none
    rw [stored, expandNode, hchild, compactToHex_of_canon hcanon, load]
  | full ch ih =>
    rw [stored, expandNode]
    congr 1
    funext i
    exact expandNode_storedRef fun hinner =>
      ih i (canon_of_subTree hcanon (.full .refl) hinner) none

end Stored

/-! ## The trees below a tree -/

section Below

variable (keccak : Bytes → Hash)

def hashOf (t : PTree) : Hash := keccak (encoding keccak t)

/-- The hashes of the trees below `t` that are stored on their own have the property `P`. -/
def StoredBelow (P : Hash → Prop) : PTree → Prop
  | .nil => True
  | .value _ => True
  | .short _ t =>
    (isInner t = true → 32 ≤ (encoding keccak t).length → P (hashOf keccak t)) ∧ StoredBelow P t
  | .full ch => ∀ i,
    (isInner (ch i) = true → 32 ≤ (encoding keccak (ch i)).length → P (hashOf keccak (ch i))) ∧
      StoredBelow P (ch i)

def StoredFrom (P : Hash → Prop) (t : PTree) : Prop :=
  (isInner t = true → 32 ≤ (encoding keccak t).length → P (hashOf keccak t)) ∧
    StoredBelow keccak P t

variable {keccak} {P Q : Hash → Prop} {t : PTree}

theorem StoredBelow.mono (h : StoredBelow keccak P t) (hPQ : ∀ h, P h → Q h) :
    StoredBelow keccak Q t := by
  induction t with
  | nil | value v => trivial
  | short k t ih => exact ⟨fun hinner hlen => hPQ _ (h.1 hinner hlen), ih h.2⟩
  | full ch ih => exact fun i => ⟨fun hinner hlen => hPQ _ ((h i).1 hinner hlen), ih i (h i).2⟩

theorem StoredBelow.storedRef
    (hself : isInner t = true → 32 ≤ (encoding keccak t).length → P (hashOf keccak t))
    (h : ∀ c ∈ (stored keccak t).gatherChildren, P c) :
    ∀ c ∈ (Mpt.storedRef keccak t (stored keccak t)).gatherChildren, P c := by
  intro c hc
  unfold Mpt.storedRef at hc
  split at hc
  · rename_i hlarge
    obtain rfl := List.mem_singleton.1 hc
    exact hself hlarge.1 hlarge.2
  · exact h c hc

theorem StoredBelow.gatherChildren (h : StoredBelow keccak P t) :
    ∀ c ∈ (stored keccak t).gatherChildren, P c := by
  induction t with
  | nil | value v => exact fun c hc => nomatch hc
  | short k t ih => exact storedRef h.1 (ih h.2)
  | full ch ih =>
    intro c hc
    obtain ⟨i, -, hi⟩ := List.mem_flatMap.1 hc
    exact storedRef (h i).1 (ih i (h i).2) c hi

end Below

/-! ## What a database holds -/

/-- A set of trees, with the trees in them, that can be stored together: no two of them have the
same hash, and references go down in rank. -/
structure CollisionFreeOn (keccak : Bytes → Hash) (rank : Hash → Nat) (U : Set PTree) : Prop where
  canon : ∀ {t}, t ∈ U → Canon terminator t
  storable : ∀ {t}, t ∈ U → Storable keccak t
  sub : ∀ {t s}, t ∈ U → SubTree s t → isInner s = true → s ∈ U
  inj : ∀ {t s}, t ∈ U → s ∈ U → hashOf keccak t = hashOf keccak s → t = s
  ne_zero : ∀ {t}, t ∈ U → hashOf keccak t ≠ 0
  ne_emptyRoot : ∀ {t}, t ∈ U → hashOf keccak t ≠ emptyRoot
  rank_lt : ∀ {t}, t ∈ U → StoredBelow keccak (fun c => rank c < rank (hashOf keccak t)) t

/-- The database holds trees of `U`, each with its children; what is on disk has its children on
disk. -/
structure Stocked (keccak : Bytes → Hash) (U : Set PTree) (db : Database) : Prop where
  cached : ∀ {h n}, h ≠ 0 → db.entry h = some n →
    ∃ t ∈ U, h = hashOf keccak t ∧ n.node = stored keccak t
  disk : ∀ {h raw}, db.disk.lookup h = some raw →
    ∃ t ∈ U, h = hashOf keccak t ∧ raw = stored keccak t
  kids : ∀ {t}, t ∈ U → db.Retrievable (hashOf keccak t) →
    ∀ c ∈ (stored keccak t).gatherChildren, db.Retrievable c
  closed : ∀ {t}, t ∈ U → hashOf keccak t ∈ db.disk →
    ∀ c ∈ (stored keccak t).gatherChildren, c ∈ db.disk

section Stocked

variable {keccak : Bytes → Hash} {rank : Hash → Nat} {U : Set PTree} {db db' : Database}
  {P : Hash → Prop} {t : PTree} {l : List Hash}

theorem isInner_of_canon (h : Canon terminator t) : isInner t = true := by cases h <;> rfl

variable (hU : CollisionFreeOn keccak rank U)
include hU

theorem CollisionFreeOn.storedBelow_of_forall (hP : ∀ t ∈ U, P (hashOf keccak t))
    (ht : isInner t = true → t ∈ U) :
    StoredBelow keccak P t := by
  induction t with
  | nil | value v => trivial
  | short k t ih =>
    have hs : isInner t = true → t ∈ U := hU.sub (ht rfl) (.short .refl)
    exact ⟨fun hinner _ => hP t (hs hinner), ih hs⟩
  | full ch ih =>
    intro i
    have hs : isInner (ch i) = true → ch i ∈ U := hU.sub (ht rfl) (.full .refl)
    exact ⟨fun hinner _ => hP _ (hs hinner), ih i hs⟩

theorem CollisionFreeOn.storedBelow
    (hP : ∀ t ∈ U, P (hashOf keccak t) → ∀ c ∈ (stored keccak t).gatherChildren, P c)
    (ht : isInner t = true → t ∈ U) (h : ∀ c ∈ (stored keccak t).gatherChildren, P c) :
    StoredBelow keccak P t := by
  have hchild : ∀ s, (isInner s = true → s ∈ U) →
      (∀ c ∈ (storedRef keccak s (stored keccak s)).gatherChildren, P c) →
      (isInner s = true → 32 ≤ (encoding keccak s).length → P (hashOf keccak s)) ∧
        ∀ c ∈ (stored keccak s).gatherChildren, P c := by
    intro s hs href
    by_cases hlarge : isInner s = true ∧ 32 ≤ (encoding keccak s).length
    · rw [storedRef_large hlarge.1 hlarge.2] at href
      have hself : P (hashOf keccak s) := href _ (List.mem_singleton.2 rfl)
      exact ⟨fun _ _ => hself, hP s (hs hlarge.1) hself⟩
    rw [storedRef, if_neg hlarge] at href
    exact ⟨fun hinner hlen => absurd ⟨hinner, hlen⟩ hlarge, href⟩
  induction t with
  | nil | value v => trivial
  | short k t ih =>
    have hs : isInner t = true → t ∈ U := hU.sub (ht rfl) (.short .refl)
    obtain ⟨hself, hkids⟩ := hchild t hs h
    exact ⟨hself, ih hs hkids⟩
  | full ch ih =>
    intro i
    have hs : isInner (ch i) = true → ch i ∈ U := hU.sub (ht rfl) (.full .refl)
    by_cases hi : i = terminator
    · obtain hv | ⟨v, hv⟩ := value_child (hU.canon (ht rfl))
      · rw [hi, hv]
        exact ⟨nofun, trivial⟩
      · rw [hi, hv]
        exact ⟨nofun, trivial⟩
    obtain ⟨hself, hkids⟩ := hchild (ch i) hs fun c hc =>
      h c (List.mem_flatMap.2 ⟨i, mem_childIndices.2 hi, hc⟩)
    exact ⟨hself, ih i hs hkids⟩

/-- The tree and all that is stored below it have the property `P`. -/
def Kept (keccak : Bytes → Hash) (P : Hash → Prop) (t : PTree) : Prop :=
  P (hashOf keccak t) ∧ StoredBelow keccak P t

omit hU in
theorem Kept.mono {Q : Hash → Prop} (h : Kept keccak P t) (hPQ : ∀ h, P h → Q h) :
    Kept keccak Q t := ⟨hPQ _ h.1, h.2.mono hPQ⟩

theorem Stocked.kept (hdb : Stocked keccak U db) (ht : t ∈ U)
    (h : db.Retrievable (hashOf keccak t)) :
    Kept keccak db.Retrievable t :=
  ⟨h, hU.storedBelow (fun _ => hdb.kids) (fun _ => ht) (hdb.kids ht h)⟩

theorem Stocked.node (hdb : Stocked keccak U db) (ht : t ∈ U)
    (h : db.Retrievable (hashOf keccak t)) :
    db.node (hashOf keccak t) = some (load keccak (some (hashOf keccak t)) t) := by
  have hcanon := hU.canon ht
  unfold Database.node
  cases hn : db.dirties.lookup (hashOf keccak t) with
  | some n =>
    obtain ⟨s, hs, heq, hnode⟩ := hdb.cached (hU.ne_zero ht) (Database.entry_of_lookup hn)
    obtain rfl := hU.inj ht hs heq
    refine congrArg some ?_
    rw [← expandNode_stored hcanon]
    exact congrArg _ hnode
  | none =>
    have hmem : hashOf keccak t ∈ db.disk := h.resolve_left (Finmap.lookup_eq_none.1 hn)
    obtain ⟨raw, hraw⟩ := Finmap.mem_iff.1 hmem
    obtain ⟨s, hs, heq, rfl⟩ := hdb.disk hraw
    obtain rfl := hU.inj ht hs heq
    simp only [hraw, stored_encode, decodeNode_encoding hcanon (hU.storable ht)]
    rfl

theorem Stocked.node_inv (hdb : Stocked keccak U db) (hwf : db.Wf rank l []) {h : Hash} {n : Node}
    (hn : db.node h = some n) :
    h = 0 ∧ n = .nil ∨ ∃ t ∈ U, h = hashOf keccak t ∧ db.Retrievable h ∧
      n = load keccak (some h) t := by
  by_cases h0 : h = 0
  · subst h0
    obtain ⟨m, hm, hnode⟩ := hwf.lookup_zero
    rw [Database.node, hm] at hn
    refine .inl ⟨rfl, ?_⟩
    rw [← Option.some.inj hn, hnode]
    rfl
  have hret : db.Retrievable h ∧ ∃ t ∈ U, h = hashOf keccak t := by
    cases hlook : db.dirties.lookup h with
    | some m =>
      obtain ⟨t, ht, heq, -⟩ := hdb.cached h0 (Database.entry_of_lookup hlook)
      exact ⟨.inl (Finmap.mem_iff.2 ⟨m, hlook⟩), t, ht, heq⟩
    | none =>
      cases hdisk : db.disk.lookup h with
      | some raw =>
        obtain ⟨t, ht, heq, -⟩ := hdb.disk hdisk
        exact ⟨.inr (Finmap.mem_iff.2 ⟨raw, hdisk⟩), t, ht, heq⟩
      | none => simp [Database.node, hlook, hdisk] at hn
  obtain ⟨hret, t, ht, rfl⟩ := hret
  rw [hdb.node hU ht hret] at hn
  exact .inr ⟨t, ht, rfl, hret, (Option.some.inj hn).symm⟩

end Stocked

end Virbicoin.Mpt
