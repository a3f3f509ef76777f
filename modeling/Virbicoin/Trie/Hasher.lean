import Virbicoin.Trie.Trie

/-!
# Hashing a trie

`trie/hasher.go`. Hashing collapses a node: each child is replaced by a reference to it, which is
the hash of its encoding, or the collapsed child itself where the encoding is shorter than 32 bytes.
The hasher returns the reference together with a copy of the node in which the hashes are cached.

`collapse` and `rootHash` say what a tree hashes to, for a hash function `keccak`. The hasher
computes that for every node that denotes the tree, as long as the cached hashes are right
(`hash_denotes`).
-/

namespace Virbicoin.Mpt

open Virbicoin.Lib Virbicoin.Lib.Patricia

/-- A collapsed node, with its path in the compact encoding. -/
inductive RawNode where
  | nil
  | full (children : Nibble → RawNode)
  | short (key : Bytes) (val : RawNode)
  | hash (h : Hash)
  | value (v : Bytes)

def hashBytes (h : Hash) : Bytes := bigEndian 32 h.toNat

namespace RawNode

def isNil : RawNode → Bool
  | .nil => true
  | _ => false

/-- What the RLP encoder sees: a missing child of a full node is written as an empty string, a
missing value of a short node (an empty interface) as an empty list. -/
def toValue : RawNode → Rlp.Value
  | .nil => .bytes []
  | .full ch => .list ((List.finRange 17).map fun i => (ch i).toValue)
  | .short key val => .list [.bytes key, if val.isNil then .list [] else val.toValue]
  | .hash h => .bytes (hashBytes h)
  | .value v => .bytes v

def encode (n : RawNode) : Bytes := Rlp.encodeToBytes n.toValue

def hash? : RawNode → Option Hash
  | .hash h => some h
  | _ => none

end RawNode

section Hasher

variable (keccak : Bytes → Hash)

/-- `shortnodeToHash` and `fullnodeToHash`: nodes smaller than 32 bytes are stored inside their
parent unless `force` is set. -/
def toHash (n : RawNode) (force : Bool) : RawNode :=
  if n.encode.length < 32 ∧ force = false then n else .hash (keccak n.encode)

/-- The reference to a node and the node with the hashes cached. A short node hashes its child; of a
full node the value at the terminator is left as it is, and a missing child becomes the empty value
(`nilValueNode`). -/
def hash : Node → Bool → RawNode × Node
  | .nil, _ => (.nil, .nil)
  | .value v, _ => (.value v, .value v)
  | .hash h, _ => (.hash h, .hash h)
  | .short k c fl, force =>
    match fl.hash with
    | some h => (.hash h, .short k c fl)
    | none =>
      let hashed := toHash keccak (.short (hexToCompact k) (hash c false).1) force
      (hashed, .short k (hash c false).2 { fl with hash := hashed.hash? })
  | .full ch fl, force =>
    match fl.hash with
    | some h => (.hash h, .full ch fl)
    | none =>
      let hashed := toHash keccak (.full fun i =>
        if i ≠ terminator ∧ (ch i).isNil then .value [] else (hash (ch i) false).1) force
      (hashed, .full (fun i => (hash (ch i) false).2) { fl with hash := hashed.hash? })

def emptyRoot : Hash := 0x56e81f171bcc55a6ff8345e692c0f86e5b48e01b996cadc001622fb5e363b421#256

/-- `Trie.Hash`: the root hash and the trie with the hashes cached. -/
def Trie.hash (tr : Trie) : Hash × Trie :=
  if tr.root.isNil then (emptyRoot, tr)
  else
    let (hashed, cached) := Mpt.hash keccak tr.root true
    (hashed.hash?.getD 0, ⟨cached, 0⟩)

end Hasher

/-! ## What a tree hashes to -/

def isInner : PTree → Bool
  | .short _ _ => true
  | .full _ => true
  | _ => false

def isNil : PTree → Bool
  | .nil => true
  | _ => false

theorem isNil_iff {t : PTree} : isNil t = true ↔ t = .nil := by cases t <;> simp [isNil]

section Collapse

variable (keccak : Bytes → Hash)

def refOf (t : PTree) (raw : RawNode) : RawNode :=
  if isInner t then toHash keccak raw false else raw

def collapse : PTree → RawNode
  | .nil => .nil
  | .value v => .value v
  | .short k t => .short (hexToCompact k) (refOf keccak t (collapse t))
  | .full ch => .full fun i =>
    if i ≠ terminator ∧ isNil (ch i) then .value [] else refOf keccak (ch i) (collapse (ch i))

def ref (t : PTree) : RawNode := refOf keccak t (collapse keccak t)

def encoding (t : PTree) : Bytes := (collapse keccak t).encode

def rootHash (t : PTree) : Hash :=
  match t with
  | .nil => emptyRoot
  | t => keccak (encoding keccak t)

end Collapse

/-! ## Encodings -/

@[simp] theorem hashBytes_length (h : Hash) : (hashBytes h).length = 32 := bigEndian_length _ _

theorem ofBigEndian_hashBytes (h : Hash) : BitVec.ofNat 256 (ofBigEndian (hashBytes h)) = h := by
  have hlt : h.toNat < 256 ^ 32 := h.isLt
  rw [hashBytes, ofBigEndian_bigEndian, Nat.mod_eq_of_lt hlt, BitVec.ofNat_toNat,
    BitVec.setWidth_eq]

section Encoding

variable {keccak : Bytes → Hash}

variable {t : PTree}

theorem listsFit_ref (h : Rlp.InnerFit (collapse keccak t).toValue) :
    Rlp.ListsFit (ref keccak t).toValue := by
  unfold ref refOf
  split
  · unfold toHash
    split
    · rename_i hlt
      refine h.listsFit ?_
      have hle := Rlp.payload_le (collapse keccak t).toValue
      rw [← Rlp.encodeToBytes_eq h] at hle
      have := hlt.1
      unfold RawNode.encode at this
      omega
    · simp [RawNode.toValue, Rlp.ListsFit]
  · cases t <;> simp_all [isInner, collapse, RawNode.toValue, Rlp.ListsFit]

theorem innerFit_collapse : Rlp.InnerFit (collapse keccak t).toValue := by
  induction t with
  | nil | value v => trivial
  | short k t ih =>
    have hval := listsFit_ref ih
    rw [collapse, RawNode.toValue, Rlp.InnerFit, Rlp.listsFits_iff]
    intro v hv
    simp only [List.mem_cons, List.not_mem_nil, or_false] at hv
    obtain rfl | rfl := hv
    · trivial
    split
    · simp [Rlp.ListsFit, Rlp.ListsFits, Rlp.encs]
    · exact hval
  | full ch ih =>
    rw [collapse, RawNode.toValue, Rlp.InnerFit, Rlp.listsFits_iff]
    intro v hv
    obtain ⟨i, -, rfl⟩ := List.mem_map.1 hv
    split
    · trivial
    · exact listsFit_ref (ih i)

theorem encoding_eq : encoding keccak t = Rlp.enc (collapse keccak t).toValue :=
  Rlp.encodeToBytes_eq innerFit_collapse

theorem ref_leaf (h : isInner t = false) : ref keccak t = collapse keccak t := by
  rw [ref, refOf, h, if_neg (by decide)]

theorem ref_small (h : isInner t = true) (hlt : (encoding keccak t).length < 32) :
    ref keccak t = collapse keccak t := by
  rw [ref, refOf, if_pos h, toHash, if_pos ⟨hlt, rfl⟩]

theorem ref_large (h : isInner t = true) (hle : 32 ≤ (encoding keccak t).length) :
    ref keccak t = .hash (keccak (encoding keccak t)) := by
  rw [ref, refOf, if_pos h, toHash, if_neg]
  · rfl
  rintro ⟨hlt, -⟩
  exact absurd hle (not_le.2 hlt)

theorem ref_isNil : (ref keccak t).isNil = isNil t := by
  by_cases hinner : isInner t = true
  · have hne : isNil t = false := by cases t <;> simp_all [isInner, isNil]
    by_cases hlt : (encoding keccak t).length < 32
    · rw [ref_small hinner hlt]
      cases t <;> simp_all [isInner, collapse, RawNode.isNil]
    · rw [ref_large hinner (Nat.not_lt.1 hlt), hne]
      rfl
  rw [ref_leaf (by simpa using hinner)]
  cases t <;> simp_all [isInner, collapse, RawNode.isNil, isNil]

theorem toValue_child (ch : Nibble → PTree) (i : Nibble) :
    (if i ≠ terminator ∧ isNil (ch i) then RawNode.value [] else ref keccak (ch i)).toValue =
      (ref keccak (ch i)).toValue := by
  split
  · rename_i h
    rw [isNil_iff.1 h.2]
    rfl
  · rfl

theorem encoding_short {k : List Nibble} (ht : t ≠ .nil) : encoding keccak (.short k t) =
      Rlp.enc (.list [.bytes (hexToCompact k), (ref keccak t).toValue]) := by
  have hnil : (ref keccak t).isNil = false := by
    rw [ref_isNil]
    cases t <;> simp_all [isNil]
  rw [encoding_eq]
  change Rlp.enc (.list [_, if (ref keccak t).isNil = true then _ else _]) = _
  rw [if_neg (by simp [hnil])]
  rfl

theorem encoding_full (ch : Nibble → PTree) : encoding keccak (.full ch) =
      Rlp.enc (.list ((List.finRange 17).map fun i => (ref keccak (ch i)).toValue)) := by
  rw [encoding_eq]
  simp only [← toValue_child]
  rfl

end Encoding

section Denotes

variable {keccak : Bytes → Hash} {known : NodeReader} {ok : Bool → NodeFlag → PTree → Prop}
  {isRoot : Bool} {n : Node} {t : PTree}

/-- A cached hash is the hash of the tree. Below the root only nodes of at least 32 bytes have
one. -/
def CachedHash (keccak : Bytes → Hash) (isRoot : Bool) (h : Hash) (t : PTree) : Prop :=
  h = keccak (encoding keccak t) ∧ (isRoot = false → 32 ≤ (encoding keccak t).length)

/-- The flags that are asked for give the right hashes, and hashing keeps them. -/
structure FlagsOk (keccak : Bytes → Hash) (ok : Bool → NodeFlag → PTree → Prop) : Prop where
  cached : ∀ {isRoot fl t h}, ok isRoot fl t → fl.hash = some h → CachedHash keccak isRoot h t
  set : ∀ {isRoot fl t h}, ok isRoot fl t → fl.hash = none → CachedHash keccak isRoot h t →
    ok isRoot { fl with hash := some h } t

def LoadsHash (known : NodeReader) : Prop :=
  ∀ h n, known h = some n → n.isInner = true → n.cachedHash = some h

theorem toHash_cached (hc : CachedHash keccak isRoot h t) :
    toHash keccak (collapse keccak t) isRoot = .hash h := by
  obtain ⟨rfl, hlen⟩ := hc
  unfold toHash
  rw [if_neg]
  · rfl
  rintro ⟨hlt, hroot⟩
  exact absurd (hlen hroot) (not_le.2 hlt)

theorem Denotes.isNil_eq (h : Denotes known ok isRoot n t) : n.isNil = isNil t := by
  have hiff := h.nil_iff
  cases n <;> cases t <;> simp_all [Node.isNil, isNil]

theorem Denotes.isInner (h : Denotes known ok isRoot n t) (hn : n.isInner = true) :
    isInner t = true := by
  cases h with
  | short hfl h | full hfl h => rfl
  | _ => cases hn

theorem Denotes.cached (hflags : FlagsOk keccak ok) (h : Denotes known ok isRoot n t) {hsh : Hash}
    (hn : n.cachedHash = some hsh) : CachedHash keccak isRoot hsh t := by
  cases h with
  | short hfl h | full hfl h => exact hflags.cached hfl hn
  | nil | value v | hash hdb hinner h => cases hn

/-- The reference of a node that denotes a tree: forced at the root, as a child otherwise. -/
def refAt (keccak : Bytes → Hash) (isRoot : Bool) (t : PTree) : RawNode :=
  if isInner t then toHash keccak (collapse keccak t) isRoot else collapse keccak t

theorem refAt_of_inner (h : isInner t = true) :
    refAt keccak isRoot t = toHash keccak (collapse keccak t) isRoot := by
  rw [refAt, if_pos h]

/-- **The hasher returns the reference to the tree that a node denotes, and a node that denotes the
same tree.** -/
theorem hash_denotes (hflags : FlagsOk keccak ok) (hload : LoadsHash known)
    (h : Denotes known ok isRoot n t) :
    (hash keccak n isRoot).1 = refAt keccak isRoot t ∧
      Denotes known ok isRoot (hash keccak n isRoot).2 t := by
  induction h with
  | nil => exact ⟨rfl, .nil⟩
  | value v => exact ⟨rfl, .value v⟩
  | hash hknown hinner h ih =>
    refine ⟨?_, .hash hknown hinner h⟩
    have hc := h.cached hflags (hload _ _ hknown hinner)
    rw [refAt_of_inner (h.isInner hinner), toHash_cached hc]
    rfl
  | short hfl h ih =>
    rename_i isRoot k c fl t
    rw [hash]
    cases hcached : fl.hash with
    | some hsh =>
      refine ⟨?_, .short hfl h⟩
      rw [refAt_of_inner (t := .short k t) rfl, toHash_cached (hflags.cached hfl hcached)]
    | none =>
      have hval : RawNode.short (hexToCompact k) (hash keccak c false).1 =
          collapse keccak (.short k t) := by
        rw [ih.1]
        rfl
      rw [hval]
      refine ⟨rfl, .short ?_ ih.2⟩
      unfold toHash
      split
      · simpa [collapse, RawNode.hash?, ← hcached] using hfl
      rename_i hlen
      refine hflags.set hfl hcached ⟨rfl, fun hroot => ?_⟩
      by_contra hlt
      exact hlen ⟨not_le.1 hlt, hroot⟩
  | full hfl h ih =>
    rename_i isRoot ch fl tch
    rw [hash]
    cases hcached : fl.hash with
    | some hsh =>
      refine ⟨?_, .full hfl h⟩
      rw [refAt_of_inner (t := .full tch) rfl, toHash_cached (hflags.cached hfl hcached)]
    | none =>
      have hval : (.full fun i =>
          if i ≠ terminator ∧ (ch i).isNil then .value [] else (hash keccak (ch i) false).1) =
          collapse keccak (.full tch) := by
        congr 1
        funext i
        rw [(ih i).1, (h i).isNil_eq]
        rfl
      rw [hval]
      refine ⟨rfl, .full ?_ fun i => (ih i).2⟩
      unfold toHash
      split
      · simpa [collapse, RawNode.hash?, ← hcached] using hfl
      rename_i hlen
      refine hflags.set hfl hcached ⟨rfl, fun hroot => ?_⟩
      by_contra hlt
      exact hlen ⟨not_le.1 hlt, hroot⟩

theorem Holds.hash (hflags : FlagsOk keccak ok) (hload : LoadsHash known) {tr : Trie}
    (h : Holds known ok tr t) :
    (tr.hash keccak).1 = rootHash keccak t ∧ Holds known ok (tr.hash keccak).2 t := by
  obtain ⟨href, hcached⟩ := hash_denotes hflags hload h.denotes
  have hnil := h.denotes.isNil_eq
  unfold Trie.hash
  obtain rfl | hcanon := h.canonical
  · rw [hnil]
    exact ⟨rfl, h⟩
  have hne : isNil t = false := by cases hcanon <;> rfl
  have hinner : isInner t = true := by cases hcanon <;> rfl
  rw [hnil, hne, if_neg (by decide)]
  refine ⟨?_, hcached, h.canonical⟩
  dsimp only
  rw [href, refAt_of_inner hinner, toHash, if_neg (by simp)]
  cases hcanon <;> rfl

/-- The trie is the tree `t` over the database: what it has loaded, the hashes it has cached and
what it may still load from the database are right. -/
def Represents (keccak : Bytes → Hash) (db : NodeReader) (tr : Trie) (t : PTree) : Prop :=
  ∃ known ok, known.Le db ∧ FlagsOk keccak ok ∧ LoadsHash known ∧ Holds known ok tr t

end Denotes

end Virbicoin.Mpt
