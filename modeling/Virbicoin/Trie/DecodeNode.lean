import Virbicoin.Rlp.Raw
import Virbicoin.Trie.Hasher

/-!
# Decoding nodes

`decodeNode` of `trie/node.go` parses the encoding of a node. A child is a hash, nothing, or a node
that is embedded because its encoding is short; the embedded node is decoded on the spot.

`load` is the node that the encoding of a tree decodes to (`decodeNode_encoding`): the tree down to
the children that are stored on their own, which remain hashes.
-/

namespace Virbicoin.Mpt

open Virbicoin.Lib Virbicoin.Lib.Patricia List

/-- What went wrong, before the path to the child is added. -/
inductive DecodeFault where
  | unexpectedEOF
  /-- decode error -/
  | list (err : Rlp.Err)
  /-- invalid number of list elements -/
  | elements (n : Nat)
  | rlp (err : Rlp.Err)
  /-- invalid value node -/
  | value (err : Rlp.Err)
  /-- oversized embedded node -/
  | oversized (size : Nat)
  /-- invalid RLP string size -/
  | stringSize (size : Nat)
  | outOfFuel
  deriving DecidableEq, Repr

/-- `decodeError`. An error that was not wrapped has an empty stack. -/
structure DecodeErr where
  what : DecodeFault
  stack : List String
  deriving DecidableEq, Repr

def wrapError (err : DecodeErr) (ctx : String) : DecodeErr :=
  { err with stack := err.stack ++ [ctx] }

/-- `decodeRef`, with the decoder of embedded nodes as a parameter. -/
def decodeRef (decodeNode : Option Hash → Bytes → Except DecodeErr Node) (buf : Bytes) :
    Except DecodeErr (Node × Bytes) :=
  match Rlp.Raw.split buf with
  | .error err => .error ⟨.rlp err, []⟩
  | .ok (kind, val, rest) =>
    if kind = .list then
      let size := buf.length - rest.length
      if size > 32 then .error ⟨.oversized size, []⟩
      else (decodeNode none buf).map fun n => (n, rest)
    else if kind = .string ∧ val.length = 0 then .ok (.nil, rest)
    else if kind = .string ∧ val.length = 32 then
      .ok (.hash (BitVec.ofNat 256 (ofBigEndian val)), rest)
    else .error ⟨.stringSize val.length, []⟩

def decodeShort (decodeRef : Bytes → Except DecodeErr (Node × Bytes)) (hash : Option Hash)
    (elems : Bytes) : Except DecodeErr Node :=
  match Rlp.Raw.splitString elems with
  | .error err => .error ⟨.rlp err, []⟩
  | .ok (kbuf, rest) =>
    let key := compactToHex kbuf
    if hasTerm key then
      match Rlp.Raw.splitString rest with
      | .error err => .error ⟨.value err, []⟩
      | .ok (val, _) => .ok (.short key (.value val) ⟨hash, false⟩)
    else
      match decodeRef rest with
      | .error err => .error (wrapError err "val")
      | .ok (r, _) => .ok (.short key r ⟨hash, false⟩)

def childIndices : List Nibble := (finRange 17).take 16

theorem mem_childIndices : ∀ {i : Nibble}, i ∈ childIndices ↔ i ≠ terminator := by decide

/-- The loop of `decodeFull` over the children. -/
def decodeChildren (decodeRef : Bytes → Except DecodeErr (Node × Bytes)) :
    List Nibble → Bytes → (Nibble → Node) → Except DecodeErr ((Nibble → Node) × Bytes)
  | [], elems, ch => .ok (ch, elems)
  | i :: is, elems, ch =>
    match decodeRef elems with
    | .error err => .error (wrapError err ("[" ++ toString i.val ++ "]"))
    | .ok (cld, rest) => decodeChildren decodeRef is rest (Function.update ch i cld)

def decodeFull (decodeRef : Bytes → Except DecodeErr (Node × Bytes)) (hash : Option Hash)
    (elems : Bytes) : Except DecodeErr Node := do
  let (ch, rest) ← decodeChildren decodeRef childIndices elems fun _ => .nil
  match Rlp.Raw.splitString rest with
  | .error err => .error ⟨.rlp err, []⟩
  | .ok (val, _) =>
    .ok (.full (if val.length > 0 then Function.update ch terminator (.value val) else ch)
      ⟨hash, false⟩)

/-- The result of `CountValues` with its error ignored. -/
def countElems (elems : Bytes) : Nat :=
  match Rlp.Raw.countValues elems with
  | .ok c => c
  | .error _ => 0

/-- `decodeNode` with fuel for the nesting of embedded nodes. -/
def decodeNodeLoop : Nat → Option Hash → Bytes → Except DecodeErr Node
  | 0, _, _ => .error ⟨.outOfFuel, []⟩
  | fuel + 1, hash, buf =>
    if buf.length = 0 then .error ⟨.unexpectedEOF, []⟩
    else
      match Rlp.Raw.splitList buf with
      | .error err => .error ⟨.list err, []⟩
      | .ok (elems, _) =>
        if countElems elems = 2 then
          (decodeShort (decodeRef (decodeNodeLoop fuel)) hash elems).mapError (wrapError · "short")
        else if countElems elems = 17 then
          (decodeFull (decodeRef (decodeNodeLoop fuel)) hash elems).mapError (wrapError · "full")
        else .error ⟨.elements (countElems elems), []⟩

def decodeNode (hash : Option Hash) (buf : Bytes) : Except DecodeErr Node :=
  decodeNodeLoop (buf.length + 1) hash buf

/-! ## Encodings of trees -/

section Load

variable (keccak : Bytes → Hash)

def loadRef : PTree → Node
  | .nil => .nil
  | .value v => .value v
  | .short k t =>
    if (encoding keccak (.short k t)).length < 32 then .short k (loadRef t) ⟨none, false⟩
    else .hash (keccak (encoding keccak (.short k t)))
  | .full ch =>
    if (encoding keccak (.full ch)).length < 32 then .full (fun i => loadRef (ch i)) ⟨none, false⟩
    else .hash (keccak (encoding keccak (.full ch)))

def load (hash : Option Hash) : PTree → Node
  | .nil => .nil
  | .value v => .value v
  | .short k t => .short k (loadRef keccak t) ⟨hash, false⟩
  | .full ch => .full (fun i => loadRef keccak (ch i)) ⟨hash, false⟩

/-- What storing a tree asks for: values are not empty, and encodings fit into memory. -/
structure Storable (t : PTree) : Prop where
  value_ne_nil : ∀ {v}, SubTree (.value v) t → v ≠ []
  length_lt : ∀ {s}, SubTree s t → (encoding keccak s).length < 2 ^ 64

variable {keccak} {t s : PTree}

theorem Storable.sub (h : Storable keccak t) (hs : SubTree s t) : Storable keccak s :=
  ⟨fun hv => h.value_ne_nil (hv.trans hs), fun hr => h.length_lt (hr.trans hs)⟩

theorem loadRef_small (hinner : isInner t = true) (h : (encoding keccak t).length < 32) :
    loadRef keccak t = load keccak none t := by
  cases t with
  | nil | value v => cases hinner
  | short k t | full ch => rw [loadRef, if_pos h, load]

theorem loadRef_large (hinner : isInner t = true) (h : 32 ≤ (encoding keccak t).length) :
    loadRef keccak t = .hash (keccak (encoding keccak t)) := by
  cases t with
  | nil | value v => cases hinner
  | short k t | full ch => rw [loadRef, if_neg (not_lt.2 h)]

theorem toValue_collapse (h : isInner t = true) : ∃ vs, (collapse keccak t).toValue = .list vs := by
  cases t with
  | nil | value v => cases h
  | short k t | full ch => exact ⟨_, rfl⟩

theorem decodeRef_ref {decode : Option Hash → Bytes → Except DecodeErr Node}
    (hcanon : Canonical terminator t) (hlt : (encoding keccak t).length < 2 ^ 64)
    (hdec : isInner t = true → ref keccak t = collapse keccak t → ∀ rest,
      decode none (encoding keccak t ++ rest) = .ok (load keccak none t)) (rest : Bytes) :
    decodeRef decode (Rlp.enc (ref keccak t).toValue ++ rest) = .ok (loadRef keccak t, rest) := by
  obtain rfl | hcanon := hcanon
  · have hsplit := Rlp.Raw.split_enc (.bytes []) (by decide) rest
    rw [ref_leaf rfl, collapse, RawNode.toValue, decodeRef, hsplit]
    simp [Rlp.Raw.kindOf, Rlp.Raw.contentOf, loadRef]
  have hinner : isInner t = true := by cases hcanon <;> rfl
  by_cases hsmall : (encoding keccak t).length < 32
  · have href := ref_small hinner hsmall
    obtain ⟨vs, hvs⟩ := toValue_collapse hinner
    have hpay := Rlp.payload_le (.list vs)
    rw [encoding_eq, hvs] at hlt hsmall
    have hsplit := Rlp.Raw.split_enc (.list vs) (by omega) rest
    have hsize : ¬ (Rlp.enc (.list vs) ++ rest).length - rest.length > 32 := by
      rw [length_append]
      omega
    have hnode := hdec hinner href rest
    rw [encoding_eq, hvs] at hnode
    rw [href, hvs, decodeRef, hsplit]
    dsimp only
    rw [if_neg hsize, hnode, loadRef_small hinner (by rwa [encoding_eq, hvs])]
    rfl
  have hlarge := Nat.not_lt.1 hsmall
  have hlen := hashBytes_length (keccak (encoding keccak t))
  have hsplit := Rlp.Raw.split_enc (.bytes (hashBytes (keccak (encoding keccak t))))
    (by rw [Rlp.payload, hlen]; decide) rest
  rw [ref_large hinner hlarge, RawNode.toValue, decodeRef, hsplit]
  simp [Rlp.Raw.kindOf, Rlp.Raw.contentOf, ofBigEndian_hashBytes, loadRef_large hinner hlarge]

variable {ref : Bytes → Except DecodeErr (Node × Bytes)} {k : List Nibble}

theorem hasTerm_of_isKey (h : IsKey terminator k) :
    hasTerm k = true ∧ compactToHex (hexToCompact k) = k := by
  obtain ⟨p, hp, rfl⟩ := isKey_iff.1 h
  exact ⟨hasTerm_path hp true, compactToHex_hexToCompact hp true⟩

theorem hasTerm_of_not_mem (h : terminator ∉ k) :
    hasTerm k = false ∧ compactToHex (hexToCompact k) = k :=
  ⟨hasTerm_path h false, compactToHex_hexToCompact h false⟩

theorem decodeChildren_encs {val : Nibble → Rlp.Value} {node : Nibble → Node} {is : List Nibble}
    (h : ∀ i ∈ is, ∀ rest, ref (Rlp.enc (val i) ++ rest) = .ok (node i, rest)) (rest : Bytes)
    (ch : Nibble → Node) :
    decodeChildren ref is (Rlp.encs (is.map val) ++ rest) ch =
      .ok (fun i => if i ∈ is then node i else ch i, rest) := by
  induction is generalizing ch with
  | nil => simp [decodeChildren, Rlp.encs]
  | cons i is ih =>
    rw [map_cons, Rlp.encs, append_assoc, decodeChildren, h i (by simp)]
    dsimp only
    rw [ih fun j hj => h j (by simp [hj])]
    congr 2
    funext j
    by_cases hij : j = i
    · subst hij
      simp
    · simp [hij]

theorem decodeNodeLoop_list {vs : List Rlp.Value} (h : (Rlp.enc (.list vs)).length < 2 ^ 64)
    (fuel : Nat) (hash : Option Hash) (rest : Bytes) :
    decodeNodeLoop (fuel + 1) hash (Rlp.enc (.list vs) ++ rest) = if vs.length = 2 then
        (decodeShort (decodeRef (decodeNodeLoop fuel)) hash (Rlp.encs vs)).mapError
          (wrapError · "short")
      else if vs.length = 17 then
        (decodeFull (decodeRef (decodeNodeLoop fuel)) hash (Rlp.encs vs)).mapError
          (wrapError · "full")
      else .error ⟨.elements vs.length, []⟩ := by
  have hpay := Rlp.payload_le (.list vs)
  rw [Rlp.payload] at hpay
  have hne : ¬ (Rlp.enc (.list vs) ++ rest).length = 0 := by simp [Rlp.enc_ne_nil]
  have hcount : countElems (Rlp.encs vs) = vs.length := by
    rw [countElems, Rlp.Raw.countValues,
      Rlp.Raw.countLoop_encs (by omega) (Rlp.Raw.length_le_encs vs)]
  rw [decodeNodeLoop, if_neg hne, Rlp.Raw.splitList_enc (by omega)]
  simp only [hcount]

theorem decodeShort_leaf (hk : IsKey terminator k) {v : Bytes}
    (hklen : (hexToCompact k).length < 2 ^ 64) (hvlen : v.length < 2 ^ 64) (hash : Option Hash) :
    decodeShort ref hash (Rlp.encs [.bytes (hexToCompact k), .bytes v]) =
      .ok (.short k (.value v) ⟨hash, false⟩) := by
  obtain ⟨hterm, hcompact⟩ := hasTerm_of_isKey hk
  rw [decodeShort, Rlp.encs, Rlp.encs, Rlp.Raw.splitString_enc hklen]
  dsimp only
  rw [hcompact, if_pos hterm, Rlp.Raw.splitString_enc hvlen]

theorem decodeShort_ext (hk : terminator ∉ k) {val : Rlp.Value} {n : Node}
    (hklen : (hexToCompact k).length < 2 ^ 64) (href : ref (Rlp.enc val ++ []) = .ok (n, []))
    (hash : Option Hash) :
    decodeShort ref hash (Rlp.encs [.bytes (hexToCompact k), val]) =
      .ok (.short k n ⟨hash, false⟩) := by
  obtain ⟨hterm, hcompact⟩ := hasTerm_of_not_mem hk
  rw [decodeShort, Rlp.encs, Rlp.encs, Rlp.encs, Rlp.Raw.splitString_enc hklen]
  dsimp only
  rw [hcompact, hterm, if_neg (by decide), href]

theorem decodeFull_encs {ch : Nibble → PTree}
    (hvalue : ch terminator = .nil ∨ ∃ v, ch terminator = .value v ∧ v ≠ [] ∧ v.length < 2 ^ 64)
    (href : ∀ i ≠ terminator, ∀ rest, ref (Rlp.enc (Mpt.ref keccak (ch i)).toValue ++ rest) = .ok
      (loadRef keccak (ch i), rest))
    (hash : Option Hash) :
    decodeFull ref hash (Rlp.encs ((finRange 17).map fun i => (Mpt.ref keccak (ch i)).toValue)) =
      .ok (.full (fun i => loadRef keccak (ch i)) ⟨hash, false⟩) := by
  have hindices : finRange 17 = childIndices ++ [terminator] := by decide
  have hch := decodeChildren_encs (fun i hi => href i (mem_childIndices.1 hi))
    (Rlp.enc (Mpt.ref keccak (ch terminator)).toValue ++ []) fun _ => .nil
  rw [hindices, map_append, Rlp.encs_append, map_singleton, Rlp.encs, Rlp.encs, decodeFull, hch]
  simp only [bind, Except.bind]
  obtain hnil | ⟨v, hv, hne, hlen⟩ := hvalue
  · rw [hnil, ref_leaf rfl, collapse, RawNode.toValue, Rlp.Raw.splitString_enc (by decide)]
    simp only [length_nil, gt_iff_lt, Nat.lt_irrefl, if_false]
    congr 2
    funext i
    by_cases hi : i = terminator
    · subst hi
      simp [mem_childIndices, hnil, loadRef]
    · simp [mem_childIndices, hi]
  rw [hv, ref_leaf rfl, collapse, RawNode.toValue, Rlp.Raw.splitString_enc hlen]
  simp only [gt_iff_lt, length_pos_iff.2 hne, if_true]
  congr 2
  funext i
  by_cases hi : i = terminator
  · subst hi
    simp [hv, loadRef]
  · simp [mem_childIndices, hi]

theorem decodeNodeLoop_encoding (hcanon : Canon terminator t) (hst : Storable keccak t) {fuel : Nat}
    (hfuel : (encoding keccak t).length < fuel) (hash : Option Hash) (rest : Bytes) :
    decodeNodeLoop fuel hash (encoding keccak t ++ rest) = .ok (load keccak hash t) := by
  induction t generalizing fuel hash rest with
  | nil | value v => cases hcanon
  | short k t ih =>
    have hne : t ≠ .nil := by cases hcanon <;> simp
    have hlt := hst.length_lt .refl
    obtain ⟨fuel, rfl⟩ : ∃ f, fuel = f + 1 := ⟨fuel - 1, by omega⟩
    rw [encoding_short hne] at hlt hfuel ⊢
    have hlen : ∀ v ∈ [.bytes (hexToCompact k), (ref keccak t).toValue],
        (Rlp.enc v).length < fuel ∧ Rlp.payload v < 2 ^ 64 := by
      intro v hv
      have hlt' := Rlp.enc_length_lt hv
      have hpay := Rlp.payload_le v
      exact ⟨by omega, by omega⟩
    have hklen : (hexToCompact k).length < 2 ^ 64 := (hlen (.bytes (hexToCompact k)) (by simp)).2
    rw [decodeNodeLoop_list hlt]
    cases hcanon with
    | leaf hk =>
      rename_i v
      have hvlen : v.length < 2 ^ 64 := (hlen (.bytes v) (by simp [ref_leaf (t := .value v) rfl,
        collapse, RawNode.toValue])).2
      rw [ref_leaf rfl, collapse, RawNode.toValue, decodeShort_leaf hk hklen hvlen]
      rfl
    | ext hkne hk hfull =>
      rename_i ch
      have hsub : SubTree (.full ch) (.short k (.full ch) : PTree) := .short .refl
      have hsmall' : ref keccak (.full ch) = collapse keccak (.full ch) →
          (encoding keccak (.full ch)).length < fuel := by
        intro hsmall
        rw [encoding_eq, ← hsmall]
        exact (hlen _ (by simp)).1
      have href := decodeRef_ref (.inr hfull) (hst.length_lt hsub) (fun _ hsmall rest =>
        ih hfull (hst.sub hsub) (hsmall' hsmall) none rest) []
      rw [decodeShort_ext hk hklen href]
      rfl
  | full ch ih =>
    have hlt := hst.length_lt .refl
    obtain ⟨fuel, rfl⟩ : ∃ f, fuel = f + 1 := ⟨fuel - 1, by omega⟩
    rw [encoding_full] at hlt hfuel ⊢
    have hlen : ∀ i, (Rlp.enc (ref keccak (ch i)).toValue).length < fuel := by
      intro i
      have hmem : (ref keccak (ch i)).toValue ∈
          (finRange 17).map fun i => (ref keccak (ch i)).toValue :=
        mem_map.2 ⟨i, mem_finRange i, rfl⟩
      have hlt' := Rlp.enc_length_lt hmem
      omega
    have hvalue : ch terminator = .nil ∨
        ∃ v, ch terminator = .value v ∧ v ≠ [] ∧ v.length < 2 ^ 64 := by
      obtain hnil | ⟨v, hv⟩ := value_child hcanon
      · exact .inl hnil
      have hsub : SubTree (.value v) (.full ch) := hv ▸ SubTree.full .refl
      have hvlt := hst.length_lt hsub
      have hpay := Rlp.payload_le (.bytes v)
      rw [encoding_eq, collapse, RawNode.toValue] at hvlt
      rw [Rlp.payload] at hpay
      exact .inr ⟨v, hv, hst.value_ne_nil hsub, by omega⟩
    have href : ∀ i ≠ terminator, ∀ rest, decodeRef (decodeNodeLoop fuel)
        (Rlp.enc (ref keccak (ch i)).toValue ++ rest) = .ok (loadRef keccak (ch i), rest) := by
      intro i hi rest
      have hchild := canonical_child hcanon hi
      have hsub : SubTree (ch i) (.full ch) := .full .refl
      refine decodeRef_ref hchild (hst.length_lt hsub) (fun hinner hsmall rest => ?_) rest
      have hcanon' : Canon terminator (ch i) := by
        refine hchild.resolve_left fun hnil => ?_
        rw [hnil] at hinner
        cases hinner
      refine ih i hcanon' (hst.sub hsub) ?_ none rest
      rw [encoding_eq, ← hsmall]
      exact hlen i
    rw [decodeNodeLoop_list hlt, decodeFull_encs hvalue href]
    rfl

theorem decodeNode_encoding (hcanon : Canon terminator t) (hst : Storable keccak t)
    (hash : Option Hash) : decodeNode hash (encoding keccak t) = .ok (load keccak hash t) := by
  have h := decodeNodeLoop_encoding hcanon hst (Nat.lt_succ_self _) hash []
  rwa [append_nil] at h

end Load

end Virbicoin.Mpt
