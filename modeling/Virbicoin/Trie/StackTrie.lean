import Virbicoin.Trie.Canonical

/-!
# The stack trie

`trie/stacktrie.go`: a trie for keys that arrive in order. A subtree that will not be inserted into
any more is hashed at once, and only what it contributes to its parent is kept: its encoding if that
is shorter than 32 bytes, else its hash.

Slices are values here. A `StackTrie` overwrites the value slices it was given when it hashes a
leaf, so the values passed to it must not share memory, as its callers see to.

`Spine` relates a stack trie to the tree it has hashed so far, along the path of the last key;
inserting follows insertion into the tree (`insert_spine`).
-/

namespace Virbicoin.Mpt

open Virbicoin.Lib Virbicoin.Lib.Patricia Function List

/-! ## Compact paths in place -/

def nibbleByte (a : Nibble) : Byte := BitVec.ofNat 8 a.val

def packLoop (hexLen : Nat) : Nat → Nat → Nat → Bytes → Bytes
  | 0, _, _, hex => hex
  | fuel + 1, bi, ni, hex =>
    if ni < hexLen then
      packLoop hexLen fuel (bi + 1) (ni + 2)
        (hex.set bi (hex.getD ni 0 <<< 4 ||| hex.getD (ni + 1) 0))
    else hex

/-- Places the compact path in the buffer that holds the hex key, and returns the number of bytes it
takes. -/
def hexToCompactInPlace (hex : Bytes) : Nat × Bytes :=
  let term := hex.getLast? = some 16
  let hexLen := if term then hex.length - 1 else hex.length
  let firstByte : Byte := if term then 1 <<< 5 else 0
  let odd := hexLen % 2 = 1
  let firstByte := if odd then firstByte ||| 1 <<< 4 ||| hex.getD 0 0 else firstByte
  let hex := packLoop hexLen hexLen 1 (if odd then 1 else 0) hex
  (hexLen / 2 + 1, hex.set 0 firstByte)

/-! ## Nodes -/

/-- A node of a stack trie. `keyOffset` is the position in the full key at which its part of the key
begins. -/
inductive StackTrie where
  /-- No node: a nil pointer. -/
  | absent
  | empty (keyOffset : Nat)
  | branch (keyOffset : Nat) (children : Nibble → StackTrie)
  | ext (keyOffset : Nat) (key : List Nibble) (child : StackTrie)
  | leaf (keyOffset : Nat) (key : List Nibble) (val : Bytes)
  | hashed (val : Bytes)

namespace StackTrie

def isAbsent : StackTrie → Bool
  | .absent => true
  | _ => false

section

variable (keccak : Bytes → Hash)

/-- What is kept of an encoding: the encoding itself below 32 bytes, else its hash. -/
def shrink (enc : Bytes) : Bytes := if enc.length < 32 then enc else hashBytes (keccak enc)

/-- The reference to a closed child: `rawNode` or `hashNode`. -/
def childItem (val : Bytes) : Rlp.Item := if val.length < 32 then .raw val else .bytes val

/-- The value a node has once it is hashed (`hash`). -/
def hashVal : StackTrie → Bytes
  | .absent => []
  | .empty _ => hashBytes emptyRoot
  | .branch _ ch =>
    shrink keccak (Rlp.encodeItems ((finRange 17).map fun i =>
      if i ≠ terminator ∧ (ch i).isAbsent = false then childItem (hashVal (ch i)) else .bytes []))
  | .ext _ key child =>
    shrink keccak (Rlp.encodeItems [.bytes (hexToCompact key), childItem (hashVal child)])
  | .leaf _ key val =>
    let (sz, buf) := hexToCompactInPlace ((key ++ [terminator]).map nibbleByte)
    shrink keccak (Rlp.encodeItems [.bytes (buf.take sz), .bytes val])
  | .hashed val => val

/-- `Hash`: a root that was not hashed for being short is hashed now. -/
def hash (st : StackTrie) : Hash :=
  let val := hashVal keccak st
  if val.length ≠ 32 then keccak val else BitVec.ofNat 256 (ofBigEndian val)

/-! ## Inserting -/

/-- The first position at which the part `k` of a node differs from the rest of the key. The index
of the key is not checked. -/
def getDiffIndex : List Nibble → List Nibble → Except Err Nat
  | [], _ => .ok 0
  | _ :: _, [] => .error .panic
  | a :: k, b :: key => if a = b then (· + 1) <$> getDiffIndex k key else .ok 0

def elder (ch : Nibble → StackTrie) : Nat → Option Nibble
  | 0 => none
  | i + 1 => if (ch (Fin.ofNat 17 i)).isAbsent then elder ch i else some (Fin.ofNat 17 i)

def closeElder (ch : Nibble → StackTrie) (idx : Nibble) : Nibble → StackTrie :=
  match elder ch idx.val with
  | some i => update ch i (.hashed (hashVal keccak (ch i)))
  | none => ch

/-- A branch at `keyOffset` with the closed child `val` and a new leaf for the rest of the key. -/
def newBranch (keyOffset : Nat) (origIdx : Nibble) (val : Bytes) (key : List Nibble)
    (value : Bytes) : Except Err StackTrie :=
  match key[keyOffset]? with
  | none => .error .panic
  | some newIdx =>
    if origIdx = terminator ∨ newIdx = terminator then .error .panic
    else .ok (.branch keyOffset
      (update (update (fun _ => .absent) origIdx (.hashed val)) newIdx
        (.leaf (keyOffset + 1) (key.drop (keyOffset + 1)) value)))

/-- The node `k` at `keyOffset` split at `diffidx`: the rest below it is closed with the value
`val`. A common part becomes an extension in front of the branch. -/
def split (keyOffset diffidx : Nat) (k : List Nibble) (val : Bytes) (key : List Nibble)
    (value : Bytes) : Except Err StackTrie := do
  match k[diffidx]? with
  | none => .error .panic
  | some origIdx =>
    let branch ← newBranch (keyOffset + diffidx) origIdx val key value
    if diffidx = 0 then .ok branch else .ok (.ext keyOffset (k.take diffidx) branch)

def insert : StackTrie → List Nibble → Bytes → Except Err StackTrie
  | .absent, _, _ => .error .panic
  | .empty keyOffset, key, value => .ok (.leaf keyOffset (key.drop keyOffset) value)
  | .branch keyOffset ch, key, value => do
    match key[keyOffset]? with
    | none => .error .panic
    | some idx =>
      if idx = terminator then .error .panic
      else
        -- a new child is an empty node first
        let child ← if (ch idx).isAbsent then
            .ok (.leaf (keyOffset + 1) (key.drop (keyOffset + 1)) value)
          else insert (ch idx) key value
        .ok (.branch keyOffset (update (closeElder keccak ch idx) idx child))
  | .ext keyOffset k child, key, value => do
    let diffidx ← getDiffIndex k (key.drop keyOffset)
    if diffidx = k.length then
      let child ← insert child key value
      .ok (.ext keyOffset k child)
    else
      let n := if diffidx < k.length - 1 then .ext (diffidx + 1) (k.drop (diffidx + 1)) child
        else child
      split keyOffset diffidx k (hashVal keccak n) key value
  | .leaf keyOffset k val, key, value => do
    let diffidx ← getDiffIndex k (key.drop keyOffset)
    if diffidx ≥ k.length then .error .panic
    else
      let n := .leaf (diffidx + 1) (k.drop (diffidx + 1)) val
      split keyOffset diffidx k (hashVal keccak n) key value
  | .hashed _, _, _ => .error .panic

def tryUpdate (st : StackTrie) (kv : Bytes × Bytes) : Except Err StackTrie :=
  if kv.2.length = 0 then .error .panic else insert keccak st (keybytesToHex kv.1).dropLast kv.2

end

/-! ## Closed nodes -/

theorem take_packLoop (r : List Nibble) (fuel bi ni : Nat) {hexLen : Nat} {hex tail : Bytes}
    (heven : r.length % 2 = 0) (hr : hex.drop ni = r.map nibbleByte ++ tail)
    (hlen : hexLen = ni + r.length) (hbi : bi ≤ ni + 1) (hbound : bi ≤ hex.length)
    (hfuel : r.length ≤ fuel) :
    (packLoop hexLen fuel bi ni hex).take (bi + r.length / 2) = hex.take bi ++ decodeNibbles r := by
  fun_induction decodeNibbles r generalizing fuel bi ni hex with
  | case1 a b rest ih =>
    obtain ⟨fuel, rfl⟩ : ∃ f, fuel = f + 1 := ⟨fuel - 1, by simp at hfuel; omega⟩
    simp only [length_cons] at heven hlen hfuel
    have hlength : (hex.drop ni).length = rest.length + 2 + tail.length := by
      rw [hr]
      simp
      omega
    rw [length_drop] at hlength
    have hlt : bi < hex.length := by omega
    have ha : hex.getD ni 0 = nibbleByte a := by
      have := congrArg (·[0]?) hr
      simp only [getElem?_drop, add_zero] at this
      simp [getD_eq_getElem?_getD, this]
    have hb : hex.getD (ni + 1) 0 = nibbleByte b := by
      have := congrArg (·[1]?) hr
      simp only [getElem?_drop] at this
      simp [getD_eq_getElem?_getD, this]
    have hdrop : (hex.set bi (packNibbles a b)).drop (ni + 2) = rest.map nibbleByte ++ tail := by
      rw [drop_set_of_lt (by omega), ← drop_drop, hr]
      rfl
    have htake : (hex.set bi (packNibbles a b)).take (bi + 1) =
        hex.take bi ++ [packNibbles a b] := by
      rw [take_add_one, take_set_of_le (le_refl _)]
      simp [hlt]
    have hstep : packLoop hexLen (fuel + 1) bi ni hex =
        packLoop hexLen fuel (bi + 1) (ni + 2) (hex.set bi (packNibbles a b)) := by
      rw [packLoop, if_pos (by omega), ha, hb]
      rfl
    have hhalf : bi + (rest.length + 1 + 1) / 2 = bi + 1 + rest.length / 2 := by omega
    rw [hstep, length_cons, length_cons, hhalf,
      ih _ _ _ (by omega) hdrop (by omega) (by omega) (by rw [length_set]; omega) (by omega),
      htake, append_assoc]
    rfl
  | case2 r hr' =>
    obtain _ | ⟨a, _ | ⟨b, rest⟩⟩ := r
    · have hnot : ¬ ni < hexLen := by simp at hlen; omega
      cases fuel with
      | zero => simp [packLoop]
      | succ fuel => simp [packLoop, hnot]
    · simp at heven
    · exact absurd rfl (hr' a b rest)

theorem hexToCompactInPlace_eq {p : List Nibble} (ht : terminator ∉ p) {term : Bool}
    (hne : path p term ≠ []) :
    (hexToCompactInPlace ((path p term).map nibbleByte)).2.take
      (hexToCompactInPlace ((path p term).map nibbleByte)).1 = hexToCompact (path p term) := by
  have hlast : ((path p term).map nibbleByte).getLast? = some 16 ↔ term = true := by
    have h16 : ∀ a, nibbleByte a = 16 → a = terminator := by decide
    conv_rhs => rw [← hasTerm_path ht term, hasTerm, beq_iff_eq]
    rw [getLast?_map, Option.map_eq_some_iff]
    refine ⟨?_, fun h => ⟨_, h, rfl⟩⟩
    rintro ⟨a, ha, hbyte⟩
    rwa [h16 a hbyte] at ha
  have hlen : (if term = true then ((path p term).map nibbleByte).length - 1
      else ((path p term).map nibbleByte).length) = p.length := by
    cases term <;> simp [path]
  obtain ⟨tail, hhex⟩ : ∃ tail, (path p term).map nibbleByte = p.map nibbleByte ++ tail := by
    cases term with
    | true => exact ⟨_, map_append⟩
    | false => exact ⟨[], (append_nil _).symm⟩
  have hset : ∀ (l : Bytes) (n : Nat) (x y : Byte) (r : Bytes), l.take (n + 1) = y :: r →
      (l.set 0 x).take (n + 1) = x :: r := by
    intro l n x y r h
    cases l with
    | nil => cases h
    | cons z l => rw [set_cons_zero, take_succ_cons, (cons.inj h).2]
  unfold hexToCompactInPlace
  simp only [hlast, hlen]
  obtain ⟨y, rest, hcons⟩ := exists_cons_of_ne_nil (fun h => hne (map_eq_nil_iff.1 h))
  rw [hcons] at hhex ⊢
  obtain heven | hodd := Nat.mod_two_eq_zero_or_one p.length
  · have hnot : ¬ p.length % 2 = 1 := by omega
    rw [hexToCompact_even ht heven, if_neg hnot, if_neg hnot]
    have htake := take_packLoop p p.length 1 0 heven hhex (zero_add _).symm (by omega) (by simp)
      (le_refl _)
    rw [add_comm] at htake
    refine (hset _ _ _ _ _ htake).trans ?_
    cases term <;> rfl
  cases p with
  | nil => simp at hodd
  | cons x p =>
    have heven : p.length % 2 = 0 := by
      simp only [length_cons] at hodd
      omega
    have hhalf : (x :: p).length / 2 = p.length / 2 := by
      simp only [length_cons]
      omega
    obtain ⟨rfl, hrest⟩ := cons.inj hhex
    rw [hexToCompact_odd ht heven, if_pos hodd, if_pos hodd]
    have hdigits : (nibbleByte x :: rest).drop 1 = p.map nibbleByte ++ tail := hrest
    have htake := take_packLoop p (x :: p).length 1 1 heven hdigits (add_comm _ _) (by omega)
      (by simp) (Nat.le_succ _)
    rw [add_comm] at htake
    rw [hhalf]
    refine (hset _ _ _ _ _ htake).trans ?_
    cases term <;> rfl

/-- **The key encodings can be undone**, and in place the compact encoding is the same. -/
theorem encodings_round_trip (p : List Nibble) (ht : terminator ∉ p) (term : Bool) (str : Bytes) :
    compactToHex (hexToCompact (path p term)) = path p term ∧
      (path p term ≠ [] → (hexToCompactInPlace ((path p term).map nibbleByte)).2.take
        (hexToCompactInPlace ((path p term).map nibbleByte)).1 = hexToCompact (path p term)) ∧
      hexToKeybytes (keybytesToHex str) = some str :=
  ⟨compactToHex_hexToCompact ht term, hexToCompactInPlace_eq ht, hexToKeybytes_keybytesToHex str⟩

theorem encodings_round_trip_odd : compactToHex (hexToCompact [10, 16]) = [10, 16] :=
  (encodings_round_trip [10] (by decide) true []).1

section Closed

variable {keccak : Bytes → Hash}

def refVal (keccak : Bytes → Hash) (t : PTree) : Bytes := shrink keccak (encoding keccak t)

theorem enc_childItem {t : PTree} (h : isInner t = true) :
    (childItem (refVal keccak t)).enc = Rlp.enc (ref keccak t).toValue := by
  unfold refVal shrink childItem
  by_cases hlt : (encoding keccak t).length < 32
  · rw [if_pos hlt, if_pos hlt, ref_small h hlt, ← encoding_eq]
    rfl
  · rw [if_neg hlt, ref_large h (not_lt.1 hlt)]
    rfl

theorem encodeItems_eq_enc {items : List Rlp.Item} {vs : List Rlp.Value}
    (h : items.map Rlp.Item.enc = vs.map Rlp.enc) : Rlp.encodeItems items = Rlp.enc (.list vs) := by
  have hflat : items.flatMap Rlp.Item.enc = Rlp.encs vs := by
    rw [Rlp.encs_eq_flatMap, flatMap_def, flatMap_def, h]
  rw [Rlp.encodeItems_eq, Rlp.enc, hflat]

theorem hashVal_leaf {k : List Nibble} (ht : terminator ∉ k) (ko : Nat) (v : Bytes) :
    hashVal keccak (.leaf ko k v) = refVal keccak (.short (k ++ [terminator]) (.value v)) := by
  have hne : (.value v : PTree) ≠ .nil := nofun
  rw [hashVal, refVal, encoding_short hne]
  dsimp only
  have hkey : path k true ≠ [] := by simp [path]
  have hpath := hexToCompactInPlace_eq ht hkey
  simp only [path, if_true] at hpath
  rw [hpath, encodeItems_eq_enc]
  rfl

theorem hashVal_ext {child : StackTrie} {t : PTree} (hinner : isInner t = true)
    (h : hashVal keccak child = refVal keccak t) (ko : Nat) (k : List Nibble) :
    hashVal keccak (.ext ko k child) = refVal keccak (.short k t) := by
  have hne : t ≠ .nil := by
    rintro rfl
    cases hinner
  rw [hashVal, refVal, encoding_short hne, encodeItems_eq_enc]
  rw [map_cons, map_cons, h, enc_childItem hinner]
  rfl

/-- A child of a branch is missing, or has the value of the tree in its place. -/
def Done (keccak : Bytes → Hash) (st : StackTrie) (t : PTree) : Prop :=
  st.isAbsent = true ∧ t = .nil ∨
    st.isAbsent = false ∧ isInner t = true ∧ hashVal keccak st = refVal keccak t

theorem hashVal_branch {ch : Nibble → StackTrie} {tch : Nibble → PTree}
    (h : ∀ i, Done keccak (ch i) (tch i)) (hterm : (ch terminator).isAbsent = true) (ko : Nat) :
    hashVal keccak (.branch ko ch) = refVal keccak (.full tch) := by
  rw [hashVal, refVal, encoding_full, encodeItems_eq_enc]
  rw [map_map, map_map]
  refine map_congr_left fun i _ => ?_
  obtain ⟨habs, hnil⟩ | ⟨hpres, hinner, hval⟩ := h i
  · simp only [comp_apply, habs, hnil, ref_leaf (t := .nil) rfl, Bool.true_eq_false,
      and_false, if_false]
    rfl
  have hne : i ≠ terminator := by
    rintro rfl
    rw [hterm] at hpres
    cases hpres
  simp only [comp_apply, hne, hpres, ne_eq, not_false_eq_true, and_self, if_true, hval,
    enc_childItem hinner]

end Closed

/-! ## The open path -/

section Spine

variable {keccak : Bytes → Hash}

/-- The stack trie has been fed the entries of the tree, and `l` is what is left of the last key at
this node. Left of the path of the last key everything has its value, right of it there is
nothing. -/
inductive Spine (keccak : Bytes → Hash) : Nat → StackTrie → PTree → List Nibble → Prop where
  | leaf {ko : Nat} {k : List Nibble} {v : Bytes} (ht : terminator ∉ k) :
      Spine keccak ko (.leaf ko k v) (.short (k ++ [terminator]) (.value v)) k
  | ext {ko : Nat} {k l : List Nibble} {child : StackTrie} {t : PTree}
      (h : Spine keccak (ko + k.length) child t l) :
      Spine keccak ko (.ext ko k child) (.short k t) (k ++ l)
  | branch {ko : Nat} {a : Nibble} {l : List Nibble} {ch : Nibble → StackTrie}
      {tch : Nibble → PTree} (ha : a ≠ terminator) (hlast : Spine keccak (ko + 1) (ch a) (tch a) l)
      (hleft : ∀ i < a, Done keccak (ch i) (tch i))
      (hright : ∀ i, a < i → (ch i).isAbsent = true ∧ tch i = .nil) :
      Spine keccak ko (.branch ko ch) (.full tch) (a :: l)

theorem lt_terminator {a : Nibble} (h : a ≠ terminator) : a < terminator :=
  val_lt_of_ne_terminator h

variable {ch : Nibble → StackTrie} {l : List Nibble} {t : PTree}

theorem hashVal_spine {ko : Nat} {st : StackTrie} (h : Spine keccak ko st t l) :
    st.isAbsent = false ∧ isInner t = true ∧ hashVal keccak st = refVal keccak t := by
  induction h with
  | leaf ht => exact ⟨rfl, rfl, hashVal_leaf ht _ _⟩
  | ext h ih => exact ⟨rfl, rfl, hashVal_ext ih.2.1 ih.2.2 _ _⟩
  | branch ha hlast hleft hright ih =>
    rename_i ko a l ch tch
    refine ⟨rfl, rfl, hashVal_branch (fun i => ?_) (hright _ (lt_terminator ha)).1 _⟩
    obtain hlt | rfl | hgt := lt_trichotomy i a
    · exact hleft i hlt
    · exact .inr ih
    · exact .inl (hright i hgt)

theorem isAbsent_of_elder {n : Nat} {i : Nibble} (h : elder ch n = some i) :
    (ch i).isAbsent = false := by
  induction n with
  | zero => cases h
  | succ n ih =>
    rw [elder] at h
    split at h
    · exact ih h
    rename_i hpres
    cases h
    exact eq_false_of_ne_true hpres

theorem Done.closeElder {i : Nibble} (h : Done keccak (ch i) t) (idx : Nibble) :
    Done keccak (closeElder keccak ch idx i) t := by
  unfold StackTrie.closeElder
  cases hj : elder ch idx.val with
  | none => exact h
  | some j =>
    dsimp only
    by_cases hij : i = j
    · subst hij
      rw [update_self]
      obtain ⟨habs, -⟩ | ⟨-, hinner, hval⟩ := h
      · rw [isAbsent_of_elder hj] at habs
        cases habs
      · exact .inr ⟨rfl, hinner, hval⟩
    · rwa [update_of_ne hij]

theorem closeElder_right {i : Nibble} (h : (ch i).isAbsent = true ∧ t = .nil) (idx : Nibble) :
    (StackTrie.closeElder keccak ch idx i).isAbsent = true ∧ t = .nil := by
  have hdone : Done keccak (ch i) t := .inl h
  obtain habs | ⟨-, hinner, -⟩ := hdone.closeElder idx
  · exact habs
  rw [h.2] at hinner
  cases hinner

/-- The key `k` parts from `l` to the right. -/
def Diverge (l k : List Nibble) : Prop :=
  ∃ q a b r r', l = q ++ a :: r ∧ k = q ++ b :: r' ∧ a < b

theorem Diverge.cons {a b : Nibble} {k : List Nibble} (h : Diverge (a :: l) (b :: k)) :
    a < b ∨ a = b ∧ Diverge l k := by
  obtain ⟨q, c, d, r, r', hl, hk, hlt⟩ := h
  cases q with
  | nil =>
    obtain ⟨rfl, -⟩ := cons.inj hl
    obtain ⟨rfl, -⟩ := cons.inj hk
    exact .inl hlt
  | cons e q =>
    obtain ⟨rfl, rfl⟩ := cons.inj hl
    obtain ⟨rfl, rfl⟩ := cons.inj hk
    exact .inr ⟨rfl, q, c, d, r, r', rfl, rfl, hlt⟩

theorem Diverge.append {p k : List Nibble} (h : Diverge (p ++ l) k) :
    Diverge p k ∨ ∃ k', k = p ++ k' ∧ Diverge l k' := by
  induction p generalizing k with
  | nil => exact .inr ⟨k, rfl, h⟩
  | cons a p ih =>
    cases k with
    | nil =>
      obtain ⟨q, _, _, _, _, -, hk, -⟩ := h
      cases q <;> cases hk
    | cons b k =>
      obtain hlt | ⟨rfl, hrest⟩ := h.cons
      · exact .inl ⟨[], a, b, p, k, rfl, rfl, hlt⟩
      obtain ⟨q, c, d, r, r', rfl, rfl, hlt⟩ | ⟨k', rfl, hafter⟩ := ih hrest
      · exact .inl ⟨a :: q, c, d, r, r', rfl, rfl, hlt⟩
      · exact .inr ⟨k', rfl, hafter⟩

theorem getDiffIndex_append (p k : List Nibble) : getDiffIndex p (p ++ k) = .ok p.length := by
  induction p with
  | nil => rfl
  | cons a p ih => simp [getDiffIndex, ih]

theorem getDiffIndex_of_ne {a b : Nibble} (h : a ≠ b) (q r r' : List Nibble) :
    getDiffIndex (q ++ a :: r) (q ++ b :: r') = .ok q.length := by
  induction q with
  | nil => simp [getDiffIndex, h]
  | cons c q ih => simp [getDiffIndex, ih]

theorem split_spine (keccak : Bytes → Hash) {ko : Nat} {key q r' : List Nibble} {a b : Nibble}
    (hab : a < b) (hkey : key.drop ko = q ++ b :: r') (ht : terminator ∉ q ++ b :: r')
    (hinner : isInner t = true) (r : List Nibble) (v : Bytes) :
    ∃ st, split ko q.length (q ++ a :: r) (refVal keccak t) key v = .ok st ∧
      Spine keccak ko st (graft q (.full (update (update (fun _ => .nil) a t)
        b (.short (r' ++ [terminator]) (.value v))))) (q ++ b :: r') := by
  have hb : b ≠ terminator := by
    rintro rfl
    simp at ht
  have hr' : terminator ∉ r' := by
    intro hmem
    exact ht (by simp [hmem])
  have ha : a ≠ terminator := by
    rintro rfl
    exact absurd (hab.trans (lt_terminator hb)) (lt_irrefl _)
  have hidx : key[ko + q.length]? = some b := by
    rw [← getElem?_drop, hkey]
    simp
  have hdrop : key.drop (ko + q.length + 1) = r' := by
    rw [Nat.add_assoc, ← drop_drop, hkey]
    simp
  have hbranch : Spine keccak (ko + q.length) (.branch (ko + q.length)
      (update (update (fun _ => .absent) a (.hashed (refVal keccak t))) b
        (.leaf (ko + q.length + 1) r' v)))
      (.full (update (update (fun _ => .nil) a t)
        b (.short (r' ++ [terminator]) (.value v)))) (b :: r') := by
    refine .branch hb ?_ (fun i hi => ?_) (fun i hi => ?_)
    · rw [update_self, update_self]
      exact .leaf hr'
    · rw [update_of_ne hi.ne, update_of_ne hi.ne]
      by_cases hia : i = a
      · subst hia
        rw [update_self, update_self]
        exact .inr ⟨rfl, hinner, rfl⟩
      rw [update_of_ne hia, update_of_ne hia]
      exact .inl ⟨rfl, rfl⟩
    rw [update_of_ne hi.ne', update_of_ne hi.ne',
      update_of_ne (hab.trans hi).ne', update_of_ne (hab.trans hi).ne']
    exact ⟨rfl, rfl⟩
  have horig : (q ++ a :: r)[q.length]? = some a := by simp
  cases q with
  | nil =>
    refine ⟨_, ?_, hbranch⟩
    simp only [split, horig, newBranch, hidx, ha, hb, or_self, if_false, hdrop]
    rfl
  | cons c q =>
    refine ⟨_, ?_, .ext hbranch⟩
    simp only [split, horig, newBranch, hidx, ha, hb, or_self, if_false, hdrop]
    simp [bind, Except.bind]

/-- **Inserting a key to the right of the last one follows insertion into the tree.** -/
theorem insert_spine {ko : Nat} {st : StackTrie} {k key : List Nibble} (h : Spine keccak ko st t l)
    (hkey : key.drop ko = k) (hdiv : Diverge l k) (ht : terminator ∉ k) (v : Bytes) :
    ∃ st', insert keccak st key v = .ok st' ∧
      Spine keccak ko st' (Patricia.insert t (k ++ [terminator]) v) k := by
  induction h generalizing k with
  | leaf hterm =>
    rename_i ko l w
    obtain ⟨q, a, b, r, r', rfl, rfl, hab⟩ := hdiv
    have hr : terminator ∉ r := fun hmem => hterm (by simp [hmem])
    obtain ⟨st', hsplit, hspine⟩ := split_spine keccak
      (t := .short (r ++ [terminator]) (.value w)) hab hkey ht rfl r v
    refine ⟨st', ?_, ?_⟩
    · simp only [insert, hkey, getDiffIndex_of_ne hab.ne]
      rw [← hsplit, ← hashVal_leaf hr (q.length + 1)]
      simp [bind, Except.bind]
    have hfork := insert_short_fork hab.ne q (r ++ [terminator]) (r' ++ [terminator]) (.value w) v
    simp only [append_assoc, cons_append]
    rw [hfork]
    cases r <;> cases r' <;> exact hspine
  | ext hchild ih =>
    rename_i ko p l child t
    obtain ⟨q, a, b, r, r', rfl, rfl, hab⟩ | ⟨k', rfl, hafter⟩ := hdiv.append
    · -- The key parts from the extension: what is below the fork is closed.
      obtain ⟨-, hinner, hval⟩ := hashVal_spine hchild
      have hinner' : isInner (graft r t) = true := by
        cases r with
        | nil => exact hinner
        | cons c r => rfl
      have hval' : hashVal keccak (if q.length < (q ++ a :: r).length - 1 then
          .ext (q.length + 1) ((q ++ a :: r).drop (q.length + 1)) child else child) =
          refVal keccak (graft r t) := by
        cases r with
        | nil =>
          rw [if_neg (by simp)]
          exact hval
        | cons c r =>
          rw [graft, ← hashVal_ext hinner hval (q.length + 1)]
          simp
      obtain ⟨st', hsplit, hspine⟩ := split_spine keccak hab hkey ht hinner' r v
      refine ⟨st', ?_, ?_⟩
      · simp only [insert, hkey, getDiffIndex_of_ne hab.ne]
        rw [← hsplit, ← hval']
        simp [bind, Except.bind]
      have hfork := insert_short_fork hab.ne q r (r' ++ [terminator]) t v
      simp only [append_assoc, cons_append]
      rw [hfork]
      cases r' <;> exact hspine
    have hdrop : key.drop (ko + p.length) = k' := by rw [← drop_drop, hkey, drop_left]
    obtain ⟨child', hins, hspine⟩ := ih hdrop hafter fun hmem => ht (by simp [hmem])
    refine ⟨.ext ko p child', ?_, ?_⟩
    · simp only [insert, hkey, getDiffIndex_append, hins]
      simp [bind, Except.bind]
    · rw [append_assoc, Patricia.insert_short (by simp), if_pos (prefix_append _ _), drop_left]
      exact .ext hspine
  | branch ha hlast hleft hright ih =>
    rename_i ko a l ch tch
    obtain ⟨q, c, b0, r, r', hl, rfl, hcb⟩ := id hdiv
    obtain ⟨b, k, hk⟩ : ∃ b k, q ++ b0 :: r' = b :: k := by cases q <;> exact ⟨_, _, rfl⟩
    rw [hk] at hdiv ht hkey ⊢
    have hb : b ≠ terminator := by
      rintro rfl
      simp at ht
    have hkt : terminator ∉ k := fun hmem => ht (by simp [hmem])
    have hidx : key[ko]? = some b := by
      have := congrArg (·[0]?) hkey
      simpa using this
    have hdrop : key.drop (ko + 1) = k := by
      rw [← drop_drop, hkey]
      rfl
    obtain ⟨habsent, hinner, hval⟩ := hashVal_spine hlast
    obtain hab | ⟨rfl, hafter⟩ := hdiv.cons
    · -- A new child, right of the last one.
      obtain ⟨hnew, htnew⟩ := hright b hab
      refine ⟨_, by simp only [insert, hidx, hb, if_false, hnew, if_true]; rfl, ?_⟩
      refine .branch hb ?_ (fun i hi => ?_) (fun i hi => ?_)
      · rw [update_self, update_self, htnew, Patricia.insert_nil (by simp), hdrop]
        exact .leaf hkt
      · rw [update_of_ne hi.ne, update_of_ne hi.ne]
        apply Done.closeElder
        obtain hlt | rfl | hgt := lt_trichotomy i a
        · exact hleft i hlt
        · exact .inr ⟨habsent, hinner, hval⟩
        · exact .inl (hright i hgt)
      rw [update_of_ne hi.ne', update_of_ne hi.ne']
      exact closeElder_right (hright i (hab.trans hi)) _
    obtain ⟨child', hins, hspine⟩ := ih hdrop hafter hkt
    refine ⟨_, by simp only [insert, hidx, hb, if_false, habsent, hins]; rfl, ?_⟩
    refine .branch hb ?_ (fun i hi => ?_) (fun i hi => ?_)
    · rw [update_self, update_self]
      exact hspine
    · rw [update_of_ne hi.ne, update_of_ne hi.ne]
      exact (hleft i hi).closeElder _
    · rw [update_of_ne hi.ne', update_of_ne hi.ne']
      exact closeElder_right (hright i hi) _

end Spine

/-! ## Keys in order -/

theorem diverge_nibbles {l k : Bytes} (hlt : l < k) (hpre : ¬ l <+: k) :
    Diverge (nibbles l) (nibbles k) := by
  induction l generalizing k with
  | nil => exact absurd nil_prefix hpre
  | cons x l ih =>
    cases k with
    | nil => simp at hlt
    | cons y k =>
      obtain hxy | ⟨rfl, hrest⟩ := cons_lt_cons_iff.1 hlt
      · have hxy : x.toNat < y.toNat := hxy
        by_cases hhi : x.toNat / 16 = y.toNat / 16
        · refine ⟨[hiNibble x], loNibble x, loNibble y, nibbles l, nibbles k, rfl, ?_, ?_⟩
          · simp [nibbles, hiNibble, hhi]
          simp only [loNibble, Fin.mk_lt_mk]
          omega
        refine ⟨[], hiNibble x, hiNibble y, loNibble x :: nibbles l, loNibble y :: nibbles k, rfl,
          rfl, ?_⟩
        simp only [hiNibble, Fin.mk_lt_mk]
        omega
      obtain ⟨q, a, b, r, r', hl, hk, hab⟩ := ih hrest fun h => hpre (by simpa using h)
      refine ⟨hiNibble x :: loNibble x :: q, a, b, r, r', ?_, ?_, hab⟩
      · simp [nibbles, hl]
      · simp [nibbles, hk]

section Run

variable {keccak : Bytes → Hash}

theorem tryUpdate_eq {kv : Bytes × Bytes} (hv : kv.2 ≠ []) (st : StackTrie) :
    tryUpdate keccak st kv = insert keccak st (nibbles kv.1) kv.2 := by
  rw [tryUpdate, if_neg (by simpa using hv), keybytesToHex, dropLast_concat]

theorem write_of_ne_nil {kv : Bytes × Bytes} (hv : kv.2 ≠ []) (t : PTree) :
    Mpt.write t kv.1 kv.2 = Patricia.insert t (nibbles kv.1 ++ [terminator]) kv.2 := by
  rw [write, if_pos (by simpa using hv)]
  rfl

noncomputable def writeAll (t : PTree) (kvs : List (Bytes × Bytes)) : PTree :=
  kvs.foldl (fun t kv => Mpt.write t kv.1 kv.2) t

theorem run_spine {st : StackTrie} {t : PTree} {l : Bytes} {kvs : List (Bytes × Bytes)}
    (h : Spine keccak 0 st t (nibbles l))
    (hkeys : (l :: kvs.map Prod.fst).Pairwise fun k k' => k < k' ∧ ¬ k <+: k')
    (hvals : ∀ kv ∈ kvs, kv.2 ≠ []) :
    ∃ st' l', run (tryUpdate keccak) st kvs = .ok st' ∧ Spine keccak 0 st' (writeAll t kvs) l' := by
  induction kvs generalizing st t l with
  | nil => exact ⟨st, _, rfl, h⟩
  | cons kv kvs ih =>
    obtain ⟨hfirst, hrest⟩ := pairwise_cons.1 hkeys
    obtain ⟨hlt, hpre⟩ := hfirst kv.1 (by simp)
    have hv : kv.2 ≠ [] := hvals kv (by simp)
    have hdrop : (nibbles kv.1).drop 0 = nibbles kv.1 := drop_zero
    obtain ⟨st1, hins, h1⟩ := insert_spine h hdrop
      (diverge_nibbles hlt hpre) (terminator_not_mem_nibbles kv.1) kv.2
    rw [← write_of_ne_nil hv] at h1
    obtain ⟨st', l', hrun, h'⟩ := ih h1 hrest fun kv' hkv' => hvals kv' (by simp [hkv'])
    exact ⟨st', l', run_cons_ok.2 ⟨st1, (tryUpdate_eq hv st).trans hins, hrun⟩, h'⟩

theorem hash_spine {st : StackTrie} {t : PTree} {l : List Nibble} (h : Spine keccak 0 st t l) :
    hash keccak st = rootHash keccak t := by
  obtain ⟨-, hinner, hval⟩ := hashVal_spine h
  have hroot : rootHash keccak t = keccak (encoding keccak t) := by
    cases t <;> first | rfl | cases hinner
  rw [hroot, hash, hval, refVal, shrink]
  by_cases hlt : (encoding keccak t).length < 32
  · rw [if_pos hlt, if_pos (by omega)]
  · rw [if_neg hlt, if_neg (by simp), ofBigEndian_hashBytes]

theorem foldl_update (t : PTree) (kvs : List (Bytes × Bytes)) :
    (kvs.map fun kv => Op.update kv.1 kv.2).foldl Op.write t = writeAll t kvs := by
  rw [foldl_map]
  rfl

theorem run_hash (db : NodeReader) {kvs : List (Bytes × Bytes)}
    (hkeys : (kvs.map Prod.fst).Pairwise fun k k' => k < k' ∧ ¬ k <+: k')
    (hvals : ∀ kv ∈ kvs, kv.2 ≠ []) :
    ∃ st tr, run (tryUpdate keccak) (.empty 0) kvs = .ok st ∧
      run (Op.step db) .empty (kvs.map fun kv => .update kv.1 kv.2) = .ok tr ∧
      hash keccak st = (tr.hash keccak).1 := by
  have hdb : NodeReader.Le noNodes db := nofun
  have hfresh : ∀ b t, Fresh b newFlag t := fun _ _ => rfl
  obtain ⟨tr, hrun, htr⟩ := holds_empty.run hdb hfresh (kvs.map fun kv => .update kv.1 kv.2)
  have hroot := htr.hash_fresh keccak
  rw [foldl_update] at hroot
  cases kvs with
  | nil =>
    refine ⟨_, tr, rfl, hrun, ?_⟩
    rw [hroot]
    rfl
  | cons kv kvs =>
    have hv : kv.2 ≠ [] := hvals kv (by simp)
    have hfirst : Spine keccak 0 (.leaf 0 (nibbles kv.1) kv.2) (write .nil kv.1 kv.2)
        (nibbles kv.1) := by
      rw [write_of_ne_nil hv, Patricia.insert_nil (by simp)]
      exact .leaf (terminator_not_mem_nibbles kv.1)
    obtain ⟨st, l, hst, hspine⟩ := run_spine hfirst hkeys fun kv' hkv' => hvals kv' (by simp [hkv'])
    refine ⟨st, tr, run_cons_ok.2 ⟨_, tryUpdate_eq hv _, hst⟩, hrun, ?_⟩
    rw [hroot, hash_spine hspine]
    rfl

/-- **The stack trie computes the root of the trie.** For keys in strictly increasing order, none of
them the beginning of another, and values that are not empty, neither of them fails and the root
hashes agree. -/
theorem hash_eq_trie_hash (keccak : Bytes → Hash) (db : NodeReader) (kvs : List (Bytes × Bytes))
    (hsorted : (kvs.map Prod.fst).Pairwise (· < ·))
    (hfree : ∀ k ∈ kvs.map Prod.fst, ∀ k' ∈ kvs.map Prod.fst, k <+: k' → k = k')
    (hvals : ∀ kv ∈ kvs, kv.2 ≠ []) :
    ∃ st tr, run (tryUpdate keccak) (.empty 0) kvs = .ok st ∧
      run (Op.step db) .empty (kvs.map fun kv => .update kv.1 kv.2) = .ok tr ∧
      hash keccak st = (tr.hash keccak).1 := by
  refine run_hash db (hsorted.imp_of_mem fun {k k'} hk hk' hlt => ⟨hlt, ?_⟩) hvals
  intro hpre
  rw [hfree k hk k' hk' hpre] at hlt
  exact List.lt_irrefl _ hlt

theorem hash_eq_trie_hash_fork : ∃ st tr,
    run (tryUpdate fun b => BitVec.ofNat 256 b.length) (.empty 0)
      [([0x12, 0x34], [1]), ([0x12, 0x45], [2]), ([0x20], [3])] = .ok st ∧
    run (Op.step noNodes) .empty
      [.update [0x12, 0x34] [1], .update [0x12, 0x45] [2], .update [0x20] [3]] = .ok tr ∧
    hash (fun b => BitVec.ofNat 256 b.length) st =
      (tr.hash fun b => BitVec.ofNat 256 b.length).1 :=
  hash_eq_trie_hash (fun b => .ofNat 256 b.length) noNodes
    [([0x12, 0x34], [1]), ([0x12, 0x45], [2]), ([0x20], [3])] (by decide) (by decide) (by decide)

end Run

end StackTrie

end Virbicoin.Mpt
