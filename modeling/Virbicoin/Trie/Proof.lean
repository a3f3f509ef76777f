import Virbicoin.Trie.Canonical
import Virbicoin.Trie.DecodeNode

/-!
# Merkle proofs of one key

`Prove` and `VerifyProof` of `trie/proof.go`. A proof is the set of nodes on the path to a key, each
stored under its hash. The verifier starts at the root hash, and decodes and walks one stored node
after the other until it comes to a value or to nothing.

If the hash does not collide, what is stored under the hash of a node of the tree decodes to the
node (`load`); a walk through it ends with the value of the key, with its absence, or at the hash of
a part further down (`Walk`). Since the verifier only looks at the root hash, this hash commits to
the map (`hash_eq_iff_finalMap_eq`).
-/

namespace Virbicoin.Mpt

open Virbicoin.Lib Virbicoin.Lib.Patricia Function List

abbrev ProofDb := Hash → Option Bytes

namespace Proof

/-! ## The prover -/

section Prove

variable (keccak : Bytes → Hash)

/-- The first loop of `Prove`: the nodes on the path to the key, with the continuation at a hash. -/
def pathNodesWith (onHash : Hash → List Nibble → Except Err (List Node)) :
    Node → List Nibble → Except Err (List Node)
  | _, [] => .ok []
  | .nil, _ :: _ => .ok []
  | .value _, _ :: _ => .error .panic
  | .short k c fl, a :: key =>
    if k <+: a :: key then
      (.short k c fl :: ·) <$> pathNodesWith onHash c ((a :: key).drop k.length)
    else .ok [.short k c fl]
  | .full ch fl, a :: key => (.full ch fl :: ·) <$> pathNodesWith onHash (ch a) key
  | .hash h, a :: key => onHash h (a :: key)

def pathNodes (db : NodeReader) : Nat → Node → List Nibble → Except Err (List Node)
  | 0 => pathNodesWith fun _ _ => .error .outOfFuel
  | fuel + 1 => pathNodesWith fun h key => do
    let n ← resolveHash db h []
    pathNodes db fuel n key

/-- The collapsed node of `proofHash`. Value and hash nodes are left as they are. -/
def collapseNode : Node → RawNode
  | .nil => .nil
  | .value v => .value v
  | .hash h => .hash h
  | .short k c _ => .short (hexToCompact k) (Mpt.hash keccak c false).1
  | .full ch _ => .full fun i =>
    if i ≠ terminator ∧ (ch i).isNil then .value [] else (Mpt.hash keccak (ch i) false).1

/-- `proofHash`: the collapsed node, and its hash unless it is smaller than 32 bytes. -/
def proofHash (n : Node) : RawNode × RawNode :=
  let collapsed := collapseNode keccak n
  (collapsed, if n.isInner then toHash keccak collapsed false else collapsed)

/-- One round of the second loop of `Prove`: nodes that have a hash, and the root, become elements
of the proof. -/
def putNode (proofDb : ProofDb) (i : Nat) (n : Node) : ProofDb :=
  let (collapsed, hashed) := proofHash keccak n
  match hashed.hash? with
  | some h => update proofDb h (some collapsed.encode)
  | none =>
    if i = 0 then update proofDb (keccak collapsed.encode) (some collapsed.encode)
    else proofDb

def putNodes : Nat → Nat → List Node → ProofDb → ProofDb
  | _, _, [], proofDb => proofDb
  | i, fromLevel, n :: nodes, proofDb =>
    if fromLevel > 0 then putNodes (i + 1) (fromLevel - 1) nodes proofDb
    else putNodes (i + 1) fromLevel nodes (putNode keccak proofDb i n)

end Prove

end Proof

def Trie.prove (keccak : Bytes → Hash) (db : NodeReader) (tr : Trie) (key : Bytes) (fromLevel : Nat)
    (proofDb : ProofDb) : Except Err ProofDb :=
  (Proof.pathNodes db ((keybytesToHex key).length + 1) tr.root (keybytesToHex key)).map
    fun nodes => Proof.putNodes keccak 0 fromLevel nodes proofDb

namespace Proof

/-! ## The verifier -/

/-- `get`: the child of a node along the key, and what is left of the key. With `skipResolved` the
walk goes on through the nodes that are there. -/
def get : Node → List Nibble → Bool → Except Err (List Nibble × Node)
  | .short k c _, key, skipResolved =>
    if k <+: key then
      if skipResolved then get c (key.drop k.length) skipResolved
      else .ok (key.drop k.length, c)
    else .ok ([], .nil)
  | .full _ _, [], _ => .error .panic
  | .full ch _, a :: key, skipResolved =>
    if skipResolved then get (ch a) key skipResolved else .ok (key, ch a)
  | .hash h, key, _ => .ok (key, .hash h)
  | .nil, key, _ => .ok (key, .nil)
  | .value v, _, _ => .ok ([], .value v)

inductive VerifyErr where
  /-- proof node missing -/
  | missing (i : Nat) (wantHash : Hash)
  /-- bad proof node -/
  | bad (i : Nat) (err : DecodeErr)
  | panic
  | outOfFuel
  deriving DecidableEq, Repr

/-- The loop of `VerifyProof`, with fuel for the number of rounds. A resolved node has no case in
the source, so that the loop goes on with the same hash. -/
def verifyLoop (proofDb : ProofDb) : Nat → Nat → Hash → List Nibble →
    Except VerifyErr (Option Bytes)
  | 0, _, _, _ => .error .outOfFuel
  | fuel + 1, i, wantHash, key =>
    match proofDb wantHash with
    | none => .error (.missing i wantHash)
    | some buf =>
      match decodeNode (some wantHash) buf with
      | .error err => .error (.bad i err)
      | .ok n =>
        match get n key true with
        | .error _ => .error .panic
        | .ok (_, .nil) => .ok none
        | .ok (keyrest, .hash h) => verifyLoop proofDb fuel (i + 1) h keyrest
        | .ok (_, .value v) => .ok (some v)
        | .ok (_, _) => verifyLoop proofDb fuel (i + 1) wantHash key

def verifyProof (fuel : Nat) (rootHash : Hash) (key : Bytes) (proofDb : ProofDb) :
    Except VerifyErr (Option Bytes) :=
  verifyLoop proofDb fuel 0 rootHash (keybytesToHex key)

/-! ## Nodes on a path -/

def visited : PTree → List Nibble → List PTree
  | .short k t, key =>
    .short k t :: if k <+: key then visited t (key.drop k.length) else []
  | .full ch, a :: key => .full ch :: visited (ch a) key
  | _, _ => []

theorem head?_visited {t : PTree} {key : List Nibble} (hcanon : Canon terminator t)
    (hkey : IsKey terminator key) : (visited t key).head? = some t := by
  cases t with
  | nil | value v => cases hcanon
  | short k t => rfl
  | full ch =>
    obtain ⟨a, key, rfl⟩ := exists_cons_of_ne_nil hkey.ne_nil
    rfl

theorem subTree_of_visited {t s : PTree} {key : List Nibble} (h : s ∈ visited t key) :
    SubTree s t ∧ isInner s = true := by
  induction t generalizing key with
  | nil | value v => cases h
  | short k t ih =>
    rw [visited, mem_cons] at h
    obtain rfl | h := h
    · exact ⟨.refl, rfl⟩
    split at h
    · exact ⟨.short (ih h).1, (ih h).2⟩
    · cases h
  | full ch ih =>
    cases key with
    | nil => cases h
    | cons a key =>
      rw [visited, mem_cons] at h
      obtain rfl | h := h
      · exact ⟨.refl, rfl⟩
      · exact ⟨.full (ih a h).1, (ih a h).2⟩

section Walk

variable {keccak : Bytes → Hash} {t s : PTree} {key : List Nibble}

/-- How a walk along a key through what a reference to `t` decodes to can end. -/
inductive Walk (keccak : Bytes → Hash) (t : PTree) (key : List Nibble) :
    List Nibble × Node → Prop where
  | absent {rest : List Nibble} (hget : Patricia.get t key = none) : Walk keccak t key (rest, .nil)
  | found {rest : List Nibble} {v : Bytes} (hget : Patricia.get t key = some v) :
      Walk keccak t key (rest, .value v)
  | hash {s : PTree} {rest : List Nibble} (hsub : SubTree s t) (hcanon : Canon terminator s)
      (hlarge : 32 ≤ (encoding keccak s).length) (hkey : IsKey terminator rest)
      (hlen : rest.length ≤ key.length) (hget : Patricia.get t key = Patricia.get s rest)
      (hvisited : visited s rest ⊆ visited t key) :
      Walk keccak t key (rest, .hash (keccak (encoding keccak s)))

theorem Walk.short {k : List Nibble} {r : List Nibble × Node} (h : Walk keccak t key r) :
    Walk keccak (.short k t) (k ++ key) r := by
  have hget : Patricia.get (.short k t) (k ++ key) = Patricia.get t key := by simp [get_short]
  cases h with
  | absent h => exact .absent (hget.trans h)
  | found h => exact .found (hget.trans h)
  | hash hsub hcanon hlarge hkey hlen h hvisited =>
    refine .hash (.short hsub) hcanon hlarge hkey ?_ (hget.trans h) ?_
    · rw [length_append]
      omega
    · rw [visited, if_pos (prefix_append _ _), drop_left]
      exact subset_cons_of_subset _ hvisited

theorem Walk.full {ch : Nibble → PTree} {a : Nibble} {r : List Nibble × Node}
    (h : Walk keccak (ch a) key r) : Walk keccak (.full ch) (a :: key) r := by
  have hget : Patricia.get (.full ch) (a :: key) = Patricia.get (ch a) key := get_full
  cases h with
  | absent h => exact .absent (hget.trans h)
  | found h => exact .found (hget.trans h)
  | hash hsub hcanon hlarge hkey hlen h hvisited =>
    refine .hash (.full hsub) hcanon hlarge hkey ?_ (hget.trans h) ?_
    · rw [length_cons]
      omega
    · exact subset_cons_of_subset _ hvisited

theorem get_short_load {c : Node} {k : List Nibble} (fl : NodeFlag)
    (h : ∀ rest, key = k ++ rest → ∃ r, get c rest true = .ok r ∧ Walk keccak t rest r) :
    ∃ r, get (.short k c fl) key true = .ok r ∧ Walk keccak (.short k t) key r := by
  rw [get]
  by_cases hpre : k <+: key
  · obtain ⟨rest, rfl⟩ := hpre
    obtain ⟨r, hr, hwalk⟩ := h rest rfl
    refine ⟨r, ?_, hwalk.short⟩
    rw [if_pos (prefix_append _ _), if_pos rfl, drop_left, hr]
  rw [if_neg hpre]
  exact ⟨_, rfl, .absent (by rw [get_short, if_neg hpre])⟩

theorem get_loadRef (hkey : Fits terminator t key) :
    ∃ r, get (loadRef keccak t) key true = .ok r ∧ Walk keccak t key r := by
  induction t generalizing key with
  | nil => exact ⟨_, rfl, .absent get_nil⟩
  | value v =>
    obtain rfl := hkey.value
    exact ⟨_, rfl, .found (by simp [get_value])⟩
  | short k t ih =>
    rw [loadRef]
    split
    · apply get_short_load
      rintro rest rfl
      exact ih hkey.short_child
    rename_i hlarge
    exact ⟨_, rfl, .hash .refl hkey.short.2 (not_lt.1 hlarge) hkey.short.1 (le_refl _) rfl
      (.refl _)⟩
  | full ch ih =>
    rw [loadRef]
    split
    · obtain ⟨a, key, rfl⟩ := exists_cons_of_ne_nil hkey.full.1.ne_nil
      obtain ⟨r, hr, hwalk⟩ := ih a hkey.full_child
      exact ⟨r, by rw [get, if_pos rfl, hr], hwalk.full⟩
    rename_i hlarge
    exact ⟨_, rfl, .hash .refl hkey.full.2 (not_lt.1 hlarge) hkey.full.1 (le_refl _) rfl (.refl _)⟩

theorem Walk.length_le {rest : List Nibble} {h : Hash} (hwalk : Walk keccak t key (rest, .hash h)) :
    rest.length ≤ key.length := by
  cases hwalk with
  | hash _ _ _ _ hlen => exact hlen

theorem get_load (keccak : Bytes → Hash) (hcanon : Canon terminator t)
    (hkey : IsKey terminator key) (h : Option Hash) :
    ∃ r, get (load keccak h t) key true = .ok r ∧ Walk keccak t key r ∧
      ∀ rest hsh, r = (rest, .hash hsh) → rest.length < key.length := by
  have hfits : Fits terminator t key := .inr ⟨hkey, .inr hcanon⟩
  cases t with
  | nil | value v => cases hcanon
  | short k t =>
    rw [load, get]
    by_cases hpre : k <+: key
    · obtain ⟨rest, rfl⟩ := hpre
      obtain ⟨r, hr, hwalk⟩ := get_loadRef hfits.short_child
      refine ⟨r, ?_, hwalk.short, ?_⟩
      · rw [if_pos (prefix_append _ _), if_pos rfl, drop_left, hr]
      rintro rest' hsh rfl
      have := hwalk.length_le
      have := length_pos_iff.2 hcanon.key_ne_nil
      rw [length_append]
      omega
    rw [if_neg hpre]
    exact ⟨_, rfl, .absent (by rw [get_short, if_neg hpre]), fun _ _ h => by cases h⟩
  | full ch =>
    obtain ⟨a, key, rfl⟩ := exists_cons_of_ne_nil hkey.ne_nil
    obtain ⟨r, hr, hwalk⟩ := get_loadRef hfits.full_child
    refine ⟨r, by rw [load, get, if_pos rfl, hr], hwalk.full, ?_⟩
    rintro rest hsh rfl
    exact Nat.lt_succ_of_le hwalk.length_le

end Walk

/-! ## Verifying -/

section Verify

variable {keccak : Bytes → Hash} {proofDb : ProofDb} {t s : PTree} {key : List Nibble}

/-- Every value is stored under its hash. -/
def ContentAddressed (keccak : Bytes → Hash) (proofDb : ProofDb) : Prop :=
  ∀ h b, proofDb h = some b → keccak b = h

/-- Nothing else has the hash of a node of the tree. -/
structure CollisionFree (keccak : Bytes → Hash) (t : PTree) : Prop where
  root : ∀ x, keccak x = rootHash keccak t → x = encoding keccak t
  node : ∀ {s}, SubTree s t → isInner s = true → ∀ x, keccak x = keccak (encoding keccak s) →
    x = encoding keccak s

/-- What is stored under the hash of a part of the tree is its encoding. -/
def Consistent (keccak : Bytes → Hash) (proofDb : ProofDb) (t : PTree) : Prop :=
  ∀ {s}, SubTree s t → isInner s = true → ∀ b, proofDb (keccak (encoding keccak s)) = some b →
    b = encoding keccak s

theorem CollisionFree.consistent (h : CollisionFree keccak t)
    (hdb : ContentAddressed keccak proofDb) :
    Consistent keccak proofDb t :=
  fun hs hinner b hb => h.node hs hinner b (hdb _ b hb)

/-- **The verifier returns the value of the tree, unless a node on the path is missing.** -/
theorem verifyLoop_spec (hst : Storable keccak t) (hdb : Consistent keccak proofDb t)
    (hsub : SubTree s t) (hcanon : Canon terminator s) (hkey : IsKey terminator key) {fuel : Nat}
    (hfuel : key.length < fuel) (i : Nat) :
    verifyLoop proofDb fuel i (keccak (encoding keccak s)) key = .ok (Patricia.get s key) ∨
      ∃ j r, (r = s ∨ r ∈ visited s key ∧ 32 ≤ (encoding keccak r).length) ∧
        proofDb (keccak (encoding keccak r)) = none ∧
        verifyLoop proofDb fuel i (keccak (encoding keccak s)) key =
          .error (.missing j (keccak (encoding keccak r))) := by
  induction fuel generalizing s key i with
  | zero => omega
  | succ fuel ih =>
    have hinner : isInner s = true := by cases hcanon <;> rfl
    cases hbuf : proofDb (keccak (encoding keccak s)) with
    | none => exact .inr ⟨i, s, .inl rfl, hbuf, by rw [verifyLoop, hbuf]⟩
    | some buf =>
      obtain rfl := hdb hsub hinner buf hbuf
      have hdec := decodeNode_encoding hcanon (hst.sub hsub) (some (keccak (encoding keccak s)))
      obtain ⟨r, hr, hwalk, hlt⟩ := get_load keccak hcanon hkey (some (keccak (encoding keccak s)))
      rw [verifyLoop, hbuf]
      simp only [hdec, hr]
      cases hwalk with
      | absent hget | found hget => exact .inl (congrArg Except.ok hget.symm)
      | hash hsub' hcanon' hlarge hkey' hlen hget hvisited =>
        rename_i s' rest
        have hfuel' : rest.length < fuel := by
          have := hlt rest _ rfl
          omega
        obtain hok | ⟨j, r, hr, hnone, herr⟩ :=
          ih (hsub'.trans hsub) hcanon' hkey' hfuel' (i + 1)
        · exact .inl (hok.trans (congrArg Except.ok hget.symm))
        refine .inr ⟨j, r, .inr ?_, hnone, herr⟩
        obtain rfl | ⟨hmem, hlarge'⟩ := hr
        · refine ⟨hvisited ?_, hlarge⟩
          exact mem_of_head? (head?_visited hcanon' hkey')
        · exact ⟨hvisited hmem, hlarge'⟩

end Verify

/-! ## Proving -/

section Path

variable {known db : NodeReader} {ok : Bool → NodeFlag → PTree → Prop} {isRoot : Bool} {n : Node}
  {t : PTree} {key : List Nibble} {fuel : Nat}

theorem pathNodes_nil : pathNodes db fuel n [] = .ok [] := by cases fuel <;> cases n <;> rfl

theorem pathNodes_short (k : List Nibble) (c : Node) (fl : NodeFlag) (hkey : key ≠ []) :
    pathNodes db fuel (.short k c fl) key =
      if k <+: key then (.short k c fl :: ·) <$> pathNodes db fuel c (key.drop k.length)
      else .ok [.short k c fl] := by
  cases key with
  | nil => exact absurd rfl hkey
  | cons a key => cases fuel <;> rfl

theorem pathNodes_full {ch : Nibble → Node} {fl : NodeFlag} {a : Nibble} :
    pathNodes db fuel (.full ch fl) (a :: key) =
      (.full ch fl :: ·) <$> pathNodes db fuel (ch a) key := by
  cases fuel <;> rfl

theorem pathNodes_denotes (hdb : known.Le db) (h : Denotes known ok isRoot n t)
    (hkey : Fits terminator t key) (hfuel : need n key ≤ fuel) :
    ∃ nodes, pathNodes db fuel n key = .ok nodes ∧
      List.Forall₂ (fun n s => ∃ b, Denotes known ok b n s ∧ n.isInner = true) nodes
        (visited t key) := by
  induction h generalizing key fuel with
  | nil =>
    refine ⟨[], ?_, .nil⟩
    cases key with
    | nil => exact pathNodes_nil
    | cons a key => cases fuel <;> rfl
  | value v =>
    obtain rfl := hkey.value
    exact ⟨[], pathNodes_nil, .nil⟩
  | short hfl h ih =>
    rename_i isRoot k c fl t
    have hself : Denotes known ok isRoot (.short k c fl) (.short k t) := .short hfl h
    rw [pathNodes_short k c fl hkey.short.1.ne_nil, visited]
    by_cases hpre : k <+: key
    · obtain ⟨r, rfl⟩ := hpre
      have hneed := need_short_child hkey.short.2.key_ne_nil hfuel
      obtain ⟨nodes, hnodes, hall⟩ := ih hkey.short_child hneed
      simp only [prefix_append, if_true, drop_left, hnodes]
      exact ⟨_, rfl, .cons ⟨isRoot, hself, rfl⟩ hall⟩
    rw [if_neg hpre, if_neg hpre]
    exact ⟨_, rfl, .cons ⟨isRoot, hself, rfl⟩ .nil⟩
  | full hfl h ih =>
    rename_i isRoot ch fl tch
    have hself : Denotes known ok isRoot (.full ch fl) (.full tch) := .full hfl h
    obtain ⟨a, key, rfl⟩ := exists_cons_of_ne_nil hkey.full.1.ne_nil
    have hneed := need_full_child hfuel
    obtain ⟨nodes, hnodes, hall⟩ := ih a hkey.full_child hneed
    rw [pathNodes_full, hnodes]
    exact ⟨_, rfl, .cons ⟨isRoot, hself, rfl⟩ hall⟩
  | hash hknown hinner hn ih =>
    obtain ⟨fuel, rfl, hneed⟩ := need_hash hinner hfuel
    obtain ⟨nodes, hnodes, hall⟩ := ih hkey hneed
    refine ⟨nodes, ?_, hall⟩
    obtain ⟨a, key, rfl⟩ : ∃ a k, key = a :: k := by
      obtain ⟨rfl, hleaf⟩ | ⟨hk, -⟩ := hkey
      · obtain ⟨hnil, hvalue⟩ := Denotes.ne_value (.hash hknown hinner hn)
        obtain rfl | ⟨v, rfl⟩ := hleaf
        · exact absurd rfl hnil
        · exact absurd rfl (hvalue v)
      · exact exists_cons_of_ne_nil hk.ne_nil
    rw [← hnodes, pathNodes, pathNodesWith, resolveHash, hdb hknown]
    rfl

end Path

section Put

variable {keccak : Bytes → Hash} {known : NodeReader} {ok : Bool → NodeFlag → PTree → Prop}
  {isRoot : Bool} {n : Node} {t s : PTree} {proofDb : ProofDb}

theorem collapseNode_denotes (hflags : FlagsOk keccak ok) (hload : LoadsHash known)
    (h : Denotes known ok isRoot n t) (hn : n.isInner = true) :
    collapseNode keccak n = collapse keccak t ∧ isInner t = true := by
  cases h with
  | nil | value v | hash => cases hn
  | short hfl h =>
    rw [collapseNode, (hash_denotes hflags hload h).1]
    exact ⟨rfl, rfl⟩
  | full hfl h =>
    refine ⟨?_, rfl⟩
    rw [collapseNode]
    congr 1
    funext i
    rw [(hash_denotes hflags hload (h i)).1, (h i).isNil_eq]
    rfl

theorem putNode_denotes (hflags : FlagsOk keccak ok) (hload : LoadsHash known)
    (h : Denotes known ok isRoot n s) (hn : n.isInner = true) (i : Nat) :
    putNode keccak proofDb i n = if i = 0 ∨ 32 ≤ (encoding keccak s).length then
        update proofDb (keccak (encoding keccak s)) (some (encoding keccak s))
      else proofDb := by
  obtain ⟨hcollapse, hinner⟩ := collapseNode_denotes hflags hload h hn
  unfold putNode proofHash
  dsimp only
  rw [hcollapse, if_pos hn]
  change (match (toHash keccak (collapse keccak s) false).hash? with
    | some h => update proofDb h (some (encoding keccak s))
    | none => if i = 0 then
        update proofDb (keccak (encoding keccak s)) (some (encoding keccak s))
      else proofDb) = _
  by_cases hlarge : 32 ≤ (encoding keccak s).length
  · have hcond : i = 0 ∨ 32 ≤ (encoding keccak s).length := .inr hlarge
    rw [if_pos hcond, toHash, if_neg]
    · rfl
    rintro ⟨hlt, -⟩
    exact absurd hlarge (not_le.2 hlt)
  have hnone : (toHash keccak (collapse keccak s) false).hash? = none := by
    rw [toHash, if_pos ⟨not_le.1 hlarge, rfl⟩]
    cases s <;> rfl
  rw [hnone]
  simp only [hlarge, or_false]

def Stores (keccak : Bytes → Hash) (proofDb : ProofDb) (s : PTree) : Prop :=
  proofDb (keccak (encoding keccak s)) = some (encoding keccak s)

theorem Stores.putNode (hfree : CollisionFree keccak t) (hflags : FlagsOk keccak ok)
    (hload : LoadsHash known) (h : Denotes known ok isRoot n s) (hn : n.isInner = true)
    {r : PTree} (hsub : SubTree r t) (hinner : isInner r = true) (hr : Stores keccak proofDb r)
    (i : Nat) : Stores keccak (Proof.putNode keccak proofDb i n) r := by
  rw [putNode_denotes hflags hload h hn]
  split
  · unfold Stores
    by_cases heq : keccak (encoding keccak r) = keccak (encoding keccak s)
    · rw [heq, update_self, hfree.node hsub hinner _ heq.symm]
    · rwa [update_of_ne heq]
  · exact hr

theorem ContentAddressed.putNode (hflags : FlagsOk keccak ok) (hload : LoadsHash known)
    (h : Denotes known ok isRoot n s) (hn : n.isInner = true)
    (hdb : ContentAddressed keccak proofDb) (i : Nat) :
    ContentAddressed keccak (Proof.putNode keccak proofDb i n) := by
  rw [putNode_denotes hflags hload h hn]
  split
  · intro hsh b hb
    by_cases heq : hsh = keccak (encoding keccak s)
    · subst heq
      rw [update_self] at hb
      rw [Option.some.inj hb]
    rw [update_of_ne heq] at hb
    exact hdb hsh b hb
  · exact hdb

variable {nodes : List Node}

theorem contentAddressed_putNodes (hflags : FlagsOk keccak ok) (hload : LoadsHash known)
    {ss : List PTree}
    (h : List.Forall₂ (fun n s => ∃ b, Denotes known ok b n s ∧ n.isInner = true) nodes ss)
    (hdb : ContentAddressed keccak proofDb) (i : Nat) :
    ContentAddressed keccak (putNodes keccak i 0 nodes proofDb) := by
  induction h generalizing i proofDb with
  | nil => exact hdb
  | cons hn hall ih =>
    obtain ⟨b, hden, hinner⟩ := hn
    exact ih (hdb.putNode hflags hload hden hinner i) (i + 1)

theorem stores_putNodes (hfree : CollisionFree keccak t) (hflags : FlagsOk keccak ok)
    (hload : LoadsHash known) {ss : List PTree}
    (h : List.Forall₂ (fun n s => ∃ b, Denotes known ok b n s ∧ n.isInner = true) nodes ss)
    (hss : ∀ s ∈ ss, SubTree s t ∧ isInner s = true) (i : Nat) (proofDb : ProofDb) :
    (∀ r, SubTree r t → isInner r = true → Stores keccak proofDb r →
      Stores keccak (putNodes keccak i 0 nodes proofDb) r) ∧
    ∀ s ∈ ss, 32 ≤ (encoding keccak s).length ∨ i = 0 ∧ ss.head? = some s →
      Stores keccak (putNodes keccak i 0 nodes proofDb) s := by
  induction h generalizing i proofDb with
  | nil => exact ⟨fun r _ _ hr => hr, nofun⟩
  | cons hn hall ih =>
    rename_i n s nodes ss
    obtain ⟨b, hden, hinner⟩ := hn
    obtain ⟨hkeep, hput⟩ := ih (fun s hs => hss s (by simp [hs])) (i + 1)
      (putNode keccak proofDb i n)
    have hold : ∀ r, SubTree r t → isInner r = true → Stores keccak proofDb r →
        Stores keccak (putNodes keccak (i + 1) 0 nodes (putNode keccak proofDb i n)) r :=
      fun r hsub hr hst => hkeep r hsub hr (hst.putNode hfree hflags hload hden hinner hsub hr i)
    refine ⟨hold, fun r hr hcond => ?_⟩
    by_cases hmem : r ∈ ss ∧ 32 ≤ (encoding keccak r).length
    · exact hput r hmem.1 (.inl hmem.2)
    obtain ⟨hsub, hinner'⟩ := hss r hr
    have hr' : r = s := by
      obtain hlarge | ⟨-, hhead⟩ := hcond
      · exact (mem_cons.1 hr).resolve_right fun h => hmem ⟨h, hlarge⟩
      · exact (Option.some.inj hhead).symm
    subst hr'
    refine hkeep r hsub hinner' ?_
    rw [putNode_denotes hflags hload hden hinner, if_pos]
    · exact update_self _ _ _
    obtain hlarge | ⟨hzero, -⟩ := hcond
    · exact .inr hlarge
    · exact .inl hzero

end Put

/-! ## Proofs of one key -/

section Main

variable {keccak : Bytes → Hash} {db : NodeReader} {tr : Trie} {t : PTree}

theorem prove_ok (hfree : CollisionFree keccak t) (h : Represents keccak db tr t) (ht : t ≠ .nil)
    (key : Bytes) : ∃ proof, tr.prove keccak db key 0 (fun _ => none) = .ok proof ∧
      ContentAddressed keccak proof ∧ Stores keccak proof t ∧
      ∀ s ∈ visited t (keybytesToHex key), 32 ≤ (encoding keccak s).length →
        Stores keccak proof s := by
  obtain ⟨known, ok, hdb, hflags, hload, hholds⟩ := h
  have hcanon : Canon terminator t := hholds.canonical.resolve_left ht
  have hkey := isKey_keybytesToHex key
  obtain ⟨nodes, hnodes, hall⟩ := pathNodes_denotes hdb hholds.denotes (hholds.fits key)
    (need_le _ _)
  obtain ⟨-, hput⟩ := stores_putNodes hfree hflags hload hall
    (fun s hs => subTree_of_visited hs) 0 fun _ => none
  have hhead := head?_visited hcanon hkey
  have haddr : ContentAddressed keccak fun _ => none := by nofun
  refine ⟨_, by rw [Trie.prove, hnodes]; rfl, ?_, ?_, ?_⟩
  · exact contentAddressed_putNodes hflags hload hall haddr 0
  · exact hput t (mem_of_head? hhead) (.inr ⟨rfl, hhead⟩)
  · exact fun s hs hlarge => hput s hs (.inl hlarge)

/-- **Proofs of one key are complete and sound.** The proof of a key in a trie that is not empty
verifies and gives the value of the key; whatever content-addressed store is in place of the proof,
the verifier ends with an error or with the value of the key. -/
theorem verifyProof_prove (hrep : Represents keccak db tr t) (hst : Storable keccak t)
    (hfree : CollisionFree keccak t) (key : Bytes) {fuel : Nat}
    (hfuel : 2 * key.length + 1 < fuel) :
    ∃ v, (tr.tryGet db key).1 = .ok v ∧
      (tr.root.isNil = false → ∃ proof, tr.prove keccak db key 0 (fun _ => none) = .ok proof ∧
        verifyProof fuel (tr.hash keccak).1 key proof = .ok v) ∧
      ∀ proofDb, ContentAddressed keccak proofDb →
        verifyProof fuel (tr.hash keccak).1 key proofDb = .ok v ∨
        (∃ i h, verifyProof fuel (tr.hash keccak).1 key proofDb = .error (.missing i h)) ∨
        ∃ i err, verifyProof fuel (tr.hash keccak).1 key proofDb = .error (.bad i err) := by
  have hkey := isKey_keybytesToHex key
  have hlen : (keybytesToHex key).length < fuel := by
    rw [keybytesToHex, length_append, nibbles_length]
    exact hfuel
  obtain ⟨known, ok, hdb, hflags, hload, hholds⟩ := id hrep
  have hroot := (hholds.hash hflags hload).1
  have hnil := hholds.denotes.isNil_eq
  refine ⟨_, (hholds.tryGet hdb key).1, ?_⟩
  rw [hroot, hnil]
  unfold verifyProof
  obtain rfl | hcanon := hholds.canonical
  · refine ⟨fun h => absurd h (by decide), fun proofDb haddr => .inr ?_⟩
    obtain ⟨fuel, rfl⟩ : ∃ f, fuel = f + 1 := ⟨fuel - 1, by omega⟩
    rw [verifyLoop]
    cases hbuf : proofDb (rootHash keccak .nil) with
    | none => exact .inl ⟨0, _, rfl⟩
    | some buf =>
      obtain rfl := hfree.root buf (haddr _ buf hbuf)
      exact .inr ⟨0, ⟨.list .expectedList, []⟩, rfl⟩
  have hroot' : rootHash keccak t = keccak (encoding keccak t) := by cases hcanon <;> rfl
  rw [hroot']
  refine ⟨fun _ => ?_, fun proofDb haddr => ?_⟩
  · obtain ⟨proof, hproof, haddr, hself, hstores⟩ := prove_ok hfree hrep hcanon.ne_nil key
    refine ⟨proof, hproof, ?_⟩
    obtain hok | ⟨j, r, hr, hnone, -⟩ :=
      verifyLoop_spec hst (hfree.consistent haddr) .refl hcanon hkey hlen 0
    · exact hok
    have hstored : Stores keccak proof r := by
      obtain rfl | ⟨hmem, hlarge⟩ := hr
      · exact hself
      · exact hstores r hmem hlarge
    rw [hstored] at hnone
    cases hnone
  obtain hok | ⟨j, r, -, -, herr⟩ :=
    verifyLoop_spec hst (hfree.consistent haddr) .refl hcanon hkey hlen 0
  · exact .inl hok
  · exact .inr (.inl ⟨j, _, herr⟩)

end Main

def leafTrie : Trie := ⟨.short [1, 2, 16] (.value [0xab]) newFlag, 1⟩

def leafHash (b : Bytes) : Hash := if b = [0xc5, 0x82, 0x20, 0x12, 0x81, 0xab] then 1 else 0

theorem represents_leafTrie :
    Represents leafHash noNodes leafTrie (.short [1, 2, 16] (.value [0xab])) := by
  have hload : LoadsHash noNodes := nofun
  refine ⟨noNodes, Unhashed leafHash, fun h => h, flagsOk_unhashed _, hload, ?_, ?_⟩
  · exact .short nofun (.value _)
  · exact .inr (.leaf (isKey_keybytesToHex [0x12]))

theorem subTree_leaf {s : PTree} {k : List Nibble} {v : Bytes}
    (h : SubTree s (.short k (.value v))) :
    s = .short k (.value v) ∨ s = .value v := by
  cases h with
  | refl => exact .inl rfl
  | short h =>
    cases h with
    | refl => exact .inr rfl

theorem storable_leafTrie : Storable leafHash (.short [1, 2, 16] (.value [0xab])) := by
  refine ⟨fun h => ?_, fun h => ?_⟩
  · obtain h | h := subTree_leaf h
    · cases h
    cases h
    decide
  obtain rfl | rfl := subTree_leaf h
  · decide
  · decide

theorem collisionFree_leafTrie : CollisionFree leafHash (.short [1, 2, 16] (.value [0xab])) := by
  have henc : encoding leafHash (.short [1, 2, 16] (.value [0xab])) =
      [0xc5, 0x82, 0x20, 0x12, 0x81, 0xab] := by decide
  have hfree : ∀ x, leafHash x = leafHash [0xc5, 0x82, 0x20, 0x12, 0x81, 0xab] →
      x = [0xc5, 0x82, 0x20, 0x12, 0x81, 0xab] := by
    intro x hx
    by_contra hne
    rw [leafHash, if_neg hne] at hx
    exact absurd hx (by decide)
  refine ⟨fun x hx => ?_, fun h hinner x hx => ?_⟩
  · exact hfree x (hx.trans (congrArg leafHash henc))
  obtain rfl | rfl := subTree_leaf h
  · exact hfree x hx
  · cases hinner

theorem verifyProof_prove_leaf :
    ∃ v, (leafTrie.tryGet noNodes [0x12]).1 = .ok v ∧
      (leafTrie.root.isNil = false →
        ∃ proof, leafTrie.prove leafHash noNodes [0x12] 0 (fun _ => none) = .ok proof ∧
          verifyProof 4 (leafTrie.hash leafHash).1 [0x12] proof = .ok v) ∧
      ∀ proofDb, ContentAddressed leafHash proofDb →
        verifyProof 4 (leafTrie.hash leafHash).1 [0x12] proofDb = .ok v ∨
        (∃ i h, verifyProof 4 (leafTrie.hash leafHash).1 [0x12] proofDb = .error (.missing i h)) ∨
        ∃ i err, verifyProof 4 (leafTrie.hash leafHash).1 [0x12] proofDb = .error (.bad i err) :=
  verifyProof_prove represents_leafTrie storable_leafTrie collisionFree_leafTrie [0x12] (by decide)

/-- The empty trie has no root node: its proofs are empty and do not verify, although its root hash
is known and it has no value for any key. -/
theorem verifyProof_prove_empty :
    (Trie.empty.tryGet noNodes [0x12]).1 = .ok none ∧
      Trie.empty.prove leafHash noNodes [0x12] 0 (fun _ => none) = .ok (fun _ => none) ∧
      verifyProof 4 (Trie.empty.hash leafHash).1 [0x12] (fun _ => none) =
        .error (.missing 0 emptyRoot) :=
  ⟨rfl, rfl, rfl⟩

/-! ## Root hashes as commitments -/

section Commit

variable {keccak : Bytes → Hash} {t t' : PTree}

theorem rootHash_canon (h : Canon terminator t) :
    rootHash keccak t = keccak (encoding keccak t) := by cases h <;> rfl

/-- The tree can be stored, and nothing else has the hash of one of its nodes. -/
structure Binding (keccak : Bytes → Hash) (t : PTree) : Prop where
  storable : Storable keccak t
  collisionFree : CollisionFree keccak t

/-- The empty tree is encoded as a string, every other one as a list. -/
theorem Binding.rootHash_ne_nil (h : Binding keccak .nil) (ht : Binding keccak t)
    (hcanon : Canon terminator t) : rootHash keccak t ≠ rootHash keccak .nil := by
  intro heq
  have hdec := decodeNode_encoding hcanon ht.storable none
  rw [h.collisionFree.root _ ((rootHash_canon hcanon).symm.trans heq)] at hdec
  cases hdec

/-- The verifier is run on both trees, with everything that has a hash in the store. -/
theorem Binding.get_eq (h : Binding keccak t) (h' : Binding keccak t')
    (hc : Canonical terminator t) (hc' : Canonical terminator t')
    (hroot : rootHash keccak t = rootHash keccak t') {key : List Nibble}
    (hkey : IsKey terminator key) : Patricia.get t key = Patricia.get t' key := by
  classical
  let all : ProofDb := fun h => if ∃ b, keccak b = h then some (invFun keccak h) else none
  have haddr : ContentAddressed keccak all := by
    intro h b hb
    dsimp only [all] at hb
    split at hb
    · rename_i hex
      rw [← Option.some.inj hb, invFun_eq hex]
    · cases hb
  have hread : ∀ {s}, Binding keccak s → Canon terminator s →
      verifyLoop all (key.length + 1) 0 (rootHash keccak s) key = .ok (Patricia.get s key) := by
    intro s hs hcanon
    rw [rootHash_canon hcanon]
    obtain hok | ⟨j, r, -, hnone, -⟩ := verifyLoop_spec hs.storable
      (hs.collisionFree.consistent haddr) .refl hcanon hkey (Nat.lt_succ_self _) 0
    · exact hok
    · simp [all] at hnone
  rcases hc with rfl | hcanon
  · rcases hc' with rfl | hcanon'
    · rfl
    · exact absurd hroot.symm (h.rootHash_ne_nil h' hcanon')
  rcases hc' with rfl | hcanon'
  · exact absurd hroot (h'.rootHash_ne_nil h hcanon)
  have hok := hread h hcanon
  rw [hroot, hread h' hcanon'] at hok
  exact (Except.ok.inj hok).symm

/-- **A root hash commits to the map.** Unless hashes collide, the tries that two series of
operations build have the same root hash if and only if they hold the same map. -/
theorem hash_eq_iff_finalMap_eq {db : NodeReader} {ops ops' : List Op} {tr tr' : Trie}
    (hrun : run (Op.step db) .empty ops = .ok tr) (hrun' : run (Op.step db) .empty ops' = .ok tr')
    (h : Binding keccak (ops.foldl Op.write .nil))
    (h' : Binding keccak (ops'.foldl Op.write .nil)) :
    (tr.hash keccak).1 = (tr'.hash keccak).1 ↔ finalMap ops = finalMap ops' := by
  have hdb : NodeReader.Le noNodes db := nofun
  have hfresh : ∀ b t, Fresh b newFlag t := fun _ _ => rfl
  have hhash : ∀ {ops tr}, run (Op.step db) .empty ops = .ok tr →
      (tr.hash keccak).1 = rootHash keccak (ops.foldl Op.write .nil) := by
    intro ops tr hrun
    obtain ⟨tr1, hrun1, hholds⟩ := holds_empty.run hdb hfresh ops
    rw [← Except.ok.inj (hrun1.symm.trans hrun), hholds.hash_fresh]
  have hmap : ∀ ops, HoldsMap (ops.foldl Op.write .nil) (finalMap ops) := holdsMap_nil.foldl
  rw [hhash hrun, hhash hrun']
  constructor
  · intro heq
    funext key
    rw [← (hmap ops).get_eq, ← (hmap ops').get_eq]
    exact h.get_eq h' (hmap ops).canonical (hmap ops').canonical heq (isKey_keybytesToHex key)
  · intro heq
    rw [(hmap ops).unique (heq ▸ hmap ops')]

end Commit

theorem hash_eq_iff_finalMap_eq_leaf :
    finalMap [.update [0x12] [0xab]] =
      finalMap [.update [0x12] [0xcd], .update [0x12] [0xab]] := by
  have hrun : run (Op.step noNodes) .empty [.update [0x12] [0xab]] = .ok leafTrie := rfl
  have hrun' : run (Op.step noNodes) .empty [.update [0x12] [0xcd], .update [0x12] [0xab]] =
      .ok ⟨leafTrie.root, 2⟩ := rfl
  have h : Binding leafHash (.short [1, 2, 16] (.value [0xab])) :=
    ⟨storable_leafTrie, collisionFree_leafTrie⟩
  exact (hash_eq_iff_finalMap_eq hrun hrun' h h).1 rfl

end Proof

end Virbicoin.Mpt
