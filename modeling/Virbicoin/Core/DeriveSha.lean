import Virbicoin.Trie.StackTrie

/-!
# The root of a list

`DeriveSha` of `core/types/derive_sha.go` and `AppendUint64` of `rlp/raw.go`. The entries of a list
are inserted under the encodings of their indices, and the index 0, whose encoding is `0x80`, goes
between `0x7f` and `0x80`: in that order the keys increase (`keys_sorted`), so a stack trie can take
them. The first byte of an encoding says how long it is, so none is the beginning of another
(`key_prefix_free`).
-/

namespace Virbicoin.Core

open Virbicoin.Lib Virbicoin.Mpt List

def appendUint64 (b : Bytes) (i : Nat) : Bytes :=
  if i = 0 then b ++ [0x80]
  else if i < 128 then b ++ [BitVec.ofNat 8 i]
  else b ++ (0x80 + BitVec.ofNat 8 (Rlp.putint i).length) :: Rlp.putint i

/-- What `GetRlp` returns for each index. The length is an `int`. -/
structure DerivableList where
  rlps : List Bytes
  len_lt : rlps.length < 2 ^ 63

/-- An error is a panic, or what `Update` logs. -/
structure Hasher (σ : Type) where
  reset : σ
  update : σ → Bytes × Bytes → Except Err σ
  hash : σ → Hash

def stackTrieHasher (keccak : Bytes → Hash) : Hasher StackTrie :=
  ⟨.empty 0, StackTrie.tryUpdate keccak, StackTrie.hash keccak⟩

def trieHasher (keccak : Bytes → Hash) (db : NodeReader) : Hasher Trie :=
  ⟨.empty, fun tr kv => Op.step db tr (.update kv.1 kv.2), fun tr => (tr.hash keccak).1⟩

def insertionOrder (n : Nat) : List Nat :=
  range' 1 (min (n - 1) 0x7f) ++ (if n > 0 then [0] else []) ++ range' 0x80 (n - 0x80)

def DerivableList.entry (list : DerivableList) (i : Nat) : Bytes × Bytes :=
  (appendUint64 [] i, list.rlps.getD i [])

def deriveSha {σ : Type} (list : DerivableList) (hasher : Hasher σ) : Except Err Hash := do
  let s ← run hasher.update hasher.reset ((insertionOrder list.rlps.length).map list.entry)
  return hasher.hash s

/-! ## The keys -/

/-- The first byte of a key; above `0x80` it tells the number of bytes that follow. -/
def leadByte (i : Nat) : Nat :=
  if i = 0 then 0x80 else if i < 0x80 then i else 0x80 + byteSize i

variable {i j n : Nat}

theorem appendUint64_eq (h : i < 2 ^ 63) :
    appendUint64 [] i = BitVec.ofNat 8 (leadByte i) :: bigEndian (leadByte i - 0x80) i := by
  unfold appendUint64 leadByte
  by_cases h0 : i = 0
  · simp [h0, bigEndian]
  by_cases hsmall : i < 0x80
  · simp [h0, hsmall, bigEndian, Nat.sub_eq_zero_of_le (Nat.le_of_lt hsmall)]
  rw [if_neg h0, if_neg hsmall, if_neg h0, if_neg hsmall, Rlp.putint_eq (by omega),
    Nat.add_sub_cancel_left, bigEndian_length, nil_append, BitVec.ofNat_add]
  rfl

theorem leadByte_lt (h : i < 2 ^ 63) : leadByte i < 256 := by
  have hsize : byteSize i ≤ 8 := byteSize_le (by decide) (by omega)
  unfold leadByte
  repeat' split
  all_goals omega

theorem key_prefix_free (hi : i < 2 ^ 63) (hj : j < 2 ^ 63)
    (h : appendUint64 [] i <+: appendUint64 [] j) : appendUint64 [] i = appendUint64 [] j := by
  rw [appendUint64_eq hi, appendUint64_eq hj] at h ⊢
  obtain ⟨hlead, htail⟩ := cons_prefix_cons.1 h
  have hlead' := congrArg BitVec.toNat hlead
  rw [BitVec.toNat_ofNat, BitVec.toNat_ofNat, Nat.mod_eq_of_lt (leadByte_lt hi),
    Nat.mod_eq_of_lt (leadByte_lt hj)] at hlead'
  rw [hlead, htail.eq_of_length (by rw [bigEndian_length, bigEndian_length, hlead'])]

/-- The order of the loops: 0 comes after `0x7f` and before `0x80`. -/
def Before (i j : Nat) : Prop := 0 < i ∧ i < j ∨ 0 < i ∧ i < 0x80 ∧ j = 0 ∨ i = 0 ∧ 0x80 ≤ j

theorem key_lt (hi : i < 2 ^ 63) (hj : j < 2 ^ 63) (h : Before i j) :
    appendUint64 [] i < appendUint64 [] j := by
  have hlt := lt_pow_byteSize j
  have hlead : leadByte i < leadByte j ∨ leadByte i = leadByte j ∧ i < j ∧ 0x80 ≤ i := by
    have hmono : i < j → byteSize i ≤ byteSize j :=
      fun hij => byteSize_le (byteSize_pos j) (Nat.lt_trans hij hlt)
    have hpos := byteSize_pos j
    unfold Before at h
    unfold leadByte
    repeat' split
    all_goals omega
  rw [appendUint64_eq hi, appendUint64_eq hj, cons_lt_cons_iff, BitVec.lt_def,
    ← BitVec.toNat_inj, BitVec.toNat_ofNat, BitVec.toNat_ofNat, Nat.mod_eq_of_lt (leadByte_lt hi),
    Nat.mod_eq_of_lt (leadByte_lt hj)]
  refine hlead.imp_right fun ⟨heq, hij, hlarge⟩ => ⟨heq, ?_⟩
  have hk : leadByte j - 0x80 = byteSize j := by
    unfold leadByte
    rw [if_neg (by omega), if_neg (by omega), Nat.add_sub_cancel_left]
  rw [heq, hk]
  refine bigEndian_lt ?_
  rwa [Nat.mod_eq_of_lt hlt, Nat.mod_eq_of_lt (Nat.lt_trans hij hlt)]

theorem mem_insertionOrder : i ∈ insertionOrder n ↔ i < n := by
  unfold insertionOrder
  by_cases hn : 0 < n
  · simp [hn, mem_range'_1]
    omega
  · simp [hn, mem_range'_1]
    omega

theorem range_sorted {lo : Nat} (h : 0 < lo) (k : Nat) : (range' lo k).Pairwise Before := by
  refine (pairwise_lt_range' (s := lo) (n := k)).imp_of_mem fun {i j} hi _ hij => .inl ⟨?_, hij⟩
  exact lt_of_lt_of_le h (mem_range'_1.1 hi).1

theorem insertionOrder_sorted : (insertionOrder n).Pairwise Before := by
  have hzero : ∀ i ∈ if n > 0 then [0] else [], i = 0 := by
    intro i hi
    split at hi <;> simp_all
  refine pairwise_append.2 ⟨pairwise_append.2 ⟨range_sorted (by decide) _, ?_, ?_⟩,
    range_sorted (by decide) _, ?_⟩
  · split <;> simp
  · intro i hi j hj
    rw [mem_range'_1] at hi
    exact .inr (.inl ⟨by omega, by omega, hzero j hj⟩)
  intro i hi j hj
  rw [mem_range'_1] at hj
  obtain hi | hi := mem_append.1 hi
  · rw [mem_range'_1] at hi
    exact .inl ⟨by omega, by omega⟩
  · exact .inr (.inr ⟨hzero i hi, hj.1⟩)

def keys (n : Nat) : List Bytes := (insertionOrder n).map (appendUint64 [])

theorem keys_sorted (h : n < 2 ^ 63) : (keys n).Pairwise (· < ·) := by
  refine pairwise_map.2 ((insertionOrder_sorted).imp_of_mem fun hi hj hbefore => ?_)
  rw [mem_insertionOrder] at hi hj
  exact key_lt (by omega) (by omega) hbefore

theorem keys_prefix_free (h : n < 2 ^ 63) {k k' : Bytes} (hk : k ∈ keys n) (hk' : k' ∈ keys n)
    (hpre : k <+: k') : k = k' := by
  obtain ⟨i, hi, rfl⟩ := mem_map.1 hk
  obtain ⟨j, hj, rfl⟩ := mem_map.1 hk'
  rw [mem_insertionOrder] at hi hj
  exact key_prefix_free (by omega) (by omega) hpre

theorem insertionOrder_perm (h : n < 2 ^ 63) : (insertionOrder n).Perm (range n) := by
  have hnodup : (insertionOrder n).Nodup := by
    refine .of_map (appendUint64 []) ((keys_sorted h).imp fun hlt heq => ?_)
    rw [heq] at hlt
    exact List.lt_irrefl _ hlt
  refine (perm_ext_iff_of_nodup hnodup nodup_range).2 fun i => ?_
  rw [mem_insertionOrder, mem_range]

/-- **The root of a list does not depend on the hasher.** The loops insert every index once, and
the keys increase and none is the beginning of another, so a stack trie computes the root that a
trie does. -/
theorem deriveSha_stackTrie (keccak : Bytes → Hash) (db : NodeReader) (list : DerivableList)
    (hne : ∀ value ∈ list.rlps, value ≠ []) :
    (insertionOrder list.rlps.length).Perm (range list.rlps.length) ∧
      (keys list.rlps.length).Pairwise (· < ·) ∧
      (∀ k ∈ keys list.rlps.length, ∀ k' ∈ keys list.rlps.length, k <+: k' → k = k') ∧
      ∃ root, deriveSha list (stackTrieHasher keccak) = .ok root ∧
        deriveSha list (trieHasher keccak db) = .ok root := by
  have hlen := list.len_lt
  refine ⟨insertionOrder_perm hlen, keys_sorted hlen,
    fun k hk k' hk' => keys_prefix_free hlen hk hk', ?_⟩
  have hkeys : (((insertionOrder list.rlps.length).map list.entry).map Prod.fst).Pairwise
      fun k k' => k < k' ∧ ¬ k <+: k' := by
    rw [map_map]
    refine (keys_sorted hlen).imp_of_mem fun {k k'} hk hk' hlt => ⟨hlt, fun hpre => ?_⟩
    rw [keys_prefix_free hlen hk hk' hpre] at hlt
    exact List.lt_irrefl _ hlt
  have hvals : ∀ kv ∈ (insertionOrder list.rlps.length).map list.entry, kv.2 ≠ [] := by
    intro kv hkv
    obtain ⟨i, hi, rfl⟩ := mem_map.1 hkv
    rw [mem_insertionOrder] at hi
    have hget : (list.entry i).2 = list.rlps[i] := by simp [DerivableList.entry, hi]
    exact hget ▸ hne _ (getElem_mem hi)
  obtain ⟨st, tr, hst, htr, hroot⟩ := StackTrie.run_hash db hkeys hvals
  refine ⟨StackTrie.hash keccak st, bind_eq_ok.2 ⟨st, hst, rfl⟩, bind_eq_ok.2 ⟨tr, ?_, ?_⟩⟩
  · rw [run, foldlM_map] at htr
    exact htr
  · rw [hroot]
    rfl

theorem deriveSha_stackTrie_three :
    let keccak : Bytes → Hash := fun b => .ofNat 256 b.length
    ∃ root, deriveSha ⟨[[1], [2], [3]], by decide⟩ (stackTrieHasher keccak) = .ok root ∧
      deriveSha ⟨[[1], [2], [3]], by decide⟩ (trieHasher keccak noNodes) = .ok root :=
  (deriveSha_stackTrie _ noNodes ⟨[[1], [2], [3]], by decide⟩ (by decide)).2.2.2

end Virbicoin.Core
