import Mathlib.Data.List.Basic
import Virbicoin.Core.Types

/-!
# The hashes of ancestors

`GetHashFn` of `core/evm.go`, which serves `BLOCKHASH`. The closure keeps the parent hashes it has
walked over in a cache and goes on from the last one. The cache is a beginning of the list of all
ancestors (`Recorded`) whatever was asked before, so an answer does not depend on earlier questions.
-/

namespace Virbicoin.Core

open List

/-- Headers are found under their number. -/
structure ChainContext where
  getHeader : Hash → Nat → Option Header
  number_eq : ∀ hash number header, getHeader hash number = some header → header.numberU64 = number

variable (ref : Header) (chain : ChainContext)

/-- The loop of the closure, with the state of the cache. The fuel bounds the number of rounds. -/
def extendCache (n : Nat) : Nat → List Hash → Hash → Nat → Option (Hash × List Hash)
  | 0, _, _, _ => none
  | fuel + 1, cache, lastKnownHash, lastKnownNumber =>
    match chain.getHeader lastKnownHash lastKnownNumber with
    | none => some (0, cache)
    | some header =>
      let cache := cache ++ [header.parentHash]
      let lastKnownNumber := subUint64 header.numberU64 1
      if n = lastKnownNumber then some (header.parentHash, cache)
      else extendCache n fuel cache header.parentHash lastKnownNumber

def getHash (cache : List Hash) (n : Nat) : Option (Hash × List Hash) :=
  let cache := if cache.length = 0 then [ref.parentHash] else cache
  match cache[subUint64 (subUint64 ref.numberU64 n) 1]? with
  | some hash => some (hash, cache)
  | none => extendCache chain n ref.numberU64 cache (cache.getLastD 0)
      (subUint64 ref.numberU64 cache.length)

def getHashes : List Hash → List Nat → Option (List Hash)
  | _, [] => some []
  | cache, n :: ns => do
    let (hash, cache) ← getHash ref chain cache n
    let hashes ← getHashes cache ns
    return hash :: hashes

/-- The hash of the ancestor `k + 1` generations back, if the headers in between are available. -/
def ancestorHash : Nat → Option Hash
  | 0 => some ref.parentHash
  | k + 1 => (ancestorHash k).bind fun hash =>
      (chain.getHeader hash (ref.numberU64 - (k + 1))).map Header.parentHash

def answer (n : Nat) : Hash := (ancestorHash ref chain (ref.numberU64 - n - 1)).getD 0

structure Recorded (cache : List Hash) : Prop where
  entries : cache.map some = (range cache.length).map (ancestorHash ref chain)
  length_le : cache.length ≤ ref.numberU64

variable {ref chain} {cache : List Hash} {n : Nat}

theorem ancestorHash_none {k : Nat} (h : ancestorHash ref chain k = none) (j : Nat) :
    ancestorHash ref chain (k + j) = none := by
  induction j with
  | zero => exact h
  | succ j ih => rw [← Nat.add_assoc, ancestorHash, ih, Option.bind_none]

section

variable (h : Recorded ref chain cache)

include h

theorem Recorded.entry {i : Nat} {hash : Hash}
    (hi : cache[i]? = some hash) : ancestorHash ref chain i = some hash := by
  have hentry := congrArg (·[i]?) h.entries
  obtain ⟨hlt, -⟩ := List.getElem?_eq_some_iff.1 hi
  simpa [hi, getElem?_range hlt] using hentry.symm

theorem Recorded.last (hne : cache ≠ []) :
    ancestorHash ref chain cache.length = (chain.getHeader (cache.getLastD 0)
      (ref.numberU64 - cache.length)).map Header.parentHash := by
  have hpos := length_pos_iff.2 hne
  have hlast : cache[cache.length - 1]? = some (cache.getLastD 0) := by
    rw [← getLast?_eq_getElem?, getLast?_eq_some_getLast hne, getLastD_eq_getLast?,
      getLast?_eq_some_getLast hne, Option.getD_some]
  obtain ⟨k, hk⟩ := Nat.exists_eq_add_of_lt hpos
  rw [Nat.zero_add] at hk
  rw [hk, Nat.add_sub_cancel] at hlast
  rw [hk, ancestorHash, h.entry hlast, Option.bind_some]

theorem extendCache_spec (hne : cache ≠ []) (hn : n + cache.length < ref.numberU64) {fuel : Nat}
    (hfuel : ref.numberU64 ≤ fuel + cache.length + n) :
    ∃ cache', extendCache chain n fuel cache (cache.getLastD 0)
      (ref.numberU64 - cache.length) = some (answer ref chain n, cache') ∧
      Recorded ref chain cache' := by
  induction fuel generalizing cache with
  | zero => omega
  | succ fuel ih =>
    have hlt := ref.numberU64_lt
    have hlast := h.last hne
    rw [extendCache]
    cases hget : chain.getHeader (cache.getLastD 0) (ref.numberU64 - cache.length) with
    | none =>
      -- the walk ends before `n`, and so does every later one
      rw [hget] at hlast
      refine ⟨cache, ?_, h⟩
      have hnone := ancestorHash_none hlast (ref.numberU64 - n - 1 - cache.length)
      rw [Nat.add_sub_cancel' (by omega)] at hnone
      rw [answer, hnone]
      rfl
    | some header =>
      rw [hget, Option.map_some] at hlast
      have hnumber := chain.number_eq _ _ _ hget
      have hrecorded : Recorded ref chain (cache ++ [header.parentHash]) := by
        refine ⟨?_, by simp; omega⟩
        simp [range_succ, h.entries, hlast]
      dsimp only
      rw [hnumber, subUint64_of_le (by omega) (by omega)]
      split
      · rename_i heq
        refine ⟨_, ?_, hrecorded⟩
        rw [answer, show ref.numberU64 - n - 1 = cache.length by omega, hlast]
        rfl
      have hrec := ih hrecorded (by simp) (by simp; omega) (by simp; omega)
      rwa [getLastD_concat, length_append, length_singleton, ← Nat.sub_sub] at hrec

theorem getHash_spec (hn : n < ref.numberU64) :
    ∃ cache', getHash ref chain cache n = some (answer ref chain n, cache') ∧
      Recorded ref chain cache' := by
  have hlt := ref.numberU64_lt
  obtain ⟨cache1, hcache1, hrecorded, hne⟩ : ∃ cache1,
      (if cache.length = 0 then [ref.parentHash] else cache) = cache1 ∧
      Recorded ref chain cache1 ∧ cache1 ≠ [] := by
    split
    · exact ⟨_, rfl, ⟨rfl, by simp; omega⟩, by simp⟩
    rename_i hne
    exact ⟨_, rfl, h, fun hnil => hne (by rw [hnil]; rfl)⟩
  have hidx : subUint64 (subUint64 ref.numberU64 n) 1 = ref.numberU64 - n - 1 := by
    rw [subUint64_of_le hlt (by omega), subUint64_of_le (by omega) (by omega)]
  unfold getHash
  dsimp only
  rw [hcache1, hidx]
  cases hget : cache1[ref.numberU64 - n - 1]? with
  | some hash =>
    refine ⟨cache1, ?_, hrecorded⟩
    rw [answer, hrecorded.entry hget]
    rfl
  | none =>
    have hlen := getElem?_eq_none_iff.1 hget
    rw [subUint64_of_le hlt hrecorded.length_le]
    have hpos := length_pos_iff.2 hne
    exact extendCache_spec hrecorded hne (by omega) (by omega)

end

/-- **Answers do not depend on earlier questions.** Each call returns the hash of the ancestor with
the number asked for, or zero if a header on the way to it is unavailable. -/
theorem getHashes_eq (ref : Header) (chain : ChainContext) {ns : List Nat}
    (hns : ∀ n ∈ ns, n < ref.numberU64) :
    getHashes ref chain [] ns = some (ns.map (answer ref chain)) := by
  suffices h : ∀ cache, Recorded ref chain cache →
      getHashes ref chain cache ns = some (ns.map (answer ref chain)) from
    h [] ⟨rfl, Nat.zero_le _⟩
  induction ns with
  | nil => exact fun _ _ => rfl
  | cons n ns ih =>
    intro cache hcache
    obtain ⟨cache', heq, hcache'⟩ := getHash_spec hcache (hns n mem_cons_self)
    have hrest := ih (fun m hm => hns m (mem_cons_of_mem _ hm)) cache' hcache'
    rw [getHashes, heq]
    simp [hrest]

/-- Block 3 over headers that carry their number as hash, of which header 1 is missing. -/
theorem getHashes_missing_header :
    let header : Nat → Header := fun number => { (default : Header) with
      parentHash := .ofNat 256 number, number }
    let chain : ChainContext := {
      getHeader := fun _ number => if number = 2 then some (header 2) else none
      number_eq := by
        intro _ number _ h
        split at h <;> cases h
        subst number
        rfl }
    getHashes (header 3) chain [] [0, 1, 2, 1] = some [0, 2, 3, 2] := by
  intro header chain
  exact getHashes_eq (header 3) chain (by decide)

end Virbicoin.Core
