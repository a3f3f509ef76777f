import Virbicoin.Core.ForkId.Basic

/-!
# Which announcements of the same chain a filter accepts

Two nodes with one configuration and genesis: the local head is `h1`, the remote head `h2`. The
filter works at the position `i` of the first fork not below `h1`, the announcement carries the
checksum at the position `j` of the first fork above `h2`. When the checksums are distinct the
filter only rejects at `i = j`, when the fork it stands before is `h1` itself: `newFilter` does not
count a fork at the head as passed where `newID` does.
-/

namespace Virbicoin.ForkId

open Virbicoin.Lib List

/-! ## The loop over the forks -/

variable {sums : List (List (BitVec 8))}

theorem filterLoop_eq {forks : List Nat} {head : Nat} {id : ID} {rest : List Nat}
    (hsorted : rest.Pairwise (· ≤ ·)) (hlast : ∃ f ∈ rest, head ≤ f) (i : Nat) :
    filterLoop sums forks head id i rest =
      filterRules sums forks head id (i + (rest.filter (· < head)).length) := by
  induction rest generalizing i with
  | nil =>
    obtain ⟨f, hf, -⟩ := hlast
    cases hf
  | cons fork rest ih =>
    obtain ⟨hfork, hrest⟩ := pairwise_cons.1 hsorted
    by_cases h : fork < head
    · have hlast' : ∃ f ∈ rest, head ≤ f := by
        obtain ⟨f, hf, hle⟩ := hlast
        rcases mem_cons.1 hf with rfl | hf
        · omega
        · exact ⟨f, hf, hle⟩
      rw [filterLoop, if_pos h, ih hrest hlast', filter_cons_of_pos (by simpa using h),
        length_cons, add_right_comm, add_assoc]
    have hnil : rest.filter (· < head) = [] := by
      rw [filter_eq_nil_iff]
      intro y hy hlt
      have := hfork y hy
      have : y < head := by simpa using hlt
      omega
    rw [filterLoop, if_neg h, filter_cons_of_neg (by simpa using h), hnil]
    rfl

theorem filterLoop_eq_ok {forks : List Nat} {head : Nat} {id : ID} {rest : List Nat}
    (h : ∀ f ∈ rest, f < head) (i : Nat) :
    filterLoop sums forks head id i rest = .ok () := by
  induction rest generalizing i with
  | nil => rfl
  | cons fork rest ih =>
    rw [filterLoop, if_pos (h fork mem_cons_self)]
    exact ih (fun f hf => h f (mem_cons_of_mem _ hf)) _

/-! ## The rules at a known position -/

theorem find?_range_eq (i j : Nat) :
    (range i).find? (fun k => decide (k = j)) = if j < i then some j else none := by
  split
  · rename_i h
    rw [find?_range_eq_some]
    refine ⟨by simp, mem_range.2 h, fun k hk => ?_⟩
    simp only [Bool.not_eq_true', decide_eq_false_iff_not]
    omega
  rename_i h
  rw [find?_range_eq_none]
  intro k hk
  simp only [Bool.not_eq_true', decide_eq_false_iff_not]
  omega

theorem any_range'_eq {i j n : Nat} (hj : j < n) :
    ((range' (i + 1) (n - (i + 1))).any fun k => decide (k = j)) = decide (i < j) := by
  rw [Bool.eq_iff_iff, any_eq_true]
  simp only [decide_eq_true_eq]
  constructor
  · rintro ⟨k, hk, rfl⟩
    have := mem_range'_1.1 hk
    omega
  intro hij
  exact ⟨j, mem_range'_1.2 (by omega), rfl⟩

theorem filterRules_of_unique {forks : List Nat} {head : Nat} {id : ID} {i j : Nat}
    (hj : j < sums.length) (huniq : ∀ k, sums[k]? = some id.hash ↔ k = j) :
    filterRules sums forks head id i = if i = j then
        if 0 < id.next ∧ id.next ≤ head then .error .localIncompatibleOrStale else .ok ()
      else if j < i then
        if forks[j]? ≠ some id.next then .error .remoteStale else .ok ()
      else .ok () := by
  unfold filterRules
  simp only [huniq, find?_range_eq, any_range'_eq hj]
  by_cases hij : i = j
  · rw [if_pos hij, if_pos hij]
  rw [if_neg hij, if_neg hij]
  by_cases hlt : j < i
  · rw [if_pos hlt, if_pos hlt]
  rw [if_neg hlt, if_neg hlt]
  have : i < j := by omega
  simp [this]

/-! ## Filter and announcement of one chain -/

section OneChain

variable {c : ChainConfig} {genesis : Hash}

@[simp] theorem forkSums_length : (forkSums c genesis).length = (gatherForks c).length + 1 := by
  simp [forkSums]

theorem passedForks_length_le (head : Nat) : (passedForks c head).length ≤ (gatherForks c).length :=
  length_filter_le _ _

theorem passedForks_lt_forkSums (head : Nat) :
    (passedForks c head).length < (forkSums c genesis).length := by
  rw [forkSums_length]
  exact Nat.lt_succ_of_le (passedForks_length_le head)

theorem forkSums_passed (head : Nat) :
    (forkSums c genesis)[(passedForks c head).length]? = some (newID c genesis head).hash := by
  have htake : passedForks c head = (gatherForks c).take (passedForks c head).length :=
    filter_eq_take (gatherForks_pairwise c) (le_downward head)
  unfold forkSums
  rw [getElem?_map, getElem?_scanl, if_pos (passedForks_length_le head), ← htake, newID_hash]
  rfl

theorem forkSums_unique (hnd : (forkSums c genesis).Nodup) (head k : Nat) :
    (forkSums c genesis)[k]? = some (newID c genesis head).hash ↔
      k = (passedForks c head).length := by
  rw [← forkSums_passed, eq_comm, getElem?_inj (passedForks_lt_forkSums head) hnd]
  exact eq_comm

theorem sentry_pairwise : (gatherForks c ++ [maxUint64]).Pairwise (· ≤ ·) := by
  rw [pairwise_append]
  refine ⟨(gatherForks_pairwise c).imp le_of_lt, pairwise_singleton _ _, ?_⟩
  intro x hx y hy
  rw [mem_singleton.1 hy]
  exact gatherForks_le_max hx

/-- The local head is the first fork the remote head has not passed. -/
def AtNextFork (c : ChainConfig) (h1 h2 : Nat) : Prop :=
  h1 ∈ gatherForks c ∧ h2 < h1 ∧ ∀ f ∈ gatherForks c, f < h1 → f ≤ h2

instance (c : ChainConfig) (h1 h2 : Nat) : Decidable (AtNextFork c h1 h2) :=
  inferInstanceAs (Decidable (_ ∧ _))

theorem atNextFork_iff {h1 h2 : Nat} : AtNextFork c h1 h2 ↔
      ((gatherForks c).filter (· < h1)).length = (passedForks c h2).length ∧
        (gatherForks c)[(passedForks c h2).length]? = some h1 := by
  have hsorted := gatherForks_pairwise c
  constructor
  · rintro ⟨hmem, hlt, hbelow⟩
    have hsame : (gatherForks c).filter (· < h1) = passedForks c h2 := by
      apply filter_congr
      intro f hf
      simp only [decide_eq_decide]
      constructor
      · exact hbelow f hf
      · intro hle; omega
    rw [← hsame]
    exact ⟨rfl, getElem?_filter_lt_length hsorted hmem⟩
  rintro ⟨hlen, hget⟩
  have hout := not_of_getElem?_filter_length hsorted (le_downward h2) hget
  have hsame : (gatherForks c).filter (· < h1) = passedForks c h2 := by
    rw [filter_eq_take hsorted (lt_downward h1), hlen]
    exact (filter_eq_take hsorted (le_downward h2)).symm
  refine ⟨mem_of_getElem? hget, by simpa using hout, fun f hf hlt => ?_⟩
  have : f ∈ passedForks c h2 := by
    rw [← hsame]
    exact mem_filter.2 ⟨hf, by simpa using hlt⟩
  simpa using (mem_filter.1 this).2

theorem filterRules_newID_iff (hnd : (forkSums c genesis).Nodup) (h1 h2 : Nat) :
    filterRules (forkSums c genesis) (gatherForks c ++ [maxUint64]) h1 (newID c genesis h2)
        ((gatherForks c).filter (· < h1)).length = .ok () ↔ ¬ AtNextFork c h1 h2 := by
  rw [filterRules_of_unique (passedForks_lt_forkSums h2) (forkSums_unique hnd h2),
    atNextFork_iff, newID_next]
  have hout : ∀ x, (gatherForks c)[((gatherForks c).filter (· < h1)).length]? = some x →
      h1 ≤ x := by
    intro x hx
    simpa using not_of_getElem?_filter_length (gatherForks_pairwise c) (lt_downward h1) hx
  have hi : ((gatherForks c).filter (· < h1)).length ≤ (gatherForks c).length :=
    length_filter_le _ _
  generalize ((gatherForks c).filter (· < h1)).length = i at hout hi
  generalize (passedForks c h2).length = j
  by_cases hij : i = j
  · -- rule 1: the next fork is at the local head, or the filter accepts
    subst hij
    rw [if_pos rfl]
    cases hget : (gatherForks c)[i]? with
    | none => simp
    | some x =>
      have hx := hout x hget
      have hpos := pos_of_ne_zero (mem_gatherForks.1 (mem_of_getElem? hget)).2
      simp only [Option.getD_some, Option.some.injEq, true_and]
      split
      · simp only [reduceCtorEq, false_iff, not_not]
        omega
      · simp only [true_iff]
        omega
  rw [if_neg hij]
  have hne : ¬ (i = j ∧ (gatherForks c)[j]? = some h1) := fun h => hij h.1
  by_cases hlt : j < i
  · -- rule 2: the remote's next fork is the fork at its position
    have hjlen : j < (gatherForks c).length := by omega
    rw [if_pos hlt, if_neg (by
      rw [getElem?_append_left hjlen, getElem?_eq_getElem hjlen]
      simp)]
    simp [hne]
  rw [if_neg hlt]
  simp [hne]

/-- **A filter accepts the announcement of its own chain** exactly when the local head is not the
first fork above the remote head. -/
theorem newFilter_newID_iff (hnd : (forkSums c genesis).Nodup) (h1 h2 : Nat) :
    newFilter c genesis h1 (newID c genesis h2) = .ok () ↔ ¬ AtNextFork c h1 h2 := by
  unfold newFilter
  simp only
  by_cases hmax : h1 ≤ maxUint64
  · have hfilter : (gatherForks c ++ [maxUint64]).filter (· < h1) =
        (gatherForks c).filter (· < h1) := by
      rw [filter_append, filter_cons_of_neg (by simpa using hmax), filter_nil, append_nil]
    rw [filterLoop_eq sentry_pairwise ⟨maxUint64, by simp, hmax⟩, hfilter, zero_add]
    exact filterRules_newID_iff hnd h1 h2
  -- a head beyond the sentry is never at a fork
  have hall : ∀ f ∈ gatherForks c ++ [maxUint64], f < h1 := by
    intro f hf
    have hle : f ≤ maxUint64 := by
      rcases mem_append.1 hf with hf | hf
      · exact gatherForks_le_max hf
      · rw [mem_singleton.1 hf]
    omega
  rw [filterLoop_eq_ok hall]
  simp only [true_iff]
  rintro ⟨hmem, -, -⟩
  exact hmax (gatherForks_le_max hmem)

end OneChain

/-! ## The main network -/

theorem gatherForks_mainnet : gatherForks mainnetChainConfig =
    [4200000, 6300000, 8400000, 10500000, 12600000, 14700000, 16800000, 100000000, 500000000] := by
  decide +kernel

theorem mainnet_sums :
    (gatherForks mainnetChainConfig).scanl checksumUpdate (genesisChecksum mainnetGenesisHash) =
      [0xf5da9347#32, 0xb1f5e1df#32, 0xfeca00ef#32, 0x4d19c844#32, 0x2c145385#32, 0x38365c02#32,
        0xcc3f4fb0#32, 0x0b9b3d84#32, 0xb822c4ee#32, 0x8277a1f9#32] := by
  have s0 : genesisChecksum mainnetGenesisHash = 0xf5da9347#32 := by decide +kernel
  have s1 : checksumUpdate 0xf5da9347#32 4200000 = 0xb1f5e1df#32 := by decide +kernel
  have s2 : checksumUpdate 0xb1f5e1df#32 6300000 = 0xfeca00ef#32 := by decide +kernel
  have s3 : checksumUpdate 0xfeca00ef#32 8400000 = 0x4d19c844#32 := by decide +kernel
  have s4 : checksumUpdate 0x4d19c844#32 10500000 = 0x2c145385#32 := by decide +kernel
  have s5 : checksumUpdate 0x2c145385#32 12600000 = 0x38365c02#32 := by decide +kernel
  have s6 : checksumUpdate 0x38365c02#32 14700000 = 0xcc3f4fb0#32 := by decide +kernel
  have s7 : checksumUpdate 0xcc3f4fb0#32 16800000 = 0x0b9b3d84#32 := by decide +kernel
  have s8 : checksumUpdate 0x0b9b3d84#32 100000000 = 0xb822c4ee#32 := by decide +kernel
  have s9 : checksumUpdate 0xb822c4ee#32 500000000 = 0x8277a1f9#32 := by decide +kernel
  rw [gatherForks_mainnet, s0]
  simp only [scanl_cons, scanl_nil, s1, s2, s3, s4, s5, s6, s7, s8, s9]

theorem mainnet_forkSums_nodup : (forkSums mainnetChainConfig mainnetGenesisHash).Nodup := by
  unfold forkSums
  rw [mainnet_sums]
  decide +kernel

theorem newFilter_newID_mainnet :
    (forkSums mainnetChainConfig mainnetGenesisHash).Nodup ∧
      newFilter mainnetChainConfig mainnetGenesisHash 4200001
        (newID mainnetChainConfig mainnetGenesisHash 4200000) = .ok () :=
  ⟨mainnet_forkSums_nodup,
    (newFilter_newID_iff mainnet_forkSums_nodup 4200001 4200000).2 (by decide +kernel)⟩

/-- A main network node at the Quiche fork rejects one that is a block behind. -/
theorem newFilter_newID_mainnet_at_fork :
    (forkSums mainnetChainConfig mainnetGenesisHash).Nodup ∧
      newFilter mainnetChainConfig mainnetGenesisHash 4200000
        (newID mainnetChainConfig mainnetGenesisHash 4199999) =
          .error .localIncompatibleOrStale := by
  refine ⟨mainnet_forkSums_nodup, ?_⟩
  have hid : newID mainnetChainConfig mainnetGenesisHash 4199999 =
      { hash := checksumToBytes 0xf5da9347#32, next := 4200000 } := by
    have s0 : genesisChecksum mainnetGenesisHash = 0xf5da9347#32 := by decide +kernel
    unfold newID
    rw [gatherForks_mainnet, s0]
    rfl
  unfold newFilter forkSums
  rw [hid, mainnet_sums, gatherForks_mainnet]
  decide +kernel

end Virbicoin.ForkId
