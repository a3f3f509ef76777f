import Virbicoin.Core.ForkId.Basic
import Virbicoin.Params.Compat

/-!
# What an accepted configuration does to the fork identifier

Over every genesis, two configurations announce the same checksums up to a height exactly when they
have the same fork numbers up to it (`newID_hash_agree_iff`).

`CheckCompatible` compares the forks of `guardedForks` field by field. It compares neither the
reward forks nor, fully, Petersburg, and no fork block from `2 ^ 64` on is ever active
(`uncheckedForks`).
-/

namespace Virbicoin.ForkId

open Virbicoin.Lib List

/-! ## Checksums over lists of forks -/

theorem checksumToBytes_injective : Function.Injective checksumToBytes := by
  intro x y h
  have hmod := bigEndian_eq h
  apply BitVec.eq_of_toNat_eq
  rw [Nat.mod_eq_of_lt, Nat.mod_eq_of_lt] at hmod
  · exact hmod
  · exact y.isLt
  · exact x.isLt

theorem foldl_checksumUpdate_xor (forks : List Nat) (x y : BitVec 32) :
    forks.foldl checksumUpdate x ^^^ forks.foldl checksumUpdate y =
      Crc32.advance^[8 * forks.length] (x ^^^ y) := by
  induction forks generalizing x y with
  | nil => rfl
  | cons fork forks ih =>
    rw [foldl_cons, foldl_cons, ih, checksumUpdate, checksumUpdate,
      Crc32.update_xor_update, bigEndian_length, ← Function.iterate_add_apply, length_cons,
      Nat.mul_succ]

theorem exists_append_fork_hash_ne (forks : List Nat) (fork : Nat) :
    ∃ genesis, checksumToBytes ((forks ++ [fork]).foldl checksumUpdate (genesisChecksum genesis)) ≠
      checksumToBytes (forks.foldl checksumUpdate (genesisChecksum genesis)) := by
  have hbase : Crc32.advance^[8] (genesisChecksum 0#256 ^^^ genesisChecksum 1#256) ≠
      genesisChecksum 0#256 ^^^ genesisChecksum 1#256 := by decide +kernel
  have hmoved : Crc32.advance^[(bigEndian 8 fork).length]
      (forks.foldl checksumUpdate (genesisChecksum 0#256) ^^^
        forks.foldl checksumUpdate (genesisChecksum 1#256)) ≠
      forks.foldl checksumUpdate (genesisChecksum 0#256) ^^^
        forks.foldl checksumUpdate (genesisChecksum 1#256) := by
    rw [foldl_checksumUpdate_xor, ← Function.iterate_add_apply, Nat.add_comm,
      Function.iterate_add_apply]
    exact (Crc32.advance_injective.iterate _).ne hbase
  rcases Crc32.update_ne_of_advance_ne hmoved with h | h
  · refine ⟨0#256, checksumToBytes_injective.ne ?_⟩
    rw [foldl_append]
    exact h
  refine ⟨1#256, checksumToBytes_injective.ne ?_⟩
  rw [foldl_append]
  exact h

/-! ## Equal checksums, equal forks -/

variable {c c' : ChainConfig} {height : Nat}

theorem filter_gatherForks_eq {p : Nat → Bool}
    (h : ∀ m, p m → 0 < m → (m ∈ forkNumbers c ↔ m ∈ forkNumbers c')) :
    (gatherForks c).filter p = (gatherForks c').filter p := by
  refine ((gatherForks_pairwise c).filter _).eq_of_mem_iff ((gatherForks_pairwise c').filter _)
    fun {m} => ?_
  simp only [mem_filter, mem_gatherForks]
  refine and_congr_left fun hp => and_congr_left fun h0 => h m hp (by omega)

theorem mem_of_hash_agree {m : Nat}
    (hbelow : ∀ k, k < m → 0 < k → (k ∈ forkNumbers c ↔ k ∈ forkNumbers c'))
    (hhash : ∀ genesis, (newID c genesis m).hash = (newID c' genesis m).hash) (hpos : 0 < m)
    (hm : m ∈ forkNumbers c) : m ∈ forkNumbers c' := by
  by_contra hnot
  have hbelow' : ∀ k, decide (k < m) → 0 < k → (k ∈ forkNumbers c ↔ k ∈ forkNumbers c') :=
    fun k hk => hbelow k (of_decide_eq_true hk)
  have hpassed : passedForks c m = (gatherForks c').filter (· < m) ++ [m] := by
    unfold passedForks
    rw [filter_le_eq_append (gatherForks_pairwise c), filter_gatherForks_eq hbelow',
      if_pos (mem_gatherForks.2 ⟨hm, by omega⟩)]
  have hpassed' : passedForks c' m = (gatherForks c').filter (· < m) := by
    unfold passedForks
    rw [filter_le_eq_append (gatherForks_pairwise c'),
      if_neg (fun h => hnot (mem_gatherForks.1 h).1), append_nil]
  obtain ⟨genesis, hne⟩ := exists_append_fork_hash_ne ((gatherForks c').filter (· < m)) m
  apply hne
  have := hhash genesis
  rw [newID_hash, newID_hash, hpassed, hpassed'] at this
  exact this

/-- **The announced checksums agree up to a height, over every genesis**, exactly when the fork
numbers up to the height do. -/
theorem newID_hash_agree_iff :
    (∀ genesis head, head ≤ height → (newID c genesis head).hash = (newID c' genesis head).hash) ↔
      ∀ m, 0 < m → m ≤ height → (m ∈ forkNumbers c ↔ m ∈ forkNumbers c') := by
  constructor
  · intro hhash m
    -- the forks below `m` agree by induction
    induction m using Nat.strong_induction_on with
    | _ m ih =>
      intro hpos hle
      have hbelow : ∀ k, k < m → 0 < k → (k ∈ forkNumbers c ↔ k ∈ forkNumbers c') :=
        fun k hk hk0 => ih k hk hk0 (by omega)
      constructor
      · exact mem_of_hash_agree hbelow (fun g => hhash g m hle) hpos
      exact mem_of_hash_agree (fun k hk hk0 => (hbelow k hk hk0).symm)
        (fun g => (hhash g m hle).symm) hpos
  intro hforks genesis head hhead
  have hpassed : passedForks c head = passedForks c' head :=
    filter_gatherForks_eq fun m hle hpos =>
      hforks m hpos (le_trans (of_decide_eq_true hle) hhead)
  rw [newID_hash, newID_hash, hpassed]

/-! ## The forks the compatibility check looks at -/

/-- The forks `checkCompatible` compares field by field. -/
def guardedForks (c : ChainConfig) : List (Option Int) :=
  [c.homesteadBlock, c.daoForkBlock, c.eip150Block, c.eip155Block, c.eip158Block, c.byzantiumBlock,
    c.constantinopleBlock, c.istanbulBlock, c.muirGlacierBlock, c.yoloV3Block, c.ewasmBlock]

theorem mem_forkBlocks {o : Option Int} :
    o ∈ forkBlocks c ↔ o ∈ guardedForks c ∨ o = c.petersburgBlock ∨ o ∈ c.rewardForks := by
  simp only [forkBlocks, guardedForks, ChainConfig.rewardForks, mem_cons, not_mem_nil, or_false]
  ac_nf

/-- The forks an accepted configuration can move although they have passed: the reward forks,
Petersburg, and the fork blocks from `2 ^ 64` on, of which `gatherForks` takes the low 64 bits. -/
def uncheckedForks (c : ChainConfig) : List Int :=
  (c.petersburgBlock :: c.rewardForks).filterMap id ++
    ((guardedForks c).filterMap id).filter (2 ^ 64 ≤ ·)

theorem mem_uncheckedForks {b : Int} : b ∈ uncheckedForks c ↔
      some b = c.petersburgBlock ∨ some b ∈ c.rewardForks ∨
        (some b ∈ guardedForks c ∧ 2 ^ 64 ≤ b) := by
  simp only [uncheckedForks, mem_append, mem_filterMap, mem_filter, id_eq,
    exists_eq_right, mem_cons, decide_eq_true_eq, or_assoc]

theorem some_mem_forkBlocks_of_unchecked {b : Int} (h : b ∈ uncheckedForks c) :
    some b ∈ forkBlocks c := by
  rw [mem_forkBlocks]
  rcases mem_uncheckedForks.1 h with h | h | h
  · exact .inr (.inl h)
  · exact .inr (.inr h)
  · exact .inl h.1

/-- Every unchecked fork of `c` that has passed at `head` is a fork of `c'`. -/
def UncheckedKept (c c' : ChainConfig) (head : Nat) : Prop :=
  ∀ b ∈ uncheckedForks c, 0 < uint64 b → uint64 b ≤ head → uint64 b ∈ forkNumbers c'

instance (c c' : ChainConfig) (head : Nat) : Decidable (UncheckedKept c c' head) :=
  inferInstanceAs (Decidable (∀ b ∈ uncheckedForks c, _))

/-- The guarded forks of two configurations, pairwise not in conflict at `head`. -/
def GuardedAgree (c c' : ChainConfig) (head : Int) : Prop :=
  List.Forall₂ (fun o o' => isForkIncompatible o o' head = false) (guardedForks c) (guardedForks c')

theorem guardedAgree_of_compatible {head : Int} (h : Compatible c c' head) :
    GuardedAgree c c' head :=
  .cons h.homestead <| .cons h.daoFork <| .cons h.eip150 <| .cons h.eip155 <| .cons h.eip158 <|
    .cons h.byzantium <| .cons h.constantinople <| .cons h.istanbul <| .cons h.muirGlacier <|
      .cons h.yoloV3 <| .cons h.ewasm .nil

theorem GuardedAgree.symm {head : Int} (h : GuardedAgree c c' head) : GuardedAgree c' c head := by
  refine h.flip.imp fun o o' hc => ?_
  rw [isForkIncompatible_eq_false] at hc ⊢
  exact hc.imp .symm .symm

theorem GuardedAgree.mem_of_isForked {head : Int} (h : GuardedAgree c c' head) {o : Option Int}
    (ho : o ∈ guardedForks c) (hf : isForked o head = true) :
    o ∈ guardedForks c' := by
  unfold GuardedAgree at h
  generalize guardedForks c = forks at h ho
  generalize guardedForks c' = forks' at h ⊢
  induction h with
  | nil => exact ho
  | cons hc _ ih =>
    rcases mem_cons.1 ho with rfl | ho
    · rcases isForkIncompatible_eq_false.1 hc with rfl | ⟨hnot, -⟩
      · exact mem_cons_self
      rw [hf] at hnot
      cases hnot
    · exact mem_cons_of_mem _ (ih ho)

theorem mem_forkNumbers_of_kept {m : Nat} (hagree : GuardedAgree c c' height)
    (hkept : UncheckedKept c c' height) (hpos : 0 < m) (hle : m ≤ height) (hm : m ∈ forkNumbers c) :
    m ∈ forkNumbers c' := by
  obtain ⟨b, hb, rfl⟩ := mem_forkNumbers.1 hm
  by_cases hu : b ∈ uncheckedForks c
  · exact hkept b hu hpos hle
  rw [mem_uncheckedForks] at hu
  have hguarded : some b ∈ guardedForks c := by
    rcases mem_forkBlocks.1 hb with h | h | h
    · exact h
    · exact absurd (.inl h) hu
    · exact absurd (.inr (.inl h)) hu
  have hlt : b < 2 ^ 64 := by
    by_contra hge
    exact hu (.inr (.inr ⟨hguarded, not_lt.1 hge⟩))
  have hforked : isForked (some b) height = true := by
    rw [isForked_some, decide_eq_true_eq]
    unfold uint64 at hle
    omega
  have hsame := hagree.mem_of_isForked hguarded hforked
  exact mem_forkNumbers.2 ⟨b, mem_forkBlocks.2 (.inl hsame), rfl⟩

theorem uncheckedKept_of_agree
    (h : ∀ m, 0 < m → m ≤ height → m ∈ forkNumbers c → m ∈ forkNumbers c') :
    UncheckedKept c c' height := fun b hb hpos hle =>
  h _ hpos hle (mem_forkNumbers.2 ⟨b, some_mem_forkBlocks_of_unchecked hb, rfl⟩)

/-- **What a configuration accepted at a height changes of the announced checksums**: none up to the
height, over any genesis, exactly when each configuration has all the unchecked forks the other has
passed there. -/
theorem CheckCompatible_newID_hash_iff {stored new : ChainConfig}
    (h : stored.CheckCompatible new height = none) :
    (∀ genesis head, head ≤ height →
        (newID stored genesis head).hash = (newID new genesis head).hash) ↔
      UncheckedKept stored new height ∧ UncheckedKept new stored height := by
  have hagree := guardedAgree_of_compatible (ChainConfig.CheckCompatible_eq_none_iff.1 h)
  rw [newID_hash_agree_iff]
  constructor
  · intro hforks
    refine ⟨uncheckedKept_of_agree fun m hpos hle => (hforks m hpos hle).1,
      uncheckedKept_of_agree fun m hpos hle => (hforks m hpos hle).2⟩
  intro hkept m hpos hle
  refine ⟨mem_forkNumbers_of_kept hagree hkept.1 hpos hle,
    mem_forkNumbers_of_kept hagree.symm hkept.2 hpos hle⟩

theorem CheckCompatible_newID_hash_before_quiche :
    (UncheckedKept mainnetChainConfig
        { mainnetChainConfig with quicheBlock := some 4300000 } 100 ∧
      UncheckedKept { mainnetChainConfig with quicheBlock := some 4300000 }
        mainnetChainConfig 100) ∧
    ∀ genesis head, head ≤ 100 → (newID mainnetChainConfig genesis head).hash =
      (newID { mainnetChainConfig with quicheBlock := some 4300000 } genesis head).hash := by
  have hkept : UncheckedKept mainnetChainConfig
        { mainnetChainConfig with quicheBlock := some 4300000 } 100 ∧
      UncheckedKept { mainnetChainConfig with quicheBlock := some 4300000 }
        mainnetChainConfig 100 := by decide
  exact ⟨hkept, (CheckCompatible_newID_hash_iff
    (ChainConfig.CheckCompatible_eq_none.2 (by decide))).2 hkept⟩

/-- At height 5000000 the mainnet configuration still lets its first reward fork, passed at 4200000,
move to 4300000: at head 4200000 the announced checksums then differ. -/
theorem CheckCompatible_newID_hash_quiche_moved :
    mainnetChainConfig.CheckCompatible
      { mainnetChainConfig with quicheBlock := some 4300000 } 5000000 = none ∧
    (newID mainnetChainConfig mainnetGenesisHash 4200000).hash ≠
      (newID { mainnetChainConfig with quicheBlock := some 4300000 }
        mainnetGenesisHash 4200000).hash := by
  refine ⟨ChainConfig.CheckCompatible_eq_none.2 (by decide), ?_⟩
  decide +kernel

end Virbicoin.ForkId
