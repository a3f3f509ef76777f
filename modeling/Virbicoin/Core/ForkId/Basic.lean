import Virbicoin.Lib.BigEndian
import Virbicoin.Lib.Crc32
import Virbicoin.Lib.ExchangeSort
import Virbicoin.Lib.Run
import Virbicoin.Params.Config

/-!
# Fork identifiers

`core/forkid/forkid.go`. A node announces the checksum of its genesis hash and of the fork blocks
its head has passed, together with the next fork block (`newID`). A filter built from the local
configuration, genesis and head accepts or rejects the announcement of a remote node (`newFilter`).
-/

namespace Virbicoin.ForkId

open Virbicoin.Lib

/-- The fork blocks of a configuration: the fields of type `*big.Int` whose name ends in `Block`,
in the order of the struct. -/
def forkBlocks (c : ChainConfig) : List (Option Int) :=
  [c.homesteadBlock, c.daoForkBlock, c.eip150Block, c.eip155Block, c.eip158Block, c.byzantiumBlock,
    c.constantinopleBlock, c.petersburgBlock, c.istanbulBlock, c.muirGlacierBlock, c.yoloV3Block,
    c.ewasmBlock, c.quicheBlock, c.micheBlock, c.ruskBlock, c.celestiaBlock, c.mafuyuBlock,
    c.kipfelBlock, c.luminaBlock]

def forkNumbers (c : ChainConfig) : List Nat := (forkBlocks c).filterMap (·.map uint64)

def gatherForks (config : ChainConfig) : List Nat :=
  let forks := (exchangeSort (forkNumbers config)).destutter (· ≠ ·)
  match forks with
  | 0 :: rest => rest
  | forks => forks

structure ID where
  hash : List (BitVec 8)
  next : Nat
deriving DecidableEq

def checksumUpdate (hash : BitVec 32) (fork : Nat) : BitVec 32 :=
  Crc32.update hash (bigEndian 8 fork)

def checksumToBytes (hash : BitVec 32) : List (BitVec 8) := bigEndian 4 hash.toNat

/-- `crc32.ChecksumIEEE(genesis[:])` -/
def genesisChecksum (genesis : Hash) : BitVec 32 := Crc32.checksum (bigEndian 32 genesis.toNat)

/-- The Ropsten genesis, and its first fork at block 10, as in `TestCreation`. -/
example : genesisChecksum
      0x41941023680923e0fe4d74a34bdac8141f2540e3ae90623718e47d66d1ca4a2d#256 = 0x30c7ddbc#32 ∧
    checksumUpdate 0x30c7ddbc#32 10 = 0x63760190#32 := by
  decide +kernel

def newIDLoop (head : Nat) : BitVec 32 → List Nat → BitVec 32 × Nat
  | hash, [] => (hash, 0)
  | hash, fork :: forks =>
    if fork ≤ head then newIDLoop head (checksumUpdate hash fork) forks else (hash, fork)

def newID (config : ChainConfig) (genesis : Hash) (head : Nat) : ID :=
  let r := newIDLoop head (genesisChecksum genesis) (gatherForks config)
  { hash := checksumToBytes r.1, next := r.2 }

inductive FilterError where
  /-- `ErrRemoteStale`: "remote needs update" -/
  | remoteStale
  /-- `ErrLocalIncompatibleOrStale`: "local incompatible or needs update" -/
  | localIncompatibleOrStale
deriving DecidableEq

def forkSums (config : ChainConfig) (genesis : Hash) : List (List (BitVec 8)) :=
  ((gatherForks config).scanl checksumUpdate (genesisChecksum genesis)).map checksumToBytes

def filterRules (sums : List (List (BitVec 8))) (forks : List Nat) (head : Nat) (id : ID)
    (i : Nat) : Except FilterError Unit :=
  if sums[i]? = some id.hash then
    -- rule 1: same checksum; reject if a fork announced by the remote has passed here
    if 0 < id.next ∧ id.next ≤ head then .error .localIncompatibleOrStale else .ok ()
  else
    -- rule 2: the remote is behind; its next fork has to be ours
    match (List.range i).find? fun j => sums[j]? = some id.hash with
    | some j => if forks[j]? ≠ some id.next then .error .remoteStale else .ok ()
    | none =>
      -- rule 3: the remote is ahead
      if (List.range' (i + 1) (sums.length - (i + 1))).any fun j => sums[j]? = some id.hash then
        .ok ()
      else .error .localIncompatibleOrStale

/-- The loop over the forks; past the last one the source logs an error and accepts. -/
def filterLoop (sums : List (List (BitVec 8))) (forks : List Nat) (head : Nat) (id : ID) :
    Nat → List Nat → Except FilterError Unit
  | _, [] => .ok ()
  | i, fork :: rest =>
    if fork < head then filterLoop sums forks head id (i + 1) rest
    else filterRules sums forks head id i

/-- The filter of `newFilter(config, genesis, headfn)` at a time where `headfn()` is `head`. -/
def newFilter (config : ChainConfig) (genesis : Hash) (head : Nat) (id : ID) :
    Except FilterError Unit :=
  let forks := gatherForks config ++ [maxUint64]
  filterLoop (forkSums config genesis) forks head id 0 forks

/-! ## The gathered forks -/

variable {c : ChainConfig}

theorem mem_forkNumbers {m : Nat} :
    m ∈ forkNumbers c ↔ ∃ b, some b ∈ forkBlocks c ∧ uint64 b = m := by
  unfold forkNumbers
  simp only [List.mem_filterMap, Option.map_eq_some_iff]
  constructor
  · rintro ⟨o, ho, b, rfl, hm⟩
    exact ⟨b, ho, hm⟩
  · rintro ⟨b, hb, hm⟩
    exact ⟨some b, hb, b, rfl, hm⟩

theorem gatherForks_spec :
    (gatherForks c).Pairwise (· < ·) ∧ ∀ m, m ∈ gatherForks c ↔ m ∈ forkNumbers c ∧ m ≠ 0 := by
  have hsorted := exchangeSort_pairwise (forkNumbers c)
  have hlt := destutter_ne_pairwise_lt hsorted
  have hmem : ∀ m, m ∈ (exchangeSort (forkNumbers c)).destutter (· ≠ ·) ↔ m ∈ forkNumbers c :=
    fun m => (mem_destutter_ne hsorted).trans exchangeSort_perm.mem_iff
  unfold gatherForks
  generalize (exchangeSort (forkNumbers c)).destutter (· ≠ ·) = forks at hlt hmem
  -- a fork of block 0 comes first, and only it is dropped
  match forks, hlt, hmem with
  | [], hlt, hmem =>
    refine ⟨hlt, fun m => ?_⟩
    rw [← hmem m]
    simp
  | 0 :: rest, hlt, hmem =>
    obtain ⟨hpos, hrest⟩ := List.pairwise_cons.1 hlt
    refine ⟨hrest, fun m => ?_⟩
    rw [← hmem m, List.mem_cons]
    constructor
    · intro hm
      exact ⟨.inr hm, (hpos m hm).ne'⟩
    rintro ⟨rfl | hm, h0⟩
    · exact absurd rfl h0
    · exact hm
  | (k + 1) :: rest, hlt, hmem =>
    obtain ⟨hpos, -⟩ := List.pairwise_cons.1 hlt
    refine ⟨hlt, fun m => ?_⟩
    rw [← hmem m]
    constructor
    · intro hm
      refine ⟨hm, ?_⟩
      rcases List.mem_cons.1 hm with rfl | hm
      · exact Nat.succ_ne_zero k
      have := hpos m hm
      omega
    · exact And.left

theorem gatherForks_pairwise (c : ChainConfig) : (gatherForks c).Pairwise (· < ·) :=
  gatherForks_spec.1

theorem mem_gatherForks {m : Nat} : m ∈ gatherForks c ↔ m ∈ forkNumbers c ∧ m ≠ 0 :=
  gatherForks_spec.2 m

theorem gatherForks_le_max {m : Nat} (h : m ∈ gatherForks c) : m ≤ maxUint64 := by
  obtain ⟨b, -, rfl⟩ := mem_forkNumbers.1 (mem_gatherForks.1 h).1
  have := uint64_lt b
  unfold maxUint64
  omega

/-- **The gathered forks** are in strictly increasing order, and are the block numbers of the
configuration other than zero. A negative block, which is no block number, counts by its amount. -/
theorem gatherForks_normalises (c : ChainConfig) (h : ∀ o ∈ forkBlocks c, ∀ b ∈ o, b < 2 ^ 64) :
    (gatherForks c).Pairwise (· < ·) ∧ ∀ m : Nat, m ∈ gatherForks c ↔
      m ≠ 0 ∧ (some (m : Int) ∈ forkBlocks c ∨ ∃ b < 0, some b ∈ forkBlocks c ∧ uint64 b = m) := by
  refine ⟨gatherForks_pairwise c, fun m => ?_⟩
  rw [mem_gatherForks, and_comm, mem_forkNumbers]
  refine and_congr_right fun _ => ⟨?_, ?_⟩
  · rintro ⟨b, hb, rfl⟩
    by_cases hneg : b < 0
    · exact .inr ⟨b, hneg, hb, rfl⟩
    have hlt := h _ hb b rfl
    have hval : (uint64 b : Int) = b := by
      unfold uint64
      omega
    rw [hval]
    exact .inl hb
  rintro (hb | ⟨b, -, hb, hm⟩)
  · have hlt := h _ hb m rfl
    refine ⟨m, hb, ?_⟩
    unfold uint64
    omega
  · exact ⟨b, hb, hm⟩

theorem gatherForks_normalises_mainnet : (gatherForks mainnetChainConfig).Pairwise (· < ·) :=
  (gatherForks_normalises mainnetChainConfig (by decide)).1

/-! ## The announced identifier -/

def passedForks (c : ChainConfig) (head : Nat) : List Nat := (gatherForks c).filter (· ≤ head)

theorem newIDLoop_eq (head : Nat) (hash : BitVec 32) {forks : List Nat}
    (hsorted : forks.Pairwise (· < ·)) :
    newIDLoop head hash forks = ((forks.filter (· ≤ head)).foldl checksumUpdate hash,
        forks[(forks.filter (· ≤ head)).length]?.getD 0) := by
  induction forks generalizing hash with
  | nil => rfl
  | cons fork forks ih =>
    obtain ⟨hhead, hrest⟩ := List.pairwise_cons.1 hsorted
    by_cases h : fork ≤ head
    · rw [newIDLoop, if_pos h, ih _ hrest, List.filter_cons_of_pos (by simpa using h)]
      rfl
    have hnil : forks.filter (· ≤ head) = [] := by
      rw [List.filter_eq_nil_iff]
      intro y hy hyb
      have := hhead y hy
      have : y ≤ head := by simpa using hyb
      omega
    rw [newIDLoop, if_neg h, List.filter_cons_of_neg (by simpa using h), hnil]
    rfl

theorem newID_hash {genesis : Hash} {head : Nat} : (newID c genesis head).hash =
      checksumToBytes ((passedForks c head).foldl checksumUpdate (genesisChecksum genesis)) := by
  unfold newID
  simp only [newIDLoop_eq head _ (gatherForks_pairwise c)]
  rfl

theorem newID_next {genesis : Hash} {head : Nat} :
    (newID c genesis head).next = (gatherForks c)[(passedForks c head).length]?.getD 0 := by
  unfold newID
  simp only [newIDLoop_eq head _ (gatherForks_pairwise c)]
  rfl

end Virbicoin.ForkId
