import Mathlib.Data.Nat.Prime.Basic
import Mathlib.Tactic.Common
import Virbicoin.Core.Types

/-!
# The Ethash algorithm

`consensus/ethash/algorithm.go`: the sizes of cache and dataset, the items of the dataset, their
generation on several threads, and `hashimoto` over the dataset or over the cache alone.

A `[]uint32` is a list of words, and what panics (an index or slice out of range, a division by
zero) is `none`. Index arithmetic is on `uint32`s and wraps around. The two Keccak functions are
parameters. So are the tables of sizes.
-/

namespace Virbicoin.Ethash

abbrev Word32 := BitVec 32

abbrev Bytes := List (BitVec 8)

def datasetInitBytes : Nat := 2 ^ 30

def datasetGrowthBytes : Nat := 2 ^ 23

def cacheInitBytes : Nat := 2 ^ 24

def cacheGrowthBytes : Nat := 2 ^ 17

def epochLength : Nat := 30000

def mixBytes : Nat := 128

def hashBytes : Nat := 64

def hashWords : Nat := 16

def datasetParents : Nat := 256

def loopAccesses : Nat := 64

def maxEpoch : Nat := 2048

/-! ## Sizes -/

/-- The loop of the size calculations: down by two rows until the number of rows is prime. -/
def primeRows (rowBytes : Nat) : Nat → Nat → Nat
  | 0, size => size
  | fuel + 1, size =>
    if (size / rowBytes).Prime then size else primeRows rowBytes fuel (size - 2 * rowBytes)

def calcCacheSize (epoch : Nat) : Nat :=
  let size := cacheInitBytes + cacheGrowthBytes * epoch - hashBytes
  primeRows hashBytes (size / hashBytes) size

def calcDatasetSize (epoch : Nat) : Nat :=
  let size := datasetInitBytes + datasetGrowthBytes * epoch - mixBytes
  primeRows mixBytes (size / mixBytes) size

/-- The tables of the first 2048 sizes. -/
structure SizeTables where
  datasetSizes : Nat → Nat
  cacheSizes : Nat → Nat
  datasetSizes_eq : ∀ epoch, epoch < maxEpoch → datasetSizes epoch = calcDatasetSize epoch
  cacheSizes_eq : ∀ epoch, epoch < maxEpoch → cacheSizes epoch = calcCacheSize epoch

def cacheSize (tables : SizeTables) (block : Nat) : Nat :=
  let epoch := block / epochLength
  if epoch < maxEpoch then tables.cacheSizes epoch else calcCacheSize epoch

def datasetSize (tables : SizeTables) (block : Nat) : Nat :=
  let epoch := block / epochLength
  if epoch < maxEpoch then tables.datasetSizes epoch else calcDatasetSize epoch

/-! ## Slices and byte orders -/

/-- `copy(dst[off:], src)` -/
def copyAt {α : Type} (dst : List α) (off : Nat) (src : List α) : List α :=
  dst.mapIdx fun k x => if off ≤ k then (src[k - off]?).getD x else x

def slice {α : Type} (xs : List α) (lo hi : Nat) : Option (List α) :=
  if lo ≤ hi ∧ hi ≤ xs.length then some ((xs.drop lo).take (hi - lo)) else none

def putUint32 (w : Word32) : Bytes :=
  [w.extractLsb' 0 8, w.extractLsb' 8 8, w.extractLsb' 16 8, w.extractLsb' 24 8]

def putUint64 (w : BitVec 64) : Bytes :=
  putUint32 (w.extractLsb' 0 32) ++ putUint32 (w.extractLsb' 32 32)

/-- The words of a buffer, read with the byte order `littleEndian`. -/
def uint32s (littleEndian : Bool) : Bytes → List Word32
  | a :: b :: c :: d :: rest =>
    (if littleEndian then d ++ c ++ b ++ a else a ++ b ++ c ++ d) :: uint32s littleEndian rest
  | _ => []

def swap : Bytes → Bytes
  | a :: b :: c :: d :: rest => d :: c :: b :: a :: swap rest
  | rest => rest

/-! ## Items -/

/-- Keccak-512, which fills 64 bytes, and Keccak-256. -/
structure Keccak where
  keccak512 : Bytes → Bytes
  keccak512_length : ∀ data, (keccak512 data).length = hashBytes
  keccak256 : Bytes → Bytes

def fnv (a b : Word32) : Word32 := a * 0x01000193 ^^^ b

def fnvHash (mix data : List Word32) : Option (List Word32) :=
  if mix.length ≤ data.length then some (List.zipWith fnv mix data) else none

section Items

variable (keccak : Keccak) (cache : List Word32) (index : Word32)

def mixParent (rows : Word32) (intMix : List Word32) (i : Nat) : Option (List Word32) := do
  let parent := fnv (index ^^^ BitVec.ofNat 32 i) (← intMix[i % 16]?) % rows
  fnvHash intMix (← slice cache (parent * 16).toNat cache.length)

def generateDatasetItem : Option Bytes := do
  let rows : Word32 := BitVec.ofNat 32 (cache.length / hashWords)
  if rows = 0 then none
  let row := index % rows * 16
  let words ← (List.range hashWords).mapM fun i => cache[(row + BitVec.ofNat 32 i).toNat]?
  let mix := keccak.keccak512 ((words.modify 0 (· ^^^ index)).flatMap putUint32)
  let intMix ← (List.range datasetParents).foldlM (mixParent cache index rows) (uint32s true mix)
  some (keccak.keccak512 (intMix.flatMap putUint32))

end Items

/-! ## The dataset -/

structure Generation where
  dest : List Word32
  next : Nat → Nat

section Dataset

variable (keccak : Keccak) (isLittleEndian : Bool) (cache : List Word32) (threads size : Nat)

/-- The rounds of a thread. The number of threads is `runtime.NumCPU()`, so nothing wraps around. -/
def batch : Nat := (size + hashBytes * threads - 1) / (hashBytes * threads)

def segmentFirst (id : Nat) : Nat := id * batch threads size

def segmentLimit (id : Nat) : Nat :=
  min (segmentFirst threads size id + batch threads size) (size / hashBytes)

/-- One round of the loop of thread `id`; after its last round the thread does nothing. -/
def generateStep (s : Generation) (id : Nat) : Option Generation :=
  if id < threads ∧ s.next id < segmentLimit threads size id then do
    let item ← generateDatasetItem keccak cache (BitVec.ofNat 32 (s.next id))
    let item := if isLittleEndian then item else swap item
    -- the progress report divides by a hundredth of the number of items
    if size / hashBytes / 100 = 0 then none
    some ⟨copyAt s.dest (s.next id * hashWords) (uint32s isLittleEndian item),
      Function.update s.next id (s.next id + 1)⟩
  else some s

/-- `generateDataset`, with the threads taking turns as in `schedule`. -/
def generateDataset (dest : List Word32) (schedule : List Nat) : Option (List Word32) := do
  let s ← schedule.foldlM (generateStep keccak isLittleEndian cache threads (dest.length * 4))
    ⟨dest, segmentFirst threads (dest.length * 4)⟩
  some s.dest

end Dataset

/-! ## The proof of work -/

/-- The end of `hashimoto`, in place in the source: every write is behind the reads. -/
def compress : List Word32 → List Word32
  | a :: b :: c :: d :: rest => fnv (fnv (fnv a b) c) d :: compress rest
  | _ => []

/-- One access of `hashimoto`: the mix, and the buffer for the two items. -/
def access (rows seedHead : Word32) (lookup : Word32 → Option (List Word32))
    (s : List Word32 × List Word32) (i : Nat) : Option (List Word32 × List Word32) := do
  let parent := fnv (BitVec.ofNat 32 i ^^^ seedHead) (← s.1[i % s.1.length]?) % rows
  let temp := copyAt s.2 0 (← lookup (2 * parent))
  let temp := copyAt temp hashWords (← lookup (2 * parent + 1))
  some (← fnvHash s.1 temp, temp)

def hashimoto (keccak : Keccak) (hash : Bytes) (nonce : BitVec 64) (size : Nat)
    (lookup : Word32 → Option (List Word32)) : Option (Bytes × Bytes) := do
  let rows : Word32 := BitVec.ofNat 32 (size / mixBytes)
  if rows = 0 then none
  let seed := keccak.keccak512 (copyAt (List.replicate 32 0) 0 hash ++ putUint64 nonce)
  let words := uint32s true seed
  let mix := words ++ words
  let (mix, _) ← (List.range loopAccesses).foldlM (access rows (words.headD 0) lookup)
    (mix, List.replicate (mixBytes / 4) 0)
  let digest := (compress mix).flatMap putUint32
  some (digest, keccak.keccak256 (seed ++ digest))

def hashimotoLight (keccak : Keccak) (size : Nat) (cache : List Word32) (hash : Bytes)
    (nonce : BitVec 64) : Option (Bytes × Bytes) :=
  hashimoto keccak hash nonce size fun index =>
    (generateDatasetItem keccak cache index).map (uint32s true)

def hashimotoFull (keccak : Keccak) (dataset : List Word32) (hash : Bytes) (nonce : BitVec 64) :
    Option (Bytes × Bytes) :=
  hashimoto keccak hash nonce (dataset.length * 4) fun index =>
    let offset := index * 16
    slice dataset offset.toNat (offset + 16).toNat

end Virbicoin.Ethash
