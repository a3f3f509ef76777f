import Mathlib.Algebra.Order.Ring.Int
import Mathlib.Data.Fintype.Basic
import Mathlib.Order.Fin.Basic

/-!
# Addresses, hashes, headers and blocks

The data types of `common/types.go` and `core/types/block.go`. Fixed-width byte arrays are numbers
of that width; the bytes of an array are the big-endian digits, so `bytes.Compare` on addresses is
the order of the numbers. A `*big.Int` block number is a natural number (the RLP and JSON codecs of
a header admit no other), and `Number.Uint64()` its value modulo `2 ^ 64`.

The hash of a header is Keccak-256 of its RLP encoding. It enters the development as a parameter
`hash : Header → Hash`.
-/

namespace Virbicoin

abbrev Address := Fin (2 ^ 160)

instance (priority := high) addressNeZero : NeZero (2 ^ 160) := ⟨by decide⟩

abbrev Hash := BitVec 256

instance : LawfulBEq Hash := inferInstance

/-- `big.Int.Uint64`: the low 64 bits of the absolute value. -/
def uint64 (x : Int) : Nat := x.natAbs % 2 ^ 64

def maxUint64 : Nat := 2 ^ 64 - 1

theorem uint64_lt (x : Int) : uint64 x < 2 ^ 64 := Nat.mod_lt _ (by decide)

/-- Subtraction of `uint64`s, which wraps around. -/
def subUint64 (x y : Nat) : Nat := (x + 2 ^ 64 - y % 2 ^ 64) % 2 ^ 64

theorem subUint64_of_le {x y : Nat} (hx : x < 2 ^ 64) (h : y ≤ x) : subUint64 x y = x - y := by
  unfold subUint64
  omega

theorem subUint64_of_lt {x y : Nat} (hy : y < 2 ^ 64) (h : x < y) :
    subUint64 x y = x + 2 ^ 64 - y := by
  unfold subUint64
  omega

structure Header where
  parentHash : Hash
  uncleHash : Hash
  coinbase : Address
  root : Hash
  txHash : Hash
  receiptHash : Hash
  bloom : BitVec 2048
  difficulty : Int
  number : Nat
  gasLimit : UInt64
  gasUsed : UInt64
  time : UInt64
  extra : List (BitVec 8)
  mixDigest : Hash
  nonce : BitVec 64
deriving DecidableEq, Inhabited

/-- `Number.Uint64()` of a header. -/
def Header.numberU64 (h : Header) : Nat := uint64 h.number

theorem Header.numberU64_lt (h : Header) : h.numberU64 < 2 ^ 64 := uint64_lt _

/-- `types.Block`, without its transactions and caches. -/
structure Block where
  header : Header
  uncles : List Header
deriving DecidableEq

def Block.numberU64 (b : Block) : Nat := b.header.numberU64

end Virbicoin
