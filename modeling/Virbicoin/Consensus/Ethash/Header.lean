import Virbicoin.Consensus.Ethash.Difficulty
import Virbicoin.Lib.Run

/-!
# Header verification

`verifyHeader` of `consensus/ethash/consensus.go` with the fork checks of `consensus/misc`. The seal
is checked against the digest and the result that hashimoto computes for the header, which enter
through `Engine.hashimoto`; an engine in shared mode delegates to one in normal mode, and so checks
the same.
-/

namespace Virbicoin.Ethash

open Virbicoin.Lib

/-! ## The engine -/

inductive Mode where
  | normal
  | shared
  | test
  | fake
  | fullFake
deriving DecidableEq

structure Engine where
  config : ChainConfig
  powMode : Mode
  /-- the block number that fails the check even in fake mode -/
  fakeFail : Nat
  hash : Header → Hash
  /-- the mix digest and the result for a header -/
  hashimoto : Header → Hash × Nat

inductive EthashError where
  /-- `consensus.ErrFutureBlock`: "block in the future" -/
  | futureBlock
  /-- `consensus.ErrInvalidNumber`: "invalid block number" -/
  | invalidNumber
  /-- "extra-data too long: %d > %d" -/
  | extraDataTooLong (actual max : Nat)
  /-- `errOlderBlockTime`: "timestamp older than parent" -/
  | olderBlockTime
  /-- "invalid difficulty: have %v, want %v" -/
  | wrongDifficulty (actual want : Int)
  /-- "invalid gasLimit: have %v, max %v" -/
  | gasLimitCap (actual max : UInt64)
  /-- "invalid gasUsed: have %d, gasLimit %d" -/
  | gasUsed (actual gasLimit : UInt64)
  /-- "invalid gas limit: have %d, want %d += %d" -/
  | gasLimitBounds (actual want limit : UInt64)
  /-- `errInvalidDifficulty`: "non-positive difficulty" -/
  | invalidDifficulty
  /-- `errInvalidMixDigest`: "invalid mix digest" -/
  | invalidMixDigest
  /-- `errInvalidPoW`: "invalid proof-of-work" -/
  | invalidPoW
  /-- `misc.ErrBadProDAOExtra`: "bad DAO pro-fork extra-data" -/
  | badProDAOExtra
  /-- `misc.ErrBadNoDAOExtra`: "bad DAO no-fork extra-data" -/
  | badNoDAOExtra
  /-- "homestead gas reprice fork: have 0x%x, want 0x%x" -/
  | forkHash (actual want : Hash)
  /-- `errTooManyUncles`: "too many uncles" -/
  | tooManyUncles
  /-- `errDuplicateUncle`: "duplicate uncle" -/
  | duplicateUncle
  /-- `errUncleIsAncestor`: "uncle is ancestor" -/
  | uncleIsAncestor
  /-- `errDanglingUncle`: "uncle's parent is not ancestor" -/
  | danglingUncle
deriving DecidableEq

/-! ## Checks -/

def maximumExtraDataSize : Nat := 32

def allowedFutureBlockTimeSeconds : Int64 := 15

def gasLimitBoundDivisor : UInt64 := 1024

def minGasLimit : UInt64 := 5000

/-- `params.DAOForkBlockExtra`: "dao-hard-fork" -/
def daoForkBlockExtra : List (BitVec 8) :=
  [0x64, 0x61, 0x6f, 0x2d, 0x68, 0x61, 0x72, 0x64, 0x2d, 0x66, 0x6f, 0x72, 0x6b]

def daoForkExtraRange : Int := 10

def verifyDAOHeaderExtraData (config : ChainConfig) (header : Header) : Except EthashError Unit :=
  match config.daoForkBlock with
  | none => .ok ()
  | some daoForkBlock =>
    let limit := daoForkBlock + daoForkExtraRange
    if header.number < daoForkBlock ∨ header.number ≥ limit then .ok ()
    else if config.daoForkSupport then
      failIf (header.extra ≠ daoForkBlockExtra) .badProDAOExtra
    else failIf (header.extra = daoForkBlockExtra) .badNoDAOExtra

def verifyForkHashes (config : ChainConfig) (hash : Header → Hash) (header : Header)
    (uncle : Bool) : Except EthashError Unit :=
  if uncle then .ok ()
  else failIf (config.eip150Block = some (header.number : Int) ∧
    config.eip150Hash ≠ 0#256 ∧ config.eip150Hash ≠ hash header)
    (.forkHash (hash header) config.eip150Hash)

def verifySeal (ethash : Engine) (header : Header) : Except EthashError Unit :=
  if ethash.powMode = .fake ∨ ethash.powMode = .fullFake then
    failIf (ethash.fakeFail = header.numberU64) .invalidPoW
  else do
    failIf (header.difficulty ≤ 0) .invalidDifficulty
    let (digest, result) := ethash.hashimoto header
    failIf (header.mixDigest ≠ digest) .invalidMixDigest
    let target : Int := 2 ^ 256 / header.difficulty
    failIf ((result : Int) > target) .invalidPoW

/-- Whether the gas limit of a header moves too far from that of the parent, or is too low. The
difference is taken in `int64`. -/
def gasLimitOutOfBounds (header parent : Header) : Prop :=
  let diff := parent.gasLimit.toInt64 - header.gasLimit.toInt64
  let diff := if diff < 0 then diff * -1 else diff
  diff.toUInt64 ≥ parent.gasLimit / gasLimitBoundDivisor ∨ header.gasLimit < minGasLimit

instance (header parent : Header) : Decidable (gasLimitOutOfBounds header parent) :=
  inferInstanceAs (Decidable (_ ∨ _))

def verifyHeader (ethash : Engine) (header parent : Header) (uncle checkSeal : Bool)
    (unixNow : Int64) : Except EthashError Unit := do
  failIf (header.extra.length > maximumExtraDataSize)
    (.extraDataTooLong header.extra.length maximumExtraDataSize)
  failIf (¬ uncle ∧ header.time > (unixNow + allowedFutureBlockTimeSeconds).toUInt64) .futureBlock
  failIf (header.time ≤ parent.time) .olderBlockTime
  let expected := calcDifficulty ethash.config header.time parent
  failIf (expected ≠ header.difficulty) (.wrongDifficulty header.difficulty expected)
  let cap : UInt64 := 0x7fffffffffffffff
  failIf (header.gasLimit > cap) (.gasLimitCap header.gasLimit cap)
  failIf (header.gasUsed > header.gasLimit) (.gasUsed header.gasUsed header.gasLimit)
  failIf (gasLimitOutOfBounds header parent)
    (.gasLimitBounds header.gasLimit parent.gasLimit (parent.gasLimit / gasLimitBoundDivisor))
  failIf ((header.number : Int) - parent.number ≠ 1) .invalidNumber
  if checkSeal then verifySeal ethash header else .ok ()
  verifyDAOHeaderExtraData ethash.config header
  verifyForkHashes ethash.config ethash.hash header uncle

/-! ## Verified headers -/

section Verified

variable {ethash : Engine} {header parent : Header} {uncle checkSeal : Bool} {unixNow : Int64}

theorem verifyHeader_number
    (h : verifyHeader ethash header parent uncle checkSeal unixNow = .ok ()) :
    header.number = parent.number + 1 := by
  unfold verifyHeader at h
  simp only [bind_eq_ok, failIf_eq_ok, exists_const] at h
  omega

end Verified

end Virbicoin.Ethash
