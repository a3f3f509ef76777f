import Virbicoin.Params.Config

/-!
# Difficulty

The difficulty calculators of `consensus/ethash/consensus.go`. `Div` on `*big.Int` is Euclidean
division, which is `/` on `Int`.

Whatever the parent, no calculator goes below the minimum difficulty
(`minimumDifficulty_le_calcDifficulty`).
-/

namespace Virbicoin.Ethash

def difficultyBoundDivisor : Int := 512

def minimumDifficulty : Int := 131072

def durationLimit : Int := 12

def expDiffPeriod : Int := 100000

def emptyUncleHash : Hash :=
  0x1dcc4de8dec75d7aab85b567b6ccd41ad312451b948a7413f0a142fd40d49347#256

def adjustDifficulty (parent : Header) (x : Int) : Int :=
  let x := if x < -99 then -99 else x
  let y := parent.difficulty / difficultyBoundDivisor
  let x := parent.difficulty + y * x
  if x < minimumDifficulty then minimumDifficulty else x

def bomb (periodCount : Int) : Int := if periodCount > 1 then 2 ^ (periodCount - 2).toNat else 0

def makeDifficultyCalculator (bombDelay : Int) (time : UInt64) (parent : Header) : Int :=
  let bombDelayFromParent := bombDelay - 1
  let x := ((time.toNat : Int) - parent.time.toNat) / 9
  let x := if parent.uncleHash = emptyUncleHash then 1 - x else 2 - x
  let x := adjustDifficulty parent x
  let fakeBlockNumber : Int :=
    if (parent.number : Int) ≥ bombDelayFromParent then parent.number - bombDelayFromParent else 0
  x + bomb (fakeBlockNumber / expDiffPeriod)

def calcDifficultyEip2384 : UInt64 → Header → Int := makeDifficultyCalculator 9000000

def calcDifficultyConstantinople : UInt64 → Header → Int := makeDifficultyCalculator 5000000

def calcDifficultyByzantium : UInt64 → Header → Int := makeDifficultyCalculator 3000000

def calcDifficultyHomestead (time : UInt64) (parent : Header) : Int :=
  let x := ((time.toNat : Int) - parent.time.toNat) / 10
  let x := adjustDifficulty parent (1 - x)
  x + bomb (((parent.number : Int) + 1) / expDiffPeriod)

def calcDifficultyFrontier (time : UInt64) (parent : Header) : Int :=
  let adjust := parent.difficulty / difficultyBoundDivisor
  let diff :=
    if (time.toNat : Int) - parent.time.toNat < durationLimit then parent.difficulty + adjust
    else parent.difficulty - adjust
  let diff := if diff < minimumDifficulty then minimumDifficulty else diff
  let periodCount := ((parent.number : Int) + 1) / expDiffPeriod
  if periodCount > 1 then max (diff + 2 ^ (periodCount - 2).toNat) minimumDifficulty else diff

def calcDifficulty (config : ChainConfig) (time : UInt64) (parent : Header) : Int :=
  let next : Int := parent.number + 1
  if config.isMuirGlacier next then calcDifficultyEip2384 time parent
  else if config.isConstantinople next then calcDifficultyConstantinople time parent
  else if config.isByzantium next then calcDifficultyByzantium time parent
  else if config.isHomestead next then calcDifficultyHomestead time parent
  else calcDifficultyFrontier time parent

/-! ## The minimum difficulty -/

theorem minimumDifficulty_le_adjustDifficulty (parent : Header) (x : Int) :
    minimumDifficulty ≤ adjustDifficulty parent x := by
  unfold adjustDifficulty
  dsimp only
  split <;> omega

theorem bomb_nonneg (periodCount : Int) : 0 ≤ bomb periodCount := by
  unfold bomb
  split
  · exact Int.pow_nonneg (by decide)
  · exact le_refl 0

theorem minimumDifficulty_le_makeDifficultyCalculator {bombDelay : Int} {time : UInt64}
    {parent : Header} : minimumDifficulty ≤ makeDifficultyCalculator bombDelay time parent :=
  le_trans (minimumDifficulty_le_adjustDifficulty parent _) (le_add_of_nonneg_right (bomb_nonneg _))

/-- **The difficulty never falls below the minimum.** -/
theorem minimumDifficulty_le_calcDifficulty (config : ChainConfig) (time : UInt64)
    (parent : Header) : minimumDifficulty ≤ calcDifficulty config time parent := by
  unfold calcDifficulty
  dsimp only
  split
  · exact minimumDifficulty_le_makeDifficultyCalculator
  split
  · exact minimumDifficulty_le_makeDifficultyCalculator
  split
  · exact minimumDifficulty_le_makeDifficultyCalculator
  split
  · exact le_trans (minimumDifficulty_le_adjustDifficulty parent _)
      (le_add_of_nonneg_right (bomb_nonneg _))
  unfold calcDifficultyFrontier
  dsimp only
  split
  · exact le_max_right _ _
  · split <;> omega

end Virbicoin.Ethash
