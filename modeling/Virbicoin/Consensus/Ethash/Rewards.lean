import Mathlib.Tactic.Ring
import Virbicoin.Lib.Ledger
import Virbicoin.Params.Config

/-!
# Block rewards

`calcBlockReward` and `accumulateRewards` of `consensus/ethash/consensus.go`. The reward of a block
starts at 8 VBC and loses 1 VBC at block 4200000 and every 2100000 blocks after, down to 1 VBC.

The balances are the part of the state that rewards touch. `rewardCredits` lists the credits of a
block, and `accumulateRewards` is their sum on the ledger.
-/

namespace Virbicoin.Ethash

open Virbicoin.Lib List

/-! ## The schedule -/

def frontierBlockReward : Int := 8 * 10 ^ 18

def rewardReductionInterval : Int := 2100000

def firstReductionBlock : Int := 4200000

def minimumBlockReward : Int := 10 ^ 18

def oneVBC : Int := 10 ^ 18

def calcBlockReward (blockNumber : Int) : Int :=
  if blockNumber < firstReductionBlock then frontierBlockReward
  else
    let blocksSinceFirstReduction := blockNumber - firstReductionBlock
    let reductions := blocksSinceFirstReduction / rewardReductionInterval + 1
    if reductions ≥ 7 then minimumBlockReward
    else frontierBlockReward - oneVBC * reductions

def reductionsAt (most : Nat) (n : Int) : Int :=
  min most (max 0 ((n - firstReductionBlock) / rewardReductionInterval + 1))

theorem calcBlockReward_eq (n : Int) : calcBlockReward n = (8 - reductionsAt 7 n) * 10 ^ 18 := by
  unfold calcBlockReward reductionsAt firstReductionBlock frontierBlockReward
    rewardReductionInterval minimumBlockReward oneVBC
  split
  · omega
  dsimp only
  split <;> omega

def activeRewardForks (config : ChainConfig) (num : Int) : Nat :=
  config.rewardForks.countP (isForked · num)

theorem countP_schedule (most : Nat) (n : Int) : ((range most).countP fun i : Nat =>
      isForked (some (firstReductionBlock + rewardReductionInterval * i)) n : Int) =
      reductionsAt most n := by
  unfold reductionsAt firstReductionBlock rewardReductionInterval
  induction most with
  | zero => simp
  | succ most ih =>
    rw [range_succ, countP_append, Nat.cast_add, ih, countP_singleton]
    simp only [isForked_some, decide_eq_true_eq]
    split <;> omega

/-- **The schedule is that of the reward forks.** The reward of a block is 8 VBC less 1 VBC for
every reward fork of the main network active at it; it never increases, and stays between 1 and
8 VBC. -/
theorem calcBlockReward_schedule :
    (∀ n, calcBlockReward n = (8 - activeRewardForks mainnetChainConfig n) * 10 ^ 18) ∧
    (∀ m n, m ≤ n → calcBlockReward n ≤ calcBlockReward m) ∧
    ∀ n, 1 * 10 ^ 18 ≤ calcBlockReward n ∧ calcBlockReward n ≤ 8 * 10 ^ 18 := by
  refine ⟨fun n => ?_, fun m n hmn => ?_, fun n => ?_⟩
  · rw [calcBlockReward_eq, ← countP_schedule 7 n]
    rfl
  · rw [calcBlockReward_eq, calcBlockReward_eq]
    unfold reductionsAt firstReductionBlock rewardReductionInterval
    omega
  rw [calcBlockReward_eq]
  unfold reductionsAt
  omega

/-! ## Issuance -/

abbrev Balances := Address → Int

def addBalance (state : Balances) (addr : Address) (amount : Int) : Balances :=
  credit state (addr, amount)

def rewardUncle (header : Header) (blockReward : Int) (st : Balances × Int) (uncle : Header) :
    Balances × Int :=
  let r := (uncle.number : Int) + 8
  let r := r - header.number
  let r := r * blockReward
  let r := r / 8
  let state := addBalance st.1 uncle.coinbase r
  let r := blockReward / 32
  (state, st.2 + r)

def accumulateRewards (state : Balances) (header : Header) (uncles : List Header) : Balances :=
  let blockReward := calcBlockReward header.number
  let st := uncles.foldl (rewardUncle header blockReward) (state, blockReward)
  addBalance st.1 header.coinbase st.2

def uncleReward (header uncle : Header) : Int :=
  calcBlockReward header.number * (uncle.number + 8 - header.number) / 8

def rewardCredits (header : Header) (uncles : List Header) : List (Address × Int) :=
  uncles.map (fun uncle => (uncle.coinbase, uncleReward header uncle)) ++
    [(header.coinbase,
      calcBlockReward header.number + uncles.length * (calcBlockReward header.number / 32))]

theorem foldl_rewardUncle (header : Header) (uncles : List Header) (state : Balances)
    (reward : Int) :
    uncles.foldl (rewardUncle header (calcBlockReward header.number)) (state, reward) =
      (creditAll state (uncles.map fun uncle => (uncle.coinbase, uncleReward header uncle)),
        reward + uncles.length * (calcBlockReward header.number / 32)) := by
  induction uncles generalizing state reward with
  | nil => simp [creditAll]
  | cons uncle uncles ih =>
    rw [foldl_cons, rewardUncle, ih]
    refine Prod.ext ?_ ?_
    · simp only [creditAll, map_cons, foldl_cons, addBalance, uncleReward]
      rw [Int.mul_comm (calcBlockReward _)]
    · simp only [length_cons, Nat.cast_succ]
      ring

theorem calcBlockReward_pos (n : Int) : 0 < calcBlockReward n := by
  rw [calcBlockReward_eq]
  unfold reductionsAt
  omega

theorem dvd_calcBlockReward (n : Int) : 32 ∣ calcBlockReward n := by
  rw [calcBlockReward_eq]
  exact Dvd.dvd.mul_left ⟨31250000000000000, by omega⟩ _

theorem uncleReward_pos {header uncle : Header} (hlow : header.number ≤ uncle.number + 6) :
    0 < uncleReward header uncle := by
  have hR := calcBlockReward_pos header.number
  obtain ⟨k, hk⟩ := dvd_calcBlockReward header.number
  have hshare : uncleReward header uncle = 4 * k * (uncle.number + 8 - header.number) := by
    unfold uncleReward
    rw [hk, show 32 * k * (uncle.number + 8 - header.number) =
      8 * (4 * k * (uncle.number + 8 - header.number)) by ring]
    exact Int.mul_ediv_cancel_left _ (by decide)
  rw [hshare]
  exact mul_pos (by omega) (by omega)

/-- **Issuance is exact.** The total of the balances rises by the reward of the block and the shares
of the uncles; no division rounds, every credit is positive, and no other account changes. -/
theorem accumulateRewards_issuance (state : Balances) (header : Header) (uncles : List Header)
    (hbounds : ∀ uncle ∈ uncles,
      header.number ≤ uncle.number + 6 ∧ uncle.number + 1 ≤ header.number) :
    let R := calcBlockReward header.number
    (∑ a, accumulateRewards state header uncles a = ∑ a, state a + (R +
      (uncles.map fun uncle => R * (uncle.number + 8 - header.number) / 8 + R / 32).sum)) ∧
    (32 ∣ R ∧ ∀ uncle ∈ uncles, 8 ∣ R * (uncle.number + 8 - header.number)) ∧
    (accumulateRewards state header uncles = creditAll state (rewardCredits header uncles) ∧
      ∀ entry ∈ rewardCredits header uncles, 0 < entry.2) ∧
    ∀ a, a ≠ header.coinbase → a ∉ uncles.map (·.coinbase) →
      accumulateRewards state header uncles a = state a := by
  have hcredits : accumulateRewards state header uncles =
      creditAll state (rewardCredits header uncles) := by
    simp only [accumulateRewards, foldl_rewardUncle, rewardCredits, creditAll, foldl_append,
      foldl_cons, foldl_nil, addBalance]
  refine ⟨?_, ⟨dvd_calcBlockReward _, fun uncle _ => ?_⟩, ⟨hcredits, ?_⟩, fun a hminer hother => ?_⟩
  · rw [hcredits, sum_creditAll, rewardCredits, map_append, sum_append, map_map, sum_map_add,
      map_const', sum_replicate, map_singleton, sum_singleton]
    exact congrArg _ (add_left_comm _ _ _)
  · exact Dvd.dvd.mul_right (Dvd.dvd.trans (by decide) (dvd_calcBlockReward _)) _
  · intro entry hentry
    rcases mem_append.1 hentry with h | h
    · obtain ⟨uncle, huncle, rfl⟩ := mem_map.1 h
      exact uncleReward_pos (hbounds uncle huncle).1
    rw [mem_singleton.1 h]
    have hR := calcBlockReward_pos header.number
    exact add_pos_of_pos_of_nonneg hR
      (Int.mul_nonneg (Int.natCast_nonneg _) (Int.ediv_nonneg (Int.le_of_lt hR) (by decide)))
  · rw [hcredits]
    refine creditAll_of_notMem ?_
    simpa [rewardCredits, Function.comp_def, hminer] using hother

theorem accumulateRewards_issuance_same_miner :
    let header : Header := { (default : Header) with number := 10, coinbase := 1 }
    let uncle : Header := { (default : Header) with number := 9, coinbase := 1 }
    ∑ a, accumulateRewards (fun _ => 0) header [uncle] a = 15250000000000000000 := by
  intro header uncle
  have htotal := (accumulateRewards_issuance (fun _ => 0) header [uncle] (by decide)).1
  rw [htotal, Finset.sum_const_zero]
  decide

end Virbicoin.Ethash
