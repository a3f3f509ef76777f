import Virbicoin.Core.Vm.Effects

/-!
# The memory fee

The fee for more memory is the difference between the cost of the new size and what was paid so far.
The two are settled in different places: `memoryGasCost` records the new cost before the gas is
charged, `Run` makes the memory larger after it, and both round to words. `Settled` links them. A
step keeps it (`stepWith_settled`), so what a frame has paid only depends on the size of its memory
(`memory_charged_once`).
-/

namespace Virbicoin.Vm

open Lib State Params

def memoryCost (w : Nat) : Nat := 3 * w + w ^ 2 / 512

theorem memoryCost_mono {w w' : Nat} (h : w ≤ w') : memoryCost w ≤ memoryCost w' :=
  Nat.add_le_add (Nat.mul_le_mul_left 3 h) (Nat.div_le_div_right (Nat.pow_le_pow_left h 2))

theorem memoryCost_eq (w : Nat) : w * memoryGas + w * w / quadCoeffDiv = memoryCost w := by
  rw [memoryCost, pow_two, mul_comm 3]
  rfl

/-- The memory consists of words, and `total` was paid for it. -/
structure Settled (mem : Memory) (total : Nat) : Prop where
  aligned : 32 ∣ mem.store.length
  last : mem.lastGasCost = memoryCost (mem.store.length / 32)
  paid : total = memoryCost (mem.store.length / 32)

theorem Settled.congr {mem mem' : Memory} {total : Nat} (h : Settled mem total)
    (hsame : mem.SameSize mem') : Settled mem' total := by
  obtain ⟨hlen, hlast⟩ := hsame
  refine ⟨?_, ?_, ?_⟩ <;> rw [hlen]
  · exact h.aligned
  · rw [hlast, h.last]
  · exact h.paid

variable {size : Nat}

theorem toWordSize_of_le (h : size ≤ maxMemory) :
    toWordSize size = (size + 31) / 32 ∧ (size + 31) / 32 ≤ 0xFFFFFFFF := by
  unfold maxMemory at h
  unfold toWordSize maxUint64
  exact ⟨if_neg (by omega), by omega⟩

theorem memoryGasCost_exact (h : size ≤ maxMemory) :
    size + 31 < 2 ^ 64 ∧ toWordSize size * 32 < 2 ^ 64 ∧
      toWordSize size * toWordSize size < 2 ^ 64 ∧ toWordSize size * memoryGas < 2 ^ 64 ∧
      toWordSize size * memoryGas + toWordSize size * toWordSize size / quadCoeffDiv < 2 ^ 64 := by
  obtain ⟨heq, hle⟩ := toWordSize_of_le h
  rw [← heq] at hle
  have hsquare := mul_le_mul hle hle
  unfold memoryGas quadCoeffDiv
  omega

theorem memoryGasCost_settled {mem mem' : Memory} {total fee : Nat} (h : Settled mem total)
    (hsize : 32 ∣ size) (hcost : memoryGasCost mem size = .ok (fee, mem')) :
    Settled (mem'.resize size) (total + fee) := by
  have hle : size ≤ maxMemory := PaidMemory.size_le ⟨fee, le_rfl, hcost⟩
  obtain ⟨k, rfl⟩ := hsize
  have hwords : toWordSize (32 * k) = k := by
    rw [(toWordSize_of_le hle).1]
    omega
  have hexact := (memoryGasCost_exact hle).2.2.2.2
  unfold memoryGasCost at hcost
  simp only [hwords, memoryCost_eq] at hcost hexact
  split at hcost
  · cases hcost
    rw [show 32 * k = 0 from ‹_›]
    exact h
  split at hcost
  · cases hcost
  split at hcost
  · cases hcost
    have hold : mem.lastGasCost ≤ memoryCost k := by
      rw [h.last]
      exact memoryCost_mono (by omega)
    have hlen : ({ mem with lastGasCost := memoryCost k }.resize (32 * k)).store.length =
        32 * k := by
      unfold Memory.resize
      rw [if_pos (by dsimp only; omega), List.length_append, List.length_replicate]
      dsimp only
      omega
    have hkeep : ({ mem with lastGasCost := memoryCost k }.resize (32 * k)).lastGasCost =
        memoryCost k := by
      unfold Memory.resize
      split <;> rfl
    have hk : 32 * k / 32 = k := by omega
    refine ⟨⟨k, hlen⟩, ?_, ?_⟩ <;> rw [hlen, hk]
    · exact hkeep
    rw [subUint64_of_le hexact hold, h.paid, ← h.last]
    omega
  cases hcost
  unfold Memory.resize
  rw [if_neg (by omega)]
  exact h

/-! ## Runs -/

theorem dvd_requiredMemory {o : Operation} {s : List Word} (h : requiredMemory o s = .ok size) :
    32 ∣ size := by
  unfold requiredMemory at h
  split at h
  · cases h
    exact dvd_zero 32
  obtain ⟨_, -, h⟩ := bind_eq_ok.1 h
  obtain ⟨words, -, h⟩ := bind_eq_ok.1 h
  have := (checked_ensures _).of_ok h
  unfold safeMul at this
  split at this
  · cases this
    exact Dvd.intro_left _ rfl
  · cases this

/-- What `memoryGasCost` returns in the next step. -/
def memoryFee (env : Env) (m : Machine) : Nat :=
  match (instructionSet env.rules).get (m.contract.getOp m.loc.pc) with
  | none => 0
  | some o =>
    match requiredMemory o m.loc.stack >>= memoryGasCost m.loc.memory with
    | .ok (fee, _) => fee
    | .error _ => 0

section Runs

variable {env : Env} {run : RunFn} {m m' : Machine} {total : Nat}

theorem Prepared.settled {op : OpCode} {o : Operation} (hf : Fetched env m op o)
    (hp : Prepared env op o m m') (h : Settled m.loc.memory total) :
    Settled m'.loc.memory (total + memoryFee env m) ∧
      m'.contract.gas + memoryFee env m ≤ m.contract.gas := by
  obtain ⟨size, fee, mem, hsize, hcost, hmem, hgas⟩ := hp.memory
  have hfee : memoryFee env m = fee := by
    unfold memoryFee
    rw [← hf.1, hf.2]
    dsimp only
    rw [hsize]
    show (match memoryGasCost m.loc.memory size with | .ok (fee, _) => fee | .error _ => 0) = fee
    rw [hcost]
  rw [hfee, hmem]
  exact ⟨memoryGasCost_settled h (dvd_requiredMemory hsize) hcost, hgas⟩

theorem stepWith_settled (h : Settled m.loc.memory total)
    (hstep : stepWith env run m = .ok (.inl m')) :
    Settled m'.loc.memory (total + memoryFee env m) := by
  have hensures : Ensures (fun _ => True)
      (Sum.elim (fun m' => Settled m'.loc.memory (total + memoryFee env m)) fun _ => True)
      (stepWith env run m) := by
    refine stepWith_ensures (fun _ _ _ => trivial) (fun _ _ _ _ _ _ _ _ _ => trivial) ?_
    rintro _ op o m₁ ⟨_, _, rfl⟩ hf - hp
    refine (execute_framed env run o.execute m₁).mono (fun s _ => ?_) fun r hr => ?_
    · cases s <;> trivial
    have hsettled := (hp.settled hf h).1.congr hr.memory
    exact conclude_cases (fun _ _ _ => trivial) fun _ _ _ => hsettled
  exact hensures.of_ok hstep

/-- The steps of a frame and the memory fees they paid. -/
inductive Expands (env : Env) (run : RunFn) (m : Machine) : Nat → Machine → Prop
  | start : Expands env run m 0 m
  | step {total : Nat} {m₁ m₂ : Machine} : Expands env run m total m₁ →
    stepWith env run m₁ = .ok (.inl m₂) → Expands env run m (total + memoryFee env m₁) m₂

/-- **The memory of a frame is paid once**, in whatever steps it has grown: the fees add up to the
cost of its size. They are parts of the gas that is charged, and no computation of a fee overflows.
-/
theorem memory_charged_once {c : Contract} {evm : Evm}
    (h : Expands env run { contract := c, evm } total m) :
    Settled m.loc.memory total ∧
      (∀ op o m₁, Fetched env m op o → prepare env op o m = .ok m₁ →
        Settled m₁.loc.memory (total + memoryFee env m) ∧
          m₁.contract.gas + memoryFee env m ≤ m.contract.gas) ∧
      ∀ size ≤ maxMemory, size + 31 < 2 ^ 64 ∧ toWordSize size * 32 < 2 ^ 64 ∧
        toWordSize size * toWordSize size < 2 ^ 64 ∧ toWordSize size * memoryGas < 2 ^ 64 ∧
        toWordSize size * memoryGas + toWordSize size * toWordSize size / quadCoeffDiv < 2 ^ 64 ∧
        (m.loc.memory.store.length < toWordSize size * 32 → m.loc.memory.lastGasCost ≤
          toWordSize size * memoryGas + toWordSize size * toWordSize size / quadCoeffDiv) := by
  have hstart : Settled {} 0 := by constructor <;> decide
  have hsettled : Settled m.loc.memory total := by
    induction h with
    | start => exact hstart
    | step _ hstep ih => exact stepWith_settled ih hstep
  refine ⟨hsettled, fun op o m₁ hf hprep => ?_, fun size hsize => ?_⟩
  · exact ((prepare_ensures hf.consistent).of_ok hprep).settled hf hsettled
  obtain ⟨h1, h2, h3, h4, h5⟩ := memoryGasCost_exact hsize
  refine ⟨h1, h2, h3, h4, h5, fun hlt => ?_⟩
  rw [hsettled.last, memoryCost_eq]
  exact memoryCost_mono (by omega)

/-- It stores a word at the start of the memory. -/
def storeContract : Contract where
  callerAddress := 0
  self := 1
  code := [0x60, 0, 0x60, 0, OpCode.MSTORE]
  gas := 99
  value := 0

theorem memory_charged_once_mstore :
    ∃ m, Expands (Env.trivial (mainnetChainConfig.rules 0)) (fun _ _ _ _ => .error .fuel)
        { contract := storeContract, evm := { world := { account := fun _ => none } } } 3 m ∧
      Settled m.loc.memory 3 ∧ m.loc.memory.store.length = 32 := by
  have hstart : Expands (.trivial (mainnetChainConfig.rules 0)) (fun _ _ _ _ => .error .fuel)
      { contract := storeContract, evm := { world := { account := fun _ => none } } } 0 _ := .start
  have h := ((hstart.step rfl).step rfl).step rfl
  exact ⟨_, h, (memory_charged_once h).1, rfl⟩

end Runs

end Virbicoin.Vm
