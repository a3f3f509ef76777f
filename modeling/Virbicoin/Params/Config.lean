import Mathlib.Tactic.Common
import Virbicoin.Core.Types

/-!
# Chain configurations

`params/config.go`: the fork blocks of a chain, the rules in force at a block, and the check that a
new configuration agrees with the stored one on the blocks already imported. A `*big.Int` fork
block is an `Option Int`, `none` for `nil`.

The loop of `CheckCompatible` ends since the rewind target of a conflict lies below the head it was
found at, or is `0` (`checkCompatible_rewindTo`).
-/

namespace Virbicoin

/-- `params.ChainConfig`; the engine configurations are not part of it here. -/
structure ChainConfig where
  chainID : Option Int := none
  homesteadBlock : Option Int := none
  daoForkBlock : Option Int := none
  daoForkSupport : Bool := false
  eip150Block : Option Int := none
  eip150Hash : Hash := 0#256
  eip155Block : Option Int := none
  eip158Block : Option Int := none
  byzantiumBlock : Option Int := none
  constantinopleBlock : Option Int := none
  petersburgBlock : Option Int := none
  istanbulBlock : Option Int := none
  muirGlacierBlock : Option Int := none
  yoloV3Block : Option Int := none
  ewasmBlock : Option Int := none
  quicheBlock : Option Int := none
  micheBlock : Option Int := none
  ruskBlock : Option Int := none
  celestiaBlock : Option Int := none
  mafuyuBlock : Option Int := none
  kipfelBlock : Option Int := none
  luminaBlock : Option Int := none
deriving DecidableEq

def ChainConfig.rewardForks (c : ChainConfig) : List (Option Int) :=
  [c.quicheBlock, c.micheBlock, c.ruskBlock, c.celestiaBlock, c.mafuyuBlock, c.kipfelBlock,
    c.luminaBlock]

def mainnetGenesisHash : Hash :=
  0xaf01408e82a705db6a1e6fd2e24c2435b4182c361ff75dc082a3cd06b703ba34#256

def mainnetChainConfig : ChainConfig where
  chainID := some 329
  homesteadBlock := some 0
  daoForkBlock := none
  daoForkSupport := true
  eip150Block := some 0
  eip150Hash := 0#256
  eip155Block := some 0
  eip158Block := some 0
  byzantiumBlock := some 0
  constantinopleBlock := some 0
  petersburgBlock := some 100000000
  istanbulBlock := some 500000000
  muirGlacierBlock := none
  quicheBlock := some 4200000
  micheBlock := some 6300000
  ruskBlock := some 8400000
  celestiaBlock := some 10500000
  mafuyuBlock := some 12600000
  kipfelBlock := some 14700000
  luminaBlock := some 16800000

/-- Whether a fork scheduled at block `s` is active at the given head block. The head is never
`nil` where the source calls it. -/
def isForked (s : Option Int) (head : Int) : Bool :=
  match s with
  | none => false
  | some s => decide (s ≤ head)

def configNumEqual (x y : Option Int) : Bool :=
  match x, y with
  | none, none => true
  | none, some _ => false
  | some _, none => false
  | some x, some y => decide (x = y)

/-- Whether a fork scheduled at `s1` cannot be rescheduled to `s2` because `head` is already past
the fork. -/
def isForkIncompatible (s1 s2 : Option Int) (head : Int) : Bool :=
  (isForked s1 head || isForked s2 head) && !configNumEqual s1 s2

@[simp] theorem isForked_none (head : Int) : isForked none head = false := rfl

@[simp] theorem isForked_some (s head : Int) : isForked (some s) head = decide (s ≤ head) := rfl

@[simp] theorem configNumEqual_iff (x y : Option Int) : configNumEqual x y = true ↔ x = y := by
  cases x <;> cases y <;> simp [configNumEqual]

theorem isForkIncompatible_eq_false {s1 s2 : Option Int} {head : Int} :
    isForkIncompatible s1 s2 head = false ↔
      s1 = s2 ∨ (isForked s1 head = false ∧ isForked s2 head = false) := by
  unfold isForkIncompatible
  rw [Bool.and_eq_false_iff, Bool.or_eq_false_iff, Bool.not_eq_false', configNumEqual_iff]
  exact or_comm

theorem isForked_mono {s : Option Int} {b head : Int} (hb : b ≤ head)
    (h : isForked s b = true) : isForked s head = true := by
  cases s with
  | none => cases h
  | some s =>
    simp only [isForked_some, decide_eq_true_eq] at h ⊢
    omega

theorem isForked_eq_of_compatible {s1 s2 : Option Int} {b head : Int} (hb : b ≤ head)
    (h : isForkIncompatible s1 s2 head = false) : isForked s1 b = isForked s2 b := by
  rcases isForkIncompatible_eq_false.1 h with rfl | ⟨h1, h2⟩
  · rfl
  have h1' : isForked s1 b = false := by
    cases hf : isForked s1 b
    · rfl
    · rw [isForked_mono hb hf] at h1; cases h1
  have h2' : isForked s2 b = false := by
    cases hf : isForked s2 b
    · rfl
    · rw [isForked_mono hb hf] at h2; cases h2
  rw [h1', h2']

namespace ChainConfig

def isHomestead (c : ChainConfig) (num : Int) : Bool := isForked c.homesteadBlock num

def isDAOFork (c : ChainConfig) (num : Int) : Bool := isForked c.daoForkBlock num

def isEIP150 (c : ChainConfig) (num : Int) : Bool := isForked c.eip150Block num

def isEIP155 (c : ChainConfig) (num : Int) : Bool := isForked c.eip155Block num

def isEIP158 (c : ChainConfig) (num : Int) : Bool := isForked c.eip158Block num

def isByzantium (c : ChainConfig) (num : Int) : Bool := isForked c.byzantiumBlock num

def isConstantinople (c : ChainConfig) (num : Int) : Bool := isForked c.constantinopleBlock num

def isMuirGlacier (c : ChainConfig) (num : Int) : Bool := isForked c.muirGlacierBlock num

/-- At or after the Petersburg block, or that block is `nil` and Constantinople is active. -/
def isPetersburg (c : ChainConfig) (num : Int) : Bool :=
  isForked c.petersburgBlock num ||
    (c.petersburgBlock.isNone && isForked c.constantinopleBlock num)

def isIstanbul (c : ChainConfig) (num : Int) : Bool := isForked c.istanbulBlock num

def isYoloV3 (c : ChainConfig) (num : Int) : Bool := isForked c.yoloV3Block num

end ChainConfig

structure Rules where
  chainID : Int
  isHomestead : Bool
  isEIP150 : Bool
  isEIP155 : Bool
  isEIP158 : Bool
  isByzantium : Bool
  isConstantinople : Bool
  isPetersburg : Bool
  isIstanbul : Bool
  isYoloV3 : Bool
deriving DecidableEq

def ChainConfig.rules (c : ChainConfig) (num : Int) : Rules where
  chainID := c.chainID.getD 0
  isHomestead := c.isHomestead num
  isEIP150 := c.isEIP150 num
  isEIP155 := c.isEIP155 num
  isEIP158 := c.isEIP158 num
  isByzantium := c.isByzantium num
  isConstantinople := c.isConstantinople num
  isPetersburg := c.isPetersburg num
  isIstanbul := c.isIstanbul num
  isYoloV3 := c.isYoloV3 num

/-! ## The compatibility check -/

structure ConfigCompatError where
  what : String
  storedConfig : Option Int
  newConfig : Option Int
  rewindTo : Nat
deriving DecidableEq

def rewindBlock (storedblock newblock : Option Int) : Option Int :=
  match storedblock, newblock with
  | none, new => new
  | some stored, none => some stored
  | some stored, some new => if stored < new then some stored else some new

def newCompatError (what : String) (storedblock newblock : Option Int) : ConfigCompatError where
  what := what
  storedConfig := storedblock
  newConfig := newblock
  rewindTo :=
    match rewindBlock storedblock newblock with
    | none => 0
    -- `rew.Uint64() - 1`, in `uint64`
    | some rew => if 0 < rew then (uint64 rew + (2 ^ 64 - 1)) % 2 ^ 64 else 0

/-- One `if` of `checkCompatible`. -/
def compatErrorIf (conflict : Bool) (what : String) (storedblock newblock : Option Int) :
    Option ConfigCompatError :=
  if conflict then some (newCompatError what storedblock newblock) else none

namespace ChainConfig

/-- The first conflict of the two configurations at `head`, in the order of the source. -/
def checkCompatible (c newcfg : ChainConfig) (head : Int) : Option ConfigCompatError :=
  compatErrorIf (isForkIncompatible c.homesteadBlock newcfg.homesteadBlock head)
    "Homestead fork block" c.homesteadBlock newcfg.homesteadBlock <|>
  compatErrorIf (isForkIncompatible c.daoForkBlock newcfg.daoForkBlock head)
    "DAO fork block" c.daoForkBlock newcfg.daoForkBlock <|>
  compatErrorIf (c.isDAOFork head && c.daoForkSupport != newcfg.daoForkSupport)
    "DAO fork support flag" c.daoForkBlock newcfg.daoForkBlock <|>
  compatErrorIf (isForkIncompatible c.eip150Block newcfg.eip150Block head)
    "EIP150 fork block" c.eip150Block newcfg.eip150Block <|>
  compatErrorIf (isForkIncompatible c.eip155Block newcfg.eip155Block head)
    "EIP155 fork block" c.eip155Block newcfg.eip155Block <|>
  compatErrorIf (isForkIncompatible c.eip158Block newcfg.eip158Block head)
    "EIP158 fork block" c.eip158Block newcfg.eip158Block <|>
  compatErrorIf (c.isEIP158 head && !configNumEqual c.chainID newcfg.chainID)
    "EIP158 chain ID" c.eip158Block newcfg.eip158Block <|>
  compatErrorIf (isForkIncompatible c.byzantiumBlock newcfg.byzantiumBlock head)
    "Byzantium fork block" c.byzantiumBlock newcfg.byzantiumBlock <|>
  compatErrorIf (isForkIncompatible c.constantinopleBlock newcfg.constantinopleBlock head)
    "Constantinople fork block" c.constantinopleBlock newcfg.constantinopleBlock <|>
  -- the only case where Petersburg may be set in the past is if it is equal to Constantinople
  compatErrorIf (isForkIncompatible c.petersburgBlock newcfg.petersburgBlock head &&
      isForkIncompatible c.constantinopleBlock newcfg.petersburgBlock head)
    "Petersburg fork block" c.petersburgBlock newcfg.petersburgBlock <|>
  compatErrorIf (isForkIncompatible c.istanbulBlock newcfg.istanbulBlock head)
    "Istanbul fork block" c.istanbulBlock newcfg.istanbulBlock <|>
  compatErrorIf (isForkIncompatible c.muirGlacierBlock newcfg.muirGlacierBlock head)
    "Muir Glacier fork block" c.muirGlacierBlock newcfg.muirGlacierBlock <|>
  compatErrorIf (isForkIncompatible c.yoloV3Block newcfg.yoloV3Block head)
    "YOLOv3 fork block" c.yoloV3Block newcfg.yoloV3Block <|>
  compatErrorIf (isForkIncompatible c.ewasmBlock newcfg.ewasmBlock head)
    "ewasm fork block" c.ewasmBlock newcfg.ewasmBlock

end ChainConfig

/-! ## What a conflict says -/

variable {err : ConfigCompatError} {s n : Option Int} {head : Int} {what : String}

theorem compatErrorIf_eq_none {conflict : Bool} :
    compatErrorIf conflict what s n = none ↔ conflict = false := by
  unfold compatErrorIf
  cases conflict <;> simp

/-- An error reported at `head` because one of the two blocks has passed. -/
def ErrorAt (head : Int) (err : ConfigCompatError) : Prop :=
  ∃ what s n, (isForked s head = true ∨ isForked n head = true) ∧ err = newCompatError what s n

theorem errorAt_of_incompatible
    (h : compatErrorIf (isForkIncompatible s n head) what s n = some err) : ErrorAt head err := by
  unfold compatErrorIf isForkIncompatible at h
  split at h
  · rename_i hc
    rw [Bool.and_eq_true, Bool.or_eq_true] at hc
    exact ⟨what, s, n, hc.1, (Option.some.inj h).symm⟩
  · cases h

theorem errorAt_of_stored {b : Bool}
    (h : compatErrorIf (isForked s head && b) what s n = some err) :
    ErrorAt head err := by
  unfold compatErrorIf at h
  split at h
  · rename_i hc
    rw [Bool.and_eq_true] at hc
    exact ⟨what, s, n, Or.inl hc.1, (Option.some.inj h).symm⟩
  · cases h

theorem errorAt_of_exempted {b : Bool}
    (h : compatErrorIf (isForkIncompatible s n head && b) what s n = some err) :
    ErrorAt head err := by
  cases b with
  | false =>
    rw [Bool.and_false] at h
    cases h
  | true =>
    rw [Bool.and_true] at h
    exact errorAt_of_incompatible h

theorem ChainConfig.checkCompatible_errorAt {c newcfg : ChainConfig}
    (h : c.checkCompatible newcfg head = some err) :
    ErrorAt head err := by
  -- one case for each `if` of the source
  repeat' obtain h | ⟨-, h⟩ := (Option.orElse_eq_some _ _ _).1 h
  all_goals first
    | exact errorAt_of_incompatible h
    | exact errorAt_of_stored h
    | exact errorAt_of_exempted h

theorem rewindBlock_le (h : isForked s head = true ∨ isForked n head = true) :
    ∃ rew, rewindBlock s n = some rew ∧ rew ≤ head := by
  cases s with
  | none =>
    cases n with
    | none => simp at h
    | some n => exact ⟨n, rfl, by simpa using h⟩
  | some s =>
    cases n with
    | none => exact ⟨s, rfl, by simpa using h⟩
    | some n =>
      simp only [isForked_some, decide_eq_true_eq] at h
      by_cases hlt : s < n
      · exact ⟨s, if_pos hlt, by omega⟩
      · exact ⟨n, if_neg hlt, by omega⟩

theorem ErrorAt.rewindTo_lt {head : Nat} (h : ErrorAt head err) :
    err.rewindTo < head ∨ err.rewindTo = 0 := by
  obtain ⟨what, s, n, hf, rfl⟩ := h
  obtain ⟨rew, hrew, hle⟩ := rewindBlock_le hf
  simp only [newCompatError, hrew]
  split
  · left
    unfold uint64
    omega
  · exact .inr rfl

theorem ChainConfig.checkCompatible_rewindTo {c newcfg : ChainConfig} {head : Nat}
    (h : c.checkCompatible newcfg head = some err) :
    err.rewindTo < head ∨ err.rewindTo = 0 :=
  (checkCompatible_errorAt h).rewindTo_lt

/-! ## The search for the lowest conflict -/

/-- `lasterr != nil && err.RewindTo == lasterr.RewindTo` -/
def sameRewind (lasterr : Option ConfigCompatError) (rewindTo : Nat) : Bool :=
  match lasterr with
  | none => false
  | some last => decide (rewindTo = last.rewindTo)

namespace ChainConfig

def checkCompatibleLoop (c newcfg : ChainConfig) (lasterr : Option ConfigCompatError)
    (bhead : Nat) : Option ConfigCompatError :=
  match _h : c.checkCompatible newcfg bhead with
  | none => lasterr
  | some err =>
    if _hsame : sameRewind lasterr err.rewindTo then lasterr
    else checkCompatibleLoop c newcfg (some err) err.rewindTo
termination_by 2 * bhead + (if sameRewind lasterr bhead then 0 else 1)
decreasing_by
  have hrw := checkCompatible_rewindTo _h
  have hself : sameRewind (some err) err.rewindTo = true := by simp [sameRewind]
  rw [hself, if_pos rfl]
  rcases hrw with hlt | h0
  · omega
  rw [h0] at _hsame ⊢
  rcases Nat.eq_zero_or_pos bhead with rfl | hpos
  · rw [if_neg _hsame]
    omega
  · omega

def CheckCompatible (c newcfg : ChainConfig) (height : Nat) : Option ConfigCompatError :=
  checkCompatibleLoop c newcfg none height

theorem checkCompatibleLoop_isSome (c newcfg : ChainConfig) (lasterr : Option ConfigCompatError)
    (bhead : Nat) (h : lasterr.isSome = true) :
    (checkCompatibleLoop c newcfg lasterr bhead).isSome = true := by
  fun_induction checkCompatibleLoop c newcfg lasterr bhead with
  | case1 | case2 => exact h
  | case3 _ _ _ _ _ ih => exact ih rfl

theorem CheckCompatible_eq_none {c newcfg : ChainConfig} {height : Nat} :
    c.CheckCompatible newcfg height = none ↔ c.checkCompatible newcfg height = none := by
  unfold CheckCompatible checkCompatibleLoop
  split
  · rename_i h
    simp [h]
  rename_i err h
  have hne := checkCompatibleLoop_isSome c newcfg (some err) err.rewindTo rfl
  rw [dif_neg (by simp [sameRewind]), h]
  simp only [reduceCtorEq, iff_false]
  intro hnone
  rw [hnone] at hne
  cases hne

theorem checkCompatibleLoop_rewindTo (c newcfg : ChainConfig) (lasterr : Option ConfigCompatError)
    (bhead : Nat) (hlast : ∀ last, lasterr = some last → last.rewindTo = bhead)
    {e : ConfigCompatError} (h : checkCompatibleLoop c newcfg lasterr bhead = some e) :
    e.rewindTo ≤ bhead ∧ (e.rewindTo = 0 ∨ c.checkCompatible newcfg e.rewindTo = none) := by
  fun_induction checkCompatibleLoop c newcfg lasterr bhead with
  | case1 lasterr bhead hnone =>
    obtain rfl := hlast e h
    exact ⟨Nat.le_refl _, Or.inr hnone⟩
  | case2 lasterr bhead err herr hsame =>
    -- a conflict found at its own rewind target can only be at block 0
    obtain rfl := hlast e h
    have hrw := checkCompatible_rewindTo herr
    rw [h, sameRewind, decide_eq_true_eq] at hsame
    exact ⟨Nat.le_refl _, Or.inl (by omega)⟩
  | case3 lasterr bhead err herr hsame ih =>
    have hrw := checkCompatible_rewindTo herr
    obtain ⟨hle, hend⟩ := ih (fun last hlast => by rw [← Option.some.inj hlast]) h
    exact ⟨by omega, hend⟩

/-- **Rewinding far enough.** The loop ends on every pair of configurations, and below the block it
tells to rewind to the configurations agree, unless that is block 0. -/
theorem CheckCompatible_rewinds (c newcfg : ChainConfig) (height : Nat) (e : ConfigCompatError)
    (h : c.CheckCompatible newcfg height = some e) :
    e.rewindTo ≤ height ∧ (e.rewindTo = 0 ∨ c.checkCompatible newcfg e.rewindTo = none) :=
  checkCompatibleLoop_rewindTo c newcfg none height nofun h

theorem CheckCompatible_rewinds_two_forks :
    ∃ e, ChainConfig.CheckCompatible { homesteadBlock := some 9, eip150Block := some 7 }
        { homesteadBlock := some 8, eip150Block := some 5 } 10 = some e ∧ e.rewindTo = 4 ∧
      (e.rewindTo ≤ 10 ∧ (e.rewindTo = 0 ∨
        ChainConfig.checkCompatible { homesteadBlock := some 9, eip150Block := some 7 }
          { homesteadBlock := some 8, eip150Block := some 5 } e.rewindTo = none)) :=
  have h : ChainConfig.CheckCompatible { homesteadBlock := some 9, eip150Block := some 7 }
      { homesteadBlock := some 8, eip150Block := some 5 } 10 =
        some (newCompatError "EIP150 fork block" (some 7) (some 5)) := by decide +kernel
  ⟨_, h, rfl, CheckCompatible_rewinds _ _ 10 _ h⟩

end ChainConfig

end Virbicoin
