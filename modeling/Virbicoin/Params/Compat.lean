import Virbicoin.Params.Config

/-!
# What an accepted configuration can change

`CheckCompatible` accepts a new configuration at a height when no fork it looks at is in conflict
there (`Compatible`). Every fork it compares field by field is then active at the same blocks up to
the height. Petersburg is not such a fork: its rule reads an unset block as the Constantinople
block, the check compares the fields as they are and lets a conflict pass that the Constantinople
block does not have.
-/

namespace Virbicoin

/-! ## The check as a conjunction -/

/-- No check of `checkCompatible` fails at `head`. -/
structure Compatible (c newcfg : ChainConfig) (head : Int) : Prop where
  homestead : isForkIncompatible c.homesteadBlock newcfg.homesteadBlock head = false
  daoFork : isForkIncompatible c.daoForkBlock newcfg.daoForkBlock head = false
  daoSupport : (c.isDAOFork head && c.daoForkSupport != newcfg.daoForkSupport) = false
  eip150 : isForkIncompatible c.eip150Block newcfg.eip150Block head = false
  eip155 : isForkIncompatible c.eip155Block newcfg.eip155Block head = false
  eip158 : isForkIncompatible c.eip158Block newcfg.eip158Block head = false
  chainID : (c.isEIP158 head && !configNumEqual c.chainID newcfg.chainID) = false
  byzantium : isForkIncompatible c.byzantiumBlock newcfg.byzantiumBlock head = false
  constantinople :
    isForkIncompatible c.constantinopleBlock newcfg.constantinopleBlock head = false
  petersburg : (isForkIncompatible c.petersburgBlock newcfg.petersburgBlock head &&
    isForkIncompatible c.constantinopleBlock newcfg.petersburgBlock head) = false
  istanbul : isForkIncompatible c.istanbulBlock newcfg.istanbulBlock head = false
  muirGlacier : isForkIncompatible c.muirGlacierBlock newcfg.muirGlacierBlock head = false
  yoloV3 : isForkIncompatible c.yoloV3Block newcfg.yoloV3Block head = false
  ewasm : isForkIncompatible c.ewasmBlock newcfg.ewasmBlock head = false

theorem ChainConfig.checkCompatible_eq_none_iff {c newcfg : ChainConfig} {head : Int} :
    c.checkCompatible newcfg head = none ↔ Compatible c newcfg head := by
  unfold checkCompatible
  simp only [Option.orElse_eq_none, compatErrorIf_eq_none]
  constructor <;>
  · rintro ⟨h1, h2, h3, h4, h5, h6, h7, h8, h9, h10, h11, h12, h13, h14⟩
    exact ⟨h1, h2, h3, h4, h5, h6, h7, h8, h9, h10, h11, h12, h13, h14⟩

theorem ChainConfig.CheckCompatible_eq_none_iff {c newcfg : ChainConfig} {height : Nat} :
    c.CheckCompatible newcfg height = none ↔ Compatible c newcfg height :=
  CheckCompatible_eq_none.trans checkCompatible_eq_none_iff

/-! ## Petersburg -/

/-- The block Petersburg is active from: an unset block stands for the Constantinople block. -/
def ChainConfig.petersburgFrom (c : ChainConfig) : Option Int :=
  match c.petersburgBlock with
  | none => c.constantinopleBlock
  | some p => some p

theorem ChainConfig.isPetersburg_eq (c : ChainConfig) (num : Int) :
    c.isPetersburg num = isForked c.petersburgFrom num := by
  unfold isPetersburg petersburgFrom
  cases c.petersburgBlock <;> simp

/-- The two configurations read Petersburg alike up to `head`: from one block, from none that has
passed, or both from genesis. -/
def SamePetersburg (c newcfg : ChainConfig) (head : Int) : Prop :=
  isForkIncompatible c.petersburgFrom newcfg.petersburgFrom head = false ∨
    (isForked c.petersburgFrom 0 = true ∧ isForked newcfg.petersburgFrom 0 = true)

instance (c newcfg : ChainConfig) (head : Int) : Decidable (SamePetersburg c newcfg head) :=
  inferInstanceAs (Decidable (_ ∨ _))

theorem exists_between {x y : Int} {head : Nat} (hxy : x < y) (hy : 0 < y) (hx : x ≤ head) :
    ∃ b : Nat, b ≤ head ∧ x ≤ b ∧ (b : Int) < y := by
  refine ⟨x.toNat, ?_, ?_, ?_⟩ <;> omega

theorem isForked_agree_iff {s1 s2 : Option Int} {head : Nat} :
    (∀ b : Nat, b ≤ head → isForked s1 b = isForked s2 b) ↔
      isForkIncompatible s1 s2 head = false ∨ (isForked s1 0 = true ∧ isForked s2 0 = true) := by
  constructor
  · intro hagree
    rw [isForkIncompatible_eq_false]
    cases s1 with
    | none =>
      cases s2 with
      | none => exact .inl (.inl rfl)
      | some y =>
        refine .inl (.inr ⟨rfl, ?_⟩)
        have := hagree head (le_refl _)
        rw [← this]
        rfl
    | some x =>
      cases s2 with
      | none =>
        refine .inl (.inr ⟨?_, rfl⟩)
        have := hagree head (le_refl _)
        rw [this]
        rfl
      | some y =>
        simp only [isForked_some, decide_eq_decide, decide_eq_true_eq, decide_eq_false_iff_not,
          Option.some.injEq] at hagree ⊢
        by_contra hnot
        push Not at hnot
        obtain ⟨⟨hne, hpast⟩, hgen⟩ := hnot
        -- the earlier block has passed, the later one lies after genesis
        rcases Int.lt_or_lt_of_ne hne with hlt | hlt
        · have hx : x ≤ head := by
            by_contra hx
            exact absurd (hpast (by omega)) (by omega)
          obtain ⟨b, hb, hxb, hby⟩ := exists_between hlt (by omega) hx
          have := (hagree b hb).1 hxb
          omega
        have hy : y ≤ head := by
          by_contra hy
          exact hy (hpast (by omega))
        obtain ⟨b, hb, hyb, hbx⟩ := exists_between hlt (by omega) hy
        have := (hagree b hb).2 hyb
        omega
  rintro (h | ⟨h1, h2⟩) b hb
  · exact isForked_eq_of_compatible (by omega) h
  · rw [isForked_mono (by omega) h1, isForked_mono (by omega) h2]

/-! ## The rules of the imported blocks -/

def Rules.SameFlags (r r' : Rules) : Prop :=
  r.isHomestead = r'.isHomestead ∧ r.isEIP150 = r'.isEIP150 ∧ r.isEIP155 = r'.isEIP155 ∧
    r.isEIP158 = r'.isEIP158 ∧ r.isByzantium = r'.isByzantium ∧
    r.isConstantinople = r'.isConstantinople ∧ r.isPetersburg = r'.isPetersburg ∧
    r.isIstanbul = r'.isIstanbul ∧ r.isYoloV3 = r'.isYoloV3

instance (r r' : Rules) : Decidable (r.SameFlags r') := inferInstanceAs (Decidable (_ ∧ _))

theorem Compatible.sameFlags_iff {c newcfg : ChainConfig} {head b : Int}
    (h : Compatible c newcfg head) (hb : b ≤ head) :
    (c.rules b).SameFlags (newcfg.rules b) ↔
      isForked c.petersburgFrom b = isForked newcfg.petersburgFrom b := by
  rw [← ChainConfig.isPetersburg_eq, ← ChainConfig.isPetersburg_eq]
  constructor
  · rintro ⟨-, -, -, -, -, -, hp, -, -⟩
    exact hp
  intro hp
  exact ⟨isForked_eq_of_compatible hb h.homestead, isForked_eq_of_compatible hb h.eip150,
    isForked_eq_of_compatible hb h.eip155, isForked_eq_of_compatible hb h.eip158,
    isForked_eq_of_compatible hb h.byzantium, isForked_eq_of_compatible hb h.constantinople, hp,
    isForked_eq_of_compatible hb h.istanbul, isForked_eq_of_compatible hb h.yoloV3⟩

/-- **An accepted configuration keeps the rules of the imported blocks** exactly when it reads
Petersburg as the stored one does up to the height. -/
theorem CheckCompatible_rules_iff {stored new : ChainConfig} {height : Nat}
    (h : stored.CheckCompatible new height = none) :
    (∀ b : Nat, b ≤ height → (stored.rules b).SameFlags (new.rules b)) ↔
      SamePetersburg stored new height := by
  have hc := ChainConfig.CheckCompatible_eq_none_iff.1 h
  unfold SamePetersburg
  rw [← isForked_agree_iff]
  constructor
  · intro hflags b hb
    exact (hc.sameFlags_iff (by omega)).1 (hflags b hb)
  · intro hpet b hb
    exact (hc.sameFlags_iff (by omega)).2 (hpet b hb)

theorem CheckCompatible_rules_petersburg_set :
    SamePetersburg { constantinopleBlock := some 30 }
      { constantinopleBlock := some 30, petersburgBlock := some 30 } (40 : Nat) ∧
    ∀ b : Nat, b ≤ 40 →
      (ChainConfig.rules { constantinopleBlock := some 30 } b).SameFlags
        (ChainConfig.rules { constantinopleBlock := some 30, petersburgBlock := some 30 } b) :=
  ⟨by decide, (CheckCompatible_rules_iff
    (ChainConfig.CheckCompatible_eq_none.2 (by decide))).2 (by decide)⟩

/-- Constantinople at 10 and Petersburg unset, so active from 10; at height 50 a configuration that
moves Petersburg to 100 is accepted, and block 20 changes its rules. -/
theorem CheckCompatible_rules_petersburg_moved :
    ChainConfig.CheckCompatible { constantinopleBlock := some 10 }
      { constantinopleBlock := some 10, petersburgBlock := some 100 } 50 = none ∧
    ¬ (ChainConfig.rules { constantinopleBlock := some 10 } 20).SameFlags
      (ChainConfig.rules { constantinopleBlock := some 10, petersburgBlock := some 100 } 20) :=
  ⟨ChainConfig.CheckCompatible_eq_none.2 (by decide), by decide⟩

end Virbicoin
