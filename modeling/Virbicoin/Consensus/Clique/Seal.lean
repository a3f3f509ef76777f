import Virbicoin.Consensus.Clique.Recents

/-!
# Who may seal a block

Three places of `consensus/clique` decide whether a signer may sign a block on top of a snapshot:
`verifySeal` for a header received, `Seal` for a header to sign, and `apply` for the snapshot after
the header. `Seal` agrees with `apply` (`sealAllowed_iff_apply`). `verifySeal` agrees with it from
the block on at which the window of recent signers fits below the block number; before, its
subtraction wraps around and no recent signer is found (`checkSigner_iff_apply`).
-/

namespace Virbicoin.Clique

open Virbicoin.Lib

/-! ## Verifying and sealing -/

/-- The authorisation checks of `verifySeal`. -/
def Voting.checkSigner (snap : Voting) (number : Nat) (signer : Address) :
    Except CliqueError Unit := do
  failIf (signer ∉ snap.signers) .unauthorizedSigner
  -- fail only if the current block doesn't shift the signer out
  failIf (∃ seen ∈ snap.recents.keys,
    snap.recents.lookup seen = some signer ∧ seen > subUint64 number snap.limit) .recentlySigned

/-- `verifySeal`, given what `c.snapshot` returned for the parent. -/
def verifySeal (prims : Primitives) (fakeDiff : Bool) (snapshot : Except CliqueError Snapshot)
    (header : Header) : Except CliqueError Unit := do
  let number := header.numberU64
  failIf (number = 0) .unknownBlock
  let snap ← snapshot
  let signer ← ecrecover prims header
  snap.checkSigner number signer
  if fakeDiff then
    return ()
  let inturn ← snap.inturn number signer
  failIf (inturn ∧ header.difficulty ≠ diffInTurn) .wrongDifficulty
  failIf (¬ inturn ∧ header.difficulty ≠ diffNoTurn) .wrongDifficulty

/-- The authorisation checks of `Seal`: whether to sign now, or wait for the next block. -/
def Voting.sealAllowed (snap : Voting) (number : Nat) (signer : Address) :
    Except CliqueError Bool := do
  failIf (signer ∉ snap.signers) .unauthorizedSigner
  return ¬ ∃ seen ∈ snap.recents.keys, snap.recents.lookup seen = some signer ∧
    (number < snap.limit ∨ seen > subUint64 number snap.limit)

theorem Voting.exists_recent {snap : Voting} {signer : Address} {p : Nat → Prop} :
    (∃ seen ∈ snap.recents.keys, snap.recents.lookup seen = some signer ∧ p seen) ↔
      ∃ seen, snap.recents.lookup seen = some signer ∧ p seen := by
  constructor
  · rintro ⟨seen, -, h⟩
    exact ⟨seen, h⟩
  · rintro ⟨seen, h, hp⟩
    exact ⟨seen, Finmap.mem_keys.2 (Finmap.mem_of_lookup_eq_some h), h, hp⟩

theorem Voting.checkSigner_eq_ok {snap : Voting} {number : Nat} {signer : Address} :
    snap.checkSigner number signer = .ok () ↔ signer ∈ snap.signers ∧
        ∀ seen, snap.recents.lookup seen = some signer → seen ≤ subUint64 number snap.limit := by
  unfold checkSigner
  simp only [bind_eq_ok, failIf_eq_ok, not_not, exists_const, exists_recent, not_exists, not_and,
    not_lt]

theorem Voting.sealAllowed_eq_ok {snap : Voting} {number : Nat} {signer : Address} :
    snap.sealAllowed number signer = .ok true ↔
      signer ∈ snap.signers ∧ ∀ seen, snap.recents.lookup seen = some signer →
        snap.limit ≤ number ∧ seen ≤ subUint64 number snap.limit := by
  unfold sealAllowed
  simp only [bind_eq_ok, failIf_eq_ok, pure_eq_ok, not_not, exists_const, eq_comm (a := true),
    decide_eq_true_eq, exists_recent, not_exists, not_and, not_or, not_lt]

/-! ## The number of signers -/

theorem Voting.vote_card_le (s : Voting) (number : Nat) (signer coinbase : Address)
    (authorize : Bool) :
    (s.vote number signer coinbase authorize).signers.card ≤ s.signers.card + 1 := by
  unfold vote passVote
  split
  · unfold changeSigners
    split
    · exact Finset.card_insert_le _ _
    · exact Nat.le_succ_of_le (Finset.card_le_card (Finset.erase_subset _ _))
  · exact Nat.le_succ _

section Reachable

variable {prims : Primitives} {config : Config} {genesis : List Address} {s : Snapshot}
  {header : Header} {signer : Address}

theorem Reachable.card_le (hs : Reachable prims config genesis s) :
    s.signers.card ≤ genesis.length + s.number := by
  refine hs.induct (P := fun s => s.signers.card ≤ genesis.length + s.number) ?_ ?_
  · intro number hash
    exact Nat.le_add_right_of_le genesis.toFinset_card_le
  intro s header t _ hcard h
  obtain ⟨-, voting, hvoting, rfl⟩ := Snapshot.apply_singleton_eq_ok.1 h
  obtain ⟨signer, authorize, -, -, -, -, rfl⟩ := Voting.applyHeader_eq_ok.1 hvoting
  have hvote := Voting.vote_card_le (s.authorized s.config.epoch header.numberU64 signer)
    header.numberU64 signer header.coinbase authorize
  rw [Voting.authorized_signers] at hvote
  exact Nat.le_trans hvote (Nat.succ_le_succ hcard)

/-! ## Agreement -/

theorem Snapshot.exists_apply_iff (hnumber : header.numberU64 = s.number + 1)
    (hnonce : header.nonce = nonceAuthVote ∨ header.nonce = nonceDropVote)
    (hsigner : ecrecover prims header = .ok signer) :
    (∃ t, s.apply prims [header] = .ok t) ↔ signer ∈ s.signers ∧
        ∀ seen, s.recents.lookup seen = some signer → header.numberU64 = seen + s.limit := by
  have hvote : ∃ authorize, Voting.voteOf header.nonce = .ok authorize := by
    rcases hnonce with h | h
    · exact ⟨true, by rw [h]; decide⟩
    · exact ⟨false, by rw [h]; decide⟩
  obtain ⟨authorize, hvote⟩ := hvote
  have hrecent : (s.shiftRecents header.numberU64).isRecent signer = false ↔
      ∀ seen, s.recents.lookup seen = some signer → header.numberU64 = seen + s.limit := by
    rw [← Bool.not_eq_true, Voting.isRecent_eq_true]
    simp only [Voting.shiftRecents_lookup, not_exists]
    refine forall_congr' fun seen => ?_
    by_cases h : header.numberU64 = seen + s.limit <;> simp [h]
  rw [← hrecent]
  constructor
  · intro ⟨t, h⟩
    obtain ⟨-, voting, hvoting, -⟩ := Snapshot.apply_singleton_eq_ok.1 h
    obtain ⟨a, -, ha, hmem, hrec, -, -⟩ := Voting.applyHeader_eq_ok.1 hvoting
    cases hsigner.symm.trans ha
    exact ⟨hmem, hrec⟩
  intro ⟨hmem, hrec⟩
  exact ⟨_, Snapshot.apply_singleton_eq_ok.2 ⟨hnumber, _,
    Voting.applyHeader_eq_ok.2 ⟨signer, authorize, hsigner, hmem, hrec, hvote, rfl⟩, rfl⟩⟩

variable (hs : Reachable prims config genesis s) (hlen : genesis.length < 2 ^ 63)
  (hnumber : header.numberU64 = s.number + 1)
  (hnonce : header.nonce = nonceAuthVote ∨ header.nonce = nonceDropVote)
  (hsigner : ecrecover prims header = .ok signer)

include hs hlen hnumber hnonce hsigner

omit hlen in
/-- **`Seal` signs exactly what `apply` accepts.** -/
theorem sealAllowed_iff_apply :
    s.sealAllowed header.numberU64 signer = .ok true ↔ ∃ t, s.apply prims [header] = .ok t := by
  have hlt := header.numberU64_lt
  rw [Voting.sealAllowed_eq_ok, Snapshot.exists_apply_iff hnumber hnonce hsigner]
  refine and_congr_right fun _ => forall_congr' fun seen => forall_congr' fun hseen => ?_
  have hwindow := hs.recentWindow.lt seen signer hseen
  constructor
  · intro ⟨hle, hsub⟩
    rw [subUint64_of_le hlt hle] at hsub
    omega
  intro heq
  have hle : s.limit ≤ header.numberU64 := by omega
  rw [subUint64_of_le hlt hle]
  exact ⟨hle, by omega⟩

omit hlen in
theorem checkSigner_iff_of_limit_le (hle : s.limit ≤ header.numberU64) :
    s.checkSigner header.numberU64 signer = .ok () ↔ ∃ t, s.apply prims [header] = .ok t := by
  rw [Voting.checkSigner_eq_ok, Snapshot.exists_apply_iff hnumber hnonce hsigner,
    subUint64_of_le header.numberU64_lt hle]
  refine and_congr_right fun _ => forall_congr' fun seen => forall_congr' fun hseen => ?_
  have := hs.recentWindow.lt seen signer hseen
  omega

/-- **`verifySeal` accepts the signers `apply` accepts** exactly when the window of recent signers
fits below the block number, or the signer is none of the signers or none of the recent ones. -/
theorem checkSigner_iff_apply :
    (s.checkSigner header.numberU64 signer = .ok () ↔ ∃ t, s.apply prims [header] = .ok t) ↔
      s.limit ≤ header.numberU64 ∨ signer ∉ s.signers ∨ s.isRecent signer = false := by
  by_cases hle : s.limit ≤ header.numberU64
  · exact iff_of_true (checkSigner_iff_of_limit_le hs hnumber hnonce hsigner hle) (.inl hle)
  have hlt : header.numberU64 < 2 ^ 64 := uint64_lt _
  have hlimit : s.limit < 2 ^ 64 := by
    have := hs.card_le
    unfold Voting.limit
    omega
  -- the subtraction wraps around to a number no block of the window has
  rw [Voting.checkSigner_eq_ok, Snapshot.exists_apply_iff hnumber hnonce hsigner,
    subUint64_of_lt hlimit (by omega)]
  have haccept : ∀ seen, s.recents.lookup seen = some signer →
      seen ≤ header.numberU64 + 2 ^ 64 - s.limit := by
    intro seen hseen
    have := hs.recentWindow.le seen signer hseen
    omega
  have hreject : ∀ seen, ¬ header.numberU64 = seen + s.limit := fun seen => by omega
  rw [iff_true_intro haccept, ← Bool.not_eq_true, Voting.isRecent_eq_true]
  simp only [hreject, hle, imp_false, false_or, and_true]
  by_cases hmem : signer ∈ s.signers
  · simp [hmem]
  · simp [hmem]

omit hlen hsigner in
/-- From the block on at which the window fits below the block number, a header `verifySeal` accepts
has a snapshot. -/
theorem verifySeal_apply {fakeDiff : Bool} (hle : s.limit ≤ header.numberU64)
    (h : verifySeal prims fakeDiff (.ok s) header = .ok ()) :
    ∃ t, s.apply prims [header] = .ok t := by
  unfold verifySeal at h
  simp only [bind_eq_ok, failIf_eq_ok, exists_const, Except.ok.injEq] at h
  obtain ⟨-, snap, rfl, signer, hsigner, ⟨⟩, hcheck, -⟩ := h
  exact (checkSigner_iff_of_limit_le hs hnumber hnonce hsigner hle).1 hcheck

omit hs hlen hnumber hnonce hsigner

theorem sealAllowed_iff_apply_first :
    (testerGenesis [1, 2, 3]).sealAllowed 1 1 = .ok true ∧
      ∃ t, (testerGenesis [1, 2, 3]).apply testerPrims [testerHeader 1 1 0 false] = .ok t := by
  have hseal : (testerGenesis [1, 2, 3]).sealAllowed
      (testerHeader 1 1 0 false).numberU64 1 = .ok true := by decide +kernel
  exact ⟨hseal, (sealAllowed_iff_apply (.newSnapshot 0 0) (by decide +kernel)
    (by decide +kernel) (by decide +kernel)).1 hseal⟩

theorem checkSigner_iff_apply_first :
    (testerGenesis [1, 2, 3]).checkSigner 1 1 = .ok () ∧
      ∃ t, (testerGenesis [1, 2, 3]).apply testerPrims [testerHeader 1 1 0 false] = .ok t := by
  have hcheck : (testerGenesis [1, 2, 3]).checkSigner
      (testerHeader 1 1 0 false).numberU64 1 = .ok () := by decide +kernel
  exact ⟨hcheck, ((checkSigner_iff_apply (.newSnapshot 0 0) (by decide) (by decide +kernel)
    (by decide +kernel) (by decide +kernel)).2 (by decide +kernel)).1 hcheck⟩

/-- Five signers, of which the first signs block 1 and wants to sign block 2: `verifySeal` lets it,
and `apply` does not. -/
theorem checkSigner_second_block :
    ∃ s, Reachable testerPrims testerConfig [1, 2, 3, 4, 5] s ∧
      (testerHeader 2 1 0 false).numberU64 = s.number + 1 ∧
      (testerHeader 2 1 0 false).nonce = nonceDropVote ∧
      ecrecover testerPrims (testerHeader 2 1 0 false) = .ok 1 ∧
      s.checkSigner (testerHeader 2 1 0 false).numberU64 1 = .ok () ∧
      s.apply testerPrims [testerHeader 2 1 0 false] = .error .recentlySigned := by
  obtain ⟨s, h, hs⟩ := map_eq_ok.1 (show ((testerGenesis [1, 2, 3, 4, 5]).apply testerPrims
      [testerHeader 1 1 0 false]).map (fun s => (s.number,
        s.checkSigner (testerHeader 2 1 0 false).numberU64 1,
        s.apply testerPrims [testerHeader 2 1 0 false])) =
      .ok (1, .ok (), .error .recentlySigned) by decide +kernel)
  obtain ⟨hnumber, hs⟩ := Prod.mk.inj hs
  obtain ⟨hcheck, happly⟩ := Prod.mk.inj hs
  refine ⟨s, (Reachable.newSnapshot 0 0).apply h, ?_, by decide, by decide +kernel, hcheck, happly⟩
  rw [hnumber]
  decide

end Reachable

end Virbicoin.Clique
