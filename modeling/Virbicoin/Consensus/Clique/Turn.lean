import Virbicoin.Consensus.Clique.Votes

/-!
# The turn of a signer

The difficulty of a block says whether its signer was in turn, which `inturn` decides by the block
number modulo the number of signers. With no signers left the division panics. A vote leaves no
signer only when the sole signer drops itself, which the tests of the engine allow
(`apply_signers_nonempty_iff`). Any change has a majority behind it (`Reachable.signers_majority`).
-/

namespace Virbicoin.Clique

open Virbicoin.Lib

def calcDifficulty (snap : Snapshot) (signer : Address) : Except CliqueError Int := do
  if ← snap.inturn (snap.number + 1) signer then
    return diffInTurn
  else
    return diffNoTurn

theorem Voting.inturn_ok {s : Voting} (h : s.signers.Nonempty) (number : Nat) (signer : Address) :
    ∃ turn, s.inturn number signer = .ok turn := by
  have hlength : s.signersAscending.length ≠ 0 := by
    unfold signersAscending
    rw [Finset.length_sort]
    exact Finset.card_ne_zero.2 h
  exact ⟨_, if_neg hlength⟩

theorem calcDifficulty_ok {snap : Snapshot} (h : snap.signers.Nonempty) (signer : Address) :
    ∃ difficulty, calcDifficulty snap signer = .ok difficulty := by
  obtain ⟨turn, hturn⟩ := Voting.inturn_ok h (snap.number + 1) signer
  unfold calcDifficulty
  rw [hturn]
  cases turn
  · exact ⟨diffNoTurn, rfl⟩
  · exact ⟨diffInTurn, rfl⟩

/-! ## How the signers run out -/

namespace Voting

variable {s : Voting} {number : Nat} {signer : Address} {authorize : Bool}

theorem sole_signer_tally (h : VoteBook s) (hsole : s.signers = {signer})
    (hnew : ∀ v ∈ s.votes, ¬ (v.signer = signer ∧ v.address = signer)) :
    s.tally.lookup signer = none := by
  rw [h.tally signer, if_pos]
  rw [Multiset.coe_count, List.count_eq_zero]
  intro hmem
  obtain ⟨v, hv, haddress⟩ := List.mem_map.1 hmem
  have hsigner := h.signer_mem v hv
  rw [hsole, Finset.mem_singleton] at hsigner
  exact hnew v hv ⟨hsigner, haddress⟩

theorem tallyVote_sole (h : VoteBook s) (hsole : s.signers = {signer})
    (hnew : ∀ v ∈ s.votes, ¬ (v.signer = signer ∧ v.address = signer)) :
    (s.tallyVote signer number signer authorize).tally.lookup signer =
      if authorize then none else some { authorize := false, votes := 1 } := by
  have hnone := sole_signer_tally h hsole hnew
  unfold tallyVote cast validVote
  rw [hsole, hnone]
  cases authorize
  · simp
  · simpa using hnone

theorem passVote_signers {coinbase : Address} : (s.passVote number coinbase).signers =
      if (s.tallyOn coinbase).votes > s.signers.card / 2 then
        if (s.tallyOn coinbase).authorize then insert coinbase s.signers
        else s.signers.erase coinbase
      else s.signers := by
  unfold passVote
  split
  · unfold changeSigners
    split <;> rfl
  · rfl

theorem vote_signers_eq_empty (h : VoteBook s) (hmem : signer ∈ s.signers) (number : Nat)
    (coinbase : Address) (authorize : Bool) :
    (s.vote number signer coinbase authorize).signers = ∅ ↔
      s.signers = {coinbase} ∧ authorize = false := by
  obtain ⟨hbook, hnew⟩ := discardVote_voteBook h
  have hsigner : s.signers = {coinbase} → signer = coinbase := fun hsole =>
    Finset.mem_singleton.1 (hsole ▸ hmem)
  unfold vote
  rw [passVote_signers, tallyVote_signers, discardVote_signers]
  unfold tallyOn
  constructor
  · intro hempty
    split at hempty
    · rename_i hpassed
      split at hempty
      · exact absurd hempty (Finset.insert_ne_empty _ _)
      have hsole : s.signers = {coinbase} := by
        rw [Finset.erase_eq_empty_iff] at hempty
        exact hempty.resolve_left (Finset.ne_empty_of_mem hmem)
      obtain rfl := hsigner hsole
      refine ⟨hsole, ?_⟩
      rw [tallyVote_sole hbook hsole hnew] at hpassed
      cases authorize
      · rfl
      · exact absurd hpassed (Nat.not_lt_zero _)
    · exact absurd hempty (Finset.ne_empty_of_mem hmem)
  intro h
  obtain ⟨hsole, rfl⟩ := h
  obtain rfl := hsigner hsole
  rw [tallyVote_sole hbook hsole hnew, hsole]
  simp

def voters (s : Voting) (a : Address) : Finset Address :=
  ((s.votes.filter (·.address = a)).map (·.signer)).toFinset

theorem card_voters (h : VoteBook s) (a : Address) : (s.voters a).card = (s.tallyOn a).votes := by
  have hnodup : ((s.votes.filter (·.address = a)).map (·.signer)).Nodup := by
    refine List.pairwise_map.2 ((h.nodup.filter _).imp_of_mem fun hv hw hne heq => hne ?_)
    rw [heq, of_decide_eq_true (List.mem_filter.1 hv).2, of_decide_eq_true (List.mem_filter.1 hw).2]
  rw [voters, List.toFinset_card_of_nodup hnodup, List.length_map, ← List.countP_eq_length_filter,
    tallyOn, h.tally a, Multiset.coe_count, List.count_eq_countP, List.countP_map]
  split
  · assumption
  · rfl

theorem tallyOn_authorize (h : VoteBook s) {v : Vote} (hv : v ∈ s.votes) {a : Address}
    (ha : v.address = a) : (s.tallyOn a).authorize = v.authorize := by
  have hmem : a ∈ (↑(s.votes.map (·.address)) : Multiset Address) := List.mem_map.2 ⟨v, hv, ha⟩
  rw [tallyOn, h.tally a, if_neg (Multiset.count_ne_zero.2 hmem), h.authorize v hv, ha]
  rfl

theorem mem_tallyVote_votes (h : VoteBook s) {coinbase : Address} {v : Vote}
    (hv : v ∈ ((s.discardVote signer coinbase).tallyVote signer number coinbase authorize).votes) :
    v = ⟨signer, number, coinbase, authorize⟩ ∨ v ∈ s.votes := by
  rw [discardVote_eq h] at hv
  simp only [tallyVote] at hv
  split at hv
  · rcases List.mem_append.1 hv with hv | hv
    · exact .inr (List.mem_of_mem_filter hv)
    · exact .inl (List.mem_singleton.1 hv)
  · exact .inr (List.mem_of_mem_filter hv)

theorem authorized_votes_subset (s : Voting) (epoch number : Nat) (signer : Address) :
    (s.authorized epoch number signer).votes ⊆ s.votes := by
  unfold authorized recordSigner resetVotes
  split
  · exact List.nil_subset _
  · exact List.Subset.refl _

end Voting

section Chains

variable {prims : Primitives} {config : Config} {genesis : List Address}

theorem voteOf_eq_false {nonce : BitVec 64} {authorize : Bool}
    (h : Voting.voteOf nonce = .ok authorize) : authorize = false ↔ nonce = nonceDropVote := by
  unfold Voting.voteOf at h
  split at h
  · rename_i hauth
    cases h
    rw [hauth]
    decide
  split at h
  · rename_i hdrop
    cases h
    exact iff_of_true rfl hdrop
  · cases h

/-- **Only a majority changes the signers.** A block leaves the signers as they are, or it adds or
drops its beneficiary and more than half of the signers have voted for that, its own one with the
block itself. -/
theorem Reachable.signers_majority {s t : Snapshot} {header : Header}
    (hs : Reachable prims config genesis s) (h : s.apply prims [header] = .ok t) :
    t.signers = s.signers ∨ ∃ voters ⊆ s.signers, s.signers.card < 2 * voters.card ∧
      ∃ authorize, (∀ a ∈ voters,
        ecrecover prims header = .ok a ∧ Voting.voteOf header.nonce = .ok authorize ∨
          ∃ v ∈ s.votes, v.signer = a ∧ v.address = header.coinbase ∧ v.authorize = authorize) ∧
        t.signers = if authorize then insert header.coinbase s.signers
          else s.signers.erase header.coinbase := by
  obtain ⟨-, voting, hvoting, rfl⟩ := Snapshot.apply_singleton_eq_ok.1 h
  obtain ⟨signer, authorize, hsigner, hmem, -, hvote, rfl⟩ := Voting.applyHeader_eq_ok.1 hvoting
  have hauth := Voting.authorized_voteBook hs.voteBook s.config.epoch header.numberU64 signer
  have hsub := Voting.authorized_votes_subset s.toVoting s.config.epoch header.numberU64 signer
  have hsame : s.signers = (s.authorized s.config.epoch header.numberU64 signer).signers :=
    Voting.authorized_signers.symm
  rw [hsame] at hmem ⊢
  generalize s.authorized s.config.epoch header.numberU64 signer = u at *
  obtain ⟨hbook, hnew⟩ := Voting.discardVote_voteBook hauth
  have hvoted : VoteBook ((u.discardVote signer header.coinbase).tallyVote signer header.numberU64
    header.coinbase authorize) := Voting.tallyVote_voteBook hbook hmem hnew
  have hcard := Voting.card_voters hvoted header.coinbase
  simp only [Voting.vote, Voting.passVote_signers]
  split
  · rename_i hmajority
    rw [← hcard, gt_iff_lt, Nat.div_lt_iff_lt_mul (by decide), mul_comm] at hmajority
    refine .inr ⟨_, fun a ha => ?_, hmajority, _, fun a ha => ?_, rfl⟩
    · obtain ⟨v, hv, rfl⟩ := List.mem_map.1 (List.mem_toFinset.1 ha)
      exact hvoted.signer_mem v (List.mem_of_mem_filter hv)
    · obtain ⟨v, hv, rfl⟩ := List.mem_map.1 (List.mem_toFinset.1 ha)
      obtain ⟨hv, haddr⟩ := List.mem_filter.1 hv
      rw [Voting.tallyOn_authorize hvoted hv (of_decide_eq_true haddr)]
      rcases Voting.mem_tallyVote_votes hauth hv with rfl | hv
      · exact .inl ⟨hsigner, hvote⟩
      · exact .inr ⟨v, hsub hv, rfl, of_decide_eq_true haddr, rfl⟩
  · exact .inl rfl

theorem Reachable.signers_majority_one : ∃ t,
    (testerGenesis [1]).apply testerPrims [testerHeader 1 1 2 true] = .ok t ∧
      t.signers = {1, 2} ∧ ∃ voters ⊆ (testerGenesis [1]).signers, 1 < 2 * voters.card := by
  obtain ⟨t, h, ht⟩ := map_eq_ok.1 (show ((testerGenesis [1]).apply testerPrims
    [testerHeader 1 1 2 true]).map (·.signers) = .ok {1, 2} by decide +kernel)
  refine ⟨t, h, ht, ?_⟩
  rcases Reachable.signers_majority (.newSnapshot 0 0) h with hsame | ⟨voters, hsub, hcard, -⟩
  · exact absurd (ht.symm.trans hsame) (by decide)
  · exact ⟨voters, hsub, hcard⟩

theorem Reachable.apply_eq_empty {s t : Snapshot} {header : Header}
    (hs : Reachable prims config genesis s) (h : s.apply prims [header] = .ok t) :
    t.signers = ∅ ↔ s.signers = {header.coinbase} ∧ header.nonce = nonceDropVote := by
  obtain ⟨-, voting, hvoting, rfl⟩ := Snapshot.apply_singleton_eq_ok.1 h
  obtain ⟨signer, authorize, -, hmem, -, hvote, rfl⟩ := Voting.applyHeader_eq_ok.1 hvoting
  have hbook := Voting.authorized_voteBook hs.voteBook s.config.epoch header.numberU64 signer
  have hempty := Voting.vote_signers_eq_empty hbook (by rwa [Voting.authorized_signers])
    header.numberU64 header.coinbase authorize
  rw [Voting.authorized_signers, voteOf_eq_false hvote] at hempty
  exact hempty

/-- The last of the headers is the vote of the sole signer to drop itself. -/
def SoleSignerLeaves (prims : Primitives) (s : Snapshot) (headers : List Header) : Prop :=
  ∃ init last u, headers = init ++ [last] ∧ s.apply prims init = .ok u ∧
    u.signers = {last.coinbase} ∧ last.nonce = nonceDropVote

/-- **A chain has signers left** exactly unless its last block is the vote of the sole signer to
drop itself; while it has, the turn and the difficulty of any signer are defined. -/
theorem apply_signers_nonempty_iff {number : Nat} {hash : Hash} {headers : List Header}
    {s : Snapshot} (hne : genesis ≠ [])
    (h : (newSnapshot config number hash genesis).apply prims headers = .ok s) :
    (s.signers.Nonempty ↔
      ¬ SoleSignerLeaves prims (newSnapshot config number hash genesis) headers) ∧
    (s.signers.Nonempty → ∀ signer,
      (∀ block, ∃ turn, s.inturn block signer = .ok turn) ∧
        ∃ difficulty, calcDifficulty s signer = .ok difficulty) := by
  refine ⟨?_, fun hs signer => ⟨fun block => Voting.inturn_ok hs block signer,
    calcDifficulty_ok hs signer⟩⟩
  rw [Finset.nonempty_iff_ne_empty, not_iff_not]
  rcases headers.eq_nil_or_concat with rfl | ⟨init, last, rfl⟩
  · cases h
    refine iff_of_false ?_ ?_
    · exact fun hempty => hne (genesis.toFinset_eq_empty_iff.1 hempty)
    intro ⟨init, last, _, hnil, _⟩
    cases init <;> cases hnil
  rw [List.concat_eq_append] at h ⊢
  obtain ⟨u, hu, hlast⟩ := Snapshot.apply_append.1 h
  rw [((Reachable.newSnapshot number hash).apply hu).apply_eq_empty hlast]
  constructor
  · intro ⟨hsole, hdrop⟩
    exact ⟨init, last, u, rfl, hu, hsole, hdrop⟩
  intro ⟨init', last', u', heq, hu', hsole, hdrop⟩
  obtain ⟨rfl, hlast'⟩ := List.append_inj' heq rfl
  cases hlast'
  cases hu.symm.trans hu'
  exact ⟨hsole, hdrop⟩

theorem apply_signers_nonempty_added :
    ∃ s, (testerGenesis [1]).apply testerPrims [testerHeader 1 1 2 true] = .ok s ∧
      ∃ difficulty, calcDifficulty s 7 = .ok difficulty := by
  obtain ⟨s, h, hsigners⟩ := map_eq_ok.1 (show ((testerGenesis [1]).apply testerPrims
      [testerHeader 1 1 2 true]).map (·.signers) = .ok {1, 2} by decide +kernel)
  have hnonempty : s.signers.Nonempty := by
    rw [hsigners]
    decide
  exact ⟨s, h, ((apply_signers_nonempty_iff (by decide) h).2 hnonempty 7).2⟩

/-- The sole signer of a chain drops itself in block 1, and the turn at block 2 panics. -/
theorem apply_sole_signer_leaves :
    ∃ s, (testerGenesis [1]).apply testerPrims [testerHeader 1 1 1 false] = .ok s ∧
      s.signers = ∅ ∧ calcDifficulty s 1 = .error .divideByZero := by
  obtain ⟨s, h, hs⟩ := map_eq_ok.1 (show ((testerGenesis [1]).apply testerPrims
      [testerHeader 1 1 1 false]).map (fun s => (s.signers, calcDifficulty s 1)) =
      .ok (∅, .error .divideByZero) by decide +kernel)
  obtain ⟨hsigners, hdifficulty⟩ := Prod.mk.inj hs
  exact ⟨s, h, hsigners, hdifficulty⟩

end Chains

end Virbicoin.Clique
