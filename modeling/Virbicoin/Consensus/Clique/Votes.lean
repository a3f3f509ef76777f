import Mathlib.Algebra.Order.Group.Multiset
import Virbicoin.Consensus.Clique.Snapshot

/-!
# The vote book of a clique snapshot

A snapshot keeps the votes cast as a list and, to avoid recounting them, a tally for each account
voted on. `TallyOf` says which tallies belong to a multiset of accounts voted on: casting a vote
adds an account to the multiset and uncasting one removes it. Every block leaves the tallies those
of the votes (`VoteBook`).
-/

namespace Virbicoin.Clique

open Virbicoin.Lib Finmap Multiset

/-! ## Tallies of a multiset of accounts -/

/-- `tallies` counts the accounts `voted` on, each for the change of its status. -/
def TallyOf (signers : Finset Address) (voted : Multiset Address) (tallies : TallyMap) : Prop :=
  ∀ a, tallies.lookup a =
    if voted.count a = 0 then none
    else some { authorize := decide (a ∉ signers), votes := voted.count a }

namespace TallyOf

variable {signers : Finset Address} {voted : Multiset Address} {tallies : TallyMap} {a : Address}

theorem empty : TallyOf signers 0 ∅ := fun a => by simp

theorem insert (h : TallyOf signers voted tallies) : TallyOf signers (a ::ₘ voted)
      (tallies.insert a { authorize := decide (a ∉ signers), votes := voted.count a + 1 }) := by
  intro b
  by_cases hb : b = a
  · subst hb
    rw [lookup_insert, count_cons_self, if_neg (by omega)]
  · rw [lookup_insert_of_ne _ hb, count_cons_of_ne hb, h b]

theorem uncast (h : TallyOf signers (a ::ₘ voted) tallies) :
    TallyOf signers voted (Voting.uncast tallies a (decide (a ∉ signers))).1 := by
  have ha := h a
  rw [if_neg (by simp)] at ha
  unfold Voting.uncast
  rw [ha]
  simp only [ne_eq, not_true_eq_false, if_false, count_cons_self]
  intro b
  split
  · by_cases hb : b = a
    · subst hb
      rw [lookup_insert, Nat.add_sub_cancel, if_neg (by omega)]
    · rw [lookup_insert_of_ne _ hb, h b, count_cons_of_ne hb]
  by_cases hb : b = a
  · subst hb
    rw [lookup_erase, if_pos (by omega)]
  · rw [lookup_erase_ne hb, h b, count_cons_of_ne hb]

theorem foldl_uncast {votes : List Vote}
    (hauth : ∀ v ∈ votes, v.authorize = decide (v.address ∉ signers))
    (h : TallyOf signers (votes.map (·.address) + voted) tallies) :
    TallyOf signers voted
      (votes.foldl (fun t v => (Voting.uncast t v.address v.authorize).1) tallies) := by
  induction votes generalizing tallies with
  | nil => simpa using h
  | cons v votes ih =>
    rw [List.foldl_cons]
    refine ih (fun w hw => hauth w (List.mem_cons_of_mem _ hw)) ?_
    rw [hauth v List.mem_cons_self]
    refine .uncast ?_
    simpa [← cons_coe, cons_add] using h

theorem erase {signers' : Finset Address} (h : TallyOf signers voted tallies)
    (hsame : ∀ b, b ≠ a → (b ∈ signers' ↔ b ∈ signers)) :
    TallyOf signers' (voted.filter (· ≠ a)) (tallies.erase a) := by
  intro b
  by_cases hb : b = a
  · subst hb
    simp
  · rw [lookup_erase_ne hb, h b, count_filter_of_pos (p := (· ≠ a)) hb]
    simp only [hsame b hb]

end TallyOf

/-! ## The vote book -/

/-- The votes are for the change of the status of an account, at most one of a signer on each, and
the tallies count them. -/
structure Ballots (signers : Finset Address) (votes : List Vote) (tallies : TallyMap) : Prop where
  tally : TallyOf signers (votes.map (·.address)) tallies
  authorize : ∀ v ∈ votes, v.authorize = decide (v.address ∉ signers)
  nodup : votes.Pairwise fun v w => (v.signer, v.address) ≠ (w.signer, w.address)

structure VoteBook (s : Voting) : Prop extends Ballots s.signers s.votes s.tally where
  signer_mem : ∀ v ∈ s.votes, v.signer ∈ s.signers

theorem Ballots.empty (signers : Finset Address) : Ballots signers [] ∅ := ⟨.empty, nofun, .nil⟩

theorem Ballots.discard {signers : Finset Address} {votes : List Vote} {tallies : TallyMap}
    (h : Ballots signers votes tallies) (p : Vote → Bool) :
    Ballots signers (votes.filter fun v => !p v)
      ((votes.filter p).foldl (fun t v => (Voting.uncast t v.address v.authorize).1) tallies) := by
  refine ⟨TallyOf.foldl_uncast (fun v hv => h.authorize v (List.mem_of_mem_filter hv)) ?_,
    fun v hv => h.authorize v (List.mem_of_mem_filter hv), h.nodup.filter _⟩
  have hperm := (List.filter_append_perm p votes).map (·.address)
  rw [List.map_append] at hperm
  rw [coe_add, coe_eq_coe.2 hperm]
  exact h.tally

theorem Ballots.erase {signers signers' : Finset Address} {votes : List Vote} {tallies : TallyMap}
    {a : Address} (h : Ballots signers votes tallies)
    (hsame : ∀ b, b ≠ a → (b ∈ signers' ↔ b ∈ signers)) :
    Ballots signers' (votes.filter fun v => !decide (v.address = a)) (tallies.erase a) := by
  refine ⟨?_, ?_, h.nodup.filter _⟩
  · have htally := h.tally.erase hsame
    rw [filter_coe, List.filter_map] at htally
    simpa [Function.comp_def] using htally
  intro v hv
  obtain ⟨hmem, ha⟩ := List.mem_filter.1 hv
  rw [h.authorize v hmem]
  simp only [hsame v.address (by simpa using ha)]

namespace Voting

variable {s : Voting} {epoch number : Nat} {signer coinbase : Address} {authorize : Bool}

theorem authorized_voteBook (h : VoteBook s) (epoch number : Nat) (signer : Address) :
    VoteBook (s.authorized epoch number signer) := by
  unfold authorized recordSigner
  refine ⟨?_, ?_⟩
  · unfold resetVotes
    split
    · exact .empty _
    · exact h.toBallots
  unfold resetVotes
  split
  · exact nofun
  · exact h.signer_mem

theorem discardVote_eq (h : VoteBook s) : s.discardVote signer coinbase = { s with
        tally := (deleteAll (fun vote : Vote => vote.signer = signer && vote.address = coinbase)
          (fun t v => (uncast t v.address v.authorize).1) s.tally s.votes).1
        votes := s.votes.filter fun v => !(v.signer = signer && v.address = coinbase) } := by
  unfold discardVote
  rw [deleteFirst_eq_deleteAll, deleteAll_eq]
  refine h.nodup.imp fun hne hboth => hne ?_
  simp only [Bool.and_eq_true, decide_eq_true_eq] at hboth
  rw [hboth.1.1, hboth.1.2, hboth.2.1, hboth.2.2]

theorem discardVote_voteBook (h : VoteBook s) : VoteBook (s.discardVote signer coinbase) ∧
      ∀ v ∈ (s.discardVote signer coinbase).votes,
        ¬ (v.signer = signer ∧ v.address = coinbase) := by
  rw [discardVote_eq h, deleteAll_eq]
  refine ⟨⟨h.toBallots.discard _, fun v hv => h.signer_mem v (List.mem_of_mem_filter hv)⟩, ?_⟩
  intro v hv
  have hv' := List.of_mem_filter hv
  rw [Bool.not_eq_true', Bool.and_eq_false_iff, decide_eq_false_iff_not,
    decide_eq_false_iff_not] at hv'
  exact not_and_or.2 hv'

theorem validVote_eq_true : s.validVote coinbase authorize = true ↔
    authorize = decide (coinbase ∉ s.signers) := by
  unfold validVote
  by_cases h : coinbase ∈ s.signers <;> cases authorize <;> simp [h]

theorem cast_of_validVote (h : VoteBook s) (hv : s.validVote coinbase authorize = true) :
    s.cast coinbase authorize = (s.tally.insert coinbase {
        authorize := decide (coinbase ∉ s.signers)
        votes := count coinbase (s.votes.map (·.address)) + 1 }, true) := by
  have hlookup := h.tally coinbase
  unfold cast
  rw [hv]
  split at hlookup
  · rename_i h0
    simp [hlookup, h0, validVote_eq_true.1 hv]
  · simp [hlookup]

theorem tallyVote_voteBook (h : VoteBook s) (hmem : signer ∈ s.signers)
    (hnew : ∀ v ∈ s.votes, ¬ (v.signer = signer ∧ v.address = coinbase)) :
    VoteBook (s.tallyVote signer number coinbase authorize) := by
  unfold tallyVote
  by_cases hv : s.validVote coinbase authorize = true
  · rw [cast_of_validVote h hv]
    refine ⟨⟨?_, ?_, ?_⟩, ?_⟩
    · have htally := h.tally.insert (a := coinbase)
      simpa [← coe_add, cons_coe, add_comm, ← singleton_add] using htally
    · intro v hvm
      rcases List.mem_append.1 hvm with hvm | hvm
      · exact h.authorize v hvm
      rw [mem_singleton.1 hvm]
      exact validVote_eq_true.1 hv
    · refine List.pairwise_append.2 ⟨h.nodup, List.pairwise_singleton _ _, ?_⟩
      intro v hvm w hw heq
      rw [List.mem_singleton.1 hw] at heq
      exact hnew v hvm (Prod.mk.inj heq)
    · intro v hvm
      rcases List.mem_append.1 hvm with hvm | hvm
      · exact h.signer_mem v hvm
      rw [mem_singleton.1 hvm]
      exact hmem
  unfold cast
  simp only [hv, Bool.not_false, if_true]
  exact h

theorem closeVote_voteBook {signers : Finset Address} (h : Ballots signers s.votes s.tally)
    (hmem : ∀ v ∈ s.votes, v.signer ∈ s.signers)
    (hsame : ∀ b, b ≠ coinbase → (b ∈ s.signers ↔ b ∈ signers)) :
    VoteBook (s.closeVote coinbase) := by
  have hvotes : (s.closeVote coinbase).votes =
      s.votes.filter fun v => !decide (v.address = coinbase) := by
    unfold closeVote discardVotesOn
    rw [deleteAll_eq]
  refine ⟨?_, ?_⟩
  · rw [hvotes]
    exact h.erase hsame
  rw [hvotes]
  intro v hv
  exact hmem v (List.mem_of_mem_filter hv)

theorem dropSigner_eq : s.dropSigner number coinbase =
    { signers := s.signers.erase coinbase
      recents := (Voting.shiftRecents { s with signers := s.signers.erase coinbase } number).recents
      votes := s.votes.filter fun v => !decide (v.signer = coinbase)
      tally := (s.votes.filter fun v => decide (v.signer = coinbase)).foldl
        (fun t v => (uncast t v.address v.authorize).1) s.tally } := by
  unfold dropSigner discardVotesBy
  simp only [deleteAll_eq, shiftRecents_signers, shiftRecents_votes, shiftRecents_tally]

theorem passVote_voteBook (h : VoteBook s) : VoteBook (s.passVote number coinbase) := by
  unfold passVote
  split
  · unfold changeSigners
    split
    · refine closeVote_voteBook h.toBallots ?_ fun b hb => by simp [hb]
      intro v hv
      exact Finset.mem_insert_of_mem (h.signer_mem v hv)
    rw [dropSigner_eq]
    refine closeVote_voteBook (h.toBallots.discard _) ?_ fun b hb => by simp [hb]
    intro v hv
    obtain ⟨hv, hne⟩ := List.mem_filter.1 hv
    exact Finset.mem_erase.2 ⟨by simpa using hne, h.signer_mem v hv⟩
  · exact h

theorem applyHeader_voteBook {prims : Primitives} {header : Header} {t : Voting} (h : VoteBook s)
    (happly : s.applyHeader prims epoch header = .ok t) : VoteBook t := by
  obtain ⟨signer, authorize, -, hmem, -, -, rfl⟩ := applyHeader_eq_ok.1 happly
  obtain ⟨hbook, hnew⟩ := discardVote_voteBook (authorized_voteBook h epoch header.numberU64 signer)
  refine passVote_voteBook (tallyVote_voteBook hbook ?_ hnew)
  rw [discardVote_signers, authorized_signers]
  exact hmem

end Voting

/-! ## Reachable snapshots -/

theorem Reachable.voteBook {prims : Primitives} {config : Config} {signers : List Address}
    {s : Snapshot} (hs : Reachable prims config signers s) : VoteBook s.toVoting := by
  refine hs.induct (P := fun s => VoteBook s.toVoting) ?_ ?_
  · intro number hash
    exact ⟨.empty _, nofun⟩
  intro s header t _ hbook h
  obtain ⟨-, voting, hvoting, rfl⟩ := Snapshot.apply_singleton_eq_ok.1 h
  exact Voting.applyHeader_voteBook hbook hvoting

/-- **The tallies of a reachable snapshot are those of its votes**, which are all for the change of
an account's status and come from current signers, at most one of each on an account. -/
theorem Reachable.tally_votes {prims : Primitives} {config : Config} {signers : List Address}
    {s : Snapshot} (hs : Reachable prims config signers s) :
    (∀ a, (∃ tally, s.tally.lookup a = some tally) ↔ ∃ v ∈ s.votes, v.address = a) ∧
    (∀ a tally, s.tally.lookup a = some tally →
      tally.votes = s.votes.countP (·.address = a) ∧
      tally.authorize = decide (a ∉ s.signers) ∧
      ∀ v ∈ s.votes, v.address = a → v.authorize = tally.authorize) ∧
    (∀ v ∈ s.votes, v.signer ∈ s.signers) ∧
    s.votes.Pairwise fun v w => (v.signer, v.address) ≠ (w.signer, w.address) := by
  have hbook := hs.voteBook
  have hcount (a : Address) : count a (s.votes.map (·.address)) =
      s.votes.countP (·.address = a) := by
    rw [coe_count, List.count_eq_countP, List.countP_map]
    rfl
  refine ⟨fun a => ?_, fun a tally htally => ?_, hbook.signer_mem, hbook.nodup⟩
  · rw [hbook.tally a, hcount]
    split
    · rename_i h0
      simpa [countP_eq_zero] using h0
    · rename_i hpos
      simpa [countP_eq_zero] using hpos
  rw [hbook.tally a, hcount] at htally
  split at htally
  · cases htally
  cases htally
  refine ⟨rfl, rfl, fun v hv ha => ?_⟩
  rw [hbook.authorize v hv, ha]

theorem Reachable.tally_votes_open :
    ∃ s, (testerGenesis [1, 2, 3]).apply testerPrims
        [testerHeader 1 1 4 true, testerHeader 2 2 3 false] = .ok s ∧
      (s.tally.lookup 4 = some { authorize := true, votes := 1 } ∧
        s.tally.lookup 3 = some { authorize := false, votes := 1 }) ∧
      ∀ a, (∃ tally, s.tally.lookup a = some tally) ↔ ∃ v ∈ s.votes, v.address = a := by
  have hgenesis : Reachable testerPrims testerConfig [1, 2, 3] (testerGenesis [1, 2, 3]) :=
    .newSnapshot 0 0
  obtain ⟨s, h, htally⟩ := map_eq_ok.1 (show ((testerGenesis [1, 2, 3]).apply testerPrims
      [testerHeader 1 1 4 true, testerHeader 2 2 3 false]).map
        (fun s => (s.tally.lookup 4, s.tally.lookup 3)) =
      .ok (some { authorize := true, votes := 1 }, some { authorize := false, votes := 1 }) by
    decide +kernel)
  exact ⟨s, h, Prod.mk.inj htally, (hgenesis.apply h).tally_votes.1⟩

end Virbicoin.Clique
