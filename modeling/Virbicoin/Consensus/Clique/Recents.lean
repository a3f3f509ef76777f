import Virbicoin.Consensus.Clique.Snapshot

/-!
# The window of recent signers

A snapshot remembers who signed the last blocks, and a signer found there may not sign. The window
moves with every block, and its length with every signer added or dropped. Only one entry is deleted
each time, which is enough: the blocks remembered are always inside the window and their signers
distinct (`RecentWindow`).
-/

namespace Virbicoin.Clique

open Virbicoin.Lib Finmap

structure RecentWindow (s : Voting) (number : Nat) : Prop where
  distinct : ∀ j k a, s.recents.lookup j = some a → s.recents.lookup k = some a → j = k
  le : ∀ k a, s.recents.lookup k = some a → k ≤ number
  lt : ∀ k a, s.recents.lookup k = some a → number < k + s.limit

theorem RecentWindow.grow {s t : Voting} {number : Nat} (h : RecentWindow s number)
    (hrecents : t.recents = s.recents) (hlimit : s.limit ≤ t.limit) : RecentWindow t number := by
  refine ⟨?_, ?_, ?_⟩
  · rw [hrecents]
    exact h.distinct
  · rw [hrecents]
    exact h.le
  rw [hrecents]
  intro k a hk
  exact Nat.lt_of_lt_of_le (h.lt k a hk) (Nat.add_le_add_left hlimit k)

theorem RecentWindow.shift {s t : Voting} {number : Nat} (hlookup : ∀ k, t.recents.lookup k =
      if number = k + t.limit then none else s.recents.lookup k)
    (hdistinct : ∀ j k a, s.recents.lookup j = some a → s.recents.lookup k = some a → j = k)
    (hle : ∀ k a, s.recents.lookup k = some a → k ≤ number)
    (hlt : ∀ k a, s.recents.lookup k = some a → number ≤ k + t.limit) : RecentWindow t number := by
  have hkept (k : Nat) (a : Address) (hk : t.recents.lookup k = some a) :
      number ≠ k + t.limit ∧ s.recents.lookup k = some a := by
    rw [hlookup] at hk
    split at hk
    · cases hk
    rename_i hne
    exact ⟨hne, hk⟩
  refine ⟨?_, ?_, ?_⟩
  · intro j k a hj hk
    exact hdistinct j k a (hkept j a hj).2 (hkept k a hk).2
  · intro k a hk
    exact hle k a (hkept k a hk).2
  intro k a hk
  obtain ⟨hne, hk⟩ := hkept k a hk
  have := hlt k a hk
  omega

namespace Voting

variable {s t : Voting} {number : Nat} {signer coinbase : Address} {authorize : Bool}

theorem limit_pos : 0 < s.limit := Nat.succ_pos _

theorem recordSigner_window (h : RecentWindow s number) (hrecent : s.isRecent signer = false) :
    RecentWindow (s.recordSigner number signer) number := by
  have hnot (k : Nat) : s.recents.lookup k ≠ some signer := by
    intro hk
    rw [isRecent_eq_true.2 ⟨k, hk⟩] at hrecent
    cases hrecent
  have hlookup (k : Nat) (a : Address)
      (hk : (s.recordSigner number signer).recents.lookup k = some a) :
      k = number ∧ a = signer ∨ s.recents.lookup k = some a := by
    unfold recordSigner at hk
    by_cases hkn : k = number
    · subst k
      rw [lookup_insert] at hk
      exact Or.inl ⟨rfl, (Option.some.inj hk).symm⟩
    rw [lookup_insert_of_ne _ hkn] at hk
    exact .inr hk
  refine ⟨?_, ?_, ?_⟩
  · intro j k a hj hk
    rcases hlookup j a hj with ⟨rfl, rfl⟩ | hj'
    · rcases hlookup k a hk with ⟨rfl, -⟩ | hk'
      · rfl
      · exact absurd hk' (hnot k)
    rcases hlookup k a hk with ⟨-, rfl⟩ | hk'
    · exact absurd hj' (hnot j)
    · exact h.distinct j k a hj' hk'
  · intro k a hk
    rcases hlookup k a hk with ⟨rfl, -⟩ | hk
    · exact k.le_refl
    · exact h.le k a hk
  intro k a hk
  rcases hlookup k a hk with ⟨rfl, -⟩ | hk
  · exact Nat.lt_add_of_pos_right limit_pos
  · exact h.lt k a hk

theorem vote_recents : let t := s.vote number signer coinbase authorize
    t.recents = s.recents ∧ s.limit ≤ t.limit ∨
      (∀ k, t.recents.lookup k = if number = k + t.limit then none else s.recents.lookup k) ∧
        s.limit ≤ t.limit + 1 := by
  intro t
  generalize hu : (s.discardVote signer coinbase).tallyVote signer number coinbase authorize = u
  have hsigners : u.signers = s.signers := by rw [← hu, tallyVote_signers, discardVote_signers]
  have hrecents : u.recents = s.recents := by rw [← hu, tallyVote_recents, discardVote_recents]
  have ht : t = u.passVote number coinbase := by rw [← hu]; rfl
  have hlimit : s.limit = u.signers.card / 2 + 1 := by rw [hsigners]; rfl
  rw [ht, hlimit, ← hrecents]
  unfold passVote
  split
  · unfold changeSigners
    split
    · refine .inl ⟨rfl, ?_⟩
      have hcard := Finset.card_le_card (Finset.subset_insert coinbase u.signers)
      exact Nat.succ_le_succ (Nat.div_le_div_right hcard)
    refine .inr ⟨?_, ?_⟩
    · exact shiftRecents_lookup (s := { u with signers := u.signers.erase coinbase })
    have hcard := Finset.pred_card_le_card_erase (a := coinbase) (s := u.signers)
    show _ ≤ (u.signers.erase coinbase).card / 2 + 1 + 1
    omega
  · exact Or.inl ⟨rfl, Nat.le_refl _⟩

theorem authorized_lookup {epoch : Nat} (k : Nat) :
    (s.authorized epoch number signer).recents.lookup k = if k = number then some signer
      else if number = k + s.limit then none else s.recents.lookup k := by
  unfold authorized recordSigner
  split
  · subst k
    exact lookup_insert _
  · rename_i hk
    rw [lookup_insert_of_ne _ hk, shiftRecents_lookup, resetVotes_limit, resetVotes_recents]

theorem vote_lookup {k : Nat} {a : Address} (hk : s.recents.lookup k = some a)
    (hne : number ≠ k + (s.vote number signer coinbase authorize).limit) :
    (s.vote number signer coinbase authorize).recents.lookup k = some a := by
  rcases vote_recents with ⟨hrecents, -⟩ | ⟨hlookup, -⟩
  · rw [hrecents, hk]
  · rw [hlookup, if_neg hne, hk]

section Step

variable {prims : Primitives} {epoch : Nat} {header : Header}

theorem applyHeader_window (h : RecentWindow s number) (hnumber : header.numberU64 = number + 1)
    (happly : s.applyHeader prims epoch header = .ok t) : RecentWindow t (number + 1) := by
  obtain ⟨signer, authorize, -, -, hrecent, -, rfl⟩ := applyHeader_eq_ok.1 happly
  rw [hnumber] at hrecent ⊢
  have hshift : RecentWindow (s.shiftRecents (number + 1)) (number + 1) :=
    .shift shiftRecents_lookup h.distinct (fun k a hk => Nat.le_succ_of_le (h.le k a hk)) h.lt
  have hauth : RecentWindow (s.authorized epoch (number + 1) signer) (number + 1) := by
    refine (recordSigner_window hshift hrecent).grow ?_ ?_
    · simp only [authorized, recordSigner, shiftRecents, resetVotes_recents, resetVotes_limit]
    · simp only [limit, authorized_signers, recordSigner, shiftRecents_signers, le_refl]
  rcases vote_recents with ⟨hrecents, hlimit⟩ | ⟨hlookup, hlimit⟩
  · exact hauth.grow hrecents hlimit
  refine .shift hlookup hauth.distinct hauth.le fun k a hk => ?_
  have := hauth.lt k a hk
  omega

theorem applyHeader_records {a : Address} (hsigner : ecrecover prims header = .ok a)
    (happly : s.applyHeader prims epoch header = .ok t) :
    t.recents.lookup header.numberU64 = some a := by
  obtain ⟨signer, authorize, hs, -, -, -, rfl⟩ := applyHeader_eq_ok.1 happly
  cases hs.symm.trans hsigner
  refine vote_lookup ?_ (Nat.ne_of_lt (Nat.lt_add_of_pos_right limit_pos))
  rw [authorized_lookup, if_pos rfl]

theorem applyHeader_keeps {k : Nat} {a : Address} (hk : s.recents.lookup k = some a)
    (hlt : k < header.numberU64) (hold : header.numberU64 ≠ k + s.limit)
    (hnew : header.numberU64 ≠ k + t.limit) (happly : s.applyHeader prims epoch header = .ok t) :
    t.recents.lookup k = some a := by
  obtain ⟨signer, authorize, -, -, -, -, rfl⟩ := applyHeader_eq_ok.1 happly
  refine vote_lookup ?_ hnew
  rw [authorized_lookup, if_neg (ne_of_lt hlt), if_neg hold, hk]

theorem applyHeader_waits {k : Nat} {a : Address} (hsigner : ecrecover prims header = .ok a)
    (hk : s.recents.lookup k = some a) (happly : s.applyHeader prims epoch header = .ok t) :
    header.numberU64 = k + s.limit := by
  obtain ⟨signer, authorize, hs, -, hrecent, -, rfl⟩ := applyHeader_eq_ok.1 happly
  cases hs.symm.trans hsigner
  by_contra hne
  have hfound : (s.shiftRecents header.numberU64).isRecent a = true :=
    isRecent_eq_true.2 ⟨k, by rw [shiftRecents_lookup, if_neg hne, hk]⟩
  rw [hfound] at hrecent
  cases hrecent

end Step

end Voting

/-! ## Chains -/

section Chains

variable {prims : Primitives} {config : Config} {genesis : List Address}

variable {headers : List Header} {s : Snapshot}

theorem Reachable.recentWindow (hs : Reachable prims config genesis s) :
    RecentWindow s.toVoting s.number := by
  refine hs.induct (P := fun s => RecentWindow s.toVoting s.number) ?_ ?_
  · intro number hash
    have hnone (k : Nat) (a : Address) :
        ¬ (Clique.newSnapshot config number hash genesis).recents.lookup k = some a := by
      intro h
      cases (lookup_empty k).symm.trans h
    exact ⟨fun j k a hj => absurd hj (hnone j a), fun k a hk => absurd hk (hnone k a),
      fun k a hk => absurd hk (hnone k a)⟩
  intro s header t _ hwindow h
  obtain ⟨hnumber, voting, hvoting, rfl⟩ := Snapshot.apply_singleton_eq_ok.1 h
  exact Voting.applyHeader_window hwindow hnumber hvoting

theorem Snapshot.apply_number {t : Snapshot} (h : s.apply prims headers = .ok t) :
    t.number = s.number + headers.length := by
  cases headers with
  | nil => cases h; rfl
  | cons header headers =>
    obtain ⟨-, -, voting, -, rfl⟩ := apply_cons_eq_ok.1 h
    rfl

theorem Snapshot.apply_take {t : Snapshot} (h : s.apply prims headers = .ok t) {m : Nat}
    (hm : m < headers.length) :
    ∃ u v : Snapshot, s.apply prims (headers.take m) = .ok u ∧
      s.apply prims (headers.take (m + 1)) = .ok v ∧
      headers[m].numberU64 = s.number + m + 1 ∧
      u.toVoting.applyHeader prims u.config.epoch headers[m] = .ok v.toVoting := by
  rw [Snapshot.apply_eq_run] at h
  obtain ⟨u, hu⟩ := run_take_ok h m
  obtain ⟨v, hv⟩ := run_take_ok h (m + 1)
  have hstep := run_take_succ_ok hm hu hv
  rw [← apply_eq_run] at hu hv
  obtain ⟨hnumber, voting, hvoting, rfl⟩ := apply_singleton_eq_ok.1 hstep
  refine ⟨u, _, hu, hv, ?_, hvoting⟩
  rw [hnumber, Snapshot.apply_number hu, List.length_take_of_le (Nat.le_of_lt hm)]

theorem Snapshot.apply_remembers {t : Snapshot} (h : s.apply prims headers = .ok t) {p q : Nat}
    (hp : p < headers.length) (hq : q < headers.length) {a : Address}
    (hsigner : ecrecover prims headers[p] = .ok a) {signers : Finset Address}
    (hsame : ∀ m u, p < m → m ≤ q → s.apply prims (headers.take m) = .ok u → u.signers = signers)
    {m : Nat} (hpm : p + 1 ≤ m) (hmq : m ≤ q) (hlt : m ≤ p + (signers.card / 2 + 1)) {u : Snapshot}
    (hu : s.apply prims (headers.take m) = .ok u) :
    u.recents.lookup (s.number + p + 1) = some a := by
  induction m, hpm using Nat.le_induction generalizing u with
  | base =>
    obtain ⟨_, v, -, hv, hnumber, hstep⟩ := apply_take h hp
    cases hu.symm.trans hv
    rw [← hnumber]
    exact Voting.applyHeader_records hsigner hstep
  | succ m hpm ih =>
    have hm : m < headers.length := by omega
    obtain ⟨w, v, hw, hv, hnumber, hstep⟩ := apply_take h hm
    cases hu.symm.trans hv
    have hwsigners := hsame m w (by omega) (by omega) hw
    have husigners := hsame (m + 1) u (by omega) hmq hu
    refine Voting.applyHeader_keeps (ih (by omega) (by omega) hw) ?_ ?_ ?_ hstep
    · omega
    · unfold Voting.limit
      rw [hwsigners]
      omega
    unfold Voting.limit
    rw [husigners]
    omega

/-- **Recent signers.** Their blocks are inside the window that ends with the snapshot's block.
While the set of signers stays the same, two blocks of one signer are at least the length of the
window apart. -/
theorem apply_recents_spaced {number : Nat} {hash : Hash}
    (h : (newSnapshot config number hash genesis).apply prims headers = .ok s) :
    ((∀ j k a, s.recents.lookup j = some a → s.recents.lookup k = some a → j = k) ∧
      ∀ k ∈ s.recents, k ≤ s.number ∧ s.number < k + (s.signers.card / 2 + 1)) ∧
    ∀ p q (hp : p < headers.length) (hq : q < headers.length) (signers : Finset Address) a, p < q →
      (∀ m u, p < m → m ≤ q →
        (newSnapshot config number hash genesis).apply prims (headers.take m) = .ok u →
          u.signers = signers) →
      ecrecover prims headers[p] = .ok a → ecrecover prims headers[q] = .ok a →
      signers.card / 2 + 1 ≤ headers[q].numberU64 - headers[p].numberU64 := by
  refine ⟨?_, ?_⟩
  · have hwindow := ((Reachable.newSnapshot number hash).apply h).recentWindow
    refine ⟨hwindow.distinct, fun k hk => ?_⟩
    obtain ⟨a, ha⟩ := mem_iff.1 hk
    exact ⟨hwindow.le k a ha, hwindow.lt k a ha⟩
  intro p q hp hq signers a hpq hsame hsp hsq
  obtain ⟨-, -, -, -, hnp, -⟩ := Snapshot.apply_take h hp
  obtain ⟨u, v, hu, -, hnq, hstep⟩ := Snapshot.apply_take h hq
  by_contra hlt
  have hrem := Snapshot.apply_remembers h hp hq hsp hsame hpq (Nat.le_refl q) (by omega) hu
  have hwait := Voting.applyHeader_waits hsq hrem hstep
  unfold Voting.limit at hwait
  rw [hsame q u hpq q.le_refl hu] at hwait
  omega

theorem apply_recents_spaced_three :
    ∃ s, (testerGenesis [1, 2, 3]).apply testerPrims
        [testerHeader 1 1 0 false, testerHeader 2 2 0 false, testerHeader 3 1 0 false] = .ok s ∧
      (∀ k ∈ s.recents, k ≤ s.number ∧ s.number < k + (s.signers.card / 2 + 1)) ∧
      ({1, 2, 3} : Finset Address).card / 2 + 1 ≤
        (testerHeader 3 1 0 false).numberU64 - (testerHeader 1 1 0 false).numberU64 := by
  obtain ⟨s, h, -⟩ := map_eq_ok.1 (show ((testerGenesis [1, 2, 3]).apply testerPrims
      [testerHeader 1 1 0 false, testerHeader 2 2 0 false, testerHeader 3 1 0 false]).map
        (·.number) = .ok 3 by decide +kernel)
  obtain ⟨hwindow, hspaced⟩ := apply_recents_spaced h
  refine ⟨s, h, hwindow.2, hspaced 0 2 (by decide) (by decide) {1, 2, 3} 1 (by decide) ?_
    (by decide +kernel) (by decide +kernel)⟩
  intro m u hm hm2 hu
  have hall : ∀ m < 3, ((testerGenesis [1, 2, 3]).apply testerPrims
      ([testerHeader 1 1 0 false, testerHeader 2 2 0 false, testerHeader 3 1 0 false].take m)).map
        (·.signers) = .ok {1, 2, 3} := by decide +kernel
  obtain ⟨v, hv, hsigners⟩ := map_eq_ok.1 (hall m (by omega))
  cases hu.symm.trans hv
  exact hsigners

end Chains

end Virbicoin.Clique
