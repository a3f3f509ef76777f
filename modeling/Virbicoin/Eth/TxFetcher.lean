import Mathlib.Data.Finmap
import Mathlib.Data.Finset.Sum
import Virbicoin.Core.Types
import Virbicoin.Lib.Visit

/-!
# Announcements of transactions

`eth/fetcher/tx_fetcher.go`: the loop of the fetcher handles a batch of hashes from a peer. A hash
goes to the peer's set of the stage that has the transaction, `announces` if it is queued or in
flight and `waitslots` otherwise. So a batch adds the slots that the peer does not hold yet
(`tracked_foldl`), and the fetches that may follow add nothing.

Before that the batch is cut. The cut keeps as many hashes as are over the limit, where it should
keep as many as are left under it: a large batch gets past the limit.

A range over hashes goes in the order of a `Visit`.
-/

namespace Virbicoin.Fetcher

open Lib

def maxTxAnnounces : Nat := 4096

def maxTxRetrievals : Nat := 256

structure TxRequest where
  hashes : List Hash
  stolen : Finset Hash
  time : Nat

/-- An entry of `alternates` can be a nil map, `none`. -/
structure TxFetcher where
  waitlist : Finmap fun _ : Hash => Finset String := ∅
  waittime : Finmap fun _ : Hash => Nat := ∅
  waitslots : Finmap fun _ : String => Finset Hash := ∅
  announces : Finmap fun _ : String => Finset Hash := ∅
  announced : Finmap fun _ : Hash => Finset String := ∅
  fetching : Finmap fun _ : Hash => String := ∅
  requests : Finmap fun _ : String => TxRequest := ∅
  alternates : Finmap fun _ : Hash => Option (Finset String) := ∅

section Sets

variable {α β : Type} [DecidableEq α] [DecidableEq β]

def setAt (m : Finmap fun _ : α => Finset β) (k : α) : Finset β := (m.lookup k).getD ∅

/-- Adds to the set of a key, or makes one. -/
def addTo (m : Finmap fun _ : α => Finset β) (k : α) (x : β) : Finmap fun _ : α => Finset β :=
  m.insert k (insert x (setAt m k))

theorem setAt_addTo (m : Finmap fun _ : α => Finset β) (k : α) (x : β) :
    setAt (addTo m k x) k = insert x (setAt m k) := by
  rw [setAt, addTo, Finmap.lookup_insert, Option.getD_some]

end Sets

namespace TxFetcher

/-! ## The source -/

/-- The round of one hash in a batch of `origin`. -/
def announce (now : Nat) (origin : String) (f : TxFetcher) (hash : Hash) : TxFetcher :=
  if (f.alternates.lookup hash).join.isSome then
    { f with
      alternates := f.alternates.insert hash ((f.alternates.lookup hash).join.map (insert origin))
      announces := addTo f.announces origin hash }
  else if hash ∈ f.announced then
    { f with
      announced := addTo f.announced hash origin
      announces := addTo f.announces origin hash }
  else if hash ∈ f.waitlist then
    { f with
      waitlist := addTo f.waitlist hash origin
      waitslots := addTo f.waitslots origin hash }
  else
    { f with
      waitlist := f.waitlist.insert hash {origin}
      waittime := f.waittime.insert hash now
      waitslots := addTo f.waitslots origin hash }

/-- The hashes of a request to `peer`: those that nobody is asked for, up to the limit. -/
def allot (peer : String) : TxFetcher → List Hash → List Hash → Option (TxFetcher × List Hash)
  | f, hashes, [] => some (f, hashes)
  | f, hashes, hash :: rest =>
    if hash ∈ f.fetching then allot peer f hashes rest
    -- the source panics on an alternate that is not in flight
    else if hash ∈ f.alternates then none
    else
      let f' := { f with
        fetching := f.fetching.insert hash peer
        alternates := f.alternates.insert hash (f.announced.lookup hash)
        announced := f.announced.erase hash }
      if maxTxRetrievals ≤ hashes.length + 1 then some (f', hashes ++ [hash])
      else allot peer f' (hashes ++ [hash]) rest

/-- `scheduleFetches` for one peer. -/
def scheduleFetches (now : Nat) (visit : Visit Hash) (f : TxFetcher) (peer : String) :
    Option TxFetcher :=
  if peer ∈ f.requests ∨ (setAt f.announces peer).card = 0 then some f
  else do
    let (f, hashes) ← allot peer f [] (visit.order (setAt f.announces peer))
    if hashes.length > 0 then some { f with requests := f.requests.insert peer ⟨hashes, ∅, now⟩ }
    else some f

def used (f : TxFetcher) (peer : String) : Nat :=
  (setAt f.waitslots peer).card + (setAt f.announces peer).card

/-- What is kept of a batch. -/
def kept (f : TxFetcher) (peer : String) (hashes : List Hash) : List Hash :=
  let want := f.used peer + hashes.length
  if want > maxTxAnnounces then hashes.take (want - maxTxAnnounces) else hashes

/-- The case of the loop for `notify`, `none` when it panics. -/
def notify (now : Nat) (visit : Visit Hash) (f : TxFetcher) (peer : String)
    (hashes : List Hash) : Option TxFetcher :=
  if f.used peer ≥ maxTxAnnounces then some f
  else
    let f' := (f.kept peer hashes).foldl (announce now peer) f
    if peer ∉ f.announces ∧ (setAt f'.announces peer).card > 0 then
      scheduleFetches now visit f' peer
    else some f'

/-! ## Tracked announcements -/

variable {f f' : TxFetcher} {peer : String} {now : Nat} {visit : Visit Hash} {hashes : List Hash}

def tracked (f : TxFetcher) (peer : String) : Finset (Hash ⊕ Hash) :=
  (setAt f.waitslots peer).disjSum (setAt f.announces peer)

/-- Where a hash is tracked: on the right when its transaction is queued or in flight. -/
def slot (f : TxFetcher) (hash : Hash) : Hash ⊕ Hash :=
  if (f.alternates.lookup hash).join.isSome ∨ hash ∈ f.announced then .inr hash else .inl hash

/-- The slots that a batch adds. -/
def added (f : TxFetcher) (peer : String) (hashes : List Hash) : Finset (Hash ⊕ Hash) :=
  (hashes.map f.slot).toFinset \ f.tracked peer

theorem card_tracked : (f.tracked peer).card = f.used peer := Finset.card_disjSum _ _

theorem slot_announce (hash : Hash) : (f.announce now peer hash).slot = f.slot := by
  funext h
  unfold announce slot
  split
  · rename_i hsome
    obtain ⟨peers, hpeers⟩ := Option.isSome_iff_exists.1 hsome
    by_cases hh : h = hash
    · subst hh
      simp [Finmap.lookup_insert, hpeers]
    · simp [Finmap.lookup_insert_of_ne _ hh]
  split
  · rename_i hmem
    by_cases hh : h = hash
    · subst hh
      simp [addTo, hmem]
    · simp [addTo, hh]
  split <;> rfl

theorem tracked_announce (hash : Hash) :
    (f.announce now peer hash).tracked peer = insert (f.slot hash) (f.tracked peer) := by
  ext x
  unfold announce slot tracked
  split
  · rename_i halt
    rw [if_pos (.inl halt), setAt_addTo]
    cases x <;> simp
  split
  · rename_i hann
    rw [if_pos (.inr hann), setAt_addTo]
    cases x <;> simp
  rename_i halt hann
  rw [if_neg (not_or.2 ⟨halt, hann⟩)]
  split <;> rw [setAt_addTo] <;> cases x <;> simp

theorem tracked_foldl : (hashes.foldl (announce now peer) f).tracked peer =
      (hashes.map f.slot).toFinset ∪ f.tracked peer := by
  induction hashes generalizing f with
  | nil => exact (Finset.empty_union _).symm
  | cons hash hashes ih =>
    rw [List.foldl_cons, ih, tracked_announce, slot_announce, List.map_cons, List.toFinset_cons,
      Finset.union_insert, Finset.insert_union]

theorem allot_frame {rest hashes' : List Hash} (h : allot peer f hashes rest = some (f', hashes')) :
    f'.waitslots = f.waitslots ∧ f'.announces = f.announces := by
  induction rest generalizing f hashes with
  | nil =>
    cases h
    exact ⟨rfl, rfl⟩
  | cons hash rest ih =>
    unfold allot at h
    split at h
    · exact ih h
    split at h
    · cases h
    split at h
    · cases h
      exact ⟨rfl, rfl⟩
    · obtain ⟨hwait, hann⟩ := ih h
      exact ⟨hwait, hann⟩

theorem tracked_scheduleFetches (h : f.scheduleFetches now visit peer = some f') :
    f'.tracked peer = f.tracked peer := by
  unfold scheduleFetches at h
  split at h
  · cases h
    rfl
  obtain ⟨⟨f1, hashes⟩, hallot, h⟩ := Option.bind_eq_some_iff.1 h
  obtain ⟨hwait, hann⟩ := allot_frame hallot
  dsimp only at h
  split at h <;> cases h <;> simp only [tracked, hwait, hann]

theorem used_notify (h : f.notify now visit peer hashes = some f')
    (hroom : f.used peer < maxTxAnnounces) :
    f'.used peer = (f.added peer (f.kept peer hashes)).card + f.used peer := by
  unfold notify at h
  rw [if_neg (Nat.not_le.2 hroom)] at h
  rw [← card_tracked, ← card_tracked, added, Finset.card_sdiff_add_card, ← tracked_foldl]
  dsimp only at h
  split at h
  · rw [tracked_scheduleFetches h]
  cases h
  rfl

theorem toNat_injective : Function.Injective (BitVec.toNat : Hash → Nat) :=
  fun _ _ => BitVec.eq_of_toNat_eq

def sortedHashes : Visit Hash := Visit.sortedBy BitVec.toNat toNat_injective

end TxFetcher

end Virbicoin.Fetcher
