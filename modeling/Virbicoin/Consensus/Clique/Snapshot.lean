import Mathlib.Data.Finmap
import Mathlib.Data.Finset.Sort
import Virbicoin.Core.Types
import Virbicoin.Lib.DeleteLoop
import Virbicoin.Lib.Run

/-!
# Clique snapshots

`consensus/clique/snapshot.go`: the state of the authorisation voting at a block, and how headers
change it. A vote on adding an account to the signers or dropping one passes with a majority.

The part the loop of `apply` edits is `Voting`, and one pass of that loop is `Voting.applyHeader`. A
Go map is a `Finmap`, the map of signers a `Finset`. Block numbers do not wrap: no chain has `2 ^
64` blocks. The signature of a header enters through `Primitives.recover`.
-/

namespace Virbicoin.Clique

open Virbicoin.Lib

/-! ## Parameters -/

structure CliqueConfig where
  period : Nat
  epoch : Nat
deriving DecidableEq

def epochLength : Nat := 30000

/-- The parameters of an engine: an epoch is never empty. -/
structure Config extends CliqueConfig where
  epoch_pos : 0 < epoch
deriving DecidableEq

def Config.new (config : CliqueConfig) : Config :=
  if h : config.epoch = 0 then { config with epoch := epochLength, epoch_pos := by decide }
  else { config with epoch_pos := Nat.pos_of_ne_zero h }

def extraVanity : Nat := 32

def extraSeal : Nat := 65

def nonceAuthVote : BitVec 64 := 0xffffffffffffffff

def nonceDropVote : BitVec 64 := 0x0000000000000000

def diffInTurn : Int := 2

def diffNoTurn : Int := 1

inductive CliqueError where
  /-- `errUnknownBlock`: "unknown block" -/
  | unknownBlock
  /-- `errInvalidVote`: "vote nonce not 0x00..0 or 0xff..f" -/
  | invalidVote
  /-- `errMissingSignature`: "extra-data 65 byte signature suffix missing" -/
  | missingSignature
  /-- `errWrongDifficulty`: "wrong difficulty" -/
  | wrongDifficulty
  /-- `errInvalidVotingChain`: "invalid voting chain" -/
  | invalidVotingChain
  /-- `errUnauthorizedSigner`: "unauthorized signer" -/
  | unauthorizedSigner
  /-- `errRecentlySigned`: "recently signed" -/
  | recentlySigned
  /-- an error of `crypto.Ecrecover` -/
  | crypto (message : String)
  /-- the run-time panic of an integer division by zero -/
  | divideByZero
deriving DecidableEq

/-- The hash of a header, and the account that signed it: the address of the public key
`crypto.Ecrecover` finds for `SealHash(header)` and the last 65 bytes of the extra data. -/
structure Primitives where
  hash : Header → Hash
  recover : Header → Except String Address

def ecrecover (prims : Primitives) (header : Header) : Except CliqueError Address :=
  if header.extra.length < extraSeal then .error .missingSignature
  else match prims.recover header with
    | .ok signer => .ok signer
    | .error message => .error (.crypto message)

/-! ## The voting state -/

structure Vote where
  signer : Address
  block : Nat
  address : Address
  authorize : Bool
deriving DecidableEq

structure Tally where
  authorize : Bool
  votes : Nat
deriving DecidableEq

abbrev TallyMap := Finmap fun _ : Address => Tally

structure Voting where
  signers : Finset Address
  recents : Finmap fun _ : Nat => Address
  votes : List Vote
  tally : TallyMap
deriving DecidableEq

structure Snapshot extends Voting where
  config : Config
  number : Nat
  hash : Hash
deriving DecidableEq

def newSnapshot (config : Config) (number : Nat) (hash : Hash) (signers : List Address) :
    Snapshot where
  config := config
  number := number
  hash := hash
  signers := signers.toFinset
  recents := ∅
  votes := []
  tally := ∅

namespace Voting

def limit (s : Voting) : Nat := s.signers.card / 2 + 1

def validVote (s : Voting) (address : Address) (authorize : Bool) : Bool :=
  let signer := decide (address ∈ s.signers)
  (signer && !authorize) || (!signer && authorize)

/-- The tallies with a vote added, and whether it was. -/
def cast (s : Voting) (address : Address) (authorize : Bool) : TallyMap × Bool :=
  if !s.validVote address authorize then (s.tally, false)
  else match s.tally.lookup address with
    | some old => (s.tally.insert address { old with votes := old.votes + 1 }, true)
    | none => (s.tally.insert address { authorize, votes := 1 }, true)

/-- The tallies with a vote removed, and whether it was. -/
def uncast (tallies : TallyMap) (address : Address) (authorize : Bool) : TallyMap × Bool :=
  match tallies.lookup address with
  | none => (tallies, false)
  | some tally =>
    if tally.authorize ≠ authorize then (tallies, false)
    else if tally.votes > 1 then
      (tallies.insert address { tally with votes := tally.votes - 1 }, true)
    else (tallies.erase address, true)

/-! ### One pass of the loop -/

def resetVotes (s : Voting) (epoch number : Nat) : Voting :=
  if number % epoch = 0 then { s with votes := [], tally := ∅ } else s

def shiftRecents (s : Voting) (number : Nat) : Voting :=
  { s with
    recents := if s.limit ≤ number then s.recents.erase (number - s.limit) else s.recents }

def isRecent (s : Voting) (signer : Address) : Bool :=
  decide (∃ seen ∈ s.recents.keys, s.recents.lookup seen = some signer)

def recordSigner (s : Voting) (number : Nat) (signer : Address) : Voting :=
  { s with recents := s.recents.insert number signer }

def voteOf (nonce : BitVec 64) : Except CliqueError Bool :=
  if nonce = nonceAuthVote then .ok true
  else if nonce = nonceDropVote then .ok false
  else .error .invalidVote

def discardVote (s : Voting) (signer coinbase : Address) : Voting :=
  let r := deleteFirst (fun vote : Vote => vote.signer = signer && vote.address = coinbase)
    (fun tallies vote => (uncast tallies vote.address vote.authorize).1) s.tally s.votes
  { s with tally := r.1, votes := r.2 }

def tallyVote (s : Voting) (signer : Address) (number : Nat) (coinbase : Address)
    (authorize : Bool) : Voting :=
  let r := s.cast coinbase authorize
  { s with
    tally := r.1
    votes :=
      if r.2 then s.votes ++ [{ signer, block := number, address := coinbase, authorize }]
      else s.votes }

def discardVotesBy (s : Voting) (coinbase : Address) : Voting :=
  let r := deleteAll (fun vote : Vote => vote.signer = coinbase)
    (fun tallies vote => (uncast tallies vote.address vote.authorize).1) s.tally s.votes
  { s with tally := r.1, votes := r.2 }

/-- Discards the votes around an account, which leaves them in the tally. -/
def discardVotesOn (s : Voting) (coinbase : Address) : Voting :=
  { s with votes := (deleteAll (fun vote : Vote => vote.address = coinbase) (fun u _ => u) ()
      s.votes).2 }

def dropSigner (s : Voting) (number : Nat) (coinbase : Address) : Voting :=
  let s := { s with signers := s.signers.erase coinbase }
  (s.shiftRecents number).discardVotesBy coinbase

def changeSigners (s : Voting) (number : Nat) (coinbase : Address) (authorize : Bool) : Voting :=
  if authorize then { s with signers := insert coinbase s.signers }
  else s.dropSigner number coinbase

def closeVote (s : Voting) (coinbase : Address) : Voting :=
  { s.discardVotesOn coinbase with tally := s.tally.erase coinbase }

def tallyOn (s : Voting) (coinbase : Address) : Tally :=
  (s.tally.lookup coinbase).getD { authorize := false, votes := 0 }

def passVote (s : Voting) (number : Nat) (coinbase : Address) : Voting :=
  if (s.tallyOn coinbase).votes > s.signers.card / 2 then
    (s.changeSigners number coinbase (s.tallyOn coinbase).authorize).closeVote coinbase
  else s

/-- The pass of the loop of `apply` over one header. -/
def applyHeader (prims : Primitives) (epoch : Nat) (s : Voting) (header : Header) :
    Except CliqueError Voting := do
  let number := header.numberU64
  let s := (s.resetVotes epoch number).shiftRecents number
  let signer ← ecrecover prims header
  failIf (signer ∉ s.signers) .unauthorizedSigner
  failIf (s.isRecent signer) .recentlySigned
  let s := s.recordSigner number signer
  let s := s.discardVote signer header.coinbase
  let authorize ← voteOf header.nonce
  let s := s.tallyVote signer number header.coinbase authorize
  return s.passVote number header.coinbase

def signersAscending (s : Voting) : List Address := s.signers.sort (· ≤ ·)

def inturn (s : Voting) (number : Nat) (signer : Address) : Except CliqueError Bool :=
  let signers := s.signersAscending
  -- the index of the signer, or the length of the list if it is not there
  let offset := signers.idxOf signer
  if signers.length = 0 then .error .divideByZero
  else .ok (number % signers.length = offset)

end Voting

def Consecutive (headers : List Header) : Prop :=
  headers.IsChain fun header next => next.numberU64 = header.numberU64 + 1

instance (headers : List Header) : Decidable (Consecutive headers) :=
  inferInstanceAs (Decidable (headers.IsChain _))

def Snapshot.apply (prims : Primitives) (s : Snapshot) (headers : List Header) :
    Except CliqueError Snapshot :=
  match headers with
  | [] => .ok s
  | first :: rest => do
    failIf (¬ Consecutive (first :: rest)) .invalidVotingChain
    failIf (first.numberU64 ≠ s.number + 1) .invalidVotingChain
    let voting ← run (Voting.applyHeader prims s.config.epoch) s.toVoting (first :: rest)
    return { s with
      toVoting := voting
      number := s.number + (first :: rest).length
      hash := prims.hash ((first :: rest).getLast (List.cons_ne_nil _ _)) }

/-! ## What a successful pass does -/

namespace Voting

variable {prims : Primitives} {epoch number : Nat} {s t : Voting} {header : Header}

@[simp] theorem resetVotes_signers : (s.resetVotes epoch number).signers = s.signers := by
  unfold resetVotes; split <;> rfl

@[simp] theorem resetVotes_recents : (s.resetVotes epoch number).recents = s.recents := by
  unfold resetVotes; split <;> rfl

@[simp] theorem shiftRecents_signers : (s.shiftRecents number).signers = s.signers := rfl

@[simp] theorem shiftRecents_votes : (s.shiftRecents number).votes = s.votes := rfl

@[simp] theorem shiftRecents_tally : (s.shiftRecents number).tally = s.tally := rfl

@[simp] theorem resetVotes_limit : (s.resetVotes epoch number).limit = s.limit := by
  unfold limit; rw [resetVotes_signers]

variable {signer coinbase : Address}

@[simp] theorem discardVote_signers : (s.discardVote signer coinbase).signers = s.signers := rfl

@[simp] theorem discardVote_recents : (s.discardVote signer coinbase).recents = s.recents := rfl

@[simp] theorem tallyVote_signers {authorize : Bool} :
    (s.tallyVote signer number coinbase authorize).signers = s.signers := rfl

@[simp] theorem tallyVote_recents {authorize : Bool} :
    (s.tallyVote signer number coinbase authorize).recents = s.recents := rfl

theorem shiftRecents_lookup (k : Nat) : (s.shiftRecents number).recents.lookup k =
    if number = k + s.limit then none else s.recents.lookup k := by
  unfold shiftRecents
  split
  · by_cases hk : number = k + s.limit
    · rw [if_pos hk, hk, Nat.add_sub_cancel, Finmap.lookup_erase]
    · rw [if_neg hk, Finmap.lookup_erase_ne (by omega)]
  · rw [if_neg (by omega)]

theorem isRecent_eq_true :
    s.isRecent signer = true ↔ ∃ seen, s.recents.lookup seen = some signer := by
  unfold isRecent
  rw [decide_eq_true_eq]
  constructor
  · intro ⟨seen, _, h⟩
    exact ⟨seen, h⟩
  · intro ⟨seen, h⟩
    exact ⟨seen, Finmap.mem_keys.2 (Finmap.mem_of_lookup_eq_some h), h⟩

def authorized (s : Voting) (epoch number : Nat) (signer : Address) : Voting :=
  ((s.resetVotes epoch number).shiftRecents number).recordSigner number signer

@[simp] theorem authorized_signers :
    (s.authorized epoch number signer).signers = s.signers := resetVotes_signers

/-- The vote of a header is counted after the signer's previous vote on the account. -/
def vote (s : Voting) (number : Nat) (signer coinbase : Address) (authorize : Bool) : Voting :=
  ((s.discardVote signer coinbase).tallyVote signer number coinbase authorize).passVote number
    coinbase

theorem applyHeader_eq_ok : s.applyHeader prims epoch header = .ok t ↔
      ∃ signer authorize, ecrecover prims header = .ok signer ∧ signer ∈ s.signers ∧
        (s.shiftRecents header.numberU64).isRecent signer = false ∧
        voteOf header.nonce = .ok authorize ∧
        t = (s.authorized epoch header.numberU64 signer).vote header.numberU64 signer
          header.coinbase authorize := by
  have hrecent (signer : Address) :
      ((s.resetVotes epoch header.numberU64).shiftRecents header.numberU64).isRecent signer =
        (s.shiftRecents header.numberU64).isRecent signer := by
    rw [Bool.eq_iff_iff, isRecent_eq_true, isRecent_eq_true]
    simp only [shiftRecents_lookup, resetVotes_recents, resetVotes_limit]
  unfold applyHeader
  simp only [bind_eq_ok, failIf_eq_ok, pure_eq_ok, hrecent, shiftRecents_signers,
    resetVotes_signers, not_not, Bool.not_eq_true, exists_const]
  constructor
  · intro h
    obtain ⟨signer, hsigner, hmem, hrec, authorize, hvote, ht⟩ := h
    exact ⟨signer, authorize, hsigner, hmem, hrec, hvote, ht⟩
  intro h
  obtain ⟨signer, authorize, hsigner, hmem, hrec, hvote, ht⟩ := h
  exact ⟨signer, hsigner, hmem, hrec, authorize, hvote, ht⟩

end Voting

/-! ## Chains of headers -/

section Chains

variable {prims : Primitives} {s t : Snapshot} {header : Header} {headers : List Header}

theorem Snapshot.apply_cons_eq_ok : s.apply prims (header :: headers) = .ok t ↔
      Consecutive (header :: headers) ∧ header.numberU64 = s.number + 1 ∧
        ∃ voting, run (Voting.applyHeader prims s.config.epoch) s.toVoting (header :: headers) =
            .ok voting ∧
          t = { s with
            toVoting := voting
            number := s.number + (header :: headers).length
            hash := prims.hash ((header :: headers).getLast (List.cons_ne_nil _ _)) } := by
  unfold apply
  simp only [bind_eq_ok, failIf_eq_ok, pure_eq_ok, not_not, exists_const, ne_eq]

theorem Snapshot.apply_singleton_eq_ok : s.apply prims [header] = .ok t ↔
      header.numberU64 = s.number + 1 ∧
        ∃ voting, s.toVoting.applyHeader prims s.config.epoch header = .ok voting ∧ t = { s with
            toVoting := voting, number := s.number + 1, hash := prims.hash header } := by
  rw [apply_cons_eq_ok, run_singleton]
  exact and_iff_right (List.isChain_singleton _)

theorem Snapshot.apply_cons : s.apply prims (header :: headers) = .ok t ↔
      ∃ u, s.apply prims [header] = .ok u ∧ u.apply prims headers = .ok t := by
  cases headers with
  | nil => simp [apply]
  | cons next rest =>
    rw [apply_cons_eq_ok]
    unfold Consecutive
    rw [List.isChain_cons_cons]
    simp only [apply_singleton_eq_ok, run_cons_ok (x := header)]
    constructor
    · rintro ⟨⟨hnext, hchain⟩, hfirst, voting, ⟨mid, hmid, hrest⟩, rfl⟩
      refine ⟨_, ⟨hfirst, mid, hmid, rfl⟩,
        Snapshot.apply_cons_eq_ok.2 ⟨hchain, hnext.trans (by rw [hfirst]), voting, hrest, ?_⟩⟩
      simp only [List.length_cons, List.getLast_cons_cons, Snapshot.mk.injEq, true_and, and_true]
      omega
    rintro ⟨u, ⟨hfirst, mid, hmid, rfl⟩, h⟩
    obtain ⟨hchain, hnext, voting, hrest, rfl⟩ := Snapshot.apply_cons_eq_ok.1 h
    refine ⟨⟨hnext.trans (by rw [hfirst]), hchain⟩, hfirst, voting, ⟨mid, hmid, hrest⟩, ?_⟩
    simp only [List.length_cons, List.getLast_cons_cons, Snapshot.mk.injEq, true_and, and_true]
    omega

/-- **Applying headers is a run of blocks.** -/
theorem Snapshot.apply_eq_run : s.apply prims headers = .ok t ↔
      run (fun (u : Snapshot) header => u.apply prims [header]) s headers = .ok t := by
  induction headers generalizing s with
  | nil => rfl
  | cons header headers ih =>
    rw [apply_cons, run_cons_ok]
    exact exists_congr fun u => and_congr_right fun _ => ih

theorem Snapshot.apply_append {more : List Header} : s.apply prims (headers ++ more) = .ok t ↔
      ∃ u, s.apply prims headers = .ok u ∧ u.apply prims more = .ok t := by
  simp only [apply_eq_run, run_append_ok]

end Chains

/-! ## Reachable snapshots -/

/-- The snapshots reached from a genesis snapshot with the given signers by applying headers. -/
inductive Reachable (prims : Primitives) (config : Config) (signers : List Address) :
    Snapshot → Prop
  | newSnapshot (number : Nat) (hash : Hash) :
      Reachable prims config signers (newSnapshot config number hash signers)
  | apply {s t : Snapshot} {headers : List Header} (hs : Reachable prims config signers s)
      (h : s.apply prims headers = .ok t) : Reachable prims config signers t

theorem Reachable.induct {prims : Primitives} {config : Config} {signers : List Address}
    {P : Snapshot → Prop}
    (hnew : ∀ number hash, P (Clique.newSnapshot config number hash signers))
    (hblock : ∀ s header t, Reachable prims config signers s → P s →
      s.apply prims [header] = .ok t → P t)
    {s : Snapshot} (hs : Reachable prims config signers s) : P s := by
  induction hs with
  | newSnapshot number hash => exact hnew number hash
  | apply hs h ih =>
    have hinv := run_invariant (I := fun u => Reachable prims config signers u ∧ P u)
      (fun u header v hu hv => ⟨hu.1.apply hv, hblock u header v hu.1 hu.2 hv⟩) ⟨hs, ih⟩
      (Snapshot.apply_eq_run.1 h)
    exact hinv.2

/-! ## Test chains -/

def testerPrims : Primitives where
  hash header := BitVec.ofNat 256 header.number
  recover header := .ok (Fin.ofNat _ header.root.toNat)

def testerConfig : Config := Config.new { period := 1, epoch := 0 }

def testerHeader (number : Nat) (signer voted : Address) (auth : Bool) : Header :=
  { (default : Header) with
    number
    root := BitVec.ofNat 256 signer
    coinbase := voted
    nonce := if auth then nonceAuthVote else nonceDropVote
    extra := List.replicate (extraVanity + extraSeal) 0 }

def testerGenesis (signers : List Address) : Snapshot := newSnapshot testerConfig 0 0 signers

end Virbicoin.Clique
