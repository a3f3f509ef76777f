import Virbicoin.Core.Types

/-!
# Signers

`core/types/transaction_signing.go`. A signature for a chain carries its id in `V`, which is
`2 * chainId + 35` or one more. The signers without a chain accept 27 and 28 only, and the decoded
chain id is compared before `V` is shifted back to them, so a signature counts on one chain.

Hashing, signing and recovery are parameters; what of a transaction is hashed is of any type.
-/

namespace Virbicoin.Types

inductive Signer
  | frontier
  | homestead
  | eip155 (chainId : Nat)
  deriving DecidableEq

inductive SigError
  | invalidSig
  | invalidChainId
  | recover
  deriving DecidableEq

/-- The fields `δ` are hashed with the chain id, if there is one. A signature is R, S and a last
byte. -/
structure Ecdsa (δ κ : Type) where
  hash : δ → Option Nat → Hash
  sign : Hash → κ → Option (Nat × Nat × BitVec 8)
  ecrecover : Hash → Nat → Nat → BitVec 8 → Option Address

structure SignedTx (δ : Type) where
  data : δ
  v : Nat
  r : Nat
  s : Nat
  sigCache : Option (Signer × Address)

def isProtectedV (v : Nat) : Bool :=
  if v < 2 ^ 8 then v ≠ 27 && v ≠ 28 else true

def deriveChainId (v : Nat) : Nat :=
  if v < 2 ^ 64 then
    if v = 27 ∨ v = 28 then 0 else subUint64 v 35 / 2
  else (v - 35) / 2

def secp256k1N : Nat := 0xfffffffffffffffffffffffffffffffebaaedce6af48a03bbfd25e8cd0364141

def secp256k1halfN : Nat := secp256k1N / 2

def validateSignatureValues (v : BitVec 8) (r s : Nat) (homestead : Bool) : Bool :=
  if r < 1 ∨ s < 1 then false
  else if homestead ∧ secp256k1halfN < s then false
  else r < secp256k1N && s < secp256k1N && (v = 0 || v = 1)

variable {δ κ : Type} (e : Ecdsa δ κ)

namespace Ecdsa

def recoverPlain (sighash : Hash) (r s : Nat) (vb : Int) (homestead : Bool) :
    Except SigError Address :=
  if 2 ^ 8 ≤ vb.natAbs then .error .invalidSig
  else
    let v := BitVec.ofNat 8 (subUint64 vb.natAbs 27)
    if validateSignatureValues v r s homestead then
      match e.ecrecover sighash r s v with
      | some addr => .ok addr
      | none => .error .recover
    else .error .invalidSig

def homesteadSender (tx : SignedTx δ) : Except SigError Address :=
  e.recoverPlain (e.hash tx.data none) tx.r tx.s tx.v true

/-- `Signer.Sender`, without the cache. -/
def senderOf (tx : SignedTx δ) : Signer → Except SigError Address
  | .frontier => e.recoverPlain (e.hash tx.data none) tx.r tx.s tx.v false
  | .homestead => e.homesteadSender tx
  | .eip155 chainId =>
    if ¬ isProtectedV tx.v then e.homesteadSender tx
    else if deriveChainId tx.v ≠ chainId then .error .invalidChainId
    else e.recoverPlain (e.hash tx.data (some chainId)) tx.r tx.s (tx.v - chainId * 2 - 8) true

def sender (tx : SignedTx δ) (signer : Signer) : Except SigError Address × SignedTx δ :=
  match tx.sigCache.filter (·.1 = signer) with
  | some cached => (.ok cached.2, tx)
  | none =>
    match e.senderOf tx signer with
    | .ok addr => (.ok addr, { tx with sigCache := some (signer, addr) })
    | .error err => (.error err, tx)

/-- One call after the other. -/
def senders (tx : SignedTx δ) : List Signer → List (Except SigError Address)
  | [] => []
  | signer :: signers => (e.sender tx signer).1 :: senders (e.sender tx signer).2 signers

end Ecdsa

namespace Signer

def chain : Signer → Option Nat
  | .eip155 chainId => some chainId
  | _ => none

/-- The V of `SignatureValues`. -/
def signatureV (last : BitVec 8) : Signer → Nat
  | .eip155 chainId => if chainId ≠ 0 then (last + 35).toNat + chainId * 2 else (last + 27).toNat
  | _ => (last + 27).toNat

end Signer

def Ecdsa.signTx (tx : SignedTx δ) (signer : Signer) (key : κ) : Option (SignedTx δ) :=
  (e.sign (e.hash tx.data signer.chain) key).map fun (r, s, last) =>
    ⟨tx.data, signer.signatureV last, r, s, none⟩

/-! ## Signing and recovery -/

/-- Signing succeeds, with values that are accepted and from which the address of the key is
recovered for the signed hash and for no other. -/
def Ecdsa.Inverse (addressOf : κ → Address) : Prop :=
  ∀ hash key, ∃ r s last, e.sign hash key = some (r, s, last) ∧
    validateSignatureValues last r s true = true ∧
    ∀ hash', e.ecrecover hash' r s last = some (addressOf key) ↔ hash' = hash

variable {e} {tx : SignedTx δ} {addressOf : κ → Address} {hash : Hash} {r s : Nat} {last : BitVec 8}

theorem last_of_valid {homestead : Bool} (h : validateSignatureValues last r s homestead = true) :
    last = 0 ∨ last = 1 := by
  unfold validateSignatureValues at h
  grind

theorem recoverPlain_eq_ok {addr : Address} {vb : Int}
    (hvalid : validateSignatureValues last r s true = true) (hvb : vb = last.toNat + 27) :
    e.recoverPlain hash r s vb true = .ok addr ↔ e.ecrecover hash r s last = some addr := by
  have hv : BitVec.ofNat 8 (subUint64 vb.natAbs 27) = last ∧ ¬ 2 ^ 8 ≤ vb.natAbs := by
    obtain rfl | rfl := last_of_valid hvalid <;> subst hvb <;> decide
  simp only [Ecdsa.recoverPlain, if_neg hv.2, hv.1, hvalid, if_true]
  cases e.ecrecover hash r s last <;> simp

theorem recoverPlain_protected {v : Nat} (hv : 37 ≤ v) (homestead : Bool) :
    e.recoverPlain hash r s v homestead = .error .invalidSig := by
  unfold Ecdsa.recoverPlain
  split
  · rfl
  refine if_neg fun hvalid => ?_
  have hlast := last_of_valid hvalid
  rw [← BitVec.toNat_inj, ← BitVec.toNat_inj, BitVec.toNat_ofNat] at hlast
  change _ = 0 ∨ _ = 1 at hlast
  unfold subUint64 at hlast
  omega

theorem senders_eq_map (hcache : ∀ {signer addr}, tx.sigCache = some (signer, addr) →
      e.senderOf tx signer = .ok addr) (signers : List Signer) :
    e.senders tx signers = signers.map (e.senderOf tx) := by
  induction signers generalizing tx with
  | nil => rfl
  | cons signer signers ih =>
    rw [Ecdsa.senders, List.map_cons, Ecdsa.sender]
    split
    · rename_i cached hc
      obtain ⟨hc, heq⟩ := Option.filter_eq_some_iff.1 hc
      rw [ih hcache, @hcache signer _ (hc.trans (by rw [← of_decide_eq_true heq]))]
    split
    · rename_i addr haddr
      rw [haddr]
      refine congrArg _ (ih ?_)
      rintro signer' addr' ⟨⟩
      exact haddr
    rename_i err herr
    rw [herr, ih hcache]

/-- A signature tells the hash, and the hash without a chain id is that of chain 1. -/
def toy : Ecdsa Unit Unit where
  hash _ chain := BitVec.ofNat 256 (chain.getD 1)
  sign hash _ := some (hash.toNat % 2 ^ 128 + 1, hash.toNat / 2 ^ 128 + 1, 0)
  ecrecover hash r s _ :=
    if r = hash.toNat % 2 ^ 128 + 1 ∧ s = hash.toNat / 2 ^ 128 + 1 then some 5 else none

theorem toy_inverse : toy.Inverse fun _ => 5 := by
  intro hash key
  refine ⟨_, _, _, rfl, ?_, fun hash' => ?_⟩
  · have hlt := hash.isLt
    have hs : hash.toNat / 2 ^ 128 < 2 ^ 128 := by omega
    simp only [validateSignatureValues, secp256k1halfN, secp256k1N]
    grind
  simp only [toy, ← BitVec.toNat_inj]
  split <;> simp <;> omega

end Virbicoin.Types
