import Virbicoin.Core.Blockchain.Chain

/-!
# The stored blocks

The blocks that are stored form a tree with total difficulties that are sums along it. Moving the
head leaves them alone (`moveHead_eq_ok`), and writing a block on top of a stored one, or again,
keeps the tree (`writeBlock_stored`).
-/

namespace Virbicoin.Core.Chain

open Lib

namespace BlockChain

variable {hash : Header → Hash} {U : Set ChainBlock} {genesis b : ChainBlock}
  {bc bc' bc1 : BlockChain}

abbrev link (bc : BlockChain) : Hash → Option (Link Hash) :=
  linkOf ChainBlock.parentHash ChainBlock.difficulty bc.blocks bc.numbers

abbrev Stored (hash : Header → Hash) (U : Set ChainBlock) (genesis : ChainBlock)
    (bc : BlockChain) : Prop :=
  Lib.Stored (ChainBlock.hash hash) ChainBlock.parentHash ChainBlock.numberU64
    ChainBlock.difficulty U (genesis.hash hash) bc.blocks bc.numbers bc.tds

def Has (hash : Header → Hash) (bc : BlockChain) (b : ChainBlock) : Prop :=
  bc.blocks b.numberU64 (b.hash hash) = some b

section

variable (hs : Stored hash U genesis bc)
include hs

theorem has_of_blocks {n : Nat} {h : Hash} (hb : bc.blocks n h = some b) : bc.Has hash b := by
  obtain ⟨-, rfl, rfl⟩ := hs.keyed hb
  exact hb

theorem Has.mem (hb : bc.Has hash b) : b ∈ U := (hs.keyed hb).1

theorem Has.link (hb : bc.Has hash b) :
    bc.link (b.hash hash) = some ⟨b.parentHash, b.numberU64, b.difficulty⟩ := hs.link_eq hb

structure Sound (hash : Header → Hash) (U : Set ChainBlock) (genesis : ChainBlock)
    (bc : BlockChain) : Prop where
  stored : Stored hash U genesis bc
  current : bc.Has hash bc.currentBlock

/-! ## Moving the head -/

def SameStore (bc bc' : BlockChain) : Prop :=
  bc'.blocks = bc.blocks ∧ bc'.numbers = bc.numbers ∧ bc'.tds = bc.tds

omit hs in
theorem SameStore.link (h : SameStore bc bc') : bc'.link = bc.link := by
  funext k
  simp only [BlockChain.link, linkOf, h.1, h.2.1]

theorem SameStore.stored (h : SameStore bc bc') : Stored hash U genesis bc' := by
  rw [Stored, h.1, h.2.1, h.2.2]
  exact hs

end

theorem SameStore.has (h : SameStore bc bc') : bc'.Has hash b ↔ bc.Has hash b := by
  rw [Has, Has, h.1]

theorem SameStore.trans (h : SameStore bc bc') (h' : SameStore bc' bc1) : SameStore bc bc1 :=
  ⟨h'.1.trans h.1, h'.2.1.trans h.2.1, h'.2.2.trans h.2.2⟩

theorem writeHeadBlock_store : SameStore bc (writeHeadBlock hash bc b) := by
  unfold writeHeadBlock forceHeads
  split <;> exact ⟨rfl, rfl, rfl⟩

theorem writeForks_store {l : List ChainBlock} : SameStore bc (writeForks hash bc l) := by
  unfold writeForks
  generalize (l.drop 1).reverse = xs
  induction xs generalizing bc with
  | nil => exact ⟨rfl, rfl, rfl⟩
  | cons x xs ih => exact writeHeadBlock_store.trans ih

theorem deleteUseless_store {l l' : List ChainBlock} : SameStore bc (bc.deleteUseless l l') :=
  ⟨rfl, rfl, rfl⟩

theorem moveHead_eq_ok (h : moveHead hash bc b = .ok bc') :
    SameStore bc bc' ∧ bc'.currentBlock = b := by
  unfold moveHead at h
  split at h
  · cases h
    exact ⟨writeHeadBlock_store, rfl⟩
  unfold reorg at h
  cases hf : forkChains hash bc bc.currentBlock b with
  | error err =>
    rw [hf] at h
    cases h
  | ok r =>
    rw [hf] at h
    cases h
    exact ⟨writeForks_store.trans (deleteUseless_store.trans writeHeadBlock_store), rfl⟩

theorem SameStore.sound (h : SameStore bc bc') (hs : Sound hash U genesis bc)
    (hb : bc.Has hash bc'.currentBlock) : Sound hash U genesis bc' :=
  ⟨h.stored hs.stored, h.has.2 hb⟩

theorem Sound.removeFutureBlock (hs : Sound hash U genesis bc) (h : Hash) :
    Sound hash U genesis (bc.removeFutureBlock h) := ⟨hs.stored, hs.current⟩

/-! ## Writing a block -/

theorem writeBlock_stored (hU : Set.InjOn (ChainBlock.hash hash) U) (hs : Stored hash U genesis bc)
    (hb : b ∈ U) (hnum : b.numberU64 = subUint64 b.numberU64 1 + 1) {ptd : Int}
    (hptd : bc.getTd b.parentHash (subUint64 b.numberU64 1) = some ptd) :
    Stored hash U genesis (writeBlock hash bc b (ptd + b.difficulty)) ∧
      (writeBlock hash bc b (ptd + b.difficulty)).Has hash b ∧
      ∀ {n h x}, bc.blocks n h = some x →
        (writeBlock hash bc b (ptd + b.difficulty)).blocks n h = some x := by
  have hself : (writeBlock hash bc b (ptd + b.difficulty)).Has hash b := put_self bc.blocks _ _ _
  cases hknown : bc.blocks b.numberU64 (b.hash hash) with
  | none =>
    refine ⟨hs.insert hU hb hknown hptd hnum, hself, fun {n h x} hx => ?_⟩
    refine (put_apply bc.blocks _ _ _ n h).trans ?_
    rw [if_neg, hx]
    rintro ⟨rfl, rfl⟩
    rw [hknown] at hx
    cases hx
  | some y =>
    -- the block is written as it is there
    have hy := hs.blocks_eq hU hb (Option.isSome_iff_exists.2 ⟨y, hknown⟩)
    have hsame : SameStore bc (writeBlock hash bc b (ptd + b.difficulty)) := by
      refine ⟨put_eq_self hy, ?_, put_eq_self (hs.total_step hy hptd (by omega))⟩
      have hn : bc.numbers (b.hash hash) = some b.numberU64 := hs.numbered.2 (by rw [hy]; rfl)
      simp only [writeBlock, ← hn, Function.update_eq_self]
    exact ⟨hsame.stored hs, hself, fun hx => hsame.1 ▸ hx⟩

theorem newBlockChain_sound (hmem : genesis ∈ U) (hzero : genesis.numberU64 = 0) :
    Sound hash U genesis (newBlockChain hash genesis) :=
  ⟨stored_root hmem hzero, put_self (fun _ _ => none) _ _ _⟩

def namedBlock (parent : Hash) (number : Nat) (difficulty : Int) (nonce : BitVec 64)
    (transactions : List Hash) : ChainBlock where
  header := { (default : Header) with
    parentHash := parent, number := number, difficulty := difficulty, nonce := nonce
    root := nonce.setWidth 256 }
  uncles := []
  transactions := transactions

def nonceHash (x : Header) : Hash := x.nonce.setWidth 256

end BlockChain

end Virbicoin.Core.Chain
