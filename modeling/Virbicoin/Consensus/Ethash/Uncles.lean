import Mathlib.Data.Finmap
import Virbicoin.Consensus.Ethash.Header

/-!
# Uncles

`VerifyUncles` of `consensus/ethash/consensus.go` looks seven generations back: an uncle must be
the child of one of these ancestors but the parent, and neither one of them nor an uncle of one of
them. Since `verifyHeader` pins the number of an uncle to that of its parent, the window is just
long enough for the whole chain (`uncles_unique`).

The block itself is entered among the ancestors too, so an uncle that names the block as its parent
passes; only the uncle hash of the header, which `VerifyUncles` does not check, rules it out
(`uncles_child_of_block`).
-/

namespace Virbicoin.Ethash

open Virbicoin.Lib List

/-- `chain.GetBlock`, by hash and number. -/
abbrev GetBlock := Hash → Nat → Option Block

def maxUncles : Nat := 2

def lookBack (getBlock : GetBlock) : Nat → Hash → Nat → List Block
  | 0, _, _ => []
  | generations + 1, parent, number =>
    match getBlock parent number with
    | none => []
    | some ancestor =>
      ancestor :: lookBack getBlock generations ancestor.header.parentHash (subUint64 number 1)

abbrev HeaderMap := Finmap fun _ : Hash => Header

def headerMap (hash : Header → Hash) (blocks : List Block) : HeaderMap :=
  blocks.foldl (fun (m : HeaderMap) block => m.insert (hash block.header) block.header) ∅

def uncleSet (hash : Header → Hash) (blocks : List Block) : Finset Hash :=
  ((blocks.flatMap (·.uncles)).map hash).toFinset

def verifyUncle (ethash : Engine) (block : Block) (ancestors : HeaderMap) (unixNow : Int64)
    (uncles : Finset Hash) (uncle : Header) : Except EthashError (Finset Hash) := do
  let hash := ethash.hash uncle
  failIf (hash ∈ uncles) .duplicateUncle
  failIf (hash ∈ ancestors) .uncleIsAncestor
  match ancestors.lookup uncle.parentHash with
  | none => .error .danglingUncle
  | some parent =>
    failIf (uncle.parentHash = block.header.parentHash) .danglingUncle
    verifyHeader ethash uncle parent true true unixNow
    return insert hash uncles

def verifyUncles (ethash : Engine) (getBlock : GetBlock) (block : Block) (unixNow : Int64) :
    Except EthashError Unit := do
  if ethash.powMode = .fullFake then
    return ()
  failIf (block.uncles.length > maxUncles) .tooManyUncles
  if block.uncles = [] then
    return ()
  let past := lookBack getBlock 7 block.header.parentHash (subUint64 block.numberU64 1)
  let ancestors := headerMap ethash.hash (past ++ [block])
  let uncles := insert (ethash.hash block.header) (uncleSet ethash.hash past)
  let _ ← run (verifyUncle ethash block ancestors unixNow) uncles block.uncles
  return ()

/-! ## What is verified -/

theorem headerMap_concat {hash : Header → Hash} : headerMap hash (blocks ++ [block]) =
      (headerMap hash blocks).insert (hash block.header) block.header := by
  unfold headerMap
  rw [foldl_append, foldl_cons, foldl_nil]

theorem mem_headerMap {hash : Header → Hash} {blocks : List Block} {h : Hash} :
    h ∈ headerMap hash blocks ↔ ∃ block ∈ blocks, hash block.header = h := by
  induction blocks using reverseRecOn with
  | nil => exact iff_of_false Finmap.notMem_empty (by simp)
  | append_singleton blocks block ih =>
    rw [headerMap_concat, Finmap.mem_insert, ih]
    simp only [mem_append, mem_singleton, or_and_right, exists_or, exists_eq_left]
    rw [or_comm, eq_comm]

theorem lookup_headerMap {hash : Header → Hash} {blocks : List Block} {h : Hash} {header : Header}
    (hlookup : (headerMap hash blocks).lookup h = some header) :
    ∃ block ∈ blocks, hash block.header = h ∧ block.header = header := by
  induction blocks using reverseRecOn with
  | nil => cases (Finmap.lookup_empty h).symm.trans hlookup
  | append_singleton blocks block ih =>
    rw [headerMap_concat] at hlookup
    by_cases hh : h = hash block.header
    · subst hh
      rw [Finmap.lookup_insert, Option.some.injEq] at hlookup
      exact ⟨block, mem_append_right _ mem_cons_self, rfl, hlookup⟩
    rw [Finmap.lookup_insert_of_ne _ hh] at hlookup
    obtain ⟨b, hb, heq⟩ := ih hlookup
    exact ⟨b, mem_append_left _ hb, heq⟩

structure UncleOf (ethash : Engine) (past : List Block) (block : Block) (uncle : Header) :
    Prop where
  notPast : ∀ a ∈ past, ∀ u ∈ a.uncles, ethash.hash uncle ≠ ethash.hash u
  notAncestor : ∀ a ∈ past ++ [block], ethash.hash uncle ≠ ethash.hash a.header
  parent : ∃ a ∈ past ++ [block], ethash.hash a.header = uncle.parentHash ∧
    uncle.number = a.header.number + 1
  notSibling : uncle.parentHash ≠ block.header.parentHash

section Verify

variable {ethash : Engine} {past : List Block} {block : Block} {unixNow : Int64}

theorem verifyUncle_eq_ok {ancestors : HeaderMap} {uncles uncles' : Finset Hash} {uncle : Header}
    (h : verifyUncle ethash block ancestors unixNow uncles uncle = .ok uncles') :
    uncles' = insert (ethash.hash uncle) uncles ∧ ethash.hash uncle ∉ uncles ∧
      ethash.hash uncle ∉ ancestors ∧ uncle.parentHash ≠ block.header.parentHash ∧
      ∃ parent, ancestors.lookup uncle.parentHash = some parent ∧
        verifyHeader ethash uncle parent true true unixNow = .ok () := by
  unfold verifyUncle at h
  simp only [bind_eq_ok, failIf_eq_ok, exists_const] at h
  obtain ⟨hnew, hnot, h⟩ := h
  cases hlookup : ancestors.lookup uncle.parentHash with
  | none => rw [hlookup] at h; cases h
  | some parent =>
    rw [hlookup] at h
    simp only [bind_eq_ok, failIf_eq_ok, pure_eq_ok, exists_const] at h
    obtain ⟨hsibling, ⟨⟩, hverify, huncles⟩ := h
    exact ⟨huncles, hnew, hnot, hsibling, parent, rfl, hverify⟩

theorem run_verifyUncle {ancestors : HeaderMap} {uncles uncles' : Finset Hash} {us : List Header}
    (h : run (verifyUncle ethash block ancestors unixNow) uncles us = .ok uncles') :
    (us.map ethash.hash).Nodup ∧ ∀ uncle ∈ us, ethash.hash uncle ∉ uncles ∧
      ethash.hash uncle ∉ ancestors ∧ uncle.parentHash ≠ block.header.parentHash ∧
      ∃ parent, ancestors.lookup uncle.parentHash = some parent ∧
        verifyHeader ethash uncle parent true true unixNow = .ok () := by
  induction us generalizing uncles with
  | nil => exact ⟨nodup_nil, fun uncle hmem => absurd hmem not_mem_nil⟩
  | cons u us ih =>
    obtain ⟨seen, hstep, hrest⟩ := run_cons_ok.1 h
    obtain ⟨rfl, hu⟩ := verifyUncle_eq_ok hstep
    obtain ⟨hnodup, hus⟩ := ih hrest
    refine ⟨?_, ?_⟩
    · rw [map_cons, nodup_cons]
      refine ⟨fun hmem => ?_, hnodup⟩
      obtain ⟨w, hw, heq⟩ := mem_map.1 hmem
      exact (hus w hw).1 (heq ▸ Finset.mem_insert_self _ _)
    intro w hw
    rcases mem_cons.1 hw with rfl | hw
    · exact hu
    obtain ⟨hnew, hrest⟩ := hus w hw
    exact ⟨fun hmem => hnew (Finset.mem_insert_of_mem hmem), hrest⟩

theorem verifyUncles_uncleOf {getBlock : GetBlock} (hmode : ethash.powMode ≠ .fullFake)
    (h : verifyUncles ethash getBlock block unixNow = .ok ()) :
    (block.uncles.map ethash.hash).Nodup ∧ ∀ uncle ∈ block.uncles, UncleOf ethash
      (lookBack getBlock 7 block.header.parentHash (subUint64 block.numberU64 1)) block uncle := by
  unfold verifyUncles at h
  rw [if_neg hmode] at h
  obtain ⟨-, -, h⟩ := bind_eq_ok.1 h
  by_cases hnil : block.uncles = []
  · rw [hnil]
    exact ⟨nodup_nil, fun uncle hmem => absurd hmem not_mem_nil⟩
  rw [if_neg hnil] at h
  obtain ⟨_, hrun, -⟩ := bind_eq_ok.1 h
  obtain ⟨hnodup, hall⟩ := run_verifyUncle hrun
  refine ⟨hnodup, fun uncle huncle => ?_⟩
  obtain ⟨hnew, hancestor, hsibling, parent, hparent, hverify⟩ := hall uncle huncle
  refine ⟨fun a ha u hu heq => hnew ?_, fun a ha heq => hancestor ?_, ?_, hsibling⟩
  · refine mem_insert_of_mem (mem_toFinset.2 (mem_map.2 ⟨u, ?_, heq.symm⟩))
    exact mem_flatMap.2 ⟨a, ha, hu⟩
  · exact mem_headerMap.2 ⟨a, ha, heq.symm⟩
  · obtain ⟨a, ha, hhash, rfl⟩ := lookup_headerMap hparent
    exact ⟨a, ha, hhash, verifyHeader_number hverify⟩

end Verify

/-! ## Chains -/

structure Reads (hash : Header → Hash) (getBlock : GetBlock) (blocks : List Block) (n : Nat) :
    Prop where
  known : ∀ a ∈ blocks.take n, getBlock (hash a.header) a.numberU64 = some a
  genesis : ∀ g ∈ blocks.head?, getBlock g.header.parentHash (subUint64 g.numberU64 1) = none

/-- A chain from its genesis block on, in which every block was verified against its parent and its
uncles against a reader of its ancestors. -/
structure VerifiedChain (ethash : Engine) (blocks : List Block) : Prop where
  linked : blocks.IsChain fun parent block =>
    block.header.parentHash = ethash.hash parent.header ∧ ∃ checkSeal unixNow,
      verifyHeader ethash block.header parent.header false checkSeal unixNow = .ok ()
  uncles : ∀ n (hn : n < blocks.length), ∃ getBlock unixNow,
    Reads ethash.hash getBlock blocks n ∧ verifyUncles ethash getBlock blocks[n] unixNow = .ok ()

def chainHeaders (blocks : List Block) : List Header :=
  blocks.flatMap fun block => block.header :: block.uncles

section Chain

variable {ethash : Engine} {blocks : List Block}

section

variable (h : VerifiedChain ethash blocks)
include h

variable {n : Nat}

theorem VerifiedChain.parentHash (hn : n + 1 < blocks.length) :
    blocks[n + 1].header.parentHash = ethash.hash blocks[n].header :=
  (h.linked.getElem n hn).1

theorem VerifiedChain.number_succ (hn : n + 1 < blocks.length) :
    blocks[n + 1].header.number = blocks[n].header.number + 1 := by
  obtain ⟨-, checkSeal, unixNow, hverify⟩ := h.linked.getElem n hn
  exact verifyHeader_number hverify

theorem VerifiedChain.number_eq {m : Nat} (hmn : m ≤ n) (hn : n < blocks.length) :
    blocks[n].header.number = blocks[m].header.number + (n - m) := by
  induction n, hmn using Nat.le_induction with
  | base => rw [Nat.sub_self, Nat.add_zero]
  | succ n hmn ih =>
    rw [h.number_succ hn, ih (by omega)]
    omega

theorem VerifiedChain.lookBack_eq {getBlock : GetBlock} (hn : n < blocks.length)
    (hreads : Reads ethash.hash getBlock blocks n) (generations : Nat) :
    lookBack getBlock generations blocks[n].header.parentHash (subUint64 blocks[n].numberU64 1) =
      (blocks.take n).reverse.take generations := by
  induction generations generalizing n with
  | zero => rfl
  | succ generations ih =>
    unfold lookBack
    cases n with
    | zero =>
      rw [hreads.genesis blocks[0] (by simp [head?_eq_getElem?, getElem?_eq_getElem hn])]
      rfl
    | succ n =>
      have hnumber : subUint64 blocks[n + 1].numberU64 1 = blocks[n].numberU64 := by
        have := h.number_succ hn
        unfold subUint64 Block.numberU64 Header.numberU64 uint64
        omega
      have htake : (blocks.take (n + 1)).reverse = blocks[n] :: (blocks.take n).reverse := by
        rw [← take_append_getElem (by omega), reverse_append, reverse_singleton, singleton_append]
      have hmem : blocks[n] ∈ blocks.take (n + 1) := by
        rw [← take_append_getElem (by omega)]
        exact mem_append_right _ mem_cons_self
      rw [h.parentHash hn, hnumber, hreads.known _ hmem, htake]
      refine congrArg _ (ih (by omega) ⟨fun a ha => hreads.known a ?_, hreads.genesis⟩)
      rw [← take_append_getElem (by omega)]
      exact mem_append_left _ ha

omit h in
theorem mem_reverse_take {k : Nat} (hn : n ≤ blocks.length) {a : Block} :
    a ∈ (blocks.take n).reverse.take k ↔
      ∃ j, ∃ hj : j < blocks.length, j < n ∧ n ≤ j + k ∧ blocks[j] = a := by
  rw [take_reverse, mem_reverse, length_take_of_le hn, mem_iff_getElem]
  constructor
  · rintro ⟨i, hi, rfl⟩
    rw [length_drop, length_take_of_le hn] at hi
    refine ⟨n - k + i, by omega, by omega, by omega, ?_⟩
    rw [getElem_drop, getElem_take]
  rintro ⟨j, hj, hjn, hnk, rfl⟩
  refine ⟨j - (n - k), ?_, ?_⟩
  · rw [length_drop, length_take_of_le hn]
    omega
  rw [getElem_drop, getElem_take]
  congr 1
  omega

/-- The uncles of block `n` have distinct hashes, and each one's parent is an ancestor of the block
two to seven generations back; neither the last seven ancestors nor their uncles are among them. -/
theorem VerifiedChain.uncle_spec (hmode : ethash.powMode ≠ .fullFake)
    (hself : ∀ block ∈ blocks, ∀ uncle ∈ block.uncles, uncle.parentHash ≠ ethash.hash block.header)
    (hn : n < blocks.length) :
    (blocks[n].uncles.map ethash.hash).Nodup ∧ ∀ uncle ∈ blocks[n].uncles,
      (blocks[n].header.number ≤ uncle.number + 6 ∧ uncle.number + 1 ≤ blocks[n].header.number) ∧
      ∀ m (hm : m < blocks.length), m < n → n ≤ m + 7 →
        ethash.hash uncle ≠ ethash.hash blocks[m].header ∧
          ∀ u ∈ blocks[m].uncles, ethash.hash uncle ≠ ethash.hash u := by
  obtain ⟨getBlock, unixNow, hreads, hverify⟩ := h.uncles n hn
  obtain ⟨hnodup, hall⟩ := verifyUncles_uncleOf hmode hverify
  refine ⟨hnodup, fun uncle huncle => ?_⟩
  have hu := hall uncle huncle
  rw [h.lookBack_eq hn hreads] at hu
  refine ⟨?_, fun m hm hmn hnm => ?_⟩
  · obtain ⟨a, ha, hhash, hnumber⟩ := hu.parent
    rcases mem_append.1 ha with ha | ha
    · obtain ⟨j, hj, hjn, hnj, rfl⟩ := (mem_reverse_take (le_of_lt hn)).1 ha
      -- a child of the block's own parent is no uncle of it
      have hparent : j + 1 ≠ n := by
        rintro rfl
        exact hu.notSibling (hhash.symm.trans (h.parentHash hn).symm)
      have := h.number_eq (le_of_lt hjn) hn
      omega
    rw [mem_singleton.1 ha] at hhash
    exact absurd hhash.symm (hself _ (getElem_mem hn) uncle huncle)
  have hmem : blocks[m] ∈ (blocks.take n).reverse.take 7 :=
    (mem_reverse_take (le_of_lt hn)).2 ⟨m, hm, hmn, hnm, rfl⟩
  exact ⟨hu.notAncestor _ (mem_append_left _ hmem), hu.notPast _ hmem⟩

end

theorem uncle_mem_chainHeaders {block : Block} {uncle : Header} (h : block ∈ blocks)
    (huncle : uncle ∈ block.uncles) : uncle ∈ chainHeaders blocks :=
  mem_flatMap.2 ⟨block, h, mem_cons_of_mem _ huncle⟩

section Unique

variable (hchain : VerifiedChain ethash blocks) (hmode : ethash.powMode ≠ .fullFake)
  (hinj : ∀ x ∈ chainHeaders blocks, ∀ y ∈ chainHeaders blocks,
    ethash.hash x = ethash.hash y → x = y)
  (hself : ∀ block ∈ blocks, ∀ uncle ∈ block.uncles, uncle.parentHash ≠ ethash.hash block.header)

include hchain hmode hinj hself

theorem uncle_ne_uncle {m n : Nat} (hm : m < blocks.length) (hn : n < blocks.length) (hmn : m < n)
    {u w : Header} (hu : u ∈ blocks[m].uncles) (hw : w ∈ blocks[n].uncles) :
    ethash.hash w ≠ ethash.hash u := by
  intro heq
  have hsame : w = u := hinj w (uncle_mem_chainHeaders (getElem_mem hn) hw) u
    (uncle_mem_chainHeaders (getElem_mem hm) hu) heq
  obtain ⟨⟨-, hum⟩, -⟩ := (hchain.uncle_spec hmode hself hm).2 u hu
  obtain ⟨⟨hwn, -⟩, hpast⟩ := (hchain.uncle_spec hmode hself hn).2 w hw
  have hnumber := hchain.number_eq (le_of_lt hmn) hn
  rw [hsame] at hwn
  exact (hpast m hm hmn (by omega)).2 u hu heq

theorem uncle_ne_block {n j : Nat} (hn : n < blocks.length) (hj : j < blocks.length) {w : Header}
    (hw : w ∈ blocks[n].uncles) : ethash.hash w ≠ ethash.hash blocks[j].header := by
  intro heq
  have hsame : w = blocks[j].header := hinj w (uncle_mem_chainHeaders (getElem_mem hn) hw) _
    (mem_flatMap.2 ⟨_, getElem_mem hj, mem_cons_self⟩) heq
  obtain ⟨⟨hlow, hhigh⟩, hpast⟩ := (hchain.uncle_spec hmode hself hn).2 w hw
  rw [hsame] at hlow hhigh
  rcases j.lt_or_ge n with hjn | hnj
  · have hnumber := hchain.number_eq (le_of_lt hjn) hn
    exact (hpast j hj hjn (by omega)).1 heq
  · have hnumber := hchain.number_eq hnj hj
    omega

end Unique

/-- **Uncles are rewarded once.** In a verified chain in which no block has an uncle that names the
block as its parent, no two uncles are the same and none is a block of the chain; an uncle is one to
six blocks older than the block that includes it. -/
theorem uncles_unique (hchain : VerifiedChain ethash blocks) (hmode : ethash.powMode ≠ .fullFake)
    (hinj : ∀ x ∈ chainHeaders blocks, ∀ y ∈ chainHeaders blocks,
      ethash.hash x = ethash.hash y → x = y)
    (hself : ∀ block ∈ blocks, ∀ uncle ∈ block.uncles,
      uncle.parentHash ≠ ethash.hash block.header) :
    ((blocks.flatMap (·.uncles)).map ethash.hash).Nodup ∧
    (∀ uncle ∈ blocks.flatMap (·.uncles), ∀ block ∈ blocks,
      ethash.hash uncle ≠ ethash.hash block.header) ∧
    ∀ block ∈ blocks, ∀ uncle ∈ block.uncles,
      block.header.number ≤ uncle.number + 6 ∧ uncle.number + 1 ≤ block.header.number := by
  refine ⟨?_, ?_, ?_⟩
  · rw [map_flatMap, nodup_flatMap, pairwise_iff_getElem]
    refine ⟨fun block hblock => ?_, fun m n hm hn hmn => disjoint_left.2 fun x hxm hxn => ?_⟩
    · obtain ⟨n, hn, rfl⟩ := mem_iff_getElem.1 hblock
      exact (hchain.uncle_spec hmode hself hn).1
    obtain ⟨u, hu, rfl⟩ := mem_map.1 hxm
    obtain ⟨w, hw, heq⟩ := mem_map.1 hxn
    exact uncle_ne_uncle hchain hmode hinj hself hm hn hmn hu hw heq
  · intro uncle huncle block hblock
    obtain ⟨b, hb, huncle⟩ := mem_flatMap.1 huncle
    obtain ⟨n, hn, rfl⟩ := mem_iff_getElem.1 hb
    obtain ⟨j, hj, rfl⟩ := mem_iff_getElem.1 hblock
    exact uncle_ne_block hchain hmode hinj hself hn hj huncle
  intro block hblock uncle huncle
  obtain ⟨n, hn, rfl⟩ := mem_iff_getElem.1 hblock
  exact ((hchain.uncle_spec hmode hself hn).2 uncle huncle).1

theorem VerifiedChain.of_reader (getBlock : GetBlock) (unixNow : Int64)
    (hlinked : blocks.IsChain fun parent block =>
      block.header.parentHash = ethash.hash parent.header ∧
        verifyHeader ethash block.header parent.header false true unixNow = .ok ())
    (hknown : ∀ a ∈ blocks, getBlock (ethash.hash a.header) a.numberU64 = some a)
    (hgenesis : ∀ g ∈ blocks.head?, getBlock g.header.parentHash (subUint64 g.numberU64 1) = none)
    (huncles : ∀ block ∈ blocks, verifyUncles ethash getBlock block unixNow = .ok ()) :
    VerifiedChain ethash blocks := by
  refine ⟨hlinked.imp fun parent block h => ⟨h.1, true, unixNow, h.2⟩, fun n hn => ?_⟩
  refine ⟨getBlock, unixNow, ⟨fun a ha => hknown a (mem_of_mem_take ha), hgenesis⟩, ?_⟩
  exact huncles _ (getElem_mem hn)

end Chain

/-! ## Test chains -/

def testEngine : Engine where
  config := {}
  powMode := .normal
  fakeFail := 0
  hash header := header.root
  hashimoto header := (header.mixDigest, 0)

def testHeader (number : Nat) (root parentHash : Hash) : Header :=
  { (default : Header) with
    number, root, parentHash
    time := UInt64.ofNat (12 * number)
    difficulty := minimumDifficulty
    gasLimit := 8000000 }

def testReader (blocks : List Block) : GetBlock := fun hash number =>
  blocks.find? fun block => testEngine.hash block.header = hash ∧ block.numberU64 = number

theorem uncles_unique_sibling :
    let blocks : List Block := [⟨testHeader 0 1 0, []⟩, ⟨testHeader 1 2 1, []⟩,
      ⟨testHeader 2 3 2, [testHeader 1 4 1]⟩]
    VerifiedChain testEngine blocks ∧ ∀ uncle ∈ blocks.flatMap (·.uncles), ∀ block ∈ blocks,
        testEngine.hash uncle ≠ testEngine.hash block.header := by
  intro blocks
  have hchain : VerifiedChain testEngine blocks :=
    .of_reader (testReader blocks) 100 (by decide +kernel) (by decide +kernel)
      (by decide +kernel) (by decide +kernel)
  exact ⟨hchain, (uncles_unique hchain (by decide) (by decide +kernel) (by decide +kernel)).2.1⟩

/-- Block 1 includes the header of its own child, block 2, as an uncle: every check passes, as none
looks at the uncle hash of block 1. -/
theorem uncles_child_of_block :
    let blocks : List Block := [⟨testHeader 0 1 0, []⟩, ⟨testHeader 1 2 1, [testHeader 2 3 2]⟩,
      ⟨testHeader 2 3 2, []⟩]
    VerifiedChain testEngine blocks ∧ testEngine.powMode = .normal ∧
      (∀ x ∈ chainHeaders blocks, ∀ y ∈ chainHeaders blocks,
        testEngine.hash x = testEngine.hash y → x = y) ∧
      ∃ block ∈ blocks, ∃ uncle ∈ block.uncles, block.header.number < uncle.number ∧
        ∃ child ∈ blocks, testEngine.hash uncle = testEngine.hash child.header := by
  intro blocks
  have hchain : VerifiedChain testEngine blocks :=
    .of_reader (testReader blocks) 100 (by decide +kernel) (by decide +kernel)
      (by decide +kernel) (by decide +kernel)
  exact ⟨hchain, rfl, by decide +kernel, by decide +kernel⟩

end Virbicoin.Ethash
