import Mathlib.Tactic.NormNum.Prime
import Virbicoin.Consensus.Ethash.Algorithm
import Virbicoin.Lib.Run

/-!
# Miner and verifier compute the same proof of work

The threads write each item of the dataset at least once and nothing else, so after any interleaving
the dataset consists of the items that the verifier computes from the cache. `hashimotoFull` then
agrees with `hashimotoLight` as long as the word offset of an item fits in 32 bits, which is so up
to epoch 1920. From then on the end of the slice of item `2 ^ 28 - 1` wraps around to zero.
-/

namespace Virbicoin.Ethash

open List Option

/-! ## Sizes -/

section Sizes

theorem primeRows_spec {rowBytes q d : Nat} (fuel : Nat) (hrow : 0 < rowBytes) (hq : q.Prime)
    (hd : d < fuel) :
    ∃ p, primeRows rowBytes fuel (rowBytes * (q + 2 * d)) = rowBytes * p ∧ q ≤ p ∧
      p ≤ q + 2 * d := by
  induction fuel generalizing d with
  | zero => omega
  | succ fuel ih =>
    rw [primeRows, Nat.mul_div_cancel_left _ hrow]
    split
    · exact ⟨_, rfl, by omega, le_rfl⟩
    rename_i hnot
    cases d with
    | zero => exact absurd hq hnot
    | succ d =>
      obtain ⟨p, hp, hle, hge⟩ := ih (show d < fuel by omega)
      refine ⟨p, ?_, hle, by omega⟩
      rw [← hp, show q + 2 * (d + 1) = q + 2 * d + 2 by omega, mul_add, mul_comm 2 rowBytes,
        Nat.add_sub_cancel]

theorem calcDatasetSize_spec (epoch : Nat) {q d : Nat} (hq : q.Prime)
    (hd : q + 2 * d = 2 ^ 23 + 2 ^ 16 * epoch - 1) :
    ∃ p, calcDatasetSize epoch = 128 * p ∧ q ≤ p ∧ p < 2 ^ 23 + 2 ^ 16 * epoch := by
  have hpos := hq.pos
  have hsize : datasetInitBytes + datasetGrowthBytes * epoch - mixBytes = 128 * (q + 2 * d) := by
    unfold datasetInitBytes datasetGrowthBytes mixBytes
    omega
  obtain ⟨p, hp, hle, hge⟩ :=
    primeRows_spec (128 * (q + 2 * d) / 128) (show 0 < 128 by decide) hq
      (show d < 128 * (q + 2 * d) / 128 by omega)
  refine ⟨p, ?_, hle, by omega⟩
  unfold calcDatasetSize
  rw [hsize]
  exact hp

theorem calcCacheSize_spec (epoch : Nat) :
    ∃ p, calcCacheSize epoch = 64 * p ∧ 3 ≤ p ∧ p < 2 ^ 18 + 2 ^ 11 * epoch := by
  have hsize : cacheInitBytes + cacheGrowthBytes * epoch - hashBytes =
      64 * (3 + 2 * (2 ^ 17 + 2 ^ 10 * epoch - 2)) := by
    unfold cacheInitBytes cacheGrowthBytes hashBytes
    omega
  obtain ⟨p, hp, hle, hge⟩ := primeRows_spec
    (64 * (3 + 2 * (2 ^ 17 + 2 ^ 10 * epoch - 2)) / 64) (show 0 < 64 by decide)
    Nat.prime_three (show 2 ^ 17 + 2 ^ 10 * epoch - 2 < _ by omega)
  refine ⟨p, ?_, hle, by omega⟩
  unfold calcCacheSize
  rw [hsize]
  exact hp

variable (tables : SizeTables)

variable {epoch : Nat}

section

variable (h : epoch < maxEpoch)

include h

theorem cacheSize_eq : cacheSize tables (epoch * epochLength) = calcCacheSize epoch := by
  have hepoch : epoch * epochLength / epochLength = epoch := Nat.mul_div_cancel _ (by decide)
  unfold cacheSize
  dsimp only
  rw [hepoch, if_pos h, tables.cacheSizes_eq _ h]

theorem datasetSize_eq : datasetSize tables (epoch * epochLength) = calcDatasetSize epoch := by
  have hepoch : epoch * epochLength / epochLength = epoch := Nat.mul_div_cancel _ (by decide)
  unfold datasetSize
  dsimp only
  rw [hepoch, if_pos h, tables.datasetSizes_eq _ h]

theorem datasetSize_spec : ∃ p, datasetSize tables (epoch * epochLength) = 128 * p ∧ 8388593 ≤ p ∧
      p < 2 ^ 23 + 2 ^ 16 * epoch ∧ (1920 < epoch → 2 ^ 27 < p) := by
  rw [datasetSize_eq tables h]
  by_cases hlarge : 1920 < epoch
  · obtain ⟨p, hp, hle, hlt⟩ := calcDatasetSize_spec epoch (q := 134217757)
      (d := (2 ^ 23 + 2 ^ 16 * epoch - 1 - 134217757) / 2) (by norm_num) (by omega)
    exact ⟨p, hp, by omega, hlt, fun _ => by omega⟩
  obtain ⟨p, hp, hle, hlt⟩ := calcDatasetSize_spec epoch (q := 8388593)
    (d := (2 ^ 23 + 2 ^ 16 * epoch - 1 - 8388593) / 2) (by norm_num) (by omega)
  exact ⟨p, hp, hle, hlt, fun h' => absurd h' hlarge⟩

theorem cacheSize_spec :
    ∃ p, cacheSize tables (epoch * epochLength) = 64 * p ∧ 0 < p ∧ p < 2 ^ 28 := by
  obtain ⟨p, hp, hle, hlt⟩ := calcCacheSize_spec epoch
  unfold maxEpoch at h
  exact ⟨p, (cacheSize_eq tables h).trans hp, by omega, by omega⟩

end

end Sizes

/-! ## Items -/

theorem uint32s_length (littleEndian : Bool) (b : Bytes) :
    (uint32s littleEndian b).length = b.length / 4 := by
  fun_induction uint32s littleEndian b with
  | case1 a b c d rest ih =>
    simp only [length_cons, ih]
    omega
  | case2 rest hrest =>
    rcases rest with _ | ⟨a, _ | ⟨b, _ | ⟨c, _ | ⟨d, rest⟩⟩⟩⟩
    · rfl
    · simp
    · simp
    · simp
    · exact absurd rfl (hrest a b c d rest)

theorem uint32s_swap (littleEndian : Bool) (b : Bytes) :
    uint32s littleEndian (if littleEndian then b else swap b) = uint32s true b := by
  cases littleEndian with
  | true => rfl
  | false =>
    fun_induction swap b with
    | case1 a b c d rest ih =>
      simp only [Bool.false_eq_true, if_false] at ih ⊢
      rw [uint32s, uint32s, ih]
      rfl
    | case2 rest hrest =>
      rcases rest with _ | ⟨a, _ | ⟨b, _ | ⟨c, _ | ⟨d, rest⟩⟩⟩⟩
      · rfl
      · rfl
      · rfl
      · rfl
      · exact absurd rfl (hrest a b c d rest)

theorem mapM_some {α β : Type} {f : α → Option β} (xs : List α) (h : ∀ x ∈ xs, ∃ y, f x = some y) :
    ∃ ys, xs.mapM f = some ys ∧ ys.length = xs.length := by
  induction xs with
  | nil => exact ⟨[], rfl, rfl⟩
  | cons x xs ih =>
    obtain ⟨y, hy⟩ := h x mem_cons_self
    obtain ⟨ys, hys, hlen⟩ := ih fun z hz => h z (mem_cons_of_mem _ hz)
    refine ⟨y :: ys, ?_, by rw [length_cons, length_cons, hlen]⟩
    rw [mapM_cons, hy, hys]
    rfl

theorem length_flatMap_putUint32 (ws : List Word32) :
    (ws.flatMap putUint32).length = 4 * ws.length := by
  induction ws with
  | nil => rfl
  | cons w ws ih =>
    rw [flatMap_cons, length_append, ih, length_cons]
    simp only [putUint32, length_cons, length_nil]
    omega

theorem fnvHash_slice {mix data : List Word32} {off : Nat} (hmix : mix.length = 16)
    (hoff : off + 16 ≤ data.length) :
    ∃ mix', (slice data off data.length).bind (fnvHash mix) = some mix' ∧ mix'.length = 16 := by
  have hlen : ((data.drop off).take (data.length - off)).length = data.length - off := by
    rw [length_take, length_drop, min_self]
  refine ⟨zipWith fnv mix ((data.drop off).take (data.length - off)), ?_, ?_⟩
  · rw [slice, if_pos ⟨by omega, le_rfl⟩, bind_some, fnvHash, if_pos (by omega)]
  rw [length_zipWith, hlen]
  omega

theorem keccak512_words (keccak : Keccak) (data : Bytes) :
    (uint32s true (keccak.keccak512 data)).length = 16 := by
  rw [uint32s_length, keccak.keccak512_length]
  rfl

theorem mixParent_eq {index rows : Word32} {intMix : List Word32} {i : Nat} :
    mixParent cache index rows intMix i = (intMix[i % 16]?).bind fun x =>
      (slice cache (fnv (index ^^^ BitVec.ofNat 32 i) x % rows * 16).toNat cache.length).bind
        (fnvHash intMix) := rfl

section Items

variable (keccak : Keccak) {cache : List Word32} {rows : Nat} (hlen : cache.length = 16 * rows)
  (h0 : 0 < rows) (hlt : rows < 2 ^ 28)
include hlen h0 hlt

theorem row_lt (x : Word32) : (x % BitVec.ofNat 32 rows * 16).toNat + 16 ≤ cache.length := by
  have hrows : (BitVec.ofNat 32 rows).toNat = rows := by
    rw [BitVec.toNat_ofNat]
    omega
  have hmod := Nat.mod_lt x.toNat h0
  have h16 : (16 : Word32).toNat = 16 := rfl
  rw [BitVec.toNat_mul, BitVec.toNat_umod, hrows, hlen, h16]
  omega

theorem mixParent_some (index : Word32) {intMix : List Word32}
    (hmix : intMix.length = 16) (i : Nat) :
    ∃ mix', mixParent cache index (BitVec.ofNat 32 rows) intMix i = some mix' ∧
      mix'.length = 16 := by
  have hi : i % 16 < intMix.length := by omega
  have hrow := row_lt hlen h0 hlt (fnv (index ^^^ BitVec.ofNat 32 i) intMix[i % 16])
  obtain ⟨mix', hfnv, hlen'⟩ := fnvHash_slice hmix hrow
  refine ⟨mix', ?_, hlen'⟩
  rw [mixParent_eq, getElem?_eq_getElem hi, bind_some]
  exact hfnv

theorem generateDatasetItem_some (index : Word32) : ∃ data, data.length = 64 ∧
      generateDatasetItem keccak cache index = some (keccak.keccak512 data) := by
  have hrows : cache.length / hashWords = rows := by
    rw [hlen]
    exact Nat.mul_div_cancel_left _ (by decide)
  have hne : BitVec.ofNat 32 rows ≠ 0 := by
    intro h
    have hzero := congrArg BitVec.toNat h
    rw [BitVec.toNat_ofNat, show (0 : Word32).toNat = 0 from rfl] at hzero
    omega
  obtain ⟨words, hwords, hwlen⟩ := mapM_some (range hashWords) (f := fun i =>
    cache[(index % BitVec.ofNat 32 rows * 16 + BitVec.ofNat 32 i).toNat]?) (by
      intro i hi
      have hi : i < 16 := mem_range.1 hi
      have hrow := row_lt hlen h0 hlt index
      refine ⟨_, getElem?_eq_getElem ?_⟩
      rw [BitVec.toNat_add, BitVec.toNat_ofNat]
      omega)
  obtain ⟨intMix, hfold, hilen⟩ := Lib.foldlM_keeps (mixParent cache index (BitVec.ofNat 32 rows))
    (fun mix i h => mixParent_some hlen h0 hlt index h i) (range datasetParents)
    (keccak512_words keccak ((words.modify 0 (· ^^^ index)).flatMap putUint32))
  refine ⟨intMix.flatMap putUint32, by rw [length_flatMap_putUint32, hilen], ?_⟩
  unfold generateDatasetItem
  rw [hrows]
  simp only [if_neg hne, bind_eq_bind]
  rw [hwords]
  simp only [bind_some]
  rw [hfold]
  rfl

end Items

/-! ## The dataset -/

theorem length_copyAt {α : Type} (dst src : List α) (off : Nat) :
    (copyAt dst off src).length = dst.length := length_mapIdx

def itemWords (keccak : Keccak) (cache : List Word32) (index : Word32) : List Word32 :=
  ((generateDatasetItem keccak cache index).map (uint32s true)).getD []

def HasItem (keccak : Keccak) (cache dest : List Word32) (i : Nat) : Prop :=
  ∀ k, k < 16 → dest[16 * i + k]? = (itemWords keccak cache (BitVec.ofNat 32 i))[k]?

section Dataset

variable {keccak : Keccak} {le : Bool} {cache : List Word32} {threads size len : Nat}

structure Progress (keccak : Keccak) (cache : List Word32) (threads size len : Nat)
    (s : Generation) : Prop where
  length : s.dest.length = len
  rows : ∀ id, id < threads → ∀ i, segmentFirst threads size id ≤ i → i < s.next id →
    HasItem keccak cache s.dest i

def ServesItems (keccak : Keccak) (cache : List Word32) : Prop :=
  ∀ index, ∃ item, generateDatasetItem keccak cache index = some item ∧ item.length = 64

section

variable (h : ServesItems keccak cache)

include h

theorem ServesItems.lookup (index : Word32) :
    (generateDatasetItem keccak cache index).map (uint32s true) =
      some (itemWords keccak cache index) ∧ (itemWords keccak cache index).length = 16 := by
  obtain ⟨item, hitem, hlen⟩ := h index
  unfold itemWords
  rw [hitem]
  refine ⟨rfl, ?_⟩
  rw [map_some, getD_some, uint32s_length, hlen]

theorem generateStep_eq (hpercent : size / hashBytes / 100 ≠ 0)
    {s : Generation} {id : Nat} (hid : id < threads ∧ s.next id < segmentLimit threads size id) :
    generateStep keccak le cache threads size s id = some ⟨copyAt s.dest (s.next id * hashWords)
        (itemWords keccak cache (BitVec.ofNat 32 (s.next id))),
        Function.update s.next id (s.next id + 1)⟩ := by
  obtain ⟨item, hitem, -⟩ := h (.ofNat 32 (s.next id))
  unfold generateStep itemWords
  rw [if_pos hid, hitem]
  simp only [bind_eq_bind, bind_some, if_neg hpercent]
  rw [uint32s_swap]
  rfl

theorem hasItem_copyAt {dest : List Word32} {i j : Nat}
    (hj : 16 * j + 16 ≤ dest.length) (hi : i = j ∨ HasItem keccak cache dest i) :
    HasItem keccak cache
      (copyAt dest (j * hashWords) (itemWords keccak cache (BitVec.ofNat 32 j))) i := by
  have hlen := (h.lookup (.ofNat 32 j)).2
  unfold hashWords
  intro k hk
  rw [copyAt, getElem?_mapIdx]
  by_cases hij : i = j
  · subst hij
    have hpos : 16 * i + k < dest.length := by omega
    rw [getElem?_eq_getElem hpos, map_some, if_pos (by omega),
      show 16 * i + k - i * 16 = k by omega,
      getElem?_eq_getElem (show k < (itemWords keccak cache (BitVec.ofNat 32 i)).length by omega),
      getD_some]
  rw [← hi.resolve_left hij k hk]
  cases dest[16 * i + k]? with
  | none => rfl
  | some x =>
    rw [map_some]
    split
    · rw [getElem?_eq_none (by omega)]
      rfl
    · rfl

end

variable (h : ServesItems keccak cache) (hpercent : size / hashBytes / 100 ≠ 0)
  (hsize : size = len * 4)
include h hpercent hsize

theorem generate_step (le : Bool) (id : Nat) {s : Generation}
    (hs : Progress keccak cache threads size len s) :
    ∃ t, generateStep keccak le cache threads size s id = some t ∧
      Progress keccak cache threads size len t ∧ ∀ id', id' < threads →
        min (segmentLimit threads size id') (s.next id' + [id].count id') ≤ t.next id' := by
  by_cases hid : id < threads ∧ s.next id < segmentLimit threads size id
  · have hlimit : segmentLimit threads size id ≤ size / hashBytes := min_le_right _ _
    have hrow : 16 * s.next id + 16 ≤ s.dest.length := by
      rw [hs.length]
      unfold hashBytes at hlimit
      omega
    refine ⟨_, generateStep_eq h hpercent hid, ⟨(length_copyAt _ _ _).trans hs.length, ?_⟩, ?_⟩
    · intro id' hid' i hfirst hlt
      refine hasItem_copyAt h hrow ?_
      by_cases heq : id' = id
      · subst heq
        simp only [Function.update_self] at hlt
        by_cases hi : i = s.next id'
        · exact .inl hi
        · exact .inr (hs.rows id' hid' i hfirst (by omega))
      simp only [Function.update_of_ne heq] at hlt
      exact .inr (hs.rows id' hid' i hfirst hlt)
    intro id' hid'
    by_cases heq : id' = id
    · subst heq
      simp
    · simp [Function.update_of_ne heq, Ne.symm heq]
  refine ⟨s, if_neg hid, hs, fun id' hid' => ?_⟩
  by_cases heq : id' = id
  · subst heq
    exact (min_le_left _ _).trans (not_lt.1 fun hlt => hid ⟨hid', hlt⟩)
  · simp [Ne.symm heq]

theorem generate_run (le : Bool) (schedule : List Nat) {s : Generation}
    (hs : Progress keccak cache threads size len s) :
    ∃ t, schedule.foldlM (generateStep keccak le cache threads size) s = some t ∧
      Progress keccak cache threads size len t ∧ ∀ id, id < threads →
        min (segmentLimit threads size id) (s.next id + schedule.count id) ≤ t.next id := by
  induction schedule generalizing s with
  | nil => exact ⟨s, rfl, hs, fun id _ => min_le_right _ _⟩
  | cons id schedule ih =>
    obtain ⟨u, hu, hprog, hnext⟩ := generate_step h hpercent hsize le id hs
    obtain ⟨t, ht, hprog', hnext'⟩ := ih hprog
    refine ⟨t, ?_, hprog', fun id' hid' => ?_⟩
    · rw [foldlM_cons, hu]
      exact ht
    have hstep := hnext id' hid'
    have hrest := hnext' id' hid'
    rw [show id :: schedule = [id] ++ schedule from rfl, count_append]
    omega

omit h hpercent hsize in
theorem exists_segment (hthreads : 0 < threads) {i : Nat} (hi : i < size / hashBytes) :
    ∃ id, id < threads ∧ segmentFirst threads size id ≤ i ∧ i < segmentLimit threads size id := by
  have hm : 0 < hashBytes * threads := Nat.mul_pos (by decide) hthreads
  have hceil : size ≤ hashBytes * (threads * batch threads size) := by
    have hlt := Nat.lt_mul_div_succ (size + hashBytes * threads - 1) hm
    rw [mul_add, mul_one] at hlt
    rw [← mul_assoc]
    unfold batch
    omega
  have hcover : i < threads * batch threads size := by
    unfold hashBytes at hi hceil
    omega
  have hbatch : 0 < batch threads size := Nat.pos_of_ne_zero fun h0 => by simp [h0] at hcover
  have hdiv := i.div_add_mod (batch threads size)
  have hmod := i.mod_lt hbatch
  rw [mul_comm] at hdiv
  refine ⟨i / batch threads size, Nat.div_lt_of_lt_mul (by rwa [Nat.mul_comm]), ?_, lt_min ?_ hi⟩
  · unfold segmentFirst
    omega
  · unfold segmentFirst
    omega

omit hsize in
/-- **The threads generate the dataset**, whatever their number and their interleaving. -/
theorem generateDataset_spec (hthreads : 0 < threads) {dest : List Word32}
    (hsize : size = dest.length * 4) {schedule : List Nat}
    (hschedule : ∀ id, id < threads → batch threads size ≤ schedule.count id) :
    ∃ dataset, generateDataset keccak le cache threads dest schedule = some dataset ∧
      dataset.length = dest.length ∧ ∀ i, i < size / hashBytes →
        HasItem keccak cache dataset i := by
  obtain ⟨t, ht, hprog, hnext⟩ := generate_run h hpercent hsize le schedule
    (s := ⟨dest, segmentFirst threads size⟩)
    ⟨rfl, fun id _ i hfirst hlt => absurd hlt (not_lt.2 hfirst)⟩
  refine ⟨t.dest, ?_, hprog.length, fun i hi => ?_⟩
  · unfold generateDataset
    rw [← hsize, ht]
    rfl
  obtain ⟨id, hid, hfirst, hlimit⟩ := exists_segment hthreads hi
  refine hprog.rows id hid i hfirst (hlimit.trans_le (le_trans ?_ (hnext id hid)))
  have hcount := hschedule id hid
  have hbatch : segmentLimit threads size id ≤
      segmentFirst threads size id + batch threads size := min_le_left _ _
  exact le_min le_rfl (by dsimp only; omega)

end Dataset

/-! ## The accesses -/

theorem access_eq {rows seedHead : Word32} {lookup : Word32 → Option (List Word32)}
    {s : List Word32 × List Word32} {i : Nat} :
    access rows seedHead lookup s i = (s.1[i % s.1.length]?).bind fun x =>
      (lookup (2 * (fnv (BitVec.ofNat 32 i ^^^ seedHead) x % rows))).bind fun a =>
      (lookup (2 * (fnv (BitVec.ofNat 32 i ^^^ seedHead) x % rows) + 1)).bind fun b =>
      (fnvHash s.1 (copyAt (copyAt s.2 0 a) hashWords b)).bind fun mix =>
        some (mix, copyAt (copyAt s.2 0 a) hashWords b) := rfl

section Hashimoto

variable {keccak : Keccak} {hash : Bytes} {nonce : BitVec 64} {p : Nat} (h0 : 0 < p)
  (hlt : p < 2 ^ 31)
include h0 hlt

theorem parent_lt (x : Word32) : (2 * (x % BitVec.ofNat 32 p)).toNat = 2 * (x.toNat % p) ∧
      (2 * (x % BitVec.ofNat 32 p) + 1).toNat = 2 * (x.toNat % p) + 1 ∧ x.toNat % p < p := by
  have hp : (BitVec.ofNat 32 p).toNat = p := by
    rw [BitVec.toNat_ofNat]
    omega
  have hmod := Nat.mod_lt x.toNat h0
  have h2 : (2 : Word32).toNat = 2 := rfl
  have h1 : (1 : Word32).toNat = 1 := rfl
  rw [BitVec.toNat_add, BitVec.toNat_mul, BitVec.toNat_umod, hp, h2, h1]
  omega

theorem rows_ne_zero : BitVec.ofNat 32 (128 * p / mixBytes) ≠ 0 ∧ 128 * p / mixBytes = p := by
  have hrows : 128 * p / mixBytes = p := Nat.mul_div_cancel_left p (by decide)
  rw [hrows]
  refine ⟨fun h => ?_, rfl⟩
  have hzero := congrArg BitVec.toNat h
  rw [BitVec.toNat_ofNat, show (0 : Word32).toNat = 0 from rfl] at hzero
  omega

variable {lookup : Word32 → Option (List Word32)}

theorem hashimoto_congr {lookup' : Word32 → Option (List Word32)}
    (h : ∀ index : Word32, index.toNat < 2 * p → lookup index = lookup' index) :
    hashimoto keccak hash nonce (128 * p) lookup =
      hashimoto keccak hash nonce (128 * p) lookup' := by
  have haccess : ∀ seedHead, access (.ofNat 32 p) seedHead lookup =
      access (.ofNat 32 p) seedHead lookup' := by
    intro seedHead
    funext s i
    rw [access_eq, access_eq]
    congr 1
    funext x
    obtain ⟨heven, hodd, hmod⟩ := parent_lt h0 hlt (fnv (.ofNat 32 i ^^^ seedHead) x)
    rw [h _ (by omega), h _ (by omega)]
  unfold hashimoto
  simp only [(rows_ne_zero h0 hlt).2, haccess]

theorem access_some (h : ∀ index : Word32, index.toNat < 2 * p → ∃ ws, lookup index = some ws)
    (seedHead : Word32) {s : List Word32 × List Word32} (hs : s.1.length = 32 ∧ s.2.length = 32)
    (i : Nat) :
    ∃ t, access (BitVec.ofNat 32 p) seedHead lookup s i = some t ∧
      t.1.length = 32 ∧ t.2.length = 32 := by
  have hi : i % s.1.length < s.1.length := Nat.mod_lt _ (by omega)
  obtain ⟨heven, hodd, hmod⟩ :=
    parent_lt h0 hlt (fnv (.ofNat 32 i ^^^ seedHead) s.1[i % s.1.length])
  obtain ⟨a, ha⟩ := h _ (show _ < 2 * p by rw [heven]; omega)
  obtain ⟨b, hb⟩ := h _ (show _ < 2 * p by rw [hodd]; omega)
  have htemp : (copyAt (copyAt s.2 0 a) hashWords b).length = 32 := by
    rw [length_copyAt, length_copyAt, hs.2]
  refine ⟨(zipWith fnv s.1 (copyAt (copyAt s.2 0 a) hashWords b),
    copyAt (copyAt s.2 0 a) hashWords b), ?_, ?_, htemp⟩
  · rw [access_eq, getElem?_eq_getElem hi, bind_some, ha, bind_some, hb,
      bind_some, fnvHash, if_pos (by omega), bind_some]
  · rw [length_zipWith, htemp, hs.1, min_self]

theorem hashimoto_some (h : ∀ index : Word32, index.toNat < 2 * p → ∃ ws, lookup index = some ws) :
    ∃ r, hashimoto keccak hash nonce (128 * p) lookup = some r := by
  obtain ⟨hne, hrows⟩ := rows_ne_zero h0 hlt
  rw [hrows] at hne
  have hseed := keccak512_words keccak (copyAt (replicate 32 0) 0 hash ++ putUint64 nonce)
  unfold hashimoto
  rw [hrows]
  simp only [if_neg hne, bind_eq_bind]
  generalize keccak.keccak512 (copyAt (replicate 32 0) 0 hash ++ putUint64 nonce) = seed at hseed ⊢
  obtain ⟨s, hs, -⟩ := Lib.foldlM_keeps (access (.ofNat 32 p) ((uint32s true seed).headD 0) lookup)
    (fun s i hs => access_some h0 hlt h _ hs i) (range loopAccesses)
    (s := (uint32s true seed ++ uint32s true seed, replicate (mixBytes / 4) 0))
    ⟨by rw [length_append, hseed], rfl⟩
  rw [hs]
  exact ⟨_, rfl⟩

end Hashimoto

/-! ## The same proof of work -/

section Lookup

variable {keccak : Keccak} {cache dataset : List Word32} {n : Nat}

theorem slice_item (h : ServesItems keccak cache) (hn : 16 * n ≤ dataset.length)
    (hitems : ∀ i, i < n → HasItem keccak cache dataset i) {index : Word32}
    (hindex : index.toNat < n) (hfits : index.toNat * 16 + 16 < 2 ^ 32) :
    slice dataset (index * 16).toNat (index * 16 + 16).toNat =
      some (itemWords keccak cache index) := by
  have hlen := (h.lookup index).2
  have h16 : (16 : Word32).toNat = 16 := rfl
  have hlo : (index * 16).toNat = 16 * index.toNat := by
    rw [BitVec.toNat_mul, h16]
    omega
  have hhi : (index * 16 + 16).toNat = 16 * index.toNat + 16 := by
    rw [BitVec.toNat_add, hlo, h16]
    omega
  rw [slice, hlo, hhi, if_pos (by omega), Nat.add_sub_cancel_left]
  refine congrArg some (ext_getElem? fun k => ?_)
  rw [getElem?_take]
  split
  · rename_i hk
    have hitem := hitems _ hindex k hk
    rw [BitVec.ofNat_toNat, BitVec.setWidth_eq] at hitem
    rw [getElem?_drop, hitem]
  · exact (getElem?_eq_none (by omega)).symm

end Lookup

/-- Miner and verifier agree on every proof of work of an epoch, and neither panics: `schedule`
gives each thread of the miner the rounds that it needs. -/
def Agrees (tables : SizeTables) (epoch : Nat) : Prop :=
  ∀ (keccak : Keccak) (isLittleEndian : Bool) (cache dest : List Word32) (threads : Nat)
    (schedule : List Nat) (hash : Bytes) (nonce : BitVec 64),
    cache.length * 4 = cacheSize tables (epoch * epochLength) →
    dest.length * 4 = datasetSize tables (epoch * epochLength) → 0 < threads →
    (∀ id, id < threads → batch threads (dest.length * 4) ≤ schedule.count id) →
    ∃ dataset r, generateDataset keccak isLittleEndian cache threads dest schedule = some dataset ∧
      hashimotoFull keccak dataset hash nonce = some r ∧
      hashimotoLight keccak (datasetSize tables (epoch * epochLength)) cache hash nonce = some r

section Epochs

variable {tables : SizeTables} {epoch : Nat} (hepoch : epoch < maxEpoch) (keccak : Keccak)
  {cache : List Word32} (hcache : cache.length * 4 = cacheSize tables (epoch * epochLength))
include hepoch hcache

theorem exists_item (index : Word32) : ∃ data, data.length = 64 ∧
    generateDatasetItem keccak cache index = some (keccak.keccak512 data) := by
  obtain ⟨q, hq, hq0, hqlt⟩ := cacheSize_spec tables hepoch
  exact generateDatasetItem_some keccak (by omega) hq0 hqlt index

theorem servesItems : ServesItems keccak cache := by
  intro index
  obtain ⟨data, -, hitem⟩ := exists_item hepoch keccak hcache index
  exact ⟨_, hitem, keccak.keccak512_length _⟩

theorem hashimotoLight_some (hash : Bytes) (nonce : BitVec 64) :
    ∃ r, hashimotoLight keccak (datasetSize tables (epoch * epochLength)) cache hash nonce =
      some r := by
  obtain ⟨p, hp, hple, hplt, -⟩ := datasetSize_spec tables hepoch
  unfold maxEpoch at hepoch
  rw [hp]
  exact hashimoto_some (by omega) (by omega) fun index _ =>
    ⟨_, ((servesItems hepoch keccak hcache).lookup index).1⟩

variable {dest : List Word32} (hdest : dest.length * 4 = datasetSize tables (epoch * epochLength))
include hdest

theorem exists_dataset (le : Bool) {threads : Nat} (hthreads : 0 < threads) {schedule : List Nat}
    (hschedule : ∀ id, id < threads → batch threads (dest.length * 4) ≤ schedule.count id) :
    ∃ dataset, generateDataset keccak le cache threads dest schedule = some dataset ∧
      dataset.length = dest.length ∧ ∀ i, 64 * i < dest.length * 4 →
        HasItem keccak cache dataset i := by
  obtain ⟨p, hp, hple, -⟩ := datasetSize_spec tables hepoch
  obtain ⟨dataset, hgen, hlen, hitems⟩ := generateDataset_spec (servesItems hepoch keccak hcache)
    (by unfold hashBytes; omega) hthreads rfl hschedule
  refine ⟨dataset, hgen, hlen, fun i hi => hitems i ?_⟩
  unfold hashBytes
  omega

theorem hashimotoFull_eq (hsmall : epoch ≤ 1920) {dataset : List Word32}
    (hlen : dataset.length = dest.length)
    (hitems : ∀ i, 64 * i < dest.length * 4 → HasItem keccak cache dataset i) (hash : Bytes)
    (nonce : BitVec 64) :
    hashimotoFull keccak dataset hash nonce =
      hashimotoLight keccak (datasetSize tables (epoch * epochLength)) cache hash nonce := by
  obtain ⟨p, hp, hple, hplt, -⟩ := datasetSize_spec tables hepoch
  have hserves := servesItems hepoch keccak hcache
  unfold hashimotoFull hashimotoLight
  rw [hlen, hdest, hp]
  refine hashimoto_congr (by omega) (by omega) fun index hindex => ?_
  rw [(hserves.lookup index).1]
  exact slice_item hserves (by omega) (fun i hi => hitems i (by omega)) hindex (by omega)

end Epochs

/-! ## Large datasets -/

/-- Hash functions that lead `hashimoto` to the item `2 ^ 28 - 1`, with a dataset of zeros. -/
def steeringKeccak : Keccak where
  keccak512 data :=
    if data.length = 40 then putUint32 1 ++ putUint32 0xa263bb65 ++ replicate 56 0
    else replicate 64 0
  keccak512_length data := by split <;> rfl
  keccak256 data := data.take 32

def steeringSeed : List Word32 := 1 :: 0xa263bb65 :: replicate 14 0

theorem steeringKeccak_seed {data : Bytes} (h : data.length = 40) :
    uint32s true (steeringKeccak.keccak512 data) = steeringSeed := by
  have hseed : steeringKeccak.keccak512 data =
      putUint32 1 ++ putUint32 0xa263bb65 ++ replicate 56 0 := if_pos h
  rw [hseed]
  decide

theorem steeringKeccak_item {data : Bytes} (h : data.length = 64) :
    uint32s true (steeringKeccak.keccak512 data) = replicate 16 0 := by
  have hitem : steeringKeccak.keccak512 data = replicate 64 0 := if_neg (by omega)
  rw [hitem]
  decide

section Large

variable {p : Nat} (hlt : p < 2 ^ 31) (hlarge : 2 ^ 27 < p)
  {lookup : Word32 → Option (List Word32)}
  (hzero : ∀ index : Word32, index.toNat < 2 ^ 28 - 1 → lookup index = some (replicate 16 0))
include hlt hlarge hzero

theorem access_steering_zero :
    access (BitVec.ofNat 32 p) 1 lookup (steeringSeed ++ steeringSeed, replicate 32 0) 0 =
      some (zipWith fnv (steeringSeed ++ steeringSeed) (replicate 32 0), replicate 32 0) := by
  obtain ⟨heven, hodd, -⟩ := parent_lt (show 0 < p by omega) hlt (fnv (.ofNat 32 0 ^^^ 1) 1)
  have hparent : (fnv (.ofNat 32 0 ^^^ 1) 1).toNat % p = 0x1000192 :=
    Nat.mod_eq_of_lt (show 0x1000192 < p by omega)
  have hword : (steeringSeed ++ steeringSeed)[0 % (steeringSeed ++ steeringSeed).length]? =
    some 1 := rfl
  have htemp : copyAt (copyAt (replicate 32 0) 0 (replicate 16 0)) hashWords
    (replicate 16 0) = (replicate 32 0 : List Word32) := by decide
  rw [access_eq, hword, bind_some, hzero _ (by omega), bind_some, hzero _ (by omega),
    bind_some, htemp, fnvHash, if_pos (by decide), bind_some]

variable (hnone : ∀ index : Word32, index.toNat = 2 ^ 28 - 1 → lookup index = none)
include hnone

theorem access_steering_one :
    access (BitVec.ofNat 32 p) 1 lookup (zipWith fnv (steeringSeed ++ steeringSeed)
      (replicate 32 0), replicate 32 0) 1 = none := by
  obtain ⟨heven, hodd, -⟩ :=
    parent_lt (show 0 < p by omega) hlt (fnv (.ofNat 32 1 ^^^ 1) 0x7ffffff)
  have hparent : (fnv (.ofNat 32 1 ^^^ 1) 0x7ffffff).toNat % p = 0x7ffffff :=
    Nat.mod_eq_of_lt (show 0x7ffffff < p by omega)
  have hword : (zipWith fnv (steeringSeed ++ steeringSeed) (replicate 32 0))[1 %
    (zipWith fnv (steeringSeed ++ steeringSeed) (replicate 32 0)).length]? =
    some 0x7ffffff := by decide
  rw [access_eq, hword, bind_some, hzero _ (by omega), bind_some, hnone _ (by omega)]
  rfl

theorem hashimoto_steering (hash : Bytes) (nonce : BitVec 64) :
    hashimoto steeringKeccak hash nonce (128 * p) lookup = none := by
  obtain ⟨hne, hrows⟩ := rows_ne_zero (show 0 < p by omega) hlt
  rw [hrows] at hne
  have hseed := steeringKeccak_seed
    (show (copyAt (replicate 32 0) 0 hash ++ putUint64 nonce).length = 40 by
      rw [length_append, length_copyAt]
      rfl)
  unfold hashimoto
  rw [hrows]
  simp only [if_neg hne, bind_eq_bind]
  rw [hseed, show range loopAccesses = 0 :: 1 :: range' 2 62 by decide, foldlM_cons]
  have hzero' := access_steering_zero hlt hlarge hzero
  have hone := access_steering_one hlt hlarge hzero hnone
  rw [show steeringSeed.headD 0 = 1 from rfl, show mixBytes / 4 = 32 from rfl, hzero']
  rw [bind_eq_bind, bind_some, foldlM_cons, hone]
  rfl

end Large

/-- One thread of the miner generates a dataset on which its proof of work panics, where the
verifier computes one. -/
def MinerPanics (tables : SizeTables) (epoch : Nat) (hash : Bytes) (nonce : BitVec 64) : Prop :=
  ∃ (cache dest dataset : List Word32) (schedule : List Nat) (r : Bytes × Bytes),
    cache.length * 4 = cacheSize tables (epoch * epochLength) ∧
    dest.length * 4 = datasetSize tables (epoch * epochLength) ∧
    (∀ id, id < 1 → batch 1 (dest.length * 4) ≤ schedule.count id) ∧
    generateDataset steeringKeccak true cache 1 dest schedule = some dataset ∧
    hashimotoFull steeringKeccak dataset hash nonce = none ∧
    hashimotoLight steeringKeccak (datasetSize tables (epoch * epochLength)) cache hash nonce =
      some r

/-- **From epoch 1921 on a miner can panic.** -/
theorem minerPanics_of_large (tables : SizeTables) {epoch : Nat} (hepoch : epoch < maxEpoch)
    (hlarge : 1920 < epoch) (hash : Bytes) (nonce : BitVec 64) :
    MinerPanics tables epoch hash nonce := by
  obtain ⟨p, hp, hple, hplt, hpge⟩ := datasetSize_spec tables hepoch
  obtain ⟨q, hq, -⟩ := cacheSize_spec tables hepoch
  have hcache : (replicate (16 * q) (0 : Word32)).length * 4 =
      cacheSize tables (epoch * epochLength) := by
    rw [length_replicate]
    omega
  have hdest : (replicate (32 * p) (0 : Word32)).length * 4 =
      datasetSize tables (epoch * epochLength) := by
    rw [length_replicate]
    omega
  have hserves := servesItems hepoch steeringKeccak hcache
  have hschedule : ∀ id, id < 1 → batch 1 ((replicate (32 * p) (0 : Word32)).length * 4) ≤
      (replicate (batch 1 ((replicate (32 * p) (0 : Word32)).length * 4)) 0).count id := by
    intro id hid
    rw [Nat.lt_one_iff.1 hid, count_replicate_self]
  obtain ⟨dataset, hgen, hlen, hitems⟩ :=
    exists_dataset hepoch steeringKeccak hcache hdest true one_pos hschedule
  obtain ⟨r, hr⟩ := hashimotoLight_some hepoch steeringKeccak hcache hash nonce
  refine ⟨_, _, dataset, _, r, hcache, hdest, hschedule, hgen, ?_, hr⟩
  have hp27 := hpge hlarge
  unfold maxEpoch at hepoch
  rw [length_replicate] at hlen hitems
  unfold hashimotoFull
  rw [hlen, show 32 * p * 4 = 128 * p by omega]
  refine hashimoto_steering (by omega) hp27 ?_ ?_ hash nonce
  · intro index hindex
    dsimp only
    rw [slice_item hserves (n := 2 * p) (by omega) (fun i hi => hitems i (by omega)) (by omega)
      (by omega)]
    obtain ⟨data, hdata, hitem⟩ := exists_item hepoch steeringKeccak hcache index
    unfold itemWords
    rw [hitem, map_some, getD_some, steeringKeccak_item hdata]
  intro index hindex
  dsimp only
  have hbv : index = 0xfffffff := BitVec.eq_of_toNat_eq hindex
  rw [hbv]
  exact if_neg fun hle => absurd hle.1 (by decide)

/-- **Miner and verifier compute the same proof of work** in the epochs up to 1920, and only there.
-/
theorem agrees_iff (tables : SizeTables) {epoch : Nat} (hepoch : epoch < maxEpoch) :
    Agrees tables epoch ↔ epoch ≤ 1920 := by
  constructor
  · intro h
    by_contra hlarge
    obtain ⟨cache, dest, dataset, schedule, r, hcache, hdest, hschedule, hgen, hfull, -⟩ :=
      minerPanics_of_large tables hepoch (not_le.1 hlarge) [] 0
    obtain ⟨dataset', r', hgen', hfull', -⟩ :=
      h steeringKeccak true cache dest 1 schedule [] 0 hcache hdest one_pos hschedule
    cases hgen.symm.trans hgen'
    cases hfull.symm.trans hfull'
  intro hsmall keccak le cache dest threads schedule hash nonce hcache hdest hthreads hschedule
  obtain ⟨dataset, hgen, hlen, hitems⟩ :=
    exists_dataset hepoch keccak hcache hdest le hthreads hschedule
  obtain ⟨r, hr⟩ := hashimotoLight_some hepoch keccak hcache hash nonce
  exact ⟨dataset, r, hgen,
    (hashimotoFull_eq hepoch keccak hcache hdest hsmall hlen hitems hash nonce).trans hr, hr⟩

def calculatedTables : SizeTables :=
  ⟨calcDatasetSize, calcCacheSize, fun _ _ => rfl, fun _ _ => rfl⟩

theorem agrees_first_epoch : Agrees calculatedTables 0 :=
  (agrees_iff calculatedTables (by decide)).2 (by decide)

theorem miner_panics_last_epoch : MinerPanics calculatedTables 2047 [] 0 :=
  minerPanics_of_large calculatedTables (by decide) (by decide) [] 0

end Virbicoin.Ethash
