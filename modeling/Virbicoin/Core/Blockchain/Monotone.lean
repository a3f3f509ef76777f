import Virbicoin.Core.Blockchain.Insert
import Virbicoin.Core.Blockchain.Store
import Virbicoin.Lib.Climb
import Mathlib.Data.List.Chain

/-!
# Fork choice

The heads that a call of `InsertChain` sets are recorded with their total difficulties. A new block
becomes the head only if it is not lighter than the head before it, and so do known blocks at the
start of a batch. A known block in the middle of a batch becomes the head whatever it weighs. So the
record climbs but for known blocks in the middle (`Climbing`), at every point of the recursion
through side chains.
-/

namespace Virbicoin.Core.Chain

open Lib List

namespace BlockChain

variable {hash : Header → Hash} {U : Set ChainBlock} {genesis b p : ChainBlock} {bc : BlockChain}

/-- The blocks that come up. None is at the last height, and difficulties are not negative, which
cannot be encoded. -/
structure Universe (hash : Header → Hash) (U : Set ChainBlock) : Prop where
  inj : Set.InjOn (ChainBlock.hash hash) U
  number : ∀ x ∈ U, x.numberU64 ≠ 2 ^ 64 - 1
  difficulty : ∀ x ∈ U, 0 ≤ x.difficulty

/-! ## Total difficulties -/

theorem Has.getTd (hb : bc.Has hash b) (hs : Stored hash U genesis bc) :
    bc.getTd (b.hash hash) b.numberU64 = some (bc.td hash b) := by
  obtain ⟨w, hw, -⟩ := hs.exists_total hb
  rw [td, BlockChain.getTd, hw]
  rfl

theorem td_eq {w : Int} (h : bc.getTd (b.hash hash) b.numberU64 = some w) : bc.td hash b = w := by
  rw [td, h]
  rfl

theorem Universe.numberU64_sub (hU : Universe hash U) (hs : Stored hash U genesis bc)
    {w : Int} (hp : bc.getTd b.parentHash (subUint64 b.numberU64 1) = some w) :
    b.numberU64 = subUint64 b.numberU64 1 + 1 := by
  obtain ⟨p, hp⟩ := Option.isSome_iff_exists.1 (hs.total.1 hp).1
  obtain ⟨hpU, -, hnum⟩ := hs.keyed hp
  have hne := hU.number p hpU
  have hlt := b.numberU64_lt
  unfold subUint64 at hnum ⊢
  omega

theorem Has.td_eq_add (hb : bc.Has hash b) (hU : Universe hash U) (hs : Stored hash U genesis bc)
    {w : Int} (hp : bc.getTd b.parentHash (subUint64 b.numberU64 1) = some w) :
    bc.td hash b = w + b.difficulty := by
  have hnum := hU.numberU64_sub hs hp
  exact td_eq (hs.total_step hb hp (by omega))

theorem Follows.getTd (hU : Universe hash U) (hs : Stored hash U genesis bc) (hp : bc.Has hash p)
    (h : Follows hash p b) :
    bc.getTd b.parentHash (subUint64 b.numberU64 1) = some (bc.td hash p) := by
  have hne := hU.number p (hp.mem hs)
  have hlt := p.numberU64_lt
  obtain ⟨hnum, hparent⟩ := h
  have hsub : subUint64 b.numberU64 1 = p.numberU64 := by
    unfold subUint64
    omega
  rw [hparent, hsub]
  exact hp.getTd hs

/-! ## The record of heads -/

/-- The chain is sound, the record ends at the current block, and it climbs but for known blocks in
the middle of a batch. -/
structure Climbing (env : Env) (U : Set ChainBlock) (genesis : ChainBlock) (start : Int)
    (st : Insertion) : Prop where
  sound : Sound env.hash U genesis st.chain
  last_eq : st.chain.td env.hash st.chain.currentBlock = last Move.td start st.moves
  climbs : Climbs Move.td (fun m => m.middle = true) start st.moves

variable {env : Env} {path : List Nat} {start : Int} {st st' : Insertion}

section

variable (h : Climbing env U genesis start st)

include h

theorem Climbing.moved
    (hs : Sound env.hash U genesis bc) (hcur : bc.currentBlock = b) {middle : Bool}
    (hle : middle = false → st.chain.td env.hash st.chain.currentBlock ≤ bc.td env.hash b) :
    Climbing env U genesis start (st.moved env.hash bc b middle) := by
  refine ⟨hs, ?_, h.climbs.append_singleton fun hfree => ?_⟩
  · rw [Insertion.moved, last_append_singleton]
    simp only
    rw [hcur]
  rw [← h.last_eq]
  exact hle (Bool.eq_false_iff.2 hfree)

theorem Climbing.setChain
    (hs : Sound env.hash U genesis bc) (hcur : bc.currentBlock = st.chain.currentBlock)
    (htd : bc.td env.hash st.chain.currentBlock = st.chain.td env.hash st.chain.currentBlock) :
    Climbing env U genesis start (st.setChain bc) := by
  refine ⟨hs, ?_, h.climbs⟩
  rw [Insertion.setChain]
  simp only
  rw [hcur, htd, h.last_eq]

theorem Climbing.setFuture (future : Hash → Bool) :
    Climbing env U genesis start (st.setChain { st.chain with futureBlocks := future }) :=
  ⟨⟨h.sound.stored, h.sound.current⟩, h.last_eq, h.climbs⟩

end

theorem td_of_keeps {bc' : BlockChain} (hs : Stored hash U genesis bc)
    (hs' : Stored hash U genesis bc') (hkeep : ∀ {n h x}, bc.blocks n h = some x →
      bc'.blocks n h = some x) (hb : bc.Has hash b) : bc'.td hash b = bc.td hash b := by
  obtain ⟨w, hw, hweighs⟩ := hs.exists_total hb
  have hb' : bc'.blocks b.numberU64 (b.hash hash) = some b := hkeep hb
  have hw' := hs'.total.2 ⟨by rw [hb']; rfl, hweighs.extend (hs.extends_link hs' hkeep)⟩
  rw [td_eq hw, td_eq hw']

/-! ## Known blocks -/

theorem toError_ne_knownBlock (v : Verdict) : v.toError ≠ .knownBlock := by cases v <;> exact nofun

variable (hU : Universe env.hash U) (h : Climbing env U genesis start st)

section

include hU

theorem has_of_known (hs : Stored env.hash U genesis bc) (hb : b ∈ U)
    (h : validate env path bc b = some .knownBlock) : bc.Has env.hash b := by
  unfold validate at h
  split at h
  · rename_i v _
    exact absurd (Option.some.inj h) (toError_ne_knownBlock v)
  unfold validateBody at h
  split at h
  · rename_i hknown
    refine hs.blocks_eq hU.inj hb ?_
    unfold hasBlockAndState getBlock at hknown
    split at hknown
    · cases hknown
    rename_i x hx
    rw [hx]
    rfl
  split at h
  · rename_i v _
    exact absurd (Option.some.inj h) (toError_ne_knownBlock v)
  split at h
  · cases h
  · split at h <;> cases h

omit hU in
include h in
theorem writeKnown_climbing (hb : st.chain.Has env.hash b) {middle : Bool} (hle : middle = false →
      st.chain.td env.hash st.chain.currentBlock ≤ st.chain.td env.hash b)
    (hok : writeKnown env st b middle = .ok st') :
    Climbing env U genesis start st' ∧ SameStore st.chain st'.chain ∧
      st'.chain.currentBlock = b := by
  unfold writeKnown writeKnownBlock at hok
  cases hm : moveHead env.hash st.chain b with
  | error err =>
    rw [hm] at hok
    cases hok
  | ok bc =>
    rw [hm] at hok
    cases hok
    obtain ⟨hstore, hcur⟩ := moveHead_eq_ok hm
    have hs : Sound env.hash U genesis bc := hstore.sound h.sound (by rw [hcur]; exact hb)
    refine ⟨h.moved hs hcur fun hmid => ?_, hstore, hcur⟩
    have htd : bc.td env.hash b = st.chain.td env.hash b := by rw [td, td, getTd, getTd, hstore.2.2]
    rw [htd]
    exact hle hmid

theorem skipKnown_spec (hs : Stored env.hash U genesis bc) {localTd externTd : Int}
    {blocks : List ChainBlock} (hmem : ∀ x ∈ blocks, x ∈ U)
    (hlink : blocks.IsChain (Follows env.hash)) (hparent : ∀ first ∈ blocks.head?,
      bc.getTd first.parentHash (subUint64 first.numberU64 1) = some externTd) :
    ∃ pre, blocks = pre ++ skipKnown env path bc localTd externTd blocks ∧
      ∀ b ∈ (skipKnown env path bc localTd externTd blocks).head?,
        validate env path bc b = some .knownBlock → localTd < bc.td env.hash b := by
  induction blocks generalizing externTd with
  | nil => exact ⟨[], rfl, fun b hb => by cases hb⟩
  | cons first rest ih =>
    unfold skipKnown
    split
    · rename_i hknown
      have hhas := has_of_known hU hs (hmem first mem_cons_self) hknown
      have htd := hhas.td_eq_add hU hs (hparent first rfl)
      split
      · refine ⟨[], rfl, fun b hb _ => ?_⟩
        cases hb
        omega
      rw [isChain_cons] at hlink
      obtain ⟨pre, heq, hhead⟩ := ih (fun x hx => hmem x (mem_cons_of_mem _ hx)) hlink.2
        fun next hnext => htd ▸ (hlink.1 next hnext).getTd hU hs hhas
      refine ⟨first :: pre, ?_, hhead⟩
      rw [cons_append, ← heq]
    rename_i hknown
    refine ⟨[], rfl, fun b hb hk => ?_⟩
    cases hb
    exact absurd hk hknown

include h in
theorem replayKnown_spec {len : Nat} {xs : List ChainBlock} (hmem : ∀ x ∈ xs, x ∈ U)
    (hlink : xs.IsChain (Follows env.hash))
    (hhead : ∀ b ∈ xs.head?, validate env path st.chain b = some .knownBlock →
      st.chain.td env.hash st.chain.currentBlock ≤ st.chain.td env.hash b) :
    (∀ r, replayKnown env path len st xs = .error r → Climbing env U genesis start r.state) ∧
      ∀ st' ys, replayKnown env path len st xs = .ok (st', ys) →
        Climbing env U genesis start st' ∧ ∃ pre, xs = pre ++ ys := by
  induction xs generalizing st with
  | nil =>
    refine ⟨fun r hr => (by cases hr), fun st' ys hr => ?_⟩
    cases hr
    exact ⟨h, [], rfl⟩
  | cons b rest ih =>
    unfold replayKnown
    split
    · rename_i hknown
      have hs := h.sound.stored
      have hhas := has_of_known hU hs (hmem b mem_cons_self) hknown
      cases hw : writeKnown env st b false with
      | error err =>
        refine ⟨fun r hr => ?_, fun st' ys hr => (by cases hr)⟩
        cases hr
        exact h
      | ok st1 =>
        obtain ⟨h1, hstore, hcur⟩ := writeKnown_climbing h hhas (fun _ => hhead b rfl hknown) hw
        have hmem' : ∀ x ∈ rest, x ∈ U := fun x hx => hmem x (mem_cons_of_mem _ hx)
        -- the next block is on top of the one that is the head now
        obtain ⟨herr, hok⟩ := ih h1 hmem' hlink.tail fun next hnext hknown' => by
          have hhas' := has_of_known hU h1.sound.stored (hmem' next (mem_of_mem_head? hnext))
            hknown'
          have hfollows : Follows env.hash b next := by
            cases rest with
            | nil => cases hnext
            | cons y ys =>
              cases hnext
              exact (isChain_cons_cons.1 hlink).1
          have htd := hhas'.td_eq_add hU h1.sound.stored
            (hfollows.getTd hU h1.sound.stored (hstore.has.2 hhas))
          have hpos := hU.difficulty next (hhas'.mem h1.sound.stored)
          rw [hcur, htd]
          omega
        refine ⟨herr, fun st' ys hr => ?_⟩
        obtain ⟨h', pre, rfl⟩ := hok st' ys hr
        exact ⟨h', b :: pre, rfl⟩
    refine ⟨fun r hr => (by cases hr), fun st' ys hr => ?_⟩
    cases hr
    exact ⟨h, [], rfl⟩

include h in
theorem leftTrim_spec {first : ChainBlock} {rest : List ChainBlock}
    (hmem : ∀ x ∈ first :: rest, x ∈ U) (hlink : (first :: rest).IsChain (Follows env.hash)) :
    (∀ r, leftTrim env path st first rest = .error r → Climbing env U genesis start r.state) ∧
      ∀ st' ys, leftTrim env path st first rest = .ok (st', ys) →
        Climbing env U genesis start st' ∧ ∃ pre, first :: rest = pre ++ ys := by
  unfold leftTrim
  split
  · split
    · rename_i localTd externTd hlocal hparent
      obtain ⟨pre, heq, hhead⟩ :=
        @skipKnown_spec _ _ _ _ path hU h.sound.stored localTd _ _ hmem hlink
          fun x hx => by cases hx; exact hparent
      rw [heq] at hmem hlink
      obtain ⟨herr, hok⟩ := @replayKnown_spec _ _ _ path _ _ hU h (rest.length + 1) _
        (fun x hx => hmem x (mem_append_right _ hx)) hlink.right_of_append
        (fun b hb hk => by
          rw [td_eq hlocal]
          exact le_of_lt (hhead b hb hk))
      refine ⟨herr, fun st' ys hr => ?_⟩
      obtain ⟨h', pre', heq'⟩ := hok st' ys hr
      refine ⟨h', pre ++ pre', ?_⟩
      rw [append_assoc, ← heq', ← heq]
    refine ⟨fun r hr => ?_, fun st' ys hr => (by cases hr)⟩
    cases hr
    exact h
  refine ⟨fun r hr => (by cases hr), fun st' ys hr => ?_⟩
  cases hr
  exact ⟨h, [], rfl⟩

/-! ## New blocks -/

omit hU in
theorem writeBlockWithState_td (hU : Universe hash U) (hs : Sound hash U genesis bc) (hb : b ∈ U)
    {o : Outcome} {bc' : BlockChain} {res : Except ChainError WriteStatus}
    (h : writeBlockWithState hash bc b o = (bc', res)) :
    Sound hash U genesis bc' ∧ (bc'.currentBlock = bc.currentBlock ∧
          bc'.td hash bc.currentBlock = bc.td hash bc.currentBlock ∧ res ≠ .ok .canonStatTy ∨
        bc'.currentBlock = b ∧ bc.td hash bc.currentBlock ≤ bc'.td hash b ∧
          res = .ok .canonStatTy) := by
  unfold writeBlockWithState at h
  cases hptd : bc.getTd b.parentHash (subUint64 b.numberU64 1) with
  | none =>
    rw [hptd] at h
    cases h
    exact ⟨hs, .inl ⟨rfl, rfl, nofun⟩⟩
  | some ptd =>
    obtain ⟨hstored, hhas, hkeep⟩ :=
      writeBlock_stored hU.inj hs.stored hb (hU.numberU64_sub hs.stored hptd) hptd
    rw [add_comm] at hstored hhas hkeep
    have htd := td_of_keeps hs.stored hstored hkeep hs.current
    have hbtd : (writeBlock hash bc b (b.difficulty + ptd)).td hash b = b.difficulty + ptd :=
      td_eq (put_self bc.tds _ _ _)
    rw [hptd] at h
    simp only at h
    split at h
    · cases h
      exact ⟨⟨hstored, hkeep hs.current⟩, .inl ⟨rfl, htd, nofun⟩⟩
    have hs' : Sound hash U genesis
        ((writeBlock hash bc b (b.difficulty + ptd)).setStates o.states) :=
      ⟨hstored, hkeep hs.current⟩
    rw [hs.current.getTd hs.stored] at h
    unfold chooseHead at h
    simp only at h
    split at h
    · rename_i hreorg
      cases hm : moveHead hash ((writeBlock hash bc b (b.difficulty + ptd)).setStates o.states)
          b with
      | error err =>
        rw [hm] at h
        cases h
        exact ⟨hs', .inl ⟨rfl, htd, nofun⟩⟩
      | ok bc1 =>
        rw [hm] at h
        cases h
        obtain ⟨hstore, hcur⟩ := moveHead_eq_ok hm
        have hs1 := hstore.sound hs' (by rw [hcur]; exact hhas)
        refine ⟨hs1.removeFutureBlock _, .inr ⟨hcur, ?_, rfl⟩⟩
        have hsame : (bc1.removeFutureBlock (b.hash hash)).td hash b =
            (writeBlock hash bc b (b.difficulty + ptd)).td hash b := by
          simp only [td, getTd, removeFutureBlock, hstore.2.2]
          rfl
        rw [hsame, hbtd]
        unfold reorgs at hreorg
        repeat' split at hreorg
        all_goals first | omega | cases hreorg
    cases h
    exact ⟨hs'.removeFutureBlock _, .inl ⟨rfl, htd, nofun⟩⟩

include h in
theorem writeNew_climbing (hb : b ∈ U) {err : Option ChainError}
    (heq : writeNew env path st b = (st', err)) :
    Climbing env U genesis start st' := by
  unfold writeNew at heq
  cases hw : writeBlockWithState env.hash st.chain b (env.outcome path b) with
  | mk bc res =>
    obtain ⟨hs, ⟨hcur, htd, hne⟩ | ⟨hcur, hle, rfl⟩⟩ := writeBlockWithState_td hU h.sound hb hw
    · have hset : Climbing env U genesis start (st.setChain bc) := h.setChain hs hcur htd
      rw [hw] at heq
      cases res with
      | error e =>
        cases heq
        exact hset
      | ok status =>
        cases status with
        | canonStatTy => exact absurd rfl hne
        | nonStatTy | sideStatTy =>
          cases heq
          exact hset
    rw [hw] at heq
    cases heq
    exact h.moved hs hcur fun _ => hle

end

/-! ## The loops of a call -/

section Loops

variable {xs : List ChainBlock} {len : Nat}
include h

theorem addFutureBlock_climbing
    (hok : addFutureBlock env path st b = .ok st') : Climbing env U genesis start st' := by
  unfold addFutureBlock at hok
  split at hok
  · cases hok
  cases hok
  exact h.setFuture _

theorem queueFuture_climbing :
    Climbing env U genesis start (queueFuture env path len st xs).state := by
  induction xs generalizing st with
  | nil => exact h
  | cons b rest ih =>
    unfold queueFuture
    split
    · split
      · exact h
      rename_i hok
      exact ih (addFutureBlock_climbing h hok)
    · exact h

theorem queueFrom_climbing :
    Climbing env U genesis start (queueFrom env path st len b xs).state := by
  unfold queueFrom
  split
  · exact h
  rename_i hok
  exact queueFuture_climbing (addFutureBlock_climbing h hok)

theorem insertFuture_climbing :
    Climbing env U genesis start (insertFuture env path st len b xs).state := by
  unfold insertFuture
  split
  · exact queueFrom_climbing h
  · exact queueFuture_climbing h

include hU in
theorem importBlocks_climbing (hmem : ∀ x ∈ xs, x ∈ U) :
    Climbing env U genesis start (importBlocks env path len st xs).state := by
  induction xs generalizing st with
  | nil => exact h
  | cons b rest ih =>
    have hb := hmem b mem_cons_self
    have hmem' : ∀ x ∈ rest, x ∈ U := fun x hx => hmem x (mem_cons_of_mem _ hx)
    unfold importBlocks
    cases hv : validate env path st.chain b with
    | none =>
      simp only
      split
      · exact h
      split
      · exact h
      split
      · exact h
      split
      · rename_i hw
        exact writeNew_climbing hU h hb hw
      · rename_i hw
        exact ih (writeNew_climbing hU h hb hw) hmem'
    | some err =>
      cases err with
      | knownBlock =>
        simp only
        split
        · exact h
        split
        · exact h
        split
        · exact h
        rename_i hw
        have hhas := has_of_known hU h.sound.stored hb hv
        exact ih (writeKnown_climbing h hhas (fun hm => by cases hm) hw).1 hmem'
      | futureBlock => exact queueFrom_climbing h
      | _ => exact h

end Loops

/-! ## Side chains -/

section SideBlocks

include hU h

theorem writeSideBlock_climbing (hb : b ∈ U) {w : Int}
    (hp : st.chain.getTd b.parentHash (subUint64 b.numberU64 1) = some w) :
    Climbing env U genesis start (writeSideBlock env st b (w + b.difficulty)) ∧
      (writeSideBlock env st b (w + b.difficulty)).chain.Has env.hash b ∧
      (writeSideBlock env st b (w + b.difficulty)).chain.td env.hash b = w + b.difficulty := by
  have hs := h.sound.stored
  unfold writeSideBlock
  split
  · rename_i hknown
    have hhas : st.chain.Has env.hash b := hs.blocks_eq hU.inj hb hknown
    exact ⟨h, hhas, hhas.td_eq_add hU hs hp⟩
  obtain ⟨hstored, hhas, hkeep⟩ :=
    writeBlock_stored hU.inj hs hb (hU.numberU64_sub hs hp) hp
  refine ⟨h.setChain ⟨hstored, hkeep h.sound.current⟩ rfl ?_, hhas,
    td_eq (put_self st.chain.tds _ _ _)⟩
  exact td_of_keeps hs hstored hkeep h.sound.current

theorem sideBlock_spec (hb : b ∈ U) {current : ChainBlock} {externTd externTd' : Option Int}
    (hext : ∀ w, externTd = some w → st.chain.getTd b.parentHash (subUint64 b.numberU64 1) = some w)
    (hok : sideBlock env st current externTd b = .ok (externTd', st')) :
    Climbing env U genesis start st' ∧ st'.chain.Has env.hash b ∧
      externTd' = some (st'.chain.td env.hash b) := by
  have hs := h.sound.stored
  have hextend : extendSide env st externTd b = .ok (externTd', st') →
      Climbing env U genesis start st' ∧ st'.chain.Has env.hash b ∧
        externTd' = some (st'.chain.td env.hash b) := by
    intro hok
    unfold extendSide at hok
    split at hok
    · cases hok
    rename_i w hw
    have hp : st.chain.getTd b.parentHash (subUint64 b.numberU64 1) = some w := by
      cases externTd with
      | none => exact hw
      | some u =>
        cases hw
        exact hext _ rfl
    cases hok
    obtain ⟨h', hhas, htd⟩ := writeSideBlock_climbing hU h hb hp
    exact ⟨h', hhas, by rw [htd]⟩
  unfold sideBlock at hok
  split at hok
  · exact hextend hok
  rename_i canonical hcanon
  split at hok
  · -- the block is the canonical one
    rename_i hhash
    have hstored : (st.chain.blocks b.numberU64 (b.hash env.hash)).isSome := by
      split at hcanon
      · unfold getBlockByNumber at hcanon
        split at hcanon
        · cases hcanon
        have hkey := (hs.keyed hcanon).2.1
        rw [← hhash, hkey]
        exact Option.isSome_iff_exists.2 ⟨canonical, hcanon⟩
      · cases hcanon
    have hhas : st.chain.Has env.hash b := hs.blocks_eq hU.inj hb hstored
    cases hok
    exact ⟨h, hhas, hhas.getTd hs⟩
  split at hok
  · cases hok
  · exact hextend hok

theorem sideBlocks_climbing {len : Nat} {current : ChainBlock} {xs : List ChainBlock}
    {externTd : Option Int} (hmem : ∀ x ∈ xs, x ∈ U) (hlink : xs.IsChain (Follows env.hash))
    (hext : ∀ b ∈ xs.head?, ∀ w, externTd = some w →
      st.chain.getTd b.parentHash (subUint64 b.numberU64 1) = some w) :
    (∀ r, sideBlocks env path len current externTd st xs = .error r →
      Climbing env U genesis start r.state) ∧
    ∀ r, sideBlocks env path len current externTd st xs = .ok r →
      Climbing env U genesis start r.2.1 := by
  induction xs generalizing st externTd with
  | nil =>
    refine ⟨fun r hr => (by cases hr), fun r hr => ?_⟩
    cases hr
    exact h
  | cons b rest ih =>
    unfold sideBlocks
    split
    · cases hside : sideBlock env st current externTd b with
      | error err =>
        refine ⟨fun r hr => ?_, fun r hr => (by cases hr)⟩
        cases hr
        exact h
      | ok r =>
        obtain ⟨h', hhas, htd⟩ := sideBlock_spec hU h (hmem b mem_cons_self) (hext b rfl) hside
        refine ih h' (fun x hx => hmem x (mem_cons_of_mem _ hx)) hlink.tail ?_
        intro next hnext w hw
        cases rest with
        | nil => cases hnext
        | cons y ys =>
          cases hnext
          rw [(isChain_cons_cons.1 hlink).1.getTd hU h'.sound.stored hhas, ← htd, hw]
    refine ⟨fun r hr => (by cases hr), fun r hr => ?_⟩
    cases hr
    exact h

end SideBlocks

def prunedKey (hash : Header → Hash) (b : ChainBlock) : Hash × Nat := (b.hash hash, b.numberU64)

structure IsBranch (hash : Header → Hash) (U : Set ChainBlock) (b : ChainBlock)
    (xs : List ChainBlock) : Prop where
  mem : ∀ x ∈ xs, x ∈ U
  chain : xs.IsChain fun b p => Follows hash p b
  head : ∀ x ∈ xs.head?, x = b

theorem IsBranch.nil : IsBranch hash U b [] :=
  ⟨fun _ hx => (by cases hx), .nil, fun _ hx => (by cases hx)⟩

theorem IsBranch.cons (hb : b ∈ U) {xs : List ChainBlock} (h : IsBranch hash U p xs)
    (hp : Follows hash p b) : IsBranch hash U b (b :: xs) := by
  refine ⟨fun x hx => ?_, isChain_cons.2 ⟨fun y hy => ?_, h.chain⟩, fun x hx => ?_⟩
  · obtain rfl | hx := mem_cons.1 hx
    · exact hb
    · exact h.mem x hx
  · rw [h.head y hy]
    exact hp
  cases hx
  rfl

theorem prunedHashes_spec (hs : Stored hash U genesis bc) {fuel : Nat} {acc l : List (Hash × Nat)}
    (hb : b ∈ U) (hok : prunedHashes bc hash fuel (some b.header) acc = .ok l) :
    ∃ xs : List ChainBlock, l = acc ++ xs.map (prunedKey hash) ∧ IsBranch hash U b xs := by
  induction fuel generalizing b acc with
  | zero =>
    unfold prunedHashes at hok
    split at hok
    · cases hok
      exact ⟨[], (append_nil _).symm, .nil⟩
    · cases hok
  | succ fuel ih =>
    unfold prunedHashes at hok
    split at hok
    · cases hok
      exact ⟨[], (append_nil _).symm, .nil⟩
    cases hp : bc.getBlock b.header.parentHash (subUint64 b.header.numberU64 1) with
    | none =>
      rw [hp] at hok
      unfold prunedHashes at hok
      cases hok
    | some p =>
      rw [hp] at hok
      obtain ⟨xs, rfl, hbranch⟩ := ih (hs.keyed hp).1 hok
      refine ⟨b :: xs, ?_, hbranch.cons hb ⟨?_, (hs.keyed hp).2.1.symm⟩⟩
      · rw [map_cons, append_assoc, singleton_append]
        rfl
      have hlt : b.header.numberU64 < 2 ^ 64 := b.numberU64_lt
      rw [(hs.keyed hp).2.2]
      unfold subUint64 ChainBlock.numberU64
      omega

def Keeps (env : Env) (U : Set ChainBlock) (genesis : ChainBlock) (start : Int)
    (nested : List Nat → Insertion → List ChainBlock → Option Result) : Prop :=
  ∀ path st xs r, Climbing env U genesis start st → (∀ x ∈ xs, x ∈ U) →
    xs.IsChain (Follows env.hash) → nested path st xs = some r →
      Climbing env U genesis start r.state

section Nested

variable {nested : List Nat → Insertion → List ChainBlock → Option Result}
  (hn : Keeps env U genesis start nested) {chain remaining : List ChainBlock} {r : Result}
include hU h hn

theorem importSegments_climbing {seg memory : Nat} {blocks xs : List ChainBlock}
    (hmem : ∀ x ∈ blocks ++ xs, x ∈ U)
    (hlink : (blocks ++ xs).IsChain (Follows env.hash))
    (hr : importSegments env path nested seg st blocks memory (xs.map (prunedKey env.hash)) =
      some r) : Climbing env U genesis start r.state := by
  induction xs generalizing seg st blocks memory with
  | nil =>
    rw [append_nil] at hmem hlink
    rw [map_nil, importSegments] at hr
    split at hr
    · cases hr
      exact h
    · exact hn _ _ _ _ h hmem hlink hr
  | cons x xs ih =>
    rw [map_cons, importSegments] at hr
    split at hr
    · cases hr
      exact h
    -- the block that is read is the one that was found
    rename_i b hb
    obtain ⟨hbU, hhash, -⟩ := h.sound.stored.keyed hb
    obtain rfl := hU.inj hbU (hmem x (mem_append_right _ mem_cons_self)) hhash
    have hsplit : blocks ++ b :: xs = (blocks ++ [b]) ++ xs := by simp
    rw [hsplit] at hmem hlink
    split at hr
    · cases hseg : nested (seg :: path) st (blocks ++ [b]) with
      | none =>
        rw [hseg] at hr
        cases hr
      | some res =>
        have h' := hn _ _ _ _ h (fun y hy => hmem y (mem_append_left _ hy))
          hlink.left_of_append hseg
        rw [hseg] at hr
        obtain ⟨st', index, err⟩ := res
        cases err with
        | some err =>
          cases hr
          exact h'
        | none =>
          simp only at hr
          split at hr
          · cases hr
            exact h'
          have hmem' : ∀ y ∈ [] ++ xs, y ∈ U :=
            fun y hy => hmem y (mem_append_right _ hy)
          have hlink' : ([] ++ xs).IsChain (Follows env.hash) := hlink.right_of_append
          exact ih h' hmem' hlink' hr
    · exact ih h hmem hlink hr

theorem insertSideChain_climbing (hmem : ∀ x ∈ chain, x ∈ U) (hmem' : ∀ x ∈ remaining, x ∈ U)
    (hlink : remaining.IsChain (Follows env.hash))
    (hr : insertSideChain env path st nested chain remaining = some r) :
    Climbing env U genesis start r.state := by
  obtain ⟨herr, hok⟩ := @sideBlocks_climbing _ _ env path start st hU h chain.length
    st.chain.currentBlock remaining none hmem' hlink fun _ _ _ hw => (by cases hw)
  unfold insertSideChain at hr
  split at hr
  · rename_i res hres
    cases hr
    exact herr _ hres
  rename_i res hres
  have h' := hok res hres
  unfold adoptSide at hr
  split at hr
  · split at hr
    · cases hr
      exact h'
    split at hr
    · cases hr
      exact h'
    rename_i hashes hpruned
    unfold pruned at hpruned
    split at hpruned
    · cases hpruned
    rename_i b hb
    obtain ⟨xs, rfl, hbranch⟩ := prunedHashes_spec h'.sound.stored
      (hmem b (mem_of_getElem? hb)) hpruned
    rw [nil_append, ← map_reverse] at hr
    refine importSegments_climbing hU h' hn (fun x hx => ?_) ?_ hr
    · exact hbranch.mem x (mem_reverse.1 hx)
    · exact isChain_reverse.2 hbranch.chain
  cases hr
  exact h'

/-! ## Calls -/

theorem insertRest_climbing {first : ChainBlock} (hmem : ∀ x ∈ chain, x ∈ U)
    (hmem' : ∀ x ∈ remaining, x ∈ U) (hlink : remaining.IsChain (Follows env.hash))
    (hr : insertRest env path st nested chain first remaining = some r) :
    Climbing env U genesis start r.state := by
  cases remaining with
  | nil =>
    cases hr
    exact h
  | cons b rest =>
    simp only [insertRest] at hr
    split at hr
    · cases hr
      exact importBlocks_climbing hU h hmem'
    · exact insertSideChain_climbing hU h hn hmem hmem' hlink hr
    · cases hr
      exact insertFuture_climbing h
    split at hr
    · cases hr
      exact insertFuture_climbing h
    · cases hr
      exact h.setFuture _

end Nested

/-- **The record of heads climbs but for known blocks in the middle of a batch**, through all calls
for side chains. -/
theorem insertChain_climbing (hU : Universe env.hash U) (fuel : Nat) :
    Keeps env U genesis start (insertChain env fuel) := by
  induction fuel with
  | zero =>
    intro path st xs r _ _ _ hr
    cases hr
  | succ fuel ih =>
    intro path st xs r h hmem hlink hr
    cases xs with
    | nil =>
      cases hr
      exact h
    | cons first rest =>
      obtain ⟨herr, hok⟩ := @leftTrim_spec _ _ env path start st hU h _ _ hmem hlink
      unfold insertChain at hr
      split at hr
      · cases hr
        exact h
      split at hr
      · rename_i res hres
        cases hr
        exact herr _ hres
      rename_i res hres
      obtain ⟨h', pre, heq⟩ := hok res.1 res.2 hres
      have hmem' : ∀ x ∈ res.2, x ∈ U := fun x hx =>
        hmem x (heq ▸ mem_append_right _ hx)
      rw [heq] at hlink
      exact insertRest_climbing hU h' ih hmem hmem' hlink.right_of_append hr

def plainEnv : Env where
  hash := nonceHash
  interrupted := fun _ => false
  insertStopped := fun _ _ => false
  verifyHeader := fun _ _ => none
  verifyBody := fun _ _ => none
  tooFarAhead := fun _ _ => false
  badHashes := fun _ => false
  process := fun _ _ => true
  outcome := fun _ _ => ⟨false, fun _ => true, false, false, false⟩
  size := fun _ => 1

/-- A heavy block is the head. Two light blocks are stored beside it, of which the second has its
state and the first has not. -/
def forkedChain : BlockChain :=
  (writeBlock nonceHash
    (writeBlock nonceHash
      (writeBlockWithState nonceHash (newBlockChain nonceHash (namedBlock 0 0 1 1 []))
        (namedBlock 1 1 10 2 []) (plainEnv.outcome [] (namedBlock 1 1 10 2 []))).1
      (namedBlock 1 1 1 3 []) 2)
    (namedBlock 3 2 1 4 []) 3).setStates fun root => root ≠ 3

end BlockChain

end Virbicoin.Core.Chain
