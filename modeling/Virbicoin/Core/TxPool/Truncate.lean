import Virbicoin.Core.TxPool.Frames

/-!
# Truncation of the pending lists

`truncatePending` takes the last transaction off the lists of the worst offenders, round by round.
Offenders join in the order of their lengths, and whenever one joins the lists of the others have
come down to its length, unless the pool is small enough already. So the lists that lose
transactions are as long as each other, and every one of them is longer than the slots of an account
when it does (`Drops`).
-/

namespace Virbicoin.Core

open Lib List

def TxList.front (l : TxList) : TxList :=
  l.restrict (l.txs.take (l.len - 1)) (take_sublist _ _)

theorem TxList.front_append {l : TxList} {last : Tx} (h : l.lastElement = some last) :
    l.front.txs ++ [last] = l.txs := by
  unfold lastElement at h
  have hne : l.txs ≠ [] := by
    rintro hnil
    rw [hnil] at h
    cases h
  rw [getLast?_eq_some_getLast hne] at h
  cases h
  show l.txs.take (l.txs.length - 1) ++ _ = _
  rw [← dropLast_eq_take]
  exact dropLast_append_getLast hne

theorem TxList.front_len (l : TxList) : l.front.len = l.len - 1 := by
  show (l.txs.take (l.txs.length - 1)).length = l.txs.length - 1
  rw [length_take]
  omega

theorem TxList.cap_last {l : TxList} {last : Tx} (h : l.lastElement = some last) :
    l.cap (l.len - 1) = some ([last], l.front) := by
  have happ := front_append h
  have hlen : l.len = l.front.txs.length + 1 := by
    show l.txs.length = _
    rw [← happ, length_append, length_singleton]
  unfold cap
  rw [if_neg (by omega), if_neg (by omega)]
  have hnat : ((l.len : Int) - 1).toNat = l.len - 1 := by omega
  have hdrop : l.txs.drop (l.len - 1) = [last] := by
    conv => lhs; rw [← happ]
    rw [hlen, Nat.add_sub_cancel, drop_left]
  simp only [hnat, hdrop]
  rfl

namespace TxPool

def dropped (s : Sched) (p : TxPool) (addr : Address) (list : TxList) (last : Tx) : TxPool :=
  (((p.setPending addr list.front).forget last).lowerNonce addr last.nonce).pricedRemoved s 1

section Drop

variable {s : Sched} {p : TxPool} {addr : Address}

abbrev pendingCount (p : TxPool) : Nat := total (fun _ list => TxList.len list) p.pending

theorem pendingLen_of_lookup {list : TxList} (h : p.pending.lookup addr = some list) :
    p.pendingLen addr = list.len := by
  unfold pendingLen
  rw [h]
  rfl

theorem lookup_of_pendingLen (h : 0 < p.pendingLen addr) :
    ∃ list last, p.pending.lookup addr = some list ∧ list.lastElement = some last := by
  cases hl : p.pending.lookup addr with
  | none =>
    unfold pendingLen at h
    rw [hl] at h
    cases h
  | some list =>
    rw [pendingLen_of_lookup hl] at h
    have hne : list.txs ≠ [] := ne_nil_of_length_pos h
    exact ⟨list, _, rfl, getLast?_eq_some_getLast hne⟩

theorem lookup_dropped {list : TxList} {last : Tx} (b : Address) :
    (p.dropped s addr list last).pending.lookup b =
      if b = addr then some list.front else p.pending.lookup b := by
  split
  · rename_i hb
    subst hb
    exact Finmap.lookup_insert _
  · exact Finmap.lookup_insert_of_ne _ ‹_›

theorem mem_of_pendingLen (h : 0 < p.pendingLen addr) : addr ∈ p.pending := by
  obtain ⟨list, -, hlist, -⟩ := lookup_of_pendingLen h
  exact Finmap.mem_of_lookup_eq_some hlist

theorem pendingCount_dropped {list : TxList} {last : Tx} (hlist : p.pending.lookup addr = some list)
    (hlong : 0 < list.len) : (p.dropped s addr list last).pendingCount + 1 = p.pendingCount := by
  have h := total_insert (fun _ list => list.len) p.pending addr list.front
  rw [valueAt_of_lookup _ hlist, TxList.front_len] at h
  show total (fun _ list => list.len) (p.pending.insert addr list.front) + 1 =
    total (fun _ list => list.len) p.pending
  omega

/-- The last transaction leaves the list of an account in `A` with more than `n`. -/
inductive Drop (s : Sched) (n : Nat) (A : Set Address) (p : TxPool) : TxPool → Prop
  | mk {addr : Address} {list : TxList} {last : Tx} (haddr : addr ∈ A)
    (hlist : p.pending.lookup addr = some list) (hlast : list.lastElement = some last)
    (hlong : n < list.len) : Drop s n A p (p.dropped s addr list last)

abbrev Drops (s : Sched) (n : Nat) (A : Set Address) : TxPool → TxPool → Prop :=
  Relation.ReflTransGen (Drop s n A)

variable {n : Nat} {A : Set Address} {q : TxPool}

theorem Drops.sameHead (h : Drops s n A p q) : SameHead p q := by
  induction h with
  | refl => exact .refl p
  | tail _ h ih =>
    cases h
    exact ih.trans ⟨rfl, rfl, rfl⟩

theorem Drops.at (h : Drops s n A p q) (addr : Address) :
    q.pending.lookup addr = p.pending.lookup addr ∨ addr ∈ A ∧ ∃ list list',
      p.pending.lookup addr = some list ∧ q.pending.lookup addr = some list' ∧ n < list.len ∧
        n ≤ list'.len ∧ list'.txs <+: list.txs := by
  induction h with
  | refl => exact .inl rfl
  | tail _ h ih =>
    obtain ⟨hmem, hlist, -, hlong⟩ := h
    rename_i a list last
    rw [lookup_dropped]
    by_cases haddr : addr = a
    · subst haddr
      have hle : n ≤ list.front.len := by
        rw [TxList.front_len]
        omega
      have hfront : list.front.txs <+: list.txs := take_prefix _ _
      rw [if_pos rfl]
      rw [hlist] at ih
      obtain hsame | ⟨-, list0, list', hlist0, hlist', hlong0, -, hpre⟩ := ih
      · exact .inr ⟨hmem, list, _, hsame.symm, rfl, hlong, hle, hfront⟩
      cases hlist'
      exact .inr ⟨hmem, list0, _, hlist0, rfl, hlong0, hle, hfront.trans hpre⟩
    · rwa [if_neg haddr]

theorem Drops.mem (h : Drops s n A p q) (haddr : addr ∈ p.pending) : addr ∈ q.pending := by
  rw [Finmap.mem_iff] at haddr ⊢
  obtain hsame | ⟨-, -, list', -, hlist', -⟩ := h.at addr
  · rwa [hsame]
  · exact ⟨list', hlist'⟩

end Drop

section Truncate

variable {s : Sched} {n : Nat} {A : Set Address} {offenders : List Address} {p : TxPool}

theorem dropRound_spec (hA : ∀ o ∈ offenders, o ∈ A) (hnodup : offenders.Nodup)
    (hlen : ∀ o ∈ offenders, n < p.pendingLen o) :
    ∃ q, p.dropRound s offenders = some q ∧ Drops s n A p q ∧
      q.pendingCount + offenders.length = p.pendingCount ∧
      ∀ b, q.pendingLen b = if b ∈ offenders then p.pendingLen b - 1 else p.pendingLen b := by
  induction offenders generalizing p with
  | nil => exact ⟨p, rfl, .refl, rfl, fun b => by simp⟩
  | cons addr offenders ih =>
    obtain ⟨hnot, hnodup⟩ := nodup_cons.1 hnodup
    have hlen0 := hlen addr mem_cons_self
    obtain ⟨list, last, hlist, hlast⟩ := lookup_of_pendingLen (Nat.zero_lt_of_lt hlen0)
    rw [pendingLen_of_lookup hlist] at hlen0
    have hdrop : ∀ b, (p.dropped s addr list last).pendingLen b =
        if b = addr then p.pendingLen b - 1 else p.pendingLen b := by
      intro b
      unfold pendingLen
      rw [lookup_dropped]
      split
      · rename_i hb
        rw [hb, hlist]
        exact list.front_len
      · rfl
    obtain ⟨q, hq, hdrops, hcount, hqlen⟩ := ih (fun o ho => hA o (mem_cons_of_mem _ ho)) hnodup
      (p := p.dropped s addr list last) fun o ho => by
        have hne : o ≠ addr := fun h => hnot (by rwa [← h])
        rw [hdrop, if_neg hne]
        exact hlen o (mem_cons_of_mem _ ho)
    have hcount0 : (p.dropped s addr list last).pendingCount + 1 = p.pendingCount :=
      pendingCount_dropped hlist (by omega)
    refine ⟨q, ?_, .head ⟨hA addr mem_cons_self, hlist, hlast, hlen0⟩ hdrops, ?_, fun b => ?_⟩
    · unfold dropRound dropLast
      rw [hlist]
      simp only [TxList.cap_last hlast]
      exact hq
    · rw [length_cons]
      omega
    rw [hqlen b, hdrop b]
    by_cases hb : b = addr
    · subst hb
      simp [hnot]
    · simp [hb]

theorem dropWhile_of_le {last : Address} {threshold fuel pending : Nat}
    (h : pending ≤ p.config.globalSlots) :
    dropWhile s offenders last threshold fuel p pending = some (p, pending) := by
  cases fuel with
  | zero => rfl
  | succ fuel =>
    unfold dropWhile
    rw [if_neg (not_lt.2 h)]

theorem dropWhile_spec {last : Address} {threshold : Nat} (hA : ∀ o ∈ offenders, o ∈ A)
    (hnodup : offenders.Nodup) (hlast : last ∈ offenders) (hthreshold : n ≤ threshold)
    (hin : last ∈ p.pending) {fuel m : Nat} (hfuel : p.pendingCount ≤ fuel)
    (hm : ∀ o ∈ offenders, p.pendingLen o = m) (hle : threshold ≤ m) :
    ∃ q m', dropWhile s offenders last threshold fuel p p.pendingCount = some (q, q.pendingCount) ∧
      Drops s n A p q ∧ (∀ o ∈ offenders, q.pendingLen o = m') ∧ threshold ≤ m' ∧
      (q.pendingCount ≤ q.config.globalSlots ∨ m' = threshold) ∧
      ∀ b, b ∉ offenders → q.pendingLen b = p.pendingLen b := by
  induction fuel generalizing p m with
  | zero => exact ⟨p, m, rfl, .refl, hm, hle, .inl (by omega), fun _ _ => rfl⟩
  | succ fuel ih =>
    by_cases hmany : p.pendingCount > p.config.globalSlots
    · obtain ⟨list, hlist⟩ := Finmap.mem_iff.1 hin
      have hlen := hm last hlast
      rw [pendingLen_of_lookup hlist] at hlen
      by_cases hlong : m > threshold
      · obtain ⟨q, hq, hdrops, hcount, hqlen⟩ := dropRound_spec (s := s) hA hnodup
          fun o ho => (hthreshold.trans_lt hlong).trans_eq (hm o ho).symm
        have hpos : 0 < offenders.length := length_pos_of_mem hlast
        obtain ⟨r, m', hr, hdrops', hm', hle', hdone, hrest⟩ := ih (hdrops.mem hin) (m := m - 1)
          (by omega) (fun o ho => by rw [hqlen, if_pos ho, hm o ho]) (by omega)
        refine ⟨r, m', ?_, hdrops.trans hdrops', hm', hle', hdone, fun b hb => ?_⟩
        · unfold dropWhile
          rw [if_pos hmany, hlist]
          simp only [hlen, if_pos hlong, hq]
          rw [← hcount, Nat.add_sub_cancel]
          exact hr
        · rw [hrest b hb, hqlen, if_neg hb]
      refine ⟨p, m, ?_, .refl, hm, hle, .inr (by omega), fun _ _ => rfl⟩
      unfold dropWhile
      rw [if_pos hmany, hlist]
      simp only [hlen, if_neg hlong]
    exact ⟨p, m, dropWhile_of_le (not_lt.1 hmany), .refl, hm, hle, .inl (not_lt.1 hmany),
      fun _ _ => rfl⟩

def Equalized (p : TxPool) (pending : Nat) (offenders spammers : List Address) : Prop :=
  offenders = [] ∨ pending ≤ p.config.globalSlots ∨
    ∃ m, (∀ o ∈ offenders, p.pendingLen o = m) ∧ p.config.accountSlots ≤ m ∧
      ∀ b ∈ spammers, p.pendingLen b ≤ m

theorem equalize_spec (offenders spammers : List Address) (hA : ∀ b ∈ offenders ++ spammers, b ∈ A)
    (hin : ∀ b ∈ A, b ∈ p.pending) (hslots : p.config.accountSlots = n)
    (hnodup : (offenders ++ spammers).Nodup)
    (hsorted : spammers.Pairwise fun a b => p.pendingLen b ≤ p.pendingLen a)
    (hlong : ∀ b ∈ spammers, n < p.pendingLen b)
    (heq : Equalized p p.pendingCount offenders spammers) :
    ∃ offenders' q,
      equalize s spammers offenders p p.pendingCount = some (offenders', q, q.pendingCount) ∧
      Drops s n A p q ∧ offenders' <+: offenders ++ spammers ∧
      Equalized q q.pendingCount offenders' [] ∧
      (q.pendingCount ≤ q.config.globalSlots ∨ offenders' = offenders ++ spammers) := by
  induction spammers generalizing offenders p with
  | nil => exact ⟨offenders, p, rfl, .refl, prefix_append _ _, heq, .inr (append_nil _).symm⟩
  | cons offender spammers ih =>
    obtain ⟨hmax, hsorted⟩ := pairwise_cons.1 hsorted
    have hlong0 := hlong offender mem_cons_self
    have hlong' : ∀ b ∈ spammers, n < p.pendingLen b := fun b hb =>
      hlong b (mem_cons_of_mem _ hb)
    by_cases hmany : p.pendingCount > p.config.globalSlots
    · cases hlast : offenders.getLast? with
      | none =>
        -- the first offender
        rw [getLast?_eq_none_iff] at hlast
        subst hlast
        have hone : Equalized p p.pendingCount [offender] spammers :=
          .inr (.inr ⟨p.pendingLen offender, by simp, by omega, hmax⟩)
        obtain ⟨offenders', q, hq, hfin⟩ := ih [offender] hA hin hslots hnodup hsorted hlong' hone
        refine ⟨offenders', q, ?_, hfin⟩
        unfold equalize
        rw [if_pos hmany]
        exact hq
      | some last =>
        have hmem : last ∈ offenders := mem_of_getLast? hlast
        obtain hnil | hfew | ⟨m, hm, -, hspam⟩ := heq
        · rw [hnil] at hmem
          cases hmem
        · omega
        obtain ⟨list, -, hlist, -⟩ := lookup_of_pendingLen (Nat.zero_lt_of_lt hlong0)
        have hlen := pendingLen_of_lookup hlist
        have hle : list.len ≤ m := hlen ▸ hspam offender mem_cons_self
        have hAo : ∀ o ∈ offenders, o ∈ A := fun o ho => hA o (mem_append_left _ ho)
        obtain ⟨q, m', hq, hdrops, hm', hle', hdone, hrest⟩ := dropWhile_spec (s := s) hAo
          (nodup_append.1 hnodup).1 hmem (hlen ▸ hlong0.le) (hin last (hAo last hmem)) le_rfl hm hle
        have hconfig := hdrops.sameHead.config
        have hrest' : ∀ b ∈ offender :: spammers, q.pendingLen b = p.pendingLen b := fun b hb =>
          hrest b fun hb' => (nodup_append.1 hnodup).2.2 b hb' b hb rfl
        have hrest0 := hrest' offender mem_cons_self
        have htail : ∀ b ∈ spammers, q.pendingLen b = p.pendingLen b := fun b hb =>
          hrest' b (mem_cons_of_mem _ hb)
        have hnext : Equalized q q.pendingCount (offenders ++ [offender]) spammers := by
          obtain hfew | rfl := hdone
          · exact .inr (.inl hfew)
          refine .inr (.inr ⟨list.len, fun o ho => ?_, ?_, fun b hb => ?_⟩)
          · obtain ho | ho := mem_append.1 ho
            · exact hm' o ho
            · rw [mem_singleton.1 ho, hrest0, hlen]
          · rw [hconfig]
            omega
          rw [htail b hb, ← hlen]
          exact hmax b hb
        rw [append_cons] at hA hnodup ⊢
        obtain ⟨offenders', r, hr, hdrops', hfin⟩ := ih _ hA (fun b hb => hdrops.mem (hin b hb))
          (by rw [hconfig, hslots]) hnodup
          (hsorted.imp_of_mem fun ha hb h => by rw [htail _ ha, htail _ hb]; exact h)
          (fun b hb => by rw [htail b hb]; exact hlong' b hb) hnext
        refine ⟨offenders', r, ?_, hdrops.trans hdrops', hfin⟩
        unfold equalize
        rw [if_pos hmany]
        simp only [hlast, hlist, hq]
        exact hr
    refine ⟨offenders, p, ?_, .refl, prefix_append _ _, .inr (.inl (not_lt.1 hmany)),
      .inl (not_lt.1 hmany)⟩
    unfold equalize
    rw [if_neg hmany]

theorem spammers_spec (s : Sched) (p : TxPool) :
    (p.spammers s).Nodup ∧ (p.spammers s).Pairwise (fun a b => p.pendingLen b ≤ p.pendingLen a) ∧
      ∀ b, b ∈ p.spammers s ↔ b ∉ p.locals ∧ p.config.accountSlots < p.pendingLen b := by
  unfold spammers
  refine ⟨?_, pairwise_insertionSort _ _, fun b => ?_⟩
  · rw [(perm_insertionSort _ _).nodup_iff]
    exact ((s.accounts .spammers).nodup _).filter _
  rw [(perm_insertionSort _ _).mem_iff, mem_filter, decide_eq_true_eq,
    (s.accounts .spammers).mem_order, Finmap.mem_keys, and_iff_right_iff_imp]
  exact fun h => mem_of_pendingLen (Nat.zero_lt_of_lt h.2)

/-- The function returns, and after each of its loops the counter is the number of transactions. -/
def Truncates (s : Sched) (p q : TxPool) : Prop :=
  p.truncatePending s = some q ∧ ∃ offenders r,
    equalize s (p.spammers s) [] p p.pendingCount = some (offenders, r, r.pendingCount) ∧
    ∀ last, offenders.getLast? = some last → dropWhile s offenders last p.config.accountSlots
      r.pendingCount r r.pendingCount = some (q, q.pendingCount)

theorem truncatePending_drops :
    ∃ q, Truncates s p q ∧ Drops s p.config.accountSlots {b | b ∈ p.spammers s} p q ∧
      (q.pendingCount ≤ p.config.globalSlots ∨
        ∀ b ∈ p.spammers s, q.pendingLen b ≤ p.config.accountSlots) := by
  obtain ⟨hnodup, hsorted, hspam⟩ := spammers_spec s p
  have hin : ∀ b ∈ p.spammers s, b ∈ p.pending := fun b hb =>
    mem_of_pendingLen (Nat.zero_lt_of_lt ((hspam b).1 hb).2)
  obtain ⟨offenders, r, hr, hdrops, hpre, heq, hall⟩ := equalize_spec (s := s)
    (A := {b | b ∈ p.spammers s}) [] (p.spammers s) (fun _ => id) hin rfl hnodup hsorted
    (fun b hb => ((hspam b).1 hb).2) (.inl rfl)
  have hconfig := hdrops.sameHead.config
  rw [hconfig] at hall
  by_cases hfew : p.pendingCount ≤ p.config.globalSlots
  · refine ⟨p, ⟨if_pos hfew, [], p, ?_, nofun⟩, .refl, .inl hfew⟩
    cases p.spammers s with
    | nil => rfl
    | cons offender spammers =>
      unfold equalize
      rw [if_neg (not_lt.2 hfew)]
  cases hlast : offenders.getLast? with
  | none =>
    obtain rfl := getLast?_eq_none_iff.1 hlast
    refine ⟨r, ⟨?_, [], r, hr, nofun⟩, hdrops, hall.imp_right fun h => ?_⟩
    · unfold truncatePending
      simp only [if_neg hfew, hr]
      rfl
    rw [show p.spammers s = [] from h.symm]
    nofun
  | some last =>
    have hmem : last ∈ offenders := mem_of_getLast? hlast
    suffices h : ∃ q, dropWhile s offenders last p.config.accountSlots r.pendingCount r
        r.pendingCount = some (q, q.pendingCount) ∧
        Drops s p.config.accountSlots {b | b ∈ p.spammers s} p q ∧
        (q.pendingCount ≤ p.config.globalSlots ∨
          ∀ b ∈ p.spammers s, q.pendingLen b ≤ p.config.accountSlots) by
      obtain ⟨q, hq, h⟩ := h
      refine ⟨q, ⟨?_, offenders, r, hr, fun last' hlast' => ?_⟩, h⟩
      · unfold truncatePending
        simp only [if_neg hfew, hr, hlast, hconfig, hq]
        rfl
      rw [hlast] at hlast'
      cases hlast'
      exact hq
    obtain hfew | hall := hall
    · exact ⟨r, dropWhile_of_le (hconfig ▸ hfew), hdrops, .inl hfew⟩
    obtain hnil | hfew | ⟨m, hm, hle, -⟩ := heq
    · rw [hnil] at hmem
      cases hmem
    · exact ⟨r, dropWhile_of_le hfew, hdrops, .inl (hconfig ▸ hfew)⟩
    rw [hconfig] at hle
    obtain ⟨q, m', hq, hdrops', hm', -, hdone, -⟩ := dropWhile_spec (s := s)
      (fun o ho => hpre.subset ho) (hpre.sublist.nodup hnodup) hmem le_rfl
      (hdrops.mem (hin last (hpre.subset hmem))) le_rfl hm hle
    rw [hdrops'.sameHead.config, hconfig] at hdone
    refine ⟨q, hq, hdrops.trans hdrops', hdone.imp_right fun h b hb => ?_⟩
    rw [hm' b (hall ▸ hb), h]

/-- The invariant survives the loss of a last transaction that is not the only one. -/
def SurvivesDrop (s : Sched) (I : TxPool → Prop) : Prop :=
  ∀ p addr list last, I p → p.pending.lookup addr = some list → list.lastElement = some last →
    2 ≤ list.len → I (p.dropped s addr list last)

/-- **The truncation of the pending lists is a series of drops of last transactions, none of which
is the only one of its list.** -/
theorem truncatePending_spec {I : TxPool → Prop} (hI : SurvivesDrop s I) (hp : I p)
    (hslots : 1 ≤ p.config.accountSlots) :
    ∃ q, p.truncatePending s = some q ∧ I q ∧ SameHead p q := by
  obtain ⟨q, ⟨hq, -⟩, hdrops, -⟩ := truncatePending_drops
  refine ⟨q, hq, ?_, hdrops.sameHead⟩
  clear hq
  induction hdrops with
  | refl => exact hp
  | tail _ h ih =>
    obtain ⟨-, hlist, hlast, hlong⟩ := h
    exact hI _ _ _ _ ih hlist hlast (by omega)

/-- **Truncation is fair and sufficient.** Few enough transactions are left, or no account that is
not local has more than its slots. The accounts lose their last transactions only, none is cut below
the slots, and the local ones lose nothing. -/
theorem truncatePending_fair (s : Sched) (p : TxPool) :
    ∃ q, Truncates s p q ∧
      (q.pendingCount ≤ p.config.globalSlots ∨
        ∀ addr, addr ∉ p.locals → q.pendingLen addr ≤ p.config.accountSlots) ∧
      ∀ addr, (addr ∈ p.locals ∨ p.pendingLen addr ≤ p.config.accountSlots →
          q.pending.lookup addr = p.pending.lookup addr) ∧
        min p.config.accountSlots (p.pendingLen addr) ≤ q.pendingLen addr ∧
        (q.pendingOf addr).txs <+: (p.pendingOf addr).txs := by
  obtain ⟨q, hq, hdrops, hdone⟩ := truncatePending_drops
  have hspam := (spammers_spec s p).2.2
  refine ⟨q, hq, hdone.imp_right fun h addr hloc => ?_, fun addr => ?_⟩
  · by_cases hmem : addr ∈ p.spammers s
    · exact h addr hmem
    rw [hspam, not_and, not_lt] at hmem
    obtain hsame | ⟨hmem', -⟩ := hdrops.at addr
    · rw [pendingLen, hsame]
      exact hmem hloc
    · exact h addr hmem'
  obtain hsame | ⟨hmem, list, list', hlist, hlist', hlong, hle, hpre⟩ := hdrops.at addr
  · rw [pendingLen, pendingLen, pendingOf, pendingOf, hsame]
    exact ⟨fun _ => rfl, min_le_right _ _, prefix_rfl⟩
  have hmem := (hspam addr).1 hmem
  rw [pendingLen_of_lookup hlist', pendingOf, pendingOf, hlist, hlist']
  exact ⟨fun h => absurd h (by simp [hmem]), by omega, hpre⟩

end Truncate

end TxPool

end Virbicoin.Core
