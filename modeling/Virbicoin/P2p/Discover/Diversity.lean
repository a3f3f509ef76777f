import Virbicoin.P2p.Discover.Counts

/-!
# Diversity of addresses in the node table

What comes into the counts and what leaves them has to be the same. `addSeenNode` and
`addVerifiedNode` take a node out of the replacements without its address, and `deleteInBucket` and
`replace` take out the address of the node they were given, which need not be that of the entry.
`Fair` says for each operation that this does no harm; a table stays diverse exactly as long as all
operations are fair (`run_diverse_iff`).
-/

namespace Virbicoin.Discover

open Virbicoin.Lib Virbicoin.Netutil Multiset

namespace Table

variable {tab : Table} {i : Fin nBuckets} {n : Node} {ip : IP}

/-! ## Operations -/

/-- An address leaves the counts without harm: it is counted like the one of the node, or the node
is not counted and there is no such address. -/
def Releases (tab : Table) (held : Option Node) (ip : IP) : Prop :=
  tracked ip = held.bind (fun e => tracked e.ip) ∨
    held.bind (fun e => tracked e.ip) = none ∧ ∃ k, tracked ip = some k ∧ tab.ips.members k = 0

structure Sound (tab : Table) : Prop where
  shaped : Shaped tab
  exact : Exact tab

theorem removeOld_eq (h : Shaped tab) (old : Option Node) : tab.removeOld i old =
    tab.change i (Tally.decrIf · (old.bind fun e => tracked e.ip)) (tab.buckets i).entries
      (tab.buckets i).replacements := by
  cases old with
  | none => exact change_same.symm
  | some e => exact removeIP_eq h

theorem Fits.le (h : tab.Fits i ip) (hs : Shaped tab) (k : NetKey) :
    tab.ips.members.incrIf (tracked ip) k ≤ tableIPLimit ∧
      (tab.buckets i).ips.members.incrIf (tracked ip) k ≤ bucketIPLimit := by
  cases ht : tracked ip with
  | none => exact ⟨hs.tableLimit k, hs.bucketLimit i k⟩
  | some l =>
    obtain ⟨htable, hbucket⟩ := h.2 l ht
    have := hs.tableLimit k
    have := hs.bucketLimit i k
    simp only [Tally.incrIf, Tally.incr_apply]
    split
    · rename_i hk
      subst hk
      exact ⟨htable, hbucket⟩
    · exact ⟨by omega, by omega⟩

theorem Shaped.shrink (h : Shaped tab) {f : Tally NetKey → Tally NetKey} (hf : ∀ m k, f m k ≤ m k)
    {entries replacements : List Node} (he : entries.Sublist (tab.buckets i).entries)
    (hr : replacements.Sublist (tab.buckets i).replacements) :
    Shaped (tab.change i f entries replacements) :=
  h.change (fun k => le_trans (hf _ k) (h.tableLimit k))
    (fun k => le_trans (hf _ k) (h.bucketLimit i k))
    ((h.ids i).sublist ((he.append hr).map Node.id))
    (fun m hm => h.addressed i m ((he.append hr).subset hm))
    (le_trans he.length_le (h.entries_le i)) (le_trans hr.length_le (h.replacements_le i))

theorem deleteNode_sublist {ns : List Node} : (deleteNode ns n).Sublist ns := List.eraseP_sublist

theorem Shaped.ids_append (h : Shaped tab) (i : Fin nBuckets) :
    ((tab.buckets i).entries.map Node.id ++ (tab.buckets i).replacements.map Node.id).Nodup :=
  List.map_append ▸ h.ids i

theorem not_mem_deleteNode {ns : List Node} (h : (ns.map Node.id).Nodup) :
    n.id ∉ (deleteNode ns n).map Node.id :=
  deleteNode_ids ns ▸ h.not_mem_erase

theorem Shaped.insert (h : Shaped tab) {f : Tally NetKey → Tally NetKey}
    (hf : ∀ k, f tab.ips.members k ≤ tableIPLimit ∧ f (tab.buckets i).ips.members k ≤ bucketIPLimit)
    {entries replacements es rs : List Node}
    (hperm : (entries ++ replacements).Perm (n :: (es ++ rs)))
    (hes : es.Sublist (tab.buckets i).entries) (hrs : rs.Sublist (tab.buckets i).replacements)
    (hn : n.id ∉ es.map Node.id ∧ n.id ∉ rs.map Node.id) (hip : n.ip ≠ [])
    (hentries : entries.length ≤ bucketSize)
    (hreplacements : replacements.length ≤ maxReplacements) :
    Shaped (tab.change i f entries replacements) := by
  have hsub := hes.append hrs
  refine h.change (fun k => (hf k).1) (fun k => (hf k).2) ?_ (fun m hm => ?_) hentries hreplacements
  · refine (hperm.map Node.id).nodup_iff.2 (List.nodup_cons.2 ⟨?_, ?_⟩)
    · rw [List.map_append, List.mem_append, not_or]
      exact hn
    · exact (h.ids i).sublist (hsub.map Node.id)
  obtain rfl | hm := List.mem_cons.1 (hperm.subset hm)
  · exact hip
  · exact h.addressed i m (hsub.subset hm)

theorem addReplacement_sound (h : Sound tab)
    (hn : n.id ∉ (tab.buckets i).entries.map Node.id) : Sound (tab.addReplacement i n) := by
  unfold addReplacement
  split
  · exact h
  rename_i hnot
  rw [contains_iff] at hnot
  rw [addIP_eq h.shaped]
  by_cases hfits : tab.Fits i n.ip
  · simp only [if_pos hfits, change_buckets, change_setNodes]
    obtain ⟨ms, hms, hsub⟩ := pushNode_sublist maxReplacements
    obtain ⟨rest, hold, hnew⟩ := pushNode_nets maxReplacements
    have hlen := pushNode_length (n := n) (by decide) (h.shaped.replacements_le i)
    generalize pushNode (tab.buckets i).replacements n maxReplacements = pushed at *
    have hperm : ((tab.buckets i).entries ++ pushed.1).Perm
        (n :: ((tab.buckets i).entries ++ ms)) := by
      rw [hms]
      exact List.perm_middle
    have hmid := h.shaped.insert (f := (.incrIf · (tracked n.ip))) (hfits.le h.shaped) hperm
      (List.Sublist.refl _) hsub ⟨hn, fun hmem => hnot ((hsub.map Node.id).subset hmem)⟩ hfits.1
      (h.shaped.entries_le i) hlen
    rw [removeOld_eq hmid]
    refine ⟨hmid.shrink (fun _ _ => Tally.decrIf_le _) (List.Sublist.refl _) (.refl _), ?_⟩
    rw [change_buckets, change_change]
    have hb : (tab.buckets i).nets = Tally.single (pushed.2.bind fun e => tracked e.ip) +
        (rest + Discover.nets (tab.buckets i).entries) := by
      rw [Bucket.nets, nets_append, hold, add_comm, add_assoc]
    have hn' : Discover.nets ((tab.buckets i).entries ++ pushed.1) =
        Tally.single (tracked n.ip) + (rest + Discover.nets (tab.buckets i).entries) := by
      rw [nets_append, hnew, add_comm, add_assoc]
    refine exact_exchange h.exact hb hn' fun s => ?_
    rw [Function.comp_apply, Tally.incrIf_of, add_left_comm, Tally.decrIf_of_add]
  rw [if_neg hfits]
  exact h

theorem deleteInBucket_eq (h : Shaped tab) : tab.deleteInBucket i n =
    tab.change i (Tally.decrIf · (tracked n.ip)) (deleteNode (tab.buckets i).entries n)
      (tab.buckets i).replacements := by
  have hmid : Shaped (tab.change i id (deleteNode (tab.buckets i).entries n)
      (tab.buckets i).replacements) :=
    h.shrink (fun _ _ => Nat.le_refl _) deleteNode_sublist (List.Sublist.refl _)
  rw [deleteInBucket, setNodes_eq, removeIP_eq hmid, change_buckets, change_change]
  rfl

theorem deleteInBucket_shaped (h : Shaped tab) : Shaped (tab.deleteInBucket i n) := by
  rw [deleteInBucket_eq h]
  exact h.shrink (fun _ _ => Tally.decrIf_le _) deleteNode_sublist (List.Sublist.refl _)

theorem deleteInBucket_exact_iff (h : Sound tab) : (tab.deleteInBucket i n).Exact ↔
    tab.Releases ((tab.buckets i).entries.find? (·.id = n.id)) n.ip := by
  have hb : (tab.buckets i).nets = Tally.single
      (((tab.buckets i).entries.find? (·.id = n.id)).bind fun e => tracked e.ip) +
        Discover.nets (deleteNode (tab.buckets i).entries n ++ (tab.buckets i).replacements) := by
    rw [nets_append, ← add_assoc, nets_deleteNode, ← nets_append]
    rfl
  rw [deleteInBucket_eq h.shaped]
  exact exact_remove_iff h.exact hb rfl

/-! ### Replacing a dead node -/

theorem find_of_mem {ns : List Node} {r : Node} (hnodup : (ns.map Node.id).Nodup)
    (hr : r ∈ ns) : ns.find? (·.id = r.id) = some r := by
  cases hfind : ns.find? (·.id = r.id) with
  | none => exact absurd (List.mem_map_of_mem hr) (find_none_iff.1 hfind)
  | some e =>
    obtain ⟨he, hid⟩ := find_some hfind
    exact congrArg some (List.inj_on_of_nodup_map hnodup he hr hid)

theorem Shaped.promote (h : Shaped tab) {f : Tally NetKey → Tally NetKey} (hf : ∀ m k, f m k ≤ m k)
    {init : List Node} {e r : Node} (he : (tab.buckets i).entries = init ++ [e])
    (hr : r ∈ (tab.buckets i).replacements) : Shaped (tab.change i f (init ++ [r])
      (deleteNode (tab.buckets i).replacements r)) := by
  have hids := h.ids_append i
  have hlen := h.entries_le i
  rw [he] at hids hlen
  refine h.insert (fun k => ⟨le_trans (hf _ k) (h.tableLimit k),
      le_trans (hf _ k) (h.bucketLimit i k)⟩) ?_ ?_ deleteNode_sublist
    ⟨fun (hmem : r.id ∈ init.map _) => ?_, not_mem_deleteNode hids.of_append_right⟩
    (h.addressed i r (List.mem_append_right _ hr)) ?_
    (le_trans deleteNode_sublist.length_le (h.replacements_le i))
  · rw [List.append_assoc]
    exact List.perm_middle
  · rw [he]
    exact List.sublist_append_left _ _
  · rw [List.map_append, List.append_assoc] at hids
    exact hids.disjoint hmem (List.mem_append_right _ (List.mem_map_of_mem hr))
  · simpa using hlen

theorem replace_cases (h : Shaped tab) (last : Node) (pick : Nat) :
    (tab.replace i last pick = tab ∧ ∀ e, (tab.buckets i).entries.getLast? = some e →
      e.id ≠ last.id) ∨
    ∃ init e, (tab.buckets i).entries = init ++ [e] ∧ e.id = last.id ∧
      (tab.replace i last pick = tab.deleteInBucket i last ∨
        ∃ r ∈ (tab.buckets i).replacements, tab.replace i last pick =
          tab.change i (Tally.decrIf · (tracked last.ip)) (init ++ [r])
            (deleteNode (tab.buckets i).replacements r)) := by
  unfold replace
  obtain hnil | ⟨init, e, he⟩ := List.eq_nil_or_concat (tab.buckets i).entries
  · refine .inl ?_
    rw [hnil]
    exact ⟨rfl, fun e he => by cases he⟩
  rw [List.concat_eq_append] at he
  have hlast : (tab.buckets i).entries.getLast? = some e := by simp [he]
  rw [hlast]
  by_cases hid : e.id = last.id
  · refine .inr ⟨init, e, he, hid, ?_⟩
    simp only [ne_eq, hid, not_true_eq_false, if_false]
    cases hr : (tab.buckets i).replacements[pick % (tab.buckets i).replacements.length]? with
    | none => exact .inl rfl
    | some r =>
      have hmem := List.mem_of_getElem? hr
      refine .inr ⟨r, hmem, ?_⟩
      have hmid := h.promote (f := id) (fun _ _ => Nat.le_refl _) he hmem
      simp only [he, List.dropLast_concat]
      rw [setNodes_eq, removeIP_eq hmid, change_buckets, change_change]
      rfl
  refine .inl ⟨?_, fun e' he' => ?_⟩
  · simp only [ne_eq, hid, not_false_eq_true, if_true]
  cases he'
  exact hid

theorem replace_shaped (h : Shaped tab) (last : Node) (pick : Nat) :
    Shaped (tab.replace i last pick) := by
  obtain ⟨heq, -⟩ | ⟨init, e, he, -, heq | ⟨r, hr, heq⟩⟩ := replace_cases (i := i) h last pick
  · rw [heq]
    exact h
  · exact heq ▸ deleteInBucket_shaped h
  · exact heq ▸ h.promote (fun _ _ => Tally.decrIf_le _) he hr

theorem replace_exact_iff (h : Sound tab) (last : Node) (pick : Nat) :
    (tab.replace i last pick).Exact ↔ ∀ e, (tab.buckets i).entries.getLast? = some e →
      e.id = last.id → tab.Releases (some e) last.ip := by
  obtain ⟨heq, hne⟩ | ⟨init, e, he, hid, heq⟩ := replace_cases (i := i) h.shaped last pick
  · rw [heq]
    exact ⟨fun _ e he hid => absurd hid (hne e he), fun _ => h.exact⟩
  have hlast : (tab.buckets i).entries.getLast? = some e := by simp [he]
  have hiff : (∀ e', (tab.buckets i).entries.getLast? = some e' → e'.id = last.id →
      tab.Releases (some e') last.ip) ↔ tab.Releases (some e) last.ip := by
    rw [hlast]
    refine ⟨fun hall => hall e rfl hid, fun hrel e' he' _ => ?_⟩
    cases he'
    exact hrel
  rw [hiff]
  obtain heq | ⟨r, hr, heq⟩ := heq
  · have hmem : e ∈ (tab.buckets i).entries := by simp [he]
    have hfind := find_of_mem (h.shaped.ids_append i).of_append_left hmem
    rw [hid] at hfind
    rw [heq, deleteInBucket_exact_iff h, hfind]
  have hrepl : Discover.nets (tab.buckets i).replacements = Tally.single (tracked r.ip) +
      Discover.nets (deleteNode (tab.buckets i).replacements r) := by
    rw [← nets_deleteNode _ r, find_of_mem (h.shaped.ids_append i).of_append_right hr]
    rfl
  have hb : (tab.buckets i).nets = Tally.single (tracked e.ip) +
      Discover.nets (init ++ [r] ++ deleteNode (tab.buckets i).replacements r) := by
    rw [Bucket.nets, he]
    simp only [nets_append, nets_cons, nets_nil, add_zero, hrepl]
    ac_rfl
  rw [heq]
  exact exact_remove_iff h.exact hb rfl

/-! ### Moving a node to the front -/

theorem ne_nil_of_equal {a b : IP} (h : a.equal b = true) (hb : b ≠ []) : a ≠ [] := by
  rintro rfl
  unfold IP.equal at h
  split at h
  · rw [decide_eq_true_iff] at h
    exact hb h.symm
  · simp at h

theorem entry_nets {e : Node} (hfind : (tab.buckets i).entries.find? (·.id = n.id) = some e) :
    (tab.buckets i).nets = Tally.single (tracked e.ip) +
      Discover.nets (deleteNode (tab.buckets i).entries n ++ (tab.buckets i).replacements) := by
  have hdel := nets_deleteNode (tab.buckets i).entries n
  rw [hfind] at hdel
  rw [Bucket.nets, nets_append, nets_append, ← hdel, add_assoc]
  rfl

theorem changeIP_cases (h : Sound tab) {e : Node}
    (hfind : (tab.buckets i).entries.find? (·.id = n.id) = some e) (new : IP) :
    (tab.changeIP i e.ip new = (tab, false) ∧ ¬ tab.Fits i new) ∨
    ∃ f, tab.changeIP i e.ip new =
        (tab.change i f (tab.buckets i).entries (tab.buckets i).replacements, true) ∧
      new ≠ [] ∧
      (∀ s, f (Tally.of (Tally.single (tracked e.ip) + s)) =
        Tally.of (Tally.single (tracked new) + s)) ∧
      (∀ k, f tab.ips.members k ≤ tableIPLimit) ∧
      ∀ k, f (tab.buckets i).ips.members k ≤ bucketIPLimit := by
  have hne : e.ip ≠ [] :=
    h.shaped.addressed i e (List.mem_append_left _ (find_some hfind).1)
  unfold changeIP
  split
  · rename_i hequal
    refine .inr ⟨id, by rw [change_same], ne_nil_of_equal hequal hne, fun s => ?_,
      h.shaped.tableLimit, h.shaped.bucketLimit i⟩
    rw [tracked_of_equal hequal]
    rfl
  have hgone : Shaped (tab.change i (Tally.decrIf · (tracked e.ip)) (tab.buckets i).entries
      (tab.buckets i).replacements) :=
    h.shaped.shrink (fun _ _ => Tally.decrIf_le _) (List.Sublist.refl _) (List.Sublist.refl _)
  rw [removeIP_eq h.shaped, addIP_eq hgone]
  by_cases hfits : (tab.change i (Tally.decrIf · (tracked e.ip)) (tab.buckets i).entries
      (tab.buckets i).replacements).Fits i new
  · have hle := hfits.le hgone
    simp only [if_pos hfits, change_buckets, change_change] at hle ⊢
    refine .inr ⟨_, rfl, hfits.1, fun s => ?_, fun k => (hle k).1, fun k => (hle k).2⟩
    rw [Function.comp_apply, Tally.decrIf_of_add, Tally.incrIf_of]
  have hnot : ¬ tab.Fits i new := by
    rintro ⟨hnil, hroom⟩
    refine hfits ⟨hnil, fun k hk => ?_⟩
    rw [change_buckets]
    exact ⟨Nat.lt_of_le_of_lt (Tally.decrIf_le k) (hroom k hk).1,
      Nat.lt_of_le_of_lt (Tally.decrIf_le k) (hroom k hk).2⟩
  refine .inl ⟨?_, hnot⟩
  -- the old address fits again, since it was counted before
  have htable : tab.ips.members = Tally.of (Tally.single (tracked e.ip) +
      (Discover.nets (deleteNode (tab.buckets i).entries n ++ (tab.buckets i).replacements) +
        tab.netsBut i)) := by
    rw [h.exact.table, nets_eq, entry_nets hfind, add_assoc]
  have hbucket := h.exact.bucket i
  rw [entry_nets hfind] at hbucket
  have hold : (tab.change i (Tally.decrIf · (tracked e.ip)) (tab.buckets i).entries
      (tab.buckets i).replacements).Fits i e.ip := by
    refine ⟨hne, fun k hk => ?_⟩
    rw [hk] at htable hbucket ⊢
    rw [change_buckets]
    exact ⟨(Tally.decrIf_lt htable).trans_le (h.shaped.tableLimit k),
      (Tally.decrIf_lt hbucket).trans_le (h.shaped.bucketLimit i k)⟩
  simp only [if_neg hfits]
  rw [addIP_eq hgone, if_pos hold, change_buckets, change_change]
  unfold change
  simp only [Function.comp_apply, Tally.incrIf_decrIf htable, Tally.incrIf_decrIf hbucket]
  exact congrArg (·, false) (change_same (i := i))

theorem bumpInBucket_cases (h : Sound tab) (n : Node) : (tab.bumpInBucket i n = (tab, false) ∧
      (n.id ∈ (tab.buckets i).entries.map Node.id → ¬ tab.Fits i n.ip)) ∨
    ((tab.bumpInBucket i n).2 = true ∧ n.id ∈ (tab.buckets i).entries.map Node.id ∧
      Sound (tab.bumpInBucket i n).1) := by
  unfold bumpInBucket
  cases hfind : (tab.buckets i).entries.find? (·.id = n.id) with
  | none => exact .inl ⟨rfl, fun hmem => absurd hmem (find_none_iff.1 hfind)⟩
  | some e =>
    obtain ⟨hmem, hid⟩ := find_some hfind
    obtain ⟨heq, hnot⟩ | ⟨f, heq, hne, hf, htable, hbucket⟩ := changeIP_cases h hfind n.ip
    · simp only [heq]
      exact .inl ⟨trivial, fun _ => hnot⟩
    simp only [heq, change_buckets, change_setNodes]
    refine .inr ⟨trivial, hid ▸ List.mem_map_of_mem hmem, ?_, ?_⟩
    · have hids := h.shaped.ids_append i
      refine h.shaped.insert (fun k => ⟨htable k, hbucket k⟩) (.refl _)
        deleteNode_sublist (.refl _) ⟨not_mem_deleteNode hids.of_append_left,
          hids.disjoint (hid ▸ List.mem_map_of_mem hmem)⟩ hne ?_ (h.shaped.replacements_le i)
      have hlen := List.length_eraseP_add_one (p := (·.id = n.id)) hmem (decide_eq_true hid)
      exact hlen.trans_le (h.shaped.entries_le i)
    refine exact_exchange h.exact (entry_nets hfind) ?_ hf
    rw [List.cons_append, nets_cons]

/-! ### Adding a node -/

/-- A node comes into a bucket that has room for it, and the replacement with its identity, if there
is one, is not counted. -/
def Admits (tab : Table) (i : Fin nBuckets) (n : Node) : Prop :=
  (tab.buckets i).entries.length < bucketSize → tab.Fits i n.ip →
    ((tab.buckets i).replacements.find? (·.id = n.id)).bind (fun r => tracked r.ip) = none

theorem insertNode_cases (h : Shaped tab) (front : Bool) :
    (tab.insertNode i n front = tab.addReplacement i n ∧
      bucketSize ≤ (tab.buckets i).entries.length) ∨
    (tab.insertNode i n front = tab ∧ ¬ tab.Fits i n.ip) ∨
    ∃ entries, entries.Perm (n :: (tab.buckets i).entries) ∧ tab.Fits i n.ip ∧
      (tab.buckets i).entries.length < bucketSize ∧ tab.insertNode i n front =
        tab.change i (Tally.incrIf · (tracked n.ip)) entries
          (deleteNode (tab.buckets i).replacements n) := by
  unfold insertNode
  by_cases hfull : bucketSize ≤ (tab.buckets i).entries.length
  · exact .inl ⟨if_pos hfull, hfull⟩
  rw [if_neg hfull, addIP_eq h]
  by_cases hfits : tab.Fits i n.ip
  · simp only [if_pos hfits, change_buckets, change_setNodes]
    refine .inr (.inr ⟨_, ?_, hfits, not_le.1 hfull, rfl⟩)
    cases front with
    | false => exact List.perm_append_singleton _ _
    | true => rw [if_pos rfl, pushNode, if_pos (not_le.1 hfull)]
  rw [if_neg hfits]
  exact .inr (.inl ⟨rfl, hfits⟩)

theorem nets_perm {ns ms : List Node} (h : ns.Perm ms) : Discover.nets ns = Discover.nets ms :=
  (h.map _).sum_eq

theorem insertNode_shaped (h : Sound tab) (hn : n.id ∉ (tab.buckets i).entries.map Node.id)
    (front : Bool) : Shaped (tab.insertNode i n front) := by
  obtain ⟨heq, -⟩ | ⟨heq, -⟩ | ⟨entries, hperm, hfits, hroom, heq⟩ :=
    insertNode_cases (i := i) h.shaped front
  · rw [heq]
    exact (addReplacement_sound h hn).shaped
  · rw [heq]
    exact h.shaped
  rw [heq]
  exact h.shaped.insert (hfits.le h.shaped) (hperm.append_right _) (.refl _)
    deleteNode_sublist ⟨hn, not_mem_deleteNode (h.shaped.ids_append i).of_append_right⟩
    hfits.1 (hperm.length_eq.trans_le hroom)
    (le_trans deleteNode_sublist.length_le (h.shaped.replacements_le i))

theorem insertNode_exact_iff (h : Sound tab) (hn : n.id ∉ (tab.buckets i).entries.map Node.id)
    (front : Bool) : (tab.insertNode i n front).Exact ↔ tab.Admits i n := by
  obtain ⟨heq, hfull⟩ | ⟨heq, hnot⟩ | ⟨entries, hperm, hfits, hroom, heq⟩ :=
    insertNode_cases (i := i) h.shaped front
  · rw [heq]
    exact ⟨fun _ hroom => absurd hroom (Nat.not_lt.2 hfull),
      fun _ => (addReplacement_sound h hn).exact⟩
  · rw [heq]
    exact ⟨fun _ _ hfits => absurd hfits hnot, fun _ => h.exact⟩
  have hb : (tab.buckets i).nets = Tally.single
      (((tab.buckets i).replacements.find? (·.id = n.id)).bind fun r => tracked r.ip) +
        (Discover.nets (tab.buckets i).entries +
          Discover.nets (deleteNode (tab.buckets i).replacements n)) := by
    rw [Bucket.nets, nets_append, ← nets_deleteNode (tab.buckets i).replacements n]
    exact add_left_comm _ _ _
  have hnew : Discover.nets (entries ++ deleteNode (tab.buckets i).replacements n) =
      Tally.single (tracked n.ip) + (Discover.nets (tab.buckets i).entries +
        Discover.nets (deleteNode (tab.buckets i).replacements n)) := by
    rw [nets_append, nets_perm hperm, nets_cons, add_assoc]
  rw [heq, exact_insert_iff h.exact hb hnew]
  exact ⟨fun hnone _ _ => hnone, fun hadm => hadm hroom hfits⟩

/-! ## Runs -/

/-- An operation keeps the counts and the nodes together: a node is not added while the replacement
with its identity is counted, and a node that is deleted or replaced has the address under which it
is counted. -/
def Fair (tab : Table) : Op → Prop
  | .addSeenNode n => n.id ≠ tab.self →
      contains (tab.buckets (tab.bucket n.id)).entries n.id = false → tab.Admits (tab.bucket n.id) n
  | .addVerifiedNode n => tab.initDone = true → n.id ≠ tab.self →
      contains (tab.buckets (tab.bucket n.id)).entries n.id = false → tab.Admits (tab.bucket n.id) n
  | .delete n => tab.Releases ((tab.buckets (tab.bucket n.id)).entries.find? (·.id = n.id)) n.ip
  | .revalidate last alive _ => alive = false →
      ∀ e, (tab.buckets (tab.bucket last.id)).entries.getLast? = some e → e.id = last.id →
        tab.Releases (some e) last.ip
  | .initDone => True

def FairAll : Table → List Op → Prop
  | _, [] => True
  | tab, op :: ops => tab.Fair op ∧ FairAll (tab.step op) ops

/-- The counts are those of the entries and replacements with an address that is counted, of which
at most ten in the table and two in a bucket share a network; no identity is twice in a bucket, and
no bucket has too many nodes. -/
structure Diverse (tab : Table) : Prop where
  tableCounts : ∀ k, tab.ips.members k = ∑ i, ((tab.buckets i).entries ++
    (tab.buckets i).replacements).countP fun n => tracked n.ip = some k
  bucketCounts : ∀ i k, (tab.buckets i).ips.members k = ((tab.buckets i).entries ++
    (tab.buckets i).replacements).countP fun n => tracked n.ip = some k
  tableLimit : ∀ k, ∑ i, ((tab.buckets i).entries ++
    (tab.buckets i).replacements).countP (fun n => tracked n.ip = some k) ≤ 10
  bucketLimit : ∀ i k, ((tab.buckets i).entries ++
    (tab.buckets i).replacements).countP (fun n => tracked n.ip = some k) ≤ 2
  ids : ∀ i, (((tab.buckets i).entries ++ (tab.buckets i).replacements).map Node.id).Nodup
  entries_le : ∀ i, (tab.buckets i).entries.length ≤ 16
  replacements_le : ∀ i, (tab.buckets i).replacements.length ≤ 10

theorem count_nets (ns : List Node) (k : NetKey) :
    (Discover.nets ns).count k = ns.countP fun n => tracked n.ip = some k := by
  induction ns with
  | nil => rfl
  | cons n ns ih =>
    rw [nets_cons, count_add, List.countP_cons, Nat.add_comm]
    congr 1
    cases htracked : tracked n.ip with
    | none => rfl
    | some l =>
      show count k {l} = _
      rw [count_singleton]
      simp [eq_comm]

theorem diverse_iff (h : Shaped tab) : tab.Diverse ↔ tab.Exact := by
  have hbucket := fun i k =>
    count_nets ((tab.buckets i).entries ++ (tab.buckets i).replacements) k
  have htable := fun k => (count_sum' (a := k) (s := Finset.univ)
    (f := fun i => (tab.buckets i).nets)).trans (Finset.sum_congr rfl fun i _ => hbucket i k)
  constructor
  · exact fun hd => ⟨funext fun k => (hd.tableCounts k).trans (htable k).symm,
      fun i => funext fun k => (hd.bucketCounts i k).trans (hbucket i k).symm⟩
  intro he
  have htable := fun k => (congrFun he.table k).trans (htable k)
  have hbucket := fun i k => (congrFun (he.bucket i) k).trans (hbucket i k)
  exact ⟨htable, hbucket, fun k => htable k ▸ h.tableLimit k,
    fun i k => hbucket i k ▸ h.bucketLimit i k, h.ids, h.entries_le, h.replacements_le⟩

theorem step_sound (h : Sound tab) (op : Op) :
    Shaped (tab.step op) ∧ ((tab.step op).Exact ↔ tab.Fair op) := by
  cases op with
  | addSeenNode n =>
    show Shaped (tab.addSeenNode n) ∧ ((tab.addSeenNode n).Exact ↔ _)
    unfold addSeenNode
    by_cases hself : n.id = tab.self
    · rw [if_pos hself]
      exact ⟨h.shaped, fun _ hne => absurd hself hne, fun _ => h.exact⟩
    rw [if_neg hself]
    by_cases hin : contains (tab.buckets (tab.bucket n.id)).entries n.id = true
    · rw [if_pos hin]
      refine ⟨h.shaped, fun _ _ hout => ?_, fun _ => h.exact⟩
      rw [hin] at hout
      cases hout
    rw [if_neg hin]
    have hn := mt contains_iff.2 hin
    refine ⟨insertNode_shaped h hn false, ?_⟩
    rw [insertNode_exact_iff h hn false]
    exact ⟨fun hadm _ _ => hadm, fun hfair => hfair hself (Bool.not_eq_true _ ▸ hin)⟩
  | addVerifiedNode n =>
    show Shaped (tab.addVerifiedNode n) ∧ ((tab.addVerifiedNode n).Exact ↔ _)
    unfold addVerifiedNode
    by_cases hinit : tab.initDone = false
    · rw [if_pos hinit]
      refine ⟨h.shaped, fun _ hdone => ?_, fun _ => h.exact⟩
      rw [hinit] at hdone
      cases hdone
    rw [if_neg hinit]
    by_cases hself : n.id = tab.self
    · rw [if_pos hself]
      exact ⟨h.shaped, fun _ _ hne => absurd hself hne, fun _ => h.exact⟩
    rw [if_neg hself]
    obtain ⟨heq, hnot⟩ | ⟨htrue, hmem, hsound⟩ :=
      bumpInBucket_cases (i := tab.bucket n.id) h n
    · simp only [heq]
      by_cases hmem : n.id ∈ (tab.buckets (tab.bucket n.id)).entries.map Node.id
      · simp only [insertNode, addReplacement, addIP_eq h.shaped, if_neg (hnot hmem), ite_self]
        refine ⟨h.shaped, fun _ _ _ hout => ?_, fun _ => h.exact⟩
        rw [contains_iff.2 hmem] at hout
        cases hout
      refine ⟨insertNode_shaped h hmem true, ?_⟩
      rw [insertNode_exact_iff h hmem true]
      refine ⟨fun hadm _ _ _ => hadm, fun hfair => hfair (by simpa using hinit) hself ?_⟩
      rw [← Bool.not_eq_true, contains_iff]
      exact hmem
    generalize tab.bumpInBucket (tab.bucket n.id) n = r at htrue hsound
    obtain ⟨tab', b⟩ := r
    obtain rfl : b = true := htrue
    refine ⟨hsound.shaped, fun _ _ _ hout => ?_, fun _ => hsound.exact⟩
    rw [contains_iff.2 hmem] at hout
    cases hout
  | delete n => exact ⟨deleteInBucket_shaped h.shaped, deleteInBucket_exact_iff h⟩
  | revalidate last alive pick =>
    cases alive with
    | true =>
      have hsound : Sound (tab.revalidate last true pick) := by
        obtain ⟨heq, -⟩ | ⟨-, -, hsound⟩ := bumpInBucket_cases (i := tab.bucket last.id) h
          { last with livenessChecks := last.livenessChecks + 1 }
        · unfold revalidate
          rw [heq]
          exact h
        · exact hsound
      exact ⟨hsound.shaped, fun _ h => Bool.noConfusion h, fun _ => hsound.exact⟩
    | false =>
      refine ⟨replace_shaped h.shaped last pick, ?_⟩
      rw [show (tab.step (.revalidate last false pick)).Exact ↔ _ from
        replace_exact_iff h last pick]
      exact ⟨fun hrel _ => hrel, fun hfair => hfair rfl⟩
  | initDone =>
    exact ⟨⟨h.shaped.tableSet, h.shaped.bucketSet, h.shaped.tableLimit, h.shaped.bucketLimit,
      h.shaped.ids, h.shaped.addressed, h.shaped.entries_le, h.shaped.replacements_le⟩,
      fun _ => trivial, fun _ => ⟨h.exact.table, h.exact.bucket⟩⟩

theorem run_sound_iff (h : Sound tab) (ops : List Op) :
    (∀ k, (tab.run (ops.take k)).Diverse) ↔ FairAll tab ops := by
  induction ops generalizing tab with
  | nil =>
    refine ⟨fun _ => trivial, fun _ k => ?_⟩
    rw [List.take_nil]
    exact (diverse_iff h.shaped).2 h.exact
  | cons op ops ih =>
    obtain ⟨hshaped, hexact⟩ := step_sound h op
    constructor
    · intro hall
      have hone : (tab.step op).Exact := by
        have := hall 1
        exact (diverse_iff hshaped).1 this
      refine ⟨hexact.1 hone, (ih ⟨hshaped, hone⟩).1 fun k => ?_⟩
      exact hall (k + 1)
    rintro ⟨hfair, hrest⟩ k
    cases k with
    | zero => exact (diverse_iff h.shaped).2 h.exact
    | succ k => exact (ih ⟨hshaped, hexact.2 hfair⟩).2 hrest k

theorem newTable_sound (self : ID) : Sound (newTable self) := by
  refine ⟨⟨⟨rfl, rfl⟩, fun _ => ⟨rfl, rfl⟩, fun _ => Nat.zero_le _, fun _ _ => Nat.zero_le _,
    fun _ => List.nodup_nil, fun _ _ hn => (by cases hn), fun _ => Nat.zero_le _,
    fun _ => Nat.zero_le _⟩, ?_, fun _ => rfl⟩
  have hnets : (newTable self).nets = 0 := Finset.sum_eq_zero fun _ _ => rfl
  rw [hnets]
  rfl

/-- **A table is diverse in every state of a run if and only if all operations of the run are
fair.** -/
theorem run_diverse_iff (self : ID) (ops : List Op) :
    (∀ k, ((newTable self).run (ops.take k)).Diverse) ↔ FairAll (newTable self) ops :=
  run_sound_iff (newTable_sound self) ops

def farNode (k : Nat) : Node where
  id := BitVec.ofNat 256 (2 ^ 255 + k)
  ip := [1, 2, 3, BitVec.ofNat 8 k]

/-- Two nodes of a network are in a bucket when a node is deleted that is not there. The bucket then
takes a third one. -/
theorem delete_absent_third_node :
    (((newTable 0).run [.addSeenNode (farNode 1), .addSeenNode (farNode 2), .delete (farNode 9),
      .addSeenNode (farNode 3)]).buckets (Fin.last 16)).entries.countP
        (fun n => tracked n.ip = some (.v4 [1, 2, 3])) = 3 := by
  decide +kernel

end Table

end Virbicoin.Discover
