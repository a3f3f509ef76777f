import Mathlib.Algebra.BigOperators.Fin
import Mathlib.Algebra.Order.Group.Multiset
import Virbicoin.P2p.Discover.Table

/-!
# Counts of the addresses in the node table

The counts of a table are exact when they are the tallies of the addresses that lie in its buckets
(`Exact`). An address comes into the counts with `addIP` and leaves them with `removeIP`. Every
operation changes the nodes of one bucket, and the counts of the table and of that bucket in the
same way (`change`); the lemmas here say when such a change keeps the counts exact.
-/

namespace Virbicoin.Discover

open Virbicoin.Lib Virbicoin.Netutil Function

/-! ## Counted addresses -/

/-- The network under which an address is counted. Addresses of a local network are not. -/
def tracked (ip : IP) : Option NetKey :=
  if isLAN ip then none else some (DistinctNetSet.key tableSubnet ip)

theorem equal_to4 {a b : IP} (h : a.equal b = true) : a.to4 = b.to4 ∧ (a.to4 = none → a = b) := by
  unfold IP.equal at h
  split at h
  · rw [decide_eq_true_iff] at h
    subst h
    exact ⟨rfl, fun _ => rfl⟩
  split at h
  · rename_i hlen
    rw [decide_eq_true_iff] at h
    have ha : a.to4 = some a := by rw [IP.to4, if_pos hlen.1]
    have hb : b.to4 = some (b.drop 12) := by rw [IP.to4, if_neg (by omega), if_pos ⟨hlen.2, h.1⟩]
    rw [ha, hb, ← h.2]
    exact ⟨rfl, nofun⟩
  split at h
  · rename_i hlen
    rw [decide_eq_true_iff] at h
    have ha : a.to4 = some (a.drop 12) := by rw [IP.to4, if_neg (by omega), if_pos ⟨hlen.1, h.1⟩]
    have hb : b.to4 = some b := by rw [IP.to4, if_pos hlen.2]
    rw [ha, hb, h.2]
    exact ⟨rfl, nofun⟩
  · cases h

theorem tracked_of_equal {a b : IP} (h : a.equal b = true) : tracked a = tracked b := by
  obtain ⟨hto4, hsame⟩ := equal_to4 h
  cases ha : a.to4 with
  | none => rw [hsame ha]
  | some v4 =>
    have hb := hto4.symm.trans ha
    unfold tracked isLAN IP.isLoopback DistinctNetSet.key
    rw [ha, hb]

def nets (ns : List Node) : Multiset NetKey := (ns.map fun n => Tally.single (tracked n.ip)).sum

@[simp] theorem nets_nil : nets [] = 0 := rfl

@[simp] theorem nets_cons (n : Node) (ns : List Node) :
    nets (n :: ns) = Tally.single (tracked n.ip) + nets ns := List.sum_cons

@[simp] theorem nets_append (ns ms : List Node) : nets (ns ++ ms) = nets ns + nets ms := by
  unfold nets
  rw [List.map_append, List.sum_append]

theorem nets_deleteNode (ns : List Node) (n : Node) :
    Tally.single ((ns.find? (·.id = n.id)).bind fun e => tracked e.ip) + nets (deleteNode ns n) =
      nets ns := by
  unfold deleteNode
  induction ns with
  | nil => rfl
  | cons m ns ih =>
    by_cases h : m.id = n.id
    · simp [h]
    simp only [h, decide_false, Bool.false_eq_true, not_false_eq_true, List.find?_cons_of_neg,
      List.eraseP_cons_of_neg, nets_cons, ← ih]
    exact add_left_comm _ _ _

def Bucket.nets (b : Bucket) : Multiset NetKey := Discover.nets (b.entries ++ b.replacements)

namespace Table

variable {tab tab' : Table} {i : Fin nBuckets} {n : Node} {ip : IP}

def nets (tab : Table) : Multiset NetKey := ∑ i, (tab.buckets i).nets

def netsBut (tab : Table) (i : Fin nBuckets) : Multiset NetKey :=
  ∑ j ∈ Finset.univ.erase i, (tab.buckets j).nets

theorem nets_eq : tab.nets = (tab.buckets i).nets + tab.netsBut i :=
  (Finset.add_sum_erase _ _ (Finset.mem_univ i)).symm

/-! ## Tables that differ in one bucket -/

structure Exact (tab : Table) : Prop where
  table : tab.ips.members = Tally.of tab.nets
  bucket : ∀ i, (tab.buckets i).ips.members = Tally.of (tab.buckets i).nets

/-- The limits are those of the table and hold, no identity is twice in a bucket, all nodes have an
address, and no bucket has too many nodes. -/
structure Shaped (tab : Table) : Prop where
  tableSet : tab.ips.subnet = tableSubnet ∧ tab.ips.limit = tableIPLimit
  bucketSet : ∀ i, (tab.buckets i).ips.subnet = bucketSubnet ∧
    (tab.buckets i).ips.limit = bucketIPLimit
  tableLimit : ∀ k, tab.ips.members k ≤ tableIPLimit
  bucketLimit : ∀ i k, (tab.buckets i).ips.members k ≤ bucketIPLimit
  ids : ∀ i, (((tab.buckets i).entries ++ (tab.buckets i).replacements).map Node.id).Nodup
  addressed : ∀ i, ∀ n ∈ (tab.buckets i).entries ++ (tab.buckets i).replacements, n.ip ≠ []
  entries_le : ∀ i, (tab.buckets i).entries.length ≤ bucketSize
  replacements_le : ∀ i, (tab.buckets i).replacements.length ≤ maxReplacements

structure Local (i : Fin nBuckets) (tab tab' : Table) : Prop where
  self : tab'.self = tab.self
  initDone : tab'.initDone = tab.initDone
  others : ∀ j, j ≠ i → tab'.buckets j = tab.buckets j

theorem Local.netsBut (h : Local i tab tab') : tab'.netsBut i = tab.netsBut i :=
  Finset.sum_congr rfl fun j hj => by rw [h.others j (Finset.ne_of_mem_erase hj)]

theorem Local.exact_iff (h : Local i tab tab') (hexact : tab.Exact) :
    tab'.Exact ↔ tab'.ips.members = Tally.of ((tab'.buckets i).nets + tab.netsBut i) ∧
      (tab'.buckets i).ips.members = Tally.of (tab'.buckets i).nets := by
  constructor
  · intro h'
    refine ⟨?_, h'.bucket i⟩
    rw [h'.table, nets_eq, h.netsBut]
  rintro ⟨htable, hbucket⟩
  refine ⟨?_, fun j => ?_⟩
  · rw [htable, nets_eq, h.netsBut]
  by_cases hj : j = i
  · subst hj
    exact hbucket
  · rw [h.others j hj]
    exact hexact.bucket j

/-- The counts of the table and of a bucket change in the same way, and the bucket gets other
nodes. -/
def change (tab : Table) (i : Fin nBuckets) (f : Tally NetKey → Tally NetKey)
    (entries replacements : List Node) : Table :=
  { tab.setBucket i ⟨entries, replacements,
      { (tab.buckets i).ips with members := f (tab.buckets i).ips.members }⟩ with
    ips := { tab.ips with members := f tab.ips.members } }

section Change

variable {f g : Tally NetKey → Tally NetKey} {entries replacements : List Node}

@[simp] theorem change_buckets : (tab.change i f entries replacements).buckets i =
    ⟨entries, replacements,
      { (tab.buckets i).ips with members := f (tab.buckets i).ips.members }⟩ :=
  update_self _ _ _

theorem change_local : Local i tab (tab.change i f entries replacements) :=
  ⟨rfl, rfl, fun _ hj => update_of_ne hj _ _⟩

@[simp] theorem change_change {entries' replacements' : List Node} :
    (tab.change i f entries replacements).change i g entries' replacements' =
      tab.change i (g ∘ f) entries' replacements' := by
  unfold change setBucket
  simp only [update_self, update_idem, comp_apply]

theorem change_same :
    tab.change i id (tab.buckets i).entries (tab.buckets i).replacements = tab := by
  unfold change setBucket
  simp only [id, update_eq_self]

@[simp] theorem change_setNodes {entries' replacements' : List Node} :
    (tab.change i f entries replacements).setNodes i entries' replacements' =
      tab.change i f entries' replacements' := by
  unfold setNodes change setBucket
  simp only [update_self, update_idem]

theorem setNodes_eq : tab.setNodes i entries replacements =
    tab.change i id entries replacements := rfl

theorem change_exact_iff (h : tab.Exact) : (tab.change i f entries replacements).Exact ↔
    f (Tally.of tab.nets) = Tally.of (Discover.nets (entries ++ replacements) + tab.netsBut i) ∧
      f (Tally.of (tab.buckets i).nets) = Tally.of (Discover.nets (entries ++ replacements)) := by
  rw [change_local.exact_iff h, change_buckets, ← h.table, ← h.bucket i]
  rfl

theorem Shaped.change (h : Shaped tab) (htable : ∀ k, f tab.ips.members k ≤ tableIPLimit)
    (hbucket : ∀ k, f (tab.buckets i).ips.members k ≤ bucketIPLimit)
    (hids : ((entries ++ replacements).map Node.id).Nodup)
    (haddr : ∀ n ∈ entries ++ replacements, n.ip ≠ []) (hentries : entries.length ≤ bucketSize)
    (hreplacements : replacements.length ≤ maxReplacements) :
    Shaped (tab.change i f entries replacements) := by
  refine ⟨h.tableSet, ?_, htable, ?_, ?_, ?_, ?_, ?_⟩
  · exact (forall_update_iff tab.buckets fun _ b => b.ips.subnet = bucketSubnet ∧
      b.ips.limit = bucketIPLimit).2 ⟨h.bucketSet i, fun j _ => h.bucketSet j⟩
  · exact (forall_update_iff tab.buckets fun _ b => ∀ k, b.ips.members k ≤ bucketIPLimit).2
      ⟨hbucket, fun j _ => h.bucketLimit j⟩
  · exact (forall_update_iff tab.buckets fun _ b =>
      ((b.entries ++ b.replacements).map Node.id).Nodup).2 ⟨hids, fun j _ => h.ids j⟩
  · exact (forall_update_iff tab.buckets fun _ b => ∀ n ∈ b.entries ++ b.replacements, n.ip ≠ []).2
      ⟨haddr, fun j _ => h.addressed j⟩
  · exact (forall_update_iff tab.buckets fun _ b => b.entries.length ≤ bucketSize).2
      ⟨hentries, fun j _ => h.entries_le j⟩
  · exact (forall_update_iff tab.buckets fun _ b => b.replacements.length ≤ maxReplacements).2
      ⟨hreplacements, fun j _ => h.replacements_le j⟩

end Change

/-! ## Addresses -/

def Fits (tab : Table) (i : Fin nBuckets) (ip : IP) : Prop :=
  ip ≠ [] ∧ ∀ k, tracked ip = some k →
    tab.ips.members k < tableIPLimit ∧ (tab.buckets i).ips.members k < bucketIPLimit

instance (tab : Table) (i : Fin nBuckets) (ip : IP) : Decidable (tab.Fits i ip) :=
  decidable_of_iff (ip ≠ [] ∧ (tracked ip).all fun k =>
      decide (tab.ips.members k < tableIPLimit ∧ (tab.buckets i).ips.members k < bucketIPLimit)) (by
    unfold Fits
    cases tracked ip <;> simp)

theorem tracked_of_lan (h : isLAN ip = true) : tracked ip = none := if_pos h

theorem tracked_of_not_lan (h : ¬ isLAN ip = true) :
    tracked ip = some (DistinctNetSet.key tableSubnet ip) := if_neg h

theorem remove_eq {s : DistinctNetSet} {subnet : Nat} (h : s.subnet = subnet) (ip : IP) :
    s.remove ip = { s with members := s.members.decr (DistinctNetSet.key subnet ip) } :=
  congrArg (fun k => { s with members := s.members.decr (DistinctNetSet.key k ip) }) h

theorem add_eq {s : DistinctNetSet} {subnet limit : Nat} (h : s.subnet = subnet ∧ s.limit = limit) :
    s.add ip = if s.members (DistinctNetSet.key subnet ip) < limit then
      some { s with members := s.members.incr (DistinctNetSet.key subnet ip) } else none := by
  obtain ⟨rfl, rfl⟩ := h
  rfl

theorem removeIP_eq (h : Shaped tab) : tab.removeIP i ip =
    tab.change i (Tally.decrIf · (tracked ip)) (tab.buckets i).entries
      (tab.buckets i).replacements := by
  unfold removeIP
  split
  · rename_i hlan
    rw [tracked_of_lan hlan]
    exact change_same.symm
  rename_i hlan
  rw [tracked_of_not_lan hlan, remove_eq h.tableSet.1, remove_eq (h.bucketSet i).1]
  rfl

theorem addIP_eq (h : Shaped tab) : tab.addIP i ip = if tab.Fits i ip then
      (tab.change i (Tally.incrIf · (tracked ip)) (tab.buckets i).entries
        (tab.buckets i).replacements, true)
    else (tab, false) := by
  unfold addIP
  split
  · rename_i hnil
    exact (if_neg fun hfits => hfits.1 hnil).symm
  rename_i hnil
  split
  · rename_i hlan
    have hfits : tab.Fits i ip := ⟨hnil, fun k hk => by rw [tracked_of_lan hlan] at hk; cases hk⟩
    rw [if_pos hfits, tracked_of_lan hlan]
    exact congrArg (·, true) change_same.symm
  rename_i hlan
  have htracked := tracked_of_not_lan hlan
  rw [add_eq h.tableSet, add_eq (h.bucketSet i)]
  by_cases htable : tab.ips.members (DistinctNetSet.key tableSubnet ip) < tableIPLimit
  · rw [if_pos htable]
    by_cases hbucket : (tab.buckets i).ips.members (DistinctNetSet.key bucketSubnet ip) <
        bucketIPLimit
    · have hfits : tab.Fits i ip := by
        refine ⟨hnil, fun k hk => ?_⟩
        rw [htracked] at hk
        cases hk
        exact ⟨htable, hbucket⟩
      rw [if_pos hbucket, if_pos hfits, htracked]
      rfl
    have hfits : ¬ tab.Fits i ip := fun hfits => hbucket (hfits.2 _ htracked).2
    rw [if_neg hbucket, if_neg hfits]
    -- the address leaves the table again
    simp only [remove_eq (s := { tab.ips with
      members := tab.ips.members.incr (DistinctNetSet.key tableSubnet ip) }) h.tableSet.1,
      Tally.decr_incr]
  have hfits : ¬ tab.Fits i ip := fun hfits => htable (hfits.2 _ htracked).1
  rw [if_neg htable, if_neg hfits]

/-! ## Coming and going -/

section Exactness

variable {f : Tally NetKey → Tally NetKey} {entries replacements : List Node}
  {held t : Option NetKey} {rest : Multiset NetKey}

theorem exact_exchange (h : tab.Exact) (hb : (tab.buckets i).nets = Tally.single held + rest)
    (hn : Discover.nets (entries ++ replacements) = Tally.single t + rest)
    (hf : ∀ s, f (Tally.of (Tally.single held + s)) = Tally.of (Tally.single t + s)) :
    (tab.change i f entries replacements).Exact := by
  rw [change_exact_iff h, nets_eq, hb, hn, add_assoc, hf, hf, add_assoc]
  exact ⟨rfl, rfl⟩

theorem exact_insert_iff (h : tab.Exact) (hb : (tab.buckets i).nets = Tally.single held + rest)
    (hn : Discover.nets (entries ++ replacements) = Tally.single t + rest) :
    (tab.change i (Tally.incrIf · t) entries replacements).Exact ↔ held = none := by
  rw [change_exact_iff h, nets_eq, hb, hn, Tally.incrIf_of, Tally.incrIf_of]
  constructor
  · rintro ⟨-, hbucket⟩
    have hsame := Tally.of_injective hbucket
    have hzero : Tally.single held = 0 := by
      have hcancel := add_left_cancel hsame
      exact left_eq_add.1 (by rw [add_comm, hcancel])
    cases held with
    | none => rfl
    | some k => exact absurd hzero (Multiset.singleton_ne_zero k)
  rintro rfl
  rw [Tally.single_none, zero_add, add_assoc]
  exact ⟨rfl, rfl⟩

theorem exact_remove_iff (h : tab.Exact) (hb : (tab.buckets i).nets = Tally.single held + rest)
    (hn : Discover.nets (entries ++ replacements) = rest) :
    (tab.change i (Tally.decrIf · t) entries replacements).Exact ↔
      t = held ∨ held = none ∧ ∃ k, t = some k ∧ tab.ips.members k = 0 := by
  rw [change_exact_iff h, h.table, nets_eq, hb, hn, add_assoc, Tally.decrIf_of_iff,
    Tally.decrIf_of_iff]
  constructor
  · rintro ⟨rfl | ⟨rfl, k, rfl, hk⟩, -⟩
    · exact .inl rfl
    refine .inr ⟨rfl, k, rfl, ?_⟩
    rw [Tally.single_none, zero_add]
    exact hk
  rintro (rfl | ⟨rfl, k, rfl, hk⟩)
  · exact ⟨.inl rfl, .inl rfl⟩
  rw [Tally.single_none, zero_add] at hk
  have hboth : Multiset.count k rest + Multiset.count k (tab.netsBut i) = 0 := by
    rw [← Multiset.count_add]
    exact hk
  exact ⟨.inr ⟨rfl, k, rfl, hk⟩, .inr ⟨rfl, k, rfl, by omega⟩⟩

end Exactness

/-! ## Lists of nodes -/

theorem deleteNode_ids (ns : List Node) :
    (deleteNode ns n).map Node.id = (ns.map Node.id).erase n.id := by
  rw [deleteNode, List.erase_eq_eraseP, List.eraseP_map]
  congr 2
  funext m
  rw [Bool.eq_iff_iff, comp_apply, decide_eq_true_iff, beq_iff_eq]
  exact eq_comm

variable {ns : List Node}

theorem find_none_iff {id : ID} : ns.find? (·.id = id) = none ↔ id ∉ ns.map Node.id := by simp

theorem contains_iff {id : ID} : contains ns id = true ↔ id ∈ ns.map Node.id := by
  unfold contains
  simp

theorem find_some {id : ID} {e : Node} (h : ns.find? (·.id = id) = some e) : e ∈ ns ∧ e.id = id :=
  ⟨List.mem_of_find?_eq_some h, by simpa using List.find?_some h⟩

theorem pushNode_nets (max : Nat) : ∃ rest, Discover.nets ns =
        Tally.single ((pushNode ns n max).2.bind fun e => tracked e.ip) + rest ∧
      Discover.nets (pushNode ns n max).1 = Tally.single (tracked n.ip) + rest := by
  unfold pushNode
  split
  · exact ⟨Discover.nets ns, (zero_add _).symm, nets_cons n ns⟩
  refine ⟨Discover.nets ns.dropLast, ?_, nets_cons n _⟩
  obtain rfl | ⟨init, last, rfl⟩ := ns.eq_nil_or_concat
  · rfl
  · simp [add_comm]

theorem pushNode_sublist (max : Nat) : ∃ ms, (pushNode ns n max).1 = n :: ms ∧ ms.Sublist ns := by
  unfold pushNode
  split
  · exact ⟨ns, rfl, .refl _⟩
  · exact ⟨ns.dropLast, rfl, ns.dropLast_sublist⟩

theorem pushNode_length {max : Nat} (hpos : 0 < max) (h : ns.length ≤ max) :
    (pushNode ns n max).1.length ≤ max := by
  unfold pushNode
  split
  · rename_i hlt
    exact hlt
  show ns.dropLast.length + 1 ≤ max
  rw [List.length_dropLast]
  omega

end Table

end Virbicoin.Discover
