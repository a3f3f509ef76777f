import Virbicoin.Trie.Flush

/-!
# The sizes of the trie cache

`dirtiesSize` is meant to be the size of the cached nodes and `childrenSize` that of the external
children (`Accounted`). Every operation keeps the difference, with two exceptions. `Commit` takes
the external children of the nodes that it drops off `dirtiesSize` in place of `childrenSize`, and
`Reference` counts a reference of the metaroot anew whose `uint16` counter has come round to zero.
Both only ever add to the differences.
-/

namespace Virbicoin.Mpt

open Virbicoin.Lib Finmap Option

theorem Counters.len_insert (m : Counters) (c : Hash) (k : Nat) :
    Counters.len (m.insert c k) = m.len + if c ∈ m then 0 else 1 := by
  have hkeys : (m.insert c k).keys = Insert.insert c m.keys := by
    ext a
    rw [mem_keys, mem_insert, Finset.mem_insert, mem_keys]
  unfold len
  rw [hkeys]
  split
  · rename_i hc
    rw [Finset.insert_eq_of_mem (mem_keys.2 hc), Nat.add_zero]
  · rename_i hc
    exact Finset.card_insert_of_notMem fun h => hc (mem_keys.1 h)

theorem Counters.len_erase {m : Counters} {c : Hash} (hc : c ∈ m) :
    Counters.len (m.erase c) + 1 = m.len := by
  have hkeys : (m.erase c).keys = m.keys.erase c := by
    ext a
    rw [mem_keys, mem_erase, Finset.mem_erase, mem_keys]
  unfold len
  rw [hkeys]
  exact Finset.card_erase_add_one (mem_keys.2 hc)

namespace Database

variable {db db' : Database} {rank : Hash → Nat} {l : List Hash} {h c p : Hash} {n : CachedNode}

def Accounted (db : Database) : Prop :=
  db.dirtiesSize = db.nodesSize ∧ db.childrenSize = db.externalSize

def nodesGap (db : Database) : Int := db.nodesSize - db.dirtiesSize

def externalGap (db : Database) : Int := db.childrenSize - db.externalSize

theorem accounted_iff : db.Accounted ↔ db.nodesGap = 0 ∧ db.externalGap = 0 := by
  unfold Accounted nodesGap externalGap
  omega

/-! ## What keeps the gaps -/

def SameGaps (db db' : Database) : Prop :=
  db'.nodesGap = db.nodesGap ∧ db'.externalGap = db.externalGap

theorem SameGaps.trans {db'' : Database} (h : SameGaps db db') (h' : SameGaps db' db'') :
    SameGaps db db'' := ⟨h'.1.trans h.1, h'.2.trans h.2⟩

theorem Same.gaps (hsame : Same db db') : SameGaps db db' := by
  unfold SameGaps nodesGap externalGap
  rw [hsame.nodesSize, hsame.externalSize, hsame.dirtiesSize, hsame.childrenSize]
  exact ⟨rfl, rfl⟩

section

variable (hn : db.dirties.lookup h = some n)
include hn

theorem nodesSize_set (n' : CachedNode) :
    (db.set h n').nodesSize + nodeWeight h n = db.nodesSize + nodeWeight h n' := by
  have := total_insert nodeWeight db.dirties h n'
  rwa [valueAt_of_lookup nodeWeight hn] at this

theorem externalSize_set (n' : CachedNode) : (db.set h n').externalSize + childrenWeight h n =
      db.externalSize + childrenWeight h n' := by
  have := total_insert childrenWeight db.dirties h n'
  rwa [valueAt_of_lookup childrenWeight hn] at this

theorem sameGaps_set (n' : CachedNode) (hsize : n'.size = n.size)
    (hd : db'.dirties = (db.set h n').dirties) (hds : db'.dirtiesSize = db.dirtiesSize)
    (hcs : db'.childrenSize - db.childrenSize = childrenWeight h n' - childrenWeight h n) :
    SameGaps db db' := by
  have hnodes := nodesSize_set hn n'
  have hext := externalSize_set hn n'
  have hw : nodeWeight h n' = nodeWeight h n := by rw [nodeWeight, hsize, nodeWeight]
  have hnd : db'.nodesSize = (db.set h n').nodesSize := by rw [nodesSize, hd, nodesSize]
  have hed : db'.externalSize = (db.set h n').externalSize := by rw [externalSize, hd, externalSize]
  unfold SameGaps nodesGap externalGap
  omega

omit hn in
theorem childrenWeight_of_children {m : Counters} (hch : n.children = some m) :
    childrenWeight h n = (if h = 0 then 0 else 48) + m.len * 34 := by
  rw [childrenWeight, hch]

omit hn in
theorem sameGaps_dropChild (hn : db.dirties.lookup p = some n)
    (hok : db.dropChild c p = .ok db') : SameGaps db db' := by
  rcases dropChild_cases hn with ⟨-, heq⟩ | ⟨m, hch, hk, heq⟩ | ⟨m, k, hch, hk, heq⟩
  · obtain rfl := Except.ok.inj (heq.symm.trans hok)
    exact ⟨rfl, rfl⟩
  · obtain rfl := Except.ok.inj (heq.symm.trans hok)
    have hlen := Counters.len_erase (mem_of_lookup_eq_some hk)
    refine sameGaps_set hn { n with children := some (m.erase c) } rfl rfl rfl ?_
    rw [childrenWeight_of_children hch, childrenWeight_of_children rfl]
    show db.childrenSize - 34 - db.childrenSize = _
    omega
  obtain rfl := Except.ok.inj (heq.symm.trans hok)
  refine sameGaps_set hn { n with children := some (m.insert c (k + 1)) } rfl rfl rfl ?_
  rw [childrenWeight_of_children hch, childrenWeight_of_children rfl, Counters.len_insert,
    if_pos (mem_of_lookup_eq_some hk)]
  show db.childrenSize - db.childrenSize = _
  omega

theorem sameGaps_set_parents (k : Nat) : SameGaps db (db.set h { n with parents := k }) := by
  refine sameGaps_set hn { n with parents := k } rfl rfl rfl ?_
  show db.childrenSize - db.childrenSize = childrenWeight h n - childrenWeight h n
  omega

theorem sameGaps_forget (h0 : h ≠ 0) (hempty : ∀ m, n.children = some m → m = ∅) :
    SameGaps db (db.forget h n) := by
  have hnodes : (db.forget h n).nodesSize + (32 + n.size) = db.nodesSize :=
    nodesSize_erase hn h0 rfl
  have hext : (db.forget h n).externalSize + n.childrenCost = db.externalSize :=
    externalSize_erase hn h0 rfl
  have hds : (db.forget h n).dirtiesSize = db.dirtiesSize - (32 + n.size) := rfl
  have hcs : (db.forget h n).childrenSize = db.childrenSize - n.childrenCost := by
    unfold forget CachedNode.childrenCost
    cases hch : n.children with
    | none => simp
    | some m =>
      obtain rfl := hempty m hch
      simp [Counters.len]
  unfold SameGaps nodesGap externalGap
  omega

end

theorem released_gaps (ord : MapOrder) (db0 : Database) :
    Released ord rank fun db _ _ _ => SameGaps db0 db where
  same hi hsame := hi.trans hsame.gaps
  gone _ hi _ := hi
  keep _ hi hn _ _ := hi.trans (sameGaps_set_parents hn _)
  enter _ hi hn _ _ := hi.trans (sameGaps_set_parents hn _)
  drop hwf hi hp hok := by
    obtain ⟨n, hn⟩ := mem_iff.1 ((hwf.mem _).2 (.inr (.inr hp)))
    exact hi.trans (sameGaps_dropChild hn hok)
  leave hwf hi hn hempty := by
    refine hi.trans (sameGaps_forget hn (fun heq => hwf.zero ?_) hempty)
    simp [heq]

variable {fuel : Nat}

theorem dereferenceRoot_gaps (hwf : Wf rank db l []) (ord : MapOrder) (hfuel : ∀ h, rank h < fuel)
    (root : Hash) :
    ∃ db' l', dereferenceRoot ord fuel db root = .ok db' ∧ Wf rank db' l' [] ∧ SameGaps db db' := by
  refine dereferenceRoot_spec (released_gaps ord db) hfuel hwf root ⟨rfl, rfl⟩ ?_
  intro db1 _ hok
  obtain ⟨n, hn, -⟩ := hwf.lookup_zero
  exact sameGaps_dropChild hn hok

/-! ## The other operations -/

theorem insert_gaps (hwf : Wf rank db l []) {size : Nat} {node : RawNode} (h0 : h ≠ 0)
    (hsize : 32 + size < 2 ^ 16) (hs : ∀ c ∈ node.gatherChildren, c ≠ 0 ∧ rank c < rank h) :
    ∃ db' l', db.insert h size node = .ok db' ∧ Wf rank db' l' [] ∧ SameGaps db db' := by
  by_cases hmem : h ∈ db.dirties
  · obtain ⟨n, hn⟩ := mem_iff.1 hmem
    exact ⟨db, l, by rw [insert, hn], hwf, rfl, rfl⟩
  obtain ⟨db', f, hok, hwf', -, hds, hcs, hent, hother, -⟩ := insert_spec hwf hmem hs size
  refine ⟨db', _, hok, hwf', ?_⟩
  have hsame := sameButParents_of_inserted hother
  have hnodes := hsame.total (f := nodeWeight) fun _ _ => rfl
  have hext := hsame.total (f := childrenWeight) fun _ _ => rfl
  rw [valueAt_of_not_mem _ hmem, valueAt_entry (fun _ _ => rfl), hent] at hnodes hext
  simp only [elim_some, nodeWeight, childrenWeight, if_neg h0] at hnodes hext
  unfold SameGaps nodesGap externalGap nodesSize externalSize
  omega

theorem totals_of_referenced {child parent : Hash} {nc np : CachedNode} {m : Counters}
    (hc : db.dirties.lookup child = some nc) (hp : db.dirties.lookup parent = some np) {k : Nat}
    (hent : ∀ a, db'.entry a = if a = parent then some { np.bare with children := some m }
      else if a = child then some { nc.bare with parents := k } else db.entry a) :
    db'.nodesSize = db.nodesSize ∧ db'.externalSize + childrenWeight parent np =
      db.externalSize + ((if parent = 0 then 0 else 48) + m.len * 34) := by
  have hsame := sameButParents_of_referenced hc hent
  constructor
  · have hsum := hsame.total (f := nodeWeight) fun _ _ => rfl
    rw [valueAt_of_lookup _ hp, valueAt_entry (fun _ _ => rfl), hent parent, if_pos rfl] at hsum
    exact add_right_cancel hsum
  have hsum := hsame.total (f := childrenWeight) fun _ _ => rfl
  rw [valueAt_of_lookup _ hp, valueAt_entry (fun _ _ => rfl), hent parent, if_pos rfl] at hsum
  exact hsum

def Wrapped (db : Database) (child parent : Hash) : Prop :=
  ∃ n m k, child ∈ db.dirties ∧ db.dirties.lookup parent = some n ∧ n.children = some m ∧
    m.lookup child = some k ∧ (k + 1) % 2 ^ 16 = 1

theorem wrapped_iff {child parent : Hash} (hc : child ∈ db.dirties)
    (hp : db.dirties.lookup parent = some n) : db.Wrapped child parent ↔
      child ∈ n.children.getD ∅ ∧ (n.count child + 1) % 2 ^ 16 = 1 := by
  constructor
  · rintro ⟨n', m, k, -, hn', hm, hk, h1⟩
    obtain rfl := some.inj (hp.symm.trans hn')
    rw [CachedNode.count_of_children hm, hm, hk]
    exact ⟨mem_of_lookup_eq_some hk, h1⟩
  rintro ⟨hmem, h1⟩
  cases hm : n.children with
  | none =>
    rw [hm] at hmem
    exact absurd hmem notMem_empty
  | some m =>
    rw [hm, getD_some] at hmem
    obtain ⟨k, hk⟩ := mem_iff.1 hmem
    rw [CachedNode.count_of_children hm, hk] at h1
    exact ⟨n, m, k, hc, hp, hm, hk, h1⟩

theorem reference_gaps (hwf : Wf rank db l []) {child parent : Hash} (h0 : child ≠ 0)
    (hparent : child ∈ db.dirties → parent ∈ db.dirties)
    (hrank : parent = 0 ∨ rank child < rank parent) :
    ∃ db' l', db.reference child parent = .ok db' ∧ Wf rank db' l' [] ∧
      db'.nodesGap = db.nodesGap ∧ db.externalGap ≤ db'.externalGap ∧
      (db'.externalGap = db.externalGap ↔ ¬ db.Wrapped child parent) := by
  cases hc : db.dirties.lookup child with
  | none =>
    refine ⟨db, l, by rw [reference, hc], hwf, rfl, le_rfl, iff_of_true rfl ?_⟩
    rintro ⟨n, m, k, hmem, -⟩
    exact absurd hmem (lookup_eq_none.1 hc)
  | some nc =>
    have hmem := mem_of_lookup_eq_some hc
    obtain ⟨np, hp⟩ := mem_iff.1 (hparent hmem)
    have hs := hwf.sound_of_lookup hp
    rcases reference_spec hwf hc hp h0 hrank with ⟨hpar, hok⟩ | ⟨db', hok, hwf', -, hds, hcs, hent⟩
    · refine ⟨db, l, hok, hwf, rfl, le_rfl, iff_of_true rfl ?_⟩
      rintro ⟨n, m, k, -, hn, hm, hk, h1⟩
      obtain rfl := some.inj (hp.symm.trans hn)
      rcases (hs.ext m hm child k hk).2 with hz | ⟨rfl, -⟩
      · exact absurd hz hpar
      · exact absurd h1 (by decide)
    obtain ⟨hnodes, hext⟩ := totals_of_referenced hc hp hent
    have hweight : childrenWeight parent np + (if np.children.isSome then 0 else 48) =
        (if parent = 0 then 0 else 48) + (np.children.getD ∅).len * 34 := by
      rw [childrenWeight]
      cases hch : np.children with
      | none =>
        rw [if_neg fun hz => (hs.metaroot hz).2 hch]
        simp [Counters.len]
      | some m => simp
    refine ⟨db', l, hok, hwf', by unfold nodesGap; omega, ?_⟩
    rw [wrapped_iff hmem hp]
    unfold externalGap
    rw [Counters.len_insert] at hext
    by_cases hin : child ∈ np.children.getD ∅
    · rw [if_pos hin] at hext
      simp only [hin, true_and]
      by_cases h1 : (np.count child + 1) % 2 ^ 16 = 1
      · rw [if_pos h1] at hcs
        exact ⟨by omega, iff_of_false (by omega) (not_not.2 h1)⟩
      · rw [if_neg h1] at hcs
        exact ⟨by omega, iff_of_true (by omega) h1⟩
    have hcount : np.count child = 0 := by
      cases hch : np.children with
      | none => rw [CachedNode.count, hch]; rfl
      | some m =>
        rw [hch, getD_some] at hin
        rw [CachedNode.count_of_children hch, lookup_eq_none.2 hin]
        rfl
    rw [if_neg hin] at hext
    exact ⟨by omega, iff_of_true (by omega) fun h => hin h.1⟩

theorem childrenWeight_nonneg (h : Hash) (n : CachedNode) : 0 ≤ childrenWeight h n := by
  unfold childrenWeight
  cases n.children with
  | none => exact le_rfl
  | some m => split <;> omega

theorem commitRoot_gaps (hwf : Wf rank db l []) (ord : MapOrder) (hfuel : ∀ h, rank h < fuel)
    {root : Hash} (h0 : root ≠ 0) :
    ∃ db' l', db.commitRoot ord fuel root = .ok db' ∧ Wf rank db' l' [] ∧
      db.nodesGap ≤ db'.nodesGap ∧ db.externalGap ≤ db'.externalGap ∧
      (SameGaps db db' ↔
        ∀ h n, db.dirties.lookup h = some n → n.children ≠ none → h ∈ db'.dirties) := by
  obtain ⟨db', l', done, hok, hc, -⟩ := commitRoot_spec hwf ord hfuel h0
  refine ⟨db', l', hok, hc.wf, ?_⟩
  have hent : ∀ a, valueAt childrenWeight db'.dirties a =
      if a ∈ done then 0 else valueAt childrenWeight db.dirties a := by
    intro a
    rw [valueAt_entry (fun _ _ => rfl), valueAt_entry (fun _ _ => rfl), hc.flushed.entry]
    split <;> rfl
  have hpos : ∀ a, 0 ≤ valueAt childrenWeight db.dirties a := by
    intro a
    unfold valueAt
    cases db.dirties.lookup a with
    | none => exact le_rfl
    | some n => exact childrenWeight_nonneg a n
  have hle : ∀ a, valueAt childrenWeight db'.dirties a ≤ valueAt childrenWeight db.dirties a := by
    intro a
    rw [hent a]
    split
    · exact hpos a
    · exact le_rfl
  have hext : db'.externalSize ≤ db.externalSize := total_le hle
  have hcs := hc.childrenSize
  have hds := hc.dirtiesSize
  have hiff : SameGaps db db' ↔ db'.externalSize = db.externalSize := by
    unfold SameGaps nodesGap externalGap
    omega
  refine ⟨by unfold nodesGap; omega, by unfold externalGap; omega, hiff.trans ⟨?_, ?_⟩⟩
  · intro heq h n hn hch
    by_contra hnot
    refine absurd heq (ne_of_lt (total_lt hle (a := h) ?_))
    have hz : h ≠ 0 := fun hz => hnot ((hc.wf.mem h).2 (.inl hz))
    obtain ⟨m, hm⟩ := ne_none_iff_exists'.1 hch
    rw [valueAt_of_not_mem _ hnot, valueAt_of_lookup _ hn, childrenWeight_of_children hm, if_neg hz]
    omega
  intro hkeep
  refine total_congr fun a => ?_
  rw [hent a]
  split
  · rename_i hdone
    cases hn : db.dirties.lookup a with
    | none => rw [valueAt_of_not_mem _ (lookup_eq_none.1 hn)]
    | some n =>
      rw [valueAt_of_lookup _ hn]
      by_cases hch : n.children = none
      · rw [childrenWeight, hch]
      have hmem := hkeep a n hn hch
      rw [mem_iff_entry, hc.flushed.entry, if_pos hdone] at hmem
      cases hmem
  · rfl

/-! ## Runs -/

/-- The operations that the sizes are meant for: a node is stored under the hash of its content, so
what it refers to is of lower rank, and its size is within 16 bits together with the hash. -/
def Sizable (rank : Hash → Nat) (db : Database) : Op → Prop
  | .insert hash size node => hash ≠ 0 ∧ 32 + size < 2 ^ 16 ∧
    ∀ c ∈ node.gatherChildren, c ≠ 0 ∧ rank c < rank hash
  | .reference child parent => child ≠ 0 ∧ (child ∈ db.dirties → parent ∈ db.dirties) ∧
    (parent = 0 ∨ rank child < rank parent)
  | .dereference _ => True
  | .cap _ => True
  | .commit node => node ≠ 0

/-- The operation debits what it credited: a commit drops no entry that has a map of external
children, and a reference finds no counter that has come round to zero. -/
def Exact (db db' : Database) : Op → Prop
  | .reference child parent => ¬ db.Wrapped child parent
  | .commit _ => ∀ h n, db.dirties.lookup h = some n → n.children ≠ none → h ∈ db'.dirties
  | _ => True

def SizableRun (rank : Hash → Nat) (fuel : Nat) : Database → List (MapOrder × Op) → Prop
  | _, [] => True
  | db, op :: ops => Sizable rank db op.2 ∧
    ∀ db', step fuel db op = .ok db' → SizableRun rank fuel db' ops

def ExactRun (fuel : Nat) : Database → List (MapOrder × Op) → Prop
  | _, [] => True
  | db, op :: ops => ∀ db', step fuel db op = .ok db' → Exact db db' op.2 ∧ ExactRun fuel db' ops

theorem step_gaps (hwf : Wf rank db l []) (hfuel : ∀ h, rank h < fuel) {op : MapOrder × Op}
    (hop : Sizable rank db op.2) :
    ∃ db' l', step fuel db op = .ok db' ∧ Wf rank db' l' [] ∧ db.nodesGap ≤ db'.nodesGap ∧
      db.externalGap ≤ db'.externalGap ∧ (SameGaps db db' ↔ Exact db db' op.2) := by
  have hsame : ∀ {db' : Database}, SameGaps db db' → db.nodesGap ≤ db'.nodesGap ∧
      db.externalGap ≤ db'.externalGap ∧ (SameGaps db db' ↔ True) := fun h =>
    ⟨h.1.ge, h.2.ge, iff_true_intro h⟩
  obtain ⟨ord, op⟩ := op
  cases op with
  | insert hash size node =>
    obtain ⟨h0, hsize, hs⟩ := hop
    obtain ⟨db', l', hok, hwf', hgaps⟩ := insert_gaps hwf h0 hsize hs
    exact ⟨db', l', hok, hwf', hsame hgaps⟩
  | reference child parent =>
    obtain ⟨h0, hparent, hrank⟩ := hop
    obtain ⟨db', l', hok, hwf', hnodes, hle, hiff⟩ := reference_gaps hwf h0 hparent hrank
    exact ⟨db', l', hok, hwf', hnodes.ge, hle, (and_iff_right hnodes).trans hiff⟩
  | dereference root =>
    obtain ⟨db', l', hok, hwf', hgaps⟩ := dereferenceRoot_gaps hwf ord hfuel root
    exact ⟨db', l', hok, hwf', hsame hgaps⟩
  | cap limit =>
    obtain ⟨db', l3, l4, hok, -, hwf', -, hds, hcs⟩ := cap_spec hwf limit
    refine ⟨db', l4, hok, hwf', hsame ?_⟩
    unfold SameGaps nodesGap externalGap
    omega
  | commit root => exact commitRoot_gaps hwf ord hfuel hop

theorem run_gaps (hfuel : ∀ h, rank h < fuel) :
    ∀ {ops : List (MapOrder × Op)} {db : Database} {l : List Hash}, Wf rank db l [] →
      SizableRun rank fuel db ops → ∃ db' l', run (step fuel) db ops = .ok db' ∧
        Wf rank db' l' [] ∧ db.nodesGap ≤ db'.nodesGap ∧ db.externalGap ≤ db'.externalGap ∧
        (SameGaps db db' ↔ ExactRun fuel db ops) := by
  intro ops
  induction ops with
  | nil => exact fun {db l} hwf _ => ⟨db, l, rfl, hwf, le_rfl, le_rfl, iff_true_intro ⟨rfl, rfl⟩⟩
  | cons op ops ih =>
    intro db l hwf ⟨hop, hops⟩
    obtain ⟨db1, l1, hok1, hwf1, hn1, he1, hiff1⟩ := step_gaps hwf hfuel hop
    obtain ⟨db2, l2, hok2, hwf2, hn2, he2, hiff2⟩ := ih hwf1 (hops db1 hok1)
    refine ⟨db2, l2, run_cons_ok.2 ⟨db1, hok1, hok2⟩, hwf2, hn1.trans hn2, he1.trans he2, ?_⟩
    -- the gaps only grow, so nothing is lost in the run when nothing is lost in either part
    have hsplit : SameGaps db db2 ↔ SameGaps db db1 ∧ SameGaps db1 db2 := by
      unfold SameGaps
      omega
    rw [hsplit, hiff1, hiff2]
    constructor
    · rintro ⟨h, hrest⟩ db' hok'
      obtain rfl := Except.ok.inj (hok1.symm.trans hok')
      exact ⟨h, hrest⟩
    · exact fun h => h db1 hok1

theorem new_accounted (disk : Finmap fun _ : Hash => RawNode) : (new disk).Accounted := by
  have htotal : ∀ {f : Hash → CachedNode → Int},
      f 0 { node := .nil, size := 0, children := some ∅ } = 0 →
      total f (new disk).dirties = 0 := by
    intro f hf
    have hsum := total_insert f (∅ : Finmap fun _ : Hash => CachedNode) 0
      { node := .nil, size := 0, children := some ∅ }
    rw [valueAt_of_not_mem f notMem_empty, hf, add_zero] at hsum
    exact hsum.trans (by simp [total])
  exact ⟨(htotal (f := nodeWeight) rfl).symm, (htotal (f := childrenWeight) rfl).symm⟩

end Database

end Virbicoin.Mpt
