import Mathlib.Data.Finmap
import Mathlib.Data.Finset.Union
import Virbicoin.Core.Types

/-!
# The snapshot tree

`core/state/snapshot/snapshot.go` and `difflayer.go`: `Tree.Update` puts a diff layer over the layer
of the parent's root. A layer reads its own data or asks its parent. A bloom filter over the data of
all layers down to the disk tells it when to ask the disk at once, and as nothing below is missing
in the filter (`Layer.Sound`) a layer reads the same with it as without (`Sound.read_eq`).

`Update` asserts that the parent is a `snapshot` before it compares it with nil. A missing parent is
a nil interface, and the call panics.

The disk layer is what it returns for each key. The layers of a tree refine a map of flat states
(`foldlM_step_flat`).
-/

namespace Virbicoin.Snapshot

abbrev Bytes := List (BitVec 8)

inductive SnapshotError where
  | snapshotStale
  | notCoveredYet
  | snapshotCycle
  | parentMissing (root : Hash)

/-- What is asked of `AccountRLP` and `Storage`. -/
inductive Key where
  | account (hash : Hash)
  | storage (accountHash storageHash : Hash)

def Key.owner : Key → Hash
  | .account hash => hash
  | .storage accountHash _ => accountHash

/-- What a layer returns, `none` for nil. -/
abbrev Reader := Key → Except SnapshotError (Option Bytes)

/-! ## Bloom filters -/

/-- The offsets drawn at the start, and the bits that the filter sets for a hash of 64 bits. -/
structure Bloom where
  destructOffset : Fin 25
  accountOffset : Fin 25
  storageOffset : Fin 25
  bits : BitVec 64 → Finset Nat

namespace Bloom

def sum64 (offset : Fin 25) (hash : Hash) : BitVec 64 := hash.extractLsb' (8 * (24 - offset)) 64

def destruct (b : Bloom) (hash : Hash) : Finset Nat := b.bits (sum64 b.destructOffset hash)

def key (b : Bloom) : Key → Finset Nat
  | .account hash => b.bits (sum64 b.accountOffset hash)
  | .storage accountHash storageHash =>
    b.bits (sum64 b.storageOffset accountHash ^^^ sum64 b.storageOffset storageHash)

def hit (b : Bloom) (diffed : Finset Nat) (k : Key) : Prop :=
  b.key k ⊆ diffed ∨ b.destruct k.owner ⊆ diffed

instance (b : Bloom) (diffed : Finset Nat) (k : Key) : Decidable (b.hit diffed k) :=
  inferInstanceAs (Decidable (_ ∨ _))

end Bloom

/-! ## Diffs -/

/-- The maps of an update. A nil map of slots is `none`, and so are nil data. -/
structure Diff where
  destructs : Finset Hash
  accounts : Finmap fun _ : Hash => Option Bytes
  storage : Finmap fun _ : Hash => Option (Finmap fun _ : Hash => Option Bytes)

namespace Diff

def slots (d : Diff) (accountHash : Hash) : Finmap fun _ : Hash => Option Bytes :=
  (d.storage.lookup accountHash).join.getD ∅

def find (d : Diff) : Key → Option (Option Bytes)
  | .account hash => d.accounts.lookup hash
  | .storage accountHash storageHash => (d.slots accountHash).lookup storageHash

/-- The sanity check of `newDiffLayer` fails. -/
def hasNil (d : Diff) : Prop :=
  (∃ hash ∈ d.accounts.keys, d.accounts.lookup hash = some none) ∨
    ∃ hash ∈ d.storage.keys, d.storage.lookup hash = some none

instance (d : Diff) : Decidable d.hasNil := inferInstanceAs (Decidable (_ ∨ _))

/-- The bits that `rebloom` adds. -/
def bits (b : Bloom) (d : Diff) : Finset Nat :=
  d.destructs.biUnion b.destruct ∪ d.accounts.keys.biUnion (fun hash => b.key (.account hash)) ∪
    d.storage.keys.biUnion fun accountHash =>
      (d.slots accountHash).keys.biUnion fun storageHash => b.key (.storage accountHash storageHash)

/-- The diff applied on what is below: what it has, nothing of destructed accounts, else the same
as before. -/
def apply (d : Diff) (below : Reader) : Reader := fun k =>
  match d.find k with
  | some blob => .ok blob
  | none => if k.owner ∈ d.destructs then .ok none else below k

variable {b : Bloom} {d : Diff} {k : Key}

theorem key_subset_bits {blob : Option Bytes} (h : d.find k = some blob) : b.key k ⊆ d.bits b := by
  intro i hi
  cases k with
  | account hash =>
    have hmem := Finmap.mem_keys.2 (Finmap.mem_of_lookup_eq_some h)
    exact Finset.mem_union_left _ (Finset.mem_union_right _ (Finset.mem_biUnion.2 ⟨hash, hmem, hi⟩))
  | storage accountHash storageHash =>
    have hslot := Finmap.mem_keys.2 (Finmap.mem_of_lookup_eq_some h)
    have hmem : accountHash ∈ d.storage.keys := by
      rw [Finmap.mem_keys]
      by_contra hnot
      simp [find, slots, Finmap.lookup_eq_none.2 hnot] at h
    exact Finset.mem_union_right _ (Finset.mem_biUnion.2
      ⟨accountHash, hmem, Finset.mem_biUnion.2 ⟨storageHash, hslot, hi⟩⟩)

theorem destruct_subset_bits {hash : Hash} (h : hash ∈ d.destructs) :
    b.destruct hash ⊆ d.bits b := fun _ hi =>
  Finset.mem_union_left _ (Finset.mem_union_left _ (Finset.mem_biUnion.2 ⟨hash, h, hi⟩))

end Diff

/-! ## Layers -/

inductive Layer where
  | disk (read : Reader)
  | diff (parent : Layer) (origin : Reader) (root : Hash) (stale : Bool) (data : Diff)
      (diffed : Finset Nat)

namespace Layer

def origin : Layer → Reader
  | .disk read => read
  | .diff _ origin _ _ _ _ => origin

def diffed : Layer → Finset Nat
  | .disk _ => ∅
  | .diff _ _ _ _ _ diffed => diffed

/-- `accountRLP` and `storage`, which do not look at the filter. -/
def walk : Layer → Reader
  | .disk read, k => read k
  | .diff parent _ _ stale data _, k =>
    if stale then .error .snapshotStale
    else match data.find k with
      | some blob => .ok blob
      | none => if k.owner ∈ data.destructs then .ok none else parent.walk k

/-- `AccountRLP` and `Storage`. -/
def read (b : Bloom) : Layer → Reader
  | .disk read, k => read k
  | .diff parent origin root stale data diffed, k =>
    if b.hit diffed k then (Layer.diff parent origin root stale data diffed).walk k else origin k

/-- The layers down to the disk are live, have its reader for their bloom misses, and all their data
are in the filter. -/
inductive Sound (b : Bloom) : Layer → Prop
  | disk (read : Reader) : Sound b (.disk read)
  | diff {parent : Layer} {data : Diff} {diffed : Finset Nat} (h : Sound b parent) (root : Hash)
      (hd : parent.diffed ∪ data.bits b ⊆ diffed) :
      Sound b (.diff parent parent.origin root false data diffed)

variable {b : Bloom} {l : Layer} {k : Key}

theorem Sound.walk_of_miss (h : l.Sound b) (hk : ¬ b.hit l.diffed k) : l.walk k = l.origin k := by
  induction h with
  | disk read => rfl
  | diff h root hd ih =>
    rename_i parent data diffed
    have hbits := Finset.union_subset_iff.1 hd
    have hfind : data.find k = none := by
      by_contra hne
      obtain ⟨blob, hblob⟩ := Option.ne_none_iff_exists'.1 hne
      exact hk (.inl ((Diff.key_subset_bits hblob).trans hbits.2))
    have howner : k.owner ∉ data.destructs := fun hmem =>
      hk (.inr ((Diff.destruct_subset_bits hmem).trans hbits.2))
    simp only [walk, Bool.false_eq_true, if_false, hfind, if_neg howner]
    exact ih fun hhit => hk (hhit.imp (·.trans hbits.1) (·.trans hbits.1))

theorem Sound.read_eq (h : l.Sound b) : l.read b k = l.walk k := by
  cases h with
  | disk read => rfl
  | diff h root hd =>
    rename_i parent data diffed
    by_cases hhit : b.hit diffed k
    · exact if_pos hhit
    · exact (if_neg hhit).trans ((h.diff root hd).walk_of_miss hhit).symm

end Layer

/-! ## Updates -/

/-- A layer of a tree. -/
abbrev Live (b : Bloom) := {l : Layer // l.Sound b}

variable {b : Bloom}

/-- `newDiffLayer` with its call of `rebloom`, which panics on nil data. -/
def newDiffLayer (parent : Live b) (root : Hash) (d : Diff) : Option (Live b) :=
  if d.hasNil then none
  else some ⟨.diff parent.1 parent.1.origin root false d (parent.1.diffed ∪ d.bits b),
    .diff parent.2 root subset_rfl⟩

theorem newDiffLayer_read {parent snap : Live b} {root : Hash} {d : Diff}
    (h : newDiffLayer parent root d = some snap) :
    snap.1.read b = d.apply (parent.1.read b) := by
  unfold newDiffLayer at h
  split at h
  · cases h
  cases h
  funext k
  rw [Layer.Sound.read_eq (.diff parent.2 root subset_rfl), Diff.apply, parent.2.read_eq]
  rfl

structure Tree (b : Bloom) where
  layers : Finmap fun _ : Hash => Live b

namespace Tree

def snapshot (t : Tree b) (root : Hash) : Option (Live b) := t.layers.lookup root

/-- The assertion of an interface type, which panics on a nil interface. -/
def assertSnapshot (s : Option (Live b)) : Option (Option (Live b)) := s.map some

/-- `Tree.Update`, `none` when it panics. -/
def update (t : Tree b) (blockRoot parentRoot : Hash) (d : Diff) :
    Option (Option SnapshotError × Tree b) :=
  if blockRoot = parentRoot then some (some .snapshotCycle, t)
  else do
    let parent ← assertSnapshot (t.snapshot parentRoot)
    match parent with
    | none => some (some (.parentMissing parentRoot), t)
    | some parent =>
      let snap ← newDiffLayer parent blockRoot d
      some (none, ⟨t.layers.insert blockRoot snap⟩)

/-- The call does not panic. It fails and keeps the layers if and only if the roots are the same or
the parent is missing; otherwise the new layer reads as the diff applied on the parent. -/
def Clean (t : Tree b) (blockRoot parentRoot : Hash) (d : Diff) : Prop :=
  ∃ err t', t.update blockRoot parentRoot d = some (err, t') ∧
    (err ≠ none ∧ t'.layers = t.layers ↔ blockRoot = parentRoot ∨ parentRoot ∉ t.layers) ∧
    (blockRoot ≠ parentRoot → ∀ parent, t.snapshot parentRoot = some parent →
      ∃ snap, t'.snapshot blockRoot = some snap ∧ snap.1.read b = d.apply (parent.1.read b))

/-- **`Update` fails cleanly if and only if the roots are the same, or the parent is there and no
data are nil.** -/
theorem update_clean_iff (t : Tree b) (blockRoot parentRoot : Hash) (d : Diff) :
    t.Clean blockRoot parentRoot d ↔
      blockRoot = parentRoot ∨ parentRoot ∈ t.layers ∧ ¬ d.hasNil := by
  by_cases hroot : blockRoot = parentRoot
  · refine iff_of_true ⟨_, t, if_pos hroot, ?_, fun hne => absurd hroot hne⟩ (.inl hroot)
    exact iff_of_true ⟨nofun, rfl⟩ (.inl hroot)
  cases hparent : t.layers.lookup parentRoot with
  | none =>
    refine iff_of_false ?_ fun h => Finmap.lookup_eq_none.1 hparent (h.resolve_left hroot).1
    rintro ⟨err, t', hok, -⟩
    simp [update, hroot, snapshot, hparent, assertSnapshot] at hok
  | some parent =>
    have hmem : parentRoot ∈ t.layers := Finmap.mem_of_lookup_eq_some hparent
    by_cases hnil : d.hasNil
    · refine iff_of_false ?_ fun h => (h.resolve_left hroot).2 hnil
      rintro ⟨err, t', hok, -⟩
      simp [update, hroot, snapshot, hparent, assertSnapshot, newDiffLayer, hnil] at hok
    obtain ⟨snap, hnew⟩ : ∃ snap, newDiffLayer parent blockRoot d = some snap := ⟨_, if_neg hnil⟩
    refine iff_of_true ⟨none, ⟨t.layers.insert blockRoot snap⟩, ?_, ?_, fun _ p hp => ?_⟩
      (.inr ⟨hmem, hnil⟩)
    · simp [update, hroot, snapshot, hparent, assertSnapshot, hnew]
    · exact iff_of_false (fun h => h.1 rfl) fun h => h.elim hroot (· hmem)
    obtain rfl : parent = p := Option.some.inj (hparent.symm.trans hp)
    exact ⟨snap, Finmap.lookup_insert _, newDiffLayer_read hnew⟩

/-- A tree that has a disk layer only panics when the parent is another root. -/
theorem update_missing_parent :
    ¬ (⟨Finmap.insert 0 ⟨.disk fun _ => .ok none, .disk _⟩ ∅⟩ : Tree ⟨0, 1, 2, fun _ => ∅⟩).Clean
      2 1 ⟨∅, ∅, ∅⟩ := by
  rintro ⟨err, t', hok, -⟩
  simp [update, snapshot, assertSnapshot, Finmap.lookup_insert_of_ne] at hok

/-! ## Runs of updates -/

/-- The states of the roots, without layers and filters. -/
abbrev Flat := Hash → Option Reader

structure Update where
  blockRoot : Hash
  parentRoot : Hash
  diff : Diff

def Flat.step (f : Flat) (u : Update) : Option Flat :=
  if u.blockRoot = u.parentRoot then some f
  else if u.diff.hasNil then none
  else (f u.parentRoot).map fun below =>
    Function.update f u.blockRoot (some (u.diff.apply below))

def step (t : Tree b) (u : Update) : Option (Tree b) :=
  (t.update u.blockRoot u.parentRoot u.diff).map (·.2)

def flat (t : Tree b) : Flat := fun root => (t.snapshot root).map fun snap => snap.1.read b

theorem flat_insert (t : Tree b) (root : Hash) (snap : Live b) :
    flat ⟨t.layers.insert root snap⟩ = Function.update t.flat root (some (snap.1.read b)) := by
  funext r
  unfold flat snapshot
  by_cases h : r = root
  · rw [h, Finmap.lookup_insert, Function.update_self]
    rfl
  · rw [Finmap.lookup_insert_of_ne _ h, Function.update_of_ne h]

theorem step_flat (t : Tree b) (u : Update) : (t.step u).map flat = t.flat.step u := by
  unfold step update Flat.step
  by_cases hroot : u.blockRoot = u.parentRoot
  · simp [hroot]
  rw [if_neg hroot, if_neg hroot]
  cases hparent : t.snapshot u.parentRoot with
  | none => simp [assertSnapshot, flat, hparent]
  | some parent =>
    by_cases hnil : u.diff.hasNil
    · simp [assertSnapshot, newDiffLayer, hnil]
    obtain ⟨snap, hnew⟩ : ∃ snap, newDiffLayer parent u.blockRoot u.diff = some snap :=
      ⟨_, if_neg hnil⟩
    have hread : t.flat u.parentRoot = some (parent.1.read b) := by rw [flat, hparent]; rfl
    simp [assertSnapshot, hnew, flat_insert, newDiffLayer_read hnew, hnil, hread]

/-- **The layers of a tree are flat states**: after any updates each of them reads as the diffs
applied in order from the layer at the start. -/
theorem foldlM_step_flat (t : Tree b) (us : List Update) :
    (us.foldlM step t).map flat = us.foldlM Flat.step t.flat := by
  induction us generalizing t with
  | nil => rfl
  | cons u us ih =>
    rw [List.foldlM_cons, List.foldlM_cons, ← step_flat]
    cases t.step u with
    | none => rfl
    | some t' => exact ih t'

end Tree

end Virbicoin.Snapshot
