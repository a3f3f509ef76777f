import Mathlib.Data.Finmap
import Mathlib.Data.Finset.Sort
import Virbicoin.Lib.Linked
import Virbicoin.Trie.DecodeNode

/-!
# The trie database

`trie/database.go`: a cache of new trie nodes in front of the disk. A cached node counts its parents
and may have external children, the roots of storage tries. Entries are threaded on a flush list in
the order of their insertion, and a pseudo entry under the zero hash, the metaroot, holds the
references to the roots in use.

All disk writes succeed here. The database is one without a clean cache. Go ranges over a map in
any order, which is a parameter of an operation (`MapOrder`).
-/

namespace Virbicoin.Mpt

open Virbicoin.Lib

/-- The hash children of a collapsed node (`forGatherChildren`), those of embedded nodes included.
-/
def RawNode.gatherChildren : RawNode → List Hash
  | .nil => []
  | .value _ => []
  | .hash h => [h]
  | .short _ val => val.gatherChildren
  | .full ch => childIndices.flatMap fun i => (ch i).gatherChildren

abbrev Counters := Finmap fun _ : Hash => Nat

def Counters.len (m : Counters) : Nat := m.keys.card

structure CachedNode where
  node : RawNode
  /-- `uint16` -/
  size : Nat
  /-- `uint32` -/
  parents : Nat := 0
  /-- The external children, with `uint16` counters. -/
  children : Option Counters := none
  flushPrev : Hash := 0
  flushNext : Hash := 0

def CachedNode.childrenCost (n : CachedNode) : Int :=
  match n.children with
  | some m => 48 + m.len * 34
  | none => 0

/-- An order in which the children of an entry are ranged over. -/
structure MapOrder where
  order : Hash → Counters → List Hash
  nodup : ∀ h m, (order h m).Nodup
  mem_iff : ∀ h m c, c ∈ order h m ↔ c ∈ m

def MapOrder.increasing : MapOrder where
  order _ m := ((m.keys.image BitVec.toNat).sort (· ≤ ·)).map (BitVec.ofNat 256)
  nodup _ m := by
    refine List.Nodup.map_on ?_ (Finset.sort_nodup _ _)
    intro a ha b hb hab
    simp only [Finset.mem_sort, Finset.mem_image] at ha hb
    obtain ⟨x, -, rfl⟩ := ha
    obtain ⟨y, -, rfl⟩ := hb
    simpa using congrArg BitVec.toNat hab
  mem_iff _ m c := by
    simp only [List.mem_map, Finset.mem_sort, Finset.mem_image, Finmap.mem_keys]
    constructor
    · rintro ⟨a, ⟨x, hx, rfl⟩, rfl⟩
      simpa using hx
    · exact fun hc => ⟨c.toNat, ⟨c, hc, rfl⟩, by simp⟩

/-- `forChilds`: the external children and the children inside the node. -/
def CachedNode.childs (ord : MapOrder) (h : Hash) (n : CachedNode) : List Hash :=
  (match n.children with
    | some m => ord.order h m
    | none => []) ++ n.node.gatherChildren

/-- The disk is described by the nodes whose encodings it holds. `StorageSize` is a floating point
number whose values are integers. -/
structure Database where
  disk : Finmap fun _ : Hash => RawNode
  dirties : Finmap fun _ : Hash => CachedNode
  oldest : Hash
  newest : Hash
  dirtiesSize : Int
  childrenSize : Int

namespace Database

def new (disk : Finmap fun _ : Hash => RawNode) : Database where
  disk := disk
  dirties := (∅ : Finmap fun _ : Hash => CachedNode).insert 0
    { node := .nil, size := 0, children := some ∅ }
  oldest := 0
  newest := 0
  dirtiesSize := 0
  childrenSize := 0

def set (db : Database) (h : Hash) (n : CachedNode) : Database :=
  { db with dirties := db.dirties.insert h n }

/-- A change of an entry through its pointer, which must not be nil. -/
def modify (db : Database) (h : Hash) (f : CachedNode → CachedNode) : Except Err Database :=
  match db.dirties.lookup h with
  | some n => .ok (db.set h (f n))
  | none => .error .panic

/-! ## Inserting -/

def addParent (db : Database) (child : Hash) : Database :=
  match db.dirties.lookup child with
  | some c => db.set child { c with parents := (c.parents + 1) % 2 ^ 32 }
  | none => db

def pushFlush (db : Database) (hash : Hash) : Except Err Database :=
  if db.oldest = 0 then .ok { db with oldest := hash, newest := hash }
  else do
    let db ← db.modify db.newest fun n => { n with flushNext := hash }
    .ok { db with newest := hash }

/-- `insert`. The size counted for the entry is the sum of two `uint16`s. -/
def insert (db : Database) (hash : Hash) (size : Nat) (node : RawNode) : Except Err Database :=
  match db.dirties.lookup hash with
  | some _ => .ok db
  | none => do
    let entry : CachedNode := { node, size := size % 2 ^ 16, flushPrev := db.newest }
    let db := node.gatherChildren.foldl addParent db
    let db ← (db.set hash entry).pushFlush hash
    .ok { db with dirtiesSize := db.dirtiesSize + ((32 + entry.size) % 2 ^ 16 : Nat) }

/-! ## References -/

def addReference (db : Database) (child parent : Hash) : Except Err Database := do
  let db := db.addParent child
  match db.dirties.lookup parent with
  | none => .error .panic
  | some p =>
    match p.children with
    | none => .error .panic
    | some m =>
      let count := ((m.lookup child).getD 0 + 1) % 2 ^ 16
      let db := db.set parent { p with children := some (m.insert child count) }
      .ok (if count = 1 then { db with childrenSize := db.childrenSize + 34 } else db)

/-- `reference`. A reference that exists is duplicated for roots only. -/
def reference (db : Database) (child parent : Hash) : Except Err Database :=
  match db.dirties.lookup child with
  | none => .ok db
  | some _ =>
    match db.dirties.lookup parent with
    | none => .error .panic
    | some p =>
      match p.children with
      | none => addReference { db.set parent { p with children := some ∅ } with
          childrenSize := db.childrenSize + 48 } child parent
      | some m => if child ∈ m ∧ parent ≠ 0 then .ok db else db.addReference child parent

def dropChild (db : Database) (child parent : Hash) : Except Err Database :=
  match db.dirties.lookup parent with
  | none => .error .panic
  | some p =>
    match p.children with
    | none => .ok db
    | some m =>
      let count := (m.lookup child).getD 0
      if count = 0 then .ok db
      else if count - 1 = 0 then
        .ok { db.set parent { p with children := some (m.erase child) } with
          childrenSize := db.childrenSize - 34 }
      else .ok (db.set parent { p with children := some (m.insert child (count - 1)) })

def unlink (db : Database) (hash : Hash) (node : CachedNode) : Except Err Database :=
  if hash = db.oldest then
    { db with oldest := node.flushNext }.modify node.flushNext fun n => { n with flushPrev := 0 }
  else if hash = db.newest then
    { db with newest := node.flushPrev }.modify node.flushPrev fun n => { n with flushNext := 0 }
  else do
    let db ← db.modify node.flushPrev fun n => { n with flushNext := node.flushNext }
    db.modify node.flushNext fun n => { n with flushPrev := node.flushPrev }

def forget (db : Database) (hash : Hash) (node : CachedNode) : Database :=
  { db with
    dirties := db.dirties.erase hash
    dirtiesSize := db.dirtiesSize - (32 + node.size)
    childrenSize := db.childrenSize - if node.children.isSome then 48 else 0 }

/-- `dereference`, with fuel for the depth of the recursion. -/
def dereference (ord : MapOrder) : Nat → Hash → Hash → Database → Except Err Database
  | 0, _, _, _ => .error .outOfFuel
  | fuel + 1, child, parent, db => do
    let db ← db.dropChild child parent
    match db.dirties.lookup child with
    | none => .ok db
    | some node =>
      -- an entry without parents stays without
      let node := { node with parents := node.parents - 1 }
      let db := db.set child node
      if node.parents ≠ 0 then .ok db
      else do
        let db ← db.unlink child node
        let db ← (node.childs ord child).foldlM (fun db c => dereference ord fuel c child db) db
        .ok (db.forget child node)

def dereferenceRoot (ord : MapOrder) (fuel : Nat) (db : Database) (root : Hash) :
    Except Err Database :=
  if root = 0 then .ok db else dereference ord fuel root 0 db

/-! ## Flushing -/

def cachedNodeSize : Int := 96

/-- The memory that `Cap` counts for the whole cache. -/
def totalSize (db : Database) : Int :=
  db.dirtiesSize + (db.dirties.keys.card - 1) * cachedNodeSize +
    (db.childrenSize - (match (db.dirties.lookup 0).bind CachedNode.children with
      | some m => m.len
      | none => 0) * 34)

/-- The first loop of `Cap`: from `oldest` on nodes are written to disk until the size is within the
limit. It returns the disk and the entry at which it stopped. -/
def capWrite (dirties : Finmap fun _ : Hash => CachedNode) (limit : Int) :
    Nat → Int → Hash → (Finmap fun _ : Hash => RawNode) →
      Except Err ((Finmap fun _ : Hash => RawNode) × Hash)
  | 0, size, oldest, disk =>
    if size > limit ∧ oldest ≠ 0 then .error .outOfFuel else .ok (disk, oldest)
  | fuel + 1, size, oldest, disk =>
    if size > limit ∧ oldest ≠ 0 then
      match dirties.lookup oldest with
      | none => .error .panic
      | some node =>
        capWrite dirties limit fuel (size - (32 + node.size + cachedNodeSize) - node.childrenCost)
          node.flushNext (disk.insert oldest node.node)
    else .ok (disk, oldest)

/-- The second loop of `Cap`: what was written is dropped. -/
def capDrop (stop : Hash) : Nat → Database → Except Err Database
  | 0, db => if db.oldest ≠ stop then .error .outOfFuel else .ok db
  | fuel + 1, db =>
    if db.oldest ≠ stop then
      match db.dirties.lookup db.oldest with
      | none => .error .panic
      | some node =>
        capDrop stop fuel { db with
          dirties := db.dirties.erase db.oldest
          oldest := node.flushNext
          dirtiesSize := db.dirtiesSize - (32 + node.size)
          childrenSize := db.childrenSize - node.childrenCost }
    else .ok db

/-- `Cap`. The number of entries bounds the rounds of the loops. -/
def cap (db : Database) (limit : Int) : Except Err Database := do
  let (disk, stop) ← capWrite db.dirties limit db.dirties.keys.card db.totalSize db.oldest db.disk
  let db ← capDrop stop db.dirties.keys.card { db with disk }
  if db.oldest ≠ 0 then db.modify db.oldest fun n => { n with flushPrev := 0 } else .ok db

/-! ## Committing -/

/-- The writes collected for the disk, the last one first. -/
abbrev Batch := List (Hash × RawNode)

def valueSize (batch : Batch) : Nat := (batch.map fun w => w.2.encode.length).sum

def write (db : Database) (batch : Batch) : Database :=
  { db with disk := batch.foldr (fun w disk => disk.insert w.1 w.2) db.disk }

/-- `cleaner.Put`: an entry that was written is dropped. The size of its external children is taken
off the size of the nodes. -/
def put (db : Database) (hash : Hash) : Except Err Database :=
  match db.dirties.lookup hash with
  | none => .ok db
  | some node => do
    let db ← db.unlink hash node
    .ok { db with
      dirties := db.dirties.erase hash
      dirtiesSize := db.dirtiesSize - (32 + node.size) - node.childrenCost }

def replay (db : Database) (batch : Batch) : Except Err Database :=
  batch.reverse.foldlM (fun db w => db.put w.1) db

def idealBatchSize : Nat := 100 * 1024

/-- `commit`, with fuel for the depth of the recursion. -/
def commit (ord : MapOrder) : Nat → Hash → Database × Batch → Except Err (Database × Batch)
  | 0, _, _ => .error .outOfFuel
  | fuel + 1, hash, (db, batch) =>
    match db.dirties.lookup hash with
    | none => .ok (db, batch)
    | some node => do
      let (db, batch) ← (node.childs ord hash).foldlM (fun s c => commit ord fuel c s) (db, batch)
      let batch := (hash, node.node) :: batch
      if valueSize batch ≥ idealBatchSize then do
        let db ← (db.write batch).replay batch
        .ok (db, [])
      else .ok (db, batch)

def commitRoot (ord : MapOrder) (fuel : Nat) (db : Database) (node : Hash) :
    Except Err Database := do
  let (db, batch) ← commit ord fuel node (db, [])
  (db.write batch).replay batch

/-! ## Runs -/

inductive Op where
  | insert (hash : Hash) (size : Nat) (node : RawNode)
  | reference (child parent : Hash)
  | dereference (root : Hash)
  | cap (limit : Int)
  | commit (node : Hash)

def step (fuel : Nat) (db : Database) (op : MapOrder × Op) : Except Err Database :=
  match op.2 with
  | .insert hash size node => db.insert hash size node
  | .reference child parent => db.reference child parent
  | .dereference root => db.dereferenceRoot op.1 fuel root
  | .cap limit => db.cap limit
  | .commit node => db.commitRoot op.1 fuel node

end Database

end Virbicoin.Mpt
