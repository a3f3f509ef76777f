import Mathlib.Data.Fintype.Basic
import Virbicoin.P2p.Netutil

/-!
# Node table

`p2p/discover/table.go`: buckets of nodes by their distance, each with replacements for its entries,
and the counts of addresses per network that limit both. The table is modelled by what its
operations do under the mutex. The random choice of a replacement is an argument of `replace`. The
node that `doRevalidate` works with was picked before the mutex was taken, so it is an argument too.
-/

namespace Virbicoin.Discover

open Virbicoin.Lib Virbicoin.Netutil

abbrev ID := BitVec 256

def bucketSize : Nat := 16
def maxReplacements : Nat := 10
def hashBits : Nat := 256
def nBuckets : Nat := hashBits / 15
def bucketMinDistance : Nat := hashBits - nBuckets
def bucketIPLimit : Nat := 2
def bucketSubnet : Nat := 24
def tableIPLimit : Nat := 10
def tableSubnet : Nat := 24

structure Node where
  id : ID
  ip : IP
  livenessChecks : Nat := 0
  deriving DecidableEq

structure Bucket where
  entries : List Node
  replacements : List Node
  ips : DistinctNetSet

structure Table where
  self : ID
  initDone : Bool
  buckets : Fin nBuckets → Bucket
  ips : DistinctNetSet

def newBucket : Bucket := ⟨[], [], ⟨bucketSubnet, bucketIPLimit, fun _ => 0⟩⟩

/-- `newTable`, without its seed nodes. -/
def newTable (self : ID) : Table :=
  ⟨self, false, fun _ => newBucket, ⟨tableSubnet, tableIPLimit, fun _ => 0⟩⟩

/-! ## Lists of nodes -/

def pushNode (list : List Node) (n : Node) (max : Nat) : List Node × Option Node :=
  if list.length < max then (n :: list, none) else (n :: list.dropLast, list.getLast?)

def deleteNode (list : List Node) (n : Node) : List Node := list.eraseP (·.id = n.id)

/-! ## Buckets -/

/-- The position of the highest bit in which the two differ, from one on; zero if they do not. -/
def logDist (a b : ID) : Nat :=
  if (a ^^^ b).toNat = 0 then 0 else Nat.log2 (a ^^^ b).toNat + 1

theorem logDist_le (a b : ID) : logDist a b ≤ hashBits := by
  unfold logDist hashBits
  split
  · exact Nat.zero_le _
  rename_i h
  exact (Nat.log2_lt h).2 (a ^^^ b).isLt

def bucketAtDistance (d : Nat) (h : d ≤ hashBits) : Fin nBuckets :=
  if d ≤ bucketMinDistance then ⟨0, by decide⟩
  else ⟨d - bucketMinDistance - 1, by
    simp only [bucketMinDistance, nBuckets, hashBits] at *
    omega⟩

namespace Table

def bucket (tab : Table) (id : ID) : Fin nBuckets :=
  bucketAtDistance (logDist tab.self id) (logDist_le _ _)

def setBucket (tab : Table) (i : Fin nBuckets) (b : Bucket) : Table :=
  { tab with buckets := Function.update tab.buckets i b }

def setNodes (tab : Table) (i : Fin nBuckets) (entries replacements : List Node) : Table :=
  tab.setBucket i { tab.buckets i with entries, replacements }

def setIPs (tab : Table) (i : Fin nBuckets) (ips bucketIPs : DistinctNetSet) : Table :=
  { tab.setBucket i { tab.buckets i with ips := bucketIPs } with ips }

/-! ## Addresses -/

def addIP (tab : Table) (i : Fin nBuckets) (ip : IP) : Table × Bool :=
  if ip = [] then (tab, false)
  else if isLAN ip then (tab, true)
  else
    match tab.ips.add ip with
    | none => (tab, false)
    | some ips =>
      match (tab.buckets i).ips.add ip with
      | none => ({ tab with ips := ips.remove ip }, false)
      | some bucketIPs => (tab.setIPs i ips bucketIPs, true)

def removeIP (tab : Table) (i : Fin nBuckets) (ip : IP) : Table :=
  if isLAN ip then tab else tab.setIPs i (tab.ips.remove ip) ((tab.buckets i).ips.remove ip)

def removeOld (tab : Table) (i : Fin nBuckets) : Option Node → Table
  | none => tab
  | some n => tab.removeIP i n.ip

/-! ## Changing a bucket -/

def contains (ns : List Node) (id : ID) : Bool := ns.any (·.id = id)

def addReplacement (tab : Table) (i : Fin nBuckets) (n : Node) : Table :=
  if contains (tab.buckets i).replacements n.id then tab
  else
    match tab.addIP i n.ip with
    | (tab, false) => tab
    | (tab, true) =>
      (tab.setNodes i (tab.buckets i).entries
        (pushNode (tab.buckets i).replacements n maxReplacements).1).removeOld i
          (pushNode (tab.buckets i).replacements n maxReplacements).2

def deleteInBucket (tab : Table) (i : Fin nBuckets) (n : Node) : Table :=
  (tab.setNodes i (deleteNode (tab.buckets i).entries n) (tab.buckets i).replacements).removeIP i
    n.ip

/-- `replace`, with the random number that picks the replacement. -/
def replace (tab : Table) (i : Fin nBuckets) (last : Node) (pick : Nat) : Table :=
  match (tab.buckets i).entries.getLast? with
  | none => tab
  | some e =>
    if e.id ≠ last.id then tab
    else
      match (tab.buckets i).replacements[pick % (tab.buckets i).replacements.length]? with
      | none => tab.deleteInBucket i last
      | some r =>
        (tab.setNodes i ((tab.buckets i).entries.dropLast ++ [r])
          (deleteNode (tab.buckets i).replacements r)).removeIP i last.ip

def changeIP (tab : Table) (i : Fin nBuckets) (old new : IP) : Table × Bool :=
  if new.equal old then (tab, true)
  else
    match (tab.removeIP i old).addIP i new with
    | (tab, true) => (tab, true)
    | (tab, false) => ((tab.addIP i old).1, false)

def bumpInBucket (tab : Table) (i : Fin nBuckets) (n : Node) : Table × Bool :=
  match (tab.buckets i).entries.find? (·.id = n.id) with
  | none => (tab, false)
  | some e =>
    match tab.changeIP i e.ip n.ip with
    | (tab, false) => (tab, false)
    | (tab, true) =>
      (tab.setNodes i (n :: deleteNode (tab.buckets i).entries n) (tab.buckets i).replacements,
        true)

/-! ## Operations -/

/-- Adds a node that is not in the bucket: as a replacement if the bucket is full, and otherwise at
the end or at the front. -/
def insertNode (tab : Table) (i : Fin nBuckets) (n : Node) (front : Bool) : Table :=
  if bucketSize ≤ (tab.buckets i).entries.length then tab.addReplacement i n
  else
    match tab.addIP i n.ip with
    | (tab, false) => tab
    | (tab, true) =>
      tab.setNodes i
        (if front then (pushNode (tab.buckets i).entries n bucketSize).1
          else (tab.buckets i).entries ++ [n])
        (deleteNode (tab.buckets i).replacements n)

def addSeenNode (tab : Table) (n : Node) : Table :=
  if n.id = tab.self then tab
  else if contains (tab.buckets (tab.bucket n.id)).entries n.id then tab
  else tab.insertNode (tab.bucket n.id) n false

def addVerifiedNode (tab : Table) (n : Node) : Table :=
  if tab.initDone = false then tab
  else if n.id = tab.self then tab
  else
    match tab.bumpInBucket (tab.bucket n.id) n with
    | (tab, true) => tab
    | (tab, false) => tab.insertNode (tab.bucket n.id) n true

def delete (tab : Table) (n : Node) : Table := tab.deleteInBucket (tab.bucket n.id) n

/-- The part of `doRevalidate` after the node answered or did not. -/
def revalidate (tab : Table) (last : Node) (alive : Bool) (pick : Nat) : Table :=
  if alive then
    (tab.bumpInBucket (tab.bucket last.id)
      { last with livenessChecks := last.livenessChecks + 1 }).1
  else tab.replace (tab.bucket last.id) last pick

inductive Op
  | addSeenNode (n : Node)
  | addVerifiedNode (n : Node)
  | delete (n : Node)
  | revalidate (last : Node) (alive : Bool) (pick : Nat)
  | initDone

def step (tab : Table) : Op → Table
  | .addSeenNode n => tab.addSeenNode n
  | .addVerifiedNode n => tab.addVerifiedNode n
  | .delete n => tab.delete n
  | .revalidate last alive pick => tab.revalidate last alive pick
  | .initDone => { tab with initDone := true }

def run (tab : Table) (ops : List Op) : Table := ops.foldl step tab

end Table

end Virbicoin.Discover
