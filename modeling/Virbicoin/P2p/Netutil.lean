import Mathlib.Data.BitVec
import Mathlib.Logic.Function.Basic
import Virbicoin.Lib.Tally

/-!
# IP addresses and networks

`p2p/netutil/net.go` and the parts of the package `net` that it uses. An address is the list of its
bytes; a node without an address has the empty list.
-/

namespace Virbicoin.Netutil

open Virbicoin.Lib

abbrev IP := List (BitVec 8)

namespace IP

def v4InV6Prefix : IP := List.replicate 10 0 ++ [0xff, 0xff]

/-- The four bytes of an IPv4 address, in either form. -/
def to4 (ip : IP) : Option IP :=
  if ip.length = 4 then some ip
  else if ip.length = 16 ∧ ip.take 12 = v4InV6Prefix then some (ip.drop 12)
  else none

def equal (ip x : IP) : Bool :=
  if ip.length = x.length then ip = x
  else if ip.length = 4 ∧ x.length = 16 then x.take 12 = v4InV6Prefix ∧ ip = x.drop 12
  else if ip.length = 16 ∧ x.length = 4 then ip.take 12 = v4InV6Prefix ∧ ip.drop 12 = x
  else false

def isLoopback (ip : IP) : Bool :=
  match ip.to4 with
  | some ip4 => ip4.head? = some 127
  | none => ip.equal (List.replicate 15 0 ++ [1])

end IP

structure IPNet where
  ip : IP
  ones : Nat

def maskByte (ones i : Nat) : BitVec 8 := ~~~((0xff : BitVec 8) >>> min 8 (ones - 8 * i))

/-- The address with the bits cleared that do not belong to the network. -/
def mask (ones : Nat) (ip : IP) : IP := ip.mapIdx fun i b => b &&& maskByte ones i

def IPNet.contains (n : IPNet) (ip : IP) : Bool :=
  mask n.ones (ip.to4.getD ip) = mask n.ones n.ip

def lan4 : List IPNet :=
  [⟨[0, 0, 0, 0], 8⟩, ⟨[10, 0, 0, 0], 8⟩, ⟨[172, 16, 0, 0], 12⟩, ⟨[192, 168, 0, 0], 16⟩]

def lan6 : List IPNet :=
  [⟨[0xfe, 0x80] ++ List.replicate 14 0, 10⟩, ⟨0xfc :: List.replicate 15 0, 7⟩]

def isLAN (ip : IP) : Bool :=
  if ip.isLoopback then true
  else
    match ip.to4 with
    | some v4 => lan4.any (·.contains v4)
    | none => lan6.any (·.contains ip)

/-- The kind of an address and the beginning of it that names its network. -/
inductive NetKey
  | v4 (net : IP)
  | v6 (net : IP)
  deriving DecidableEq

/-- Addresses per network. A network that is not in the map has the number zero. -/
structure DistinctNetSet where
  subnet : Nat
  limit : Nat
  members : Tally NetKey

namespace DistinctNetSet

/-- The beginning of an address, of at most as many bits as it has. -/
def keyBytes (subnet : Nat) (ip : IP) : IP :=
  (mask (min subnet (ip.length * 8)) ip).take ((min subnet (ip.length * 8) + 7) / 8)

/-- `key`. The last byte is masked only where the length is not a multiple of eight. -/
def key (subnet : Nat) (ip : IP) : NetKey :=
  match ip.to4 with
  | some ip4 => .v4 (keyBytes subnet ip4)
  | none => .v6 (keyBytes subnet ip)

/-- `Add`, `none` if the network has its limit. -/
def add (s : DistinctNetSet) (ip : IP) : Option DistinctNetSet :=
  if s.members (key s.subnet ip) < s.limit then
    some { s with members := s.members.incr (key s.subnet ip) }
  else none

def remove (s : DistinctNetSet) (ip : IP) : DistinctNetSet :=
  { s with members := s.members.decr (key s.subnet ip) }

end DistinctNetSet

end Virbicoin.Netutil
