import Virbicoin.Core.Types
import Virbicoin.Trie.Encoding

/-!
# Trie nodes

`trie/node.go`. A node in memory is empty, a full node with one child a nibble and one for the
value, a short node with a path to its child, the hash of a node that is not loaded, or a value.
Full and short nodes carry the flags of the cache: their hash once it is known, and whether they
have changed since they were loaded.
-/

namespace Virbicoin.Mpt

abbrev Bytes := List Byte

structure NodeFlag where
  hash : Option Hash
  dirty : Bool
  deriving DecidableEq, Repr

/-- `Trie.newFlag`: the flags of a newly created node. -/
def newFlag : NodeFlag := ⟨none, true⟩

inductive Node where
  | nil
  | full (children : Nibble → Node) (flags : NodeFlag)
  | short (key : List Nibble) (val : Node) (flags : NodeFlag)
  | hash (h : Hash)
  | value (v : Bytes)

instance : Inhabited Node := ⟨.nil⟩

namespace Node

def isNil : Node → Bool
  | .nil => true
  | _ => false

def isInner : Node → Bool
  | .full _ _ => true
  | .short _ _ _ => true
  | _ => false

def cachedHash : Node → Option Hash
  | .full _ flags => flags.hash
  | .short _ _ flags => flags.hash
  | _ => none

theorem isNil_eq_false {n : Node} : n.isNil = false ↔ n ≠ .nil := by cases n <;> simp [isNil]

end Node

end Virbicoin.Mpt
