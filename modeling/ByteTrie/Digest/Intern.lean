import ByteTrie.Digest.Basic
import ByteTrie.Range.Word
import ByteTrie.Trie.Basic
import Std.Data.HashMap

/-!
# Interning

The digest of a trie is the digest of a message made of its flag and of the key and the digest
behind each edge, so tries with the same members have the same digest.  An interner keeps one node
for each digest it has met; interning a trie replaces every subtrie by the node kept for it.

    message := flag (size key digest)*     the size in 8 bytes, least significant first
-/

namespace ByteTrie

/-- The node kept for each digest. -/
structure Interner where
  table : Std.HashMap Digest Trie

namespace Interner

def empty : Interner := ⟨{}⟩

def size (m : Interner) : Nat := m.table.size

def isEmpty (m : Interner) : Bool := m.table.isEmpty

/-- The bytes of a key's size. -/
def sizeWidth : Nat := 8

/-- An interned edge, and the digest of its child. -/
abbrev DigestedEdge := Edge Trie × Digest

def edgeMessage (e : DigestedEdge) : List UInt8 :=
  littleEndian sizeWidth e.1.key.length ++ e.1.key ++ e.2.toList

def message (terminal : Bool) (es : List DigestedEdge) : List UInt8 :=
  (if terminal then 1 else 0) :: es.flatMap edgeMessage

/-- The interner, what was found for the nodes of the trie that were already visited, and how many
nodes were replaced. -/
structure State where
  table : Std.HashMap Digest Trie
  visited : Std.HashMap Nat (Digest × Trie)
  reused : Nat

abbrev Interning := StateT State Fresh

/-- The node kept for a digest: the one in the table, or else `t`, with the interned edges if
those are not its own. -/
def keep (digest : Digest) (t : Trie) (es : List (Edge Trie)) (isChanged : Bool) :
    Interning Trie := do
  match (← get).table[digest]? with
  | some kept =>
    if !kept.sameNode t then modify fun s => { s with reused := s.reused + 1 }
    return kept
  | none =>
    let kept ← if isChanged then (Trie.make t.terminal es : Fresh Trie) else pure t
    modify fun s => { s with table := s.table.insert digest kept }
    return kept

/-- The digest and the node kept for `t`, where `es` are its interned edges. -/
def finish (hash : HashFunction) (t : Trie) (es : List DigestedEdge) (isChanged : Bool) :
    Interning (Digest × Trie) := do
  let digest := hash (message t.terminal es)
  let kept ← keep digest t (es.map fun e => e.1) isChanged
  modify fun s => { s with visited := s.visited.insert t.id (digest, kept) }
  return (digest, kept)

mutual

def internNode (hash : HashFunction) : Trie → Interning (Digest × Trie)
  | .node i t n m es => do
    match (← get).visited[i]? with
    | some found => return found
    | none =>
      let (interned, isChanged) ← internEdges hash es
      finish hash (.node i t n m es) interned isChanged

/-- The interned edges, and whether any child was replaced. -/
def internEdges (hash : HashFunction) : List (Edge Trie) → Interning (List DigestedEdge × Bool)
  | [] => return ([], false)
  | ⟨b, k, t⟩ :: es => do
    let (digest, kept) ← internNode hash t
    let (interned, isChanged) ← internEdges hash es
    return ((⟨b, k, kept⟩, digest) :: interned, isChanged || !kept.sameNode t)

end

/-- The interned trie, its digest, and the number of nodes that were replaced. -/
structure Interned where
  trie : Trie
  digest : Digest
  reused : Nat

def intern (m : Interner) (hash : HashFunction) (t : Trie) : Fresh (Interned × Interner) := do
  let ((digest, kept), s) ← (internNode hash t).run ⟨m.table, {}, 0⟩
  return (⟨kept, digest, s.reused⟩, ⟨s.table⟩)

end Interner

end ByteTrie
