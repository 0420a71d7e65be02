import ByteTrie.ByteMask
import ByteTrie.Path
import ByteTrie.Total

/-!
# Tries

A trie is a set of paths.  A node says whether the path that leads to it is a member, and has
edges in ascending order of their first bytes; an edge is a key and the subtrie behind it.  Below
the root a node without edges is a member and a node with one edge is a member, so runs of bytes
without a choice are one key, and a set has one trie.

Every node carries an id.  Ids come from a supply that gives each of them once, so nodes with one
id are one node, and an operation that reuses a subtrie of its argument keeps the ids in it.  Two
nodes are fixed: `empty`, the set without paths, and `leaf`, the set of the empty path.
-/

namespace ByteTrie

/-- The byte `first`, the bytes of `rest`, and then the subtrie `child`. -/
structure Edge (T : Type) where
  first : UInt8
  rest : Path
  child : T

/-- All bytes of an edge. -/
def Edge.key {T : Type} (e : Edge T) : Path := e.first :: e.rest

inductive Trie where
  /-- `count` is the number of members, and `mask` holds the first bytes of the edges. -/
  | node (id : Nat) (terminal : Bool) (count : Nat) (mask : ByteMask) (edges : List (Edge Trie))

/-- A subtrie seen from a place inside an edge: the bytes of `key`, and then `child`.  With an
empty key it is `child` itself. -/
structure Stem where
  key : Path
  child : Trie

/-- A computation that may make nodes: the state is the next unused id. -/
abbrev Fresh := StateM Nat

def Fresh.id : Fresh Nat := modifyGet fun n => (n, n + 1)

namespace Trie

def id : Trie → Nat
  | node i _ _ _ _ => i

def terminal : Trie → Bool
  | node _ t _ _ _ => t

def count : Trie → Nat
  | node _ _ n _ _ => n

def mask : Trie → ByteMask
  | node _ _ _ m _ => m

def edges : Trie → List (Edge Trie)
  | node _ _ _ _ es => es

def isEmpty (t : Trie) : Bool := t.count == 0

def emptyId : Nat := 0

def leafId : Nat := 1

/-- The first id that a supply gives out. -/
def firstId : Nat := 2

/-- The node with these edges, its count and mask computed from them. -/
def label (id : Nat) (terminal : Bool) (es : List (Edge Trie)) : Trie :=
  node id terminal (terminal.toNat + total (es.map fun e => e.child.count))
    (ByteMask.ofList (es.map fun e => e.first)) es

def empty : Trie := label emptyId false []

def leaf : Trie := label leafId true []

instance : Inhabited Trie := ⟨empty⟩

/-- A node with these edges: new, unless there are none. -/
def make (terminal : Bool) : List (Edge Trie) → Fresh Trie
  | [] => pure (if terminal then leaf else empty)
  | es => do return label (← Fresh.id) terminal es

end Trie

/-- The edge that leads by `b` and `k` to `child`, if `child` has members.  A child that only
passes on to its one edge is left out, its edge's key being appended. -/
def Edge.over (b : UInt8) (k : Path) (child : Trie) : Option (Edge Trie) :=
  if child.isEmpty then none
  else match child.terminal, child.edges with
    | false, [e] => some ⟨b, k ++ e.key, e.child⟩
    | _, _ => some ⟨b, k, child⟩

/-- The trie that starts with the bytes of a stem. -/
def Stem.toTrie : Stem → Fresh Trie
  | ⟨[], t⟩ => pure t
  | ⟨b :: k, t⟩ => Trie.make false (Edge.over b k t).toList

namespace Trie

/-- The set of one path. -/
def singleton (p : Path) : Fresh Trie := Stem.toTrie ⟨p, leaf⟩

/-- `p` put in front of every member. -/
def wrap (t : Trie) (p : Path) : Fresh Trie := Stem.toTrie ⟨p, t⟩

mutual

/-- The members in ascending order, each with `p` in front. -/
def pathsFrom (p : Path) : Trie → List Path
  | node _ t _ _ es => (if t then [p] else []) ++ edgePathsFrom p es

def edgePathsFrom (p : Path) : List (Edge Trie) → List Path
  | [] => []
  | ⟨b, k, c⟩ :: es => pathsFrom (p ++ b :: k) c ++ edgePathsFrom p es

end

/-- The members in ascending order. -/
def paths (t : Trie) : List Path := pathsFrom [] t

mutual

/-- Whether two tries have the same form; subtries with one id are not looked into. -/
def beq : Trie → Trie → Bool
  | node i t n m es, node j u k l fs =>
    i == j || (t == u && n == k && m == l && edgesBeq es fs)

/-- The edges in pairs; where the masks are equal, none is left without a partner. -/
def edgesBeq : List (Edge Trie) → List (Edge Trie) → Bool
  | ⟨b, k, s⟩ :: es, ⟨c, l, t⟩ :: fs => b == c && k == l && beq s t && edgesBeq es fs
  | _, _ => true

end

instance : BEq Trie := ⟨beq⟩

/-- Whether two tries are one node. -/
def sameNode (s t : Trie) : Bool := s.id == t.id

end Trie

end ByteTrie
