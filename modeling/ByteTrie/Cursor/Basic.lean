import ByteTrie.Trie.Basic

/-!
# Cursors

A cursor is a place in a snapshot of a trie: a path that is a prefix of a member, or the empty
path.  The place is the start of a node, or inside one of its edges.  The path is kept whole, and
beside it two stacks record how the node was reached, so that every move is local: going up cuts
bytes off the path and pops the nodes that begin behind the cut.

    path c            the bytes from the root of the snapshot to the focus
    childMask c       the bytes b such that path c ++ [b] is a prefix of a member
    isMember c        whether path c is a member
    count c           how many members start with path c
-/

namespace ByteTrie

/-- The edge of a node that starts with `b`, after its index. -/
def Trie.edgeAt? (t : Trie) (b : UInt8) : Option (Nat × Edge Trie) :=
  if t.mask.contains b then t.edges[t.mask.rank b]?.map fun e => (t.mask.rank b, e) else none

/-- `ancestors` are the nodes above `node`, the last one first, each with the index of the edge that
was taken from it; `starts` are the lengths of the path up to the ends of these edges. -/
structure Cursor where
  root : Trie
  node : Trie
  bytes : Array UInt8
  starts : List Nat
  ancestors : List (Trie × Nat)

namespace Cursor

def ofTrie (t : Trie) : Cursor := ⟨t, t, #[], [], []⟩

/-! ## Observers -/

def path (c : Cursor) : Path := c.bytes.toList

def atRoot (c : Cursor) : Bool := c.bytes.isEmpty

/-- The length of the path to the start of the node. -/
def start (c : Cursor) : Nat := c.starts.headD 0

/-- How many bytes of the path lie along an edge of the node. -/
def keyLength (c : Cursor) : Nat := c.bytes.size - c.start

/-- The edge of the node that the focus is inside, after its index. -/
def focusEdge? (c : Cursor) : Option (Nat × Edge Trie) := c.bytes[c.start]?.bind c.node.edgeAt?

/-- What is below the focus. -/
def stem (c : Cursor) : Stem :=
  match c.focusEdge? with
  | some (_, e) => ⟨e.key.drop c.keyLength, e.child⟩
  | none => ⟨[], c.node⟩

def isMember (c : Cursor) : Bool := c.keyLength == 0 && c.node.terminal

def childCount (c : Cursor) : Nat := if c.keyLength = 0 then c.node.edges.length else 1

def childMask (c : Cursor) : ByteMask :=
  match c.focusEdge? with
  | some (_, e) => ByteMask.singleton e.key[c.keyLength]!
  | none => c.node.mask

/-- The bytes that continue a path from the focus, ascending. -/
def children (c : Cursor) : List UInt8 := c.childMask.toList

def count (c : Cursor) : Nat := c.stem.child.count

/-- The set of the paths below the focus, relative to it. -/
def subtrie (c : Cursor) : Fresh Trie := c.stem.toTrie

/-- A cursor whose root is the focus. -/
def fork (c : Cursor) : Fresh Cursor := return ofTrie (← c.subtrie)

end Cursor

/-! ## Extremal members -/

namespace Trie

/-- The least member. -/
def least? : Trie → Option Path
  | node _ true _ _ _ => some []
  | node _ false _ _ [] => none
  | node _ false _ _ (⟨b, k, t⟩ :: _) => t.least?.map fun p => b :: k ++ p

mutual

/-- The greatest member. -/
def greatest? : Trie → Option Path
  | node _ t _ _ es =>
    match edgesGreatest? es with
    | some p => some p
    | none => if t then some [] else none

def edgesGreatest? : List (Edge Trie) → Option Path
  | [] => none
  | [⟨b, k, t⟩] => t.greatest?.map fun p => b :: k ++ p
  | _ :: e :: es => edgesGreatest? (e :: es)

end

end Trie

namespace Cursor

/-- The least path below the focus, relative to it. -/
def least? (c : Cursor) : Option Path := c.stem.child.least?.map fun p => c.stem.key ++ p

/-- The greatest path below the focus, relative to it. -/
def greatest? (c : Cursor) : Option Path := c.stem.child.greatest?.map fun p => c.stem.key ++ p

end Cursor

end ByteTrie
