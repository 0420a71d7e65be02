import ByteTrie.Cursor.Move

/-!
# Iteration

A path iterator gives the members of a trie in ascending order and then stays at the end.  A
batch is the shortest run of further paths that reaches one of two limits, the number of paths
or of their bytes, so that reading can go on where it stopped.
-/

namespace ByteTrie

/-- `cursor` is on the path given last, or at the root before the first one; at the end there is
none. -/
structure PathIter where
  cursor : Option Cursor
  started : Bool

namespace PathIter

def ofTrie (t : Trie) : PathIter := ⟨some (Cursor.ofTrie t), false⟩

def next (it : PathIter) : Option Path × PathIter :=
  match it.cursor with
  | none => (none, { it with started := true })
  | some c =>
    if !it.started && c.isMember then (some c.path, ⟨some c, true⟩)
    else match c.nextMember? with
      | some c => (some c.path, ⟨some c, true⟩)
      | none => (none, ⟨none, true⟩)

/-- Appends a batch to the paths `given`, the last one first. -/
def batchOnto : Nat → Nat → PathIter → List Path → List Path × PathIter
  | 0, _, it, given => (given, it)
  | values + 1, bytes, it, given =>
    if bytes = 0 then (given, it)
    else match it.next with
      | (none, it) => (given, it)
      | (some p, it) => batchOnto values (bytes - p.length) it (p :: given)

/-- Further paths, until there are `values` of them or they have `bytes` bytes. -/
def nextBatch (it : PathIter) (values bytes : Nat) : List Path × PathIter :=
  let (ps, it) := batchOnto values bytes it []
  (ps.reverse, it)

def drainOnto : Nat → PathIter → List Path → List Path
  | 0, _, given => given
  | n + 1, it, given =>
    match it.next with
    | (none, _) => given
    | (some p, it) => drainOnto n it (p :: given)

/-- All further paths. -/
def drain (it : PathIter) : List Path :=
  (drainOnto ((it.cursor.map fun c => c.root.count + 1).getD 0) it []).reverse

end PathIter

namespace Cursor

/-- The paths below the focus, relative to it. -/
def iter (c : Cursor) : Fresh PathIter := return PathIter.ofTrie (← c.subtrie)

/-- The same, for a cursor that is not used again. -/
def intoIter (c : Cursor) : Fresh PathIter :=
  if c.atRoot then pure ⟨some c, false⟩ else c.iter

def readPaths (c : Cursor) : Fresh (List Path) := return (← c.iter).drain

def traverse (c : Cursor) (values bytes : Nat) : Fresh (List Path) :=
  return ((← c.iter).nextBatch values bytes).1

end Cursor

namespace Trie

/-- A cursor on `p`, if `p` is a prefix of a member or empty. -/
def cursorAt? (t : Trie) (p : Path) : Option Cursor :=
  match (Cursor.ofTrie t).descend p with
  | (true, c) => some c
  | (false, _) => none

end Trie

end ByteTrie
