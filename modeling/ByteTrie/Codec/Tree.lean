import ByteTrie.Codec.Reader

/-!
# The tree encoding

A node is written as its flag (0, or 1 for a member), the number of its edges, and for each edge
the length of the key, the key, and the node behind it:

    node := flag count (length key node)*

Reading accepts what writing produces and nothing else: a trie has one encoding, and each encoding
is read as one trie.  The faults are found in the order of the bytes.
-/

namespace ByteTrie

namespace Trie

mutual

/-- The encoding of a trie, in front of `out`. -/
def encodeOnto : Trie → List UInt8 → List UInt8
  | node _ t _ _ es, out =>
    (if t then 1 else 0) :: (Varint.encode es.length ++ encodeEdgesOnto es out)

def encodeEdgesOnto : List (Edge Trie) → List UInt8 → List UInt8
  | [], out => out
  | ⟨b, k, c⟩ :: es, out =>
    Varint.encode (k.length + 1) ++ (b :: k ++ encodeOnto c (encodeEdgesOnto es out))

end

def encode (t : Trie) : List UInt8 := encodeOnto t []

end Trie

namespace Reader

/-- The flag of a node: whether it is a member. -/
def flag : Reader Bool := do
  let start ← offset
  match (← byte) with
  | 0 => return false
  | 1 => return true
  | f => throw (.invalidFlag start f)

/-- The key of an edge, whose first byte has to come after that of the edge before. -/
def key (previous : Option UInt8) : Reader (UInt8 × Path) := do
  let start ← offset
  let size ← varint
  if size = 0 then throw (.emptyEdge start)
  let b ← byte
  let k ← bytes (size - 1)
  if previous.any (b ≤ ·) then throw (.unsortedChildren start)
  return (b, k)

/-- So many edges, the nodes behind them read by `child`. -/
def edges (child : Reader Trie) : Nat → Option UInt8 → Reader (List (Edge Trie))
  | 0, _ => return []
  | n + 1, previous => do
    let (b, k) ← key previous
    let c ← child
    return ⟨b, k, c⟩ :: (← edges child n (some b))

/-- A node, where `levels` more levels of nodes are allowed.  Below the root a node has to be a
member or to have two edges. -/
def node (limit : Nat) : Nat → Bool → Reader Trie
  | 0, _ => throw (.depthLimitExceeded limit)
  | levels + 1, isRoot => do
    let start ← offset
    let terminal ← flag
    let n ← varint
    if 256 < n then throw (.tooManyChildren start n)
    if !isRoot && !terminal && n < 2 then throw (.nonCanonical start)
    let es ← edges (node limit levels false) n none
    lift (Trie.make terminal es)

end Reader

namespace Trie

/-- Reads an encoded trie in which no node is more than `limit` edges below the root. -/
def decodeWithin (limit : Nat) (src : List UInt8) : Fresh (Except DecodeError Trie) :=
  (Reader.node limit (limit + 1) true).run src

/-- No trie is as deep as this. -/
def unlimitedDepth : Nat := UInt64.size - 1

def decode (src : List UInt8) : Fresh (Except DecodeError Trie) :=
  decodeWithin unlimitedDepth src

end Trie

end ByteTrie
