import ByteTrie.Algebra.Lattice
import ByteTrie.Algebra.Outcome
import ByteTrie.Trie.Basic

/-!
# Union, intersection, difference, restriction

The four operations walk two tries together.  Edges that start with different bytes are kept or
dropped whole; where two edges start with one byte, the subtries below what their keys share are
combined.  An outcome names the arguments that it equals, so whatever an argument contributes
unchanged is kept as that argument's own subtrie.

    p ∈ union s t      iff  p ∈ s or p ∈ t          p ∈ inter s t     iff  p ∈ s and p ∈ t
    p ∈ diff s t       iff  p ∈ s and p ∉ t         p ∈ restrict s t  iff  p ∈ s and some q ∈ t is
                                                                          a prefix of p
-/

namespace ByteTrie

inductive SetOp where
  | join
  | meet
  | subtract
  | restrict
deriving DecidableEq, Repr

namespace SetOp

/-- Whether a path that only the left argument has is in the result. -/
def keepsLeft : SetOp → Bool
  | join | subtract => true
  | meet | restrict => false

/-- Whether a path that only the right argument has is in the result. -/
def keepsRight : SetOp → Bool
  | join => true
  | meet | subtract | restrict => false

/-- Whether the result may be the right argument. -/
def isCommutative : SetOp → Bool
  | join | meet => true
  | subtract | restrict => false

/-- Whether the path that leads to two nodes is in the result.  Restriction asks only at nodes of
which the right one is no member. -/
def terminal : SetOp → Bool → Bool → Bool
  | join, s, t => s || t
  | meet, s, t => s && t
  | subtract, s, t => s && !t
  | restrict, _, _ => false

end SetOp

/-! ## Subtries that start inside an edge -/

mutual

/-- The nodes and key bytes of a trie. -/
def Trie.weight : Trie → Nat
  | .node _ _ _ _ es => 1 + Trie.edgesWeight es

def Trie.edgesWeight : List (Edge Trie) → Nat
  | [] => 0
  | ⟨_, k, c⟩ :: es => k.length + 1 + c.weight + Trie.edgesWeight es

end

namespace Stem

/-- The bytes of a stem's key and the weight of its subtrie. -/
def weight (s : Stem) : Nat := s.key.length + s.child.weight

/-- Whether the path to the start of a stem is a member. -/
def isMember (s : Stem) : Bool := s.key.isEmpty && s.child.terminal

/-- The edges at the start of a stem: inside an edge, what is left of that edge. -/
def branches : Stem → List (Edge Trie)
  | ⟨[], t⟩ => t.edges
  | ⟨b :: k, t⟩ => [⟨b, k, t⟩]

def isEmpty (s : Stem) : Bool := s.child.isEmpty

/-- Whether two stems are one node. -/
def sameNode (s t : Stem) : Bool := s.key.isEmpty && t.key.isEmpty && s.child.sameNode t.child

end Stem

/-! ## Lemmas -/

@[simp] theorem Trie.edgesWeight_nil : Trie.edgesWeight [] = 0 := rfl

@[simp] theorem Trie.edgesWeight_cons (b : UInt8) (k : Path) (t : Trie) (es : List (Edge Trie)) :
    Trie.edgesWeight (⟨b, k, t⟩ :: es) = k.length + 1 + t.weight + Trie.edgesWeight es := rfl

theorem Trie.edgesWeight_branches_le (s : Stem) : Trie.edgesWeight s.branches ≤ s.weight := by
  obtain ⟨k, t⟩ := s
  cases k with
  | nil =>
    cases t
    simp only [Stem.branches, Trie.edges, Stem.weight, Trie.weight, List.length_nil]
    omega
  | cons b k => simp [Stem.branches, Stem.weight]

/-! ## Algorithm -/

namespace SetOp

/-- The outcome where it is known without a look at the edges. -/
def settle (op : SetOp) (s t : Stem) : Option (Outcome Trie) :=
  let same := s.sameNode t
  match op with
  | join =>
    if s.isEmpty && t.isEmpty then some .none
    else if same then some (.identity Outcome.bothBits)
    else if t.isEmpty then some (.identity Outcome.leftBit)
    else if s.isEmpty then some (.identity Outcome.rightBit)
    else none
  | meet =>
    if s.isEmpty || t.isEmpty then some .none
    else if same then some (.identity Outcome.bothBits)
    else none
  | subtract =>
    if s.isEmpty || same then some .none
    else if t.isEmpty then some (.identity Outcome.leftBit)
    else none
  | restrict =>
    if s.isEmpty || t.isEmpty then some .none
    else if t.isMember || same then some (.identity Outcome.leftBit)
    else none

/-- The edges of a result, and the arguments all of them were taken from. -/
structure Merged where
  edges : List (Edge Trie)
  agree : UInt64

namespace Merged

def nil : Merged := ⟨[], Outcome.bothBits⟩

/-- One more edge in front, taken from the arguments in `mask`. -/
def cons (e : Edge Trie) (mask : UInt64) (m : Merged) : Merged :=
  ⟨e :: m.edges, mask &&& m.agree⟩

/-- One more edge in front, which only the left argument has. -/
def consLeft (op : SetOp) (e : Edge Trie) (m : Merged) : Merged :=
  if op.keepsLeft then m.cons e Outcome.leftBit else m

/-- One more edge in front, which only the right argument has. -/
def consRight (op : SetOp) (f : Edge Trie) (m : Merged) : Merged :=
  if op.keepsRight then m.cons f Outcome.rightBit else m

/-- One more edge in front, for the edges `e` and `f` that share their first byte and the bytes
`shared` after it, and whose subtries below these have the given outcome. -/
def consBoth (e f : Edge Trie) (shared : Path) (o : Outcome Trie) (m : Merged) : Merged :=
  match o with
  | .none => m
  | .identity mask => m.cons (if mask &&& Outcome.leftBit = 0 then f else e) mask
  | .element t =>
    match Edge.over e.first shared t with
    | some g => m.cons g 0
    | none => m

end Merged

/-- The outcome at a node with the merged edges. -/
def finish (op : SetOp) (s t : Stem) (m : Merged) : Fresh (Outcome Trie) := do
  let terminal := op.terminal s.isMember t.isMember
  if m.edges.isEmpty && !terminal then
    return .none
  let left := if terminal == s.isMember && m.edges.length == s.branches.length
    then Outcome.leftBit else 0
  let right := if op.isCommutative && terminal == t.isMember
      && m.edges.length == t.branches.length
    then Outcome.rightBit else 0
  let mask := m.agree &&& (left ||| right)
  if mask = 0 then
    return .element (← Trie.make terminal m.edges)
  else
    return .identity mask

mutual

/-- Combines the subtries that start at `s` and `t`. -/
def combine (op : SetOp) (s t : Stem) : Fresh (Outcome Trie) := do
  match op.settle s t with
  | some o => return o
  | none => op.finish s t (← combineEdges op s.branches t.branches)
termination_by (s.weight + t.weight, 1)
decreasing_by
  have := Trie.edgesWeight_branches_le s
  have := Trie.edgesWeight_branches_le t
  simp only [Prod.lex_def]
  omega

/-- Merges two lists of edges that are ascending in their first bytes. -/
def combineEdges (op : SetOp) : List (Edge Trie) → List (Edge Trie) → Fresh Merged
  | [], [] => return Merged.nil
  | ⟨b, k, s⟩ :: es, [] => do
    return (← combineEdges op es []).consLeft op ⟨b, k, s⟩
  | [], ⟨c, l, t⟩ :: fs => do
    return (← combineEdges op [] fs).consRight op ⟨c, l, t⟩
  | ⟨b, k, s⟩ :: es, ⟨c, l, t⟩ :: fs =>
    if b < c then do
      return (← combineEdges op es (⟨c, l, t⟩ :: fs)).consLeft op ⟨b, k, s⟩
    else if c < b then do
      return (← combineEdges op (⟨b, k, s⟩ :: es) fs).consRight op ⟨c, l, t⟩
    else do
      let n := Path.overlap k l
      let o ← combine op ⟨k.drop n, s⟩ ⟨l.drop n, t⟩
      return (← combineEdges op es fs).consBoth ⟨b, k, s⟩ ⟨c, l, t⟩ (k.take n) o
termination_by es fs => (Trie.edgesWeight es + Trie.edgesWeight fs, 0)
decreasing_by
  all_goals
    apply Prod.Lex.left
    simp only [Trie.edgesWeight_cons, Stem.weight, List.length_drop]
    omega

end

/-- Combines two tries. -/
def apply (op : SetOp) (s t : Trie) : Fresh (Outcome Trie) := op.combine ⟨[], s⟩ ⟨[], t⟩

end SetOp

namespace Trie

def union (s t : Trie) : Fresh Trie := return (← SetOp.join.apply s t).resolvePair s t empty

def inter (s t : Trie) : Fresh Trie := return (← SetOp.meet.apply s t).resolvePair s t empty

def diff (s t : Trie) : Fresh Trie := return (← SetOp.subtract.apply s t).resolvePair s t empty

/-- The members of `s` that extend a member of `t`. -/
def restrict (s t : Trie) : Fresh Trie := return (← SetOp.restrict.apply s t).resolvePair s t empty

/-- The members of `t` that extend a member of `s`. -/
def raffinate (s t : Trie) : Fresh Trie :=
  return (← SetOp.restrict.apply t s).swap.resolvePair s t empty

def insert (t : Trie) (p : Path) : Fresh Trie := do t.union (← singleton p)

def erase (t : Trie) (p : Path) : Fresh Trie := do t.diff (← singleton p)

/-- Neighbours joined; a last one without a neighbour stays. -/
def joinPairs : List Trie → Fresh (List Trie)
  | s :: t :: ts => do return (← s.union t) :: (← joinPairs ts)
  | ts => pure ts

/-- Joins neighbours again and again, at most `rounds` times. -/
def joinRounds : Nat → List Trie → Fresh Trie
  | _, [] => pure empty
  | _, [t] => pure t
  | 0, t :: _ => pure t
  | rounds + 1, ts => do joinRounds rounds (← joinPairs ts)

/-- The union of all sets of a list. -/
def joinAll (ts : List Trie) : Fresh Trie := joinRounds ts.length ts

instance : Lattice Fresh Trie where
  join := union
  meet := inter
  bottom := empty
  joinAll := joinAll

instance : DistributiveLattice Fresh Trie where
  subtract := diff

instance : Quantale Fresh Trie where
  restrict := restrict
  raffinate := raffinate

end Trie

end ByteTrie
