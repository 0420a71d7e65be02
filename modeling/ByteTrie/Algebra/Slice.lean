import ByteTrie.Algebra.Merge

/-!
# Tails and heads

    q ∈ tails t k   iff  q = p.drop k for some p ∈ t with k ≤ p.length
    q ∈ heads t k   iff  q = p.take k for some p ∈ t
-/

namespace ByteTrie

namespace Trie

/-! ## Tails -/

mutual

/-- Subtries whose union is the tails after `k` bytes: those that start inside an edge of this
node first, then those below the edges, the last edge first. -/
def tailTries : Trie → Nat → Fresh (List Trie)
  | t, 0 => return if t.isEmpty then [] else [t]
  | node _ _ _ _ es, k + 1 => do
    let (inside, below) ← edgeTailTries es (k + 1)
    return inside ++ below

def edgeTailTries : List (Edge Trie) → Nat → Fresh (List Trie × List Trie)
  | [], _ => return ([], [])
  | ⟨b, l, t⟩ :: es, k => do
    let (inside, below) ← edgeTailTries es k
    if l.length < k then
      return (inside, below ++ (← tailTries t (k - (l.length + 1))))
    else
      return ((← Stem.toTrie ⟨(b :: l).drop k, t⟩) :: inside, below)

end

/-- The members without their first `k` bytes; shorter members are dropped. -/
def tails (t : Trie) (k : Nat) : Fresh Trie := do joinAll (← tailTries t k)

/-! ## Heads -/

/-- The edges of a result, and whether all of them are those of the argument. -/
structure Cut where
  edges : List (Edge Trie)
  unchanged : Bool

namespace Cut

def cons (e : Edge Trie) (c : Cut) : Cut := { c with edges := e :: c.edges }

/-- One more edge in front, which is not one of the argument's. -/
def consNew (e : Option (Edge Trie)) (c : Cut) : Cut := ⟨e.toList ++ c.edges, false⟩

end Cut

mutual

/-- The first `k` bytes of the members of a node, for a positive `k`. -/
def cutNode : Trie → Nat → Fresh (Outcome Trie)
  | node _ t _ _ es, k => do
    let c ← cutEdges es k
    if c.unchanged then
      return .identity Outcome.leftBit
    else
      return .element (← make t c.edges)

def cutEdges : List (Edge Trie) → Nat → Fresh Cut
  | [], _ => return ⟨[], true⟩
  | ⟨b, l, t⟩ :: es, k => do
    if k < l.length + 1 || (k == l.length + 1 && !t.edges.isEmpty) then
      return (← cutEdges es k).consNew (some ⟨b, l.take (k - 1), leaf⟩)
    else if k == l.length + 1 then
      return (← cutEdges es k).cons ⟨b, l, t⟩
    else
      match (← cutNode t (k - (l.length + 1))) with
      | .element u => return (← cutEdges es k).consNew (Edge.over b l u)
      | _ => return (← cutEdges es k).cons ⟨b, l, t⟩

end

def headsOutcome (t : Trie) (k : Nat) : Fresh (Outcome Trie) :=
  if t.isEmpty then pure .none
  else if k = 0 then
    pure (if t.edges.isEmpty then .identity Outcome.leftBit else .element leaf)
  else cutNode t k

/-- The members cut to at most their first `k` bytes. -/
def heads (t : Trie) (k : Nat) : Fresh Trie :=
  return (← headsOutcome t k).resolvePair t t empty

end Trie

end ByteTrie
