import ByteTrie.Algebra.Merge

/-!
# Product

    r ∈ product s t   iff  r = p ++ q for some p ∈ s and q ∈ t

`t` itself is put behind every member of `s`; it is copied only where paths of `s` go on.
-/

namespace ByteTrie

namespace Trie

mutual

/-- `suffix` behind every member of a trie. -/
def graft (suffix : Trie) : Trie → Fresh Trie
  | node _ t _ _ es => do
    let continued ← make false (← graftEdges suffix es)
    if t then continued.union suffix else return continued

def graftEdges (suffix : Trie) : List (Edge Trie) → Fresh (List (Edge Trie))
  | [] => return []
  | ⟨b, k, t⟩ :: es => do
    let e := Edge.over b k (← graft suffix t)
    return e.toList ++ (← graftEdges suffix es)

end

/-- Whether the empty path is the only member. -/
def isUnit (t : Trie) : Bool := t.terminal && t.edges.isEmpty

def productOutcome (s t : Trie) : Fresh (Outcome Trie) := do
  if s.isEmpty || t.isEmpty then
    return .none
  else if t.isUnit then
    return .identity Outcome.leftBit
  else if s.isUnit then
    return .identity Outcome.rightBit
  else
    return .element (← graft t s)

/-- Every member of `s` followed by every member of `t`. -/
def product (s t : Trie) : Fresh Trie := return (← productOutcome s t).resolvePair s t empty

end Trie

end ByteTrie
