import ByteTrie.Cursor.Iterate
import ByteTrie.Trie.Build

/-!
# Transformation

    q ∈ transform t f   iff  f p = some q for some p ∈ t
-/

namespace ByteTrie

/-- What a path is rewritten to; a path may be rejected. -/
abbrev Rewriter := Path → Option Path

namespace Trie

/-- The rewrites of the members that `f` accepts. -/
def transform (t : Trie) (f : Rewriter) : Fresh Trie :=
  ofPaths ((PathIter.ofTrie t).drain.filterMap f)

end Trie

end ByteTrie
