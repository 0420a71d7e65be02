import ByteTrie.Trie.Basic

/-!
# Lookup

`seek` follows a path down a trie.  What it reaches is a stem: the bytes still to go before the
next node, and that node.

    contains t p      iff  p is a member
    containsPath t p  iff  p is a prefix of a member
-/

namespace ByteTrie

namespace Trie

mutual

/-- What is left of a trie after a path; `none` where the path leaves the trie. -/
def seek : Trie → Path → Option Stem
  | t, [] => some ⟨[], t⟩
  | node _ _ _ _ es, b :: p => seekEdges es b p

def seekEdges : List (Edge Trie) → UInt8 → Path → Option Stem
  | [], _, _ => none
  | ⟨c, k, t⟩ :: es, b, p =>
    if b = c then
      let n := Path.overlap k p
      if n = k.length then seek t (p.drop n)
      else if n = p.length then some ⟨k.drop n, t⟩
      else none
    else seekEdges es b p

end

def contains (t : Trie) (p : Path) : Bool :=
  match t.seek p with
  | some e => e.key.isEmpty && e.child.terminal
  | none => false

def containsPath (t : Trie) (p : Path) : Bool :=
  match t.seek p with
  | some e => !e.key.isEmpty || !e.child.isEmpty
  | none => false

end Trie

end ByteTrie
