import ByteTrie.Trie.Basic

/-!
# Views by bytes

Two views of the prefixes of the members, one level for each byte.  In the nested view a level
maps the bytes that go on to the levels below.  In the hierarchy a level is a list of entries,
and an entry below which nothing follows has no list.  Bytes are named by their decimal numbers.
-/

namespace ByteTrie

def byteName (b : UInt8) : String := toString b.toNat

/-! ## Nested view -/

inductive NestedView where
  | level (entries : List (String × NestedView))

namespace NestedView

/-- One level for each byte of a key. -/
def along (v : NestedView) : Path → NestedView
  | [] => v
  | b :: k => level [(byteName b, along v k)]

mutual

def ofTrie : Trie → NestedView
  | .node _ _ _ _ es => level (ofEdges es)

def ofEdges : List (Edge Trie) → List (String × NestedView)
  | [] => []
  | ⟨b, k, t⟩ :: es => (byteName b, along (ofTrie t) k) :: ofEdges es

end

end NestedView

/-! ## Hierarchy -/

inductive HierarchyEntry where
  | entry (name : String) (children : Option (List HierarchyEntry))

namespace HierarchyEntry

/-- An entry for `b` and, below it, one for each byte of a key. -/
def along (children : Option (List HierarchyEntry)) (b : UInt8) : Path → HierarchyEntry
  | [] => entry (byteName b) children
  | c :: k => entry (byteName b) (some [along children c k])

/-- The entries below a node, if it has edges. -/
def listed? : List HierarchyEntry → Option (List HierarchyEntry)
  | [] => none
  | es => some es

mutual

def ofTrie : Trie → List HierarchyEntry
  | .node _ _ _ _ es => ofEdges es

def ofEdges : List (Edge Trie) → List HierarchyEntry
  | [] => []
  | ⟨b, k, t⟩ :: es => along (listed? (ofTrie t)) b k :: ofEdges es

end

/-- The whole hierarchy under one entry. -/
def rootOf (t : Trie) : HierarchyEntry := entry "root" (some (ofTrie t))

end HierarchyEntry

end ByteTrie
