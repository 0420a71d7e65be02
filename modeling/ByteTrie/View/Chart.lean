import ByteTrie.Text.Quoted
import Std.Data.HashMap

/-!
# Charts

A flowchart of the nodes of several tries.  A node is drawn once, however many tries or nodes lead
to it, and for each node it is known which of the tries reach it: a node that several of them
reach has a colour.
-/

namespace ByteTrie

structure ChartStyle where
  /-- Keys that are text are labelled by it. -/
  asText : Bool
  /-- Nodes without edges are left out. -/
  hideLeaves : Bool
deriving DecidableEq, Repr

namespace ChartStyle

def default : ChartStyle := ⟨true, false⟩

instance : Inhabited ChartStyle := ⟨default⟩

end ChartStyle

inductive ChartItem where
  | node (id : Nat) (terminal : Bool)
  | edge (source target : Nat) (key : Path)
deriving DecidableEq, Repr

/-- The items, the last one first, and the roots by index that reach each node. -/
structure Drawing where
  itemsRev : List ChartItem
  reachedBy : Std.HashMap Nat (List Nat)

namespace Drawing

def empty : Drawing := ⟨[], {}⟩

def item (i : ChartItem) (d : Drawing) : Drawing := { d with itemsRev := i :: d.itemsRev }

def reach (id : Nat) (roots : List Nat) (d : Drawing) : Drawing :=
  { d with reachedBy := d.reachedBy.insert id roots }

def isHidden (style : ChartStyle) (t : Trie) : Bool := style.hideLeaves && t.edges.isEmpty

mutual

/-- Draws what the trie `root` reaches and was not drawn yet, and marks all of it as reached. -/
def visit (style : ChartStyle) (root : Nat) : Trie → Drawing → Drawing
  | .node i t _ _ es, d =>
    match d.reachedBy[i]? with
    | some roots =>
      if roots.contains root then d
      else visitEdges style root none es (d.reach i (root :: roots))
    | none => visitEdges style root (some i) es ((d.reach i [root]).item (.node i t))

/-- Visits the nodes behind edges, which are drawn if their source is given. -/
def visitEdges (style : ChartStyle) (root : Nat) (source : Option Nat) :
    List (Edge Trie) → Drawing → Drawing
  | [], d => d
  | ⟨b, k, t⟩ :: es, d =>
    if isHidden style t then visitEdges style root source es d
    else
      let d := match source with
        | some i => d.item (.edge i t.id (b :: k))
        | none => d
      visitEdges style root source es (visit style root t d)

end

end Drawing

/-- The ids of the roots, the items in order, and the roots that reach each node. -/
structure Chart where
  roots : List Nat
  items : List ChartItem
  reachedBy : Std.HashMap Nat (List Nat)

namespace Chart

/-- The tries of a chart beyond this number are left out. -/
def maxRoots : Nat := 64

def ofTries (style : ChartStyle) (ts : List Trie) : Chart :=
  let ts := ts.take maxRoots
  let d := ts.zipIdx.foldl (fun d (t, i) => Drawing.visit style i t d) Drawing.empty
  ⟨ts.map Trie.id, d.itemsRev.reverse, d.reachedBy⟩

/-! ## Text -/

/-- The numbers of nodes, given out as they are first named. -/
abbrev Numbering := Std.HashMap Nat Nat

def Numbering.add (n : Numbering) (id : Nat) : Numbering :=
  if n.contains id then n else n.insert id n.size

/-- The nodes that an item names, in order. -/
def ChartItem.names : ChartItem → List Nat
  | .node i _ => [i]
  | .edge i j _ => [i, j]

def numbering (c : Chart) : Numbering :=
  (c.roots ++ c.items.flatMap ChartItem.names).foldl Numbering.add {}

/-- The colour of a node that the given roots reach. -/
def colour (roots : List Nat) : String :=
  match roots.contains 0, roots.contains 1, roots.contains 2 with
  | true, true, false => "#0aa"
  | true, false, true => "#a0a"
  | false, true, true => "#aa0"
  | true, true, true => "gray"
  | _, _, _ => "orange"

def label (style : ChartStyle) (key : Path) : String :=
  let listed := Listing.bytes key
  if style.asText then (String.fromUTF8? ⟨key.toArray⟩).getD listed else listed

/-- The text of a chart, `name` giving the number of a node. -/
def itemText (style : ChartStyle) (c : Chart) (name : Nat → Nat) : ChartItem → String
  | .node i t =>
    let node := s!"g{name i}@" ++ Listing.openBrace ++ " shape: rect, label: " ++
      Quoted.encode (if t then "T" else "N") ++ Listing.closeBrace ++ "\n"
    let roots := c.reachedBy.getD i []
    if 1 < roots.length then node ++ s!"style g{name i} fill:{colour roots}\n" else node
  | .edge i j key =>
    s!"g{name i} --" ++ Quoted.encode (label style key) ++ s!"--> g{name j}\n"

def text (style : ChartStyle) (c : Chart) : String :=
  let numbers := c.numbering
  let name (id : Nat) : Nat := numbers.getD id 0
  let roots := c.roots.zipIdx.map fun (id, i) => s!"r{i} --> g{name id}\n"
  "flowchart LR\n" ++ String.join roots ++ String.join (c.items.map (itemText style c name))

end Chart

end ByteTrie
