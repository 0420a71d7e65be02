import ByteTrie.Text.Binary32
import ByteTrie.Trie.Basic
import Std.Data.HashMap

/-!
# Occupancy

How many nodes and edges a trie has at each depth, and how long its keys are.  A subtrie that is
used in several places counts in each of them; `distinct` counts every node once.
-/

namespace ByteTrie

/-- The nodes at one depth. -/
structure DepthCounts where
  nodes : Nat
  items : Nat
  maxItems : Nat
  terminals : Nat
deriving DecidableEq, Repr

namespace DepthCounts

def add (a b : DepthCounts) : DepthCounts :=
  ⟨a.nodes + b.nodes, a.items + b.items, max a.maxItems b.maxItems, a.terminals + b.terminals⟩

/-- The counts of two tries at the same depths. -/
def addAll : List DepthCounts → List DepthCounts → List DepthCounts
  | a :: as, b :: bs => a.add b :: addAll as bs
  | as, [] => as
  | [], bs => bs

end DepthCounts

namespace Trie

mutual

/-- The counts by depth, from the root on. -/
def depthCounts : Trie → List DepthCounts
  | node _ t _ _ es => ⟨1, es.length, es.length, t.toNat⟩ :: edgeDepthCounts es

def edgeDepthCounts : List (Edge Trie) → List DepthCounts
  | [] => []
  | ⟨_, _, t⟩ :: es => DepthCounts.addAll (depthCounts t) (edgeDepthCounts es)

end

mutual

/-- The lengths of all keys, in front of `out`. -/
def keyLengthsOnto : Trie → List Nat → List Nat
  | node _ _ _ _ es, out => edgeKeyLengthsOnto es out

def edgeKeyLengthsOnto : List (Edge Trie) → List Nat → List Nat
  | [], out => out
  | ⟨_, k, t⟩ :: es, out => (k.length + 1) :: keyLengthsOnto t (edgeKeyLengthsOnto es out)

end

/-- Node ids that were met. -/
abbrev Seen := Std.HashMap Nat Unit

mutual

/-- Adds the ids of all nodes; below one that was met before there is nothing new. -/
def collectIds : Trie → Seen → Seen
  | node i _ _ _ es, seen =>
    if seen.contains i then seen else collectEdgeIds es (seen.insert i ())

def collectEdgeIds : List (Edge Trie) → Seen → Seen
  | [], seen => seen
  | ⟨_, _, t⟩ :: es, seen => collectEdgeIds es (collectIds t seen)

end

/-- The number of different nodes. -/
def distinctNodes (t : Trie) : Nat := (collectIds t {}).size

end Trie

structure Occupancy where
  byDepth : List DepthCounts
  keyLengths : List Nat
  distinct : Nat
deriving DecidableEq, Repr

namespace Occupancy

/-- The counts of no nodes at all. -/
def none : Occupancy := ⟨[], [], 0⟩

def ofTrie (t : Trie) : Occupancy := ⟨t.depthCounts, t.keyLengthsOnto [], t.distinctNodes⟩

def nodes (o : Occupancy) : Nat := total (o.byDepth.map fun d => d.nodes)

def items (o : Occupancy) : Nat := total (o.byDepth.map fun d => d.items)

def terminals (o : Occupancy) : Nat := total (o.byDepth.map fun d => d.terminals)

/-- The edges from the root to the deepest node. -/
def maxDepth (o : Occupancy) : Nat := o.byDepth.length - 1

/-- One more than the length of the longest key, and 0 if there are no keys. -/
def histogramLength (o : Occupancy) : Nat := o.keyLengths.foldl (fun m n => max m (n + 1)) 0

/-- The keys of each length that occurs, shortest first. -/
def histogram (o : Occupancy) : List (Nat × Nat) :=
  let lengths := (o.keyLengths.mergeSort fun m n => decide (m ≤ n)).eraseReps
  lengths.map fun n => (n, o.keyLengths.count n)

/-! ## Report -/

/-- `items / nodes` in binary32. -/
def average (items nodes : Nat) : Option Binary32 :=
  if nodes = 0 then Option.none else some ((Binary32.ofNat items).div (Binary32.ofNat nodes))

/-- The text of an average; that of no nodes is not a number. -/
def averageText (write : Binary32 → String) : Option Binary32 → String
  | some x => write x
  | Option.none => "NaN"

/-- The places of an average in a row. -/
def averagePlaces : Nat := 4

def row (depth : Nat) (d : DepthCounts) : String :=
  let avg := averageText (Binary32.fixed averagePlaces) (average d.items d.nodes)
  s!"{depth}\t{d.nodes}\t\t{d.items}\t\t{avg}\t\t{d.maxItems}\t\t{d.terminals}\n"

def text (o : Occupancy) : String :=
  let rows := o.byDepth.zipIdx.map fun (d, depth) => row depth d
  let avg := averageText Binary32.shortest (average o.items o.nodes)
  let lengths := o.histogram.map fun (n, count) => s!"{n}\t\t{count}\n"
  "\ttotal_nodes\ttot_child_cnt\tavg_branch\tmax_child_items\tterminals\n" ++ String.join rows ++
    s!"TOTAL nodes: {o.nodes}, distinct: {o.distinct}, items: {o.items}, " ++
    s!"avg children-per-node: {avg}\n" ++ "edge_len\tedge_cnt\n" ++ String.join lengths

end Occupancy

end ByteTrie
