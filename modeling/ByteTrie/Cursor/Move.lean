import ByteTrie.Cursor.Basic

/-!
# Moves

A move answers whether it succeeded, and where the cursor is then.  One that fails comes back to
where it began: a path is taken byte by byte and given up again where the trie ends, and a sibling is
looked for from one byte above.  `nextMember` alone goes to the root when there is no further member.

    descendByte b     to path ++ [b]
    descend p         to path ++ p
    descendIndex i    by the i-th child byte
    ascend n          to the path without its last n bytes
    nextSibling       to the path with its last byte replaced by the next one there is
    nextMember        to the least member greater than the path
-/

namespace ByteTrie

namespace Cursor

/-! ## Down -/

/-- To the child behind an edge of the node, once the path has the whole key of the edge. -/
def enterChild (c : Cursor) (i : Nat) (e : Edge Trie) : Cursor :=
  { c with
    node := e.child
    starts := c.bytes.size :: c.starts
    ancestors := (c.node, i) :: c.ancestors }

/-- One byte further along an edge of the node. -/
def along (c : Cursor) (b : UInt8) (i : Nat) (e : Edge Trie) : Cursor :=
  let d := { c with bytes := c.bytes.push b }
  if c.keyLength + 1 = e.key.length then d.enterChild i e else d

/-- The edge that a path goes on along by `b`, after its index. -/
def edgeBy? (c : Cursor) (b : UInt8) : Option (Nat × Edge Trie) :=
  match c.focusEdge? with
  | some (i, e) => if e.key[c.keyLength]! = b then some (i, e) else none
  | none => c.node.edgeAt? b

def descendByte? (c : Cursor) (b : UInt8) : Option Cursor :=
  (c.edgeBy? b).map fun (i, e) => c.along b i e

def descendIndex? (c : Cursor) (i : Nat) : Option Cursor := do
  c.descendByte? (← c.childMask.nth? i)

/-! ## Up -/

/-- Pops the nodes that begin behind the first `n` bytes.  With more starts than ancestors this
would never end. -/
def popTo? (n : Nat) : List Nat → Cursor → Option Cursor
  | [], c => some c
  | s :: ss, c =>
    if s ≤ n then some c
    else match c.ancestors with
      | [] => none
      | (t, _) :: as => popTo? n ss { c with node := t, starts := ss, ancestors := as }

/-- To the first `n` bytes of the path. -/
def ascendTo? (c : Cursor) (n : Nat) : Option Cursor :=
  (popTo? n c.starts c).map fun d => { d with bytes := d.bytes.take n }

def ascendTo (c : Cursor) (n : Nat) : Cursor := (c.ascendTo? n).getD c

def ascend (c : Cursor) (n : Nat) : Bool × Cursor :=
  if n ≤ c.bytes.size then (true, c.ascendTo (c.bytes.size - n)) else (false, c)

def reset (c : Cursor) : Cursor := ofTrie c.root

/-- Byte by byte, and back to the first `n` bytes where the trie ends. -/
def descendOr (n : Nat) : Path → Cursor → Bool × Cursor
  | [], c => (true, c)
  | b :: p, c =>
    match c.descendByte? b with
    | some d => descendOr n p d
    | none => (false, c.ascendTo n)

def descend (c : Cursor) (p : Path) : Bool × Cursor := descendOr c.bytes.size p c

/-- `c'` if there is one, else `c`. -/
def orStay (c : Cursor) : Option Cursor → Bool × Cursor
  | some c' => (true, c')
  | none => (false, c)

/-! ## Sideways -/

/-- Up one byte, and down again by the byte that `choose` picks, or by the same one. -/
def sibling (c : Cursor) (choose : ByteMask → UInt8 → Option UInt8) : Bool × Cursor :=
  match c.bytes.back? with
  | none => (false, c)
  | some b =>
    let d := c.ascendTo (c.bytes.size - 1)
    let other := choose d.childMask b
    (other.isSome, (d.orStay (d.descendByte? (other.getD b))).2)

/-! ## Forward -/

/-- Along what is left of an edge of the node, to its child. -/
def follow (c : Cursor) (i : Nat) (e : Edge Trie) : Cursor :=
  { c with bytes := c.bytes ++ e.key.drop c.keyLength }.enterChild i e

/-- To the first member, down from the start of the node. -/
def firstMember? : Trie → Cursor → Option Cursor
  | .node _ true _ _ _, c => some c
  | .node _ false _ _ [], _ => none
  | .node _ false _ _ (⟨b, k, t⟩ :: _), c => firstMember? t (c.follow 0 ⟨b, k, t⟩)

/-- To the first member behind an edge of the node. -/
def firstAlong? (c : Cursor) : Option (Nat × Edge Trie) → Option Cursor
  | none => none
  | some (i, e) => firstMember? e.child (c.follow i e)

/-- To the start of the last ancestor. -/
def pop (c : Cursor) (t : Trie) (above : List (Trie × Nat)) : Cursor :=
  { c with
    node := t
    bytes := c.bytes.take (c.starts.tail.headD 0)
    starts := c.starts.tail
    ancestors := above }

/-- To the first member after the edges taken from the ancestors. -/
def firstAfter? : List (Trie × Nat) → Cursor → Option Cursor
  | [], _ => none
  | (t, i) :: above, c =>
    let d := c.pop t above
    d.firstAlong? (t.edges[i + 1]?.map fun e => (i + 1, e)) <|> firstAfter? above d

/-- The edge the focus is inside, or the first one of its node, after its index. -/
def edgeAhead? (c : Cursor) : Option (Nat × Edge Trie) :=
  c.focusEdge? <|> c.node.edges.head?.map fun e => (0, e)

def nextMember? (c : Cursor) : Option Cursor :=
  c.firstAlong? c.edgeAhead? <|> firstAfter? c.ancestors c

/-! ## All moves -/

inductive Move where
  | descend (p : Path)
  | descendByte (b : UInt8)
  | descendIndex (i : Nat)
  | ascend (n : Nat)
  | nextSibling
  | prevSibling
  | nextMember
  | reset
deriving DecidableEq, Repr

def move (c : Cursor) : Move → Bool × Cursor
  | .descend p => c.descend p
  | .descendByte b => c.orStay (c.descendByte? b)
  | .descendIndex i => c.orStay (c.descendIndex? i)
  | .ascend n => c.ascend n
  | .nextSibling => c.sibling ByteMask.next?
  | .prevSibling => c.sibling ByteMask.prev?
  | .nextMember => c.reset.orStay c.nextMember?
  | .reset => (true, c.reset)

end Cursor

end ByteTrie
