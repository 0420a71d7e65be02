import ByteTrie.Pattern.Atom
import ByteTrie.Pattern.Room
import ByteTrie.Text.Alphabetic

/-!
# The text of patterns

A pattern is a row of alternatives, an alternative a row of pieces, and a piece an atom, a set, a
group or a repetition of the piece before it.
-/

namespace ByteTrie

namespace Pattern

/-- How deep the parts of a pattern's text may be nested in one another.  Rows of several pieces and
of several alternatives count, and so do groups, repetitions and sets. -/
def maxDepth : Nat := 250

namespace Scanner

/-- A repeated piece, whose operator has been read. -/
def repetition (least : Nat) (most : Option Nat) (p : Nested Pattern) :
    Scanner (Nested Pattern) := do
  if maxDepth ≤ p.depth then failure
  let f ← flags
  let few := (← peek) == some '?'
  if few then skip
  return ⟨repeating (few == f.swapGreed) least most p.value, p.depth + 1⟩

/-- How often a piece is repeated, behind the opening brace. -/
def counts : Scanner (Nat × Option Nat) := do
  blanks
  let least ← decimal
  match ← char with
  | '\x7d' => return (least, some least)
  | ',' =>
    blanks
    if (← peek) = some '\x7d' then
      skip
      return (least, none)
    else
      let most ← decimal
      expect '\x7d'
      if least ≤ most then return (least, some most) else failure
  | _ => failure

/-! ## Groups -/

def isNameStart (c : Char) : Bool := c = '_' || Alphabetic.contains c

def isNameChar (c : Char) : Bool :=
  isNameStart c || Numeric.contains c || c = '.' || c = '[' || c = ']'

def isName : List Char → Bool
  | [] => false
  | c :: cs => isNameStart c && cs.all isNameChar

def newGroup : Scanner Nat := do
  let s ← get
  set { s with groups := s.groups + 1 }
  return s.groups

/-- The number of a new group with the name in front. -/
def namedGroup : Scanner Nat := do
  let cs ← upTo '>'
  let name := String.ofList cs
  let s ← get
  if !isName cs || s.names.any (·.1 == name) then failure
  let index ← newGroup
  modify ({ · with names := (name, index) :: s.names })
  return index

/-- What stands in a group up to its end, where flags return to what they were around it. -/
def groupBody (inner : Scanner (Nested Pattern)) (outer : Flags) : Scanner (Nested Pattern) := do
  let p ← inner
  expect ')'
  setFlags outer
  return ⟨p.value, p.depth + 1⟩

/-- A group with a number. -/
def numberedGroup (inner : Scanner (Nested Pattern)) (outer : Flags) (index : Nat) :
    Scanner (Nested Pattern) := do
  let p ← groupBody inner outer
  return ⟨.group index p.value, p.depth⟩

/-- The letters in front, up to a colon or a closing parenthesis, and which of the two it is. -/
def flagLetters : Scanner (List Char × Char) := do
  let cs ← rest
  let isLetter (c : Char) : Bool := c ≠ ':' && c ≠ ')'
  match cs.dropWhile isLetter with
  | [] => failure
  | stop :: after =>
    setRest after
    return (cs.takeWhile isLetter, stop)

/-- A part of a row: a pattern, or flags for what follows, which are none. -/
abbrev Piece := Option (Nested Pattern)

/-- What an opening parenthesis begins. -/
def group (inner : Scanner (Nested Pattern)) : Scanner Piece := do
  blanks
  let outer ← flags
  match ← rest with
  | '?' :: 'P' :: '<' :: cs | '?' :: '<' :: cs =>
    setRest cs
    return some (← numberedGroup inner outer (← namedGroup))
  | '?' :: cs =>
    setRest cs
    let (letters, stop) ← flagLetters
    setFlags (← outer.update? letters)
    if stop = ':' then return some (← groupBody inner outer)
    else if letters.isEmpty then failure
    else return none
  | _ => return some (← numberedGroup inner outer (← newGroup))

/-! ## Rows -/

/-- How deep a row is nested: deeper than its parts if there are several. -/
def rowDepth (depths : List Nat) : Nat :=
  let deepest := depths.foldl max 0
  if depths.length ≤ 1 then deepest else deepest + 1

/-- One piece after the other, from the last one to the first. -/
def ofPieces (ps : List Piece) : Nested Pattern :=
  ⟨inSequence ((ps.reverse.filterMap id).map (·.value)),
    rowDepth (ps.map fun p => p.elim 0 (·.depth))⟩

/-- One of some alternatives, from the last one to the first. -/
def ofAlternatives (ps : List (Nested Pattern)) : Nested Pattern :=
  ⟨inChoice (ps.reverse.map (·.value)), rowDepth (ps.map (·.depth))⟩

/-- The alternatives up to a closing parenthesis or the end, where `inner` reads those of a group.
`ready` holds the alternatives that are complete, and `pieces` those of the next one, the last one
first. -/
def alternativesFrom (inner : Scanner (Nested Pattern)) :
    (limit : Nat) → (ready : List (Nested Pattern)) → (pieces : List Piece) →
      Scanner (Nested Pattern)
  | 0, _, _ => failure
  | limit + 1, ready, pieces => do
    let piece (p : Piece) : Scanner (Nested Pattern) :=
      alternativesFrom inner limit ready (p :: pieces)
    let repeated (least : Nat) (most : Option Nat) : Scanner (Nested Pattern) :=
      match pieces with
      | some p :: before => do
        let p ← repetition least most p
        alternativesFrom inner limit ready (some p :: before)
      | _ => failure
    blanks
    match ← peek with
    | none => return ofAlternatives (ofPieces pieces :: ready)
    | some ')' => return ofAlternatives (ofPieces pieces :: ready)
    | some '|' =>
      skip
      alternativesFrom inner limit (ofPieces pieces :: ready) []
    | some '(' =>
      skip
      piece (← group inner)
    | some '[' =>
      skip
      let s ← bracketed maxDepth
      piece (some ⟨ofSet (← flags).alphabet s.value, s.depth⟩)
    | some '?' =>
      skip
      repeated 0 (some 1)
    | some '*' =>
      skip
      repeated 0 none
    | some '+' =>
      skip
      repeated 1 none
    | some '\x7b' =>
      skip
      let (least, most) ← counts
      blanks
      repeated least most
    | some _ =>
      let f ← flags
      piece (some ⟨(← atom).toPattern f, 0⟩)

/-- The alternatives in front, with groups nested at most `depth` deep. -/
def alternatives : (depth : Nat) → Scanner (Nested Pattern)
  | 0 => do alternativesFrom failure (← limit) [] []
  | depth + 1 => do alternativesFrom (alternatives depth) (← limit) [] []

end Scanner

/-- A pattern whose groups are counted, with their numbers by name. -/
structure Grouped where
  pattern : Pattern
  groups : Nat
  names : List (String × Nat)

/-- Reads a pattern, as group 0. -/
def parse? (text : String) : Option Grouped :=
  let cs := text.toList
  match Scanner.alternatives maxDepth ⟨cs, cs.length + 1, Flags.default, 1, []⟩ with
  | some (p, s) =>
    if s.rest.isEmpty && p.depth ≤ maxDepth && Room.fits p.value then
      some ⟨.group 0 p.value, s.groups, s.names⟩
    else none
  | none => none

end Pattern

end ByteTrie
