import ByteTrie.Pattern.Basic
import ByteTrie.Pattern.Tally
import ByteTrie.Pattern.Utf8

/-!
# Room

A pattern stands for two automata over bytes, one that reads forwards and notes groups, and one that
reads backwards.  A pattern is refused if one of the two takes more than ten mebibytes.  Choices of
thousands of literals need no automaton.
-/

namespace ByteTrie

namespace Pattern

namespace Room

open Counting

/-! ## Sets -/

/-- Reads one byte of `n` ranges, and then is at one end. -/
def ofRanges (n : Nat) : Counting Unit := do
  single
  reading n

/-- The state at which some rows begin, of at most `depth` bytes each.  States that go on in the
same way are shared. -/
def beginning (stop : Nat) : (depth : Nat) → List Utf8.Row → Sharing Nat
  | 0, _ => return stop
  | depth + 1, rows => do
    let ways ← (Utf8.branches rows).mapM fun ((low, high), tails) => do
      let next ← if tails.all List.isEmpty then pure stop else beginning stop depth tails
      return [low, high, next]
    Sharing.state ways.flatten (ways.length * 8)

/-- One state for each way to read on. -/
def forwards (rows : List Utf8.Row) : Counting Unit := do
  let stop ← state 0
  Sharing.withSlots 10000 (discard (beginning stop 4 rows))

/-- The state at which a row ends that is read from its last byte on, up to `next`. -/
def ending (next : Nat) : Utf8.Row → Sharing Nat
  | [] => return next
  | (low, high) :: row => do ending (← Sharing.state [next, low, high] 0) row

/-- A way on for each row.  States that read what rows begin with are shared. -/
def backwards (rows : List Utf8.Row) : Counting Unit := do
  fork rows.length
  let stop ← state 0
  Sharing.withSlots 1000 (rows.forM fun row => discard (ending stop row))

def ofSet (backward : Bool) (a : Alphabet) (s : CharSet) : Counting Unit :=
  if a = .bytes ∨ s.runs.all (·.2 ≤ 0x7f) then ofRanges s.runs.length
  else if backward then backwards (Utf8.rowsOf s)
  else forwards (Utf8.rowsOf s)

/-! ## Choices of literals -/

/-- The literals up to the first one that is empty, and those behind it. -/
def splitEmpty (ls : List (List UInt8)) : List (List UInt8) × List (List UInt8) :=
  (ls.takeWhile (!·.isEmpty), (ls.dropWhile (!·.isEmpty)).drop 1)

/-- Literals by their first byte, in the order of their first appearance. -/
def byFirst (ls : List (List UInt8)) : List (List (List UInt8)) :=
  let firsts := (ls.filterMap List.head?).eraseDups
  firsts.map fun b => (ls.filter (·.head? = some b)).map (·.drop 1)

/-- The rows of literals between those that are empty. -/
def chunks : (limit : Nat) → List (List UInt8) → List (List (List UInt8))
  | 0, ls => [ls]
  | limit + 1, ls =>
    if ls.any List.isEmpty then (splitEmpty ls).1 :: chunks limit (splitEmpty ls).2 else [ls]

/-- How often a literal is complete between two rows.  Nothing is gained where there was no row to
read yet, except the first time. -/
def ends (cs : List (List (List UInt8))) : Nat :=
  cs.length - 1 - ((cs.takeWhile List.isEmpty).length - 1)

/-- The tree of literals, of which the longest has fewer than `limit` bytes. -/
def ofLiterals : (limit : Nat) → List (List UInt8) → Counting Unit
  | 0, _ => return
  | limit + 1, ls =>
    if ls.all List.isEmpty then return
    else do
      let cs := chunks ls.length ls
      let groups := (cs.filter (!·.isEmpty)).map byFirst
      groups.forM fun g => do
        g.forM (ofLiterals limit)
        if g.length = 1 then single else reading g.length
      fork (groups.length + ends cs)

/-! ## Patterns -/

def literal? : Pattern → Option (List UInt8)
  | literal bs => some bs
  | _ => none

def exactly (n : Nat) (c : Counting Unit) : Counting Unit := if n = 0 then single else times n c

def repeating (needsBytes : Bool) (least : Nat) (most : Option Nat) (c : Counting Unit) :
    Counting Unit :=
  match least, most with
  | 0, some 1 => inOrder [fork 2, c, single]
  | 0, none => inOrder (if needsBytes then [fork 2, c] else [c, fork 2, fork 2, single])
  | least, none => inOrder [times least c, fork 2]
  | least, some most =>
    if least = most then exactly least c
    else inOrder [exactly least c, single, times (most - least) (inOrder [fork 2, c])]

mutual

def ofPattern (backward : Bool) : Pattern → Counting Unit
  | empty => single
  | literal bs => times bs.length single
  | oneOf a s => ofSet backward a s
  | look _ => single
  | group _ p =>
    if backward then ofPattern backward p else inOrder [single, ofPattern backward p, single]
  | repeated _ least most p => repeating p.needsBytes least most (ofPattern backward p)
  | sequence ps =>
    let cs := ofPatterns backward ps
    inOrder (if backward then cs.reverse else cs)
  | choice ps =>
    match ps.mapM literal? with
    | some ls => do
      single
      let ls := if backward then ls.map List.reverse else ls
      ofLiterals ((ls.map List.length).foldl max 0 + 1) ls
    | none =>
      let cs := ofPatterns backward ps
      inOrder (cs.take 2 ++ [fork ps.length, single] ++ cs.drop 2)

def ofPatterns (backward : Bool) : List Pattern → List (Counting Unit)
  | [] => []
  | p :: ps => ofPattern backward p :: ofPatterns backward ps

end

/-! ## Ends of the text -/

mutual

/-- Whether a pattern matches at one end of the text only, by a condition in front of all bytes
(or, backwards, behind them). -/
def isAnchored (backward : Bool) : Pattern → Bool
  | look l => l == if backward then .textEnd else .textStart
  | group _ p => isAnchored backward p
  | repeated _ least _ p => 0 < least && isAnchored backward p
  | sequence ps => (if backward then lastAnchored ps else firstAnchored ps)
  | choice ps => allAnchored backward ps
  | _ => false

def firstAnchored : List Pattern → Bool
  | [] => false
  | p :: ps => isAnchored false p || (p.maxLength == some 0 && firstAnchored ps)

def lastAnchored : List Pattern → Bool
  | [] => false
  | p :: ps => lastAnchored ps || (isAnchored true p && ps.all (·.maxLength == some 0))

def allAnchored (backward : Bool) : List Pattern → Bool
  | [] => true
  | p :: ps => isAnchored backward p && allAnchored backward ps

end

/-- What skips bytes up to where a match begins. -/
def lead (backward : Bool) (p : Pattern) : Counting Unit :=
  if isAnchored backward p then single else inOrder [fork 2, ofRanges 1]

/-- What skips bytes, the pattern as a group, and what accepts. -/
def automaton (backward : Bool) (p : Pattern) : Counting Unit :=
  inOrder [lead backward p, ofPattern backward (.group 0 p), single]

/-- Whether a pattern is a choice of so many literals that they are searched for as words. -/
def isWordList : Pattern → Bool
  | choice ps => 3000 ≤ ps.length && (ps.mapM literal?).isSome
  | _ => false

def fits (p : Pattern) : Bool :=
  isWordList p || ((automaton false p).succeeds && (automaton true p).succeeds)

end Room

end Pattern

end ByteTrie
