import ByteTrie.Pattern.CharSet
import ByteTrie.Total

/-!
# Patterns

What a pattern is made of, once its text has been read: flags have been applied, and groups are
numbered.  Group 0 is the whole match.  Patterns are built in a simplified form, by `ofSet`,
`repeating`, `inSequence` and `inChoice`.
-/

namespace ByteTrie

/-- A condition on the place between two bytes. -/
inductive Look where
  | textStart
  | textEnd
  | lineStart
  | lineEnd
  /-- Between lines that may also end in a carriage return, or in both. -/
  | crlfLineStart
  | crlfLineEnd
  | wordEdge
  | notWordEdge
  | wordStart
  | wordEnd
  | noWordBefore
  | noWordAfter
deriving DecidableEq, Repr

namespace Look

def lineFeed : UInt8 := 0x0a

def carriageReturn : UInt8 := 0x0d

/-- Whether there is a byte that is a word character of ASCII. -/
def isWord (b : Option UInt8) : Bool := b.any fun b => CharSet.word.contains b.toNat

/-- Whether the condition holds between the bytes `before` and `after`, of which one is missing at
an end of the text. -/
def holds (l : Look) (before after : Option UInt8) : Bool :=
  match l with
  | textStart => before.isNone
  | textEnd => after.isNone
  | lineStart => before.isNone || before == some lineFeed
  | lineEnd => after.isNone || after == some lineFeed
  | crlfLineStart =>
    before.isNone || before == some lineFeed ||
      (before == some carriageReturn && after != some lineFeed)
  | crlfLineEnd =>
    after.isNone || after == some carriageReturn ||
      (after == some lineFeed && before != some carriageReturn)
  | wordEdge => isWord before != isWord after
  | notWordEdge => isWord before == isWord after
  | wordStart => !isWord before && isWord after
  | wordEnd => isWord before && !isWord after
  | noWordBefore => !isWord before
  | noWordAfter => !isWord after

end Look

inductive Pattern where
  | empty
  /-- The given bytes, of which there is at least one. -/
  | literal (bs : List UInt8)
  /-- One byte of the set, or one character of it in UTF-8. -/
  | oneOf (a : Alphabet) (s : CharSet)
  | look (l : Look)
  | group (index : Nat) (p : Pattern)
  /-- At least `least` and at most `most` times; as often as possible if greedy, else as seldom. -/
  | repeated (greedy : Bool) (least : Nat) (most : Option Nat) (p : Pattern)
  | sequence (ps : List Pattern)
  /-- One of some patterns, the earlier ones preferred. -/
  | choice (ps : List Pattern)

namespace Pattern

mutual

/-- Whether two patterns are the same. -/
def same : Pattern → Pattern → Bool
  | empty, empty => true
  | literal bs, literal bs' => bs == bs'
  | oneOf a s, oneOf a' s' => a == a' && s == s'
  | look l, look l' => l == l'
  | group i p, group i' p' => i == i' && same p p'
  | repeated g l m p, repeated g' l' m' p' => g == g' && l == l' && m == m' && same p p'
  | sequence ps, sequence ps' => sameAll ps ps'
  | choice ps, choice ps' => sameAll ps ps'
  | _, _ => false

def sameAll : List Pattern → List Pattern → Bool
  | [], [] => true
  | p :: ps, p' :: ps' => same p p' && sameAll ps ps'
  | _, _ => false

end

/-! ## Lengths -/

/-- The number of bytes of a character in UTF-8. -/
def charSize (n : Nat) : Nat :=
  if n ≤ 0x7f then 1 else if n ≤ 0x7ff then 2 else if n ≤ 0xffff then 3 else 4

def memberSize : Alphabet → Nat → Nat
  | .bytes, _ => 1
  | .chars, n => charSize n

/-- The least of some numbers that are all known. -/
def leastOf : List (Option Nat) → Option Nat
  | [] => none
  | [n] => n
  | n :: ns => do return min (← n) (← leastOf ns)

/-- The greatest of some numbers that are all known. -/
def greatestOf : List (Option Nat) → Option Nat
  | [] => none
  | [n] => n
  | n :: ns => do return max (← n) (← greatestOf ns)

def sumOf : List (Option Nat) → Option Nat
  | [] => some 0
  | n :: ns => do return (← n) + (← sumOf ns)

mutual

/-- The length of the shortest string of bytes that matches, none if nothing does. -/
def minLength : Pattern → Option Nat
  | empty => some 0
  | literal bs => some bs.length
  | oneOf a s => s.runs.head?.map fun r => memberSize a r.1
  | look _ => some 0
  | group _ p => minLength p
  | repeated _ least _ p => (minLength p).map (least * ·)
  | sequence ps => sumOf (minLengths ps)
  | choice ps => leastOf (minLengths ps)

def minLengths : List Pattern → List (Option Nat)
  | [] => []
  | p :: ps => minLength p :: minLengths ps

end

mutual

/-- The length of the longest string of bytes that matches, none if there is no bound. -/
def maxLength : Pattern → Option Nat
  | empty => some 0
  | literal bs => some bs.length
  | oneOf a s => s.runs.getLast?.map fun r => memberSize a r.2
  | look _ => some 0
  | group _ p => maxLength p
  | repeated _ _ most p => do return (← most) * (← maxLength p)
  | sequence ps => sumOf (maxLengths ps)
  | choice ps => greatestOf (maxLengths ps)

def maxLengths : List Pattern → List (Option Nat)
  | [] => []
  | p :: ps => maxLength p :: maxLengths ps

end

/-- Whether a pattern needs at least one byte. -/
def needsBytes (p : Pattern) : Bool := p.minLength.any (0 < ·)

/-! ## Simplified forms -/

def ofBytes (bs : List UInt8) : Pattern := if bs.isEmpty then empty else literal bs

/-- The bytes that a character or byte number stands for. -/
def memberBytes : Alphabet → Nat → List UInt8
  | .bytes, n => [UInt8.ofNat n]
  | .chars, n => String.utf8EncodeChar (Char.ofNat n)

/-- One member of a set.  A set with one member is a literal. -/
def ofSet (a : Alphabet) (s : CharSet) : Pattern :=
  match s.runs with
  | [] => oneOf .bytes CharSet.empty
  | [(low, high)] => if low = high then literal (memberBytes a low) else oneOf a s
  | _ => oneOf a s

/-- Repeats a pattern.  What matches the empty string only is not repeated more than once, because
the further repetitions would change nothing. -/
def repeating (greedy : Bool) (least : Nat) (most : Option Nat) (p : Pattern) : Pattern :=
  let widthless := p.maxLength == some 0
  let least := if widthless then min least 1 else least
  let most := if widthless then some (min (most.getD 1) 1) else most
  if least = 0 ∧ most = some 0 then empty
  else if least = 1 ∧ most = some 1 then p
  else repeated greedy least most p

/-- The parts of a sequence, of which none is empty or a sequence. -/
def parts : Pattern → List Pattern
  | empty => []
  | sequence ps => ps
  | p => [p]

/-- Joins neighbouring literals. -/
def joinLiterals : List Pattern → List Pattern
  | [] => []
  | literal bs :: ps =>
    match joinLiterals ps with
    | literal bs' :: rest => literal (bs ++ bs') :: rest
    | rest => literal bs :: rest
  | p :: ps => p :: joinLiterals ps

def inSequence (ps : List Pattern) : Pattern :=
  match joinLiterals (ps.flatMap parts) with
  | [] => empty
  | [p] => p
  | ps => sequence ps

/-- The alternatives of a choice, of which none is a choice. -/
def alternatives : Pattern → List Pattern
  | choice ps => ps
  | p => [p]

/-- The number of the one character that bytes stand for. -/
def charOf? (bs : List UInt8) : Option Nat :=
  match String.fromUTF8? bs.toByteArray with
  | none => none
  | some s =>
    match s.toList with
    | [c] => some c.toNat
    | _ => none

def literalChar? : Pattern → Option Nat
  | literal bs => charOf? bs
  | _ => none

def literalByte? : Pattern → Option Nat
  | literal [b] => some b.toNat
  | _ => none

/-- The members of a set that can be taken as one of an alphabet: ASCII is in both. -/
def setOf? (a : Alphabet) : Pattern → Option CharSet
  | oneOf a' s => if a = a' ∨ s.runs.all (·.2 ≤ 0x7f) then some s else none
  | _ => none

/-- The one set that some patterns are together, if they all are characters, bytes, or sets of one
of these. -/
def joinSets? (ps : List Pattern) : Option Pattern :=
  let singles (a : Alphabet) (ns : List Nat) : Pattern :=
    ofSet a (CharSet.ofRuns (ns.map fun n => (n, n)))
  let sets (a : Alphabet) (ss : List CharSet) : Pattern :=
    ofSet a (CharSet.ofRuns (ss.flatMap CharSet.runs))
  ((ps.mapM literalChar?).map (singles .chars)).or <|
    ((ps.mapM literalByte?).map (singles .bytes)).or <|
      ((ps.mapM (setOf? .chars)).map (sets .chars)).or <|
        (ps.mapM (setOf? .bytes)).map (sets .bytes)

/-- How many parts two sequences have in common in front. -/
def commonParts : List Pattern → List Pattern → Nat
  | p :: ps, q :: qs => if same p q then commonParts ps qs + 1 else 0
  | _, _ => 0

def sequenceParts? : Pattern → Option (List Pattern)
  | sequence ps => some ps
  | _ => none

/-- What is left of alternatives once the parts that all of them begin with are taken out, and
those parts.  Only sequences have parts to take out. -/
def liftCommon? (ps : List Pattern) : Option (List Pattern × List Pattern) :=
  match ps.mapM sequenceParts? with
  | some (first :: rest) =>
    let n := rest.foldl (fun n qs => min n (commonParts first qs)) first.length
    if n = 0 then none
    else some (first.take n, (first :: rest).map fun qs => inSequence (qs.drop n))
  | _ => none

/-- One of some patterns.  Parts that all of them begin with come before the choice, again and
again at most `limit` times. -/
def chooseWithin : (limit : Nat) → List Pattern → Pattern
  | limit, ps =>
    match ps.flatMap alternatives with
    | [] => oneOf .bytes CharSet.empty
    | [p] => p
    | ps =>
      match joinSets? ps with
      | some p => p
      | none =>
        match limit, liftCommon? ps with
        | limit + 1, some (common, rest) => inSequence (common ++ [chooseWithin limit rest])
        | _, _ => choice ps

/-- One of some patterns; each time parts are taken out, the first pattern gets shorter. -/
def inChoice (ps : List Pattern) : Pattern :=
  chooseWithin (total (ps.map fun p => p.parts.length) + 1) ps

end Pattern

end ByteTrie
