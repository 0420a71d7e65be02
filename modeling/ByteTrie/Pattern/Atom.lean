import ByteTrie.Pattern.Scan

/-!
# Atoms of patterns

An atom is a character, a set or a look; most of those that begin with a backslash are here, and so
are the sets in square brackets.
-/

namespace ByteTrie

namespace Pattern

inductive Atom where
  /-- A character; `asByte` if its number was given as that of a byte. -/
  | literal (c : Char) (asByte : Bool)
  | set (s : CharSet)
  | look (l : Look)

namespace Atom

def ofChar (f : Flags) (c : Char) (asByte : Bool) : Pattern :=
  if f.alphabet = .bytes ∧ asByte ∧ 0x80 ≤ c.toNat then Pattern.literal [UInt8.ofNat c.toNat]
  else if f.ignoreCase ∧ CharSet.alpha.contains c.toNat then
    ofSet f.alphabet ((CharSet.single c.toNat).folded f.alphabet)
  else Pattern.literal (String.utf8EncodeChar c)

def toPattern (f : Flags) : Atom → Pattern
  | literal c asByte => ofChar f c asByte
  | set s => ofSet f.alphabet s
  | look l => Pattern.look l

/-- Every character or byte that a dot stands for. -/
def dot (f : Flags) : CharSet :=
  let left :=
    if f.dotAll then CharSet.empty
    else if f.crlf then (CharSet.single 0x0a).union (CharSet.single 0x0d)
    else CharSet.single 0x0a
  left.compl f.alphabet

def caret (f : Flags) : Look :=
  if f.multiLine then if f.crlf then .crlfLineStart else .lineStart else .textStart

def dollar (f : Flags) : Look :=
  if f.multiLine then if f.crlf then .crlfLineEnd else .lineEnd else .textEnd

end Atom

namespace Scanner

open CharSet

/-! ## Escapes -/

/-- Characters that stand for themselves behind a backslash. -/
def isEscapable (c : Char) : Bool :=
  c.toNat < 0x80 && !CharSet.alnum.contains c.toNat && c ≠ '<' && c ≠ '>'

/-- A character by its number, of `digits` digits or in braces. -/
def numbered (digits : Nat) : Scanner Atom := do
  blanks
  if (← peek) = some '\x7b' then
    skip
    let n ← hexBraced (← limit) none
    blanks
    return .literal (← charOf n) false
  else
    let n ← hexDigits digits 0
    return .literal (← charOf n) (digits == 2)

def isWordLetter (c : Char) : Bool := CharSet.alpha.contains c.toNat || c = '-'

/-- The letters in front, blanks left out where they may stand. -/
def wordLetters : (limit : Nat) → Scanner (List Char)
  | 0 => failure
  | limit + 1 => do
    blanks
    match ← peek with
    | some c =>
      if isWordLetter c then
        skip
        return c :: (← wordLetters limit)
      else return []
    | none => return []

/-- What a word edge is narrowed to by a name in braces; braces around anything but a name are left
for a repetition. -/
def wordEdgeKind : Scanner Look := do
  let before ← rest
  if before.head? ≠ some '\x7b' then return .wordEdge
  skip
  blanks
  match ← peek with
  | none => failure
  | some c =>
    if !isWordLetter c then
      setRest before
      return .wordEdge
    let name ← wordLetters (← limit)
    expect '\x7d'
    match String.ofList name with
    | "start" => return .wordStart
    | "end" => return .wordEnd
    | "start-half" => return .noWordBefore
    | "end-half" => return .noWordAfter
    | _ => failure

/-- The set of a letter, or the set of all that is not in it for a capital. -/
def letterSet? (f : Flags) (c : Char) : Option CharSet :=
  (ofLetter? f.alphabet c.toLower).map (complIf f.alphabet c.isUpper)

/-- What follows a backslash. -/
def escape : Scanner Atom := do
  match ← char with
  | 'x' => numbered 2
  | 'u' => numbered 4
  | 'U' => numbered 8
  | 'a' => return .literal '\x07' false
  | 'f' => return .literal '\x0c' false
  | 't' => return .literal '\t' false
  | 'n' => return .literal '\n' false
  | 'r' => return .literal '\r' false
  | 'v' => return .literal '\x0b' false
  | 'A' => return .look .textStart
  | 'z' => return .look .textEnd
  | 'b' => return .look (← wordEdgeKind)
  | 'B' => return .look .notWordEdge
  | '<' => return .look .wordStart
  | '>' => return .look .wordEnd
  | c =>
    if isEscapable c then return .literal c false
    else return .set (← letterSet? (← flags) c)

/-- An atom outside square brackets. -/
def atom : Scanner Atom := do
  let f ← flags
  match ← char with
  | '\\' => escape
  | '.' => return .set (Atom.dot f)
  | '^' => return .look (Atom.caret f)
  | '$' => return .look (Atom.dollar f)
  | c => return .literal c false

/-! ## Sets in square brackets -/

/-- The set that `[:name:]` or `[:^name:]` stands for, behind its opening bracket, and the text
after it. -/
def namedSet? (a : Alphabet) (cs : List Char) : Option (CharSet × List Char) :=
  match cs with
  | ':' :: cs =>
    let negated := cs.head? == some '^'
    let cs := if negated then cs.drop 1 else cs
    match cs.dropWhile (· ≠ ':') with
    | ':' :: ']' :: after => do
      let s ← named? (String.ofList (cs.takeWhile (· ≠ ':')))
      return (s.complIf a negated, after)
    | _ => none
  | _ => none

def setAtom : Scanner Atom := do
  match ← char with
  | '\\' => escape
  | c => return .literal c false

/-- Sets of bytes hold no other characters than those of ASCII, unless they are given as bytes. -/
def checkMember (f : Flags) (c : Char) (asByte : Bool) : Scanner Unit :=
  if f.unicode || asByte || c.toNat < 0x80 then return () else failure

/-- A member of a set, or a range of them. -/
def setItem : Scanner CharSet := do
  let f ← flags
  let first ← setAtom
  blanks
  let cs ← rest
  let next := (shown f (cs.drop 1)).head?
  if cs.head? = some '-' ∧ next ≠ some ']' ∧ next ≠ some '-' then
    skip
    blanks
    match first, ← setAtom with
    | .literal low lowAsByte, .literal high highAsByte =>
      checkMember f low lowAsByte
      checkMember f high highAsByte
      if low ≤ high then return interval low high else failure
    | _, _ => failure
  else
    match first with
    | .literal c asByte =>
      checkMember f c asByte
      return single c.toNat
    | .set s => return s
    | .look _ => failure

def foldedIf (f : Flags) (s : CharSet) : CharSet :=
  if f.ignoreCase then s.folded f.alphabet else s

/-- Members of a set that have been read: their union since the last operator, how many they are,
and how deep they are nested.  `apply` is what the operator does with them, and `left` is how deep
the text in front of it is nested. -/
structure Members where
  apply : CharSet → CharSet
  left : Option Nat
  set : CharSet
  count : Nat
  depth : Nat

namespace Members

def add (m : Members) (s : CharSet) (depth : Nat) : Members :=
  { m with set := m.set.union s, count := m.count + 1, depth := max m.depth depth }

/-- The set up to here, and how deep its text is nested. -/
def whole (f : Flags) (m : Members) : Nested CharSet :=
  let depth := if m.count ≤ 1 then m.depth else m.depth + 1
  ⟨foldedIf f (m.apply m.set), match m.left with | none => depth | some d => max d depth + 1⟩

/-- Goes on behind an operator. -/
def before (f : Flags) (op : CharSet → CharSet → CharSet) (m : Members) : Members :=
  let left := m.whole f
  ⟨fun s => op left.value (foldedIf f s), some left.depth, CharSet.empty, 0, 0⟩

end Members

/-- The members up to the closing bracket, where `inner` reads a set within the set. -/
def setMembers (inner : Scanner (Nested CharSet)) :
    (limit : Nat) → Members → Scanner (Nested CharSet)
  | 0, _ => failure
  | limit + 1, m => do
    let f ← flags
    blanks
    match ← rest with
    | ']' :: cs =>
      setRest cs
      return m.whole f
    | '[' :: cs =>
      match namedSet? f.alphabet cs with
      | some (s, after) =>
        setRest after
        setMembers inner limit (m.add s 0)
      | none =>
        setRest cs
        let s ← inner
        setMembers inner limit (m.add s.value s.depth)
    | '&' :: '&' :: cs =>
      setRest cs
      setMembers inner limit (m.before f inter)
    | '-' :: '-' :: cs =>
      setRest cs
      setMembers inner limit (m.before f (diff f.alphabet))
    | '~' :: '~' :: cs =>
      setRest cs
      setMembers inner limit (m.before f (symmDiff f.alphabet))
    | _ => setMembers inner limit (m.add (← setItem) 0)

/-- Adds the hyphens in front. -/
def leadingHyphens : (limit : Nat) → Members → Scanner Members
  | 0, _ => failure
  | limit + 1, m => do
    blanks
    if (← peek) = some '-' then
      skip
      leadingHyphens limit (m.add (single '-'.toNat) 0)
    else return m

/-- A set behind its opening bracket, with at most `depth` sets around one another.  Hyphens in
front are members, and without them so is a closing bracket. -/
def bracketed : (depth : Nat) → Scanner (Nested CharSet)
  | 0 => failure
  | depth + 1 => do
    blanks
    let negated := (← peek) == some '^'
    if negated then skip
    let m ← leadingHyphens (← limit) ⟨id, none, CharSet.empty, 0, 0⟩
    let m ←
      if m.count = 0 ∧ (← peek) = some ']' then do
        skip
        pure (m.add (single ']'.toNat) 0)
      else pure m
    let s ← setMembers (bracketed depth) (← limit) m
    return ⟨s.value.complIf (← flags).alphabet negated, s.depth + 1⟩

end Scanner

end Pattern

end ByteTrie
