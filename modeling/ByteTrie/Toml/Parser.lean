import ByteTrie.Toml.Number

/-!
# The text of tables

A document is lines: headers, assignments of values to keys, comments and blanks.  Values may go on
over several lines in brackets and in tripled quotation marks.
-/

namespace ByteTrie

namespace Toml

/-- Takes characters from the front of a text, and fails on text that is ill-formed.  It knows a
number above that of the characters. -/
abbrev Scanner := ReaderT Nat (StateT (List Char) Option)

/-- How deep brackets and braces may be nested in one another, and how many keys a dotted key may
have. -/
def maxDepth : Nat := 79

namespace Scanner

def peek : Scanner (Option Char) := return (← get).head?

def char : Scanner Char := do
  match ← get with
  | [] => failure
  | c :: cs =>
    set cs
    return c

/-- Skips text that is known to stand in front, if it does. -/
def skip? (cs : List Char) : Scanner Bool := do
  if cs.isPrefixOf (← get) then
    modify (·.drop cs.length)
    return true
  else return false

def expect (cs : List Char) : Scanner Unit := do
  if ← skip? cs then return () else failure

def span (p : Char → Bool) : Scanner (List Char) := do
  let cs ← get
  set (cs.dropWhile p)
  return cs.takeWhile p

/-! ## Blanks -/

def isBlank (c : Char) : Bool := c = ' ' || c = '\t'

/-- Characters that may stand in comments and strings. -/
def isPlain (c : Char) : Bool := c = '\t' || (0x20 ≤ c.toNat && c.toNat ≠ 0x7f)

def blanks : Scanner Unit := modify (·.dropWhile isBlank)

def comment? : Scanner Unit := do
  if (← peek) = some '#' then modify (·.dropWhile isPlain)

def newline? : Scanner Bool := do
  if ← skip? ['\n'] then return true else skip? ['\r', '\n']

/-- The rest of a line that holds nothing more. -/
def endLine : Scanner Unit := do
  blanks
  comment?
  if (← get).isEmpty then return ()
  else if ← newline? then return ()
  else failure

/-- Text without the blanks and ends of lines in front of it, nor the comments where they may
stand. -/
def dropGap (comments inComment : Bool) : List Char → List Char
  | [] => []
  | '\r' :: '\n' :: cs => dropGap comments false cs
  | c :: cs =>
    if c = '\n' then dropGap comments false cs
    else if inComment then if isPlain c then dropGap comments true cs else c :: cs
    else if isBlank c then dropGap comments false cs
    else if comments ∧ c = '#' then dropGap comments true cs
    else c :: cs

def gap (comments : Bool) : Scanner Unit := modify (dropGap comments false)

/-! ## Strings -/

def hexNumber : (digits : Nat) → (value : Nat) → Scanner Nat
  | 0, value => return value
  | digits + 1, value => do
    let d ← digitOf? 16 (← char)
    hexNumber digits (16 * value + d)

def charOf (n : Nat) : Scanner Char :=
  if h : n.isValidChar then return Char.ofNatAux n h else failure

/-- The character that what follows a backslash stands for. -/
def escape : Scanner Char := do
  match ← char with
  | 'b' => return '\x08'
  | 't' => return '\t'
  | 'n' => return '\n'
  | 'f' => return '\x0c'
  | 'r' => return '\r'
  | '\x22' => return '\x22'
  | '\\' => return '\\'
  | 'u' => charOf (← hexNumber 4 0)
  | 'U' => charOf (← hexNumber 8 0)
  | _ => failure

/-- The characters of a string up to its closing mark.  Only in strings between quotation marks,
not in those between apostrophes, a backslash is special. -/
def shortString (mark : Char) : (limit : Nat) → Scanner (List Char)
  | 0 => failure
  | limit + 1 => do
    let c ← char
    if c = mark then return []
    else if c = '\\' ∧ mark = '\x22' then return (← escape) :: (← shortString mark limit)
    else if isPlain c then return c :: (← shortString mark limit)
    else failure

/-- Whether a backslash, which has been read, ends its line: then the gap up to the next line's
text does not count. -/
def joinsLines : Scanner Bool := do
  let before ← get
  blanks
  if ← newline? then
    gap false
    return true
  else
    set before
    return false

/-- The characters of a string up to its three closing marks, in front of which one or two more may
stand. -/
def longString (mark : Char) : (limit : Nat) → Scanner (List Char)
  | 0 => failure
  | limit + 1 => do
    if (← peek) = some mark then
      let marks ← span (· = mark)
      if marks.length < 3 then return marks ++ (← longString mark limit)
      else if marks.length ≤ 5 then return marks.drop 3
      else failure
    else if ← newline? then return '\n' :: (← longString mark limit)
    else
      let c ← char
      if c = '\\' ∧ mark = '\x22' then
        if ← joinsLines then longString mark limit
        else return (← escape) :: (← longString mark limit)
      else if isPlain c then return c :: (← longString mark limit)
      else failure

def string (mark : Char) : Scanner String := do
  if ← skip? [mark, mark, mark] then
    let _ ← newline?
    return String.ofList (← longString mark (← read))
  else
    expect [mark]
    return String.ofList (← shortString mark (← read))

/-! ## Keys -/

def isKeyChar (c : Char) : Bool := c.isAlphanum || c = '_' || c = '-'

def key : Scanner String := do
  match ← peek with
  | some c =>
    if c = '\x22' ∨ c = '\x27' then
      expect [c]
      return String.ofList (← shortString c (← read))
    else
      let cs ← span isKeyChar
      if cs.isEmpty then failure else return String.ofList cs
  | none => failure

/-- Keys with dots between them, at most `limit` of them. -/
def dottedKey : (limit : Nat) → Scanner (List String)
  | 0 => failure
  | limit + 1 => do
    blanks
    let k ← key
    blanks
    if ← skip? ['.'] then return k :: (← dottedKey limit) else return [k]

/-! ## Values -/

def isWordChar (c : Char) : Bool :=
  c.isAlphanum || c = '_' || c = '-' || c = '+' || c = '.' || c = ':'

/-- A number, a time or a truth value.  A date and a time of day may have a blank between them. -/
def word : Scanner Value := do
  let cs ← span isWordChar
  let rest ← get
  if isDate cs ∧ rest.head? = some ' ' ∧ isOffsetTime ((rest.drop 1).takeWhile isWordChar) then
    set ((rest.drop 1).dropWhile isWordChar)
    return .time (String.ofList (cs ++ rest.take 1 ++ (rest.drop 1).takeWhile isWordChar))
  else word? cs

/-- The values up to the closing bracket. -/
def items (value : Scanner Value) : (limit : Nat) → Scanner (List Value)
  | 0 => failure
  | limit + 1 => do
    gap true
    if ← skip? [']'] then return []
    let v ← value
    gap true
    if ← skip? [','] then return v :: (← items value limit)
    else
      expect [']']
      return [v]

/-- A value assigned to a key. -/
def assignment (value : Scanner Value) : Scanner (List String × Value) := do
  let keys ← dottedKey maxDepth
  expect ['=']
  blanks
  return (keys, ← value)

/-- The assignments up to the closing brace, of which there is at least one. -/
def members (value : Scanner Value) : (limit : Nat) → Table → Scanner Table
  | 0, _ => failure
  | limit + 1, t => do
    let (keys, v) ← assignment value
    let t ← t.assign? v true keys
    blanks
    if ← skip? [','] then members value limit t
    else
      expect ['\x7d']
      return t

/-- A string, a number, a time or a truth value. -/
def scalar : Scanner Value := do
  match ← peek with
  | some '\x22' => return .string (← string '\x22')
  | some '\x27' => return .string (← string '\x27')
  | _ => word

/-- A value with at most `depth` brackets and braces around one another. -/
def value : (depth : Nat) → Scanner Value
  | 0 => scalar
  | depth + 1 => do
    if ← skip? ['['] then
      return .array (← items (value depth) (← read))
    else if ← skip? ['\x7b'] then
      blanks
      if ← skip? ['\x7d'] then return .table .inline []
      else return .table .inline (← members (value depth) (← read) [])
    else scalar

/-! ## Documents -/

/-- Enters a header, behind its first bracket. -/
def header (t : Table) : Scanner (List String × Table) := do
  let repeated ← skip? ['[']
  let keys ← dottedKey maxDepth
  expect (if repeated then [']', ']'] else [']'])
  endLine
  return (keys, ← t.header? repeated keys)

/-- The lines that follow, which go to the table that `path` names. -/
def lines : (limit : Nat) → (path : List String) → Table → Scanner Table
  | 0, _, _ => failure
  | limit + 1, path, t => do
    blanks
    match ← peek with
    | none => return t
    | some '#' =>
      endLine
      lines limit path t
    | some '\n' =>
      endLine
      lines limit path t
    | some '\r' =>
      endLine
      lines limit path t
    | some '[' =>
      expect ['[']
      let (path, t) ← header t
      lines limit path t
    | some _ =>
      let (keys, v) ← assignment (value maxDepth)
      endLine
      lines limit path (← t.alterAt? (·.assign? v true keys) path)

end Scanner

/-- Reads a document; a byte order mark may come first. -/
def parse? (text : String) : Option Table :=
  let cs := text.toList
  let cs := if cs.head? = some '\ufeff' then cs.drop 1 else cs
  let limit := cs.length + 1
  (Scanner.lines limit [] [] limit cs).map (·.1)

end Toml

end ByteTrie
