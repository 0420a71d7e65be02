import ByteTrie.Pattern.Basic

/-!
# Scanning pattern text

A `Scan` is what is left of a pattern's text, with the flags in force and the groups met so far.
A `Scanner` takes characters from its front, and fails on text that is no pattern.
-/

namespace ByteTrie

namespace Pattern

structure Flags where
  ignoreCase : Bool
  multiLine : Bool
  dotAll : Bool
  swapGreed : Bool
  crlf : Bool
  /-- Blanks and comments are skipped. -/
  extended : Bool
  /-- Sets are of characters, not of bytes. -/
  unicode : Bool
deriving DecidableEq, Repr

namespace Flags

def default : Flags := ⟨false, false, false, false, false, false, true⟩

def set? (f : Flags) (letter : Char) (on : Bool) : Option Flags :=
  match letter with
  | 'i' => some { f with ignoreCase := on }
  | 'm' => some { f with multiLine := on }
  | 's' => some { f with dotAll := on }
  | 'U' => some { f with swapGreed := on }
  | 'R' => some { f with crlf := on }
  | 'x' => some { f with extended := on }
  | 'u' => some { f with unicode := on }
  | _ => none

/-- What sets are sets of. -/
def alphabet (f : Flags) : Alphabet := if f.unicode then .chars else .bytes

/-- Sets the flags of a text such as `im-s`: those behind the sign are cleared.  No letter comes
twice, nor does the sign, which is not the last one. -/
def update? (f : Flags) (letters : List Char) : Option Flags :=
  if letters.getLast? = some '-' ∨ ¬ letters.Nodup then none
  else do
    let f ← (letters.takeWhile (· ≠ '-')).foldlM (fun f c => f.set? c true) f
    ((letters.dropWhile (· ≠ '-')).drop 1).foldlM (fun f c => f.set? c false) f

end Flags

/-- What a text stands for, with how deep the text is nested. -/
structure Nested (α : Type) where
  value : α
  depth : Nat

structure Scan where
  rest : List Char
  /-- A number above that of the characters that are left. -/
  limit : Nat
  flags : Flags
  groups : Nat
  names : List (String × Nat)

abbrev Scanner := StateT Scan Option

namespace Scanner

def flags : Scanner Flags := return (← get).flags

def setFlags (f : Flags) : Scanner Unit := modify ({ · with flags := f })

def rest : Scanner (List Char) := return (← get).rest

def limit : Scanner Nat := return (← get).limit

def setRest (cs : List Char) : Scanner Unit := modify ({ · with rest := cs })

def peek : Scanner (Option Char) := return (← rest).head?

/-- Skips a character. -/
def skip : Scanner Unit := do setRest ((← rest).drop 1)

def char : Scanner Char := do
  match ← rest with
  | [] => failure
  | c :: cs =>
    setRest cs
    return c

def expect (c : Char) : Scanner Unit := do
  if (← char) = c then return () else failure

/-- The characters in front of `stop`, which has to come. -/
def upTo (stop : Char) : Scanner (List Char) := do
  let cs ← rest
  match cs.dropWhile (· ≠ stop) with
  | [] => failure
  | _ :: after =>
    setRest after
    return cs.takeWhile (· ≠ stop)

/-- White space of any script. -/
def isBlank (c : Char) : Bool :=
  let n := c.toNat
  (0x09 ≤ n && n ≤ 0x0d) || n == 0x20 || n == 0x85 || n == 0xa0 || n == 0x1680 ||
    (0x2000 ≤ n && n ≤ 0x200a) || n == 0x2028 || n == 0x2029 || n == 0x202f || n == 0x205f ||
    n == 0x3000

/-- Text without the blanks and comments in front of it; a comment runs from `#` to the end of the
line. -/
def dropBlanks (inComment : Bool) : List Char → List Char
  | [] => []
  | c :: cs =>
    if inComment then dropBlanks (c ≠ '\n') cs
    else if isBlank c then dropBlanks false cs
    else if c = '#' then dropBlanks true cs
    else c :: cs

/-- The text that is read next, where blanks may stand. -/
def shown (f : Flags) (cs : List Char) : List Char :=
  if f.extended then dropBlanks false cs else cs

def blanks : Scanner Unit := modify fun s => { s with rest := shown s.flags s.rest }

/-! ## Numbers -/

def hexDigit? (c : Char) : Option Nat :=
  if '0' ≤ c && c ≤ '9' then some (c.toNat - '0'.toNat)
  else if 'a' ≤ c && c ≤ 'f' then some (c.toNat - 'a'.toNat + 10)
  else if 'A' ≤ c && c ≤ 'F' then some (c.toNat - 'A'.toNat + 10)
  else none

def charOf (n : Nat) : Scanner Char :=
  if h : n.isValidChar then return Char.ofNatAux n h else failure

/-- A number of `digits` hexadecimal digits. -/
def hexDigits : (digits : Nat) → (value : Nat) → Scanner Nat
  | 0, value => return value
  | digits + 1, value => do
    let d ← hexDigit? (← char)
    blanks
    hexDigits digits (16 * value + d)

/-- The hexadecimal digits up to a closing brace, at least one, among at most `limit` characters. -/
def hexBraced : (limit : Nat) → (value : Option Nat) → Scanner Nat
  | 0, _ => failure
  | limit + 1, value => do
    blanks
    let c ← char
    if c = '\x7d' then value
    else hexBraced limit (some (16 * value.getD 0 + (← hexDigit? c)))

/-- The digits in front. -/
def decimalDigits : (limit : Nat) → (value : Option Nat) → Scanner Nat
  | 0, _ => failure
  | limit + 1, value => do
    match ← peek with
    | some c =>
      if c.isDigit then
        skip
        blanks
        decimalDigits limit (some (10 * value.getD 0 + (c.toNat - '0'.toNat)))
      else value
    | none => value

/-- A number below 2^32, between blanks. -/
def decimal : Scanner Nat := do
  setRest ((← rest).dropWhile isBlank)
  let n ← decimalDigits (← limit) none
  setRest ((← rest).dropWhile isBlank)
  blanks
  if n < UInt32.size then return n else failure

end Scanner

end Pattern

end ByteTrie
