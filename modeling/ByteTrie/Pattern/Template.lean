import ByteTrie.Pattern.Search

/-!
# Templates

A template is bytes in which `$name` and `${name}` stand for groups of a match, and `$$` for a
dollar sign.  A name of digits is a group's number.  A dollar sign before anything else is itself.
-/

namespace ByteTrie

namespace Pattern

inductive Piece where
  | byte (b : UInt8)
  | number (i : Nat)
  | name (s : String)
deriving DecidableEq, Repr

/-- What a piece stands for in a match; nothing if there is no such group in it. -/
def Piece.expand (c : Captures) : Piece → List UInt8
  | .byte b => [b]
  | .number i => (c.group? i).getD []
  | .name s => (c.named? s).getD []

abbrev Template := List Piece

namespace Template

def dollar : UInt8 := 0x24

def plus : UInt8 := 0x2b

def openBrace : UInt8 := 0x7b

def closeBrace : UInt8 := 0x7d

def isDigit (b : UInt8) : Bool := CharSet.digit.contains b.toNat

def isNameByte (b : UInt8) : Bool := CharSet.word.contains b.toNat

/-- The number that digits stand for; a plus sign may come first. -/
def number? (bs : List UInt8) : Option Nat :=
  let digits := if bs.head? = some plus then bs.drop 1 else bs
  if digits.isEmpty || !digits.all isDigit then none
  else some (digits.foldl (fun n d => 10 * n + (d.toNat - 0x30)) 0)

/-- What a name refers to; a name is valid UTF-8. -/
def reference? (name : List UInt8) : Option Piece :=
  match number? name with
  | some i => some (.number i)
  | none => (String.fromUTF8? name.toByteArray).map .name

/-- What stands behind a dollar sign, and how many bytes of it. -/
def behindDollar? (bs : List UInt8) : Option (Piece × Nat) :=
  match bs with
  | [] => none
  | b :: rest =>
    if b = dollar then some (.byte dollar, 1)
    else if b = openBrace then
      let name := rest.takeWhile (· ≠ closeBrace)
      if name.length < rest.length then (reference? name).map (·, name.length + 2) else none
    else
      let name := bs.takeWhile isNameByte
      if name.isEmpty then none else (reference? name).map (·, name.length)

/-- The pieces of the bytes behind the first `passed` ones, which have been read. -/
def piecesAfter (passed : Nat) : List UInt8 → Template
  | [] => []
  | b :: bs =>
    match passed with
    | passed + 1 => piecesAfter passed bs
    | 0 =>
      if b = dollar then
        match behindDollar? bs with
        | some (p, n) => p :: piecesAfter n bs
        | none => .byte b :: piecesAfter 0 bs
      else .byte b :: piecesAfter 0 bs

def ofBytes (bs : List UInt8) : Template := piecesAfter 0 bs

def expand (t : Template) (c : Captures) : List UInt8 := t.flatMap (Piece.expand c)

end Template

end Pattern

end ByteTrie
