import ByteTrie.Text.Listing
import ByteTrie.Text.Unwritten

/-!
# Quoted text

Text between quotation marks.  Quotation marks and backslashes have a backslash in front; tab, line
feed, carriage return and NUL have letters of their own; a character that cannot be seen is written
by its number.
-/

namespace ByteTrie

namespace Quoted

def quote : Char := Char.ofNat 0x22

def backslash : Char := Char.ofNat 0x5c

/-- A character by its hexadecimal number. -/
def byNumber (c : Char) : List Char :=
  backslash :: 'u' :: Listing.openBrace.toList ++ Nat.toDigits 16 c.toNat ++
    Listing.closeBrace.toList

/-- Whether a character stands for itself, quotation marks and backslashes apart. -/
def isWritten (c : Char) : Bool := 0x20 ≤ c.toNat && !Unwritten.contains c

def encodeChar (c : Char) : List Char :=
  if c = quote ∨ c = backslash then [backslash, c]
  else if c = '\t' then [backslash, 't']
  else if c = '\n' then [backslash, 'n']
  else if c = '\r' then [backslash, 'r']
  else if c.toNat = 0 then [backslash, '0']
  else if isWritten c then [c]
  else byNumber c

def encode (s : String) : String :=
  String.ofList (quote :: s.toList.flatMap encodeChar ++ [quote])

end Quoted

end ByteTrie
