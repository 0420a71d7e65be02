import ByteTrie.Cursor.Basic
import ByteTrie.Cursor.Iterate

/-!
# Listings

The text of bytes, masks, tries and cursors: numbers in decimal, sequences in square brackets,
sets in curly brackets.
-/

namespace ByteTrie

namespace Listing

def openBrace : String := "\x7b"

def closeBrace : String := "\x7d"

def sequence (items : List String) : String := "[" ++ ", ".intercalate items ++ "]"

def set (items : List String) : String := openBrace ++ ", ".intercalate items ++ closeBrace

def bytes (bs : List UInt8) : String := sequence (bs.map fun b => toString b.toNat)

end Listing

def ByteMask.text (m : ByteMask) : String := Listing.set (m.toList.map fun b => toString b.toNat)

def Trie.text (t : Trie) : String := Listing.set ((PathIter.ofTrie t).drain.map Listing.bytes)

def Cursor.text (c : Cursor) : String :=
  "ReadZipper " ++ Listing.openBrace ++ " path: " ++ Listing.bytes c.path ++
    ", is_value: " ++ (if c.isMember then "true" else "false") ++
    ", child_mask: " ++ c.childMask.text ++ " " ++ Listing.closeBrace

end ByteTrie
