import ByteTrie.Codec.Tree
import ByteTrie.Cursor.Iterate
import ByteTrie.Toml.Parser

/-!
# Limits

Bounds on the nesting of what is read and on what one batch holds.  A settings file may set each of
them; those it leaves out keep their defaults, and keys that it has besides are not looked at.
-/

namespace ByteTrie

structure Limits where
  maxDecodeDepth : Nat
  traverseValueLimit : Nat
  traverseByteLimit : Nat
deriving DecidableEq, Repr

namespace Limits

def default : Limits := ⟨4096, 1024, 1048576⟩

instance : Inhabited Limits := ⟨default⟩

/-- Reads an encoded trie that is not nested deeper than the limit. -/
def decode (l : Limits) (src : List UInt8) : Fresh (Except DecodeError Trie) :=
  Trie.decodeWithin l.maxDecodeDepth src

/-- The first batch of the paths below the focus. -/
def traverse (l : Limits) (c : Cursor) : Fresh (List Path) :=
  c.traverse l.traverseValueLimit l.traverseByteLimit

/-! ## Settings files -/

inductive SettingsError where
  /-- The file is not in UTF-8. -/
  | notText
  | illFormed
deriving DecidableEq, Repr

/-- The limit that a table sets under a key. -/
def setting? (t : Toml.Table) (key : String) (default : Nat) : Option Nat :=
  match t.lookup key with
  | none => some default
  | some (.integer n) => n.toNat?
  | some _ => none

def ofTable? (t : Toml.Table) : Option Limits := do
  return ⟨← setting? t "max_decode_depth" default.maxDecodeDepth,
    ← setting? t "traverse_value_limit" default.traverseValueLimit,
    ← setting? t "traverse_byte_limit" default.traverseByteLimit⟩

def ofText? (text : String) : Option Limits := (Toml.parse? text).bind ofTable?

def ofBytes (content : List UInt8) : Except SettingsError Limits :=
  match String.fromUTF8? content.toByteArray with
  | none => .error .notText
  | some text =>
    match ofText? text with
    | none => .error .illFormed
    | some l => .ok l

end Limits

end ByteTrie
