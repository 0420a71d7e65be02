import ByteTrie.Codec.Varint
import ByteTrie.Trie.Basic

/-!
# Reading bytes

A `Reader` takes bytes from the front of its input, knows how many came before, and may make
nodes.  It stops at the first fault, which names the offset where it was found.
-/

namespace ByteTrie

/-- Why an encoded trie is refused. -/
inductive DecodeError where
  | unexpectedEnd (offset : Nat)
  | invalidFlag (offset : Nat) (flag : UInt8)
  | varintOverflow (offset : Nat)
  | tooManyChildren (offset count : Nat)
  | emptyEdge (offset : Nat)
  | unsortedChildren (offset : Nat)
  | nonCanonical (offset : Nat)
  | trailingBytes (offset remaining : Nat)
  | depthLimitExceeded (limit : Nat)
deriving DecidableEq, Repr

namespace DecodeError

def hexDigit (n : Nat) : Char := (Nat.toDigits 16 (n % 16)).headD '0'

def message : DecodeError → String
  | unexpectedEnd o => s!"decode error: unexpected end of input at offset {o}"
  | invalidFlag o f =>
    let high := hexDigit (f.toNat / 16)
    let low := hexDigit f.toNat
    s!"decode error: invalid terminal flag 0x{high}{low} at offset {o}"
  | varintOverflow o => s!"decode error: varint at offset {o} does not fit in 64 bits"
  | tooManyChildren o n =>
    s!"decode error: node at offset {o} declares {n} children, at most 256 are possible"
  | emptyEdge o => s!"decode error: zero-length edge at offset {o}"
  | unsortedChildren o =>
    s!"decode error: edge at offset {o} is not in strictly ascending first-byte order"
  | nonCanonical o => s!"decode error: node at offset {o} is not in canonical form"
  | trailingBytes o n => s!"decode error: {n} trailing bytes after the root node at offset {o}"
  | depthLimitExceeded l =>
    s!"decode error: nesting deeper than the configured limit of {l} nodes"

end DecodeError

/-- What is still to be read, its offset, and the next unused node id. -/
structure Input where
  rest : List UInt8
  offset : Nat
  nextId : Nat

abbrev Reader := StateT Input (Except DecodeError)

namespace Reader

def offset : Reader Nat := return (← get).offset

def byte : Reader UInt8 := do
  let s ← get
  match s.rest with
  | [] => throw (.unexpectedEnd s.offset)
  | b :: bs =>
    set { s with rest := bs, offset := s.offset + 1 }
    return b

/-- The next `n` bytes; too few of them are a fault at the end of the input. -/
def bytes (n : Nat) : Reader Path := do
  let s ← get
  let (taken, rest) := s.rest.splitAt n
  let size := taken.length
  if size < n then throw (.unexpectedEnd (s.offset + size))
  set { s with rest := rest, offset := s.offset + n }
  return taken

/-- The remaining digits of a number that started at `start`, where `digits` more are allowed and
the next one counts `scale`. -/
def varintFrom (start : Nat) : Nat → Nat → Nat → Reader Nat
  | 0, _, _ => throw (.varintOverflow start)
  | digits + 1, scale, value => do
    let b ← byte
    if digits = 0 ∧ 1 < b then throw (.varintOverflow start)
    let value := value + (b.toNat % 128) * scale
    if 128 ≤ b then varintFrom start digits (scale * 128) value
    else if b = 0 ∧ 1 < scale then throw (.nonCanonical start)
    else return value

/-- A number below 2^64 in its shortest form. -/
def varint : Reader Nat := do varintFrom (← offset) Varint.maxDigits 1 0

/-- Makes nodes with the ids of the input. -/
def lift {α : Type} (x : Fresh α) : Reader α := do
  let s ← get
  let (a, n) := x s.nextId
  set { s with nextId := n }
  return a

/-- Reads all of `src`. -/
def run {α : Type} (r : Reader α) (src : List UInt8) : Fresh (Except DecodeError α) := fun n =>
  match r ⟨src, 0, n⟩ with
  | .error e => (.error e, n)
  | .ok (a, s) =>
    match s.rest with
    | [] => (.ok a, s.nextId)
    | bs => (.error (.trailingBytes s.offset bs.length), n)

end Reader

end ByteTrie
