import Std.Data.HashMap

/-!
# Counting the states of an automaton

States are numbered in the order in which they are made, and their bytes are added up.  Making one
fails where that leads above ten mebibytes.

A state that reads the same as one made before, and goes on to the same states, can be that one.
Such states are looked for in a table with a fixed number of slots, each of which keeps only what
was put into it last; so a state can be made again after another one has taken its slot.
-/

namespace ByteTrie

namespace Pattern

structure Tally where
  states : Nat
  bytes : Nat

abbrev Counting := StateT Tally Option

namespace Counting

/-- The bytes of a state. -/
def stateBytes : Nat := 32

def limit : Nat := 10 * 1024 * 1024

/-- Makes a state that takes some bytes besides its own; its number. -/
def state (extra : Nat) : Counting Nat := do
  let t ← get
  let bytes := t.bytes + stateBytes + extra
  if limit < bytes then failure
  set (⟨t.states + 1, bytes⟩ : Tally)
  return t.states

/-- A state with one way on. -/
def single : Counting Unit := discard (state 0)

/-- A state that reads one byte of `n` ranges. -/
def reading (n : Nat) : Counting Unit := discard (state (n * 8))

/-- A state with `n` ways on that reads nothing. -/
def fork (n : Nat) : Counting Unit := discard (state (n * 4))

def times : Nat → Counting Unit → Counting Unit
  | 0, _ => return
  | n + 1, c => do
    c
    times n c

def inOrder (cs : List (Counting Unit)) : Counting Unit := cs.forM id

def succeeds (c : Counting Unit) : Bool := (c.run ⟨0, 0⟩).isSome

end Counting

/-! ## Shared states -/

/-- A table with `size` slots.  A key consists of the numbers that say what a state reads and where
it goes on to. -/
structure SharedStates where
  size : Nat
  latest : Std.HashMap Nat (List Nat × Nat) := {}

/-- The slot of a key: its 64-bit FNV-1a hash, number by number, modulo the number of slots. -/
def SharedStates.slot (s : SharedStates) (key : List Nat) : Nat :=
  let hash : UInt64 :=
    key.foldl (fun h n => (h ^^^ n.toUInt64) * 0x100000001b3) 0xcbf29ce484222325
  hash.toNat % s.size

abbrev Sharing := StateT SharedStates Counting

namespace Sharing

/-- The number of the state with a key, which takes some bytes besides its own if it is new. -/
def state (key : List Nat) (extra : Nat) : Sharing Nat := do
  let s ← get
  let slot := s.slot key
  match s.latest[slot]? with
  | some (known, n) => if known = key then return n
  | none => pure ()
  let n ← Counting.state extra
  set { s with latest := s.latest.insert slot (key, n) }
  return n

/-- Counts with an empty table. -/
def withSlots (size : Nat) (c : Sharing Unit) : Counting Unit := do
  discard (c.run { size })

end Sharing

end Pattern

end ByteTrie
