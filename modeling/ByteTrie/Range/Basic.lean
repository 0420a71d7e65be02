import ByteTrie.Algebra.Merge
import ByteTrie.Range.Block
import ByteTrie.Range.Word
import ByteTrie.Trie.Build

/-!
# Ranges of numbers

The set of the encodings of start, start + step, … below stop.  With the most significant byte
first, numbers of up to 8 bytes are built from blocks; a negative number has its bit pattern
above those of the other numbers, so they are two progressions.  All others are written out.
-/

namespace ByteTrie

inductive RangeError where
  | zeroStep
deriving DecidableEq, Repr

def RangeError.message : RangeError → String
  | zeroStep => "argument error: range step must be greater than zero"

/-- The numbers `start`, `start + step`, … below `stop`. -/
structure Progression where
  start : Int
  stop : Int
  step : Int

namespace Progression

/-- The numbers from `v` on, onto those before it, the last one first; they end early where the next
one is not a number of type `r`. -/
def valuesOnto (p : Progression) (r : IntType) (v : Int) (given : List Int) : List Int :=
  if v < p.stop ∧ 0 < p.step then
    if v + p.step ≤ r.max then p.valuesOnto r (v + p.step) (v :: given) else v :: given
  else given
termination_by (p.stop - v).toNat

/-- All the numbers, in ascending order. -/
def toList (p : Progression) (r : IntType) : List Int := (p.valuesOnto r p.start []).reverse

/-- The bit patterns of the members, as progressions of natural numbers: start, stop. -/
def patterns (p : Progression) (r : IntType) : List (Nat × Nat) :=
  if r.isSigned then
    let negative := if p.start < 0
      then [((p.start + r.modulus).toNat, (min p.stop 0 + r.modulus).toNat)] else []
    let first := if 0 ≤ p.start then p.start
      else p.start + Range.stepsTo p.step.toNat 0 (-p.start).toNat * p.step
    let others := if 0 < p.stop then [(first.toNat, p.stop.toNat)] else []
    negative ++ others
  else [(p.start.toNat, p.stop.toNat)]

end Progression

namespace Trie

/-- The widest numbers that are built from blocks. -/
def widestBlock : Nat := 8

/-- The set of the encodings of a progression of numbers of type `r`, made number by number. -/
def writtenOut (r : IntType) (order : ByteOrder) (p : Progression) : Fresh Trie :=
  ofPaths ((p.toList r).map (r.encode order))

/-- The same, made of blocks where there are any. -/
def range (r : IntType) (order : ByteOrder) (p : Progression) : Fresh (Except RangeError Trie) := do
  if p.step ≤ 0 then
    return .error .zeroStep
  else if order = .big ∧ r.width ≤ widestBlock then
    let parts ← (p.patterns r).mapM fun (lo, hi) => Range.blocks p.step.toNat r.width lo hi
    return .ok (← parts.foldlM union empty)
  else
    return .ok (← writtenOut r order p)

end Trie

end ByteTrie
