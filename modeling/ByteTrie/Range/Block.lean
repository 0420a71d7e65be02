import ByteTrie.Trie.Basic
import Std.Data.HashMap

/-!
# Blocks

A block is the numbers with the same leading bytes: 256^n of them, where n bytes are still to
come.  In a block that lies wholly below the end of a progression, the subtrie of the members
depends on n and on the offset of the first member alone, so it is made once.

    blocks step width lo hi   holds the numbers lo, lo + step, … below hi, `width` bytes each, most
                              significant byte first
-/

namespace ByteTrie

namespace Range

/-- A computation that remembers the subtries of whole blocks, by the bytes still to come and the
offset of the first member. -/
abbrev Blocks := StateT (Std.HashMap (Nat × Nat) Trie) Fresh

/-- The least number of steps that lead from `n` to `m` or above. -/
def stepsTo (step n m : Nat) : Nat := (m - n + step - 1) / step

/-- The edges to the sub-blocks of the given leading bytes, the first of which starts at `base`;
`member` is the first member that is not before it. -/
def subblocks (sub : Nat → Nat → Blocks Trie) (step size limit : Nat) :
    List UInt8 → Nat → Nat → Blocks (List (Edge Trie))
  | [], _, _ => return []
  | b :: bs, base, member => do
    let stop := base + size
    if member < stop ∧ member < limit then
      let t ← sub base member
      let es ← subblocks sub step size limit bs stop (member + stepsTo step member stop * step)
      return (Edge.over b [] t).toList ++ es
    else subblocks sub step size limit bs stop member

/-- The bytes in ascending order. -/
def allBytes : List UInt8 := (List.range 256).map UInt8.ofNat

/-- The members below `hi` in the block at `base` with so many bytes still to come, from the
member `first` on. -/
def block (step hi : Nat) : Nat → Nat → Nat → Blocks Trie
  | 0, _, _ => return Trie.leaf
  | n + 1, base, first => do
    let part := Nat.pow 256 n
    let size := 256 * part
    let isWhole := decide (base + size ≤ hi)
    let known := (← get)[(n + 1, first - base)]?
    match isWhole, known with
    | true, some t => return t
    | _, _ =>
      let es ← subblocks (block step hi n) step part (min (base + size) hi) allBytes base first
      let t ← (Trie.make false es : Fresh Trie)
      if isWhole then modify fun known => known.insert (n + 1, first - base) t
      return t

def blocks (step width lo hi : Nat) : Fresh Trie :=
  if lo < hi then return (← (block step hi width 0 lo).run {}).1 else return Trie.empty

end Range

end ByteTrie
