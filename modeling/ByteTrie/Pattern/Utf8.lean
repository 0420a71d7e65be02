import ByteTrie.Pattern.CharSet

/-!
# Characters as bytes

The characters of a set are, in UTF-8, the strings of bytes that go through a row of byte ranges.
These rows are listed in ascending order; no two of them begin with different ranges that overlap.
-/

namespace ByteTrie

namespace Utf8

/-- Byte ranges, one after the other. -/
abbrev Row := List (Nat × Nat)

/-- `n` bytes of any character, its first one excepted. -/
def anyTail (n : Nat) : Row := List.replicate n (0x80, 0xbf)

/-- The rows of the numbers from `low` to `high`, which are written with `tail` bytes of six bits
each behind a first one that adds the rest to `base`. -/
def rows : (tail : Nat) → (base low high : Nat) → List Row
  | 0, base, low, high => [[(base + low, base + high)]]
  | tail + 1, base, low, high =>
    let scale := Nat.pow 64 (tail + 1)
    let first := low / scale
    let last := high / scale
    if first = last then
      (rows tail 0x80 (low % scale) (high % scale)).map ((base + first, base + first) :: ·)
    else
      let front := if low % scale = 0 then []
        else (rows tail 0x80 (low % scale) (scale - 1)).map ((base + first, base + first) :: ·)
      let back := if high % scale = scale - 1 then []
        else (rows tail 0x80 0 (high % scale)).map ((base + last, base + last) :: ·)
      let start := if front.isEmpty then first else first + 1
      let stop := if back.isEmpty then last + 1 else last
      let middle := if start < stop then [(base + start, base + stop - 1) :: anyTail (tail + 1)]
        else []
      front ++ middle ++ back

/-- The blocks of characters of one length, with the bytes behind the first one and what the first
one adds; surrogates are in none. -/
def blocks : List (Nat × Nat × Nat × Nat) :=
  [(0, 0x7f, 0, 0), (0x80, 0x7ff, 1, 0xc0), (0x800, 0xd7ff, 2, 0xe0), (0xe000, 0xffff, 2, 0xe0),
    (0x10000, 0x10ffff, 3, 0xf0)]

/-- The rows of a run of characters. -/
def rowsOfRun (low high : Nat) : List Row :=
  blocks.flatMap fun (first, last, tail, base) =>
    let low := max low first
    let high := min high last
    if low ≤ high then rows tail base low high else []

def rowsOf (s : CharSet) : List Row := s.runs.flatMap fun (low, high) => rowsOfRun low high

/-- Rows by their first range: what follows it, for each. -/
def branches : List Row → List ((Nat × Nat) × List Row)
  | [] => []
  | [] :: rest => branches rest
  | (r :: tail) :: rest =>
    match branches rest with
    | (r', tails) :: more =>
      if r = r' then (r, tail :: tails) :: more else (r, [tail]) :: (r', tails) :: more
    | [] => [(r, [tail])]

end Utf8

end ByteTrie
