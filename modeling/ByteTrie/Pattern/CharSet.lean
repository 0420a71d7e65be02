import ByteTrie.Text.Word

/-!
# Sets of characters and of bytes

A `CharSet` is kept as the runs of its members' numbers, in ascending order and with a gap between
any two of them, so that sets with the same members are equal.
-/

namespace ByteTrie

/-- What a set is a set of. -/
inductive Alphabet where
  | bytes
  | chars
deriving DecidableEq, Repr

namespace Alphabet

/-- The greatest number. -/
def last : Alphabet → Nat
  | bytes => 0xff
  | chars => 0x10ffff

/-- The number after one; surrogates are no characters. -/
def next (a : Alphabet) (n : Nat) : Nat := if a = chars ∧ n = 0xd7ff then 0xe000 else n + 1

/-- The number before one. -/
def prev (a : Alphabet) (n : Nat) : Nat := if a = chars ∧ n = 0xe000 then 0xd7ff else n - 1

end Alphabet

structure CharSet where
  runs : List (Nat × Nat)
deriving DecidableEq, Repr

namespace CharSet

def containsIn (n : Nat) : List (Nat × Nat) → Bool
  | [] => false
  | (low, high) :: runs => if n < low then false else n ≤ high || containsIn n runs

def contains (s : CharSet) (n : Nat) : Bool := containsIn n s.runs

def empty : CharSet := ⟨[]⟩

/-- The numbers from `low` up to `high`, both included. -/
def range (low high : Nat) : CharSet := ⟨[(low, high)]⟩

def single (n : Nat) : CharSet := range n n

def interval (low high : Char) : CharSet := range low.toNat high.toNat

/-! ## Operations -/

/-- Joins runs that overlap or touch, of runs that are sorted by where they begin. -/
def join : List (Nat × Nat) → List (Nat × Nat)
  | [] => []
  | (low, high) :: runs =>
    match join runs with
    | [] => [(low, high)]
    | (low', high') :: rest =>
      if low' ≤ high + 1 then (low, max high high') :: rest
      else (low, high) :: (low', high') :: rest

def ofRuns (rs : List (Nat × Nat)) : CharSet := ⟨join (rs.mergeSort fun r r' => r.1 ≤ r'.1)⟩

def union (s t : CharSet) : CharSet := ofRuns (s.runs ++ t.runs)

def inter (s t : CharSet) : CharSet :=
  ⟨s.runs.flatMap fun (low, high) => t.runs.filterMap fun (low', high') =>
    let first := max low low'
    let last := min high high'
    if first ≤ last then some (first, last) else none⟩

/-- The runs between the given ones, from a number on. -/
def gaps (a : Alphabet) (start : Nat) : List (Nat × Nat) → List (Nat × Nat)
  | [] => if start ≤ a.last then [(start, a.last)] else []
  | (low, high) :: runs =>
    let rest := gaps a (a.next high) runs
    if start < low then (start, a.prev low) :: rest else rest

def compl (a : Alphabet) (s : CharSet) : CharSet := ⟨gaps a 0 s.runs⟩

/-- The complement, if it is asked for. -/
def complIf (a : Alphabet) (negated : Bool) (s : CharSet) : CharSet :=
  if negated then s.compl a else s

def diff (a : Alphabet) (s t : CharSet) : CharSet := s.inter (t.compl a)

def symmDiff (a : Alphabet) (s t : CharSet) : CharSet := (s.union t).diff a (s.inter t)

/-! ## Letter case -/

/-- The characters that differ from an ASCII letter in case only. -/
def caseClass (i : Nat) : List Nat :=
  [0x41 + i, 0x61 + i] ++ if i = 10 then [0x212a] else if i = 18 then [0x17f] else []

/-- Closes a set under change of case. -/
def folded (a : Alphabet) (s : CharSet) : CharSet :=
  let classes := (List.range 26).map fun i => (caseClass i).filter (· ≤ a.last)
  (classes.filter (·.any s.contains)).foldl
    (fun s ns => s.union (ofRuns (ns.map fun n => (n, n)))) s

/-! ## Named sets -/

def digit : CharSet := interval '0' '9'

def upper : CharSet := interval 'A' 'Z'

def lower : CharSet := interval 'a' 'z'

def alpha : CharSet := upper.union lower

def alnum : CharSet := digit.union alpha

def word : CharSet := alnum.union (single '_'.toNat)

/-- From tab to carriage return, and the blank. -/
def space : CharSet := ⟨[(0x09, 0x0d), (0x20, 0x20)]⟩

/-- The set of ASCII characters with a name. -/
def named? (name : String) : Option CharSet :=
  match name with
  | "alnum" => some alnum
  | "alpha" => some alpha
  | "ascii" => some (range 0 0x7f)
  | "blank" => some ⟨[(0x09, 0x09), (0x20, 0x20)]⟩
  | "cntrl" => some ⟨[(0, 0x1f), (0x7f, 0x7f)]⟩
  | "digit" => some digit
  | "graph" => some (range 0x21 0x7e)
  | "lower" => some lower
  | "print" => some (range 0x20 0x7e)
  | "punct" => some ((range 0x21 0x7e).diff .bytes alnum)
  | "space" => some space
  | "upper" => some upper
  | "word" => some word
  | "xdigit" => some (digit.union ((interval 'A' 'F').union (interval 'a' 'f')))
  | _ => none

/-- The set of an alphabet that a letter stands for: digits, white space or word characters. -/
def ofLetter? (a : Alphabet) (letter : Char) : Option CharSet :=
  match a, letter with
  | .bytes, 'd' => some digit
  | .bytes, 's' => some space
  | .bytes, 'w' => some word
  | .chars, 'd' => some ⟨Word.digitRanges.toList⟩
  | .chars, 's' => some ⟨Word.spaceRanges.toList⟩
  | .chars, 'w' => some ⟨Word.ranges.toList⟩
  | _, _ => none

end CharSet

end ByteTrie
