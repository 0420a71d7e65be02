import ByteTrie.Pattern.Basic

/-!
# Pattern code

A pattern becomes a row of steps.  Forks and jumps are relative, so that the code of a pattern is
built from that of its parts:

    code (p | q)  =  fork, code p, jump, code q
    code p*       =  fork, code p, jump back      for a `p` that needs bytes
    code p*       =  code (p+)?                   for any other `p`
    code p+       =  code p, fork back
-/

namespace ByteTrie

namespace Pattern

inductive Step where
  /-- One byte of the set, or one character of it. -/
  | take (a : Alphabet) (s : CharSet)
  | look (l : Look)
  /-- Notes the offset in a slot. -/
  | save (slot : Nat)
  | jump (distance : Int)
  /-- Goes on in two places, of which the first is preferred. -/
  | fork (first second : Int)
  | accept

abbrev Code := List Step

namespace Code

/-- A fork to the next step and to one at a distance; the next one is preferred if greedy. -/
def forkOver (greedy : Bool) (distance : Int) : Step :=
  if greedy then .fork 1 distance else .fork distance 1

/-- A fork to the next step and to one at a distance; the distant one is preferred if greedy. -/
def forkBack (greedy : Bool) (distance : Int) : Step := forkOver (!greedy) distance

def option (greedy : Bool) (c : Code) : Code := forkOver greedy (c.length + 1) :: c

def plus (greedy : Bool) (c : Code) : Code := c ++ [forkBack greedy (-c.length)]

def star (greedy needsBytes : Bool) (c : Code) : Code :=
  if needsBytes then forkOver greedy (c.length + 2) :: c ++ [.jump (-c.length - 1)]
  else option greedy (plus greedy c)

def times (n : Nat) (c : Code) : Code := (List.replicate n c).flatten

/-- At most `n` times: each repetition may skip the rest of them. -/
def upTo (greedy : Bool) (n : Nat) (c : Code) : Code :=
  let size := c.length + 1
  (List.range n).flatMap fun i => forkOver greedy (((n - i) * size : Nat) : Int) :: c

def repeated (greedy needsBytes : Bool) (least : Nat) (most : Option Nat) (c : Code) : Code :=
  match least, most with
  | 0, none => star greedy needsBytes c
  | least + 1, none => times least c ++ plus greedy c
  | least, some most => times least c ++ upTo greedy (most - least) c

/-- One of two, the first preferred. -/
def either (first second : Code) : Code :=
  .fork 1 (first.length + 2) :: first ++ .jump (second.length + 1) :: second

def oneOf : List Code → Code
  | [] => []
  | [c] => c
  | c :: cs => either c (oneOf cs)

end Code

mutual

def code : Pattern → Code
  | empty => []
  | literal bs => bs.map fun b => .take .bytes (CharSet.single b.toNat)
  | oneOf a s => [.take a s]
  | look l => [.look l]
  | group i p => .save (2 * i) :: p.code ++ [.save (2 * i + 1)]
  | repeated greedy least most p => p.code.repeated greedy p.needsBytes least most
  | sequence ps => (codes ps).flatten
  | choice ps => Code.oneOf (codes ps)

def codes : List Pattern → List Code
  | [] => []
  | p :: ps => p.code :: codes ps

end

end Pattern

end ByteTrie
