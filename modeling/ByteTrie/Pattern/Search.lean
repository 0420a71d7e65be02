import ByteTrie.Path
import ByteTrie.Pattern.Code
import ByteTrie.Pattern.Parser

/-!
# Searching for patterns

A search goes through the bytes once.  At each place it keeps the threads that are still alive, the
preferred ones first, and no two of them at one step of the code: of two, the later one could only
do what the earlier one does.  A thread that reaches the end of the code is a match, and ends all
threads behind it.
-/

namespace ByteTrie

namespace Pattern

/-- The offsets noted so far. -/
abbrev Slots := Array (Option Nat)

structure Thread where
  step : Nat
  /-- How many bytes it lets pass before its step. -/
  wait : Nat
  slots : Slots

/-- A place in the text: its offset, the byte before it, and the bytes after it. -/
structure Place where
  offset : Nat
  before : Option UInt8
  rest : List UInt8

/-- The first character and the number of its bytes, if the bytes begin with valid UTF-8. -/
def firstChar? (bs : List UInt8) : Option (Char × Nat) :=
  ((bs.take 4).toByteArray.utf8DecodeChar? 0).map fun c => (c, c.utf8Size)

/-- How many bytes of the place a set takes. -/
def takenBy (here : Place) : Step → Option Nat
  | .take .bytes s =>
    here.rest.head?.bind fun b => if s.contains b.toNat then some 1 else none
  | .take .chars s =>
    (firstChar? here.rest).bind fun (c, n) => if s.contains c.toNat then some n else none
  | _ => none

/-- Where a thread goes without a byte, the preferred way first. -/
def ways (here : Place) (t : Thread) : Step → List Thread
  | .look l => if l.holds here.before here.rest.head? then [{ t with step := t.step + 1 }] else []
  | .save n => [{ t with step := t.step + 1, slots := t.slots.setIfInBounds n (some here.offset) }]
  | .jump d => [{ t with step := (t.step + d).toNat }]
  | .fork d e => [{ t with step := (t.step + d).toNat }, { t with step := (t.step + e).toNat }]
  | _ => []

/-- For each step, the place at which a thread has been there last, counted from 1. -/
abbrev Visits := Array Nat

/-- Runs threads as far as they go at one place.  The result holds the threads at the next place,
the match that was met, and the steps that were visited. -/
def run (steps : Array Step) (here : Place) :
    (fuel : Nat) → (threads : List Thread) → Visits → (ready : List Thread) →
      List Thread × Option Slots × Visits
  | 0, _, seen, ready => (ready.reverse, none, seen)
  | _ + 1, [], seen, ready => (ready.reverse, none, seen)
  | fuel + 1, t :: ts, seen, ready =>
    if 0 < t.wait then run steps here fuel ts seen ({ t with wait := t.wait - 1 } :: ready)
    else if seen[t.step]? = some (here.offset + 1) then run steps here fuel ts seen ready
    else
      let seen := seen.setIfInBounds t.step (here.offset + 1)
      match steps[t.step]? with
      | none => run steps here fuel ts seen ready
      | some .accept => (ready.reverse, some t.slots, seen)
      | some s =>
        match takenBy here s with
        | some n =>
          run steps here fuel ts seen ({ t with step := t.step + 1, wait := n - 1 } :: ready)
        | none => run steps here fuel (ways here t s ++ ts) seen ready

/-- What goes on from place to place: the threads, the best match and the steps visited. -/
structure State where
  threads : List Thread
  best : Option Slots
  seen : Visits

/-- Goes from one place to the next.  Until there is a match, one may begin anywhere. -/
def pass (steps : Array Step) (slots : Slots) (here : Place) : State → State
  | ⟨threads, best, seen⟩ =>
    let threads := if best.isNone then threads ++ [⟨0, 0, slots⟩] else threads
    let (next, found, seen) := run steps here (threads.length + 2 * steps.size + 1) threads seen []
    ⟨next, found <|> best, seen⟩

/-- The best match once all bytes from a place on have been passed. -/
def searchFrom (steps : Array Step) (slots : Slots) (offset : Nat) (before : Option UInt8)
    (s : State) : List UInt8 → Option Slots
  | [] => (pass steps slots ⟨offset, before, []⟩ s).best
  | b :: rest =>
    let s := pass steps slots ⟨offset, before, b :: rest⟩ s
    if s.threads.isEmpty && s.best.isSome then s.best
    else searchFrom steps slots (offset + 1) (some b) s rest

/-! ## Matchers -/

/-- A pattern that is ready to be searched for. -/
structure Matcher where
  steps : Array Step
  groups : Nat
  names : List (String × Nat)

namespace Matcher

def ofGrouped (g : Grouped) : Matcher :=
  ⟨(g.pattern.code ++ [Step.accept]).toArray, g.groups, g.names⟩

def ofText? (text : String) : Option Matcher := (parse? text).map ofGrouped

end Matcher

/-- A match: the text it was found in, and the bytes of its groups. -/
structure Captures where
  groups : List (Option Path)
  names : List (String × Nat)

namespace Captures

def ofSlots (text : Path) (m : Matcher) (slots : Slots) : Captures where
  groups := (List.range m.groups).map fun i => do
    let first ← (← slots[2 * i]?)
    let last ← (← slots[2 * i + 1]?)
    return (text.take last).drop first
  names := m.names

/-- The bytes of a group; none if it took no part, or does not exist. -/
def group? (c : Captures) (i : Nat) : Option Path := c.groups[i]?.join

def named? (c : Captures) (name : String) : Option Path :=
  (c.names.lookup name).bind c.group?

end Captures

/-- The first match, of those that begin there the preferred one. -/
def Matcher.find? (m : Matcher) (text : Path) : Option Captures :=
  let start : State := ⟨[], none, Array.replicate m.steps.size 0⟩
  (searchFrom m.steps (Array.replicate (2 * m.groups) none) 0 none start text).map
    (Captures.ofSlots text m)

end Pattern

end ByteTrie
