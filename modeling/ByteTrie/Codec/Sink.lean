/-!
# Sinks

A target for bytes that may have room for so many of them only.  What does not fit whole is
written as far as it fits, and the write fails.
-/

namespace ByteTrie

/-- What sources and targets of bytes report as the kind of a fault. -/
inductive FaultKind where
  | unexpectedEnd
  | invalidInput
  | writeZero
deriving DecidableEq, Repr

inductive WriteError where
  | full
deriving DecidableEq, Repr

def WriteError.message : WriteError → String
  | full => "failed to write whole buffer"

def WriteError.kind : WriteError → FaultKind
  | full => .writeZero

/-- `room` is what still fits; without it everything does. -/
structure Sink where
  room : Option Nat
  stored : Array UInt8

namespace Sink

def unbounded : Sink := ⟨none, #[]⟩

def bounded (capacity : Nat) : Sink := ⟨some capacity, #[]⟩

def write (s : Sink) (bs : List UInt8) : Except WriteError Unit × Sink :=
  match s.room with
  | none => (.ok (), { s with stored := s.stored ++ bs })
  | some room =>
    if bs.length ≤ room then (.ok (), ⟨some (room - bs.length), s.stored ++ bs⟩)
    else (.error .full, ⟨some 0, s.stored ++ bs.take room⟩)

end Sink

end ByteTrie
