/-!
# Outcomes

What combining two values comes to: nothing, some of the arguments unchanged, or a new value.
Naming an argument lets the caller keep the argument itself.  Bit `i` of a mask names argument
`i`; a mask with two bits says that both arguments would do.
-/

namespace ByteTrie

inductive Outcome (α : Type) where
  | none
  | identity (mask : UInt64)
  | element (value : α)
deriving DecidableEq, Repr

namespace Outcome

variable {α : Type}

def leftBit : UInt64 := 1

def rightBit : UInt64 := 2

def bothBits : UInt64 := 3

def isNone : Outcome α → Bool
  | none => true
  | _ => false

/-- The outcome for the arguments in the other order. -/
def swap : Outcome α → Outcome α
  | identity m => identity (((m &&& leftBit) <<< 1) ||| ((m &&& rightBit) >>> 1))
  | o => o

/-- The value, an identity being the lowest argument that it names. -/
def resolve (arg : Nat → Option α) : Outcome α → Option α
  | none => Option.none
  | identity m => arg m.toBitVec.ctz.toNat
  | element v => some v

/-- The value of an outcome for the arguments `a` and `b`. -/
def resolvePair (a b default : α) (o : Outcome α) : α :=
  (o.resolve fun i => some (if i = 0 then a else b)).getD default

end Outcome

end ByteTrie
