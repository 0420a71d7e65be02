/-!
# Decimal text of binary32 numbers

A nonnegative binary32 number is m · 2^e with m below 2^24, and e at least -149.  `ofRatio` is the
number nearest to a quotient, a tie going to the even m.  Its text has either a fixed number of
places, or the fewest digits that read back as the same number.
-/

namespace ByteTrie

/-- The quotient rounded to the nearest natural number, a tie to the even one. -/
def roundDiv (num den : Nat) : Nat :=
  let q := num / den
  let twice := 2 * (num % den)
  if twice < den then q
  else if den < twice then q + 1
  else q + q % 2

/-- The number `mantissa * 2 ^ exponent`. -/
structure Binary32 where
  mantissa : Nat
  exponent : Int
deriving DecidableEq, Repr

namespace Binary32

def precision : Nat := 24

def minExponent : Int := -149

/-- Numerator and denominator of `num / (den * 2 ^ e)`. -/
def scaled (num den : Nat) (e : Int) : Nat × Nat :=
  (num * Nat.pow 2 (-e).toNat, den * Nat.pow 2 e.toNat)

/-- The exponent at which the mantissa of `num / den` has all its digits. -/
def exponentOf (num den : Nat) : Int :=
  let e : Int := (num.log2 : Int) - den.log2 - precision
  let (n, d) := scaled num den e
  max minExponent (if n / d < Nat.pow 2 precision then e else e + 1)

/-- The number nearest to `num / den`. -/
def ofRatio (num den : Nat) : Binary32 :=
  if num = 0 then ⟨0, minExponent⟩
  else
    let e := exponentOf num den
    let (n, d) := scaled num den e
    let m := roundDiv n d
    if m = Nat.pow 2 precision then ⟨Nat.pow 2 (precision - 1), e + 1⟩ else ⟨m, e⟩

def ofNat (n : Nat) : Binary32 := ofRatio n 1

/-- Numerator and denominator of a number. -/
def toRatio (x : Binary32) : Nat × Nat :=
  (x.mantissa * Nat.pow 2 x.exponent.toNat, Nat.pow 2 (-x.exponent).toNat)

/-- The quotient of two numbers, the second of which is not zero. -/
def div (x y : Binary32) : Binary32 :=
  let (a, b) := x.toRatio
  let (c, d) := y.toRatio
  ofRatio (a * d) (b * c)

/-! ## Text -/

/-- The decimal digits of `n`, with zeros in front up to `width` digits. -/
def padded (width n : Nat) : String :=
  let digits := Nat.toDigits 10 n
  String.ofList (List.replicate (width - digits.length) '0' ++ digits)

/-- `n / 10 ^ places` with all its places. -/
def positional (places n : Nat) : String :=
  if places = 0 then toString n
  else toString (n / Nat.pow 10 places) ++ "." ++ padded places (n % Nat.pow 10 places)

/-- The text with so many places, the last one rounded. -/
def fixed (places : Nat) (x : Binary32) : String :=
  let (a, b) := x.toRatio
  positional places (roundDiv (a * Nat.pow 10 places) b)

/-- Whether a quotient is among those whose nearest number is `x`. -/
def isNearest (x : Binary32) (num den : Nat) : Bool := decide (ofRatio num den = x)

/-- The decimal with so many places that reads back as `x`, the nearer one of two. -/
def decimal? (x : Binary32) (places : Nat) : Option Nat :=
  let (a, b) := x.toRatio
  let scale := Nat.pow 10 places
  let low := a * scale / b
  match x.isNearest low scale, x.isNearest (low + 1) scale with
  | true, true => some (roundDiv (a * scale) b)
  | true, false => some low
  | false, true => some (low + 1)
  | false, false => none

/-- The text with the fewest places, from `places` on, that reads back. -/
def shortestFrom (x : Binary32) : (fuel : Nat) → Nat → String
  | 0, places => x.fixed places
  | fuel + 1, places =>
    match x.decimal? places with
    | some n => positional places n
    | none => shortestFrom x fuel (places + 1)

/-- More places than any number needs. -/
def maxPlaces : Nat := 160

/-- The text with the fewest places that reads back. -/
def shortest (x : Binary32) : String := x.shortestFrom maxPlaces 0

end Binary32

end ByteTrie
