import ByteTrie.Toml.Value

/-!
# Numbers and times

Which words are numbers and times.  Digits may be grouped by single underscores.  An integer has 64
bits, with its sign; a fractional number may be of any size as long as it is not rounded to
infinity.
-/

namespace ByteTrie

namespace Toml

def digitOf? (base : Nat) (c : Char) : Option Nat :=
  let n := c.toNat
  let d :=
    if '0' ≤ c && c ≤ '9' then n - '0'.toNat
    else if 'a' ≤ c && c ≤ 'z' then n - 'a'.toNat + 10
    else if 'A' ≤ c && c ≤ 'Z' then n - 'A'.toNat + 10
    else base
  if d < base then some d else none

/-- The digits of a word; an underscore stands between two of them only. -/
def digits? (base : Nat) : List Char → Option (List Nat)
  | [] => none
  | [c] => (digitOf? base c).map ([·])
  | c :: '_' :: cs => do return (← digitOf? base c) :: (← digits? base cs)
  | c :: cs => do return (← digitOf? base c) :: (← digits? base cs)

def valueOf (base : Nat) (ds : List Nat) : Nat := ds.foldl (fun n d => base * n + d) 0

/-- Decimal digits without a leading zero. -/
def plainDigits? (cs : List Char) : Option (List Nat) := do
  let ds ← digits? 10 cs
  if ds.length = 1 ∨ ds.head? ≠ some 0 then return ds else none

/-- The sign in front of a word, and what follows it. -/
def signed (cs : List Char) : Bool × List Char :=
  match cs with
  | '-' :: cs => (true, cs)
  | '+' :: cs => (false, cs)
  | cs => (false, cs)

def integer? (cs : List Char) : Option Int := do
  let n : Int ← match cs with
    | '0' :: 'x' :: cs => (valueOf 16 <$> digits? 16 cs).map Int.ofNat
    | '0' :: 'o' :: cs => (valueOf 8 <$> digits? 8 cs).map Int.ofNat
    | '0' :: 'b' :: cs => (valueOf 2 <$> digits? 2 cs).map Int.ofNat
    | cs =>
      let (negative, cs) := signed cs
      (valueOf 10 <$> plainDigits? cs).map fun n => if negative then -(n : Int) else n
  if Int64.minValue.toInt ≤ n ∧ n ≤ Int64.maxValue.toInt then return n else none

/-! ## Fractional numbers -/

/-- The least number that is rounded to infinity: half a step above the greatest finite one. -/
def leastInfinite : Nat := Nat.pow 2 1024 - Nat.pow 2 970

/-- Whether `n * 10^e` is rounded to infinity.  Its digits before the point tell it, unless there
are about as many of them as `leastInfinite` has. -/
def isInfinite (n : Nat) (e : Int) : Bool :=
  let size : Int := (Nat.toDigits 10 n).length + e
  if n = 0 || size < 300 then false
  else if 320 < size then true
  else leastInfinite * Nat.pow 10 (-e).toNat ≤ n * Nat.pow 10 e.toNat

/-- A word cut in front of the first character of a kind. -/
def cutAt (p : Char → Bool) (cs : List Char) : List Char × List Char :=
  (cs.takeWhile (! p ·), cs.dropWhile (! p ·))

def isExponentMark (c : Char) : Bool := c = 'e' || c = 'E'

/-- The exponent, with its mark; none counts as 0. -/
def exponent? (cs : List Char) : Option Int :=
  match cs with
  | [] => some 0
  | _ :: cs =>
    let (negative, cs) := signed cs
    (valueOf 10 <$> digits? 10 cs).map fun n => if negative then -(n : Int) else n

/-- The digits after the point, with the point. -/
def fraction? (cs : List Char) : Option (List Nat) :=
  match cs with
  | [] => some []
  | _ :: cs => digits? 10 cs

/-- Whether a word is a fractional number: it has a fraction or an exponent, or it is infinity or
no number by name. -/
def isFloat (cs : List Char) : Bool :=
  let (negative, cs) := signed cs
  if cs = ['i', 'n', 'f'] || cs = ['n', 'a', 'n'] then true
  else
    let (mantissa, power) := cutAt isExponentMark cs
    let (whole, part) := cutAt (· = '.') mantissa
    if part.isEmpty && power.isEmpty then false
    else
      match plainDigits? whole, fraction? part, exponent? power with
      | some ds, some fs, some e =>
        negative || !isInfinite (valueOf 10 (ds ++ fs)) (e - fs.length)
      | _, _, _ => false

/-! ## Times -/

/-- A number of exactly `size` digits. -/
def fixed? (size : Nat) (cs : List Char) : Option Nat :=
  if cs.length = size then (cs.mapM (digitOf? 10)).map (valueOf 10) else none

def isLeap (year : Nat) : Bool := year % 4 == 0 && (year % 100 != 0 || year % 400 == 0)

def daysIn (year month : Nat) : Nat :=
  if month = 2 then if isLeap year then 29 else 28
  else if month = 4 ∨ month = 6 ∨ month = 9 ∨ month = 11 then 30
  else 31

/-- Year, month and day, such as `1979-05-27`. -/
def isDate (cs : List Char) : Bool :=
  match fixed? 4 (cs.take 4), fixed? 2 ((cs.drop 5).take 2), fixed? 2 (cs.drop 8) with
  | some year, some month, some day =>
    cs[4]? = some '-' && cs[7]? = some '-' && 1 ≤ month && month ≤ 12 && 1 ≤ day &&
      day ≤ daysIn year month
  | _, _, _ => false

/-- Hour and minute, such as `07:32`. -/
def isHourMinute (cs : List Char) : Bool :=
  match fixed? 2 (cs.take 2), fixed? 2 (cs.drop 3) with
  | some hour, some minute => cs[2]? = some ':' && hour ≤ 23 && minute ≤ 59
  | _, _ => false

/-- A time of day, such as `07:32:00.5`. -/
def isTimeOfDay (cs : List Char) : Bool :=
  let (second, part) := cutAt (· = '.') (cs.drop 6)
  isHourMinute (cs.take 5) && cs[5]? = some ':' && (fixed? 2 second).any (· ≤ 60) &&
    (part.isEmpty || ((part.drop 1).all Char.isDigit && 1 < part.length))

/-- The distance from universal time, such as `+01:30` or `Z`. -/
def isOffset (cs : List Char) : Bool :=
  match cs with
  | ['Z'] => true
  | ['z'] => true
  | '+' :: cs => isHourMinute cs
  | '-' :: cs => isHourMinute cs
  | _ => false

/-- A time of day with or without an offset. -/
def isOffsetTime (cs : List Char) : Bool :=
  let (time, offset) := cutAt (fun c => c = 'Z' || c = 'z' || c = '+' || c = '-') cs
  isTimeOfDay time && (offset.isEmpty || isOffset offset)

/-- A date, a time of day without an offset, or both with a letter between them. -/
def isTime (cs : List Char) : Bool :=
  isDate cs || isTimeOfDay cs ||
    (isDate (cs.take 10) && (cs[10]? = some 'T' || cs[10]? = some 't') && isOffsetTime (cs.drop 11))

/-! ## Words -/

/-- The value of a word, of letters, digits and the signs of numbers and times. -/
def word? (cs : List Char) : Option Value :=
  if cs = ['t', 'r', 'u', 'e'] then some (.boolean true)
  else if cs = ['f', 'a', 'l', 's', 'e'] then some (.boolean false)
  else if isTime cs then some (.time (String.ofList cs))
  else if isFloat cs then some (.float (String.ofList cs))
  else (integer? cs).map .integer

end Toml

end ByteTrie
