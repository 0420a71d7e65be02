import ByteTrie.Path

/-!
# Fixed-width integers

Integers of 1 to 16 bytes, with or without a sign, and their encodings: the bytes of the number
modulo 2^bits, most or least significant byte first.
-/

namespace ByteTrie

structure IntType where
  width : Nat
  isSigned : Bool
deriving DecidableEq, Repr

namespace IntType

/-- One more than the greatest bit pattern. -/
def modulus (r : IntType) : Nat := Nat.pow 256 r.width

def min (r : IntType) : Int := if r.isSigned then -(r.modulus / 2 : Nat) else 0

def max (r : IntType) : Int := if r.isSigned then (r.modulus / 2 : Nat) - 1 else r.modulus - 1

def contains (r : IntType) (v : Int) : Prop := r.min ≤ v ∧ v ≤ r.max

/-- The bit pattern of a number. -/
def pattern (r : IntType) (v : Int) : Nat := (v % (r.modulus : Int)).toNat

end IntType

inductive ByteOrder where
  | big
  | little
deriving DecidableEq, Repr

/-- The last `width` digits of a number in base 256, the least significant one first. -/
def littleEndian : (width : Nat) → Nat → Path
  | 0, _ => []
  | width + 1, n => UInt8.ofNat (n % 256) :: littleEndian width (n / 256)

def IntType.encode (r : IntType) (order : ByteOrder) (v : Int) : Path :=
  let digits := littleEndian r.width (r.pattern v)
  match order with
  | .little => digits
  | .big => digits.reverse

/-! ## Lemmas -/

theorem digit_inj {x y : Nat} (hx : x < 256) (hy : y < 256)
    (h : UInt8.ofNat x = UInt8.ofNat y) : x = y := by
  have := congrArg UInt8.toNat h
  rwa [UInt8.toNat_ofNat_of_lt' hx, UInt8.toNat_ofNat_of_lt' hy] at this

@[simp] theorem length_littleEndian (width n : Nat) : (littleEndian width n).length = width := by
  induction width generalizing n with
  | zero => rfl
  | succ width ih => rw [littleEndian, List.length_cons, ih]

theorem littleEndian_inj {width n m : Nat} (hn : n < Nat.pow 256 width)
    (hm : m < Nat.pow 256 width) (h : littleEndian width n = littleEndian width m) : n = m := by
  induction width generalizing n m with
  | zero =>
    rw [Nat.lt_one_iff.mp hn, Nat.lt_one_iff.mp hm]
  | succ width ih =>
    rw [littleEndian, littleEndian, List.cons.injEq] at h
    have hlow : n % 256 = m % 256 := digit_inj (by omega) (by omega) h.1
    have hhigh : n / 256 = m / 256 := by
      refine ih ?_ ?_ h.2
      · exact Nat.div_lt_of_lt_mul (by rwa [Nat.mul_comm])
      · exact Nat.div_lt_of_lt_mul (by rwa [Nat.mul_comm])
    omega

end ByteTrie
