/-!
# Variable-length numbers

A number in base 128, least significant digit first; a set top bit says that more digits follow.
The last digit of a number of several digits is not 0, so each number has one form.
-/

namespace ByteTrie

namespace Varint

def encode (n : Nat) : List UInt8 :=
  if n < 128 then [UInt8.ofNat n] else UInt8.ofNat (n % 128 + 128) :: encode (n / 128)
termination_by n

/-- The digits that a number of 64 bits may have. -/
def maxDigits : Nat := 10

end Varint

end ByteTrie
