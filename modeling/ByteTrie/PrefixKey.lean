import ByteTrie.Codec.PathList

/-!
# Keys for numbers

A number of 64 bits in as few bytes as hold it, but at least one, the least significant byte
first.

    decode (encode k) = k
    encode (decode bs) = bs  iff  bs has 1 to 8 bytes, and its last byte is not 0 or its only one
-/

namespace ByteTrie

namespace PrefixKey

/-- The bytes that a number takes: 8 less the leading zero bytes, and at least 1. -/
def width (k : UInt64) : Nat := max 1 (8 - k.toBitVec.clz.toNat / 8)

def encode (k : UInt64) : Path := littleEndian (width k) k.toNat

/-- The number of the first 8 bytes. -/
def decode (bs : Path) : UInt64 := UInt64.ofNat (PathList.ofLittleEndian (bs.take 8))

end PrefixKey

end ByteTrie
