/-!
# Digests

A digest is 32 bytes.  A hash function gives every message its digest.
-/

namespace ByteTrie

structure Digest where
  bytes : Vector UInt8 32
deriving DecidableEq

instance : Hashable Digest := ⟨fun d => hash d.bytes.toList⟩

def Digest.toList (d : Digest) : List UInt8 := d.bytes.toList

abbrev HashFunction := List UInt8 → Digest

end ByteTrie
