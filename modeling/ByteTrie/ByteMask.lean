/-!
# Byte masks

A set of bytes as a vector of 256 bits.  Rank and select are popcounts and bit scans:

    rank m b     is the number of members below b        nth? m i    is the member of rank i
    next? m b    is the least member above b             prev? m b   is the greatest member below b
-/

namespace ByteTrie

structure ByteMask where
  bits : BitVec 256
deriving DecidableEq

namespace ByteMask

def empty : ByteMask := ⟨0#256⟩

def contains (m : ByteMask) (b : UInt8) : Bool :=
  m.bits.getLsbD b.toNat

def insert (m : ByteMask) (b : UInt8) : ByteMask :=
  ⟨m.bits ||| BitVec.twoPow 256 b.toNat⟩

def singleton (b : UInt8) : ByteMask := empty.insert b

def ofList (bs : List UInt8) : ByteMask := bs.foldl insert empty

/-- The members in ascending order. -/
def toList (m : ByteMask) : List UInt8 :=
  ((List.range 256).map UInt8.ofNat).filter m.contains

def size (m : ByteMask) : Nat := m.bits.cpop.toNat

def isEmpty (m : ByteMask) : Bool := m.bits == 0#256

def union (m n : ByteMask) : ByteMask := ⟨m.bits ||| n.bits⟩

def inter (m n : ByteMask) : ByteMask := ⟨m.bits &&& n.bits⟩

/-- The bits below position `i`. -/
def below (m : ByteMask) (i : Nat) : BitVec 256 :=
  m.bits &&& (BitVec.twoPow 256 i - 1#256)

def rank (m : ByteMask) (b : UInt8) : Nat := (m.below b.toNat).cpop.toNat

def nth? (m : ByteMask) (i : Nat) : Option UInt8 := m.toList[i]?

def next? (m : ByteMask) (b : UInt8) : Option UInt8 :=
  let above := m.bits >>> (b.toNat + 1)
  if above = 0#256 then none else some (UInt8.ofNat (b.toNat + 1 + above.ctz.toNat))

def prev? (m : ByteMask) (b : UInt8) : Option UInt8 :=
  let low := m.below b.toNat
  if low = 0#256 then none else some (UInt8.ofNat (255 - low.clz.toNat))

end ByteMask

end ByteTrie
