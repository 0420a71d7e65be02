/-!
# Lattices of values that are made in a monad

    joinAll [x, y, z] = join (join (join bottom z) y) x        raffinate x y = restrict y x

unless an instance gives its own.
-/

namespace ByteTrie

class Lattice (m : outParam (Type → Type)) [Monad m] (α : Type) where
  join : α → α → m α
  meet : α → α → m α
  bottom : α
  joinAll : List α → m α := fun xs => xs.foldrM (fun x acc => join acc x) bottom

/-- `subtract x y` is what of `x` is not in `y`. -/
class DistributiveLattice (m : outParam (Type → Type)) [Monad m] (α : Type) where
  subtract : α → α → m α

/-- `restrict x y` is what of `x` extends an element of `y`. -/
class Quantale (m : outParam (Type → Type)) [Monad m] (α : Type) where
  restrict : α → α → m α
  raffinate : α → α → m α := fun x y => restrict y x

end ByteTrie
