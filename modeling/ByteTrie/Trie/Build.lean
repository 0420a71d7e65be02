import ByteTrie.Trie.Basic

/-!
# Building a trie from a list of paths

The paths are sorted and rid of repetitions.  Those that start with one byte are neighbours then;
each such group becomes an edge whose key is what the first and the last path of the group have
in common, which is what all of them have in common.
-/

namespace ByteTrie

namespace Trie

/-- The bytes of all paths, and one for each. -/
def totalSize (ps : List Path) : Nat := total (ps.map fun p => p.length + 1)

/-! ## Lemmas -/

@[simp] theorem totalSize_nil : totalSize [] = 0 := rfl

@[simp] theorem totalSize_cons (p : Path) (ps : List Path) :
    totalSize (p :: ps) = p.length + 1 + totalSize ps := by
  simp [totalSize]

theorem totalSize_append (ps qs : List Path) :
    totalSize (ps ++ qs) = totalSize ps + totalSize qs := by
  simp [totalSize]

theorem totalSize_map_drop_le (n : Nat) (ps : List Path) :
    totalSize (ps.map fun p => p.drop n) ≤ totalSize ps := by
  induction ps with
  | nil => simp
  | cons p ps ih => simp only [List.map_cons, totalSize_cons, List.length_drop]; omega

theorem totalSize_takeWhile_add_dropWhile (f : Path → Bool) (ps : List Path) :
    totalSize (ps.takeWhile f) + totalSize (ps.dropWhile f) = totalSize ps := by
  rw [← totalSize_append, List.takeWhile_append_dropWhile]

theorem totalSize_tails_lt (f : Path → Bool) (b : UInt8) (p : Path) (ps : List Path) (n : Nat) :
    totalSize ((p :: (ps.takeWhile f).map fun q => q.drop 1).map fun q => q.drop n) <
      totalSize ((b :: p) :: ps) := by
  have h := totalSize_takeWhile_add_dropWhile f ps
  have h1 := totalSize_map_drop_le n (p :: (ps.takeWhile f).map fun q => q.drop 1)
  have h2 := totalSize_map_drop_le 1 (ps.takeWhile f)
  simp only [totalSize_cons, List.length_cons] at h1 ⊢
  omega

/-! ## Algorithm -/

/-- The edges for paths in strictly ascending order; the empty path makes none. -/
def edgesOfSorted : List Path → Fresh (List (Edge Trie))
  | [] => pure []
  | [] :: ps => edgesOfSorted ps
  | (b :: p) :: ps => do
    let group := ps.takeWhile fun q => q.head? == some b
    let tails := p :: group.map fun q => q.drop 1
    let shared := Path.overlap p (tails.getLastD p)
    let below := tails.map fun q => q.drop shared
    let child ← make (below.head? == some []) (← edgesOfSorted below)
    let es ← edgesOfSorted (ps.dropWhile fun q => q.head? == some b)
    return ⟨b, p.take shared, child⟩ :: es
termination_by ps => totalSize ps
decreasing_by
  · simp
  · exact totalSize_tails_lt _ b p ps _
  · have h := totalSize_takeWhile_add_dropWhile (fun q => q.head? == some b) ps
    simp only [totalSize_cons, List.length_cons]
    omega

/-- The trie of paths in strictly ascending order. -/
def ofSorted (ps : List Path) : Fresh Trie := do
  make (ps.head? == some []) (← edgesOfSorted ps)

/-- The set of the paths of a list, in any order and with repetitions. -/
def ofPaths (ps : List Path) : Fresh Trie := ofSorted (Path.sortDedup ps)

end Trie

end ByteTrie
