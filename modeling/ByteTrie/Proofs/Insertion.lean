import ByteTrie.Proofs.Listing
import ByteTrie.Proofs.Restriction
import Mathlib

/-!
# Sets from lists

A set can be built from a list in one go, group by group of the sorted list, or by inserting one path
after the other.  The order and the repetitions of the list make no difference, and neither does the
way: canonical tries with the same members have the same edges everywhere.

    (ofPaths ps n).1.paths     the paths of ps, ascending, each once
    insertAll ps               the paths of ps, one after the other into the empty set
-/

namespace ByteTrie

open Pool

namespace Trie

/-- The paths of a list, inserted one after the other. -/
def insertAll (ps : List Path) : Fresh Trie := ps.foldlM Trie.insert Trie.empty

variable {s t : Trie}

theorem makes_foldlM_insert (ps : List Path) (P : Pool) (hs : s ∈ P) :
    P.Makes (ps.foldlM Trie.insert s) fun Q u => u ∈ Q ∧ ∀ p, p ∈ u ↔ p ∈ s ∨ p ∈ ps := by
  induction ps generalizing s P with
  | nil =>
    refine makes_pure ⟨hs, fun p => ?_⟩
    simp
  | cons q ps ih =>
    rw [List.foldlM_cons]
    refine (makes_insert hs q).bind fun Q t _ ⟨ht, hmem⟩ => (ih Q ht).imp fun R u _ ⟨hu, hp⟩ => ?_
    refine ⟨hu, fun p => ?_⟩
    have hone : p ∈ t ↔ p ∈ s ∨ p = q := Set.ext_iff.mp hmem p
    rw [hp, hone, List.mem_cons, or_assoc]

theorem makes_insertAll (ps : List Path) (P : Pool) :
    P.Makes (insertAll ps) fun Q u => u ∈ Q ∧ ∀ p, p ∈ u ↔ p ∈ ps := by
  refine (makes_foldlM_insert ps P P.empty_mem).imp fun Q u _ ⟨hu, hp⟩ => ⟨hu, fun p => ?_⟩
  have hempty : p ∉ Trie.empty := Set.eq_empty_iff_forall_notMem.mp members_empty p
  rw [hp, or_iff_right hempty]

/-- The one canonical form of a list of paths. -/
structure IsSetOf (t : Trie) (ps : List Path) : Prop where
  canonical : t.Canonical
  mem_iff : ∀ p, p ∈ t ↔ p ∈ ps

theorem IsSetOf.shape_eq {ps qs : List Path} (hs : s.IsSetOf ps) (ht : t.IsSetOf qs)
    (h : ∀ p, p ∈ ps ↔ p ∈ qs) : s.shape = t.shape := by
  refine shape_eq_of_members_eq hs.canonical ht.canonical (Set.ext fun p => ?_)
  rw [mem_members, mem_members, hs.mem_iff, ht.mem_iff, h]

/-- Whatever ids are used by now. -/
theorem isSetOf_ofPaths (ps : List Path) {n : Nat} (hn : firstId ≤ n) :
    (ofPaths ps n).1.IsSetOf ps := by
  obtain ⟨Q, -, -, hu, hmem⟩ := makes_ofPaths (Pool.start.later hn) ps
  exact ⟨canonical hu, hmem⟩

theorem isSetOf_insertAll (ps : List Path) {n : Nat} (hn : firstId ≤ n) :
    (insertAll ps n).1.IsSetOf ps := by
  obtain ⟨Q, -, -, hu, hmem⟩ := makes_insertAll ps (Pool.start.later hn)
  exact ⟨canonical hu, hmem⟩

/-- The set of a list has the paths of the list in order and without repetitions, and is the same set
for all lists of these paths and for insertions one by one. -/
theorem ofPaths_lists (ps : List Path) {m n : Nat} (hm : firstId ≤ m) (hn : firstId ≤ n) :
    (ofPaths ps n).1.Canonical ∧
    (ofPaths ps n).1.paths.Pairwise (· < ·) ∧
    (∀ p, p ∈ (ofPaths ps n).1.paths ↔ p ∈ ps) ∧
    (∀ qs : List Path, (∀ p, p ∈ qs ↔ p ∈ ps) →
      (ofPaths qs m).1.encode = (ofPaths ps n).1.encode) ∧
    ((insertAll ps m).1 == (ofPaths ps n).1) = true := by
  have hset := isSetOf_ofPaths ps hn
  have hinsert := isSetOf_insertAll ps hm
  refine ⟨hset.canonical, hset.canonical.pairwise_paths, fun p => ?listed, fun qs hqs => ?order,
    ?folded⟩
  case listed => rw [mem_paths_iff, hset.mem_iff]
  case order => exact (encode_eq_iff _ _).mpr ((isSetOf_ofPaths qs hm).shape_eq hset hqs)
  case folded =>
    exact beq_of_shape_eq hinsert.canonical hset.canonical (hinsert.shape_eq hset fun _ => Iff.rfl)

/-- Two paths that meet inside an edge, one of them listed twice and the empty path last. -/
theorem ofPaths_lists_repeated :
    (ofPaths [[1, 2], [1, 3], [1, 2], []] 7).1.encode = (ofPaths [[], [1, 2], [1, 3]] 5).1.encode ∧
      ((insertAll [[], [1, 2], [1, 3]] 7).1 == (ofPaths [[], [1, 2], [1, 3]] 5).1) = true := by
  have hsame : ∀ p : Path, p ∈ [[1, 2], [1, 3], [1, 2], []] ↔ p ∈ [[], [1, 2], [1, 3]] := by
    intro p
    simp only [List.mem_cons, List.not_mem_nil, or_false]
    tauto
  obtain ⟨-, -, -, horder, hfolded⟩ :=
    ofPaths_lists [[], [1, 2], [1, 3]] (m := 7) (n := 5) (by decide) (by decide)
  exact ⟨horder _ hsame, hfolded⟩

end Trie

end ByteTrie
