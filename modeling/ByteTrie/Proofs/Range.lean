import ByteTrie.Proofs.Block
import ByteTrie.Proofs.Build
import ByteTrie.Proofs.Sets
import Mathlib

/-!
# Ranges are sets of the pool

The parts of a range are made of blocks, one part after the other, and joined.  Where the bounds of a
part are numbers of the given width, it has the digits of its numbers as members, and the range those
of all parts.
-/

namespace ByteTrie

open Trie Pool

namespace Range

variable {P Q : Pool} {step width lo hi : Nat}

/-- A block that the first number lies behind. -/
theorem makes_block_of_le (h : 256 ^ width ≤ lo) (P : Pool) :
    P.Makes ((block step hi width 0 lo).run {}) fun Q r => r.1 ∈ Q := by
  cases width with
  | zero =>
    rw [block]
    exact makes_pure P.leaf_mem
  | succ n =>
    have hle : min (0 + 256 * Nat.pow 256 n) hi ≤ lo := by
      rw [Nat.pow_succ'] at h
      exact (min_le_left _ _).trans (by rwa [Nat.zero_add])
    rw [block]
    simp only [StateT.run_bind, StateT.run_get, pure_bind, subblocks_of_le _ _ _ hle]
    split
    · next t _ ht => simp at ht
    · simp only [StateT.run_bind, StateT.run_monadLift, bind_assoc, pure_bind]
      refine (makes_make (edges_nil P) false).bind fun Q t hPQ ht => ?_
      split <;> exact makes_pure ht.1

theorem makes_blocks (hstep : 0 < step) (width lo hi : Nat) (P : Pool) :
    P.Makes (blocks step width lo hi) fun Q t =>
      t ∈ Q ∧ (hi ≤ 256 ^ width → t.members = blockPaths step width 0 lo hi) := by
  rw [blocks]
  split
  · next hlt =>
    by_cases hw : lo < 256 ^ width
    · have hblock := makes_block hstep width 0 lo P {} (Known.holds_empty step P) (Nat.zero_le lo)
        (by rwa [Nat.zero_add]) hlt
      refine hblock.bind_pure fun Q r _ hr => ⟨hr.mem, fun hhi => ?_⟩
      rw [hr.members, Nat.zero_add, min_eq_right hhi]
    · refine (makes_block_of_le (Nat.le_of_not_lt hw) P).bind_pure fun Q r _ hr => ⟨hr, fun hhi => ?_⟩
      omega
  · next hlt =>
    refine makes_pure ⟨P.empty_mem, fun _ => ?_⟩
    rw [members_empty, blockPaths_eq_empty (Nat.le_of_not_lt hlt)]

/-- The digits of the numbers of all parts. -/
def partPaths (step width : Nat) (parts : List (Nat × Nat)) : Set Path :=
  {q | ∃ part ∈ parts, q ∈ blockPaths step width 0 part.1 part.2}

@[simp] theorem partPaths_nil (step width : Nat) : partPaths step width [] = ∅ := by
  ext q
  simp [partPaths]

theorem partPaths_cons (step width : Nat) (part : Nat × Nat) (parts : List (Nat × Nat)) :
    partPaths step width (part :: parts) =
      blockPaths step width 0 part.1 part.2 ∪ partPaths step width parts := by
  ext q
  simp [partPaths]

theorem partPaths_append (step width : Nat) (ls ms : List (Nat × Nat)) :
    partPaths step width (ls ++ ms) = partPaths step width ls ∪ partPaths step width ms := by
  ext q
  simp [partPaths, or_and_right, exists_or]

theorem makes_parts (hstep : 0 < step) (width : Nat) (parts : List (Nat × Nat)) (P : Pool) :
    P.Makes (parts.mapM fun (lo, hi) => blocks step width lo hi) fun Q ts => (∀ t ∈ ts, t ∈ Q) ∧
      ((∀ part ∈ parts, part.2 ≤ 256 ^ width) → allMembers ts = partPaths step width parts) := by
  induction parts generalizing P with
  | nil =>
    refine makes_pure ⟨fun _ h => absurd h List.not_mem_nil, fun _ => ?_⟩
    rw [partPaths_nil]
    simp [allMembers]
  | cons part parts ih =>
    rw [List.mapM_cons]
    refine (makes_blocks hstep width part.1 part.2 P).bind fun Q t hPQ ht => ?_
    refine (ih Q).bind_pure fun R ts hQR hts => ⟨fun u hu => ?_, fun hparts => ?_⟩
    · rcases List.mem_cons.mp hu with rfl | hu
      · exact hQR.2 u ht.1
      · exact hts.1 u hu
    · have hrest := fun part' h => hparts part' (List.mem_cons_of_mem part h)
      rw [allMembers_cons, hts.2 hrest, ht.2 (hparts part List.mem_cons_self), partPaths_cons]

end Range

namespace Trie

theorem makes_foldl_union (ts : List Trie) (P : Pool) (s : Trie) (hs : s ∈ P)
    (hts : ∀ t ∈ ts, t ∈ P) : P.Makes (ts.foldlM union s) fun Q u =>
      u ∈ Q ∧ u.members = s.members ∪ allMembers ts := by
  induction ts generalizing P s with
  | nil =>
    refine makes_pure ⟨hs, ?_⟩
    simp [allMembers]
  | cons t ts ih =>
    rw [List.foldlM_cons]
    refine (makes_union hs (hts t List.mem_cons_self)).bind fun Q u hPQ hu => ?_
    have hrest := ih Q u hu.mem fun v hv => hPQ.2 v (hts v (List.mem_cons_of_mem t hv))
    refine hrest.imp fun R v _ hv => ⟨hv.1, ?_⟩
    rw [hv.2, hu.members, allMembers_cons, ← Set.union_assoc]
    rfl

/-- A range made of blocks has the digits of the numbers of its parts, provided they are numbers of
its type; one that is written out has the encodings of its numbers. -/
theorem makes_range_of_pos (P : Pool) (r : IntType) (order : ByteOrder) (p : Progression)
    (hstep : 0 < p.step) : P.Makes (range r order p) fun Q res => ∃ t, res = .ok t ∧ t ∈ Q ∧
      ((order = .big ∧ r.width ≤ widestBlock →
        (∀ part ∈ p.patterns r, part.2 ≤ r.modulus) →
          t.members = Range.partPaths p.step.toNat r.width (p.patterns r)) ∧
      (¬ (order = .big ∧ r.width ≤ widestBlock) →
        t.members = {q | q ∈ (p.toList r).map (r.encode order)})) := by
  rw [range, if_neg (not_le_of_gt hstep)]
  split
  · next hbig =>
    have hpos : 0 < p.step.toNat := Int.lt_toNat.mpr hstep
    refine (Range.makes_parts hpos r.width (p.patterns r) P).bind fun Q ts hPQ hts => ?_
    refine (makes_foldl_union ts Q empty Q.empty_mem hts.1).bind_pure fun R u _ hu =>
      ⟨u, rfl, hu.1, fun _ hparts => ?_, fun hn => absurd hbig hn⟩
    rw [hu.2, hts.2 hparts, members_empty, Set.empty_union]
  · next hbig =>
    refine (makes_ofPaths P _).bind_pure fun Q u _ hu =>
      ⟨u, rfl, hu.1, fun h => absurd h hbig, fun _ => ?_⟩
    ext q
    exact hu.2 q

theorem makes_range (P : Pool) (r : IntType) (order : ByteOrder) (p : Progression) :
    P.Makes (range r order p) fun Q res => ∀ t, res = .ok t → t ∈ Q := by
  by_cases hstep : p.step ≤ 0
  · rw [range, if_pos hstep]
    exact makes_pure fun t h => by cases h
  · refine (makes_range_of_pos P r order p (Int.lt_of_not_ge hstep)).imp ?_
    rintro Q res - ⟨t, rfl, ht, -⟩ u hu
    cases hu
    exact ht

end Trie

end ByteTrie
