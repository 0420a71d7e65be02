import ByteTrie.Proofs.Count
import ByteTrie.Proofs.Reuse
import Mathlib

/-!
# Products and tails

A product puts the members of one set behind those of another; tails take bytes off again.

    k ∈ product x y      iff  k = p ++ q for some p ∈ x and q ∈ y
    q ∈ tails x n        iff  q = p.drop n for some p ∈ x with n ≤ p.length

Different pairs may come to one path, so a product has at most as many members as there are pairs; if
no member of the left set begins with another one, each path tells its pair.  The set of the empty
path leaves the other factor what it is, and no byte taken off leaves a set what it is: not a copy,
but the same node.
-/

namespace ByteTrie

open Trie Pool

/-- No path of `A` begins with another one. -/
def IsPrefixFree (A : Set Path) : Prop := ∀ p ∈ A, ∀ q ∈ A, p <+: q → p = q

/-! ## The number of concatenations -/

section

variable {A B : Set Path}

theorem concat_eq_image (A B : Set Path) :
    concat A B = (fun x : Path × Path => x.1 ++ x.2) '' (A ×ˢ B) :=
  (Set.image_prod _).symm

theorem encard_concat_le (A B : Set Path) : (concat A B).encard ≤ A.encard * B.encard := by
  rw [concat_eq_image, ← Set.encard_prod]
  exact Set.encard_image_le _ _

/-- Of two paths with the same concatenations, one begins with the other. -/
theorem IsPrefixFree.injOn (h : IsPrefixFree A) :
    Set.InjOn (fun x : Path × Path => x.1 ++ x.2) (A ×ˢ B) := by
  rintro ⟨p, q⟩ ⟨hp, -⟩ ⟨p', q'⟩ ⟨hp', -⟩ heq
  have happend : p ++ q = p' ++ q' := heq
  obtain rfl : p = p' := by
    rcases List.prefix_or_prefix_of_prefix (List.prefix_append p q)
      (happend ▸ List.prefix_append p' q') with hpp | hpp
    · exact h p hp p' hp' hpp
    · exact (h p' hp' p hp hpp).symm
  rw [List.append_cancel_left happend]

theorem IsPrefixFree.encard_concat (h : IsPrefixFree A) (B : Set Path) :
    (concat A B).encard = A.encard * B.encard := by
  rw [concat_eq_image, h.injOn.encard_image, Set.encard_prod]

end

/-! ## Factors that leave the other one as it is -/

namespace Trie

variable {P : Pool} {s t : Trie}

theorem isUnit_iff (ht : t ∈ P) : t.isUnit = true ↔ t.members = {[]} := by
  refine ⟨members_of_isUnit, fun h => ?_⟩
  have hmem : ∀ p, p ∈ t ↔ p = [] := fun p => Set.ext_iff.mp h p
  have hter : t.terminal = true := (nil_mem_iff t).mp ((hmem []).mpr rfl)
  have hes : t.edges = [] := by
    apply List.eq_nil_iff_forall_not_mem.mpr
    intro e he
    obtain ⟨p, hp⟩ := (canonical ht).inhabited t .root e he
    have hkey := (hmem _).mp (.along he hp)
    cases hkey
  rw [isUnit, hter, hes]
  rfl

/-- The one node of the set of the empty path. -/
theorem eq_leaf_of_members (ht : t ∈ P) (h : t.members = {[]}) : t = leaf := by
  have hu := (isUnit_iff ht).mpr h
  rw [isUnit, Bool.and_eq_true, List.isEmpty_iff] at hu
  exact eq_leaf ht ⟨[], (nil_mem_iff t).mpr hu.1⟩ hu.2

theorem product_unit (hs : s ∈ P) (hne : s.members.Nonempty) (ht : t ∈ P)
    (hunit : t.members = {[]}) (n : Nat) : s.product t n = (s, n) := by
  have hempty : ¬ (s.isEmpty || t.isEmpty) = true := by
    rw [Bool.or_eq_true, isEmpty_iff hs, isEmpty_iff ht, hunit]
    rintro (h | h)
    · exact hne.ne_empty h
    · exact Set.singleton_ne_empty _ h
  rw [product, productOutcome, if_neg hempty, if_pos ((isUnit_iff ht).mpr hunit), pure_bind,
    Outcome.resolvePair_leftBit]
  rfl

theorem unit_product (hs : s ∈ P) (hunit : s.members = {[]}) (ht : t ∈ P)
    (hne : t.members.Nonempty) (n : Nat) : s.product t n = (t, n) := by
  by_cases htu : t.members = {[]}
  · -- Both are the one leaf, and the right factor is asked about first.
    rw [product_unit hs (hunit ▸ Set.singleton_nonempty _) ht htu, eq_leaf_of_members hs hunit,
      eq_leaf_of_members ht htu]
  · have hempty : ¬ (s.isEmpty || t.isEmpty) = true := by
      rw [Bool.or_eq_true, isEmpty_iff hs, isEmpty_iff ht, hunit]
      rintro (h | h)
      · exact Set.singleton_ne_empty _ h
      · exact hne.ne_empty h
    rw [product, productOutcome, if_neg hempty, if_neg (mt (isUnit_iff ht).mp htu),
      if_pos ((isUnit_iff hs).mpr hunit), pure_bind, Outcome.resolvePair_rightBit]
    rfl

/-- The tails after no byte are the whole set, which is joined with no other. -/
theorem tails_zero (ht : t ∈ P) (n : Nat) : t.tails 0 n = (t, n) := by
  rw [tails, tailTries, pure_bind]
  split
  · next he => rw [eq_empty_of_members ht ((isEmpty_iff ht).mp he)]; rfl
  · rfl

end Trie

namespace Session

variable {hash : HashFunction} {σ : Session}

theorem members_eq_singleton_iff {P : Pool} {t : Trie} (ht : t ∈ P) (p : Path) :
    t.members = {p} ↔ ∀ k, t.contains k = true ↔ k = p := by
  rw [Set.ext_iff]
  exact forall_congr' fun k => by rw [(canonical ht).contains_iff]; exact Iff.rfl

theorem contains_singleton (h : Reachable hash σ) (hc : CollisionFree hash σ.interned)
    (p k : Path) : (Trie.singleton p σ.next).1.contains k = true ↔ k = p := by
  obtain ⟨P, hP⟩ := h.exists_pool hc
  obtain ⟨Q, -, hu, hmem⟩ := hP.run (makes_singleton P p)
  exact (members_eq_singleton_iff hu p).mp hmem k

/-- The members of a product of two sets of a session and their number; a factor that has the empty
path alone leaves the other one as it is, without a new node. -/
theorem product_concatenates (h : Reachable hash σ) (hc : CollisionFree hash σ.interned)
    {x y : Trie} (hx : x ∈ σ.sets) (hy : y ∈ σ.sets) :
    (∀ k, (x.product y σ.next).1.contains k = true ↔
      ∃ p q, x.contains p = true ∧ y.contains q = true ∧ k = p ++ q) ∧
    (x.product y σ.next).1.count ≤ x.count * y.count ∧
    ((∀ p q, x.contains p = true → x.contains q = true → p <+: q → p = q) →
      (x.product y σ.next).1.count = x.count * y.count) ∧
    ((∃ p, x.contains p = true) → (∀ q, y.contains q = true ↔ q = []) →
      x.product y σ.next = (x, σ.next)) ∧
    ((∃ q, y.contains q = true) → (∀ p, x.contains p = true ↔ p = []) →
      x.product y σ.next = (y, σ.next)) := by
  obtain ⟨P, hP⟩ := h.exists_pool hc
  have hxP := hP.sets x hx
  have hyP := hP.sets y hy
  obtain ⟨Q, -, hu, hmem⟩ := hP.run (makes_product hxP hyP)
  have hcount := (canonical hu).count_eq_encard
  have hcountx := (canonical hxP).count_eq_encard
  have hcounty := (canonical hyP).count_eq_encard
  have hxk := (canonical hxP).contains_iff
  have hyk := (canonical hyP).contains_iff
  refine ⟨fun k => ?members, ?bound, fun hfree => ?exact, fun hne hunit => ?right,
    fun hne hunit => ?left⟩
  case members =>
    rw [(canonical hu).contains_iff, ← mem_members, hmem]
    simp only [hxk, hyk]
    constructor
    · rintro ⟨p, hp, q, hq, rfl⟩
      exact ⟨p, q, hp, hq, rfl⟩
    · rintro ⟨p, q, hp, hq, rfl⟩
      exact ⟨p, hp, q, hq, rfl⟩
  case bound =>
    have hle := encard_concat_le x.members y.members
    rw [← hmem, ← hcount, ← hcountx, ← hcounty] at hle
    exact_mod_cast hle
  case exact =>
    have hprefix : IsPrefixFree x.members := fun p hp q hq =>
      hfree p q ((hxk p).mpr hp) ((hxk q).mpr hq)
    have heq := hprefix.encard_concat y.members
    rw [← hmem, ← hcount, ← hcountx, ← hcounty] at heq
    exact_mod_cast heq
  case right =>
    obtain ⟨p, hp⟩ := hne
    exact product_unit hxP ⟨p, (hxk p).mp hp⟩ hyP ((members_eq_singleton_iff hyP []).mpr hunit) _
  case left =>
    obtain ⟨q, hq⟩ := hne
    exact unit_product hxP ((members_eq_singleton_iff hxP []).mpr hunit) hyP ⟨q, (hyk q).mp hq⟩ _

/-- After the branching set and the set of 6 7, the set of the empty path. -/
def branchingUnit : Session := branchingNext.gain (Trie.singleton [])

theorem branchingUnit_reachable (hash : HashFunction) : Reachable hash branchingUnit :=
  (branchingNext_reachable hash).step (.singleton [])

/-- The branching set behind 6 7, and 6 7 beside the empty path. -/
theorem product_concatenates_branching :
    ∃ x ∈ branchingUnit.sets, ∃ unit ∈ branchingUnit.sets,
      (x.product branchingSet branchingUnit.next).1.contains [6, 7, 1, 2, 3] = true ∧
      (x.product branchingSet branchingUnit.next).1.count = x.count * branchingSet.count ∧
      (branchingSet.product x branchingUnit.next).1.count ≤ branchingSet.count * x.count ∧
      x.product unit branchingUnit.next = (x, branchingUnit.next) ∧
      unit.product x branchingUnit.next = (x, branchingUnit.next) := by
  have hreach := branchingUnit_reachable Blake3.hash
  have hc : CollisionFree Blake3.hash branching.interned := branching_collisionFree _
  have hcNext : CollisionFree Blake3.hash branchingNext.interned := hc
  have hcUnit : CollisionFree Blake3.hash branchingUnit.interned := hc
  have hx : (Trie.singleton [6, 7] branching.next).1 ∈ branchingUnit.sets :=
    List.mem_cons_of_mem _ List.mem_cons_self
  have hunit : (Trie.singleton [] branchingNext.next).1 ∈ branchingUnit.sets := List.mem_cons_self
  have hb : branchingSet ∈ branchingUnit.sets :=
    List.mem_cons_of_mem _ (List.mem_cons_of_mem _ branchingSet_mem)
  have hxk := contains_singleton (branching_reachable Blake3.hash) hc [6, 7]
  have hunitk := contains_singleton (branchingNext_reachable Blake3.hash) hcNext []
  have hb3 : branchingSet.contains [1, 2, 3] = true := by decide +kernel
  generalize (Trie.singleton [6, 7] branching.next).1 = x at hx hxk
  generalize (Trie.singleton [] branchingNext.next).1 = unit at hunit hunitk
  have hne : ∃ p, x.contains p = true := ⟨[6, 7], (hxk _).mpr rfl⟩
  obtain ⟨hmem, -, hcount, -⟩ := product_concatenates hreach hcUnit hx hb
  refine ⟨x, hx, unit, hunit, ?_, ?_, ?_, ?_, ?_⟩
  · exact (hmem _).mpr ⟨[6, 7], [1, 2, 3], (hxk _).mpr rfl, hb3, rfl⟩
  · exact hcount fun p q hp hq _ => ((hxk p).mp hp).trans ((hxk q).mp hq).symm
  · exact (product_concatenates hreach hcUnit hb hx).2.1
  · exact (product_concatenates hreach hcUnit hx hunit).2.2.2.1 hne hunitk
  · exact (product_concatenates hreach hcUnit hunit hx).2.2.2.2 hne hunitk

/-- The members of the tails of a set of a session after `n` bytes, which are a canonical trie, and
for no bytes the set itself. -/
theorem tails_drop (h : Reachable hash σ) (hc : CollisionFree hash σ.interned) {x : Trie}
    (hx : x ∈ σ.sets) (n : Nat) :
    (∀ q, (x.tails n σ.next).1.contains q = true ↔
      ∃ p, x.contains p = true ∧ n ≤ p.length ∧ q = p.drop n) ∧
    (x.tails n σ.next).1.Canonical ∧ x.tails 0 σ.next = (x, σ.next) := by
  obtain ⟨P, hP⟩ := h.exists_pool hc
  have hxP := hP.sets x hx
  obtain ⟨Q, -, hu, hmem⟩ := hP.run (makes_tails hxP n)
  refine ⟨fun q => ?_, canonical hu, tails_zero hxP _⟩
  rw [(canonical hu).contains_iff, ← mem_members, hmem]
  simp only [(canonical hxP).contains_iff]
  exact Iff.rfl

/-- After three bytes nothing is left of 1 2 3, one byte of 1 2 4 5, and 6 is gone. -/
theorem tails_drop_branching :
    (branchingSet.tails 3 branching.next).1.contains [] = true ∧
      (branchingSet.tails 3 branching.next).1.contains [5] = true ∧
      (branchingSet.tails 3 branching.next).1.Canonical ∧
      branchingSet.tails 0 branching.next = (branchingSet, branching.next) := by
  obtain ⟨hmem, hcan, hzero⟩ := tails_drop (branching_reachable Blake3.hash)
    (branching_collisionFree _) branchingSet_mem 3
  refine ⟨(hmem _).mpr ⟨[1, 2, 3], ?_, ?_, ?_⟩, (hmem _).mpr ⟨[1, 2, 4, 5], ?_, ?_, ?_⟩, hcan, hzero⟩
  all_goals decide +kernel

end Session

end ByteTrie
