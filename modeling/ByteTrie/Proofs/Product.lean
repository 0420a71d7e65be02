import ByteTrie.Algebra.Product
import ByteTrie.Proofs.Sets
import Mathlib

/-!
# Product

    makes_product s t     r ∈ u  iff  r = p ++ q for some p ∈ s and q ∈ t

The right argument is put behind every terminal node of the left one: behind an edge it stands
behind all that the edge leads to, and at a terminal node it is joined to what the edges come to.
-/

namespace ByteTrie

open Pool

/-- Every path of `A` followed by every path of `B`. -/
def concat (A B : Set Path) : Set Path := Set.image2 (· ++ ·) A B

theorem concat_union (A B C : Set Path) : concat (A ∪ B) C = concat A C ∪ concat B C :=
  Set.image2_union_left

theorem concat_nil (A : Set Path) : concat {[]} A = A := by
  simp [concat]

theorem concat_nil_right (A : Set Path) : concat A {[]} = A := by
  simp [concat]

theorem concat_empty (A : Set Path) : concat A ∅ = ∅ := Set.image2_empty_right

theorem empty_concat (A : Set Path) : concat ∅ A = ∅ := Set.image2_empty_left

/-- What stands behind an edge is put behind the paths of its child. -/
theorem concat_members (k : Path) {t u : Trie} {B : Set Path}
    (hu : u.members = concat t.members B) :
    Stem.members ⟨k, u⟩ = concat (Stem.members ⟨k, t⟩) B := by
  ext r
  constructor
  · rintro ⟨q, hq, rfl⟩
    rw [← Trie.mem_members, hu] at hq
    obtain ⟨p, hp, q, hq, rfl⟩ := hq
    exact ⟨k ++ p, ⟨p, hp, rfl⟩, q, hq, List.append_assoc k p q⟩
  · rintro ⟨_, ⟨p, hp, rfl⟩, q, hq, rfl⟩
    refine ⟨p ++ q, ?_, List.append_assoc k p q⟩
    rw [← Trie.mem_members, hu]
    exact ⟨p, hp, q, hq, rfl⟩

namespace Trie

variable {P Q : Pool}

theorem makes_graftEdges (suffix : Trie) (es : List (Edge Trie)) (P : Pool) (hs : suffix ∈ P)
    (hes : P.Edges es)
    (ih : ∀ e ∈ es, ∀ P : Pool, suffix ∈ P → e.child ∈ P →
      P.Makes (graft suffix e.child) fun Q u =>
        u ∈ Q ∧ u.members = concat e.child.members suffix.members) :
    P.Makes (graftEdges suffix es) fun Q gs =>
      Q.Edges gs ∧ edgeMembers gs = concat (edgeMembers es) suffix.members := by
  induction es generalizing P with
  | nil =>
    rw [graftEdges]
    exact makes_pure ⟨edges_nil P, by rw [edgeMembers_nil, empty_concat]⟩
  | cons e es ihes =>
    obtain ⟨b, k, t⟩ := e
    rw [graftEdges]
    refine (ih _ List.mem_cons_self P hs (hes.child_mem _ List.mem_cons_self)).bind
      fun Q u hPQ hu => ?_
    refine (ihes Q (hPQ.2 _ hs) (hes.tail.mono hPQ) fun e he =>
      ih e (List.mem_cons_of_mem _ he)).bind_pure fun R gs hQR hgs => ⟨?_, ?_⟩
    · refine edges_over_append (hQR.2 u hu.1) hgs.1 (Edges.lt_first hgs.1 ?_ hes.head_lt)
      intro c p hp
      rw [hgs.2] at hp
      obtain ⟨q, hq, r, -, heq⟩ := hp
      cases q with
      | nil => exact absurd hq (nil_not_mem_edgeMembers es)
      | cons d q =>
        obtain ⟨e, he, rfl, -⟩ := (cons_mem_edgeMembers es d q).mp hq
        exact ⟨e, he, (List.cons.inj heq).1⟩
    · rw [edgeMembers_append, edgeMembers_over (hQR.2 u hu.1), hgs.2, edgeMembers_cons _ es,
        concat_union, edgeMembers_singleton, edgeMembers_singleton]
      congr 1
      exact concat_members (b :: k) hu.2

theorem makes_graft (suffix t : Trie) (P : Pool) (hs : suffix ∈ P) (ht : t ∈ P) :
    P.Makes (graft suffix t) fun Q u =>
      u ∈ Q ∧ u.members = concat t.members suffix.members := by
  induction t using nodeInduction generalizing P with
  | node t ih =>
    have hedges := makes_graftEdges suffix t.edges P hs (edges_of_mem ht) fun e he P hs he' =>
      ih e he P hs he'
    cases t with
    | node i b c m es =>
      rw [graft]
      refine hedges.bind fun Q gs hPQ hgs => ?_
      refine (makes_make hgs.1 false).bind fun R v hQR hv => ?_
      have hv' : v.members = concat (edgeMembers es) suffix.members := by
        ext p
        rw [mem_members, Trie.mem_iff, hv.2.1, hv.2.2, hgs.2]
        simp [edges]
      cases b with
      | true =>
        refine (makes_union hv.1 (hQR.2 _ (hPQ.2 _ hs))).imp fun S u _ hu => ⟨hu.mem, ?_⟩
        have hsplit : members (node i true c m es) = edgeMembers es ∪ {[]} := by
          ext p
          rw [mem_members, Trie.mem_iff, Set.mem_union, or_comm]
          exact or_congr_right (and_iff_left rfl)
        rw [hu.members, hv', hsplit, concat_union, concat_nil]
        rfl
      | false =>
        refine makes_pure ⟨hv.1, ?_⟩
        have hsplit : members (node i false c m es) = edgeMembers es := by
          ext p
          rw [mem_members, Trie.mem_iff]
          simp [edges, terminal]
        rw [hv', hsplit]

theorem members_of_isUnit {t : Trie} (h : t.isUnit = true) : t.members = {[]} := by
  rw [isUnit, Bool.and_eq_true, List.isEmpty_iff] at h
  ext p
  rw [mem_members, Trie.mem_iff, h.1, h.2]
  simp

theorem makes_product {s t : Trie} (hs : s ∈ P) (ht : t ∈ P) :
    P.Makes (product s t) fun Q u => u ∈ Q ∧ u.members = concat s.members t.members := by
  rw [product, productOutcome]
  split
  · next he =>
    refine makes_pure ⟨P.empty_mem, ?_⟩
    rw [Bool.or_eq_true, isEmpty_iff hs, isEmpty_iff ht] at he
    refine members_empty.trans ?_
    rcases he with he | he
    · rw [he, empty_concat]
    · rw [he, concat_empty]
  · split
    · next hu =>
      refine makes_pure ?_
      rw [Outcome.resolvePair_leftBit, members_of_isUnit hu, concat_nil_right]
      exact ⟨hs, rfl⟩
    · split
      · next hu =>
        refine makes_pure ?_
        rw [Outcome.resolvePair_rightBit, members_of_isUnit hu, concat_nil]
        exact ⟨ht, rfl⟩
      · exact (makes_graft t s P ht hs).bind fun Q u _ hu => makes_pure hu

end Trie

end ByteTrie
