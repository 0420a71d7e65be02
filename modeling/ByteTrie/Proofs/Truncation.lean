import ByteTrie.Proofs.Reuse
import Mathlib

/-!
# Truncation

The heads of a set are its members cut to a number of bytes.

    q ∈ heads x n      iff  q = p.take n for some p ∈ x
    KeepsUncut n t u        the nodes of t behind which nothing is cut are nodes of u, at their places

The walk makes a node anew only where one of the paths behind it is too long, so what is shorter stays
by reference: all of the set if no member is too long.
-/

namespace ByteTrie

open Trie Pool

theorem cutTo_eq_self_iff (n : Nat) (A : Set Path) : cutTo n A = A ↔ ∀ p ∈ A, p.length ≤ n := by
  constructor
  · intro h p hp
    rw [← h] at hp
    obtain ⟨q, -, rfl⟩ := hp
    exact List.length_take_le n q
  · intro h
    have hid : ∀ p ∈ A, p.take n = id p := fun p hp => List.take_of_length_le (h p hp)
    exact (Set.image_congr hid).trans (Set.image_id A)

/-- The nodes along `es` whose paths all have at most `n` bytes are nodes along `gs`, at the same
places. -/
def EdgesKeepUncut (n : Nat) (es gs : List (Edge Trie)) : Prop :=
  ∀ m p, NodeAlong es m p → (∀ q ∈ m, (p ++ q).length ≤ n) → NodeAlong gs m p

/-- The nodes of `t` whose paths all have at most `n` bytes are nodes of `u`, at the same places. -/
def Trie.KeepsUncut (n : Nat) (t u : Trie) : Prop :=
  ∀ (m : Trie) (p : Path), m.IsNodeAt p t → (∀ q ∈ m, (p ++ q).length ≤ n) → m.IsNodeAt p u

/-! ## Nodes below a cut -/

section

variable {P : Pool} {es fs : List (Edge Trie)} {m t u : Trie} {p : Path} {b : UInt8} {l : Path}

theorem NodeAlong.ne_nil (h : NodeAlong es m p) : p ≠ [] := by
  obtain ⟨e, -, q, rfl⟩ := h.exists_first
  exact List.cons_ne_nil _ _

/-- An edge over a node leads to all nodes below that node. -/
theorem NodeAlong.over (hu : u ∈ P) (h : NodeAlong u.edges m p) (b : UInt8) (k : Path) :
    NodeAlong (Edge.over b k u).toList m (b :: (k ++ p)) := by
  obtain ⟨f, hf, q, hq, rfl⟩ := h
  have hne : ¬ u.isEmpty = true := by
    rw [isEmpty_iff hu]
    intro hmem
    rw [eq_empty_of_members hu hmem] at hf
    exact absurd hf List.not_mem_nil
  unfold Edge.over
  rw [if_neg hne]
  split
  · next e _ hes =>
    obtain rfl : f = e := by
      rw [hes] at hf
      exact List.mem_singleton.mp hf
    exact ⟨_, List.mem_singleton_self _, q, hq, by simp [Edge.key]⟩
  · exact ⟨_, List.mem_singleton_self _, f.key ++ q, .inside hf hq, rfl⟩

/-- A cut that an edge reaches takes bytes off some path behind it. -/
theorem exists_longer_of_cut {n : Nat} (he : P.Edges (⟨b, l, t⟩ :: es)) (hge : n ≤ l.length + 1)
    (hmore : n = l.length + 1 → t.edges ≠ []) : ∃ q ∈ t, n < (b :: l ++ q).length := by
  by_cases heq : n = l.length + 1
  · obtain ⟨f, hf⟩ := List.exists_mem_of_ne_nil _ (hmore heq)
    have ht : t ∈ P := he.child_mem _ List.mem_cons_self
    obtain ⟨r, hr⟩ := (canonical ht).inhabited t .root f hf
    refine ⟨f.key ++ r, .along hf hr, ?_⟩
    simp only [List.length_append, List.length_cons, Edge.key]
    omega
  · obtain ⟨q, hq⟩ := he.exists_mem _ List.mem_cons_self
    refine ⟨q, hq, ?_⟩
    simp only [List.length_append, List.length_cons]
    omega

theorem Trie.IsNodeAt.isNode (h : m.IsNodeAt p t) : IsNode m t := by
  induction h with
  | root => exact .root
  | inside he _ ih => exact .inside he ih

theorem Trie.IsNodeAt.exists_mem (h : m.IsNodeAt p t) (hc : t.Canonical) (hne : ∃ q, q ∈ t) :
    ∃ q, q ∈ m := by
  induction h with
  | root => exact hne
  | inside he _ ih => exact ih (hc.child he) (hc.inhabited _ .root _ he)

theorem NodeAlong.exists_mem (h : NodeAlong es m p) (hes : P.Edges es) : ∃ q, q ∈ m := by
  obtain ⟨e, he, q, hq, -⟩ := h
  exact hq.exists_mem (canonical (hes.child_mem e he)) (hes.exists_mem e he)

end

/-! ## One edge -/

section

variable {P : Pool} {n : Nat} {es gs new : List (Edge Trie)} {e : Edge Trie} {t u : Trie}
  {b : UInt8} {l : Path}

theorem EdgesKeepUncut.cons (hnew : EdgesKeepUncut n [e] new) (h : EdgesKeepUncut n es gs) :
    EdgesKeepUncut n (e :: es) (new ++ gs) := by
  intro m p hm hlen
  have hsplit : NodeAlong ([e] ++ es) m p := hm
  rcases nodeAlong_append.mp hsplit with hm | hm
  · exact nodeAlong_append.mpr (Or.inl (hnew m p hm hlen))
  · exact nodeAlong_append.mpr (Or.inr (h m p hm hlen))

/-- Along an edge that reaches the cut there is no node to keep: behind its end something is cut
off, and every other node has paths that are longer than its key. -/
theorem edgesKeepUncut_of_cut (he : P.Edges (⟨b, l, t⟩ :: es)) (hge : n ≤ l.length + 1)
    (hmore : n = l.length + 1 → t.edges ≠ []) (gs : List (Edge Trie)) :
    EdgesKeepUncut n [⟨b, l, t⟩] gs := by
  rintro m _ ⟨e, he', q, hq, rfl⟩ hlen
  obtain rfl := List.mem_singleton.mp he'
  exfalso
  rcases (isNodeAt_iff m t q).mp hq with ⟨rfl, rfl⟩ | hq
  · obtain ⟨r, hr, hlong⟩ := exists_longer_of_cut he hge hmore
    have hshort := hlen r hr
    rw [List.append_nil] at hshort
    exact absurd hlong (Nat.not_lt.mpr hshort)
  · obtain ⟨r, hr⟩ := hq.exists_mem (edges_of_mem (he.child_mem _ List.mem_cons_self))
    have hpos : 0 < q.length := List.length_pos_iff.mpr hq.ne_nil
    have hshort := hlen r hr
    simp only [Edge.key, List.length_append, List.length_cons] at hshort
    omega

/-- Along an edge over a rebuilt node, the nodes to keep are those below this node. -/
theorem edgesKeepUncut_over (hle : l.length + 1 ≤ n) (hu : u ∈ P)
    (hlong : ∃ q ∈ t, n - (l.length + 1) < q.length)
    (h : EdgesKeepUncut (n - (l.length + 1)) t.edges u.edges) :
    EdgesKeepUncut n [⟨b, l, t⟩] (Edge.over b l u).toList := by
  rintro m _ ⟨e, he, q, hq, rfl⟩ hlen
  obtain rfl := List.mem_singleton.mp he
  have hrest : ∀ r ∈ m, (q ++ r).length ≤ n - (l.length + 1) := by
    intro r hr
    have hshort := hlen r hr
    simp only [Edge.key, List.length_append, List.length_cons] at hshort ⊢
    omega
  rcases (isNodeAt_iff m t q).mp hq with ⟨rfl, rfl⟩ | hq
  · obtain ⟨r, hr, hlong⟩ := hlong
    exact absurd hlong (Nat.not_lt.mpr (hrest r hr))
  · exact (h m q hq hrest).over hu b l

end

/-! ## The walk -/

/-- What is cut of edges keeps the nodes behind which nothing is cut, and a change has its reason. -/
structure Cut.KeepsUncut (n : Nat) (es : List (Edge Trie)) (c : Cut) : Prop where
  nodes : EdgesKeepUncut n es c.edges
  exists_longer : c.unchanged = false → ∃ p ∈ edgeMembers es, n < p.length

namespace Trie

variable {P Q : Pool} {n : Nat} {t : Trie}

theorem exists_longer_of_edges (h : ∃ p ∈ edgeMembers t.edges, n < p.length) :
    ∃ p ∈ t, n < p.length := by
  obtain ⟨p, hp, hlong⟩ := h
  exact ⟨p, (mem_iff t p).mpr (Or.inr hp), hlong⟩

theorem Cut.passes_keepsUncut : Cut.Passes Cut.KeepsUncut where
  nil n := ⟨fun _ _ hm => absurd hm not_nodeAlong_nil, fun h => absurd h.symm Bool.false_ne_true⟩
  keep {n e es c} h := by
    refine ⟨EdgesKeepUncut.cons (fun _ _ hm _ => hm) h.nodes, fun hc => ?_⟩
    obtain ⟨p, hp, hlong⟩ := h.exists_longer hc
    exact ⟨p, edgeMembers_cons e es ▸ Or.inr hp, hlong⟩
  cut {Q n b l t es c} he hge hmore h := by
    refine ⟨EdgesKeepUncut.cons (edgesKeepUncut_of_cut he hge hmore _) h.nodes, fun _ => ?_⟩
    obtain ⟨q, hq, hlong⟩ := exists_longer_of_cut he hge hmore
    exact ⟨_, ⟨_, List.mem_cons_self, q, hq, rfl⟩, hlong⟩
  rebuild {Q n b l t u es c d} hle hu hes hd hM h := by
    obtain ⟨q, hq, hlong⟩ := exists_longer_of_edges (hM.exists_longer hd)
    refine ⟨EdgesKeepUncut.cons ?_ h.nodes, fun _ => ⟨_, ⟨_, List.mem_cons_self, q, hq, rfl⟩, ?_⟩⟩
    · exact edgesKeepUncut_over hle hu ⟨q, hq, hlong⟩ (hes ▸ hM.nodes)
    · simp only [Edge.key, List.length_append, List.length_cons]
      omega

/-- Where no byte is left, every node along an edge is cut. -/
theorem edgesKeepUncut_zero {es : List (Edge Trie)} (hes : P.Edges es) (gs : List (Edge Trie)) :
    EdgesKeepUncut 0 es gs := by
  intro m p hm hlen
  obtain ⟨q, hq⟩ := hm.exists_mem hes
  have hpos : 0 < p.length := List.length_pos_iff.mpr hm.ne_nil
  have hshort := hlen q hq
  rw [List.length_append] at hshort
  omega

/-- What was built for the heads has lost some bytes, and keeps the nodes behind which nothing is
cut. -/
theorem headsOutcome_keepsUncut (ht : t ∈ P) (n : Nat) {u : Trie}
    (h : (headsOutcome t n P.next).1 = .element u) :
    (∃ p ∈ t, n < p.length) ∧ EdgesKeepUncut n t.edges u.edges := by
  by_cases hempty : t.isEmpty = true
  · rw [headsOutcome, if_pos hempty] at h
    cases h
  rw [headsOutcome, if_neg hempty] at h
  by_cases h0 : n = 0
  · subst h0
    refine ⟨?_, edgesKeepUncut_zero (edges_of_mem ht) u.edges⟩
    cases hes : t.edges with
    | nil =>
      rw [if_pos rfl, hes] at h
      cases h
    | cons e es =>
      have he : e ∈ t.edges := hes ▸ List.mem_cons_self
      obtain ⟨p, hp⟩ := (canonical ht).inhabited t .root e he
      exact ⟨e.key ++ p, .along he hp, by simp [Edge.key]⟩
  · rw [if_neg h0] at h
    obtain ⟨Q, -, -, -, hmade⟩ :=
      Cut.passes_keepsUncut.makes_cutNode t n P (Nat.pos_of_ne_zero h0) ht
    obtain ⟨d, hd, hchanged, hM⟩ := hmade u h
    exact ⟨exists_longer_of_edges (hM.exists_longer hchanged), hd ▸ hM.nodes⟩

theorem keepsUncut_heads (ht : t ∈ P) (n : Nat) : KeepsUncut n t (heads t n P.next).1 := by
  have hvalue : (heads t n P.next).1 = (headsOutcome t n P.next).1.resolvePair t t empty := rfl
  rw [hvalue]
  intro m p hm hlen
  rcases t.members.eq_empty_or_nonempty with he | hne
  · rw [headsOutcome, if_pos ((isEmpty_iff ht).mpr he)]
    rwa [eq_empty_of_members ht he] at hm
  obtain ⟨Q, -, -, ho⟩ := makes_headsOutcome ht hne n
  cases hcase : (headsOutcome t n P.next).1 with
  | none =>
    rw [hcase] at ho
    exact absurd ho not_false
  | identity mask =>
    rw [hcase] at ho
    rw [ho.1, Outcome.resolvePair_leftBit]
    exact hm
  | element u =>
    obtain ⟨⟨q, hq, hlong⟩, hkept⟩ := headsOutcome_keepsUncut ht n hcase
    rcases (isNodeAt_iff m t p).mp hm with ⟨rfl, rfl⟩ | hm
    · exact absurd hlong (Nat.not_lt.mpr (hlen q hq))
    · exact (isNodeAt_iff m u p).mpr (Or.inr (hkept m p hm hlen))

/-- Where nothing is cut, the root is kept like every other node. -/
theorem KeepsUncut.eq {u : Trie} (h : KeepsUncut n t u) (hlen : ∀ p ∈ t, p.length ≤ n) : u = t := by
  rcases (isNodeAt_iff t u []).mp (h t [] .root hlen) with ⟨-, heq⟩ | hm
  · exact heq.symm
  · exact absurd rfl hm.ne_nil

end Trie

namespace Session

variable {hash : HashFunction} {σ : Session}

/-- The heads of a set of a session are its members cut to `n` bytes, in canonical form and counted
once; the set itself is given back in exactly the cases where nothing is cut, and so is every node
behind which nothing is cut. -/
theorem heads_truncate (h : Reachable hash σ) (hc : CollisionFree hash σ.interned) {x : Trie}
    (hx : x ∈ σ.sets) (n : Nat) :
    (∀ q, (x.heads n σ.next).1.contains q = true ↔
      ∃ p, x.contains p = true ∧ q = p.take n) ∧
    (x.heads n σ.next).1.Canonical ∧
    ((x.heads n σ.next).1.count : ℕ∞) = {q | ∃ p, x.contains p = true ∧ q = p.take n}.encard ∧
    ((x.heads n σ.next).1.sameNode x = true ↔
      x.isEmpty = true ∨ ∀ p, x.contains p = true → p.length ≤ n) ∧
    (∀ (m : Trie) (p : Path), m.IsNodeAt p x →
      (∀ q, m.contains q = true → (p ++ q).length ≤ n) → m.IsNodeAt p (x.heads n σ.next).1) := by
  obtain ⟨P, hP⟩ := h.exists_pool hc
  have hxP := hP.sets x hx
  obtain ⟨Q, hPQ, hu, hmem⟩ := hP.run (makes_heads hxP n)
  have hkeeps : KeepsUncut n x (x.heads n σ.next).1 := hP.next_eq ▸ keepsUncut_heads hxP n
  have hxk := (canonical hxP).contains_iff
  have huk := (canonical hu).contains_iff
  have hcut : (x.heads n σ.next).1.members = {q | ∃ p, x.contains p = true ∧ q = p.take n} := by
    rw [hmem]
    ext q
    simp only [cutTo, Set.mem_image, Set.mem_ofPred_eq, hxk, eq_comm (a := q), mem_members]
  refine ⟨fun q => ?members, canonical hu, ?count, ?same, fun m p hm hlen => ?nodes⟩
  case members =>
    rw [huk, ← mem_members, hcut]
    exact Iff.rfl
  case count => rw [(canonical hu).count_eq_encard, hcut]
  case same =>
    constructor
    · intro hsame
      have heq := eq_of_sameNode hu (hPQ.2 x hxP) hsame
      rw [heq] at hmem
      exact Or.inr fun p hp => (cutTo_eq_self_iff n _).mp hmem.symm p ((hxk p).mp hp)
    · intro hshort
      have hlen : ∀ p ∈ x, p.length ≤ n := by
        intro p hp
        rcases hshort with he | hshort
        · exact absurd hp (Set.eq_empty_iff_forall_notMem.mp ((isEmpty_iff hxP).mp he) p)
        · exact hshort p ((hxk p).mpr hp)
      rw [hkeeps.eq hlen]
      exact beq_self_eq_true x.id
  case nodes =>
    have hmk := ((canonical hxP).node hm.isNode).contains_iff
    exact hkeeps m p hm fun q hq => hlen q ((hmk q).mpr hq)

/-- Of 1 2 4 5 a byte is cut off, so this is another set; the node at 6 is still there. -/
theorem heads_truncate_branching :
    (branchingSet.heads 3 branching.next).1.contains [1, 2, 4] = true ∧
      (branchingSet.heads 3 branching.next).1.Canonical ∧
      ¬ (branchingSet.heads 3 branching.next).1.sameNode branchingSet = true ∧
      ∃ m : Trie, m.contains [] = true ∧ m.IsNodeAt [6] (branchingSet.heads 3 branching.next).1 := by
  obtain ⟨hmem, hcan, -, hsame, hnodes⟩ := heads_truncate (branching_reachable Blake3.hash)
    (branching_collisionFree _) branchingSet_mem 3
  have hlong : branchingSet.contains [1, 2, 4, 5] = true := by decide +kernel
  refine ⟨(hmem _).mpr ⟨[1, 2, 4, 5], hlong, rfl⟩, hcan, fun h => ?_, ?_⟩
  · rcases hsame.mp h with he | hshort
    · exact absurd he (by decide +kernel)
    · exact absurd (hshort _ hlong) (by decide)
  · have he : branchingSet.edges.getLast (by decide +kernel) ∈ branchingSet.edges :=
      List.getLast_mem _
    have hkey : (branchingSet.edges.getLast (by decide +kernel)).key = [6] := by decide +kernel
    have hchild : (branchingSet.edges.getLast (by decide +kernel)).child.edges.isEmpty = true := by
      decide +kernel
    have hter : (branchingSet.edges.getLast (by decide +kernel)).child.contains [] = true := by
      decide +kernel
    generalize branchingSet.edges.getLast _ = e at he hkey hchild hter
    have hat := IsNodeAt.inside he (IsNodeAt.root (n := e.child))
    rw [hkey] at hat
    have hcanonical : e.child.Canonical := branchingSet_canonical.child he
    refine ⟨e.child, hter, hnodes e.child [6] hat fun q hq => ?_⟩
    rcases (mem_iff _ q).mp ((hcanonical.contains_iff q).mp hq) with ⟨rfl, -⟩ | hq
    · decide
    · rw [List.isEmpty_iff.mp hchild, edgeMembers_nil] at hq
      exact absurd hq (Set.notMem_empty q)

end Session

end ByteTrie
