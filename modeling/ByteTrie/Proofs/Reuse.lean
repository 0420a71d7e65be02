import ByteTrie.Proofs.Moves
import ByteTrie.Proofs.Restriction
import Mathlib

/-!
# Reuse of nodes

A node of a result has its place: the path that leads to it from the root.  The operations make a
node only where no argument that the result may share with has the same set at the same place; every
other node of a result is an argument's own, and stands where it stood there.

    n.IsNodeAt p t       the path p leads from the root of t to its node n
    NodeAlong es n p     the path p leads to the node n along an edge of es
    behind p A           the paths of A that start with p, without it

That outcomes are exact tells this of the root of a result.  For the nodes below it the steps of the
walk pass on where the nodes behind the merged edges are from.
-/

namespace ByteTrie

open Trie Pool

/-- `n.IsNodeAt p t`: the path `p` leads from the root of `t` to its node `n`. -/
inductive Trie.IsNodeAt (n : Trie) : Path → Trie → Prop
  | root : IsNodeAt n [] n
  | inside {t : Trie} {e : Edge Trie} {p : Path} (he : e ∈ t.edges) (hn : IsNodeAt n p e.child) :
      IsNodeAt n (e.key ++ p) t

/-- The path `p` leads to the node `n` along one of the edges `es`. -/
def NodeAlong (es : List (Edge Trie)) (n : Trie) (p : Path) : Prop :=
  ∃ e ∈ es, ∃ q, n.IsNodeAt q e.child ∧ p = e.key ++ q

/-- The paths of `A` that start with `p`, without it. -/
def behind (p : Path) (A : Set Path) : Set Path := {q | p ++ q ∈ A}

/-- Where a node `n` at `p` may be from when the edges `es` and `fs` are combined: along the left
edges, along the right ones if `both` may be shared, or new, and then the paths behind `p` were not
those of the node before. -/
inductive Origin (both : Bool) (es fs : List (Edge Trie)) (n : Trie) (p : Path) : Prop
  | left (h : NodeAlong es n p)
  | right (hb : both = true) (h : NodeAlong fs n p)
  | new (hl : n.members ≠ behind p (edgeMembers es))
      (hr : both = true → n.members ≠ behind p (edgeMembers fs))

/-- All nodes along `gs` have their origin in `es` and `fs`. -/
def EdgesReuse (both : Bool) (es fs gs : List (Edge Trie)) : Prop :=
  ∀ n p, NodeAlong gs n p → Origin both es fs n p

/-- Every node of `u` is a node of `s`, or of `t` if `both` may be shared, at the same place, or its
members are others than these have there. -/
def Trie.Reuses (both : Bool) (s t u : Trie) : Prop :=
  ∀ (n : Trie) (p : Path), n.IsNodeAt p u → n.IsNodeAt p s ∨ (both = true ∧ n.IsNodeAt p t) ∨
    (n.members ≠ s.membersAfter p ∧ (both = true → n.members ≠ t.membersAfter p))

/-! ## Nodes and their places -/

theorem Trie.isNodeAt_iff (n t : Trie) (p : Path) :
    n.IsNodeAt p t ↔ (p = [] ∧ n = t) ∨ NodeAlong t.edges n p := by
  constructor
  · intro h
    cases h with
    | root => exact Or.inl ⟨rfl, rfl⟩
    | inside he hn => exact Or.inr ⟨_, he, _, hn, rfl⟩
  · rintro (⟨rfl, rfl⟩ | ⟨e, he, q, hn, rfl⟩)
    · exact .root
    · exact .inside he hn

section

variable {es fs : List (Edge Trie)} {n : Trie} {p : Path}

theorem nodeAlong_append :
    NodeAlong (es ++ fs) n p ↔ NodeAlong es n p ∨ NodeAlong fs n p := by
  simp [NodeAlong, or_and_right, exists_or]

theorem not_nodeAlong_nil : ¬ NodeAlong [] n p := by
  rintro ⟨e, he, -⟩
  exact absurd he List.not_mem_nil

theorem NodeAlong.exists_first (h : NodeAlong es n p) : ∃ e ∈ es, ∃ q, p = e.first :: q := by
  obtain ⟨e, he, q, -, rfl⟩ := h
  exact ⟨e, he, e.rest ++ q, rfl⟩

/-- From a place inside an edge, or at its end, the node stands behind the rest of the key. -/
theorem NodeAlong.extend {k : Path} {t : Trie} (h : NodeAlong (Stem.branches ⟨k, t⟩) n p)
    (b : UInt8) (c : Path) : NodeAlong [⟨b, c ++ k, t⟩] n (b :: (c ++ p)) := by
  refine ⟨_, List.mem_singleton_self _, ?_⟩
  cases k with
  | nil => exact ⟨p, (isNodeAt_iff n t p).mpr (Or.inr h), by simp [Edge.key]⟩
  | cons d k =>
    obtain ⟨e, he, q, hn, rfl⟩ := h
    obtain rfl := List.mem_singleton.mp he
    exact ⟨q, hn, by simp [Edge.key]⟩

/-- An edge over a node leads to the nodes of that node, and to itself only if it was not left
out. -/
theorem NodeAlong.of_over {b : UInt8} {c : Path} {v : Trie} {g : Edge Trie}
    (hg : Edge.over b c v = some g) (h : NodeAlong [g] n p) :
    ∃ q, n.IsNodeAt q v ∧ p = b :: (c ++ q) := by
  obtain ⟨e, he, q, hn, rfl⟩ := h
  obtain rfl := List.mem_singleton.mp he
  unfold Edge.over at hg
  split at hg
  · cases hg
  · split at hg
    · next f _ hes =>
      obtain rfl := Option.some.inj hg
      have hf : f ∈ v.edges := hes ▸ List.mem_singleton_self f
      exact ⟨f.key ++ q, .inside hf hn, by simp [Edge.key]⟩
    · obtain rfl := Option.some.inj hg
      exact ⟨q, hn, rfl⟩

end

/-! ## Paths behind a path -/

theorem behind_cons (b : UInt8) (p : Path) (A : Set Path) :
    behind (b :: p) A = behind p (after b A) := rfl

theorem behind_edgeMembers (t : Trie) (b : UInt8) (p : Path) :
    behind (b :: p) (edgeMembers t.edges) = t.membersAfter (b :: p) :=
  Set.ext fun q => (cons_mem_iff t b (p ++ q)).symm

theorem behind_append (p q : Path) (A : Set Path) : behind (p ++ q) A = behind q (behind p A) := by
  ext r
  simp [behind]

theorem behind_image (c : Path) (A : Set Path) : behind c ((c ++ ·) '' A) = A := by
  ext q
  simp [behind]

namespace SetOp

variable {both : Bool} {b : UInt8} {left right es fs gs : List (Edge Trie)} {n : Trie} {p : Path}

/-- Behind the bytes that an edge and a place inside it share, both have the same. -/
theorem Front.behind_eq {c k : Path} {t : Trie} (h : Front b [⟨b, c ++ k, t⟩] es) (p : Path) :
    behind (b :: (c ++ p)) (edgeMembers ([⟨b, c ++ k, t⟩] ++ es)) =
      behind p (Stem.members ⟨k, t⟩) := by
  rw [behind_cons, h.after_self, after_edgeMembers_singleton, Stem.members_append, behind_append,
    behind_image]

/-! ## Origins -/

/-- An origin stays what it is when edges with another first byte are put in front. -/
theorem Front.origin (hl : Front b left es) (hr : Front b right fs) {c : UInt8} (hc : c ≠ b)
    (h : Origin both es fs n (c :: p)) : Origin both (left ++ es) (right ++ fs) n (c :: p) := by
  cases h with
  | left h => exact .left (nodeAlong_append.mpr (Or.inr h))
  | right hb h => exact .right hb (nodeAlong_append.mpr (Or.inr h))
  | new hnl hnr =>
    refine .new ?_ fun hb => ?_
    · rwa [behind_cons, hl.after_ne hc, ← behind_cons]
    · rw [behind_cons, hr.after_ne hc, ← behind_cons]
      exact hnr hb

/-- New edges in front of merged edges, which start with greater bytes. -/
theorem Front.reuse {new : List (Edge Trie)} (hl : Front b left es) (hr : Front b right fs)
    (hgs : ∀ g ∈ gs, b < g.first) (h : EdgesReuse both es fs gs)
    (hnew : EdgesReuse both (left ++ es) (right ++ fs) new) :
    EdgesReuse both (left ++ es) (right ++ fs) (new ++ gs) := by
  intro n p hn
  rcases nodeAlong_append.mp hn with hn | hn
  · exact hnew n p hn
  · obtain ⟨g, hg, q, rfl⟩ := hn.exists_first
    exact hl.origin hr (UInt8.ne_of_lt (hgs g hg)).symm (h n _ hn)

theorem edgesReuse_nil : EdgesReuse both es fs [] :=
  fun _ _ hn => absurd hn not_nodeAlong_nil

theorem edgesReuse_left : EdgesReuse both (left ++ es) fs left :=
  fun _ _ hn => .left (nodeAlong_append.mpr (Or.inl hn))

theorem edgesReuse_right (hb : both = true) : EdgesReuse both es (right ++ fs) right :=
  fun _ _ hn => .right hb (nodeAlong_append.mpr (Or.inl hn))

/-- The nodes along an edge over the combined subtrie `v` of two places.  If the node of `v` itself is
kept, the paths behind it are new; if it is left out, it is no node of the result. -/
theorem edgesReuse_over {c k l : Path} {s t v : Trie} {g : Edge Trie}
    (hl : Front b [⟨b, c ++ k, s⟩] es) (hr : Front b [⟨b, c ++ l, t⟩] fs)
    (hnl : v.members ≠ Stem.members ⟨k, s⟩) (hnr : both = true → v.members ≠ Stem.members ⟨l, t⟩)
    (h : EdgesReuse both (Stem.branches ⟨k, s⟩) (Stem.branches ⟨l, t⟩) v.edges)
    (hg : Edge.over b c v = some g) :
    EdgesReuse both ([⟨b, c ++ k, s⟩] ++ es) ([⟨b, c ++ l, t⟩] ++ fs) [g] := by
  intro n p hn
  obtain ⟨q, hq, rfl⟩ := hn.of_over hg
  rcases (isNodeAt_iff n v q).mp hq with ⟨rfl, rfl⟩ | hq
  · refine .new ?_ fun hb => ?_
    · rw [hl.behind_eq]
      exact hnl
    · rw [hr.behind_eq]
      exact hnr hb
  · obtain ⟨e, -, q', rfl⟩ := hq.exists_first
    cases h n _ hq with
    | left h => exact .left (nodeAlong_append.mpr (Or.inl (h.extend b c)))
    | right hb h => exact .right hb (nodeAlong_append.mpr (Or.inl (h.extend b c)))
    | new hnl hnr =>
      refine .new ?_ fun hb => ?_
      · rw [hl.behind_eq, behind_cons, Stem.after_members, ← behind_cons]
        exact hnl
      · rw [hr.behind_eq, behind_cons, Stem.after_members, ← behind_cons]
        exact hnr hb

/-! ## The walk -/

theorem isCommutative_of_keepsRight {op : SetOp} (h : op.keepsRight = true) :
    op.isCommutative = true := by
  cases op with
  | join => rfl
  | meet | subtract | restrict => cases h

/-- Nodes behind merged edges have their origin in the edges that are merged. -/
theorem passes_reuse (op : SetOp) : op.Passes
    (fun s t o => ∀ v, o = Outcome.element v →
      EdgesReuse op.isCommutative s.branches t.branches v.edges)
    (fun es fs m => EdgesReuse op.isCommutative es fs m.edges) where
  settle h v hv := absurd hv (settle_ne_element h v)
  finish {s t m} i h v hv := by
    rcases finish_cases op s t m i with hf | ⟨mask, hf⟩ | ⟨x, -, hf⟩
    · rw [hf] at hv
      cases hv
    · rw [hf] at hv
      cases hv
    · rw [hf] at hv
      obtain rfl := Outcome.element.inj hv
      rwa [edges_make]
  nil := edgesReuse_nil
  consLeft {Q e es fs m} hm he hf h := by
    have hl := front_singleton he.head_lt
    have hr := front_nil hf
    have hlt := hm.lt_first hl.lt_first hr.lt_first
    unfold Merged.consLeft
    split
    · exact hl.reuse hr hlt h edgesReuse_left
    · exact hl.reuse hr hlt h edgesReuse_nil
  consRight {Q f es fs m} hm hf he h := by
    have hl := front_nil he
    have hr := front_singleton hf.head_lt
    have hlt := hm.lt_first hl.lt_first hr.lt_first
    unfold Merged.consRight
    split
    · next hk => exact hl.reuse hr hlt h (edgesReuse_right (isCommutative_of_keepsRight hk))
    · exact hl.reuse hr hlt h edgesReuse_nil
  consBoth {Q b k l s t es fs m o} hm he hf ho hR h := by
    have hl : Front b [⟨b, k, s⟩] es := front_singleton he.head_lt
    have hr : Front b [⟨b, l, t⟩] fs := front_singleton hf.head_lt
    have hlt := hm.lt_first hl.lt_first hr.lt_first
    cases o with
    | none => exact hl.reuse hr hlt h edgesReuse_nil
    | identity mask =>
      obtain ⟨-, x, y, rfl, hxy, -, hy⟩ := ho
      unfold Merged.consBoth
      simp only [Outcome.mask_and_leftBit_eq_zero_iff]
      cases x with
      | true => exact hl.reuse hr hlt h edgesReuse_left
      | false =>
        have hb := (hy.mp (by simpa using hxy)).1
        exact hl.reuse hr hlt h (edgesReuse_right hb)
    | element v =>
      obtain ⟨-, hnl, hnr, -, hmem⟩ := ho
      have hR := hR v rfl
      rw [← hmem] at hnl hnr
      have hk := List.take_append_drop (Path.overlap k l) k
      have hkl := List.take_append_drop (Path.overlap k l) l
      rw [← Path.take_overlap] at hkl
      unfold Merged.consBoth
      simp only
      cases hg : Edge.over b (k.take (Path.overlap k l)) v with
      | none => exact hl.reuse hr hlt h edgesReuse_nil
      | some g =>
        have hl' : Front b [⟨b, k.take (Path.overlap k l) ++ k.drop (Path.overlap k l), s⟩] es := by
          rwa [hk]
        have hr' : Front b [⟨b, k.take (Path.overlap k l) ++ l.drop (Path.overlap k l), t⟩] fs := by
          rwa [hkl]
        have hnew := edgesReuse_over hl' hr' hnl hnr hR hg
        rw [hk, hkl] at hnew
        exact hl.reuse hr hlt h hnew

variable {op : SetOp} {P : Pool} {s t : Trie} {o : Outcome Trie}

theorem makes_apply_reuse (op : SetOp) (hs : s ∈ P) (ht : t ∈ P) :
    P.Makes (op.apply s t) fun Q o =>
      o.Exact Q op.isCommutative s.members t.members (op.result s.members t.members) ∧
        ∀ v, o = Outcome.element v → EdgesReuse op.isCommutative s.edges t.edges v.edges := by
  have h := (passes_reuse op).makes_combine ⟨[], s⟩ ⟨[], t⟩ P ⟨hs, fun h => absurd rfl h⟩
    ⟨ht, fun h => absurd rfl h⟩
  rwa [Stem.members_nil, Stem.members_nil] at h

/-- The set that an exact outcome stands for reuses the nodes of its arguments, if all edges of a new
node do. -/
theorem reuses_resolvePair (hs : s ∈ P) (ht : t ∈ P)
    (ho : o.Exact P op.isCommutative s.members t.members (op.result s.members t.members))
    (hr : ∀ v, o = Outcome.element v → EdgesReuse op.isCommutative s.edges t.edges v.edges) :
    Reuses op.isCommutative s t (o.resolvePair s t Trie.empty) := by
  intro n p hn
  have hc := combined_of_exact hs ht ho
  rcases (isNodeAt_iff n _ p).mp hn with ⟨rfl, rfl⟩ | hedge
  · by_cases hS : op.result s.members t.members = s.members
    · rw [hc.eq_left hS]
      exact Or.inl .root
    · by_cases hT : op.isCommutative = true ∧ op.result s.members t.members = t.members
      · rw [hc.eq_right hT.1 hT.2 hS]
        exact Or.inr (Or.inl ⟨hT.1, .root⟩)
      · refine Or.inr (Or.inr ⟨fun h => hS ?_, fun hb h => hT ⟨hb, ?_⟩⟩)
        · exact hc.members.symm.trans h
        · exact hc.members.symm.trans h
  · cases o with
    | none => exact absurd hedge not_nodeAlong_nil
    | identity m =>
      obtain ⟨-, l, r, rfl, hlr, -, hT⟩ := ho
      rw [Outcome.resolvePair_mask s t Trie.empty hlr] at hn
      cases l with
      | true => exact Or.inl hn
      | false => exact Or.inr (Or.inl ⟨(hT.mp (by simpa using hlr)).1, hn⟩)
    | element v =>
      obtain ⟨e, -, q, rfl⟩ := hedge.exists_first
      cases hr v rfl n _ hedge with
      | left h => exact Or.inl ((isNodeAt_iff n s _).mpr (Or.inr h))
      | right hb h => exact Or.inr (Or.inl ⟨hb, (isNodeAt_iff n t _).mpr (Or.inr h)⟩)
      | new hnl hnr =>
        rw [behind_edgeMembers] at hnl
        refine Or.inr (Or.inr ⟨hnl, fun hb => ?_⟩)
        rw [← behind_edgeMembers]
        exact hnr hb

theorem makes_reuses (op : SetOp) (hs : s ∈ P) (ht : t ∈ P) :
    P.Makes (return (← op.apply s t).resolvePair s t Trie.empty) fun _ u =>
      Reuses op.isCommutative s t u :=
  (makes_apply_reuse op hs ht).bind_pure fun _ _ hPQ ⟨ho, hr⟩ =>
    reuses_resolvePair (hPQ.2 s hs) (hPQ.2 t ht) ho hr

end SetOp

namespace Session

variable {hash : HashFunction} {σ : Session}

/-- The operations on two sets of a session make a node only where its members are new; all other
nodes of their results are nodes of the two sets, at the same places. -/
theorem operations_reuse (h : Reachable hash σ) (hc : CollisionFree hash σ.interned) {x y : Trie}
    (hx : x ∈ σ.sets) (hy : y ∈ σ.sets) :
    Reuses true x y (x.union y σ.next).1 ∧ Reuses true x y (x.inter y σ.next).1 ∧
      Reuses false x y (x.diff y σ.next).1 ∧ Reuses false x y (x.restrict y σ.next).1 := by
  obtain ⟨P, hP⟩ := h.exists_pool hc
  have hrun := fun op => hP.run (SetOp.makes_reuses op (hP.sets x hx) (hP.sets y hy))
  obtain ⟨-, -, hunion⟩ := hrun .join
  obtain ⟨-, -, hinter⟩ := hrun .meet
  obtain ⟨-, -, hdiff⟩ := hrun .subtract
  obtain ⟨-, -, hrestrict⟩ := hrun .restrict
  exact ⟨hunion, hinter, hdiff, hrestrict⟩

/-- The branching set, and after it the set of the path 6 7. -/
def branchingNext : Session := branching.gain (Trie.singleton [6, 7])

theorem branchingNext_reachable (hash : HashFunction) : Reachable hash branchingNext :=
  (branching_reachable hash).step (.singleton [6, 7])

/-- These two have parts in common along one edge, and a node at 1 2 that only one of them has. -/
theorem operations_reuse_branching :
    ∃ y ∈ branchingNext.sets, branchingSet.contains [6] = true ∧ y.contains [6, 7] = true ∧
      y.containsPath [1, 2] = false ∧
      Reuses true branchingSet y (branchingSet.union y branchingNext.next).1 ∧
      Reuses true branchingSet y (branchingSet.inter y branchingNext.next).1 ∧
      Reuses false branchingSet y (branchingSet.diff y branchingNext.next).1 ∧
      Reuses false branchingSet y (branchingSet.restrict y branchingNext.next).1 := by
  have hx : branchingSet ∈ branchingNext.sets := List.mem_cons_of_mem _ branchingSet_mem
  have hy : branchingNext.sets.head (by decide +kernel) ∈ branchingNext.sets := List.head_mem _
  exact ⟨_, hy, by decide +kernel, by decide +kernel, by decide +kernel,
    operations_reuse (branchingNext_reachable Blake3.hash) (branching_collisionFree _) hx hy⟩

end Session

end ByteTrie
