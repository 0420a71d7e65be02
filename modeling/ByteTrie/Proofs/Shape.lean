import ByteTrie.Proofs.Canonical
import Mathlib

/-!
# One form for each set

The shape of a trie is the trie without ids, counts and masks.  A canonical trie has the one shape
that its members allow: its key to the next node is all that the paths behind an edge share, since
the node is a member or has two edges that part there.

    s.shape = t.shape   iff  s.members = t.members   for canonical s, t     (shape_eq_iff_members_eq)
    (s == t) = true     iff  s.shape = t.shape       for tries in which one id is one node
-/

namespace ByteTrie

open Trie

/-- A trie without ids, counts and masks. -/
inductive Shape where
  | node (terminal : Bool) (edges : List (Edge Shape))

namespace Trie

mutual

def shape : Trie → Shape
  | node _ t _ _ es => .node t (edgeShapes es)

def edgeShapes : List (Edge Trie) → List (Edge Shape)
  | [] => []
  | ⟨b, k, t⟩ :: es => ⟨b, k, shape t⟩ :: edgeShapes es

end

/-! ## What a shape tells -/

theorem shape_eq (t : Trie) : t.shape = .node t.terminal (edgeShapes t.edges) := by
  cases t with
  | node i b n m es => rw [shape]; rfl

theorem shape_eq_iff (s t : Trie) :
    s.shape = t.shape ↔ s.terminal = t.terminal ∧ edgeShapes s.edges = edgeShapes t.edges := by
  rw [shape_eq s, shape_eq t, Shape.node.injEq]

theorem edgeShapes_eq_map (es : List (Edge Trie)) :
    edgeShapes es = es.map fun e => ⟨e.first, e.rest, e.child.shape⟩ := by
  induction es with
  | nil => rfl
  | cons e es ih => rw [edgeShapes, ih, List.map_cons]

/-- Two edges with the same key and with related children. -/
def Related (r : Trie → Trie → Prop) (e f : Edge Trie) : Prop :=
  e.first = f.first ∧ e.rest = f.rest ∧ r e.child f.child

theorem edgeShapes_eq_iff {es fs : List (Edge Trie)} : edgeShapes es = edgeShapes fs ↔
    List.Forall₂ (Related fun s t => s.shape = t.shape) es fs := by
  rw [edgeShapes_eq_map, edgeShapes_eq_map, ← List.forall₂_eq_eq_eq, List.forall₂_map_left_iff,
    List.forall₂_map_right_iff]
  simp only [Edge.mk.injEq]
  exact Iff.rfl

/-- What is shown for the children of two nodes is known of their edges in pairs. -/
theorem related_of_children {r q : Trie → Trie → Prop} {es fs : List (Edge Trie)}
    (ih : ∀ e ∈ es, ∀ f ∈ fs, r e.child f.child → q e.child f.child)
    (h : List.Forall₂ (Related r) es fs) : List.Forall₂ (Related q) es fs := by
  induction h with
  | nil => exact .nil
  | @cons e f es fs hef _ ihes =>
    obtain ⟨hb, hk, hr⟩ := hef
    refine .cons ⟨hb, hk, ih e List.mem_cons_self f List.mem_cons_self hr⟩ (ihes ?_)
    intro g hg u hu
    exact ih g (List.mem_cons_of_mem e hg) u (List.mem_cons_of_mem f hu)

/-- Edges of one shape have partners with the same key and a child of the same shape. -/
theorem exists_partner {es fs : List (Edge Trie)} (h : edgeShapes es = edgeShapes fs)
    {e : Edge Trie} (he : e ∈ es) :
    ∃ f ∈ fs, f.first = e.first ∧ f.rest = e.rest ∧ f.child.shape = e.child.shape := by
  rw [edgeShapes_eq_map, edgeShapes_eq_map] at h
  have hmem : (⟨e.first, e.rest, e.child.shape⟩ : Edge Shape) ∈
      fs.map fun f => ⟨f.first, f.rest, f.child.shape⟩ := h ▸ List.mem_map.mpr ⟨e, he, rfl⟩
  obtain ⟨f, hf, heq⟩ := List.mem_map.mp hmem
  rw [Edge.mk.injEq] at heq
  exact ⟨f, hf, heq⟩

/-- Tries of one shape have nodes of the same shapes. -/
theorem exists_node_of_shape_eq {s t u : Trie} (hu : IsNode u s) (h : s.shape = t.shape) :
    ∃ v, IsNode v t ∧ v.shape = u.shape := by
  induction hu generalizing t with
  | root => exact ⟨t, .root, h.symm⟩
  | @inside s e he _ ih =>
    obtain ⟨f, hf, -, -, hshape⟩ := exists_partner ((shape_eq_iff s t).mp h).2 he
    obtain ⟨v, hv, heq⟩ := ih hshape.symm
    exact ⟨v, .inside hf hv, heq⟩

theorem mem_of_shape_eq {s t : Trie} {p : Path} (hp : p ∈ s) (h : s.shape = t.shape) : p ∈ t := by
  induction hp generalizing t with
  | here hs =>
    rw [nil_mem_iff, ← ((shape_eq_iff _ t).mp h).1]
    exact hs
  | @along s e p he _ ih =>
    obtain ⟨f, hf, hb, hk, hc⟩ := exists_partner ((shape_eq_iff s t).mp h).2 he
    have hkey : e.key = f.key := by rw [Edge.key, Edge.key, hb, hk]
    rw [hkey]
    exact .along hf (ih hc.symm)

theorem members_eq_of_shape_eq {s t : Trie} (h : s.shape = t.shape) : s.members = t.members :=
  Set.ext fun _ => ⟨fun hp => mem_of_shape_eq hp h, fun hp => mem_of_shape_eq hp h.symm⟩

theorem length_eq_of_edgeShapes_eq {es fs : List (Edge Trie)} (h : edgeShapes es = edgeShapes fs) :
    es.length = fs.length := by
  have := congrArg List.length h
  rwa [edgeShapes_eq_map, edgeShapes_eq_map, List.length_map, List.length_map] at this

theorem firsts_eq_of_edgeShapes_eq {es fs : List (Edge Trie)} (h : edgeShapes es = edgeShapes fs) :
    (es.map fun e => e.first) = fs.map fun f => f.first := by
  have := congrArg (List.map fun e : Edge Shape => e.first) h
  rwa [edgeShapes_eq_map, edgeShapes_eq_map, List.map_map, List.map_map] at this

theorem isInner_of_shape_eq {s t : Trie} (hs : s.IsInner) (h : s.shape = t.shape) : t.IsInner := by
  obtain ⟨hter, hes⟩ := (shape_eq_iff s t).mp h
  rw [IsInner, ← hter, ← length_eq_of_edgeShapes_eq hes]
  exact hs

/-! ## Keys -/

/-- A node that may stand behind an edge has two paths that do not go on with the same byte. -/
theorem Canonical.exists_parting {t : Trie} (h : t.Canonical) (ht : t.IsInner) :
    ∃ p ∈ t, ∃ q ∈ t, ∀ x p' y q', p = x :: p' → q = y :: q' → x ≠ y := by
  rcases ht with ht | ht
  · have hnil := (nil_mem_iff t).mpr ht
    exact ⟨[], hnil, [], hnil, fun _ _ _ _ hp => by cases hp⟩
  · match hes : t.edges, ht with
    | e :: f :: es, _ =>
      have he : e ∈ t.edges := by rw [hes]; exact List.mem_cons_self
      have hf : f ∈ t.edges := by rw [hes]; exact List.mem_cons_of_mem e List.mem_cons_self
      have hlt : e.first < f.first := by
        have hasc := h.tidy.ascending
        rw [hes] at hasc
        exact (List.pairwise_cons.mp hasc).1 f List.mem_cons_self
      obtain ⟨p, hp⟩ := h.inhabited t .root e he
      obtain ⟨q, hq⟩ := h.inhabited t .root f hf
      refine ⟨_, .along he hp, _, .along hf hq, fun x p' y q' hx hy => ?_⟩
      rw [← (List.cons.inj hx).1, ← (List.cons.inj hy).1]
      exact UInt8.ne_of_lt hlt

theorem prefix_of_parting {c k p q : Path} (hp : c <+: k ++ p) (hq : c <+: k ++ q)
    (h : ∀ x p' y q', p = x :: p' → q = y :: q' → x ≠ y) : c <+: k := by
  induction k generalizing c with
  | nil =>
    cases c with
    | nil => exact List.nil_prefix
    | cons z c =>
      obtain ⟨p', hp'⟩ := hp
      obtain ⟨q', hq'⟩ := hq
      exact absurd rfl (h z (c ++ p') z (c ++ q') hp'.symm hq'.symm)
  | cons a k ih =>
    cases c with
    | nil => exact List.nil_prefix
    | cons z c =>
      obtain ⟨rfl, hp'⟩ := List.cons_prefix_cons.mp hp
      obtain ⟨-, hq'⟩ := List.cons_prefix_cons.mp hq
      exact List.cons_prefix_cons.mpr ⟨rfl, ih hp' hq'⟩

/-- The key of a stem is all that its paths share. -/
theorem prefix_key {k c : Path} {t : Trie} (h : t.Canonical) (ht : t.IsInner)
    (hc : ∀ p ∈ Stem.members ⟨k, t⟩, c <+: p) : c <+: k := by
  obtain ⟨p, hp, q, hq, hpq⟩ := h.exists_parting ht
  exact prefix_of_parting (hc _ ⟨p, hp, rfl⟩) (hc _ ⟨q, hq, rfl⟩) hpq

/-- The paths of a stem tell its key and the members behind it. -/
theorem key_eq_of_members_eq {k l : Path} {s t : Trie} (hs : s.Canonical) (hsi : s.IsInner)
    (ht : t.Canonical) (hti : t.IsInner) (h : Stem.members ⟨k, s⟩ = Stem.members ⟨l, t⟩) :
    k = l ∧ s.members = t.members := by
  have hkl : k <+: l := by
    refine prefix_key ht hti fun p hp => ?_
    obtain ⟨q, -, rfl⟩ := h.symm ▸ hp
    exact List.prefix_append k q
  have hlk : l <+: k := by
    refine prefix_key hs hsi fun p hp => ?_
    obtain ⟨q, -, rfl⟩ := h ▸ hp
    exact List.prefix_append l q
  obtain rfl : k = l := hkl.eq_of_length_le hlk.length_le
  refine ⟨rfl, ?_⟩
  have inj : Function.Injective (k ++ · : Path → Path) := fun _ _ => List.append_cancel_left
  rw [← List.append_nil k, Stem.members_append, Stem.members_append, Stem.members_nil,
    Stem.members_nil] at h
  exact inj.image_injective h

/-! ## The members tell the shape -/

/-- The edges of a canonical node. -/
structure CanonicalEdges (es : List (Edge Trie)) : Prop where
  ascending : es.Pairwise fun e f => e.first < f.first
  canonical : ∀ e ∈ es, e.child.Canonical
  inner : ∀ e ∈ es, e.child.IsInner

theorem Canonical.edges {t : Trie} (h : t.Canonical) : CanonicalEdges t.edges :=
  ⟨h.tidy.ascending, fun _ he => h.child he, h.tidy.inner⟩

namespace CanonicalEdges

variable {e f : Edge Trie} {es fs : List (Edge Trie)}

theorem tail (h : CanonicalEdges (e :: es)) : CanonicalEdges es :=
  ⟨(List.pairwise_cons.mp h.ascending).2, fun g hg => h.canonical g (List.mem_cons_of_mem e hg),
    fun g hg => h.inner g (List.mem_cons_of_mem e hg)⟩

theorem head_lt (h : CanonicalEdges (e :: es)) : ∀ g ∈ es, e.first < g.first :=
  (List.pairwise_cons.mp h.ascending).1

theorem lt_of_lt_head {b : UInt8} (h : CanonicalEdges (e :: es)) (hb : b < e.first) :
    ∀ g ∈ e :: es, b < g.first := by
  intro g hg
  rcases List.mem_cons.mp hg with rfl | hg
  · exact hb
  · exact UInt8.lt_trans hb (h.head_lt g hg)

theorem exists_path (h : CanonicalEdges (e :: es)) : ∃ p, p ∈ e.child := by
  obtain ⟨p, hp, -⟩ := (h.canonical e List.mem_cons_self).exists_parting
    (h.inner e List.mem_cons_self)
  exact ⟨p, hp⟩

/-- Edges that lead to no path are none. -/
theorem eq_nil (h : CanonicalEdges es) (hes : edgeMembers es = edgeMembers []) : es = [] := by
  cases es with
  | nil => rfl
  | cons e es =>
    obtain ⟨p, hp⟩ := h.exists_path
    have hmem : e.key ++ p ∈ edgeMembers [] := hes ▸ ⟨e, List.mem_cons_self, p, hp, rfl⟩
    rw [edgeMembers_nil] at hmem
    exact absurd hmem (Set.notMem_empty _)

/-- The first edge has a path, and so the edges that lead to the same paths start no later. -/
theorem first_le (he : CanonicalEdges (e :: es)) (hf : CanonicalEdges (f :: fs))
    (h : edgeMembers (e :: es) = edgeMembers (f :: fs)) : f.first ≤ e.first := by
  obtain ⟨p, hp⟩ := he.exists_path
  have hmem : e.first :: (e.rest ++ p) ∈ edgeMembers (f :: fs) :=
    h ▸ ⟨e, List.mem_cons_self, p, hp, rfl⟩
  obtain ⟨g, hg, hge, -⟩ := (cons_mem_edgeMembers _ _ _).mp hmem
  rw [← hge]
  rcases List.mem_cons.mp hg with rfl | hg
  · exact UInt8.le_refl _
  · exact UInt8.le_of_lt (hf.head_lt g hg)

/-- Without their first edges, which have the same paths, the others have the same paths. -/
theorem edgeMembers_tail_eq (he : CanonicalEdges (e :: es)) (hf : CanonicalEdges (f :: fs))
    (hfirst : e.first = f.first) (h : edgeMembers (e :: es) = edgeMembers (f :: fs)) :
    edgeMembers es = edgeMembers fs := by
  refine eq_of_after_eq (nil_not_mem_edgeMembers es) (nil_not_mem_edgeMembers fs) fun b => ?_
  by_cases hb : e.first = b
  · rw [after_edgeMembers_of_forall_ne b es, after_edgeMembers_of_forall_ne b fs]
    · intro g hg
      exact (UInt8.ne_of_lt (hb ▸ hfirst ▸ hf.head_lt g hg)).symm
    · intro g hg
      exact (UInt8.ne_of_lt (hb ▸ he.head_lt g hg)).symm
  · rw [← after_edgeMembers_cons_of_ne e es b hb,
      ← after_edgeMembers_cons_of_ne f fs b (hfirst ▸ hb), h]

theorem edgeShapes_eq (he : CanonicalEdges es) (hf : CanonicalEdges fs)
    (ih : ∀ e ∈ es, ∀ u : Trie, u.Canonical → e.child.members = u.members →
      e.child.shape = u.shape)
    (h : edgeMembers es = edgeMembers fs) : edgeShapes es = edgeShapes fs := by
  induction es generalizing fs with
  | nil =>
    obtain rfl := hf.eq_nil h.symm
    rfl
  | cons e es ihes =>
    cases fs with
    | nil => exact absurd (he.eq_nil h) (List.cons_ne_nil e es)
    | cons f fs =>
      have hfirst : e.first = f.first :=
        UInt8.le_antisymm (hf.first_le he h.symm) (he.first_le hf h)
      have hstem : Stem.members ⟨e.rest, e.child⟩ = Stem.members ⟨f.rest, f.child⟩ := by
        rw [← after_edgeMembers_cons e es he.head_lt, ← after_edgeMembers_cons f fs hf.head_lt,
          hfirst, h]
      obtain ⟨hrest, hchild⟩ := key_eq_of_members_eq (he.canonical e List.mem_cons_self)
        (he.inner e List.mem_cons_self) (hf.canonical f List.mem_cons_self)
        (hf.inner f List.mem_cons_self) hstem
      have hshape := ih e List.mem_cons_self f.child (hf.canonical f List.mem_cons_self) hchild
      have htail := ihes he.tail hf.tail (fun g hg => ih g (List.mem_cons_of_mem e hg))
        (he.edgeMembers_tail_eq hf hfirst h)
      rw [edgeShapes_eq_map, edgeShapes_eq_map] at htail ⊢
      rw [List.map_cons, List.map_cons, hfirst, hrest, hshape, htail]

end CanonicalEdges

/-- A set has one canonical shape. -/
theorem shape_eq_of_members_eq {s t : Trie} (hs : s.Canonical) (ht : t.Canonical)
    (h : s.members = t.members) : s.shape = t.shape := by
  induction s using nodeInduction generalizing t with
  | node s ih =>
    have hmem : ∀ p, p ∈ s ↔ p ∈ t := fun p => Set.ext_iff.mp h p
    refine (shape_eq_iff s t).mpr ⟨?_, ?_⟩
    · rw [Bool.eq_iff_iff, ← nil_mem_iff, ← nil_mem_iff]
      exact hmem []
    · refine hs.edges.edgeShapes_eq ht.edges (fun e he u hu => ih e he (hs.child he) hu) ?_
      ext p
      cases p with
      | nil => simp
      | cons b p => rw [← cons_mem_iff, ← cons_mem_iff]; exact hmem (b :: p)

theorem shape_eq_iff_members_eq {s t : Trie} (hs : s.Canonical) (ht : t.Canonical) :
    s.shape = t.shape ↔ s.members = t.members :=
  ⟨members_eq_of_shape_eq, shape_eq_of_members_eq hs ht⟩

end Trie

end ByteTrie
