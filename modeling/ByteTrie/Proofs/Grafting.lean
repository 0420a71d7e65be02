import ByteTrie.Proofs.Concatenation
import ByteTrie.Proofs.Listing
import ByteTrie.Proofs.Occupancy
import ByteTrie.Proofs.Truncation
import Mathlib

/-!
# Grafts

If no member of a set begins with another one, its members are at the leaves, and a product puts the
right factor itself in place of each leaf.  Above the leaves the left factor is rebuilt, with one new
node for each place; nothing of the right factor is copied, however many leaves there are.

    t.branchings           the number of places of t that are no leaf
    y.joint                where a lookup is in y after the path on which y was put
    Grafted y t u m n      u is t with y in place of each leaf, made with the ids from m up to n

An edge to a node that is no member and has one edge only is made one with that edge.  No node that is
made below the root is such a node, but the right factor may be one.
-/

namespace ByteTrie

open Trie Pool

namespace Trie

/-- The number of places of a trie that have something below them. -/
def branchings (t : Trie) : Nat := t.sumOver fun n => (!n.edges.isEmpty).toNat

/-- The beginning of a trie behind a key: its root, or the key of its one edge if the root is left
out there. -/
def joint (t : Trie) : Stem :=
  match t.terminal, t.edges with
  | false, [e] => ⟨e.key, e.child⟩
  | _, _ => ⟨[], t⟩

/-- Below its members a trie has nothing. -/
def LeavesOnly (t : Trie) : Prop := ∀ m, IsNode m t → m.terminal = true → m.edges = []

end Trie

/-- A node of `y`, or a node made with an id from `low` up to `high` where `t` has a place `p` with
something below it. -/
def Placed (y : Trie) (low high : Nat) (IsAt : Trie → Path → Prop) (n : Trie) (p : Path) : Prop :=
  IsNode n y ∨ (low ≤ n.id ∧ n.id < high) ∧ ∃ m, IsAt m p ∧ m.edges ≠ []

/-- `u` is `t` with `y` in place of each leaf. -/
structure Grafted (y t u : Trie) (low high : Nat) : Prop where
  count : high = low + t.branchings
  placed : ∀ n p, n.IsNodeAt p u → Placed y low high (fun m q => m.IsNodeAt q t) n p
  leaf : t.edges = [] → u = y
  branching : t.edges ≠ [] →
    u.edges.length = t.edges.length ∧ ∀ q ∈ t, u.seek q = some y.joint

/-- `gs` are the edges `es` with `y` in place of each leaf. -/
structure GraftedEdges (y : Trie) (es gs : List (Edge Trie)) (low high : Nat) : Prop where
  count : high = low + total (es.map fun e => e.child.branchings)
  firsts : gs.map Edge.first = es.map Edge.first
  placed : ∀ n p, NodeAlong gs n p → Placed y low high (NodeAlong es) n p
  seek : ∀ b q, b :: q ∈ edgeMembers es → seekEdges gs b q = some y.joint

/-! ## Lookups along one edge -/

namespace Trie

theorem seekEdges_first (b : UInt8) (k : Path) (t : Trie) (es : List (Edge Trie)) (q : Path) :
    seekEdges (⟨b, k, t⟩ :: es) b (k ++ q) = t.seek q := by
  rw [seekEdges, if_pos rfl, Path.overlap_append]
  simp

theorem seekEdges_inside (b : UInt8) (k : Path) {l : Path} (hl : l ≠ []) (t : Trie)
    (es : List (Edge Trie)) : seekEdges (⟨b, k ++ l, t⟩ :: es) b k = some ⟨l, t⟩ := by
  have hlen := List.length_pos_iff.mpr hl
  rw [seekEdges, if_pos rfl, Path.overlap_comm, Path.overlap_append]
  simp [hl]

theorem seek_nil (t : Trie) : t.seek [] = some ⟨[], t⟩ := by
  rw [seek]

/-- A node with two edges at least is not left out. -/
theorem eq_of_over_eq_some {b : UInt8} {k : Path} {t : Trie} {g : Edge Trie}
    (htwo : 2 ≤ t.edges.length) (h : Edge.over b k t = some g) : g = ⟨b, k, t⟩ := by
  unfold Edge.over at h
  split at h
  · cases h
  · split at h
    · next e _ hes =>
      rw [hes] at htwo
      exact absurd htwo (by simp)
    · exact (Option.some.inj h).symm

theorem joint_of_edges_singleton {t : Trie} {e : Edge Trie} (hter : t.terminal = false)
    (hes : t.edges = [e]) : t.joint = ⟨e.key, e.child⟩ := by
  rw [joint, hter, hes]

theorem joint_of_forall_ne {t : Trie} (h : ∀ e, t.terminal = false → t.edges = [e] → False) :
    t.joint = ⟨[], t⟩ := by
  unfold joint
  split
  · next e hter hes => exact absurd hes (h e hter)
  · rfl

/-- Over a key a lookup comes to the joint. -/
theorem seekEdges_over {b : UInt8} {k : Path} {t : Trie} {g : Edge Trie}
    (h : Edge.over b k t = some g) : seekEdges [g] b k = some t.joint := by
  unfold Edge.over at h
  split at h
  · cases h
  · split at h
    · next e hter hes =>
      obtain rfl := Option.some.inj h
      rw [joint_of_edges_singleton hter hes]
      exact seekEdges_inside b k (List.cons_ne_nil e.first e.rest) e.child []
    · next hn =>
      obtain rfl := Option.some.inj h
      have hfirst := seekEdges_first b k t [] []
      rwa [List.append_nil, seek_nil, ← joint_of_forall_ne hn] at hfirst

/-! ## Leaves -/

theorem branchings_eq (t : Trie) : t.branchings =
    (!t.edges.isEmpty).toNat + total (t.edges.map fun e => e.child.branchings) :=
  sumOver_eq _ t

theorem branchings_of_edges_eq_nil {t : Trie} (h : t.edges = []) : t.branchings = 0 := by
  rw [branchings_eq, h]
  rfl

theorem LeavesOnly.child {t : Trie} (h : t.LeavesOnly) {e : Edge Trie} (he : e ∈ t.edges) :
    e.child.LeavesOnly := fun m hm => h m (.inside he hm)

theorem IsNodeAt.append_mem {m t : Trie} {p q : Path} (h : m.IsNodeAt p t) (hq : q ∈ m) :
    p ++ q ∈ t := by
  induction h with
  | root => exact hq
  | inside he _ ih =>
    rw [List.append_assoc]
    exact .along he ih

theorem exists_isNodeAt {m t : Trie} (h : IsNode m t) : ∃ p, m.IsNodeAt p t := by
  induction h with
  | root => exact ⟨[], .root⟩
  | inside he _ ih =>
    obtain ⟨p, hp⟩ := ih
    exact ⟨_, .inside he hp⟩

/-- Of a member with something below it, some other member is a continuation. -/
theorem Canonical.leavesOnly {t : Trie} (h : t.Canonical) (hfree : IsPrefixFree t.members) :
    t.LeavesOnly := by
  intro m hm hter
  obtain ⟨p, hp⟩ := exists_isNodeAt hm
  apply List.eq_nil_iff_forall_not_mem.mpr
  intro e he
  obtain ⟨q, hq⟩ := h.inhabited m hm e he
  have hshort : p ++ [] ∈ t := hp.append_mem ((nil_mem_iff m).mpr hter)
  have hlong : p ++ (e.key ++ q) ∈ t := hp.append_mem (.along he hq)
  have heq := hfree _ hshort _ hlong ((List.prefix_append_right_inj p).mpr List.nil_prefix)
  cases List.append_cancel_left heq

theorem LeavesOnly.terminal_iff {t : Trie} (h : t.LeavesOnly) (hne : ∃ p, p ∈ t) :
    t.terminal = true ↔ t.edges = [] := by
  refine ⟨h t .root, fun hes => ?_⟩
  obtain ⟨p, hp⟩ := hne
  cases hp with
  | here hter => exact hter
  | along he _ => exact absurd he (hes ▸ List.not_mem_nil)

variable {P : Pool} {t y : Trie}

/-- Nothing joined with a set is that set, and no copy of it. -/
theorem empty_union (ht : t ∈ P) (n : Nat) : Trie.empty.union t n = (t, n) := by
  by_cases hempty : t.members = ∅
  · have hsettle : SetOp.join.settle ⟨[], Trie.empty⟩ ⟨[], Trie.empty⟩ = some .none := rfl
    rw [eq_empty_of_members ht hempty, union, SetOp.apply, SetOp.combine, hsettle]
    rfl
  · have hsettle : SetOp.join.settle ⟨[], Trie.empty⟩ ⟨[], t⟩ =
        some (.identity Outcome.rightBit) := by
      have hne : t.isEmpty = false := by
        rw [← Bool.not_eq_true, isEmpty_iff ht]
        exact hempty
      have hsame : Trie.empty.sameNode t = false := by
        rw [← Bool.not_eq_true]
        exact fun h => hempty (eq_of_sameNode P.empty_mem ht h ▸ members_empty)
      have hempty' : Trie.empty.isEmpty = true := rfl
      simp [SetOp.settle, Stem.isEmpty, Stem.sameNode, hne, hsame, hempty']
    rw [union, SetOp.apply, SetOp.combine, hsettle]
    simp only [pure_bind, Outcome.resolvePair_rightBit]
    rfl

theorem graft_eq (y t : Trie) : graft y t = do
    let continued ← make false (← graftEdges y t.edges)
    if t.terminal then continued.union y else return continued := by
  cases t
  rw [graft]
  rfl

theorem graftEdges_cons (y : Trie) (e : Edge Trie) (es : List (Edge Trie)) (n : Nat) :
    graftEdges y (e :: es) n =
      ((Edge.over e.first e.rest (graft y e.child n).1).toList ++
        (graftEdges y es (graft y e.child n).2).1, (graftEdges y es (graft y e.child n).2).2) := by
  obtain ⟨b, k, t⟩ := e
  rw [graftEdges]
  rfl

theorem graft_branching {n : Nat} (hter : t.terminal = false)
    (hgs : (graftEdges y t.edges n).1 ≠ []) : graft y t n =
      (label (graftEdges y t.edges n).2 false (graftEdges y t.edges n).1,
        (graftEdges y t.edges n).2 + 1) := by
  obtain ⟨g, gs, hg⟩ := List.exists_cons_of_ne_nil hgs
  have hmake : graft y t n = make false (graftEdges y t.edges n).1 (graftEdges y t.edges n).2 := by
    rw [graft_eq, hter]
    rfl
  rw [hmake, hg]
  rfl

theorem graft_leaf (hy : y ∈ P) (hes : t.edges = []) (hter : t.terminal = true) (n : Nat) :
    graft y t n = (y, n) := by
  rw [graft_eq, hes, hter]
  exact empty_union hy n

end Trie

/-! ## Edges -/

theorem Placed.mono {y n : Trie} {low high low' high' : Nat} {IsAt IsAt' : Trie → Path → Prop}
    {p p' : Path} (h : Placed y low high IsAt n p) (hl : low' ≤ low) (hh : high ≤ high')
    (hat : ∀ m, IsAt m p → IsAt' m p') : Placed y low' high' IsAt' n p' := by
  rcases h with hn | ⟨hid, m, hm, hes⟩
  · exact Or.inl hn
  · exact Or.inr ⟨⟨Nat.le_trans hl hid.1, Nat.lt_of_lt_of_le hid.2 hh⟩, m, hat m hm, hes⟩

section

variable {P Q : Pool} {y u : Trie} {e g : Edge Trie} {es gs : List (Edge Trie)} {low mid high : Nat}

/-- An edge to a leaf leads to `y`, or further if that only passes on to an edge; any other edge leads
to what was made for its child, which has two edges at least. -/
theorem Grafted.exists_edge (h : Grafted y e.child u low high) (hu : u ∈ Q)
    (hne : u.members.Nonempty) (hfree : e.child.LeavesOnly) (hinner : e.child.IsInner) :
    ∃ g, Edge.over e.first e.rest u = some g ∧ GraftedEdges y [e] [g] low high := by
  obtain ⟨g, hg⟩ : ∃ g, Edge.over e.first e.rest u = some g := by
    cases hover : Edge.over e.first e.rest u with
    | none => exact absurd (members_of_over_eq_none hu hover) hne.ne_empty
    | some g => exact ⟨g, rfl⟩
  refine ⟨g, hg, ?count, ?firsts, fun n p hn => ?placed, fun b q hq => ?seek⟩
  case count => exact h.count
  case firsts => rw [List.map_singleton, List.map_singleton, (over_eq_some hu hg).1]
  case placed =>
    obtain ⟨q, hq, rfl⟩ := NodeAlong.of_over hg hn
    exact (h.placed n q hq).mono (Nat.le_refl _) (Nat.le_refl _) fun m hm =>
      ⟨e, List.mem_singleton_self e, q, hm, rfl⟩
  case seek =>
    obtain ⟨f, hf, rfl, r, hr, rfl⟩ := (cons_mem_edgeMembers [e] b q).mp hq
    obtain rfl := List.mem_singleton.mp hf
    by_cases hes : f.child.edges = []
    · obtain rfl : r = [] := by
        cases hr with
        | here => rfl
        | along he _ => exact absurd he (hes ▸ List.not_mem_nil)
      obtain rfl := h.leaf hes
      rw [List.append_nil]
      exact seekEdges_over hg
    · obtain ⟨hlen, hseek⟩ := h.branching hes
      have htwo : 2 ≤ u.edges.length := by
        rw [hlen]
        exact hinner.resolve_left fun ht => hes (hfree _ .root ht)
      obtain rfl := eq_of_over_eq_some htwo hg
      rw [seekEdges_first, hseek r hr]

theorem GraftedEdges.cons (he : GraftedEdges y [e] [g] low mid) (h : GraftedEdges y es gs mid high)
    (hlt : ∀ f ∈ es, e.first < f.first) : GraftedEdges y (e :: es) (g :: gs) low high where
  count := by
    have hone := he.count
    have hrest := h.count
    simp only [List.map_cons, List.map_nil, total_cons, total_nil] at hone ⊢
    omega
  firsts := by
    have hone := List.cons.inj he.firsts
    rw [List.map_cons, List.map_cons, hone.1, h.firsts]
  placed := by
    have hsplit : ∀ m p, NodeAlong (e :: es) m p ↔ NodeAlong [e] m p ∨ NodeAlong es m p :=
      fun m p => by rw [← nodeAlong_append, List.singleton_append]
    intro n p hn
    have hone := he.count
    have hrest := h.count
    rw [← List.singleton_append, nodeAlong_append] at hn
    rcases hn with hn | hn
    · exact (he.placed n p hn).mono (Nat.le_refl _) (by omega) fun m hm =>
        (hsplit m p).mpr (Or.inl hm)
    · exact (h.placed n p hn).mono (by omega) (Nat.le_refl _) fun m hm =>
        (hsplit m p).mpr (Or.inr hm)
  seek := by
    intro b q hq
    have hfirst : g.first = e.first := (List.cons.inj he.firsts).1
    obtain ⟨c, k, v⟩ := g
    obtain rfl : c = e.first := hfirst
    rw [edgeMembers_cons, Set.mem_union] at hq
    rcases hq with hq | hq
    · have hb : e.first = b := by
        obtain ⟨f, hf, hb, -⟩ := (cons_mem_edgeMembers [e] b q).mp hq
        exact List.mem_singleton.mp hf ▸ hb
      have hseek := he.seek b q hq
      rw [seekEdges, if_pos hb.symm] at hseek ⊢
      exact hseek
    · have hb : b ≠ e.first := by
        obtain ⟨f, hf, rfl, -⟩ := (cons_mem_edgeMembers es b q).mp hq
        exact (UInt8.ne_of_lt (hlt f hf)).symm
      rw [seekEdges, if_neg hb]
      exact h.seek b q hq

/-- The node over the edges is the last one to be made. -/
theorem GraftedEdges.label {t : Trie} (h : GraftedEdges y t.edges gs low high)
    (hter : t.terminal = false) (hes : t.edges ≠ []) :
    Grafted y t (Trie.label high false gs) low (high + 1) where
  count := by
    have hcount := h.count
    have hone : (!t.edges.isEmpty).toNat = 1 := by simpa using hes
    rw [branchings_eq, hone]
    omega
  placed := by
    have hcount := h.count
    intro n p hn
    rcases (isNodeAt_iff n _ p).mp hn with ⟨rfl, rfl⟩ | hn
    · exact Or.inr ⟨⟨hcount ▸ Nat.le_add_right _ _, Nat.lt_succ_self high⟩, t, .root, hes⟩
    · exact (h.placed n p hn).mono (Nat.le_refl _) (Nat.le_succ _) fun m hm =>
        (isNodeAt_iff m t p).mpr (Or.inr hm)
  leaf := fun hnil => absurd hnil hes
  branching := by
    refine fun _ => ⟨?_, fun q hq => ?_⟩
    · have hlen := congrArg List.length h.firsts
      rwa [List.length_map, List.length_map] at hlen
    · rcases (mem_iff t q).mp hq with ⟨-, ht⟩ | hq
      · rw [hter] at ht
        cases ht
      · cases q with
        | nil => exact absurd hq (nil_not_mem_edgeMembers _)
        | cons b q => exact h.seek b q hq

end

section

variable {y : Trie}

/-- For each edge, the pool is that of what was made for the edges before. -/
theorem graftedEdges (es : List (Edge Trie)) (P : Pool) (hy : y ∈ P) (hne : y.members.Nonempty)
    (hes : P.Edges es) (hfree : ∀ e ∈ es, e.child.LeavesOnly)
    (ih : ∀ e ∈ es, ∀ P : Pool, y ∈ P → e.child ∈ P →
      Grafted y e.child (graft y e.child P.next).1 P.next (graft y e.child P.next).2) :
    GraftedEdges y es (graftEdges y es P.next).1 P.next (graftEdges y es P.next).2 := by
  induction es generalizing P with
  | nil =>
    refine ⟨rfl, rfl, fun n p hn => absurd hn not_nodeAlong_nil, fun b q hq => ?_⟩
    rw [edgeMembers_nil] at hq
    exact absurd hq (Set.notMem_empty _)
  | cons e es ihes =>
    have he := hes.child_mem e List.mem_cons_self
    obtain ⟨p, hp⟩ := hes.exists_mem e List.mem_cons_self
    have hhead := ih e List.mem_cons_self P hy he
    obtain ⟨Q, hPQ, hnext, hu, hmem⟩ := makes_graft y e.child P hy he
    obtain ⟨g, hg, hone⟩ := hhead.exists_edge hu (hmem ▸ Set.Nonempty.image2 ⟨p, hp⟩ hne)
      (hfree e List.mem_cons_self) (hes.inner e List.mem_cons_self)
    have hrest := ihes Q (hPQ.2 y hy) (hes.tail.mono hPQ)
      (fun f hf => hfree f (List.mem_cons_of_mem e hf))
      fun f hf => ih f (List.mem_cons_of_mem e hf)
    rw [hnext] at hone
    rw [graftEdges_cons, hnext, hg]
    exact hone.cons hrest hes.head_lt

/-- Above the leaves there is one new node for each place, after those below it. -/
theorem grafted (t : Trie) (P : Pool) (hy : y ∈ P) (hne : y.members.Nonempty) (ht : t ∈ P)
    (htne : ∃ p, p ∈ t) (hfree : t.LeavesOnly) :
    Grafted y t (graft y t P.next).1 P.next (graft y t P.next).2 := by
  induction t using nodeInduction generalizing P with
  | node t ih =>
    by_cases hes : t.edges = []
    · rw [graft_leaf hy hes ((hfree.terminal_iff htne).mpr hes)]
      refine ⟨?_, fun n p hn => Or.inl hn.isNode, fun _ => rfl, fun h => absurd hes h⟩
      rw [branchings_of_edges_eq_nil hes, Nat.add_zero]
    · have hter : t.terminal = false :=
        Bool.eq_false_iff.mpr (mt (hfree.terminal_iff htne).mp hes)
      have hedges := graftedEdges t.edges P hy hne (edges_of_mem ht) (fun e he => hfree.child he)
        fun e he P hy he' => ih e he P hy he' ((edges_of_mem ht).exists_mem e he) (hfree.child he)
      have hgs : (graftEdges y t.edges P.next).1 ≠ [] := by
        intro hnil
        have hfirsts := hedges.firsts
        rw [hnil, List.map_nil, eq_comm, List.map_eq_nil_iff] at hfirsts
        exact hes hfirsts
      rw [graft_branching hter hgs]
      exact hedges.label hter hes

end

/-! ## Products -/

/-- Different nodes have different ids, so there are not more of them than ids. -/
theorem Pool.encard_le_of_id {P : Pool} {S : Set Trie} {low high : Nat} (hP : ∀ t ∈ S, t ∈ P)
    (hid : ∀ t ∈ S, low ≤ t.id ∧ t.id < high) : S.encard ≤ (high - low : Nat) := by
  have hinj := P.injOn_id hP
  have hsub : Trie.id '' S ⊆ (Finset.Ico low high : Set Nat) := by
    rintro _ ⟨t, ht, rfl⟩
    exact Finset.mem_coe.mpr (Finset.mem_Ico.mpr (hid t ht))
  rw [← hinj.encard_image, ← Nat.card_Ico, ← Set.encard_coe_eq_coe_finsetCard]
  exact Set.encard_le_encard hsub

namespace Trie

variable {P Q : Pool} {s t : Trie}

theorem product_eq_graft (hs : s ∈ P) (ht : t ∈ P) (hsne : s.members.Nonempty)
    (hsu : s.members ≠ {[]}) (htne : t.members.Nonempty) (htu : t.members ≠ {[]}) (n : Nat) :
    s.product t n = graft t s n := by
  have hempty : ¬ (s.isEmpty || t.isEmpty) = true := by
    rw [Bool.or_eq_true, isEmpty_iff hs, isEmpty_iff ht, not_or]
    exact ⟨hsne.ne_empty, htne.ne_empty⟩
  rw [product, productOutcome, if_neg hempty, if_neg (mt (isUnit_iff ht).mp htu),
    if_neg (mt (isUnit_iff hs).mp hsu)]
  rfl

theorem branchings_le_nodes (t : Trie) : t.branchings ≤ (Occupancy.ofTrie t).nodes := by
  rw [Occupancy.nodes_ofTrie]
  exact sumOver_mono (fun n => Bool.toNat_le _) t

end Trie

/-- The nodes of a graft are those of what was grafted, and the new ones. -/
theorem Grafted.distinctNodes_le {P Q : Pool} {y t u : Trie} {low high : Nat}
    (h : Grafted y t u low high) (hy : y ∈ P) (hu : u ∈ Q) : u.distinctNodes ≤ t.branchings + y.distinctNodes := by
  have hsub : {v | IsNode v u} ⊆
      {v | IsNode v u ∧ low ≤ v.id ∧ v.id < high} ∪ {v | IsNode v y} := by
    intro v hv
    obtain ⟨p, hp⟩ := exists_isNodeAt hv
    rcases h.placed v p hp with hy | ⟨hid, -⟩
    · exact Or.inr hy
    · exact Or.inl ⟨hv, hid⟩
  have hnew := Pool.encard_le_of_id (P := Q) (S := {v | IsNode v u ∧ low ≤ v.id ∧ v.id < high})
    (fun v hv => mem_of_isNode hv.1 hu) fun v hv => hv.2
  have hle := (Set.encard_le_encard hsub).trans ((Set.encard_union_le _ _).trans
    (add_le_add_left hnew _))
  rw [← distinctNodes_eq_encard hu, ← distinctNodes_eq_encard hy, h.count,
    Nat.add_sub_cancel_left] at hle
  exact_mod_cast hle

namespace Session

end Session

end ByteTrie
