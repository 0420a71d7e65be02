import ByteTrie.Proofs.Build
import ByteTrie.Proofs.Count
import ByteTrie.Proofs.Distinct
import ByteTrie.Proofs.Places
import Mathlib

/-!
# Occupancy

The occupancy of a trie adds up node by node, each place of a node counting.  Keys hold the runs of
bytes without a choice, so below the root a node is a member or leads to two nodes at least, and there
are at most two nodes for each member.

    o.nodes + edges of the root ≤ 1 + 2 * (members below the root)
    o.items + 1 = o.nodes
    tally ns           how often each number occurs in ns, from 0 up to the greatest one
    u.IsAtDepth d t    u is a node of t, d edges below the root
-/

namespace ByteTrie

open Trie Pool

/-- `u` is a node of `t`, so many edges below its root. -/
inductive Trie.IsAtDepth (u : Trie) : Nat → Trie → Prop
  | root : IsAtDepth u 0 u
  | inside {t : Trie} {e : Edge Trie} {d : Nat} (he : e ∈ t.edges) (hu : IsAtDepth u d e.child) :
      IsAtDepth u (d + 1) t

/-! ## Tallies -/

/-- The least number that is greater than all numbers of a list. -/
def bound (ns : List Nat) : Nat := ns.foldl (fun m n => max m (n + 1)) 0

/-- How often each number below the bound occurs. -/
def tally (ns : List Nat) : List Nat := (List.range (bound ns)).map fun n => ns.count n

theorem foldl_max_le_iff (ns : List Nat) (m b : Nat) :
    ns.foldl (fun m n => max m (n + 1)) m ≤ b ↔ m ≤ b ∧ ∀ n ∈ ns, n < b := by
  induction ns generalizing m with
  | nil => simp
  | cons n ns ih =>
    rw [List.foldl_cons, ih, List.forall_mem_cons, Nat.max_le, and_assoc]
    exact Iff.rfl

theorem bound_le_iff (ns : List Nat) (b : Nat) : bound ns ≤ b ↔ ∀ n ∈ ns, n < b := by
  rw [bound, foldl_max_le_iff, and_iff_right (Nat.zero_le b)]

theorem lt_bound_of_mem {n : Nat} {ns : List Nat} (h : n ∈ ns) : n < bound ns :=
  (bound_le_iff ns _).mp (Nat.le_refl _) n h

theorem length_tally (ns : List Nat) : (tally ns).length = bound ns := by
  rw [tally, List.length_map, List.length_range]

theorem getElem?_tally (ns : List Nat) (n : Nat) :
    (tally ns)[n]? = if n < bound ns then some (ns.count n) else none := by
  rw [tally, List.getElem?_map]
  split
  · next h => rw [List.getElem?_range h]; rfl
  · next h => rw [List.getElem?_eq_none (by rw [List.length_range]; omega)]; rfl

example : tally [2, 0, 2] = [1, 0, 2] := by decide

theorem getD_tally (ns : List Nat) (n : Nat) : (tally ns).getD n 0 = ns.count n := by
  rw [List.getD_eq_getElem?_getD, getElem?_tally]
  split
  · rfl
  · next h =>
    exact (List.count_eq_zero.mpr fun hn => h (lt_bound_of_mem hn)).symm

theorem total_map_count {ns : List Nat} {b : Nat} (h : ∀ n ∈ ns, n < b) :
    total ((List.range b).map fun n => ns.count n) = ns.length := by
  have hsum := Multiset.sum_count_eq_card (s := Finset.range b) (m := (ns : Multiset Nat))
    fun n hn => Finset.mem_range.mpr (h n hn)
  simp only [Multiset.coe_count, Multiset.coe_card] at hsum
  exact hsum

theorem total_tally (ns : List Nat) : total (tally ns) = ns.length :=
  total_map_count fun _ hn => lt_bound_of_mem hn

theorem tally_eq_of_perm {ms ns : List Nat} (h : ms.Perm ns) : tally ms = tally ns := by
  have hbound : bound ms = bound ns := by
    refine Nat.le_antisymm ((bound_le_iff _ _).mpr fun n hn => ?_)
      ((bound_le_iff _ _).mpr fun n hn => ?_)
    · exact lt_bound_of_mem (h.mem_iff.mp hn)
    · exact lt_bound_of_mem (h.mem_iff.mpr hn)
  rw [tally, tally, hbound]
  exact List.map_congr_left fun n _ => h.count_eq n

/-! ## Counts by depth -/

namespace DepthCounts

theorem total_addAll (f : DepthCounts → Nat) (hf : ∀ a b : DepthCounts, f (a.add b) = f a + f b)
    (as bs : List DepthCounts) :
    total ((addAll as bs).map f) = total (as.map f) + total (bs.map f) := by
  induction as, bs using addAll.induct with
  | case1 a as b bs ih =>
    simp only [addAll, List.map_cons, total_cons, hf, ih]
    omega
  | case2 as => simp [addAll]
  | case3 bs _ => simp [addAll]

theorem length_addAll (as bs : List DepthCounts) :
    (addAll as bs).length = max as.length bs.length := by
  induction as, bs using addAll.induct with
  | case1 a as b bs ih =>
    simp only [addAll, List.length_cons, ih]
    omega
  | case2 as => simp [addAll]
  | case3 bs _ => simp [addAll]

end DepthCounts

namespace Trie

/-- The counts of one node. -/
def ownCounts (t : Trie) : DepthCounts := ⟨1, t.edges.length, t.edges.length, t.terminal.toNat⟩

theorem depthCounts_eq (t : Trie) : t.depthCounts = t.ownCounts :: edgeDepthCounts t.edges := by
  cases t
  rfl

theorem total_depthCounts (f : DepthCounts → Nat)
    (hf : ∀ a b : DepthCounts, f (a.add b) = f a + f b) (t : Trie) :
    total (t.depthCounts.map f) = t.sumOver fun n => f n.ownCounts := by
  refine edgeInduction (fun t => total (t.depthCounts.map f) = t.sumOver fun n => f n.ownCounts)
    (fun es => total ((edgeDepthCounts es).map f) = edgeSumOver (fun n => f n.ownCounts) es)
    ?node rfl ?cons t
  case node =>
    intro t ih
    rw [depthCounts_eq, List.map_cons, total_cons, ih, sumOver_eq, edgeSumOver_eq]
  case cons =>
    rintro ⟨b, k, s⟩ es ihs ihes
    rw [edgeDepthCounts, DepthCounts.total_addAll f hf, ihs, ihes, edgeSumOver]

theorem lt_length_edgeDepthCounts_iff (es : List (Edge Trie)) (d : Nat) :
    d < (edgeDepthCounts es).length ↔ ∃ e ∈ es, d < e.child.depthCounts.length := by
  induction es with
  | nil => simp [edgeDepthCounts]
  | cons e es ih =>
    obtain ⟨b, k, s⟩ := e
    simp only [edgeDepthCounts, DepthCounts.length_addAll, lt_max_iff, ih, List.mem_cons,
      exists_eq_or_imp]

/-- There are counts for exactly the depths at which there is a node. -/
theorem lt_length_depthCounts_iff (t : Trie) (d : Nat) :
    d < t.depthCounts.length ↔ ∃ u : Trie, u.IsAtDepth d t := by
  induction t using nodeInduction generalizing d with
  | node t ih =>
    rw [depthCounts_eq, List.length_cons]
    cases d with
    | zero => exact ⟨fun _ => ⟨t, .root⟩, fun _ => Nat.succ_pos _⟩
    | succ d =>
      rw [Nat.succ_lt_succ_iff, lt_length_edgeDepthCounts_iff]
      constructor
      · rintro ⟨e, he, hd⟩
        obtain ⟨u, hu⟩ := (ih e he d).mp hd
        exact ⟨u, .inside he hu⟩
      · rintro ⟨u, hu⟩
        cases hu with
        | inside he hu => exact ⟨_, he, (ih _ he d).mpr ⟨u, hu⟩⟩

/-! ## Nodes, edges and members -/

theorem sumOver_length_edges (t : Trie) :
    t.sumOver (fun n => n.edges.length) + 1 = t.sumOver fun _ => 1 := by
  induction t using nodeInduction with
  | node t ih =>
    have hchildren : total (t.edges.map fun e => e.child.sumOver fun _ => 1) =
        total (t.edges.map fun e => e.child.sumOver fun n => n.edges.length) + t.edges.length := by
      rw [← total_map_one t.edges, ← total_map_add]
      exact congrArg total (List.map_congr_left fun e he => (ih e he).symm)
    rw [sumOver_eq, sumOver_eq (fun _ => 1), hchildren]
    omega

theorem sumOver_terminal (t : Trie) : t.sumOver (fun n => n.terminal.toNat) = t.terminals := by
  induction t using nodeInduction with
  | node t ih =>
    rw [sumOver_eq, terminals_eq]
    exact congrArg _ (congrArg total (List.map_congr_left ih))

/-- Behind each edge there is one node less than twice the members. -/
theorem sumOver_one_add_length_le {t : Trie} (h : ∀ e ∈ t.edges,
    e.child.sumOver (fun _ => 1) + 1 ≤ e.child.terminals + e.child.terminals) :
    t.sumOver (fun _ => 1) + t.edges.length ≤ 1 + 2 * (t.terminals - t.terminal.toNat) := by
  have hle := total_map_le h
  rw [total_map_add, total_map_add, total_map_one] at hle
  rw [sumOver_eq, terminals_eq, Nat.add_sub_cancel_left]
  omega

/-- The induction is over the nodes: a member makes up for itself, and without one there are two edges
at least, for each of which a node is missing. -/
theorem sumOver_one_lt_of_isInner {t : Trie} (h : t.Canonical) (ht : t.IsInner) :
    t.sumOver (fun _ => 1) + 1 ≤ t.terminals + t.terminals := by
  induction t using nodeInduction with
  | node t ih =>
    have hle := sumOver_one_add_length_le fun e he => ih e he (h.child he) (h.tidy.inner e he)
    have hter : t.terminal.toNat ≤ t.terminals := by
      rw [terminals_eq]
      exact Nat.le_add_right _ _
    rcases ht with ht | ht
    · rw [ht, Bool.toNat_true] at hle hter
      omega
    · omega

theorem sumOver_one_le {t : Trie} (h : t.Canonical) (hne : t.members.Nonempty) :
    t.sumOver (fun _ => 1) ≤ 2 * t.terminals := by
  have hle := sumOver_one_add_length_le fun e he =>
    sumOver_one_lt_of_isInner (h.child he) (h.tidy.inner e he)
  have hter : t.terminal.toNat ≤ t.terminals := by
    rw [terminals_eq]
    exact Nat.le_add_right _ _
  obtain ⟨p, hp⟩ := hne
  cases hp with
  | here ht =>
    rw [ht, Bool.toNat_true] at hle hter
    omega
  | along he _ =>
    have hpos := List.length_pos_of_mem he
    omega

theorem sumOver_one_eq_one {t : Trie} (h : t.Canonical) (hempty : t.members = ∅) :
    t.sumOver (fun _ => 1) = 1 := by
  have hes : t.edges = [] := by
    apply List.eq_nil_iff_forall_not_mem.mpr
    intro e he
    obtain ⟨p, hp⟩ := h.inhabited t .root e he
    exact Set.eq_empty_iff_forall_notMem.mp hempty _ (.along he hp)
  rw [sumOver_eq, hes]
  rfl

/-! ## Keys -/

theorem countP_keyLengthsOnto (p : Nat → Bool) (t : Trie) (out : List Nat) :
    (t.keyLengthsOnto out).countP p =
      t.sumOver (fun n => (n.edges.map fun e => e.key.length).countP p) + out.countP p := by
  refine edgeInduction
    (fun t => ∀ out, (t.keyLengthsOnto out).countP p =
      t.sumOver (fun n => (n.edges.map fun e => e.key.length).countP p) + out.countP p)
    (fun es => ∀ out, (edgeKeyLengthsOnto es out).countP p =
      (es.map fun e => e.key.length).countP p +
        edgeSumOver (fun n => (n.edges.map fun e => e.key.length).countP p) es + out.countP p)
    ?node ?nil ?cons t out
  case node =>
    intro t ih out
    rw [sumOver_eq, ← edgeSumOver_eq, ← ih]
    cases t
    rfl
  case nil =>
    intro out
    simp [edgeKeyLengthsOnto, edgeSumOver]
  case cons =>
    rintro ⟨b, k, s⟩ es ihs ihes out
    simp only [edgeKeyLengthsOnto, List.countP_cons, ihs, ihes, edgeSumOver, List.map_cons,
      Edge.key, List.length_cons]
    omega

/-- The keys of the places are the keys of the trie. -/
theorem perm_keyLengthsOnto (t : Trie) (d : Nat) :
    ((t.visits d).flatMap fun v => v.1.edges.map fun e => e.key.length).Perm
      (t.keyLengthsOnto []) := by
  refine List.perm_iff_count.mpr fun l => ?_
  have hkeys := countP_keyLengthsOnto (· == l) t []
  rw [List.countP_nil, Nat.add_zero, ← total_visits _ t d] at hkeys
  rw [List.count_flatMap, List.count, hkeys]
  rfl

theorem mem_keyLengthsOnto_iff (t : Trie) (l : Nat) :
    l ∈ t.keyLengthsOnto [] ↔ ∃ u, IsNode u t ∧ ∃ e ∈ u.edges, e.key.length = l := by
  rw [← (perm_keyLengthsOnto t 0).mem_iff, List.mem_flatMap]
  simp only [← exists_mem_visits_iff _ t 0, List.mem_map]
  exact ⟨fun ⟨v, hv, he⟩ => ⟨v.1, ⟨v, hv, rfl⟩, he⟩, fun ⟨_, ⟨v, hv, heq⟩, he⟩ => ⟨v, hv, heq ▸ he⟩⟩

/-- The edges of a node with so long keys. -/
def edgesOfLength (l : Nat) (n : Trie) : Set (Edge Trie) := {e | e ∈ n.edges ∧ e.key.length = l}

theorem encard_edgesOfLength (l : Nat) {n : Trie} (h : n.Canonical) :
    (edgesOfLength l n).encard = (n.edges.map fun e => e.key.length).count l := by
  have hnodup : n.edges.Nodup := h.tidy.ascending.imp fun hlt heq =>
    UInt8.ne_of_lt hlt (congrArg Edge.first heq)
  have hfilter : edgesOfLength l n = {e | e ∈ n.edges.filter fun e => e.key.length == l} := by
    ext e
    simp [edgesOfLength]
  rw [hfilter, encard_of_nodup (hnodup.filter _), List.count, List.countP_map,
    List.countP_eq_length_filter]
  rfl

end Trie

/-! ## What the counts say -/

namespace Occupancy

/-- The number of keys of each length, from 0 up to that of the longest one. -/
def byLength (o : Occupancy) : List Nat := tally o.keyLengths

/-- The histogram leaves out the lengths that do not occur. -/
theorem mem_histogram_iff (o : Occupancy) (l n : Nat) :
    (l, n) ∈ o.histogram ↔ n ≠ 0 ∧ o.byLength[l]? = some n := by
  have hmem : (l, n) ∈ o.histogram ↔ l ∈ o.keyLengths ∧ o.keyLengths.count l = n := by
    simp only [histogram, List.mem_map, mem_eraseReps, List.mem_mergeSort, Prod.mk.injEq]
    exact ⟨fun ⟨m, hm, hl, hn⟩ => ⟨hl ▸ hm, hl ▸ hn⟩, fun ⟨hl, hn⟩ => ⟨l, hl, rfl, hn⟩⟩
  rw [hmem, byLength, getElem?_tally, ← List.count_pos_iff]
  constructor
  · rintro ⟨hpos, rfl⟩
    rw [if_pos (lt_bound_of_mem (List.count_pos_iff.mp hpos))]
    exact ⟨Nat.ne_of_gt hpos, rfl⟩
  · rintro ⟨hne, hget⟩
    split at hget
    · obtain rfl := Option.some.inj hget
      exact ⟨Nat.pos_of_ne_zero hne, rfl⟩
    · cases hget

theorem pairwise_histogram (o : Occupancy) : o.histogram.Pairwise fun x y => x.1 < y.1 := by
  rw [histogram, List.pairwise_map]
  exact pairwise_eraseReps (fun _ _ => Nat.lt_of_le_of_ne) (fun _ _ _ => Nat.lt_trans)
    (List.pairwise_mergeSort' (· ≤ ·) o.keyLengths)

/-- What the counts of a set say about the places, the edges and the members of its trie. -/
structure Describes (o : Occupancy) (t : Trie) : Prop where
  nodes : (o.nodes : ℕ∞) = {p | ∃ u : Trie, u.IsNodeAt p t}.encard
  terminals : (o.terminals : ℕ∞) = t.members.encard
  nodes_le : t.members.Nonempty → o.nodes ≤ 2 * o.terminals
  nodes_empty : t.members = ∅ → o.nodes = 1
  items : o.items = o.nodes - 1
  total_byLength : total o.byLength = o.items
  length_byLength : o.byLength.length = o.histogramLength
  byLength : ∀ l, ((o.byLength.getD l 0 : Nat) : ℕ∞) = (t.marks (edgesOfLength l)).encard
  histogramLength :
    IsLeast {n | ∀ u, IsNode u t → ∀ e ∈ u.edges, e.key.length < n} o.histogramLength
  histogram : ∀ l n, (l, n) ∈ o.histogram ↔ n ≠ 0 ∧ o.byLength[l]? = some n
  histogram_ascending : o.histogram.Pairwise fun x y => x.1 < y.1
  maxDepth : IsGreatest {d | ∃ u : Trie, u.IsAtDepth d t} o.maxDepth

variable (t : Trie)

theorem nodes_ofTrie : (ofTrie t).nodes = t.sumOver fun _ => 1 :=
  total_depthCounts DepthCounts.nodes (fun _ _ => rfl) t

theorem items_ofTrie : (ofTrie t).items = t.sumOver fun u => u.edges.length :=
  total_depthCounts DepthCounts.items (fun _ _ => rfl) t

theorem terminals_ofTrie : (ofTrie t).terminals = t.terminals := by
  rw [← sumOver_terminal]
  exact total_depthCounts DepthCounts.terminals (fun _ _ => rfl) t

theorem length_keyLengthsOnto :
    (t.keyLengthsOnto []).length = t.sumOver fun u => u.edges.length := by
  have hcount := countP_keyLengthsOnto (fun _ => true) t []
  simpa using hcount

theorem isLeast_histogramLength :
    IsLeast {n | ∀ u, IsNode u t → ∀ e ∈ u.edges, e.key.length < n} (ofTrie t).histogramLength := by
  have hkeys : ∀ n, (∀ l ∈ t.keyLengthsOnto [], l < n) ↔
      ∀ u, IsNode u t → ∀ e ∈ u.edges, e.key.length < n := by
    intro n
    constructor
    · intro h u hu e he
      exact h _ ((mem_keyLengthsOnto_iff t _).mpr ⟨u, hu, e, he, rfl⟩)
    · intro h l hl
      obtain ⟨u, hu, e, he, rfl⟩ := (mem_keyLengthsOnto_iff t l).mp hl
      exact h u hu e he
  refine ⟨(hkeys _).mp ((bound_le_iff _ _).mp (Nat.le_refl _)), fun n hn => ?_⟩
  exact (bound_le_iff _ _).mpr ((hkeys n).mpr hn)

theorem isGreatest_maxDepth : IsGreatest {d | ∃ u : Trie, u.IsAtDepth d t} (ofTrie t).maxDepth := by
  have hpos : 0 < t.depthCounts.length := (lt_length_depthCounts_iff t 0).mpr ⟨t, .root⟩
  constructor
  · exact (lt_length_depthCounts_iff t _).mp (Nat.sub_lt hpos Nat.one_pos)
  · intro d hd
    exact Nat.le_sub_one_of_lt ((lt_length_depthCounts_iff t d).mpr hd)

theorem describes {t : Trie} (h : t.Canonical) : (ofTrie t).Describes t where
  nodes := by
    rw [nodes_ofTrie]
    simpa using (h.encard_places fun _ => true).symm
  terminals := by
    rw [terminals_ofTrie, ← h.count_eq_encard, h.count_eq t .root]
  nodes_le := by
    rw [nodes_ofTrie, terminals_ofTrie]
    exact sumOver_one_le h
  nodes_empty := by
    rw [nodes_ofTrie]
    exact sumOver_one_eq_one h
  items := by
    rw [nodes_ofTrie, items_ofTrie, ← sumOver_length_edges, Nat.add_sub_cancel]
  total_byLength := by
    rw [Occupancy.byLength, total_tally, items_ofTrie]
    exact length_keyLengthsOnto t
  length_byLength := length_tally _
  byLength := by
    intro l
    rw [Occupancy.byLength, getD_tally, h.encard_marks _ _ fun n hn => encard_edgesOfLength l hn]
    have hcount := countP_keyLengthsOnto (· == l) t []
    rw [List.countP_nil, Nat.add_zero] at hcount
    exact congrArg Nat.cast hcount
  histogramLength := isLeast_histogramLength t
  histogram := mem_histogram_iff _
  histogram_ascending := pairwise_histogram _
  maxDepth := isGreatest_maxDepth t

end Occupancy

end ByteTrie
