import ByteTrie.Proofs.Members
import ByteTrie.Trie.Lookup
import Mathlib

/-!
# Canonical form

What every node of a trie satisfies: its edges ascend in their first bytes, its mask holds these
bytes, its count is the number of terminal nodes at and below it, and behind each edge stands a node
that is terminal or has a choice of edges.  `IsTidy` says this of one node in terms of its children,
`Canonical` of all nodes of a trie.

    t.visits d            the nodes of t, one for each place, with their depths, that of the root being d
    t.contains p = true   iff  p ∈ t          for a canonical t     (Canonical.contains_iff)
    t.isEmpty = true      iff  no p is in t   for a canonical t     (Canonical.isEmpty_iff)
-/

namespace ByteTrie

/-! ## Masks -/

namespace ByteMask

theorem contains_insert (m : ByteMask) (a b : UInt8) :
    (m.insert a).contains b = (m.contains b || decide (a = b)) := by
  have ha : a.toNat < 256 := a.toNat_lt
  simp only [contains, insert, BitVec.getLsbD_or, BitVec.getLsbD_twoPow, UInt8.toNat_inj, ha,
    decide_true, Bool.true_and]

theorem contains_foldl_insert (bs : List UInt8) (m : ByteMask) (b : UInt8) :
    (bs.foldl insert m).contains b = (m.contains b || decide (b ∈ bs)) := by
  induction bs generalizing m with
  | nil => simp
  | cons a bs ih =>
    rw [List.foldl_cons, ih, contains_insert]
    simp [Bool.or_assoc, eq_comm]

theorem contains_ofList (bs : List UInt8) (b : UInt8) :
    (ofList bs).contains b = true ↔ b ∈ bs := by
  rw [ofList, contains_foldl_insert]
  simp [contains, empty]

theorem eq_of_contains_eq {m n : ByteMask} (h : ∀ b, m.contains b = n.contains b) : m = n := by
  obtain ⟨m⟩ := m
  obtain ⟨n⟩ := n
  congr 1
  apply BitVec.eq_of_getLsbD_eq
  intro i hi
  have := h (UInt8.ofNat i)
  rwa [contains, contains, UInt8.toNat_ofNat_of_lt' hi] at this

end ByteMask

/-! ## Nodes -/

namespace Trie

/-- `IsNode u t`: `u` is the root of `t` or a node below it. -/
inductive IsNode (u : Trie) : Trie → Prop
  | root : IsNode u u
  | inside {t : Trie} {e : Edge Trie} (he : e ∈ t.edges) (hu : IsNode u e.child) : IsNode u t

mutual

/-- The places of a trie, a node before what is below it, each with its depth. -/
def visits : Trie → Nat → List (Trie × Nat)
  | node i t n m es, d => (node i t n m es, d) :: edgeVisits es (d + 1)

def edgeVisits : List (Edge Trie) → Nat → List (Trie × Nat)
  | [], _ => []
  | ⟨_, _, t⟩ :: es, d => visits t d ++ edgeVisits es d

end

mutual

/-- The number of terminal nodes. -/
def terminals : Trie → Nat
  | node _ t _ _ es => t.toNat + edgeTerminals es

def edgeTerminals : List (Edge Trie) → Nat
  | [] => 0
  | ⟨_, _, c⟩ :: es => terminals c + edgeTerminals es

end

/-- A member, or with a choice of edges: what may stand behind an edge. -/
def IsInner (t : Trie) : Prop := t.terminal = true ∨ 2 ≤ t.edges.length

/-- What a node satisfies, given its children. -/
structure IsTidy (t : Trie) : Prop where
  ascending : t.edges.Pairwise fun e f => e.first < f.first
  inner : ∀ e ∈ t.edges, e.child.IsInner
  count_eq : t.count = t.terminal.toNat + total (t.edges.map fun e => e.child.count)
  mask_eq : t.mask = ByteMask.ofList (t.edges.map fun e => e.first)

/-- The form that every trie is kept in. -/
structure Canonical (t : Trie) : Prop where
  key_ne_nil : ∀ u, IsNode u t → ∀ e ∈ u.edges, e.key ≠ []
  ascending : ∀ u, IsNode u t → u.edges.Pairwise fun e f => e.first < f.first
  mask_iff : ∀ u, IsNode u t → ∀ b, u.mask.contains b = true ↔ ∃ e ∈ u.edges, e.first = b
  count_eq : ∀ u, IsNode u t → u.count = u.terminals
  inner : ∀ u, IsNode u t → ∀ e ∈ u.edges, e.child.terminal = true ∨ 2 ≤ e.child.edges.length
  inhabited : ∀ u, IsNode u t → ∀ e ∈ u.edges, ∃ p, p ∈ e.child

theorem IsNode.trans {s t u : Trie} (hs : IsNode s t) (ht : IsNode t u) : IsNode s u := by
  induction ht with
  | root => exact hs
  | inside he _ ih => exact .inside he ih

theorem IsNode.child {t : Trie} {e : Edge Trie} (he : e ∈ t.edges) : IsNode e.child t :=
  .inside he .root

theorem edgeVisits_eq (es : List (Edge Trie)) (d : Nat) :
    edgeVisits es d = es.flatMap fun e => e.child.visits d := by
  induction es with
  | nil => rfl
  | cons e es ih =>
    obtain ⟨b, k, t⟩ := e
    rw [edgeVisits, ih]
    rfl

theorem visits_eq (t : Trie) (d : Nat) : t.visits d = (t, d) :: edgeVisits t.edges (d + 1) := by
  cases t
  rw [visits]
  rfl

theorem exists_mem_visits_iff (u t : Trie) (d : Nat) :
    (∃ v ∈ t.visits d, v.1 = u) ↔ IsNode u t := by
  induction t using nodeInduction generalizing d with
  | node t ih =>
    rw [visits_eq, edgeVisits_eq]
    constructor
    · rintro ⟨v, hv, rfl⟩
      rcases List.mem_cons.mp hv with rfl | hv
      · exact .root
      · obtain ⟨e, he, hv⟩ := List.mem_flatMap.mp hv
        exact .inside he ((ih e he (d + 1)).mp ⟨v, hv, rfl⟩)
    · intro hu
      cases hu with
      | root => exact ⟨_, List.mem_cons_self, rfl⟩
      | inside he hu =>
        obtain ⟨v, hv, heq⟩ := (ih _ he (d + 1)).mpr hu
        exact ⟨v, List.mem_cons_of_mem _ (List.mem_flatMap.mpr ⟨_, he, hv⟩), heq⟩

/-- Ascending edges start with different bytes. -/
theorem edge_eq_of_first_eq {es : List (Edge Trie)} (h : es.Pairwise fun e f => e.first < f.first)
    {e f : Edge Trie} (he : e ∈ es) (hf : f ∈ es) (hfirst : e.first = f.first) : e = f := by
  have nodup : (es.map fun e => e.first).Nodup := List.pairwise_map.mpr (h.imp UInt8.ne_of_lt)
  exact List.inj_on_of_nodup_map nodup he hf hfirst

theorem edgeTerminals_eq (es : List (Edge Trie)) :
    edgeTerminals es = total (es.map fun e => e.child.terminals) := by
  induction es with
  | nil => rfl
  | cons e es ih =>
    obtain ⟨b, k, c⟩ := e
    rw [edgeTerminals, ih, List.map_cons, total_cons]

theorem terminals_eq (t : Trie) :
    t.terminals = t.terminal.toNat + total (t.edges.map fun e => e.child.terminals) := by
  cases t with
  | node i b n m es => rw [terminals, edgeTerminals_eq]; rfl

theorem terminal_make (b : Bool) (es : List (Edge Trie)) (n : Nat) :
    (make b es n).1.terminal = b := by
  cases es with
  | nil => cases b <;> rfl
  | cons e es => rfl

theorem edges_make (b : Bool) (es : List (Edge Trie)) (n : Nat) : (make b es n).1.edges = es := by
  cases es with
  | nil => cases b <;> rfl
  | cons e es => rfl

/-! ## Tidy nodes are canonical tries -/

theorem exists_mem_of_inner {t : Trie} (h : ∀ u, IsNode u t → u.IsTidy) (ht : t.IsInner) :
    ∃ p, p ∈ t := by
  induction t using nodeInduction with
  | node t ih =>
    rcases ht with ht | ht
    · exact ⟨[], (nil_mem_iff t).mpr ht⟩
    · obtain ⟨e, he⟩ := List.exists_mem_of_length_pos (by omega : 0 < t.edges.length)
      obtain ⟨p, hp⟩ := ih e he (fun u hu => h u (.inside he hu)) ((h t .root).inner e he)
      exact ⟨e.key ++ p, .along he hp⟩

theorem count_eq_terminals {t : Trie} (h : ∀ u, IsNode u t → u.IsTidy) :
    t.count = t.terminals := by
  induction t using nodeInduction with
  | node t ih =>
    rw [(h t .root).count_eq, terminals_eq]
    congr 2
    apply List.map_congr_left
    intro e he
    exact ih e he fun u hu => h u (.inside he hu)

theorem mask_contains_iff {t : Trie} (h : t.IsTidy) (b : UInt8) :
    t.mask.contains b = true ↔ ∃ e ∈ t.edges, e.first = b := by
  rw [h.mask_eq, ByteMask.contains_ofList, List.mem_map]

theorem canonical_of_tidy {t : Trie} (h : ∀ u, IsNode u t → u.IsTidy) : t.Canonical where
  key_ne_nil _ _ e _ := by simp [Edge.key]
  ascending u hu := (h u hu).ascending
  mask_iff u hu := mask_contains_iff (h u hu)
  count_eq u hu := count_eq_terminals fun v hv => h v (hv.trans hu)
  inner u hu := (h u hu).inner
  inhabited u hu e he :=
    exists_mem_of_inner (fun v hv => h v (hv.trans (.inside he .root) |>.trans hu))
      ((h u hu).inner e he)

namespace Canonical

variable {t : Trie}

theorem tidy (h : t.Canonical) : t.IsTidy where
  ascending := h.ascending t .root
  inner := h.inner t .root
  count_eq := by
    rw [h.count_eq t .root, terminals_eq]
    congr 2
    apply List.map_congr_left
    intro e he
    exact (h.count_eq e.child (.child he)).symm
  mask_eq := by
    apply ByteMask.eq_of_contains_eq
    intro b
    rw [Bool.eq_iff_iff, h.mask_iff t .root b, ByteMask.contains_ofList, List.mem_map]

theorem node (h : t.Canonical) {u : Trie} (hu : IsNode u t) : u.Canonical where
  key_ne_nil v hv := h.key_ne_nil v (hv.trans hu)
  ascending v hv := h.ascending v (hv.trans hu)
  mask_iff v hv := h.mask_iff v (hv.trans hu)
  count_eq v hv := h.count_eq v (hv.trans hu)
  inner v hv := h.inner v (hv.trans hu)
  inhabited v hv := h.inhabited v (hv.trans hu)

theorem child (h : t.Canonical) {e : Edge Trie} (he : e ∈ t.edges) : e.child.Canonical :=
  h.node (.child he)

/-! ## Emptiness and lookup -/

theorem count_eq_zero_iff (h : t.Canonical) : t.count = 0 ↔ ∀ p, p ∉ t := by
  constructor
  · intro h0 p hp
    induction hp with
    | here ht => rw [h.tidy.count_eq, ht] at h0; simp at h0
    | @along t e p he _ ih =>
      refine ih (h.child he) ?_
      have hle : e.child.count ≤ total (t.edges.map fun e => e.child.count) :=
        le_total_of_mem (List.mem_map.mpr ⟨e, he, rfl⟩)
      rw [h.tidy.count_eq] at h0
      omega
  · intro hn
    have ht : t.terminal = false := by
      rw [← Bool.not_eq_true, ← nil_mem_iff]; exact hn []
    have he : t.edges = [] := by
      apply List.eq_nil_iff_forall_not_mem.mpr
      intro e he
      obtain ⟨p, hp⟩ := h.inhabited t .root e he
      exact hn _ (.along he hp)
    rw [h.tidy.count_eq, ht, he]
    rfl

theorem isEmpty_iff (h : t.Canonical) : t.isEmpty = true ↔ t.members = ∅ := by
  rw [Trie.isEmpty, beq_iff_eq, h.count_eq_zero_iff, Set.eq_empty_iff_forall_notMem]
  rfl

end Canonical

/-- The members of what a lookup has reached. -/
def reached : Option Stem → Set Path
  | some s => s.members
  | none => ∅

/-- How a path and the key of an edge may lie: the key ends first, the path ends
first, or they part. -/
theorem reached_key (k p : Path) (t : Trie) :
    {q | p ++ q ∈ Stem.members ⟨k, t⟩} =
      if Path.overlap k p = k.length then {q | p.drop k.length ++ q ∈ t}
      else if Path.overlap k p = p.length then Stem.members ⟨k.drop p.length, t⟩
      else ∅ := by
  split
  · next h =>
    have hp := Path.eq_append_of_overlap_eq h
    generalize p.drop k.length = p' at hp ⊢
    subst hp
    ext q
    simp [Stem.members]
  · next h =>
    split
    · next h' =>
      have hk := Path.eq_append_of_overlap_eq ((Path.overlap_comm p k).trans h')
      generalize k.drop p.length = k' at hk ⊢
      subst hk
      ext q
      simp [Stem.members]
    · next h' =>
      obtain ⟨c, x, k', y, p', hne, rfl, rfl⟩ := Path.exists_parting h h'
      ext q
      simp [Stem.members, Ne.symm hne]

theorem reached_first (k p : Path) (t : Trie) {b : UInt8} {es : List (Edge Trie)}
    (h : ∀ f ∈ es, b < f.first) :
    {q | b :: (p ++ q) ∈ edgeMembers (⟨b, k, t⟩ :: es)} =
      if Path.overlap k p = k.length then {q | p.drop k.length ++ q ∈ t}
      else if Path.overlap k p = p.length then Stem.members ⟨k.drop p.length, t⟩
      else ∅ := by
  rw [← reached_key]
  ext q
  exact Set.ext_iff.mp (after_edgeMembers_cons ⟨b, k, t⟩ es h) (p ++ q)

/-- What a lookup reaches holds the members that go on from the path. -/
theorem reached_seek {t : Trie} (h : t.Canonical) (p : Path) :
    reached (t.seek p) = {q | p ++ q ∈ t} := by
  refine (seek.mutual_induct
    (fun t p => t.Canonical → reached (t.seek p) = {q | p ++ q ∈ t})
    (fun es b p => (es.Pairwise fun e f => e.first < f.first) →
      (∀ e ∈ es, e.child.Canonical) →
      reached (seekEdges es b p) = {q | b :: (p ++ q) ∈ edgeMembers es})
    ?_ ?_ ?_ ?_ ?_ ?_ ?_).1 t p h
  case refine_1 =>
    intro t _
    simp [seek, reached, members]
  case refine_2 =>
    intro i t n m es b p ih h
    rw [seek, ih h.tidy.ascending fun e he => h.child he]
    ext q
    exact (cons_mem_iff (node i t n m es) b (p ++ q)).symm
  case refine_3 => simp [seekEdges, reached]
  case refine_4 =>
    intro k t es b p n hn ih hs hc
    rw [seekEdges, if_pos rfl, reached_first k p t (List.pairwise_cons.mp hs).1]
    simp only
    rw [if_pos hn, if_pos hn, ih (hc _ List.mem_cons_self), hn]
  case refine_5 =>
    intro k t es b p n hn hn' hs hc
    have hl : Path.overlap k p = p.length := hn'
    rw [seekEdges, if_pos rfl, reached_first k p t (List.pairwise_cons.mp hs).1]
    simp only
    rw [if_neg hn, if_pos hn', if_neg hn, if_pos hn', reached, hl]
  case refine_6 =>
    intro k t es b p n hn hn' hs hc
    rw [seekEdges, if_pos rfl, reached_first k p t (List.pairwise_cons.mp hs).1]
    simp only
    rw [if_neg hn, if_neg hn', if_neg hn, if_neg hn', reached]
  case refine_7 =>
    intro c k t es b p hb ih hs hc
    have hm := after_edgeMembers_cons_of_ne ⟨c, k, t⟩ es b (Ne.symm hb)
    rw [seekEdges, if_neg hb,
      ih (List.pairwise_cons.mp hs).2 fun e he => hc e (List.mem_cons_of_mem _ he)]
    ext q
    exact (Set.ext_iff.mp hm (p ++ q)).symm

theorem Canonical.contains_iff {t : Trie} (h : t.Canonical) (p : Path) :
    t.contains p = true ↔ p ∈ t := by
  have hr := Set.ext_iff.mp (reached_seek h p) []
  rw [Set.mem_ofPred_eq, List.append_nil] at hr
  rw [← hr, contains]
  cases t.seek p with
  | none => simp [reached]
  | some s => exact (Stem.nil_mem_iff s).symm

end Trie

end ByteTrie
