import ByteTrie.Proofs.Observers
import ByteTrie.Proofs.Writing
import Mathlib

/-!
# The least and the greatest path below a cursor

The least path is found down the first edges, as far as the first terminal node, since a path comes
before those that go on from it; the greatest path down the last edges, as far as there are any.  In
front of both walks is a test whether there are members at all.  Behind that test they cannot fail: a
node that is not terminal has edges, and one without edges is terminal.

    Descent stops pick t p u     from t down to u along p, by the edges that pick picks, as far as the
                                 first node at which it stops
    t.least? = t.paths.head?     t.greatest? = t.paths.getLast?      for a canonical t
    c.Extremes x                 what c answers for the members of x
-/

namespace ByteTrie

open Trie Pool

/-! ## Walks down -/

/-- A walk from `t`: at a node at which it does not stop, along the edge that `pick` picks.  There is no
walk where it would have to go on and no edge is picked. -/
inductive Trie.Descent (stops : Trie → Bool) (pick : List (Edge Trie) → Option (Edge Trie)) :
    Trie → Path → Trie → Prop
  | stop {t : Trie} (h : stops t = true) : Descent stops pick t [] t
  | down {t u : Trie} {e : Edge Trie} {p : Path} (h : stops t = false) (he : pick t.edges = some e)
      (hp : Descent stops pick e.child p u) : Descent stops pick t (e.key ++ p) u

/-- To the first terminal node along the first edges. -/
abbrev Trie.FirstDescent := Trie.Descent Trie.terminal List.head?

/-- To the first node without edges along the last edges. -/
abbrev Trie.LastDescent := Trie.Descent (fun t => t.edges.isEmpty) List.getLast?

namespace Trie

variable {t : Trie} {e : Edge Trie} {es : List (Edge Trie)} {p : Path}

theorem least?_of_terminal (h : t.terminal = true) : t.least? = some [] := by
  obtain ⟨i, b, n, m, es⟩ := t
  obtain rfl : b = true := h
  rw [least?]

theorem least?_of_cons (h : t.terminal = false) (he : t.edges = e :: es) :
    t.least? = e.child.least?.map fun p => e.key ++ p := by
  obtain ⟨i, b, n, m, fs⟩ := t
  obtain rfl : b = false := h
  obtain rfl : fs = e :: es := he
  rw [least?]
  rfl

theorem greatest?_of_nil (he : t.edges = []) :
    t.greatest? = if t.terminal then some [] else none := by
  obtain ⟨i, b, n, m, fs⟩ := t
  obtain rfl : fs = [] := he
  rw [greatest?, edgesGreatest?]
  rfl

theorem edgesGreatest?_concat (es : List (Edge Trie)) (e : Edge Trie) :
    edgesGreatest? (es ++ [e]) = e.child.greatest?.map fun p => e.key ++ p := by
  induction es with
  | nil =>
    rw [List.nil_append, edgesGreatest?]
    rfl
  | cons f es ih =>
    obtain ⟨g, gs, hg⟩ : ∃ g gs, es ++ [e] = g :: gs :=
      List.exists_cons_of_ne_nil (List.append_ne_nil_of_right_ne_nil es (List.cons_ne_nil e []))
    rw [List.cons_append, hg, edgesGreatest?, ← hg, ih]

theorem greatest?_of_concat (he : t.edges = es ++ [e]) (hp : e.child.greatest? = some p) :
    t.greatest? = some (e.key ++ p) := by
  obtain ⟨i, b, n, m, fs⟩ := t
  obtain rfl : fs = es ++ [e] := he
  rw [greatest?, edgesGreatest?_concat, hp]
  rfl

namespace Canonical

/-- The empty set has one form. -/
theorem of_members_eq_empty (h : t.Canonical) (hempty : t.members = ∅) :
    t.terminal = false ∧ t.edges = [] := by
  have hnot : ∀ p, p ∉ t := fun p hp => Set.notMem_empty p (hempty ▸ hp)
  constructor
  · rw [← Bool.not_eq_true, ← nil_mem_iff]
    exact hnot []
  · refine List.eq_nil_iff_forall_not_mem.mpr fun e he => ?_
    obtain ⟨p, hp⟩ := h.inhabited t .root e he
    exact hnot _ (.along he hp)

/-- A trie with members has a walk down its first edges, to the first path of its list. -/
theorem exists_firstDescent (h : t.Canonical) (ht : t.members.Nonempty) :
    ∃ p u, t.FirstDescent p u ∧ t.least? = some p ∧ t.paths.head? = some p := by
  induction t using nodeInduction with
  | node t ih =>
    by_cases hter : t.terminal = true
    · refine ⟨[], t, .stop hter, least?_of_terminal hter, ?_⟩
      rw [paths_eq, if_pos hter]
      rfl
    · rw [Bool.not_eq_true] at hter
      cases hes : t.edges with
      | nil =>
        -- a node of this form has no members
        obtain ⟨q, hq⟩ := ht
        rw [mem_members, mem_iff, hter, hes, edgeMembers_nil] at hq
        simp at hq
      | cons e es =>
        have he : e ∈ t.edges := by
          rw [hes]
          exact List.mem_cons_self
        obtain ⟨p, u, hwalk, hleast, hhead⟩ := ih e he (h.child he) (h.inhabited t .root e he)
        refine ⟨e.key ++ p, u, .down hter (by rw [hes]; rfl) hwalk, ?_, ?_⟩
        · rw [least?_of_cons hter hes, hleast]
          rfl
        · rw [paths_eq, hter, hes, List.flatMap_cons, List.head?_append, List.head?_append,
            List.head?_map, hhead]
          rfl

/-- A trie with members has a walk down its last edges, to the last path of its list. -/
theorem exists_lastDescent (h : t.Canonical) (ht : t.members.Nonempty) :
    ∃ p u, t.LastDescent p u ∧ t.greatest? = some p ∧ t.paths.getLast? = some p := by
  induction t using nodeInduction with
  | node t ih =>
    obtain hes | ⟨es, e, hes⟩ := List.eq_nil_or_concat' t.edges
    · have hter : t.terminal = true := by
        obtain ⟨q, hq⟩ := ht
        rw [mem_members, mem_iff, hes, edgeMembers_nil] at hq
        exact (hq.resolve_right (Set.notMem_empty q)).2
      refine ⟨[], t, .stop (List.isEmpty_iff.mpr hes), ?_, ?_⟩
      · rw [greatest?_of_nil hes, if_pos hter]
      · rw [paths_eq, if_pos hter, hes]
        rfl
    · have he : e ∈ t.edges := by
        rw [hes]
        exact List.mem_append_right es List.mem_cons_self
      obtain ⟨p, u, hwalk, hgreatest, hlast⟩ := ih e he (h.child he) (h.inhabited t .root e he)
      refine ⟨e.key ++ p, u, .down ?_ ?_ hwalk, greatest?_of_concat hes hgreatest, ?_⟩
      · rw [hes]
        simp
      · rw [hes]
        exact List.getLast?_concat
      · rw [paths_eq, hes, List.flatMap_append, List.flatMap_singleton, List.getLast?_append,
          List.getLast?_append, List.getLast?_map, hlast]
        rfl

theorem least?_eq_head? (h : t.Canonical) : t.least? = t.paths.head? := by
  obtain hempty | hne := Set.eq_empty_or_nonempty t.members
  · obtain ⟨hter, hes⟩ := h.of_members_eq_empty hempty
    cases hp : t.least? with
    | none =>
      rw [paths_eq, hter, hes]
      rfl
    | some p =>
      have hmem := (h.isLeast_least? hp).1
      rw [hempty] at hmem
      exact absurd hmem (Set.notMem_empty p)
  · obtain ⟨p, u, -, hleast, hhead⟩ := h.exists_firstDescent hne
    rw [hleast, hhead]

theorem greatest?_eq_getLast? (h : t.Canonical) : t.greatest? = t.paths.getLast? := by
  obtain hempty | hne := Set.eq_empty_or_nonempty t.members
  · obtain ⟨hter, hes⟩ := h.of_members_eq_empty hempty
    rw [greatest?_of_nil hes, paths_eq, hter, hes]
    rfl
  · obtain ⟨p, u, -, hgreatest, hlast⟩ := h.exists_lastDescent hne
    rw [hgreatest, hlast]

end Canonical

end Trie

/-! ## First and last paths of a list -/

namespace Path

variable {ps : List Path} {q : Path}

theorem isLeast_of_head? (h : ps.Pairwise (· < ·)) (hq : ps.head? = some q) :
    IsLeast {p | p ∈ ps} q := by
  obtain ⟨qs, rfl⟩ := List.head?_eq_some_iff.mp hq
  refine ⟨List.mem_cons_self, fun p hp => ?_⟩
  rcases List.mem_cons.mp hp with rfl | hp
  · exact List.le_refl p
  · exact List.le_of_lt ((List.pairwise_cons.mp h).1 p hp)

theorem isGreatest_of_getLast? (h : ps.Pairwise (· < ·)) (hq : ps.getLast? = some q) :
    IsGreatest {p | p ∈ ps} q := by
  obtain ⟨qs, rfl⟩ := List.getLast?_eq_some_iff.mp hq
  refine ⟨List.mem_append_right qs List.mem_cons_self, fun p hp => ?_⟩
  rcases List.mem_append.mp hp with hp | hp
  · exact List.le_of_lt ((List.pairwise_append.mp h).2.2 p hp q List.mem_cons_self)
  · obtain rfl := List.mem_singleton.mp hp
    exact List.le_refl p

end Path

/-! ## Below a cursor -/

namespace Cursor

/-- What `c` answers for the paths that continue its own in `x`.  The bytes that it cuts off a key are
there, the test in front of the walks finds out whether `x` has members, and behind it they end. -/
structure Extremes (x : Trie) (c : Cursor) : Prop where
  key_le : ∀ i e, c.focusEdge? = some (i, e) → c.keyLength ≤ e.key.length
  isEmpty_iff : c.stem.child.isEmpty = true ↔ ∀ p, x.contains p = false
  of_isEmpty : c.stem.child.isEmpty = true → c.least? = none ∧ c.greatest? = none
  exists_firstDescent : c.stem.child.isEmpty = false →
    ∃ p u, c.stem.child.FirstDescent p u ∧ c.least? = some (c.stem.key ++ p)
  exists_lastDescent : c.stem.child.isEmpty = false →
    ∃ p u, c.stem.child.LastDescent p u ∧ c.greatest? = some (c.stem.key ++ p)
  isLeast : ∀ q, c.least? = some q → IsLeast {r | x.contains (c.path ++ r) = true} q
  isGreatest : ∀ q, c.greatest? = some q → IsGreatest {r | x.contains (c.path ++ r) = true} q
  least?_eq_head? : ∀ n, c.least? = (c.readPaths n).1.head?
  greatest?_eq_getLast? : ∀ n, c.greatest? = (c.readPaths n).1.getLast?
  least?_eq_nil_iff : c.least? = some [] ↔ x.contains c.path = true
  greatest?_eq_nil_iff : c.greatest? = some [] ↔
    x.contains c.path = true ∧ ∀ r, r ≠ [] → x.contains (c.path ++ r) = false

variable {P : Pool} {x : Trie} {c : Cursor} {q : Path}

theorem IsAt.canonical_stem (h : c.IsAt x q) (hx : x.Canonical) : c.stem.child.Canonical := by
  obtain ⟨rfl, -, p, k, h⟩ := h
  exact h.canonical_stem hx

/-- There are members below the focus where there are any: a path other than the empty one is in front
of a member. -/
theorem IsAt.members_stem_eq_empty_iff (h : c.IsAt x q) (hx : x.Canonical) :
    c.stem.child.members = ∅ ↔ ∀ p, x.contains p = false := by
  have hstem : c.stem.child.members = ∅ ↔ x.membersAfter q = ∅ := by
    rw [← h.members_stem hx, ← Set.encard_eq_zero, ← Set.encard_eq_zero]
    exact Iff.of_eq (congrArg (· = 0) (Stem.encard_members c.stem.key c.stem.child).symm)
  rw [hstem]
  constructor
  · intro hempty p
    by_cases hq : q = []
    · subst hq
      rw [Bool.eq_false_iff, Ne, hx.contains_iff]
      exact fun hp => Set.notMem_empty p (hempty ▸ hp)
    · exact absurd hempty (h.nonempty hx hq).ne_empty
  · intro hnone
    refine Set.eq_empty_of_forall_notMem fun p hp => ?_
    have hmem := (hx.contains_iff _).mpr hp
    rw [hnone] at hmem
    cases hmem

/-- The rest of the key in front of every path, the paths below the focus are those of the node behind
it, in the same order. -/
theorem IsAt.readPaths_eq (h : c.IsAt x q) (hin : c.In P) (hx : x.Canonical) (n : Nat) :
    (c.readPaths n).1 = c.stem.child.paths.map fun p => c.stem.key ++ p := by
  obtain ⟨hsub, hmembers⟩ := h.subtrie hin hx n
  rw [h.readPaths_eq_paths hin hx]
  refine Path.eq_of_pairwise_of_mem_iff hsub.pairwise_paths ?_ fun r => ?_
  · have hchild := (h.canonical_stem hx).pairwise_paths
    exact List.pairwise_map.mpr (hchild.imp fun hlt => List.append_left_lt hlt)
  · rw [mem_paths_iff, ← mem_members, hmembers, ← h.members_stem hx, List.mem_map]
    exact exists_congr fun p => and_congr (mem_paths_iff _ p).symm eq_comm

theorem IsAt.least?_eq_head? (h : c.IsAt x q) (hin : c.In P) (hx : x.Canonical) (n : Nat) :
    c.least? = (c.readPaths n).1.head? := by
  rw [h.readPaths_eq hin hx, List.head?_map, ← (h.canonical_stem hx).least?_eq_head?]
  rfl

theorem IsAt.greatest?_eq_getLast? (h : c.IsAt x q) (hin : c.In P) (hx : x.Canonical) (n : Nat) :
    c.greatest? = (c.readPaths n).1.getLast? := by
  rw [h.readPaths_eq hin hx, List.getLast?_map, ← (h.canonical_stem hx).greatest?_eq_getLast?]
  rfl

theorem IsAt.isLeast (h : c.IsAt x c.path) (hin : c.In P) (hx : x.Canonical)
    (hq : c.least? = some q) : IsLeast {r | x.contains (c.path ++ r) = true} q := by
  obtain ⟨hlists, -⟩ := h.lists hin hx 0
  rw [h.least?_eq_head? hin hx 0] at hq
  have hleast := Path.isLeast_of_head? hlists.ascending hq
  simp only [hlists.mem_iff] at hleast
  exact hleast

theorem IsAt.isGreatest (h : c.IsAt x c.path) (hin : c.In P) (hx : x.Canonical)
    (hq : c.greatest? = some q) : IsGreatest {r | x.contains (c.path ++ r) = true} q := by
  obtain ⟨hlists, -⟩ := h.lists hin hx 0
  rw [h.greatest?_eq_getLast? hin hx 0] at hq
  have hgreatest := Path.isGreatest_of_getLast? hlists.ascending hq
  simp only [hlists.mem_iff] at hgreatest
  exact hgreatest

/-- Where there is a path below the focus, there is a least and a greatest one. -/
theorem IsAt.exists_extremes (h : c.IsAt x c.path) (hin : c.In P) (hx : x.Canonical)
    (hq : x.contains (c.path ++ q) = true) :
    (∃ p, c.least? = some p) ∧ ∃ p, c.greatest? = some p := by
  obtain ⟨hlists, -⟩ := h.lists hin hx 0
  have hne : (c.readPaths 0).1 ≠ [] := List.ne_nil_of_mem ((hlists.mem_iff q).mpr hq)
  rw [h.least?_eq_head? hin hx 0, h.greatest?_eq_getLast? hin hx 0]
  exact ⟨⟨_, List.head?_eq_some_head hne⟩, _, List.getLast?_eq_some_getLast hne⟩

theorem IsAt.extremes (h : c.IsAt x c.path) (hin : c.In P) (hx : x.Canonical) : Extremes x c := by
  have hchild := h.canonical_stem hx
  have hnonempty : c.stem.child.isEmpty = false → c.stem.child.members.Nonempty := by
    intro hempty
    rw [Bool.eq_false_iff, Ne, hchild.isEmpty_iff] at hempty
    exact Set.nonempty_iff_ne_empty.mpr hempty
  refine ⟨?key_le, ?isEmpty_iff, ?of_isEmpty, ?first, ?last, fun q => h.isLeast hin hx,
    fun q => h.isGreatest hin hx, h.least?_eq_head? hin hx, h.greatest?_eq_getLast? hin hx,
    ?least_nil, ?greatest_nil⟩
  case key_le =>
    intro i e hf
    obtain ⟨rfl, -, p, k, hplaced⟩ := h
    exact Nat.le_of_lt (hplaced.key_lt hx hf)
  case isEmpty_iff => rw [hchild.isEmpty_iff, h.members_stem_eq_empty_iff hx]
  case of_isEmpty =>
    intro hempty
    rw [hchild.isEmpty_iff] at hempty
    obtain ⟨hter, hes⟩ := hchild.of_members_eq_empty hempty
    have hpaths : c.stem.child.paths = [] := by
      rw [paths_eq, hter, hes]
      rfl
    rw [least?, greatest?, hchild.least?_eq_head?, hchild.greatest?_eq_getLast?, hpaths]
    exact ⟨rfl, rfl⟩
  case first =>
    intro hempty
    obtain ⟨p, u, hwalk, hleast, -⟩ := hchild.exists_firstDescent (hnonempty hempty)
    exact ⟨p, u, hwalk, by rw [least?, hleast]; rfl⟩
  case last =>
    intro hempty
    obtain ⟨p, u, hwalk, hgreatest, -⟩ := hchild.exists_lastDescent (hnonempty hempty)
    exact ⟨p, u, hwalk, by rw [greatest?, hgreatest]; rfl⟩
  case least_nil =>
    constructor
    · intro hq
      have hmem : x.contains (c.path ++ []) = true := (h.isLeast hin hx hq).1
      rwa [List.append_nil] at hmem
    · intro hpath
      rw [← List.append_nil c.path] at hpath
      obtain ⟨⟨p, hp⟩, -⟩ := h.exists_extremes hin hx hpath
      -- nothing is less than the empty path
      obtain rfl : p = [] := List.le_nil.mp ((h.isLeast hin hx hp).2 hpath)
      exact hp
  case greatest_nil =>
    constructor
    · intro hq
      obtain ⟨hmem, hupper⟩ := h.isGreatest hin hx hq
      refine ⟨by rw [← List.append_nil c.path]; exact hmem, fun r hr => ?_⟩
      rw [Bool.eq_false_iff]
      exact fun hcontains => hr (List.le_nil.mp (hupper hcontains))
    · rintro ⟨hpath, hnone⟩
      rw [← List.append_nil c.path] at hpath
      obtain ⟨-, p, hp⟩ := h.exists_extremes hin hx hpath
      have hmem : x.contains (c.path ++ p) = true := (h.isGreatest hin hx hp).1
      obtain rfl : p = [] := by
        by_contra hne
        rw [hnone p hne] at hmem
        cases hmem
      exact hp

end Cursor

namespace Session

variable {hash : HashFunction} {σ : Session}

/-- Wherever its moves led a cursor, the extremal paths that it answers are those of the members that
continue its path. -/
theorem cursor_extremes (h : Reachable hash σ) (hc : CollisionFree hash σ.interned) {x : Trie}
    (hx : σ.Holds x) {c : Cursor} (hr : Cursor.Run x c) : Cursor.Extremes x c := by
  obtain ⟨P, hcan, hin, hat⟩ := exists_isAt h hc hx hr
  exact hat.extremes hin hcan

/-- Inside the first edge of the branching set, and at a member that no other one extends. -/
theorem cursor_extremes_branching :
    IsLeast {r | branchingSet.contains ([1] ++ r) = true} [2, 3] ∧
      IsGreatest {r | branchingSet.contains ([1] ++ r) = true} [2, 4, 5] ∧
      ∀ r, r ≠ [] → branchingSet.contains ([1, 2, 3] ++ r) = false := by
  have hall := fun {c} (hr : Cursor.Run branchingSet c) =>
    cursor_extremes (branching_reachable Blake3.hash) (branching_collisionFree _)
      (Or.inl branchingSet_mem) hr
  have hinside := hall run_insideEdge
  have hend := hall (run_insideEdge.move (.descend [2, 3]))
  have hpath : insideEdge.path = [1] := by decide +kernel
  have hpath' : (insideEdge.move (.descend [2, 3])).2.path = [1, 2, 3] := by decide +kernel
  have hleast := hinside.isLeast [2, 3] (by decide +kernel)
  have hgreatest := hinside.isGreatest [2, 4, 5] (by decide +kernel)
  have hnone := (hend.greatest?_eq_nil_iff.mp (by decide +kernel)).2
  rw [hpath] at hleast hgreatest
  rw [hpath'] at hnone
  exact ⟨hleast, hgreatest, hnone⟩

end Session

end ByteTrie
