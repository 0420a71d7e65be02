import ByteTrie.Cursor.Iterate
import ByteTrie.Proofs.Successor
import Mathlib

/-!
# Listings and lookups

Three ways to ask a trie for its members: a list of all paths, gathered node by node; a lookup, which
takes one edge at each node; and the count that every node carries.  The list has each member once, in
ascending order, and the other two agree with it.

    t.paths            the path of each member, ascending             (mem_paths_iff, pairwise_paths)
    t.contains k       iff  k is in the list                          (Canonical.contains_iff)
    t.containsPath k   iff  k is the beginning of a path in the list  (Canonical.containsPath_iff)
    t.count            is the length of the list                      (Canonical.length_paths)
-/

namespace ByteTrie

open Trie

/-- Two ascending lists of the same paths are one list. -/
theorem Path.eq_of_pairwise_of_mem_iff {ps qs : List Path} (hp : ps.Pairwise (· < ·))
    (hq : qs.Pairwise (· < ·)) (h : ∀ p, p ∈ ps ↔ p ∈ qs) : ps = qs := by
  have antisymm : Std.Antisymm (α := Path) (· < ·) :=
    ⟨fun p q hpq hqp => absurd hqp (List.lt_asymm hpq)⟩
  have irrefl : Std.Irrefl (α := Path) (· < ·) := ⟨fun p => List.lt_irrefl p⟩
  exact hp.eq_of_mem_iff hq h

namespace Trie

/-! ## The list of all paths -/

theorem edgePathsFrom_eq (p : Path) (es : List (Edge Trie)) :
    edgePathsFrom p es = es.flatMap fun e => pathsFrom (p ++ e.key) e.child := by
  induction es with
  | nil => rfl
  | cons e es ih =>
    obtain ⟨b, k, c⟩ := e
    rw [edgePathsFrom, ih]
    rfl

theorem pathsFrom_eq (p : Path) (t : Trie) : pathsFrom p t =
    (if t.terminal then [p] else []) ++ t.edges.flatMap fun e => pathsFrom (p ++ e.key) e.child := by
  cases t with
  | node i b n m es =>
    rw [pathsFrom, edgePathsFrom_eq]
    rfl

/-- What is in front of all paths is put in front of each. -/
theorem pathsFrom_eq_map (p : Path) (t : Trie) : pathsFrom p t = t.paths.map (p ++ ·) := by
  induction t using nodeInduction generalizing p with
  | node t ih =>
    have hchildren : ∀ q : Path, (t.edges.flatMap fun e => pathsFrom (q ++ e.key) e.child) =
        t.edges.flatMap fun e => e.child.paths.map (q ++ e.key ++ ·) := fun q =>
      List.flatMap_congr fun e he => ih e he (q ++ e.key)
    rw [paths, pathsFrom_eq, pathsFrom_eq [] t, hchildren, hchildren]
    by_cases ht : t.terminal = true <;> simp [ht, List.map_flatMap, Function.comp_def]

theorem paths_eq (t : Trie) : t.paths =
    (if t.terminal then [[]] else []) ++ t.edges.flatMap fun e => e.child.paths.map (e.key ++ ·) := by
  rw [paths, pathsFrom_eq]
  congr 1
  refine List.flatMap_congr fun e _ => ?_
  rw [pathsFrom_eq_map]
  rfl

theorem mem_paths_iff (t : Trie) (p : Path) : p ∈ t.paths ↔ p ∈ t := by
  induction t using nodeInduction generalizing p with
  | node t ih =>
    rw [paths_eq, List.mem_append, List.mem_flatMap, mem_iff]
    refine or_congr ?_ (exists_congr fun e => and_congr_right fun he => ?_)
    · by_cases ht : t.terminal = true <;> simp [ht]
    · rw [List.mem_map]
      refine exists_congr fun q => ?_
      rw [ih e he q, eq_comm]

/-- The members along ascending edges ascend, as those along a later edge part from those along an
earlier one by a greater byte. -/
theorem pairwise_flatMap_paths {es : List (Edge Trie)}
    (hasc : es.Pairwise fun e f => e.first < f.first)
    (hpaths : ∀ e ∈ es, e.child.paths.Pairwise (· < ·)) :
    (es.flatMap fun e => e.child.paths.map (e.key ++ ·)).Pairwise (· < ·) := by
  induction es with
  | nil => exact List.Pairwise.nil
  | cons e es ih =>
    obtain ⟨hlt, hasc⟩ := List.pairwise_cons.mp hasc
    rw [List.flatMap_cons, List.pairwise_append]
    refine ⟨?_, ih hasc fun f hf => hpaths f (List.mem_cons_of_mem e hf), ?_⟩
    · rw [List.pairwise_map]
      exact (hpaths e List.mem_cons_self).imp fun h => List.append_left_lt h
    · intro p hp q hq
      obtain ⟨r, -, rfl⟩ := List.mem_map.mp hp
      obtain ⟨f, hf, hq⟩ := List.mem_flatMap.mp hq
      obtain ⟨r', -, rfl⟩ := List.mem_map.mp hq
      have hbefore : Path.Before e.key f.key := .head (hlt f hf)
      exact (Path.lt_iff _ _).mpr (Or.inr (hbefore.append r r'))

namespace Canonical

variable {t : Trie}

theorem pairwise_paths (h : t.Canonical) : t.paths.Pairwise (· < ·) := by
  induction t using nodeInduction with
  | node t ih =>
    rw [paths_eq, List.pairwise_append]
    refine ⟨?_, pairwise_flatMap_paths h.tidy.ascending fun e he => ih e he (h.child he), ?_⟩
    · by_cases ht : t.terminal = true <;> simp [ht]
    · intro p hp q hq
      obtain ⟨e, -, hq⟩ := List.mem_flatMap.mp hq
      obtain ⟨r, -, rfl⟩ := List.mem_map.mp hq
      by_cases ht : t.terminal = true
      · rw [if_pos ht, List.mem_singleton] at hp
        rw [hp]
        exact List.nil_lt_cons e.first (e.rest ++ r)
      · rw [if_neg ht] at hp
        exact absurd hp List.not_mem_nil

/-- The count of a node, made when the node was, is the length of its list. -/
theorem length_paths (h : t.Canonical) : t.paths.length = t.count := by
  induction t using nodeInduction with
  | node t ih =>
    have hsum : (t.edges.map fun e => (e.child.paths.map (e.key ++ ·)).length) =
        t.edges.map fun e => e.child.count := by
      refine List.map_congr_left fun e he => ?_
      rw [List.length_map]
      exact ih e he (h.child he)
    rw [paths_eq, List.length_append, List.length_flatMap, hsum, h.tidy.count_eq]
    congr 1
    by_cases ht : t.terminal = true <;> simp [ht]

theorem isEmpty_iff_paths_eq_nil (h : t.Canonical) : t.isEmpty = true ↔ t.paths = [] := by
  rw [isEmpty, beq_iff_eq, ← h.length_paths, List.length_eq_zero_iff]

end Canonical

/-! ## Lookups -/

variable {t : Trie} {e : Edge Trie} {es : List (Edge Trie)} {b : UInt8} {p : Path}

theorem seekEdges_eq_none (h : ∀ e ∈ es, e.first ≠ b) (p : Path) : seekEdges es b p = none := by
  induction es with
  | nil => rfl
  | cons e es ih =>
    obtain ⟨c, k, u⟩ := e
    have hne : b ≠ c := (h _ List.mem_cons_self).symm
    rw [seekEdges, if_neg hne]
    exact ih fun f hf => h f (List.mem_cons_of_mem _ hf)

theorem seekEdges_eq_of_mem (hasc : es.Pairwise fun e f => e.first < f.first) (he : e ∈ es)
    (p : Path) : seekEdges es e.first p = seekEdges [e] e.first p := by
  induction es with
  | nil => exact absurd he List.not_mem_nil
  | cons f es ih =>
    obtain ⟨hlt, hrest⟩ := List.pairwise_cons.mp hasc
    obtain ⟨c, k, u⟩ := f
    rcases List.mem_cons.mp he with rfl | he
    · rw [seekEdges, seekEdges, if_pos rfl, if_pos rfl]
    · have hne : e.first ≠ c := (UInt8.ne_of_lt (hlt e he)).symm
      rw [seekEdges, if_neg hne]
      exact ih hrest he

/-- At each node a lookup goes on along the edge that mask and rank find. -/
theorem Canonical.seek_cons (h : t.Canonical) (b : UInt8) (p : Path) :
    t.seek (b :: p) = (t.edgeAt? b).bind fun a => seekEdges [a.2] b p := by
  have hseek : t.seek (b :: p) = seekEdges t.edges b p := by
    cases t with
    | node => rw [seek]; rfl
  rw [hseek]
  cases hedge : t.edgeAt? b with
  | none =>
    refine seekEdges_eq_none (fun e he hfirst => ?_) p
    obtain ⟨i, hi⟩ := List.mem_iff_getElem?.mp he
    rw [h.edgeAt?_eq_some_iff.mpr ⟨hi, hfirst⟩] at hedge
    cases hedge
  | some a =>
    obtain ⟨i, e⟩ := a
    obtain ⟨hi, rfl⟩ := h.edgeAt?_eq_some_iff.mp hedge
    exact seekEdges_eq_of_mem h.tidy.ascending (List.mem_of_getElem? hi) p

/-- What a lookup reaches is a node of the trie, and inside an edge one with members. -/
theorem Canonical.of_seek_eq_some (h : t.Canonical) {s : Stem} (hs : t.seek p = some s) :
    s.child.Canonical ∧ (s.key ≠ [] → ∃ q, q ∈ s.child) := by
  refine (seek.mutual_induct
    (fun t p => t.Canonical → t.seek p = some s →
      s.child.Canonical ∧ (s.key ≠ [] → ∃ q, q ∈ s.child))
    (fun es b p => (∀ e ∈ es, e.child.Canonical ∧ ∃ q, q ∈ e.child) → seekEdges es b p = some s →
      s.child.Canonical ∧ (s.key ≠ [] → ∃ q, q ∈ s.child))
    ?_ ?_ ?_ ?_ ?_ ?_ ?_).1 t p h hs
  case refine_1 =>
    intro t h hs
    rw [seek] at hs
    cases hs
    exact ⟨h, fun hk => absurd rfl hk⟩
  case refine_2 =>
    intro i t n m es b p ih h hs
    rw [seek] at hs
    exact ih (fun e he => ⟨h.child he, h.inhabited _ .root e he⟩) hs
  case refine_3 =>
    intro b p _ hs
    cases hs
  case refine_4 =>
    intro k t es b p n hn ih hes hs
    rw [seekEdges, if_pos rfl, if_pos hn] at hs
    exact ih (hes _ List.mem_cons_self).1 hs
  case refine_5 =>
    intro k t es b p n hn hn' hes hs
    rw [seekEdges, if_pos rfl, if_neg hn, if_pos hn'] at hs
    cases hs
    exact (hes _ List.mem_cons_self).imp_right fun hq _ => hq
  case refine_6 =>
    intro k t es b p n hn hn' hes hs
    rw [seekEdges, if_pos rfl, if_neg hn, if_neg hn'] at hs
    cases hs
  case refine_7 =>
    intro c k t es b p hb ih hes hs
    rw [seekEdges, if_neg hb] at hs
    exact ih (fun e he => hes e (List.mem_cons_of_mem _ he)) hs

theorem Canonical.containsPath_iff (h : t.Canonical) (k : Path) :
    t.containsPath k = true ↔ (t.membersAfter k).Nonempty := by
  rw [show t.membersAfter k = reached (t.seek k) from (reached_seek h k).symm, containsPath]
  cases hs : t.seek k with
  | none => simp [reached]
  | some s =>
    obtain ⟨hc, hinside⟩ := h.of_seek_eq_some hs
    obtain ⟨l, u⟩ := s
    rw [reached]
    cases l with
    | nil =>
      have hempty : u.isEmpty = true ↔ u.members = ∅ := hc.isEmpty_iff
      rw [Stem.members_nil, Set.nonempty_iff_ne_empty, Ne, ← hempty]
      simp
    | cons b l =>
      obtain ⟨q, hq⟩ := hinside (List.cons_ne_nil b l)
      simp only [List.isEmpty_cons, Bool.not_false, Bool.true_or, true_iff]
      exact ⟨b :: l ++ q, q, hq, rfl⟩

/-- A cursor is opened at the root, and at the beginnings of members. -/
theorem Canonical.isSome_cursorAt?_iff (h : t.Canonical) (k : Path) :
    (t.cursorAt? k).isSome = true ↔ k = [] ∨ t.containsPath k = true := by
  rw [h.containsPath_iff, cursorAt?]
  by_cases hk : k = [] ∨ (t.membersAfter k).Nonempty
  · obtain ⟨d, hd, -⟩ := (Cursor.isAt_ofTrie t).descend_of_nonempty h hk
    rw [hd]
    exact ⟨fun _ => hk, fun _ => rfl⟩
  · rw [(Cursor.isAt_ofTrie t).descend_of_empty h hk]
    exact ⟨fun hs => absurd hs Bool.false_ne_true, fun hk' => absurd hk' hk⟩

end Trie

namespace Session

variable {hash : HashFunction} {σ : Session}

/-- The list of all paths of a set, its lookups and its count tell the same of it. -/
theorem paths_agree (h : Reachable hash σ) (hc : CollisionFree hash σ.interned) {x : Trie}
    (hx : x ∈ σ.sets) :
    x.paths.Pairwise (· < ·) ∧
      (∀ k, x.contains k = true ↔ k ∈ x.paths) ∧
      (∀ k, x.containsPath k = true ↔ ∃ p ∈ x.paths, k <+: p) ∧
      x.count = x.paths.length ∧
      (x.isEmpty = true ↔ x.paths = []) ∧
      (∀ k, (x.cursorAt? k).isSome = true ↔ k = [] ∨ x.containsPath k = true) ∧
      ∀ u, IsNode u x → ∀ b k, u.seek (b :: k) = (u.edgeAt? b).bind fun a => seekEdges [a.2] b k := by
  have hcan := h.canonical hc hx
  refine ⟨hcan.pairwise_paths, fun k => ?_, fun k => ?_, hcan.length_paths.symm,
    hcan.isEmpty_iff_paths_eq_nil, hcan.isSome_cursorAt?_iff,
    fun u hu => (hcan.node hu).seek_cons⟩
  · rw [hcan.contains_iff, mem_paths_iff]
  · rw [hcan.containsPath_iff]
    constructor
    · rintro ⟨q, hq⟩
      exact ⟨k ++ q, (mem_paths_iff x _).mpr hq, List.prefix_append k q⟩
    · rintro ⟨_, hp, q, rfl⟩
      exact ⟨q, (mem_paths_iff x _).mp hp⟩

/-- The list of the branching set, a path that ends inside its first edge and one that parts from
it there. -/
theorem paths_agree_branching :
    branchingSet.paths = [[1, 2, 3], [1, 2, 4, 5], [6]] ∧ branchingSet.count = 3 ∧
      branchingSet.containsPath [1] = true ∧ branchingSet.contains [1] = false ∧
      (branchingSet.cursorAt? [1, 3]).isSome = false := by
  have hpaths : branchingSet.paths = [[1, 2, 3], [1, 2, 4, 5], [6]] := by decide +kernel
  obtain ⟨-, hmem, hbegins, hcount, -, hcursor, -⟩ := paths_agree
    (branching_reachable Blake3.hash) (branching_collisionFree Blake3.hash) branchingSet_mem
  rw [hpaths] at hmem hbegins hcount
  refine ⟨hpaths, hcount, (hbegins [1]).mpr ⟨[1, 2, 3], by decide, by decide⟩, ?_, ?_⟩
  · rw [← Bool.not_eq_true, hmem]
    decide
  · rw [← Bool.not_eq_true, hcursor, hbegins]
    decide

end Session

end ByteTrie
