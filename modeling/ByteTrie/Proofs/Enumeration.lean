import ByteTrie.Proofs.Listing
import ByteTrie.Proofs.Restriction
import Mathlib

/-!
# Enumerations below a cursor

The paths below the focus of a cursor can be had in two ways: by moves of another cursor from one
member to the next, and as the list of the set that is cut out there.  Both give the same list at
every place, at a node and inside an edge, whatever the ids of the nodes that are made for it.

    Drains t it ps        it gives the paths ps by a cursor on t, and then for ever none
    c.Enumerates x ps n   all enumerations below c, which is on x, give ps
-/

namespace ByteTrie

open Trie Pool Cursor

/-! ## Iterators -/

namespace PathIter

/-- Asked for the next path again and again, an iterator gives these paths, each time with its cursor
on a place of `t`, and from then on none. -/
inductive Drains (t : Trie) : PathIter → List Path → Prop
  | stop {it it' : PathIter} (h : it.next = (none, it')) (hs : it'.next = (none, it')) :
      Drains t it []
  | step {it : PathIter} {c : Cursor} {ps : List Path}
      (h : it.next = (some c.path, ⟨some c, true⟩)) (hroot : c.root = t)
      (hs : Drains t ⟨some c, true⟩ ps) : Drains t it (c.path :: ps)

variable {t : Trie} {it : PathIter} {ps : List Path} {c : Cursor} {q : Path}

theorem next_of_some {d : Cursor} (h : c.nextMember? = some d) :
    next ⟨some c, true⟩ = (some d.path, ⟨some d, true⟩) := by
  simp [next, h]

theorem next_of_none (h : c.nextMember? = none) : next ⟨some c, true⟩ = (none, ⟨none, true⟩) := by
  simp [next, h]

/-- The root is asked for before the first move, and only then. -/
theorem next_unstarted (c : Cursor) : next ⟨some c, false⟩ =
    if c.isMember then (some c.path, ⟨some c, true⟩) else next ⟨some c, true⟩ := by
  by_cases h : c.isMember = true <;> simp [next, h]

/-- An iterator that has started gives what the moves of its cursor lead to. -/
theorem drains_of_visits (h : c.IsAt t q) (ht : t.Canonical) (hv : Visits c ps) :
    Drains t ⟨some c, true⟩ ps := by
  induction hv generalizing q with
  | @stop c hmove =>
    cases hnext : c.nextMember? with
    | none => exact .stop (next_of_none hnext) rfl
    | some d =>
      have hmove' : c.move .nextMember = (true, d) := by
        show c.reset.orStay c.nextMember? = _
        rw [hnext]
        rfl
      rw [hmove] at hmove'
      cases hmove'
  | @step c d ps hmove _ ih =>
    have hnext : c.nextMember? = some d := by
      have hmove' : c.reset.orStay c.nextMember? = (true, d) := hmove
      cases hnext : c.nextMember? with
      | none =>
        rw [hnext] at hmove'
        cases hmove'
      | some d' =>
        rw [hnext] at hmove'
        cases hmove'
        rfl
    obtain ⟨r, hd⟩ := h.nextMember ht hnext
    exact .step (next_of_some hnext) hd.root_eq (ih hd)

/-- An iterator on a trie gives the list of its paths. -/
theorem drains_ofTrie (ht : t.Canonical) : Drains t (ofTrie t) t.paths := by
  have hat := isAt_ofTrie t
  obtain ⟨ps, hvisits, hahead⟩ := hat.exists_visits ht
  have hrest := drains_of_visits hat ht hvisits
  have hmem : ∀ k, k ∈ ps ↔ k ∈ t ∧ k ≠ [] := fun k => by
    rw [hahead.mem_iff, ht.contains_iff]
    cases k <;> simp
  cases hter : t.terminal with
  | true =>
    have hnext : next (ofTrie t) = (some (Cursor.ofTrie t).path, ⟨some (Cursor.ofTrie t), true⟩) := by
      rw [ofTrie, next_unstarted, if_pos]
      exact hter
    have hpaths : t.paths = [] :: ps := by
      refine Path.eq_of_pairwise_of_mem_iff ht.pairwise_paths ?_ fun k => ?_
      · refine List.pairwise_cons.mpr ⟨fun k hk => ?_, hahead.ascending⟩
        exact ((hahead.mem_iff k).mp hk).2
      · rw [mem_paths_iff, List.mem_cons, hmem]
        by_cases hk : k = []
        · simp [hk, hter]
        · simp [hk]
    rw [hpaths]
    exact .step hnext rfl hrest
  | false =>
    have hnext : next (ofTrie t) = next ⟨some (Cursor.ofTrie t), true⟩ := by
      rw [ofTrie, next_unstarted, if_neg]
      rw [Bool.not_eq_true]
      exact hter
    have hpaths : t.paths = ps := by
      refine Path.eq_of_pairwise_of_mem_iff ht.pairwise_paths hahead.ascending fun k => ?_
      rw [mem_paths_iff, hmem]
      by_cases hk : k = []
      · simp [hk, hter]
      · simp [hk]
    rw [hpaths]
    cases hrest with
    | stop h hs => exact .stop (hnext.trans h) hs
    | step h hroot hs => exact .step (hnext.trans h) hroot hs

theorem Drains.drainOnto_eq (h : Drains t it ps) {n : Nat} (hn : ps.length ≤ n)
    (given : List Path) : drainOnto n it given = ps.reverse ++ given := by
  induction h generalizing n given with
  | stop hnext _ =>
    cases n with
    | zero => rfl
    | succ n =>
      rw [drainOnto, hnext]
      rfl
  | @step it c ps hnext _ _ ih =>
    cases n with
    | zero => exact absurd hn (Nat.not_succ_le_zero _)
    | succ n =>
      rw [drainOnto, hnext]
      dsimp only
      rw [ih (Nat.le_of_succ_le_succ hn), List.reverse_cons, List.append_assoc]
      rfl

theorem drain_ofTrie (ht : t.Canonical) : (ofTrie t).drain = t.paths := by
  have hlen : t.paths.length ≤ t.count + 1 := by
    rw [ht.length_paths]
    omega
  show (drainOnto (t.count + 1) (ofTrie t) []).reverse = t.paths
  rw [(drains_ofTrie ht).drainOnto_eq hlen, List.append_nil, List.reverse_reverse]

end PathIter

/-! ## The set below the focus -/

namespace Trie

open Fresh

variable {s t : Trie}

theorem paths_eq_of_members_eq (hs : s.Canonical) (ht : t.Canonical) (h : s.members = t.members) :
    s.paths = t.paths := by
  refine Path.eq_of_pairwise_of_mem_iff hs.pairwise_paths ht.pairwise_paths fun p => ?_
  rw [mem_paths_iff, mem_paths_iff]
  exact Set.ext_iff.mp h p

theorem Canonical.relabel {i : Nat} {b : Bool} {es : List (Edge Trie)}
    (h : (label i b es).Canonical) (j : Nat) : (label j b es).Canonical := by
  refine canonical_of_tidy fun u hu => ?_
  cases hu with
  | root => exact ⟨h.tidy.ascending, h.tidy.inner, rfl, rfl⟩
  | inside he hu => exact (h.node (.inside he hu)).tidy

theorem members_relabel (i j : Nat) (b : Bool) (es : List (Edge Trie)) :
    (label i b es).members = (label j b es).members := by
  ext p
  rw [mem_members, mem_members, mem_iff, mem_iff]
  rfl

/-- The id of a node that is made for a stem is all that depends on the ids given out before. -/
theorem toTrie_eq_or_exists_label (s : Stem) (m n : Nat) : (s.toTrie m).1 = (s.toTrie n).1 ∨
    ∃ es, (s.toTrie m).1 = label m false es ∧ (s.toTrie n).1 = label n false es := by
  obtain ⟨k, t⟩ := s
  cases k with
  | nil => exact Or.inl rfl
  | cons b k =>
    rw [Stem.toTrie]
    cases Edge.over b k t with
    | none => exact Or.inl rfl
    | some e => exact Or.inr ⟨[e], rfl, rfl⟩

theorem grows_toTrie (s : Stem) : Grows s.toTrie := by
  obtain ⟨k, t⟩ := s
  cases k with
  | nil => exact grows_pure t
  | cons b k =>
    rw [Stem.toTrie]
    exact grows_make false _

end Trie

namespace Cursor

open Fresh

variable {P : Pool} {t : Trie} {c : Cursor} {q : Path}

theorem Run.mem (h : Run t c) (ht : t ∈ P) : c.In P := by
  induction h with
  | opened => exact in_ofTrie ht
  | move _ m ih => exact ih.move m

theorem IsAt.members_stem (h : c.IsAt t q) (ht : t.Canonical) :
    c.stem.members = t.membersAfter q := by
  obtain ⟨rfl, hpath, p, k, h⟩ := h
  rw [← hpath, h.path_eq]
  exact h.members_stem ht

/-- The set below the focus has the members behind the path of the cursor. -/
theorem IsAt.subtrie (h : c.IsAt t q) (hc : c.In P) (ht : t.Canonical) (n : Nat) :
    (c.subtrie n).1.Canonical ∧ (c.subtrie n).1.members = t.membersAfter q := by
  obtain ⟨Q, -, -, hmem, hmembers⟩ := makes_subtrie hc
  rw [h.members_stem ht] at hmembers
  have hcan := canonical hmem
  rcases toTrie_eq_or_exists_label c.stem P.next n with heq | ⟨es, hP, hn⟩
  · have hsub : (c.subtrie n).1 = (c.subtrie P.next).1 := heq.symm
    rw [hsub]
    exact ⟨hcan, hmembers⟩
  · have hsubP : (c.subtrie P.next).1 = label P.next false es := hP
    have hsub : (c.subtrie n).1 = label n false es := hn
    rw [hsubP] at hcan hmembers
    rw [hsub]
    exact ⟨hcan.relabel n, (members_relabel n P.next false es).trans hmembers⟩

theorem IsAt.readPaths_eq_paths (h : c.IsAt t q) (hc : c.In P) (ht : t.Canonical) (n : Nat) :
    (c.readPaths n).1 = (c.subtrie n).1.paths :=
  PathIter.drain_ofTrie (h.subtrie hc ht n).1

/-! ## All enumerations -/

/-- What the enumerations below `c` give where `n` is the next unused id: they all give `ps`.  The
cursors that they move are on the set below the focus, or on the set of `c` itself where its focus is
the root, and no id is given out again, so all nodes that there are stay as they are. -/
structure Enumerates (x : Trie) (c : Cursor) (ps : List Path) (n : Nat) : Prop where
  readPaths_eq : (c.readPaths n).1 = ps
  drains_iter : PathIter.Drains (c.subtrie n).1 (c.iter n).1 ps
  drains_intoIter :
    PathIter.Drains (if c.atRoot then x else (c.subtrie n).1) (c.intoIter n).1 ps
  paths_subtrie : (c.subtrie n).1.paths = ps
  drains_subtrie : PathIter.Drains (c.subtrie n).1 (PathIter.ofTrie (c.subtrie n).1) ps
  grows : Grows c.readPaths ∧ Grows c.iter ∧ Grows c.intoIter ∧ Grows c.subtrie

theorem grows_iter (c : Cursor) : Grows c.iter := (grows_toTrie c.stem).bind_pure _

theorem grows_intoIter (c : Cursor) : Grows c.intoIter := by
  rw [intoIter]
  by_cases h : c.atRoot = true
  · rw [if_pos h]
    exact grows_pure _
  · rw [if_neg h]
    exact grows_iter c

theorem IsAt.eq_ofTrie_of_atRoot (h : c.IsAt t q) (hroot : c.atRoot = true) : c = ofTrie t := by
  obtain rfl : q = [] := by
    rw [← h.path_eq, path, Array.toList_eq_nil_iff]
    exact Array.isEmpty_iff.mp hroot
  exact h.eq_ofTrie

theorem IsAt.enumerates (h : c.IsAt t q) (hc : c.In P) (ht : t.Canonical) (n : Nat) :
    c.Enumerates t (c.subtrie 0).1.paths n := by
  obtain ⟨hcan, hmembers⟩ := h.subtrie hc ht n
  obtain ⟨hcan₀, hmembers₀⟩ := h.subtrie hc ht 0
  have hpaths : (c.subtrie n).1.paths = (c.subtrie 0).1.paths :=
    paths_eq_of_members_eq hcan hcan₀ (hmembers.trans hmembers₀.symm)
  have hdrains := PathIter.drains_ofTrie hcan
  rw [hpaths] at hdrains
  refine ⟨?_, hdrains, ?_, hpaths, hdrains, ?_⟩
  · exact (PathIter.drain_ofTrie hcan).trans hpaths
  · rw [intoIter]
    by_cases hroot : c.atRoot = true
    · rw [if_pos hroot, if_pos hroot]
      -- at the root the cursor itself goes on, on its own snapshot
      obtain rfl := h.eq_ofTrie_of_atRoot hroot
      have hsame : (ofTrie t).subtrie 0 = (t, 0) := rfl
      rw [hsame]
      exact PathIter.drains_ofTrie ht
    · rw [if_neg hroot, if_neg hroot]
      exact hdrains
  · exact ⟨(grows_iter c).bind_pure _, grows_iter c, grows_intoIter c, grows_toTrie c.stem⟩

end Cursor

namespace Session

variable {hash : HashFunction} {σ : Session}

/-- At every place that moves lead to, all enumerations give one list: the paths behind that of the
cursor, each once and in ascending order, whenever and however often they are asked for it. -/
theorem enumerations_agree (h : Reachable hash σ) (hc : CollisionFree hash σ.interned) {x : Trie}
    (hx : x ∈ σ.sets) {c : Cursor} (hr : Cursor.Run x c) :
    ∃ ps : List Path, ps.Pairwise (· < ·) ∧
      (∀ q, q ∈ ps ↔ x.contains (c.path ++ q) = true) ∧
      (x.contains c.path = true → ps.head? = some []) ∧
      ∀ n, c.Enumerates x ps n := by
  obtain ⟨P, hP⟩ := h.exists_pool hc
  have hxP := hP.sets x hx
  have hcan := canonical hxP
  have hat := hr.isAt hcan
  have hin := hr.mem hxP
  obtain ⟨hsub, hmembers⟩ := hat.subtrie hin hcan 0
  have hmem : ∀ q, q ∈ (c.subtrie 0).1.paths ↔ x.contains (c.path ++ q) = true := fun q => by
    rw [mem_paths_iff, hcan.contains_iff]
    exact Set.ext_iff.mp hmembers q
  refine ⟨_, hsub.pairwise_paths, hmem, fun hp => ?_, hat.enumerates hin hcan⟩
  have hnil : [] ∈ (c.subtrie 0).1.paths := (hmem []).mpr (by rwa [List.append_nil])
  exact beq_iff_eq.mp ((Path.nil_mem_iff_head hsub.pairwise_paths).mp hnil)

/-- From inside the first edge of the branching set. -/
theorem enumerations_agree_branching :
    insideEdge.path = [1] ∧ (insideEdge.readPaths 7).1 = [[2, 3], [2, 4, 5]] ∧
      PathIter.Drains (insideEdge.subtrie 7).1 (insideEdge.intoIter 7).1 [[2, 3], [2, 4, 5]] := by
  obtain ⟨ps, -, -, -, hall⟩ := enumerations_agree (branching_reachable Blake3.hash)
    (branching_collisionFree Blake3.hash) branchingSet_mem run_insideEdge
  have hread : (insideEdge.readPaths 7).1 = [[2, 3], [2, 4, 5]] := by decide +kernel
  have hps : ps = [[2, 3], [2, 4, 5]] := (hall 7).readPaths_eq.symm.trans hread
  have hroot : ¬ insideEdge.atRoot = true := by decide +kernel
  have hdrains := (hall 7).drains_intoIter
  rw [if_neg hroot, hps] at hdrains
  exact ⟨by decide +kernel, hread, hdrains⟩

end Session

end ByteTrie
