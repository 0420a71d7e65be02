import ByteTrie.Proofs.Moves
import Mathlib

/-!
# What a cursor shows

Whatever moves led to it, a cursor on the set `x` shows what `x` has at its path, and no more: a set
and a path are all that can be told from it.  The two stacks stand for one row of nodes from the root,
and the bytes behind the last of them are a proper part of the key of an edge, so the next byte of that
key is there to be read, and going up finds an ancestor for every start that it takes away.
-/

namespace ByteTrie

open Trie

namespace Cursor

/-- What the observers of `c` answer, for the members of `x`. -/
structure Shows (x : Trie) (c : Cursor) : Prop where
  path_hasPrefix : c.path = [] ∨ x.HasPrefix c.path
  length_starts : c.starts.length = c.ancestors.length
  exists_node : ∃ p k, c.path = p ++ k ∧ Chain x c.ancestors c.starts p c.node ∧
    (k = [] ∨ ∃ e ∈ c.node.edges, k <+: e.key ∧ k ≠ e.key)
  key_lt : ∀ i e, c.focusEdge? = some (i, e) → c.keyLength < e.key.length
  ascent_ends : ∀ n, ∃ d, c.ascendTo? n = some d
  children : x.Continues c.path c.children
  childMask_iff : ∀ b, c.childMask.contains b = true ↔ x.HasPrefix (c.path ++ [b])
  childCount_eq : c.childCount = c.children.length
  isMember_eq : c.isMember = x.contains c.path
  count_eq : (c.count : ℕ∞) = {q | c.path <+: q ∧ x.contains q = true}.encard

variable {t : Trie} {c : Cursor} {p k : Path}

theorem Placed.key_lt (h : c.Placed p k) (hc : c.root.Canonical) {i : Nat} {e : Edge Trie}
    (hf : c.focusEdge? = some (i, e)) : c.keyLength < e.key.length := by
  by_cases hk : k = []
  · rw [h.focusEdge?_eq_none hk] at hf
    cases hf
  · obtain ⟨j, f, hfocus, -, ⟨l, hl⟩, hne⟩ := h.exists_focusEdge hc hk
    rw [hfocus] at hf
    cases hf
    have hlpos : 0 < l.length := List.length_pos_iff.mpr fun hnil =>
      hne (by rw [← hl, hnil, List.append_nil])
    rw [h.keyLength_eq, ← hl, List.length_append]
    omega

/-- At a node there are as many children as edges, inside an edge there is one. -/
theorem Placed.childCount_eq (h : c.Placed p k) (hc : c.root.Canonical) :
    c.childCount = c.children.length := by
  rw [childCount, h.keyLength_eq, children, childMask]
  by_cases hk : k = []
  · have htidy := (h.canonical_node hc).tidy
    rw [h.focusEdge?_eq_none hk, if_pos (List.length_eq_zero_iff.mpr hk)]
    dsimp only
    rw [htidy.mask_eq, ByteMask.toList_ofList (List.pairwise_map.mpr htidy.ascending),
      List.length_map]
  · obtain ⟨i, e, hfocus, -⟩ := h.exists_focusEdge hc hk
    rw [hfocus, if_neg (fun hlen => hk (List.length_eq_zero_iff.mp hlen))]
    dsimp only
    rw [ByteMask.singleton_eq_ofList, ByteMask.toList_ofList (List.pairwise_singleton _ _),
      List.length_singleton]

theorem Placed.isMember_eq (h : c.Placed p k) (hc : c.root.Canonical) :
    c.isMember = c.root.contains (p ++ k) := by
  have hstem := Set.ext_iff.mp (h.members_stem hc) []
  rw [mem_membersAfter, List.append_nil, ← hc.contains_iff, Stem.nil_mem_iff] at hstem
  rw [Bool.eq_iff_iff, ← hstem, isMember, h.keyLength_eq, stem]
  by_cases hk : k = []
  · rw [h.focusEdge?_eq_none hk, hk]
    rfl
  · obtain ⟨i, e, hfocus, -, ⟨l, hl⟩, hne⟩ := h.exists_focusEdge hc hk
    have hl' : l ≠ [] := fun hnil => hne (by rw [← hl, hnil, List.append_nil])
    rw [hfocus]
    dsimp only
    rw [h.keyLength_eq, ← hl, List.drop_left]
    simp [hk, hl', Stem.isMember]

theorem Placed.canonical_stem (h : c.Placed p k) (hc : c.root.Canonical) :
    c.stem.child.Canonical := by
  have hnode := h.canonical_node hc
  unfold stem
  split
  · next i e hfocus => exact hnode.child (mem_edges_of_focusEdge? hfocus)
  · exact hnode

/-- The paths below the focus, with the path of the cursor in front, are the members it counts. -/
theorem Placed.count_eq (h : c.Placed p k) (hc : c.root.Canonical) :
    (c.count : ℕ∞) = {q | p ++ k <+: q ∧ c.root.contains q = true}.encard := by
  have inj : Function.Injective (p ++ k ++ · : Path → Path) := fun _ _ => List.append_cancel_left
  have himage : {q | p ++ k <+: q ∧ c.root.contains q = true} =
      (p ++ k ++ ·) '' c.stem.members := by
    ext q
    rw [h.members_stem hc, Set.mem_ofPred_eq, Set.mem_image]
    constructor
    · rintro ⟨⟨r, rfl⟩, hq⟩
      exact ⟨r, (hc.contains_iff _).mp hq, rfl⟩
    · rintro ⟨r, hr, rfl⟩
      exact ⟨List.prefix_append _ r, (hc.contains_iff _).mpr hr⟩
  rw [himage, inj.encard_image, Stem.encard_members, ← (h.canonical_stem hc).count_eq_encard]
  rfl

theorem IsAt.shows (h : c.IsAt t c.path) (ht : t.Canonical) : Shows t c where
  path_hasPrefix := by
    rw [or_iff_not_imp_left, ht.hasPrefix_iff]
    exact h.nonempty ht
  length_starts := by
    obtain ⟨rfl, -, p, k, h⟩ := h
    exact h.chain.length_eq
  exists_node := by
    obtain ⟨rfl, -, p, k, h⟩ := h
    exact ⟨p, k, h.path_eq, h.chain, h.inside⟩
  key_lt i e hf := by
    obtain ⟨rfl, -, p, k, h⟩ := h
    exact h.key_lt ht hf
  ascent_ends n := by
    obtain ⟨d, hd, -⟩ := h.exists_ascendTo n
    exact ⟨d, hd⟩
  children := h.continues ht
  childMask_iff := h.childMask_contains_iff ht
  childCount_eq := by
    obtain ⟨rfl, -, p, k, h⟩ := h
    exact h.childCount_eq ht
  isMember_eq := by
    obtain ⟨rfl, -, p, k, h⟩ := h
    exact (h.isMember_eq ht).trans (congrArg _ h.path_eq.symm)
  count_eq := by
    obtain ⟨rfl, -, p, k, h⟩ := h
    rw [h.path_eq]
    exact h.count_eq ht

end Cursor

namespace Session

variable {hash : HashFunction} {σ : Session}

/-- After whatever moves, a cursor opened on a set of a session shows what the set has at its path. -/
theorem cursor_shows (h : Reachable hash σ) (hc : CollisionFree hash σ.interned) {x : Trie}
    (hx : x ∈ σ.sets) {c : Cursor} (hr : Cursor.Run x c) : Cursor.Shows x c :=
  (hr.isAt (h.canonical hc hx)).shows (h.canonical hc hx)

/-- Inside the first edge of the branching set, and behind it at the node where the paths part. -/
theorem cursor_shows_branching :
    (insideEdge.count : ℕ∞) = {q | [1] <+: q ∧ branchingSet.contains q = true}.encard ∧
      insideEdge.count = 2 ∧ branchingSet.Continues [1, 2] [3, 4] := by
  have hshows := fun {c} (hr : Cursor.Run branchingSet c) =>
    cursor_shows (branching_reachable Blake3.hash) (branching_collisionFree _) branchingSet_mem hr
  have continues : ∀ {c : Cursor} {p bs}, Cursor.Run branchingSet c → c.path = p → c.children = bs →
      branchingSet.Continues p bs := by
    rintro c _ _ hr rfl rfl
    exact (hshows hr).children
  have counts : ∀ {c : Cursor} {p}, Cursor.Run branchingSet c → c.path = p →
      (c.count : ℕ∞) = {q | p <+: q ∧ branchingSet.contains q = true}.encard := by
    rintro c _ hr rfl
    exact (hshows hr).count_eq
  refine ⟨counts run_insideEdge (by decide +kernel), by decide +kernel, ?_⟩
  exact continues (run_insideEdge.move (.descend [2])) (by decide +kernel) (by decide +kernel)

end Session

end ByteTrie
