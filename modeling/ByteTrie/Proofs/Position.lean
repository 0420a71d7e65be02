import ByteTrie.Proofs.Count
import ByteTrie.Proofs.Cursor
import ByteTrie.Proofs.Mask
import Mathlib

/-!
# Positions of cursors

A cursor in its place: the edges taken from its ancestors lead from the root of the snapshot to its
node, and what is left of its path is a proper part of the key of an edge of the node, or nothing.
The members of the snapshot behind the path of a cursor tell which bytes it can go down by; and as
each byte of the path was such a byte, the root and the path alone tell the whole cursor.

    Chain root above starts p t   the edges taken from the nodes above lead along p from root to t
    c.IsAt t q                    c is in its place at the path q of t
    t.membersAfter q              the paths r with q ++ r in t
-/

namespace ByteTrie

open Trie

variable {root t : Trie} {e f : Edge Trie} {above : List (Trie × Nat)} {starts : List Nat}
  {p k q r : Path} {i : Nat} {b : UInt8}

/-! ## Members behind a path -/

namespace Trie

/-- The paths of `t` that start with `k`, without it. -/
def membersAfter (t : Trie) (k : Path) : Set Path := {q | k ++ q ∈ t}

@[simp] theorem mem_membersAfter (t : Trie) (k q : Path) : q ∈ t.membersAfter k ↔ k ++ q ∈ t :=
  Iff.rfl

theorem membersAfter_append (t : Trie) (k l : Path) :
    t.membersAfter (k ++ l) = {q | l ++ q ∈ t.membersAfter k} := by
  ext q
  simp [List.append_assoc]

/-- Some member starts with `p`. -/
def HasPrefix (t : Trie) (p : Path) : Prop := ∃ q, t.contains (p ++ q) = true

theorem Canonical.hasPrefix_iff (h : t.Canonical) (p : Path) :
    t.HasPrefix p ↔ (t.membersAfter p).Nonempty :=
  exists_congr fun q => h.contains_iff (p ++ q)

/-- `bs` are the bytes that go on from `p` to a member, in ascending order. -/
structure Continues (t : Trie) (p : Path) (bs : List UInt8) : Prop where
  ascending : bs.Pairwise (· < ·)
  mem_iff : ∀ b, b ∈ bs ↔ t.HasPrefix (p ++ [b])

theorem Continues.unique {bs cs : List UInt8} (hb : t.Continues p bs) (hc : t.Continues p cs) :
    bs = cs :=
  ByteMask.eq_of_pairwise_of_mem_iff hb.ascending hc.ascending fun b =>
    (hb.mem_iff b).trans (hc.mem_iff b).symm

/-! ## Edges of a node -/

namespace Canonical

theorem eq_of_first_eq (h : t.Canonical) (he : e ∈ t.edges) (hf : f ∈ t.edges)
    (hfirst : e.first = f.first) : e = f :=
  edge_eq_of_first_eq h.tidy.ascending he hf hfirst

/-- Rank finds the edge with a given first byte. -/
theorem edgeAt?_eq_some_iff (h : t.Canonical) :
    t.edgeAt? b = some (i, e) ↔ t.edges[i]? = some e ∧ e.first = b := by
  have hrank : ∀ {j f}, t.edges[j]? = some f → t.mask.rank f.first = j := fun {j f} hf => by
    rw [h.tidy.mask_eq]
    exact ByteMask.rank_firsts h.tidy.ascending hf
  constructor
  · intro hb
    obtain ⟨hmask, rfl, he⟩ := edgeAt?_eq_some hb
    obtain ⟨f, hf, rfl⟩ := (h.mask_iff t .root b).mp hmask
    obtain ⟨j, hj⟩ := List.mem_iff_getElem?.mp hf
    rw [hrank hj, hj] at he
    cases he
    exact ⟨by rw [hrank hj, hj], rfl⟩
  · rintro ⟨he, rfl⟩
    have hmask : t.mask.contains e.first = true :=
      (h.mask_iff t .root e.first).mpr ⟨e, List.mem_of_getElem? he, rfl⟩
    rw [edgeAt?, if_pos hmask, hrank he, he]
    rfl

/-- Two edges that start with the same byte stand at the same index. -/
theorem getElem?_edges_unique (h : t.Canonical) {j : Nat} (he : t.edges[i]? = some e)
    (hf : t.edges[j]? = some f) (hfirst : e.first = f.first) : i = j ∧ e = f := by
  have hi := h.edgeAt?_eq_some_iff.mpr ⟨he, hfirst⟩
  rw [h.edgeAt?_eq_some_iff.mpr ⟨hf, rfl⟩] at hi
  cases hi
  exact ⟨rfl, rfl⟩

/-- From a place inside an edge, the rest of its key leads to the child. -/
theorem members_inside (h : t.Canonical) (he : e ∈ t.edges) {l : Path} (hk : e.key = b :: k ++ l) :
    Stem.members ⟨l, e.child⟩ = t.membersAfter (b :: k) := by
  obtain ⟨rfl, hrest⟩ := List.cons.inj hk
  ext q
  rw [mem_membersAfter, List.cons_append, cons_mem_iff, cons_mem_edgeMembers]
  constructor
  · rintro ⟨r, hr, rfl⟩
    refine ⟨e, he, rfl, r, hr, ?_⟩
    rw [hrest]
    exact (List.append_assoc k l r).symm
  · rintro ⟨f, hf, hfirst, r, hr, heq⟩
    obtain rfl := h.eq_of_first_eq hf he hfirst
    rw [hrest] at heq
    exact ⟨r, hr, List.append_cancel_left (heq.trans (List.append_assoc k l r))⟩

theorem members_child (h : t.Canonical) (he : e ∈ t.edges) :
    e.child.members = t.membersAfter e.key := by
  rw [← Stem.members_nil]
  exact h.members_inside he (List.append_nil e.key).symm

end Canonical

/-- A proper part of a key goes on by one byte only. -/
theorem snoc_prefix_iff (hk : k <+: q) (hne : k ≠ q) (b : UInt8) :
    k ++ [b] <+: q ↔ q[k.length]! = b := by
  obtain ⟨l, rfl⟩ := hk
  cases l with
  | nil => exact absurd (List.append_nil k).symm hne
  | cons c l =>
    rw [List.prefix_append_right_inj, List.cons_prefix_cons, List.getElem!_eq_getElem?_getD,
      List.getElem?_append_right (Nat.le_refl _), Nat.sub_self]
    exact ⟨fun h => h.1.symm, fun h => ⟨h.symm, List.nil_prefix⟩⟩

/-- What of a path may lie along an edge of `t`: a proper part of its key, or nothing. -/
def Inside (t : Trie) (k : Path) : Prop := k = [] ∨ ∃ e ∈ t.edges, k <+: e.key ∧ k ≠ e.key

theorem Inside.take (h : t.Inside k) (n : Nat) : t.Inside (k.take n) := by
  obtain rfl | ⟨e, he, hk, hne⟩ := h
  · exact Or.inl List.take_nil
  · refine Or.inr ⟨e, he, (List.take_prefix n k).trans hk, fun heq => hne ?_⟩
    exact hk.eq_of_length_le (heq ▸ List.length_take_le' n k)

/-- From a place in a node or inside an edge, a byte leads on where it leads along an edge. -/
theorem Canonical.nonempty_snoc_iff (h : t.Canonical) (hk : t.Inside k) (b : UInt8) :
    (t.membersAfter (k ++ [b])).Nonempty ↔ ∃ e ∈ t.edges, k ++ [b] <+: e.key := by
  constructor
  · rintro ⟨q, hq⟩
    cases k with
    | nil =>
      obtain ⟨e, he, rfl, -⟩ := (cons_mem_edgeMembers _ _ _).mp ((cons_mem_iff _ _ _).mp hq)
      exact ⟨e, he, List.prefix_append [e.first] e.rest⟩
    | cons a k =>
      obtain hk | ⟨e, he, ⟨l, hl⟩, hne⟩ := hk
      · cases hk
      have hq : b :: q ∈ t.membersAfter (a :: k) := by simpa using hq
      rw [← h.members_inside he hl.symm] at hq
      obtain ⟨r, -, hr⟩ := hq
      cases l with
      | nil => exact absurd ((List.append_nil _).symm.trans hl) hne
      | cons c l =>
        obtain rfl : b = c := (List.cons.inj hr).1
        exact ⟨e, he, l, by rw [← hl]; simp⟩
  · rintro ⟨e, he, l, hl⟩
    obtain ⟨q, hq⟩ := h.inhabited t .root e he
    refine ⟨l ++ q, ?_⟩
    rw [mem_membersAfter, ← List.append_assoc, hl]
    exact .along he hq

end Trie

/-! ## Ancestors -/

/-- The edges taken from the nodes `above`, the last one first, lead from `root` along `p` to a node;
each of the `starts` is how far one of these edges leads. -/
inductive Chain (root : Trie) : List (Trie × Nat) → List Nat → Path → Trie → Prop
  | root : Chain root [] [] [] root
  | child {above : List (Trie × Nat)} {starts : List Nat} {p : Path} {t : Trie} {i : Nat}
      {e : Edge Trie} (h : Chain root above starts p t) (he : t.edges[i]? = some e) :
      Chain root ((t, i) :: above) ((p ++ e.key).length :: starts) (p ++ e.key) e.child

namespace Chain

theorem length_eq (h : Chain root above starts p t) : starts.length = above.length := by
  induction h with
  | root => rfl
  | child _ _ ih => rw [List.length_cons, List.length_cons, ih]

theorem headD_starts (h : Chain root above starts p t) : starts.headD 0 = p.length := by
  cases h with
  | root => rfl
  | child => rfl

theorem isNode (h : Chain root above starts p t) : IsNode t root := by
  induction h with
  | root => exact .root
  | child _ he ih => exact (IsNode.child (List.mem_of_getElem? he)).trans ih

/-- The node has what the snapshot has behind the path to it. -/
theorem members_eq (h : Chain root above starts p t) (hroot : root.Canonical) :
    t.members = root.membersAfter p := by
  induction h with
  | root => rfl
  | child h he ih =>
    rw [membersAfter_append, ← ih, (hroot.node h.isNode).members_child (List.mem_of_getElem? he)]
    rfl

/-- A node other than the root is in front of a member. -/
theorem nonempty (h : Chain root above starts p t) (hroot : root.Canonical) (hp : p ≠ []) :
    (root.membersAfter p).Nonempty := by
  rw [← h.members_eq hroot]
  cases h with
  | root => exact absurd rfl hp
  | child h he => exact hroot.inhabited _ h.isNode _ (List.mem_of_getElem? he)

end Chain

namespace Cursor

variable {c d : Cursor}

/-- The path of `c` is `p` up to its node, and `k` from there. -/
structure Placed (c : Cursor) (p k : Path) : Prop where
  chain : Chain c.root c.ancestors c.starts p c.node
  path_eq : c.path = p ++ k
  inside : c.node.Inside k

/-- The cursor is in its place at the path `q` of the snapshot `t`. -/
structure IsAt (c : Cursor) (t : Trie) (q : Path) : Prop where
  root_eq : c.root = t
  path_eq : c.path = q
  exists_placed : ∃ p k, c.Placed p k

theorem isAt_ofTrie (t : Trie) : (ofTrie t).IsAt t [] :=
  ⟨rfl, rfl, [], [], .root, rfl, Or.inl rfl⟩

namespace Placed

variable (h : c.Placed p k)

include h

theorem isAt : c.IsAt c.root (p ++ k) := ⟨rfl, h.path_eq, p, k, h⟩

theorem start_eq : c.start = p.length := h.chain.headD_starts

theorem size_eq : c.bytes.size = p.length + k.length := by
  rw [← Array.length_toList, ← List.length_append, ← h.path_eq]
  rfl

theorem keyLength_eq : c.keyLength = k.length := by
  rw [keyLength, h.start_eq, h.size_eq, Nat.add_sub_cancel_left]

theorem canonical_node (hc : c.root.Canonical) : c.node.Canonical := hc.node h.chain.isNode

theorem focusEdge?_eq : c.focusEdge? = k.head?.bind c.node.edgeAt? := by
  rw [focusEdge?, h.start_eq, ← Array.getElem?_toList]
  congr 1
  rw [show c.bytes.toList = p ++ k from h.path_eq, List.getElem?_append_right (Nat.le_refl _),
    Nat.sub_self, List.head?_eq_getElem?]

theorem focusEdge?_eq_none (hk : k = []) : c.focusEdge? = none := by
  rw [h.focusEdge?_eq, hk]
  rfl

/-- Inside an edge, the first byte of the key finds the edge. -/
theorem exists_focusEdge (hc : c.root.Canonical) (hk : k ≠ []) : ∃ i e, c.focusEdge? = some (i, e) ∧
    c.node.edges[i]? = some e ∧ k <+: e.key ∧ k ≠ e.key := by
  obtain hk' | ⟨e, he, hpre, hne⟩ := h.inside
  · exact absurd hk' hk
  obtain ⟨i, hi⟩ := List.mem_iff_getElem?.mp he
  refine ⟨i, e, ?_, hi, hpre, hne⟩
  obtain ⟨b, k', rfl⟩ := List.exists_cons_of_ne_nil hk
  obtain ⟨rfl, -⟩ := List.cons_prefix_cons.mp hpre
  rw [h.focusEdge?_eq]
  exact ((h.canonical_node hc).edgeAt?_eq_some_iff).mpr ⟨hi, rfl⟩

/-- What is below the focus is what the snapshot has behind the path. -/
theorem members_stem (hc : c.root.Canonical) :
    c.stem.members = c.root.membersAfter (p ++ k) := by
  have hnode := h.chain.members_eq hc
  rw [membersAfter_append, ← hnode, stem]
  by_cases hk : k = []
  · rw [h.focusEdge?_eq_none hk, hk]
    exact Stem.members_nil c.node
  · obtain ⟨i, e, hfocus, he, ⟨l, hl⟩, -⟩ := h.exists_focusEdge hc hk
    obtain ⟨b, k', rfl⟩ := List.exists_cons_of_ne_nil hk
    rw [hfocus]
    dsimp only
    rw [h.keyLength_eq, ← hl, List.drop_left]
    exact (h.canonical_node hc).members_inside (List.mem_of_getElem? he) hl.symm

/-- Going on from the focus by a byte stays on an edge of the node. -/
theorem edgeBy?_eq_some_iff (hc : c.root.Canonical) : c.edgeBy? b = some (i, e) ↔
    c.node.edges[i]? = some e ∧ k ++ [b] <+: e.key := by
  have hnode := h.canonical_node hc
  rw [edgeBy?]
  by_cases hk : k = []
  · subst hk
    rw [h.focusEdge?_eq_none rfl, hnode.edgeAt?_eq_some_iff]
    refine and_congr_right fun _ => ?_
    rw [List.nil_append, Edge.key, List.cons_prefix_cons]
    exact ⟨fun hb => ⟨hb.symm, List.nil_prefix⟩, fun hb => hb.1.symm⟩
  · obtain ⟨j, f, hfocus, hf, hpre, hne⟩ := h.exists_focusEdge hc hk
    rw [hfocus]
    dsimp only
    have hsnoc := snoc_prefix_iff hpre hne b
    rw [h.keyLength_eq]
    constructor
    · intro hb
      split at hb
      · next hnext =>
        cases hb
        exact ⟨hf, hsnoc.mpr hnext⟩
      · cases hb
    · rintro ⟨he, hnext⟩
      obtain ⟨a, k', rfl⟩ := List.exists_cons_of_ne_nil hk
      have hfirst : e.first = f.first :=
        (List.cons_prefix_cons.mp hnext).1.symm.trans (List.cons_prefix_cons.mp hpre).1
      obtain ⟨rfl, rfl⟩ := hnode.getElem?_edges_unique he hf hfirst
      rw [if_pos (hsnoc.mp hnext)]

/-- Some edge goes on by a byte where some member does. -/
theorem exists_edgeBy?_iff (hc : c.root.Canonical) (b : UInt8) :
    (∃ a, c.edgeBy? b = some a) ↔ (c.root.membersAfter (p ++ k ++ [b])).Nonempty := by
  have hnode := (h.canonical_node hc).nonempty_snoc_iff h.inside b
  rw [List.append_assoc, membersAfter_append, ← h.chain.members_eq hc]
  refine Iff.trans ⟨?_, ?_⟩ hnode.symm
  · rintro ⟨⟨i, e⟩, ha⟩
    obtain ⟨he, hpre⟩ := (h.edgeBy?_eq_some_iff hc).mp ha
    exact ⟨e, List.mem_of_getElem? he, hpre⟩
  · rintro ⟨e, he, hpre⟩
    obtain ⟨i, hi⟩ := List.mem_iff_getElem?.mp he
    exact ⟨(i, e), (h.edgeBy?_eq_some_iff hc).mpr ⟨hi, hpre⟩⟩

/-- An edge that goes on by a byte is the one that the byte leads along. -/
theorem descendByte?_eq (hc : c.root.Canonical) (he : c.node.edges[i]? = some e)
    (hk : k ++ [b] <+: e.key) : c.descendByte? b = some (c.along b i e) := by
  rw [descendByte?, (h.edgeBy?_eq_some_iff hc).mpr ⟨he, hk⟩]
  rfl

end Placed

/-! ## Down -/

/-- At the end of an edge of its node, a cursor enters the child in its place. -/
theorem placed_enterChild (h : Chain c.root c.ancestors c.starts p c.node)
    (he : c.node.edges[i]? = some e) (hpath : c.path = p ++ e.key) :
    (c.enterChild i e).Placed (p ++ e.key) [] := by
  have hsize : c.bytes.size = (p ++ e.key).length := by
    rw [← hpath]
    exact Array.length_toList.symm
  refine ⟨?_, hpath.trans (List.append_nil _).symm, Or.inl rfl⟩
  rw [enterChild, hsize]
  exact h.child he

theorem path_push (c : Cursor) (b : UInt8) :
    ({ c with bytes := c.bytes.push b } : Cursor).path = c.path ++ [b] :=
  Array.toList_push

theorem Placed.along (h : c.Placed p k) (he : c.node.edges[i]? = some e)
    (hk : k ++ [b] <+: e.key) : (c.along b i e).IsAt c.root (p ++ k ++ [b]) := by
  have hpath : ({ c with bytes := c.bytes.push b } : Cursor).path = p ++ k ++ [b] := by
    rw [path_push, h.path_eq]
  unfold Cursor.along
  dsimp only
  rw [h.keyLength_eq]
  split
  · next hlen =>
    have hkey : k ++ [b] = e.key := hk.eq_of_length (by rw [List.length_append]; exact hlen)
    rw [List.append_assoc, hkey] at hpath
    have hplaced := placed_enterChild (c := { c with bytes := c.bytes.push b }) h.chain he hpath
    exact ⟨rfl, by rw [List.append_assoc, hkey]; exact hpath, _, _, hplaced⟩
  · next hlen =>
    refine ⟨rfl, hpath, p, k ++ [b], h.chain, hpath.trans (List.append_assoc p k [b]), Or.inr ?_⟩
    refine ⟨e, List.mem_of_getElem? he, hk, fun heq => hlen ?_⟩
    rw [← heq, List.length_append]
    rfl

theorem IsAt.descendByte (h : c.IsAt t q) (ht : t.Canonical) (hd : c.descendByte? b = some d) :
    d.IsAt t (q ++ [b]) := by
  obtain ⟨rfl, hpath, p, k, h⟩ := h
  obtain ⟨⟨i, e⟩, ha, rfl⟩ := Option.map_eq_some_iff.mp hd
  obtain ⟨he, hk⟩ := (h.edgeBy?_eq_some_iff ht).mp ha
  rw [← hpath, h.path_eq]
  exact h.along he hk

theorem exists_descendByte_iff (h : c.IsAt t q) (ht : t.Canonical) (b : UInt8) :
    (∃ d, c.descendByte? b = some d) ↔ (t.membersAfter (q ++ [b])).Nonempty := by
  obtain ⟨rfl, hpath, p, k, h⟩ := h
  rw [← hpath, h.path_eq, ← h.exists_edgeBy?_iff ht b]
  constructor
  · rintro ⟨d, hd⟩
    obtain ⟨a, ha, -⟩ := Option.map_eq_some_iff.mp hd
    exact ⟨a, ha⟩
  · rintro ⟨a, ha⟩
    exact ⟨_, Option.map_eq_some_iff.mpr ⟨a, ha, rfl⟩⟩

/-- A place other than the root is in front of a member. -/
theorem IsAt.nonempty (h : c.IsAt t q) (ht : t.Canonical) (hq : q ≠ []) :
    (t.membersAfter q).Nonempty := by
  obtain ⟨rfl, hpath, p, k, h⟩ := h
  rw [← hpath, h.path_eq] at hq ⊢
  obtain rfl | ⟨e, he, ⟨l, hl⟩, -⟩ := h.inside
  · rw [List.append_nil] at hq ⊢
    exact h.chain.nonempty ht hq
  · obtain ⟨r, hr⟩ := ht.inhabited c.node h.chain.isNode e he
    refine ⟨l ++ r, ?_⟩
    have hmem : e.key ++ r ∈ c.root.membersAfter p := h.chain.members_eq ht ▸ .along he hr
    rwa [mem_membersAfter, List.append_assoc, ← List.append_assoc k, hl]

/-! ## The path tells the cursor -/

theorem IsAt.eq_ofTrie (h : c.IsAt t []) : c = ofTrie t := by
  obtain ⟨rfl, hpath, p, k, h⟩ := h
  obtain ⟨rfl, rfl⟩ := List.append_eq_nil_iff.mp (h.path_eq.symm.trans hpath)
  have hchain := h.chain
  obtain ⟨root, node, bytes, starts, above⟩ := c
  obtain rfl : bytes = #[] := Array.toList_inj.mp hpath
  generalize hp : ([] : Path) = p at hchain
  cases hchain with
  | root => rfl
  | child h he => exact absurd (List.append_eq_nil_iff.mp hp.symm).2 (List.cons_ne_nil _ _)

/-- The last byte of the path was gone down by. -/
theorem IsAt.exists_before (h : c.IsAt t (q ++ [b])) (ht : t.Canonical) :
    ∃ d : Cursor, d.IsAt t q ∧ d.descendByte? b = some c := by
  obtain ⟨rfl, hpath, p, k, h⟩ := h
  have hpk := h.path_eq.symm.trans hpath
  obtain ⟨root, node, bytes, starts, above⟩ := c
  obtain rfl : bytes = (q ++ [b]).toArray := Array.toList_inj.mp hpath
  obtain rfl | ⟨k, a, rfl⟩ := List.eq_nil_or_concat' k
  · -- at the start of a node: back onto the edge that leads to it
    have hchain : Chain root above starts p node := h.chain
    clear h
    rw [List.append_nil] at hpk
    cases hchain with
    | root => exact absurd hpk.symm (List.append_ne_nil_of_right_ne_nil q (List.cons_ne_nil b []))
    | @child above starts p u i e hchain he =>
      obtain ⟨k, a, hkey⟩ : ∃ k a, e.key = k ++ [a] :=
        (List.eq_nil_or_concat' e.key).resolve_left (List.cons_ne_nil _ _)
      rw [hkey, ← List.append_assoc] at hpk
      obtain ⟨rfl, hab⟩ := List.append_inj' hpk rfl
      cases hab
      have hd : Placed ⟨root, u, (p ++ k).toArray, starts, above⟩ p k := by
        refine ⟨hchain, rfl, Or.inr ⟨e, List.mem_of_getElem? he, hkey ▸ List.prefix_append k [b], ?_⟩⟩
        exact fun heq => List.cons_ne_nil b [] (List.append_right_eq_self.mp (hkey ▸ heq).symm)
      refine ⟨_, hd.isAt, ?_⟩
      rw [hd.descendByte?_eq ht he (hkey ▸ List.prefix_refl _), Cursor.along, hd.keyLength_eq]
      dsimp only
      rw [if_pos (by rw [hkey, List.length_append]; rfl), List.push_toArray, Cursor.enterChild,
        List.size_toArray, hkey, List.append_assoc]
  · -- inside an edge: back by a byte of its key
    rw [← List.append_assoc] at hpk
    obtain ⟨rfl, hab⟩ := List.append_inj' hpk rfl
    cases hab
    obtain hk | ⟨e, he, hpre, hne⟩ := h.inside
    · exact absurd hk (List.append_ne_nil_of_right_ne_nil k (List.cons_ne_nil b []))
    obtain ⟨i, hi⟩ := List.mem_iff_getElem?.mp he
    have hinside := h.inside.take k.length
    rw [List.take_left] at hinside
    have hd : Placed ⟨root, node, (p ++ k).toArray, starts, above⟩ p k := ⟨h.chain, rfl, hinside⟩
    have hlen : k.length + 1 ≠ e.key.length := fun hlen =>
      hne (hpre.eq_of_length (by rw [List.length_append]; exact hlen))
    refine ⟨_, hd.isAt, ?_⟩
    rw [hd.descendByte?_eq ht hi hpre, Cursor.along, hd.keyLength_eq]
    dsimp only
    rw [if_neg hlen, List.push_toArray]

theorem IsAt.unique (h : c.IsAt t q) (hd : d.IsAt t q) (ht : t.Canonical) : c = d := by
  induction q using List.reverseRecOn generalizing c d with
  | nil => rw [h.eq_ofTrie, hd.eq_ofTrie]
  | append_singleton q b ih =>
    obtain ⟨c', hc', hc⟩ := h.exists_before ht
    obtain ⟨d', hd', hd⟩ := hd.exists_before ht
    rw [ih hc' hd'] at hc
    exact Option.some.inj (hc.symm.trans hd)

end Cursor

end ByteTrie
