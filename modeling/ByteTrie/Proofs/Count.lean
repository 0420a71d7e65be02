import ByteTrie.Proofs.Canonical
import Mathlib

/-!
# Counts

The count of a node is the number of its members: an edge puts its key in front of every member of
its child, so no two become one, and edges that start with different bytes share no path.

    (t.count : ℕ∞) = t.members.encard      for a canonical t    (Canonical.count_eq_encard)
-/

namespace ByteTrie

/-- A key in front of all members keeps their number. -/
theorem Stem.encard_members (k : Path) (t : Trie) :
    (Stem.members ⟨k, t⟩).encard = t.members.encard := by
  have inj : Function.Injective (k ++ · : Path → Path) := fun _ _ => List.append_cancel_left
  rw [← inj.encard_image t.members, ← Stem.members_nil, ← Stem.members_append, List.append_nil]

theorem disjoint_edgeMembers {e : Edge Trie} {es : List (Edge Trie)}
    (h : ∀ f ∈ es, e.first < f.first) : Disjoint (edgeMembers [e]) (edgeMembers es) := by
  rw [Set.disjoint_left]
  rintro p ⟨f, hf, q, -, rfl⟩ ⟨g, hg, r, -, heq⟩
  obtain rfl := List.mem_singleton.mp hf
  exact absurd (List.cons.inj heq).1 (UInt8.ne_of_lt (h g hg))

theorem encard_edgeMembers {es : List (Edge Trie)}
    (hasc : es.Pairwise fun e f => e.first < f.first)
    (hcount : ∀ e ∈ es, (e.child.count : ℕ∞) = e.child.members.encard) :
    ((total (es.map fun e => e.child.count) : Nat) : ℕ∞) = (edgeMembers es).encard := by
  induction es with
  | nil => simp
  | cons e es ih =>
    obtain ⟨hlt, hasc⟩ := List.pairwise_cons.mp hasc
    rw [edgeMembers_cons, Set.encard_union_eq (disjoint_edgeMembers hlt), edgeMembers_singleton,
      Stem.encard_members, ← hcount e List.mem_cons_self,
      ← ih hasc fun f hf => hcount f (List.mem_cons_of_mem e hf), List.map_cons, total_cons,
      Nat.cast_add]

namespace Trie

theorem members_eq_union (t : Trie) :
    t.members = {p | p = [] ∧ t.terminal = true} ∪ edgeMembers t.edges := by
  ext p
  exact mem_iff t p

/-- The count of a trie is the number of its members. -/
theorem Canonical.count_eq_encard {t : Trie} (h : t.Canonical) :
    (t.count : ℕ∞) = t.members.encard := by
  induction t using nodeInduction with
  | node t ih =>
    have hnil : ({p | p = [] ∧ t.terminal = true} : Set Path).encard = t.terminal.toNat := by
      cases t.terminal with
      | false => simp
      | true => simp
    have hdisj : Disjoint {p : Path | p = [] ∧ t.terminal = true} (edgeMembers t.edges) := by
      rw [Set.disjoint_left]
      rintro p ⟨rfl, -⟩
      exact nil_not_mem_edgeMembers t.edges
    rw [members_eq_union, Set.encard_union_eq hdisj, hnil, h.tidy.count_eq, Nat.cast_add,
      encard_edgeMembers h.tidy.ascending fun e he => ih e he (h.child he)]

end Trie

end ByteTrie
