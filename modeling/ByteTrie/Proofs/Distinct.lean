import ByteTrie.Occupancy
import ByteTrie.Proofs.Pool
import Mathlib

/-!
# Different nodes

The different nodes of a trie are counted by a walk that does not look below a node that it has met
before.  In a pool nothing is lost by this, as nodes with one id are one node, and what is below it was
met when it was met first.

    i ∈ collectIds t seen   iff  i ∈ seen, or i is the id of a node of t
    t.distinctNodes         is the number of nodes of t as a set
-/

namespace ByteTrie

open Trie

theorem encard_of_nodup {α : Type} {l : List α} (h : l.Nodup) : {a | a ∈ l}.encard = l.length := by
  classical
  rw [← List.coe_toFinset, Set.encard_coe_eq_coe_finsetCard, List.toFinset_card_of_nodup h]

/-- The size of a table is the number of its keys. -/
theorem size_eq_encard_keys {κ α : Type} [BEq κ] [Hashable κ] [LawfulBEq κ]
    (table : Std.HashMap κ α) : (table.size : ℕ∞) = {k | k ∈ table}.encard := by
  have hkeys : {k | k ∈ table} = {k | k ∈ table.keys} := by
    ext k
    simp
  rw [hkeys, encard_of_nodup Std.HashMap.nodup_keys, Std.HashMap.length_keys]

/-- Different nodes of a pool have different ids. -/
theorem Pool.injOn_id (P : Pool) {S : Set Trie} (hS : ∀ t ∈ S, t ∈ P) : Set.InjOn Trie.id S :=
  fun s hs t ht => P.eq_of_id_eq s (hS s hs) t (hS t ht)

namespace Trie

variable {P : Pool} {t u : Trie} {e : Edge Trie}

theorem sizeOf_child_lt (he : e ∈ t.edges) : sizeOf e.child < sizeOf t := by
  cases t with
  | node i b n m es =>
    have hlt := List.sizeOf_lt_of_mem he
    obtain ⟨c, k, s⟩ := e
    simp only [edges, node.sizeOf_spec, Edge.mk.sizeOf_spec] at hlt ⊢
    omega

theorem sizeOf_le_of_isNode (h : IsNode u t) : sizeOf u ≤ sizeOf t := by
  induction h with
  | root => exact Nat.le_refl _
  | inside he _ ih => exact Nat.le_trans ih (Nat.le_of_lt (sizeOf_child_lt he))

/-- No node is below itself. -/
theorem not_isNode_child (he : e ∈ t.edges) : ¬ IsNode t e.child := fun h =>
  absurd (sizeOf_le_of_isNode h) (Nat.not_le.mpr (sizeOf_child_lt he))

/-- Below the nodes of `t` that were met, all nodes were met. -/
def MetBelow (seen : Seen) (t : Trie) : Prop :=
  ∀ v, IsNode v t → v.id ∈ seen → ∀ u, IsNode u v → u.id ∈ seen

theorem mem_collectEdgeIds (es : List (Edge Trie)) (seen : Seen) (hP : ∀ e ∈ es, e.child ∈ P)
    (h : ∀ e ∈ es, MetBelow seen e.child)
    (ih : ∀ e ∈ es, ∀ seen, MetBelow seen e.child → ∀ i, i ∈ collectIds e.child seen ↔
      i ∈ seen ∨ ∃ u, IsNode u e.child ∧ u.id = i) (i : Nat) :
    i ∈ collectEdgeIds es seen ↔ i ∈ seen ∨ ∃ e ∈ es, ∃ u, IsNode u e.child ∧ u.id = i := by
  induction es generalizing seen with
  | nil => simp [collectEdgeIds]
  | cons e es ihes =>
    have hhead := ih e List.mem_cons_self seen (h e List.mem_cons_self)
    have htail : ∀ f ∈ es, MetBelow (collectIds e.child seen) f.child := by
      intro f hf v hv hid u hu
      rw [hhead] at hid ⊢
      rcases hid with hid | ⟨w, hw, hid⟩
      · exact Or.inl (h f (List.mem_cons_of_mem e hf) v hv hid u hu)
      · -- what was met on the way is one node with `v`
        have hwP := Pool.mem_of_isNode hw (hP e List.mem_cons_self)
        have hvP := Pool.mem_of_isNode hv (hP f (List.mem_cons_of_mem e hf))
        obtain rfl := P.eq_of_id_eq w hwP v hvP hid
        exact Or.inr ⟨u, hu.trans hw, rfl⟩
    obtain ⟨b, k, s⟩ := e
    rw [collectEdgeIds, ihes _ (fun f hf => hP f (List.mem_cons_of_mem _ hf)) htail
      fun f hf => ih f (List.mem_cons_of_mem _ hf), hhead]
    simp only [List.mem_cons, exists_eq_or_imp, or_assoc]

theorem mem_collectIds (t : Trie) (ht : t ∈ P) (seen : Seen) (h : MetBelow seen t) (i : Nat) :
    i ∈ collectIds t seen ↔ i ∈ seen ∨ ∃ u, IsNode u t ∧ u.id = i := by
  induction t using nodeInduction generalizing seen i with
  | node t ih =>
    have hcollect : collectIds t seen =
        if seen.contains t.id then seen else collectEdgeIds t.edges (seen.insert t.id ()) := by
      cases t
      rw [collectIds]
      rfl
    rw [hcollect]
    split
    · next hmet =>
      refine ⟨Or.inl, fun hi => hi.elim (fun hi => hi) ?_⟩
      rintro ⟨u, hu, rfl⟩
      exact h t .root (Std.HashMap.contains_iff_mem.mp hmet) u hu
    · -- the node itself is met before what is below it, but it is not below itself
      have hbelow : ∀ e ∈ t.edges, MetBelow (seen.insert t.id ()) e.child := by
        intro e he v hv hid u hu
        rw [Std.HashMap.mem_insert, beq_iff_eq] at hid ⊢
        rcases hid with hid | hid
        · have hvP := Pool.mem_of_isNode (.inside he hv) ht
          obtain rfl := P.eq_of_id_eq t ht v hvP hid
          exact absurd hv (not_isNode_child he)
        · exact Or.inr (h v (.inside he hv) hid u hu)
      rw [mem_collectEdgeIds t.edges _ (fun e he => P.child_mem t ht e he) hbelow
        fun e he seen hs i => ih e he (P.child_mem t ht e he) seen hs i, Std.HashMap.mem_insert,
        beq_iff_eq]
      constructor
      · rintro ((rfl | hi) | ⟨e, he, u, hu, rfl⟩)
        · exact Or.inr ⟨t, .root, rfl⟩
        · exact Or.inl hi
        · exact Or.inr ⟨u, .inside he hu, rfl⟩
      · rintro (hi | ⟨u, hu, rfl⟩)
        · exact Or.inl (Or.inr hi)
        · cases hu with
          | root => exact Or.inl (Or.inl rfl)
          | inside he hu => exact Or.inr ⟨_, he, u, hu, rfl⟩

/-- Every node of a trie is counted once. -/
theorem distinctNodes_eq_encard (ht : t ∈ P) :
    (t.distinctNodes : ℕ∞) = {u | IsNode u t}.encard := by
  have hmet : MetBelow {} t := fun v _ hid => absurd hid Std.HashMap.not_mem_empty
  have hkeys : {i | i ∈ collectIds t {}} = Trie.id '' {u | IsNode u t} := by
    ext i
    rw [Set.mem_ofPred_eq, mem_collectIds t ht {} hmet, or_iff_right Std.HashMap.not_mem_empty]
    exact Iff.rfl
  have hinj := P.injOn_id (S := {u | IsNode u t}) fun u hu => Pool.mem_of_isNode hu ht
  rw [distinctNodes, size_eq_encard_keys, hkeys, hinj.encard_image]

end Trie

end ByteTrie
