import ByteTrie.Proofs.Session
import Mathlib

/-!
# Laws of membership

What the lookups in the results of the operations give, in terms of the lookups in the arguments,
for all sets of a session.

    (union x y).contains k = (x.contains k || y.contains k)
    (inter x y).contains k = (x.contains k && y.contains k)
    (diff x y).contains k  = (x.contains k && !y.contains k)
-/

namespace ByteTrie

open Trie Pool

variable {P Q : Pool}

theorem SetOp.Combined.contains_iff {op : SetOp} {s t u : Trie} (h : op.Combined Q s t u)
    (k : Path) : u.contains k = true ↔ k ∈ op.result s.members t.members := by
  rw [(canonical h.mem).contains_iff, ← mem_members, h.members]

namespace Session

variable {hash : HashFunction} {σ : Session}

/-- A call in a session, run on the nodes of its pool. -/
theorem In.run (h : σ.In hash P) {α : Type} {x : Fresh α} {post : Pool → α → Prop}
    (hx : P.Makes x post) : ∃ Q, P ≤ Q ∧ post Q (x σ.next).1 := by
  obtain ⟨Q, hPQ, -, hpost⟩ := hx
  exact ⟨Q, hPQ, h.next_eq ▸ hpost⟩

theorem contains_union_inter_diff (h : Reachable hash σ) (hc : CollisionFree hash σ.interned)
    {x y : Trie} (hx : x ∈ σ.sets) (hy : y ∈ σ.sets) (k : Path) :
    (x.union y σ.next).1.contains k = (x.contains k || y.contains k) ∧
      (x.inter y σ.next).1.contains k = (x.contains k && y.contains k) ∧
      (x.diff y σ.next).1.contains k = (x.contains k && !y.contains k) := by
  obtain ⟨P, hP⟩ := h.exists_pool hc
  have hxP := hP.sets x hx
  have hyP := hP.sets y hy
  have hxk := (canonical hxP).contains_iff k
  have hyk := (canonical hyP).contains_iff k
  refine ⟨?_, ?_, ?_⟩
  · obtain ⟨Q, -, hu⟩ := hP.run (makes_union hxP hyP)
    rw [Bool.eq_iff_iff, hu.contains_iff, Bool.or_eq_true, hxk, hyk]
    exact Iff.rfl
  · obtain ⟨Q, -, hu⟩ := hP.run (makes_inter hxP hyP)
    rw [Bool.eq_iff_iff, hu.contains_iff, Bool.and_eq_true, hxk, hyk]
    exact Iff.rfl
  · obtain ⟨Q, -, hu⟩ := hP.run (makes_diff hxP hyP)
    rw [Bool.eq_iff_iff, hu.contains_iff, Bool.and_eq_true, Bool.not_eq_true',
      ← Bool.not_eq_true, hxk, hyk]
    exact Iff.rfl

/-- The set made first and the set made last. -/
theorem sample_contains_union_inter_diff :
    ∃ x ∈ sample.sets, ∃ y ∈ sample.sets, x.contains [1, 2] = true ∧ y.contains [1, 2] = false ∧
      ∀ k, (x.union y sample.next).1.contains k = (x.contains k || y.contains k) ∧
        (x.inter y sample.next).1.contains k = (x.contains k && y.contains k) ∧
        (x.diff y sample.next).1.contains k = (x.contains k && !y.contains k) := by
  have hx : firstSet ∈ sample.sets :=
    List.mem_cons_of_mem _ (List.mem_cons_of_mem _ List.mem_cons_self)
  have hy : sample.sets.head (by decide) ∈ sample.sets := List.head_mem _
  exact ⟨_, hx, _, hy, by decide +kernel, by decide +kernel,
    contains_union_inter_diff sample_reachable sample_collisionFree hx hy⟩

end Session

end ByteTrie
