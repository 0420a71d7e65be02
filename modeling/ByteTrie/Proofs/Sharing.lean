import ByteTrie.Proofs.Laws
import Mathlib

/-!
# Outcomes are exact

An outcome names an argument if and only if the result is the set of that argument and the operation
may give it; so a result that equals the left argument is that argument itself.  This holds for all
canonical tries, whatever nodes they share: an outcome is about sets, although two tries that are one
node are not looked into.

    Stored next ts       the nodes of the tries in ts are as they lie in memory
    o.IsExact op s t     the outcome o is what it has to be for the sets s and t
-/

namespace ByteTrie

open Trie Pool

/-- The nodes of some tries as they lie in memory: an id is one node, `next` and greater ids are
unused, and the nodes without edges are the two fixed ones. -/
structure Stored (next : Nat) (ts : List Trie) : Prop where
  id_lt : ∀ u : Trie, u.IsNodeOf ts → u.id < next
  eq_of_id_eq : ∀ u v : Trie, u.IsNodeOf ts → v.IsNodeOf ts → u.id = v.id → u = v
  fixed : ∀ u : Trie, u.IsNodeOf ts → u.edges = [] → u = Trie.empty ∨ u = leaf

/-- What an outcome has to be for the arguments `s` and `t`, by what the operation makes of their
members.  A mask has bits for the two arguments alone, so it names one that has the result. -/
def Outcome.IsExact (op : SetOp) (s t : Trie) (o : Outcome Trie) : Prop :=
  let result := op.result s.members t.members
  match o with
  | none => result = ∅
  | identity m => result ≠ ∅ ∧ m ≠ 0 ∧ m &&& ~~~(leftBit ||| rightBit) = 0 ∧
      (m &&& leftBit ≠ 0 ↔ result = s.members) ∧
      (m &&& rightBit ≠ 0 ↔ op.isCommutative = true ∧ result = t.members)
  | element u => result ≠ ∅ ∧ result ≠ s.members ∧
      (op.isCommutative = true → result ≠ t.members) ∧ u.Canonical ∧ u.members = result

/-! ## Canonical tries -/

namespace Pool

/-- The nodes of canonical tries, and the two fixed ones. -/
def ofStored {next : Nat} {ts : List Trie} (h : Stored next (Trie.empty :: leaf :: ts))
    (hc : ∀ t ∈ ts, t.Canonical) : Pool where
  next := next
  nodes := {u | u.IsNodeOf (Trie.empty :: leaf :: ts)}
  empty_mem := ⟨Trie.empty, List.mem_cons_self, .root⟩
  leaf_mem := ⟨leaf, List.mem_cons_of_mem _ List.mem_cons_self, .root⟩
  child_mem := fun _ hu _ he => hu.child he
  id_lt := h.id_lt
  eq_of_id_eq := fun u hu v hv => h.eq_of_id_eq u v hu hv
  tidy := by
    rintro u ⟨t, ht, hu⟩
    have hcanonical : t.Canonical := by
      rcases List.mem_cons.mp ht with rfl | ht
      · exact canonical start.empty_mem
      · rcases List.mem_cons.mp ht with rfl | ht
        · exact canonical start.leaf_mem
        · exact hc t ht
    exact (hcanonical.node hu).tidy
  fixed := h.fixed

/-- The tries of a pool are as they lie in memory. -/
theorem stored (P : Pool) {ts : List Trie} (hts : ∀ t ∈ ts, t ∈ P) : Stored P.next ts := by
  have mem : ∀ u : Trie, u.IsNodeOf ts → u ∈ P := fun u ⟨t, ht, hu⟩ => mem_of_isNode hu (hts t ht)
  exact ⟨fun u hu => P.id_lt u (mem u hu),
    fun u v hu hv => P.eq_of_id_eq u (mem u hu) v (mem v hv), fun u hu => P.fixed u (mem u hu)⟩

end Pool

theorem Outcome.Exact.isExact {Q : Pool} {op : SetOp} {s t : Trie} {o : Outcome Trie}
    (h : o.Exact Q op.isCommutative s.members t.members (op.result s.members t.members)) :
    o.IsExact op s t := by
  cases o with
  | none => exact h
  | identity m =>
    obtain ⟨hne, l, r, rfl, hlr, hl, hr⟩ := h
    refine ⟨hne, ?_, mask_and_compl_bits l r, ?_, ?_⟩
    · rw [Ne, mask_eq_zero_iff]
      rintro ⟨rfl, rfl⟩
      simp at hlr
    · rw [Ne, mask_and_leftBit_eq_zero_iff, Bool.not_eq_false]
      exact hl
    · rw [Ne, mask_and_rightBit_eq_zero_iff, Bool.not_eq_false]
      exact hr
  | element u => exact ⟨h.1, h.2.1, h.2.2.1, canonical h.2.2.2.1, h.2.2.2.2⟩

theorem isExact_apply (op : SetOp) {s t : Trie} {next : Nat} (hs : s.Canonical) (ht : t.Canonical)
    (h : Stored next [Trie.empty, leaf, s, t]) : (op.apply s t next).1.IsExact op s t := by
  have hc : ∀ u ∈ [s, t], u.Canonical := by
    intro u hu
    rcases List.mem_cons.mp hu with rfl | hu
    · exact hs
    · exact List.mem_singleton.mp hu ▸ ht
  have hsP : s ∈ ofStored h hc :=
    ⟨s, List.mem_cons_of_mem _ (List.mem_cons_of_mem _ List.mem_cons_self), .root⟩
  have htP : t ∈ ofStored h hc :=
    ⟨t, List.mem_cons_of_mem _ (List.mem_cons_of_mem _ (List.mem_cons_of_mem _
      List.mem_cons_self)), .root⟩
  obtain ⟨Q, -, -, hexact⟩ := SetOp.makes_apply op hsP htP
  exact hexact.isExact

/-! ## Sets of a session -/

namespace SetOp

variable {Q : Pool} {s t u : Trie} {op : SetOp}

/-- The result is the left argument itself whenever it has the same members. -/
theorem Combined.sameNode_iff (h : op.Combined Q s t u) (hs : s ∈ Q) :
    u.sameNode s = true ↔ op.result s.members t.members = s.members := by
  constructor
  · intro hsame
    rw [← h.members, eq_of_sameNode h.mem hs hsame]
  · intro hm
    rw [h.eq_left hm]
    exact beq_self_eq_true s.id

theorem join_eq_left_iff (A B : Set Path) : join.result A B = A ↔ ∀ k, k ∈ B → k ∈ A :=
  Set.union_eq_left

theorem meet_eq_left_iff (A B : Set Path) : meet.result A B = A ↔ ∀ k, k ∈ A → k ∈ B :=
  Set.inter_eq_left

theorem subtract_eq_left_iff (A B : Set Path) :
    subtract.result A B = A ↔ ∀ k, k ∈ A → k ∉ B := by
  constructor
  · intro h k hk
    have hmem : k ∈ subtract.result A B := h.symm ▸ hk
    exact hmem.2
  · intro h
    ext k
    exact ⟨fun hk => hk.1, fun hk => ⟨hk, h k hk⟩⟩

theorem restrict_eq_left_iff (A B : Set Path) :
    restrict.result A B = A ↔ ∀ k, k ∈ A → ∃ q, q <+: k ∧ q ∈ B := by
  constructor
  · intro h k hk
    have hmem : k ∈ restrict.result A B := h.symm ▸ hk
    obtain ⟨-, q, hq, hqk⟩ := hmem
    exact ⟨q, hqk, hq⟩
  · intro h
    ext k
    refine ⟨fun hk => hk.1, fun hk => ⟨hk, ?_⟩⟩
    obtain ⟨q, hqk, hq⟩ := h k hk
    exact ⟨q, hq, hqk⟩

end SetOp

namespace Session

variable {hash : HashFunction} {σ : Session}

/-- When the results of the operations on two sets of a session are the left set itself. -/
theorem sameNode_left_iff (h : Reachable hash σ) (hc : CollisionFree hash σ.interned) {x y : Trie}
    (hx : x ∈ σ.sets) (hy : y ∈ σ.sets) :
    ((x.union y σ.next).1.sameNode x = true ↔ ∀ k, y.contains k = true → x.contains k = true) ∧
      ((x.inter y σ.next).1.sameNode x = true ↔ ∀ k, x.contains k = true → y.contains k = true) ∧
      ((x.diff y σ.next).1.sameNode x = true ↔
        (∀ k, x.contains k = true → y.contains k = false) ∨ x.isEmpty = true) ∧
      ((x.restrict y σ.next).1.sameNode x = true ↔
        ∀ k, x.contains k = true → ∃ q, q <+: k ∧ y.contains q = true) := by
  obtain ⟨P, hP⟩ := h.exists_pool hc
  have hxP := hP.sets x hx
  have hyP := hP.sets y hy
  simp only [(canonical hxP).contains_iff, (canonical hyP).contains_iff, ← Bool.not_eq_true]
  refine ⟨?_, ?_, ?_, ?_⟩
  · obtain ⟨Q, hPQ, hu⟩ := hP.run (makes_union hxP hyP)
    rw [hu.sameNode_iff (hPQ.2 x hxP), SetOp.join_eq_left_iff]
    exact Iff.rfl
  · obtain ⟨Q, hPQ, hu⟩ := hP.run (makes_inter hxP hyP)
    rw [hu.sameNode_iff (hPQ.2 x hxP), SetOp.meet_eq_left_iff]
    exact Iff.rfl
  · obtain ⟨Q, hPQ, hu⟩ := hP.run (makes_diff hxP hyP)
    rw [hu.sameNode_iff (hPQ.2 x hxP), SetOp.subtract_eq_left_iff]
    constructor
    · exact fun hk => Or.inl hk
    · rintro (hk | he)
      · exact hk
      · intro k hk
        rw [(isEmpty_iff hxP).mp he] at hk
        exact absurd hk (Set.notMem_empty k)
  · obtain ⟨Q, hPQ, hu⟩ := hP.run (makes_restrict hxP hyP)
    rw [hu.sameNode_iff (hPQ.2 x hxP), SetOp.restrict_eq_left_iff]
    exact Iff.rfl

end Session

/-- The outcomes of the operations are exact for all canonical tries; hence an operation on two sets
of a session gives its left argument itself in all cases in which it may. -/
theorem outcomes_exact :
    (∀ (op : SetOp) (s t : Trie) (next : Nat), s.Canonical → t.Canonical →
      Stored next [Trie.empty, leaf, s, t] → (op.apply s t next).1.IsExact op s t) ∧
    ∀ (hash : HashFunction) (σ : Session), σ.Reachable hash → CollisionFree hash σ.interned →
      ∀ x ∈ σ.sets, ∀ y ∈ σ.sets,
        ((x.union y σ.next).1.sameNode x = true ↔
          ∀ k, y.contains k = true → x.contains k = true) ∧
        ((x.inter y σ.next).1.sameNode x = true ↔
          ∀ k, x.contains k = true → y.contains k = true) ∧
        ((x.diff y σ.next).1.sameNode x = true ↔
          (∀ k, x.contains k = true → y.contains k = false) ∨ x.isEmpty = true) ∧
        ((x.restrict y σ.next).1.sameNode x = true ↔
          ∀ k, x.contains k = true → ∃ q, q <+: k ∧ y.contains q = true) :=
  ⟨fun op _ _ _ hs ht h => isExact_apply op hs ht h,
    fun _ _ h hc _ hx _ hy => Session.sameNode_left_iff h hc hx hy⟩

namespace Session

/-- The set made first and the set of the empty path, as they lie in memory. -/
theorem stored_firstSet : Stored 3 [Trie.empty, leaf, firstSet, leaf] := by
  obtain ⟨P, -, hnext, hfirst, -⟩ := makes_singleton Pool.start [1, 2]
  have hthree : P.next = 3 := hnext.symm
  rw [← hthree]
  refine P.stored fun t ht => ?_
  simp only [List.mem_cons, List.not_mem_nil, or_false] at ht
  rcases ht with rfl | rfl | rfl | rfl
  · exact P.empty_mem
  · exact P.leaf_mem
  · exact hfirst
  · exact P.leaf_mem

theorem sample_outcomes_exact :
    (SetOp.join.apply firstSet leaf 3).1.IsExact SetOp.join firstSet leaf ∧
    ∃ x ∈ sample.sets, ∃ y ∈ sample.sets, x.contains [1, 2] = true ∧ y.contains [1, 2] = false ∧
      ((x.restrict y sample.next).1.sameNode x = true ↔
        ∀ k, x.contains k = true → ∃ q, q <+: k ∧ y.contains q = true) := by
  obtain ⟨P, hP⟩ := sample_reachable.exists_pool sample_collisionFree
  have hx : firstSet ∈ sample.sets :=
    List.mem_cons_of_mem _ (List.mem_cons_of_mem _ List.mem_cons_self)
  have hy : sample.sets.head (by decide) ∈ sample.sets := List.head_mem _
  refine ⟨outcomes_exact.1 SetOp.join firstSet leaf 3 (canonical (hP.sets _ hx))
    (canonical P.leaf_mem) stored_firstSet, _, hx, _, hy, by decide +kernel, by decide +kernel, ?_⟩
  exact (outcomes_exact.2 Blake3.hash sample sample_reachable sample_collisionFree _ hx _ hy).2.2.2

end Session

end ByteTrie
