import ByteTrie.Proofs.Equality
import ByteTrie.Proofs.Sharing
import Mathlib

/-!
# Restrictions and their mirror

A restriction keeps the members of a set that extend some member of another set.  `raffinate` is
the restriction of its right argument to its left one, with the outcome turned round: it may be the
right argument itself, and is the left one only where both are one node or nothing is left.

    (restrict x y).contains k    iff  x.contains k and y has a prefix of k
    raffinate x y                 =   restrict y x, and gives y itself in the same cases

What an operation makes is new: a supply gives no id twice, so no result that was built is one of
the arguments.
-/

namespace ByteTrie

open Trie Pool

/-! ## Supplies only go on -/

namespace Fresh

variable {α β : Type}

/-- The next unused id does not get smaller. -/
def Grows (x : Fresh α) : Prop := ∀ n, n ≤ (x n).2

theorem grows_pure (a : α) : Grows (pure a : Fresh α) := fun n => Nat.le_refl n

theorem Grows.bind {x : Fresh α} {f : α → Fresh β} (hx : Grows x) (hf : ∀ a, Grows (f a)) :
    Grows (x >>= f) :=
  fun n => Nat.le_trans (hx n) (hf (x n).1 (x n).2)

theorem Grows.bind_pure {x : Fresh α} (hx : Grows x) (f : α → β) :
    Grows (x >>= fun a => pure (f a)) :=
  hx.bind fun a => grows_pure (f a)

theorem grows_make (b : Bool) (es : List (Edge Trie)) : Grows (Trie.make b es) := by
  intro n
  cases es with
  | nil => exact Nat.le_refl n
  | cons e es => exact Nat.le_succ n

end Fresh

namespace SetOp

open Fresh

variable {op : SetOp} {s t : Stem} {o : Outcome Trie}

/-- What is done at a node: nothing is left, or arguments are named, or a node is made. -/
theorem finish_cases (op : SetOp) (s t : Stem) (m : Merged) (n : Nat) :
    op.finish s t m n = (Outcome.none, n) ∨
      (∃ mask, op.finish s t m n = (Outcome.identity mask, n)) ∨
      ∃ b, (m.edges = [] → b = true) ∧
        op.finish s t m n = (Outcome.element (make b m.edges n).1, (make b m.edges n).2) := by
  unfold finish
  by_cases hempty : (m.edges.isEmpty && !op.terminal s.isMember t.isMember) = true
  · left
    simp only [hempty, if_true]
    rfl
  · right
    simp only [hempty, Bool.false_eq_true, if_false]
    have hb : m.edges = [] → op.terminal s.isMember t.isMember = true := by
      intro hes
      simpa [hes] using hempty
    generalize (m.agree &&& _) = mask
    by_cases hmask : mask = 0
    · right
      refine ⟨_, hb, ?_⟩
      rw [if_pos hmask]
      rfl
    · left
      refine ⟨mask, ?_⟩
      rw [if_neg hmask]
      rfl

theorem grows_finish (op : SetOp) (s t : Stem) (m : Merged) : Grows (op.finish s t m) := by
  intro n
  rcases finish_cases op s t m n with h | ⟨mask, h⟩ | ⟨b, -, h⟩
  · rw [h]
  · rw [h]
  · rw [h]
    exact grows_make b m.edges n

/-- The induction is that of the walk: two places, or the edges at two places. -/
theorem grows_combineEdges (op : SetOp) (es fs : List (Edge Trie)) :
    Grows (op.combineEdges es fs) := by
  refine combineEdges.induct op (fun s t => Grows (op.combine s t))
    (fun es fs => Grows (op.combineEdges es fs)) ?_ ?_ ?_ ?_ ?_ ?_ ?_ ?_ es fs
  case refine_1 =>
    intro s t o h
    rw [combine, h]
    exact grows_pure o
  case refine_2 =>
    intro s t h ih
    rw [combine, h]
    exact ih.bind fun m => grows_finish op s t m
  case refine_3 =>
    rw [combineEdges]
    exact grows_pure _
  case refine_4 =>
    intro b k s es ih
    rw [combineEdges]
    exact ih.bind_pure _
  case refine_5 =>
    intro c l t fs ih
    rw [combineEdges]
    exact ih.bind_pure _
  case refine_6 =>
    intro b k s es c l t fs hbc ih
    rw [combineEdges, if_pos hbc]
    exact ih.bind_pure _
  case refine_7 =>
    intro b k s es c l t fs hbc hcb ih
    rw [combineEdges, if_neg hbc, if_pos hcb]
    exact ih.bind_pure _
  case refine_8 =>
    intro b k s es c l t fs hbc hcb n ihc ih
    rw [combineEdges, if_neg hbc, if_neg hcb]
    exact ihc.bind fun o => ih.bind_pure _

theorem settle_ne_element (h : op.settle s t = some o) (v : Trie) : o ≠ Outcome.element v := by
  rintro rfl
  unfold settle at h
  cases op <;> dsimp only at h <;> repeat' split at h
  all_goals cases h

/-- A result that was built is the fixed node of the empty path, or a node that was not there. -/
theorem eq_leaf_or_next_le_id (op : SetOp) {s t v : Trie} {n : Nat}
    (h : (op.apply s t n).1 = Outcome.element v) : v = leaf ∨ n ≤ v.id := by
  have step : (op.combine ⟨[], s⟩ ⟨[], t⟩ n).1 = Outcome.element v := h
  rw [combine] at step
  cases hsettle : op.settle ⟨[], s⟩ ⟨[], t⟩ with
  | some o =>
    rw [hsettle] at step
    exact absurd step (settle_ne_element hsettle v)
  | none =>
    rw [hsettle] at step
    let r := op.combineEdges (Stem.branches ⟨[], s⟩) (Stem.branches ⟨[], t⟩) n
    have hgrow : n ≤ r.2 := grows_combineEdges op _ _ n
    have hstep : (op.finish ⟨[], s⟩ ⟨[], t⟩ r.1 r.2).1 = Outcome.element v := step
    rcases finish_cases op ⟨[], s⟩ ⟨[], t⟩ r.1 r.2 with hr | ⟨mask, hr⟩ | ⟨b, hb, hr⟩
    · rw [hr] at hstep
      cases hstep
    · rw [hr] at hstep
      cases hstep
    · rw [hr] at hstep
      obtain rfl := Outcome.element.inj hstep
      cases hes : r.1.edges with
      | nil =>
        left
        rw [hb hes]
        rfl
      | cons e es =>
        right
        exact hgrow

end SetOp

/-! ## Later in a session -/

/-- The same nodes, when more ids are used. -/
def Pool.later (P : Pool) {n : Nat} (h : P.next ≤ n) : Pool :=
  { P with next := n, id_lt := fun t ht => Nat.lt_of_lt_of_le (P.id_lt t ht) h }

namespace SetOp

variable {P : Pool} {s t : Trie}

/-- A set that is restricted to one with the empty path stays as it is. -/
theorem restrict_result_of_nil_mem {A B : Set Path} (h : [] ∈ B) : restrict.result A B = A :=
  (restrict_eq_left_iff A B).mpr fun _ _ => ⟨[], List.nil_prefix, h⟩

theorem mem_restrict_result_iff (hs : s ∈ P) (ht : t ∈ P) (k : Path) :
    k ∈ restrict.result s.members t.members ↔
      s.contains k = true ∧ ∃ q, q <+: k ∧ t.contains q = true := by
  rw [(canonical hs).contains_iff]
  refine and_congr_right fun _ => ?_
  constructor
  · rintro ⟨q, hq, hqk⟩
    exact ⟨q, hqk, ((canonical ht).contains_iff q).mpr hq⟩
  · rintro ⟨q, hqk, hq⟩
    exact ⟨q, ((canonical ht).contains_iff q).mp hq, hqk⟩

end SetOp

namespace Trie

variable {P Q : Pool} {s t : Trie}

/-- What was restricted to `s` is the node `s` only if it is empty or the node that was
restricted: else it was built, and its node is new. -/
theorem isEmpty_or_sameNode_of_raffinate_sameNode (hs : s ∈ P) (ht : t ∈ P)
    (h : ((s.raffinate t) P.next).1.sameNode s = true) :
    ((s.raffinate t) P.next).1.isEmpty = true ∨ ((s.raffinate t) P.next).1.sameNode t = true := by
  obtain ⟨Q, hPQ, -, ho⟩ := SetOp.makes_apply SetOp.restrict ht hs
  have hr : ((s.raffinate t) P.next).1 =
      (SetOp.restrict.apply t s P.next).1.resolvePair t s empty := ho.swap_resolvePair s t empty
  rw [hr] at h ⊢
  cases hcase : (SetOp.restrict.apply t s P.next).1 with
  | none => exact Or.inl rfl
  | identity m =>
    rw [hcase] at ho
    have hm : m = Outcome.mask true false := ho.eq_leftBit
    rw [hm, Outcome.resolvePair_mask t s empty (Or.inl rfl)]
    exact Or.inr (beq_self_eq_true t.id)
  | element v =>
    rw [hcase] at h ho
    have hv : v = s := eq_of_sameNode ho.2.2.2.1 (hPQ.2 s hs) h
    exfalso
    rcases SetOp.eq_leaf_or_next_le_id SetOp.restrict hcase with hleaf | hid
    · -- with the empty path in `s`, the restriction is all of `t` and would not have been built
      have hnil : [] ∈ s.members := by
        rw [← hv, hleaf]
        exact Mem.here rfl
      exact ho.2.1 (SetOp.restrict_result_of_nil_mem hnil)
    · have hlt : s.id < P.next := P.id_lt s hs
      rw [hv] at hid
      omega

end Trie

namespace Session

variable {hash : HashFunction} {σ : Session}

/-- The pool of a session, when ids up to `n` are used. -/
theorem In.exists_later {P : Pool} (h : σ.In hash P) {n : Nat} (hn : σ.next ≤ n) :
    ∃ Q : Pool, Q.next = n ∧ ∀ t ∈ σ.sets, t ∈ Q :=
  ⟨P.later (h.next_eq ▸ hn), rfl, h.sets⟩

/-- What a restriction of two sets of a session has, and that `raffinate` is a restriction with its
arguments in the other order, whenever the two are made. -/
theorem restrict_raffinate (h : Reachable hash σ) (hc : CollisionFree hash σ.interned)
    {x y : Trie} (hx : x ∈ σ.sets) (hy : y ∈ σ.sets) {m n : Nat} (hm : σ.next ≤ m)
    (hn : σ.next ≤ n) :
    (∀ k, (x.restrict y n).1.contains k = true ↔
      x.contains k = true ∧ ∃ q, q <+: k ∧ y.contains q = true) ∧
    ((x.raffinate y m).1 == (y.restrict x n).1) = true ∧
    (∀ k, (x.raffinate y m).1.contains k = true ↔
      y.contains k = true ∧ ∃ q, q <+: k ∧ x.contains q = true) ∧
    ((x.raffinate y m).1.sameNode y = true ↔ (y.restrict x n).1.sameNode y = true) ∧
    (∀ mask, (SetOp.restrict.apply y x m).1.swap = Outcome.identity mask →
      mask = Outcome.rightBit) ∧
    ((x.raffinate y m).1.sameNode x = true →
      (x.raffinate y m).1.isEmpty = true ∨ (x.raffinate y m).1.sameNode y = true) := by
  obtain ⟨P, hP⟩ := h.exists_pool hc
  obtain ⟨M, rfl, hM⟩ := hP.exists_later hm
  obtain ⟨N, rfl, hN⟩ := hP.exists_later hn
  obtain ⟨Q, hNQ, -, hxy⟩ := makes_restrict (hN x hx) (hN y hy)
  obtain ⟨R, hNR, -, hyx⟩ := makes_restrict (hN y hy) (hN x hx)
  obtain ⟨S, hMS, -, hraff⟩ := makes_raffinate (hM x hx) (hM y hy)
  refine ⟨fun k => ?_, ?_, fun k => ?_, ?_, fun mask hmask => ?_, fun hsame => ?_⟩
  · rw [hxy.contains_iff, SetOp.mem_restrict_result_iff (hP.sets x hx) (hP.sets y hy)]
  · have hshape : (x.raffinate y M.next).1.shape = (y.restrict x N.next).1.shape := by
      refine shape_eq_of_members_eq (canonical hraff.mem) (canonical hyx.mem) ?_
      rw [hraff.members, hyx.members]
    exact beq_of_shape_eq (canonical hraff.mem) (canonical hyx.mem) hshape
  · rw [hraff.contains_iff, SetOp.mem_restrict_result_iff (hP.sets y hy) (hP.sets x hx)]
  · rw [hraff.sameNode_iff (hMS.2 y (hM y hy)), hyx.sameNode_iff (hNR.2 y (hN y hy))]
  · obtain ⟨T, -, -, ho⟩ := SetOp.makes_apply SetOp.restrict (hM y hy) (hM x hx)
    exact ho.swap_eq_rightBit hmask
  · exact isEmpty_or_sameNode_of_raffinate_sameNode (hM x hx) (hM y hy) hsame

/-- The set made last and the set made first, one of which extends the other. -/
theorem sample_restrict_raffinate :
    ∃ x ∈ sample.sets, ∃ y ∈ sample.sets, x.contains [1] = true ∧ y.contains [1, 2] = true ∧
      (∀ k, (x.restrict y (sample.next + 3)).1.contains k = true ↔
        x.contains k = true ∧ ∃ q, q <+: k ∧ y.contains q = true) ∧
      ((x.raffinate y sample.next).1 == (y.restrict x (sample.next + 3)).1) = true ∧
      (∀ k, (x.raffinate y sample.next).1.contains k = true ↔
        y.contains k = true ∧ ∃ q, q <+: k ∧ x.contains q = true) ∧
      ((x.raffinate y sample.next).1.sameNode y = true ↔
        (y.restrict x (sample.next + 3)).1.sameNode y = true) ∧
      (∀ mask, (SetOp.restrict.apply y x sample.next).1.swap = Outcome.identity mask →
        mask = Outcome.rightBit) ∧
      ((x.raffinate y sample.next).1.sameNode x = true →
        (x.raffinate y sample.next).1.isEmpty = true ∨
          (x.raffinate y sample.next).1.sameNode y = true) := by
  have hx : sample.sets.head (by decide) ∈ sample.sets := List.head_mem _
  have hy : firstSet ∈ sample.sets :=
    List.mem_cons_of_mem _ (List.mem_cons_of_mem _ List.mem_cons_self)
  exact ⟨_, hx, _, hy, by decide +kernel, by decide +kernel,
    restrict_raffinate sample_reachable sample_collisionFree hx hy (Nat.le_refl _)
      (Nat.le_add_right _ 3)⟩

end Session

end ByteTrie
