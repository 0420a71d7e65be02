import ByteTrie.Proofs.Pool
import Mathlib

/-!
# Outcomes for sets of paths

What each operation makes of two sets of paths, and when an outcome is exact for them: it is `none`
for the empty set only, and it names each argument that it may name and that has the members of the
result, and no other.

    op.result A B                the set that `op` makes of A and B
    o.Exact Q both A B R         the outcome o is exact for arguments A and B and a result R
-/

namespace ByteTrie

open Trie Pool

/-! ## Masks -/

namespace Outcome

/-- The mask that names the left and the right argument. -/
def mask (l r : Bool) : UInt64 := (if l then leftBit else 0) ||| (if r then rightBit else 0)

theorem mask_and (l r l' r' : Bool) :
    mask l r &&& mask l' r' = mask (l && l') (r && r') := by
  revert l r l' r'
  decide

theorem mask_eq_zero_iff (l r : Bool) : mask l r = 0 ↔ l = false ∧ r = false := by
  revert l r
  decide

theorem mask_and_leftBit_eq_zero_iff (l r : Bool) : mask l r &&& leftBit = 0 ↔ l = false := by
  revert l r
  decide

theorem mask_and_rightBit_eq_zero_iff (l r : Bool) : mask l r &&& rightBit = 0 ↔ r = false := by
  revert l r
  decide

theorem mask_and_compl_bits (l r : Bool) : mask l r &&& ~~~(leftBit ||| rightBit) = 0 := by
  revert l r
  decide

theorem swap_mask {α : Type} (l r : Bool) :
    swap (identity (mask l r) : Outcome α) = identity (mask r l) := by
  have h : (((mask l r) &&& leftBit) <<< 1) ||| (((mask l r) &&& rightBit) >>> 1) = mask r l := by
    revert l r
    decide
  exact congrArg identity h

/-- An identity that names an argument is its first argument if that is named. -/
theorem resolvePair_mask {α : Type} (a b default : α) {l r : Bool} (h : l = true ∨ r = true) :
    (identity (mask l r)).resolvePair a b default = if l then a else b := by
  have hz : (mask l r).toBitVec.ctz.toNat = if l then 0 else 1 := by
    revert l r
    decide +kernel
  simp only [resolvePair, resolve, hz]
  cases l <;> rfl

theorem resolvePair_leftBit {α : Type} (a b default : α) :
    (identity leftBit).resolvePair a b default = a :=
  resolvePair_mask a b default (l := true) (r := false) (Or.inl rfl)

theorem resolvePair_rightBit {α : Type} (a b default : α) :
    (identity rightBit).resolvePair a b default = b :=
  resolvePair_mask a b default (l := false) (r := true) (Or.inr rfl)

/-- What an outcome has to be for arguments with the members `A` and `B` and a result with the
members `R`; the right argument may be named if `both`. -/
def Exact (Q : Pool) (both : Bool) (A B R : Set Path) : Outcome Trie → Prop
  | none => R = ∅
  | identity m => R ≠ ∅ ∧ ∃ l r, m = mask l r ∧ (l = true ∨ r = true) ∧ (l = true ↔ R = A) ∧
      (r = true ↔ both = true ∧ R = B)
  | element v => R ≠ ∅ ∧ R ≠ A ∧ (both = true → R ≠ B) ∧ v ∈ Q ∧ v.members = R

variable {Q : Pool} {both : Bool} {A B R : Set Path}

theorem Exact.of_both (hR : R = A) (hA : A ≠ ∅) : (identity bothBits).Exact Q true A A R := by
  subst hR
  exact ⟨hA, true, true, rfl, Or.inl rfl, by simp, by simp⟩

theorem Exact.of_left (hR : R = A) (hA : A ≠ ∅) (hB : both = true → A ≠ B) :
    (identity leftBit).Exact Q both A B R := by
  subst hR
  refine ⟨hA, true, false, rfl, Or.inl rfl, by simp, ?_⟩
  simpa using hB

theorem Exact.of_right (hR : R = B) (hB : B ≠ ∅) (hA : A ≠ B) (hb : both = true) :
    (identity rightBit).Exact Q both A B R := by
  subst hR
  exact ⟨hB, false, true, rfl, Or.inr rfl, by simpa using Ne.symm hA, by simp [hb]⟩

/-- Where the right argument may not be named, an identity names the left one alone. -/
theorem Exact.eq_leftBit {m : UInt64} (h : (identity m).Exact Q false A B R) : m = leftBit := by
  obtain ⟨-, l, r, rfl, hlr, -, hr⟩ := h
  have hr' : r = false := by
    rw [← Bool.not_eq_true, hr]
    rintro ⟨hc, -⟩
    cases hc
  have hl' : l = true := by simpa [hr'] using hlr
  rw [hl', hr']
  rfl

theorem Exact.swap_eq_rightBit {o : Outcome Trie} (h : o.Exact Q false A B R) {m : UInt64}
    (hm : o.swap = identity m) : m = rightBit := by
  cases o with
  | none => cases hm
  | element v => cases hm
  | identity l =>
    obtain rfl := h.eq_leftBit
    exact (identity.inj hm).symm

/-- An outcome for the arguments in the other order, resolved against them in this order. -/
theorem Exact.swap_resolvePair {o : Outcome Trie} (h : o.Exact Q false A B R)
    (a b default : Trie) : o.swap.resolvePair a b default = o.resolvePair b a default := by
  cases o with
  | none => rfl
  | element v => rfl
  | identity m =>
    have hm : m = mask true false := h.eq_leftBit
    rw [hm, swap_mask, resolvePair_mask b a default (Or.inl rfl),
      resolvePair_mask a b default (Or.inr rfl)]
    rfl

theorem Exact.mono {P : Pool} {o : Outcome Trie} (h : o.Exact P both A B R) (hPQ : P ≤ Q) :
    o.Exact Q both A B R := by
  cases o with
  | none => exact h
  | identity m => exact h
  | element v => exact ⟨h.1, h.2.1, h.2.2.1, hPQ.2 v h.2.2.2.1, h.2.2.2.2⟩

end Outcome

/-! ## The operations on sets -/

namespace SetOp

/-- The set of paths that an operation makes of two sets. -/
def result : SetOp → Set Path → Set Path → Set Path
  | join, A, B => A ∪ B
  | meet, A, B => A ∩ B
  | subtract, A, B => A \ B
  | restrict, A, B => {p | p ∈ A ∧ ∃ q ∈ B, q <+: p}

theorem result_empty_left (op : SetOp) (B : Set Path) :
    op.result ∅ B = if op.keepsRight then B else ∅ := by
  cases op <;> simp [result, keepsRight]

theorem result_empty_right (op : SetOp) (A : Set Path) :
    op.result A ∅ = if op.keepsLeft then A else ∅ := by
  cases op <;> simp [result, keepsLeft]

/-- Behind a byte an operation is itself; a restriction to a set with the empty path keeps all. -/
theorem after_result (op : SetOp) {A B : Set Path} (h : op = restrict → [] ∉ B) (b : UInt8) :
    after b (op.result A B) = op.result (after b A) (after b B) := by
  ext p
  cases op with
  | join => exact Iff.rfl
  | meet => exact Iff.rfl
  | subtract => exact Iff.rfl
  | restrict =>
    simp only [result, mem_after, Set.mem_ofPred_eq]
    refine and_congr_right fun _ => ⟨?_, ?_⟩
    · rintro ⟨q, hq, hp⟩
      cases q with
      | nil => exact absurd hq (h rfl)
      | cons c q =>
        obtain ⟨rfl, hqp⟩ := List.cons_prefix_cons.mp hp
        exact ⟨q, hq, hqp⟩
    · rintro ⟨q, hq, hp⟩
      exact ⟨b :: q, hq, List.cons_prefix_cons.mpr ⟨rfl, hp⟩⟩

/-- A common prefix of all paths stays in front. -/
theorem result_image (op : SetOp) (c : Path) (A B : Set Path) :
    op.result ((c ++ ·) '' A) ((c ++ ·) '' B) = (c ++ ·) '' op.result A B := by
  have inj : Function.Injective (c ++ · : Path → Path) := fun _ _ => List.append_cancel_left
  cases op with
  | join => exact (Set.image_union _ A B).symm
  | meet => exact (Set.image_inter inj).symm
  | subtract => exact (Set.image_sdiff inj A B).symm
  | restrict =>
    ext p
    constructor
    · rintro ⟨⟨a, ha, rfl⟩, q, ⟨b, hb, rfl⟩, hp⟩
      exact ⟨a, ⟨ha, b, hb, (List.prefix_append_right_inj c).mp hp⟩, rfl⟩
    · rintro ⟨a, ⟨ha, b, hb, hp⟩, rfl⟩
      exact ⟨⟨a, ha, rfl⟩, c ++ b, ⟨b, hb, rfl⟩, (List.prefix_append_right_inj c).mpr hp⟩

theorem nil_mem_result (op : SetOp) {A B : Set Path} {a b : Bool} (ha : [] ∈ A ↔ a = true)
    (hb : [] ∈ B ↔ b = true) (h : op = restrict → b = false) :
    [] ∈ op.result A B ↔ op.terminal a b = true := by
  cases op with
  | join => simp [result, terminal, ha, hb]
  | meet => simp [result, terminal, ha, hb]
  | subtract => simp [result, terminal, ha, hb]
  | restrict => simp [result, terminal, hb, h rfl]

end SetOp

end ByteTrie
