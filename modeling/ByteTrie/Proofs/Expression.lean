import ByteTrie.Proofs.Reuse
import Mathlib

/-!
# Expressions

An expression is built from sets of a session by the operations.  It stands for a set of paths, said
by the operations on sets of paths alone, and it can be computed, each operation making what nodes it
makes.

    a.eval                     the computation of a
    a.members                  the set of paths that a stands for
    σ.Agree x y                what x and y give is equal and has one encoding, whenever they are run
    σ.Agree a.eval b.eval      iff  a.members = b.members

So every identity of sets of paths holds of the tries themselves, form for form and byte for byte,
whichever traversals, grafts and reused nodes the two sides are made by.  The laws below are those
that a caller may count on.
-/

namespace ByteTrie

open Trie Pool

/-- The operation on tries. -/
def SetOp.onTries : SetOp → Trie → Trie → Fresh Trie
  | join => Trie.union
  | meet => Trie.inter
  | subtract => Trie.diff
  | restrict => Trie.restrict

/-- An expression over the sets of `held`. -/
inductive SetExpr (held : Set Trie) where
  | set (t : Trie) (ht : t ∈ held)
  | empty
  | singleton (p : Path)
  | merge (op : SetOp) (a b : SetExpr held)
  | product (a b : SetExpr held)
  | wrap (a : SetExpr held) (p : Path)
  | heads (a : SetExpr held) (n : Nat)
  | tails (a : SetExpr held) (n : Nat)

namespace SetExpr

variable {held : Set Trie}

/-- The computation of an expression, from left to right. -/
def eval : SetExpr held → Fresh Trie
  | set t _ => return t
  | empty => return Trie.empty
  | singleton p => Trie.singleton p
  | merge op a b => do op.onTries (← a.eval) (← b.eval)
  | product a b => do (← a.eval).product (← b.eval)
  | wrap a p => do (← a.eval).wrap p
  | heads a n => do (← a.eval).heads n
  | tails a n => do (← a.eval).tails n

/-- The paths that an expression stands for. -/
def members : SetExpr held → Set Path
  | set t _ => t.members
  | empty => ∅
  | singleton p => {p}
  | merge op a b => op.result a.members b.members
  | product a b => concat a.members b.members
  | wrap a p => (p ++ ·) '' a.members
  | heads a n => cutTo n a.members
  | tails a n => tailsAfter n a.members

theorem makes_onTries (op : SetOp) {P : Pool} {s t : Trie} (hs : s ∈ P) (ht : t ∈ P) :
    P.Makes (op.onTries s t) fun Q u => op.Combined Q s t u := by
  cases op with
  | join => exact makes_union hs ht
  | meet => exact makes_inter hs ht
  | subtract => exact makes_diff hs ht
  | restrict => exact makes_restrict hs ht

/-- What is computed are the paths that the expression stands for.  The induction is over the
expression; the operands are computed one after the other, each on the nodes made so far. -/
theorem makes_eval (a : SetExpr held) (P : Pool) (h : ∀ t ∈ held, t ∈ P) :
    P.Makes a.eval fun Q u => u ∈ Q ∧ u.members = a.members := by
  induction a generalizing P with
  | set t ht => exact makes_pure ⟨h t ht, rfl⟩
  | empty => exact makes_pure ⟨P.empty_mem, members_empty⟩
  | singleton p => exact makes_singleton P p
  | merge op a b iha ihb =>
    refine (iha P h).bind fun Q s hPQ ⟨hs, hsm⟩ => ?_
    refine (ihb Q fun t ht => hPQ.2 t (h t ht)).bind fun R t hQR ⟨ht, htm⟩ => ?_
    refine (makes_onTries op (hQR.2 s hs) ht).imp fun S u _ hu => ⟨hu.mem, ?_⟩
    rw [hu.members, hsm, htm, members]
  | product a b iha ihb =>
    refine (iha P h).bind fun Q s hPQ ⟨hs, hsm⟩ => ?_
    refine (ihb Q fun t ht => hPQ.2 t (h t ht)).bind fun R t hQR ⟨ht, htm⟩ => ?_
    refine (makes_product (hQR.2 s hs) ht).imp fun S u _ hu => ⟨hu.1, ?_⟩
    rw [hu.2, hsm, htm, members]
  | wrap a p iha =>
    refine (iha P h).bind fun Q s _ ⟨hs, hsm⟩ => ?_
    refine (makes_wrap hs p).imp fun R u _ hu => ⟨hu.1, ?_⟩
    rw [hu.2, hsm, members]
  | heads a n iha =>
    refine (iha P h).bind fun Q s _ ⟨hs, hsm⟩ => ?_
    refine (makes_heads hs n).imp fun R u _ hu => ⟨hu.1, ?_⟩
    rw [hu.2, hsm, members]
  | tails a n iha =>
    refine (iha P h).bind fun Q s _ ⟨hs, hsm⟩ => ?_
    refine (makes_tails hs n).imp fun R u _ hu => ⟨hu.1, ?_⟩
    rw [hu.2, hsm, members]

end SetExpr

/-! ## Identities of sets of paths -/

section

variable (A B C : Set Path) (p : Path) (i j : Nat)

theorem concat_assoc : concat (concat A B) C = concat A (concat B C) :=
  Set.image2_assoc List.append_assoc

theorem concat_union_right : concat A (B ∪ C) = concat A B ∪ concat A C := Set.image2_union_right

theorem concat_singleton : concat {p} A = (p ++ ·) '' A := Set.image2_singleton_left

theorem tailsAfter_image : tailsAfter p.length ((p ++ ·) '' A) = A := by
  ext q
  constructor
  · rintro ⟨_, ⟨r, hr, rfl⟩, -, rfl⟩
    rwa [List.drop_left]
  · intro hq
    exact ⟨p ++ q, ⟨q, hq, rfl⟩, by simp, List.drop_left.symm⟩

theorem tailsAfter_tailsAfter : tailsAfter j (tailsAfter i A) = tailsAfter (i + j) A := by
  ext q
  constructor
  · rintro ⟨_, ⟨r, hr, hi, rfl⟩, hj, rfl⟩
    rw [List.length_drop] at hj
    exact ⟨r, hr, by omega, List.drop_drop⟩
  · rintro ⟨r, hr, hij, rfl⟩
    refine ⟨r.drop i, ⟨r, hr, by omega, rfl⟩, ?_, List.drop_drop.symm⟩
    rw [List.length_drop]
    omega

theorem cutTo_cutTo : cutTo j (cutTo i A) = cutTo (min i j) A := by
  rw [cutTo, cutTo, Set.image_image, cutTo, Nat.min_comm]
  simp only [List.take_take]

theorem restrict_union_left : SetOp.restrict.result (A ∪ B) C =
    SetOp.restrict.result A C ∪ SetOp.restrict.result B C := by
  ext q
  simp only [SetOp.result, Set.mem_ofPred_eq, Set.mem_union, or_and_right]

theorem restrict_union_right : SetOp.restrict.result A (B ∪ C) =
    SetOp.restrict.result A B ∪ SetOp.restrict.result A C := by
  ext q
  simp only [SetOp.result, Set.mem_ofPred_eq, Set.mem_union, or_and_right, exists_or, and_or_left]

theorem SetOp.restrict_right_comm : SetOp.restrict.result (SetOp.restrict.result A B) C =
    SetOp.restrict.result (SetOp.restrict.result A C) B := by
  ext q
  simp only [SetOp.result, Set.mem_ofPred_eq, and_right_comm]

end

namespace Session

/-- Whenever the two are run, on ids that are not used yet, what they give is equal and has one
encoding. -/
def Agree (σ : Session) (x y : Fresh Trie) : Prop :=
  ∀ m n, σ.next ≤ m → σ.next ≤ n →
    ((x m).1 == (y n).1) = true ∧ (x m).1.encode = (y n).1.encode

/-- What a session holds, for expressions over its sets. -/
def held (σ : Session) : Set Trie := {t | t ∈ σ.sets}

variable {hash : HashFunction} {σ : Session}

/-- Computations agree if on all pools that have the sets of the session they make a set of the same
paths. -/
theorem In.agree {P : Pool} (hP : σ.In hash P) {x y : Fresh Trie} (A : Set Path)
    (hx : ∀ Q : Pool, (∀ t ∈ σ.sets, t ∈ Q) → Q.Makes x fun R u => u ∈ R ∧ u.members = A)
    (hy : ∀ Q : Pool, (∀ t ∈ σ.sets, t ∈ Q) → Q.Makes y fun R u => u ∈ R ∧ u.members = A) :
    σ.Agree x y := by
  intro m n hm hn
  obtain ⟨M, rfl, hM⟩ := hP.exists_later hm
  obtain ⟨N, rfl, hN⟩ := hP.exists_later hn
  obtain ⟨Q, -, -, hu, hum⟩ := hx M hM
  obtain ⟨R, -, -, hv, hvm⟩ := hy N hN
  have hshape := shape_eq_of_members_eq (canonical hu) (canonical hv) (hum.trans hvm.symm)
  exact ⟨beq_of_shape_eq (canonical hu) (canonical hv) hshape, (encode_eq_iff _ _).mpr hshape⟩

/-- Expressions over the sets of a session give the same trie if and only if they stand for the same
paths. -/
theorem agree_iff (h : Reachable hash σ) (hc : CollisionFree hash σ.interned)
    (a b : SetExpr σ.held) : σ.Agree a.eval b.eval ↔ a.members = b.members := by
  obtain ⟨P, hP⟩ := h.exists_pool hc
  constructor
  · intro hab
    obtain ⟨Q, -, hu, hum⟩ := hP.run (a.makes_eval P hP.sets)
    obtain ⟨R, -, hv, hvm⟩ := hP.run (b.makes_eval P hP.sets)
    obtain ⟨-, hencode⟩ := hab σ.next σ.next (Nat.le_refl _) (Nat.le_refl _)
    rw [← hum, ← hvm]
    exact members_eq_of_shape_eq ((encode_eq_iff _ _).mp hencode)
  · intro hab
    refine hP.agree a.members a.makes_eval fun Q hQ => ?_
    rw [hab]
    exact b.makes_eval Q hQ

/-- Union, intersection and difference are those of a distributive lattice of sets. -/
structure SetLaws (σ : Session) (x y z : Trie) : Prop where
  union_comm : σ.Agree (x.union y) (y.union x)
  inter_comm : σ.Agree (x.inter y) (y.inter x)
  union_assoc : σ.Agree (do (← x.union y).union z) (do x.union (← y.union z))
  inter_assoc : σ.Agree (do (← x.inter y).inter z) (do x.inter (← y.inter z))
  union_self : σ.Agree (x.union x) (return x)
  inter_self : σ.Agree (x.inter x) (return x)
  union_inter_self : σ.Agree (do x.union (← x.inter y)) (return x)
  inter_union_self : σ.Agree (do x.inter (← x.union y)) (return x)
  union_inter : σ.Agree (do x.union (← y.inter z)) (do (← x.union y).inter (← x.union z))
  inter_union : σ.Agree (do x.inter (← y.union z)) (do (← x.inter y).union (← x.inter z))
  diff_union : σ.Agree (do x.diff (← y.union z)) (do (← x.diff y).diff z)
  inter_union_diff : σ.Agree (do (← x.inter y).union (← x.diff y)) (return x)

/-- The product is associative and distributes over unions; the set of the empty path is its unit,
and the empty set its zero. -/
structure ProductLaws (σ : Session) (x y z : Trie) : Prop where
  product_assoc : σ.Agree (do (← x.product y).product z) (do x.product (← y.product z))
  unit_product : σ.Agree (do (← Trie.singleton []).product x) (return x)
  product_unit : σ.Agree (do x.product (← Trie.singleton [])) (return x)
  empty_product : σ.Agree (Trie.empty.product x) (return Trie.empty)
  product_empty : σ.Agree (x.product Trie.empty) (return Trie.empty)
  union_product : σ.Agree (do (← x.union y).product z)
    (do (← x.product z).union (← y.product z))
  product_union : σ.Agree (do x.product (← y.union z))
    (do (← x.product y).union (← x.product z))

structure RestrictLaws (σ : Session) (x y z : Trie) : Prop where
  union_restrict : σ.Agree (do (← x.union y).restrict z)
    (do (← x.restrict z).union (← y.restrict z))
  restrict_union : σ.Agree (do x.restrict (← y.union z))
    (do (← x.restrict y).union (← x.restrict z))
  restrict_right_comm : σ.Agree (do (← x.restrict y).restrict z) (do (← x.restrict z).restrict y)

/-- Paths put in front of all members, and bytes taken off or kept in front. -/
structure SliceLaws (σ : Session) (x : Trie) (p : Path) (i j : Nat) : Prop where
  wrap_eq_product : σ.Agree (x.wrap p) (do (← Trie.singleton p).product x)
  tails_wrap : σ.Agree (do (← x.wrap p).tails p.length) (return x)
  tails_tails : σ.Agree (do (← x.tails i).tails j) (x.tails (i + j))
  heads_heads : σ.Agree (do (← x.heads i).heads j) (x.heads (min i j))

theorem setLaws (h : Reachable hash σ) (hc : CollisionFree hash σ.interned) {x y z : Trie}
    (hx : x ∈ σ.sets) (hy : y ∈ σ.sets) (hz : z ∈ σ.sets) : SetLaws σ x y z := by
  let X : SetExpr σ.held := .set x hx
  let Y : SetExpr σ.held := .set y hy
  let Z : SetExpr σ.held := .set z hz
  have law := fun a b => (agree_iff h hc a b).mpr
  exact {
    union_comm := law (.merge .join X Y) (.merge .join Y X) (Set.union_comm _ _)
    inter_comm := law (.merge .meet X Y) (.merge .meet Y X) (Set.inter_comm _ _)
    union_assoc := law (.merge .join (.merge .join X Y) Z) (.merge .join X (.merge .join Y Z))
      (Set.union_assoc _ _ _)
    inter_assoc := law (.merge .meet (.merge .meet X Y) Z) (.merge .meet X (.merge .meet Y Z))
      (Set.inter_assoc _ _ _)
    union_self := law (.merge .join X X) X (Set.union_self _)
    inter_self := law (.merge .meet X X) X (Set.inter_self _)
    union_inter_self := law (.merge .join X (.merge .meet X Y)) X sup_inf_self
    inter_union_self := law (.merge .meet X (.merge .join X Y)) X inf_sup_self
    union_inter := law (.merge .join X (.merge .meet Y Z))
      (.merge .meet (.merge .join X Y) (.merge .join X Z)) (Set.union_inter_distrib_left _ _ _)
    inter_union := law (.merge .meet X (.merge .join Y Z))
      (.merge .join (.merge .meet X Y) (.merge .meet X Z)) (Set.inter_union_distrib_left _ _ _)
    diff_union := law (.merge .subtract X (.merge .join Y Z))
      (.merge .subtract (.merge .subtract X Y) Z) Set.sdiff_sdiff.symm
    inter_union_diff := law (.merge .join (.merge .meet X Y) (.merge .subtract X Y)) X
      (Set.inter_union_sdiff _ _) }

theorem productLaws (h : Reachable hash σ) (hc : CollisionFree hash σ.interned) {x y z : Trie}
    (hx : x ∈ σ.sets) (hy : y ∈ σ.sets) (hz : z ∈ σ.sets) : ProductLaws σ x y z := by
  let X : SetExpr σ.held := .set x hx
  let Y : SetExpr σ.held := .set y hy
  let Z : SetExpr σ.held := .set z hz
  have law := fun a b => (agree_iff h hc a b).mpr
  exact {
    product_assoc := law (.product (.product X Y) Z) (.product X (.product Y Z))
      (concat_assoc _ _ _)
    unit_product := law (.product (.singleton []) X) X (concat_nil _)
    product_unit := law (.product X (.singleton [])) X (concat_nil_right _)
    empty_product := law (.product .empty X) .empty (empty_concat _)
    product_empty := law (.product X .empty) .empty (concat_empty _)
    union_product := law (.product (.merge .join X Y) Z)
      (.merge .join (.product X Z) (.product Y Z)) (concat_union _ _ _)
    product_union := law (.product X (.merge .join Y Z))
      (.merge .join (.product X Y) (.product X Z)) (concat_union_right _ _ _) }

theorem restrictLaws (h : Reachable hash σ) (hc : CollisionFree hash σ.interned) {x y z : Trie}
    (hx : x ∈ σ.sets) (hy : y ∈ σ.sets) (hz : z ∈ σ.sets) : RestrictLaws σ x y z := by
  let X : SetExpr σ.held := .set x hx
  let Y : SetExpr σ.held := .set y hy
  let Z : SetExpr σ.held := .set z hz
  have law := fun a b => (agree_iff h hc a b).mpr
  exact {
    union_restrict := law (.merge .restrict (.merge .join X Y) Z)
      (.merge .join (.merge .restrict X Z) (.merge .restrict Y Z)) (restrict_union_left _ _ _)
    restrict_union := law (.merge .restrict X (.merge .join Y Z))
      (.merge .join (.merge .restrict X Y) (.merge .restrict X Z)) (restrict_union_right _ _ _)
    restrict_right_comm := law (.merge .restrict (.merge .restrict X Y) Z)
      (.merge .restrict (.merge .restrict X Z) Y) (SetOp.restrict_right_comm _ _ _) }

theorem sliceLaws (h : Reachable hash σ) (hc : CollisionFree hash σ.interned) {x : Trie}
    (hx : x ∈ σ.sets) (p : Path) (i j : Nat) : SliceLaws σ x p i j := by
  let X : SetExpr σ.held := .set x hx
  have law := fun a b => (agree_iff h hc a b).mpr
  exact {
    wrap_eq_product := law (.wrap X p) (.product (.singleton p) X) (concat_singleton _ _).symm
    tails_wrap := law (.tails (.wrap X p) p.length) X (tailsAfter_image _ _)
    tails_tails := law (.tails (.tails X i) j) (.tails X (i + j)) (tailsAfter_tailsAfter _ _ _)
    heads_heads := law (.heads (.heads X i) j) (.heads X (min i j)) (cutTo_cutTo _ _ _) }

/-- The laws of the algebra hold of the sets of a session as equality of tries and of encodings. -/
theorem algebra_laws (h : Reachable hash σ) (hc : CollisionFree hash σ.interned) {x y z : Trie}
    (hx : x ∈ σ.sets) (hy : y ∈ σ.sets) (hz : z ∈ σ.sets) (p : Path) (i j : Nat) :
    SetLaws σ x y z ∧ ProductLaws σ x y z ∧ RestrictLaws σ x y z ∧ SliceLaws σ x p i j :=
  ⟨setLaws h hc hx hy hz, productLaws h hc hx hy hz, restrictLaws h hc hx hy hz,
    sliceLaws h hc hx p i j⟩

/-- After the branching set and the set of 6 7, the set of 1 and 1 2, one of which extends the
other. -/
def branchingNested : Session :=
  branchingNext.gainOk (Trie.decodeWithin 3 [0, 1, 1, 1, 1, 1, 1, 2, 1, 0]) id

theorem branchingNested_reachable (hash : HashFunction) : Reachable hash branchingNested :=
  (branchingNext_reachable hash).step (.decodeWithin 3 _)

theorem branchingNested_collisionFree (hash : HashFunction) :
    CollisionFree hash branchingNested.interned := by
  have hnone : branchingNested.interned = [] := rfl
  rw [hnone]
  exact branching_collisionFree hash

theorem branchingNested_subset : ∀ t ∈ branchingNext.sets, t ∈ branchingNested.sets :=
  fun _ ht => List.mem_append_right _ ht

theorem exists_nested : ∃ z ∈ branchingNested.sets, z.contains [1] = true ∧
    z.contains [1, 2] = true := by
  have hz : branchingNested.sets.head (by decide +kernel) ∈ branchingNested.sets := List.head_mem _
  exact ⟨_, hz, by decide +kernel, by decide +kernel⟩

theorem algebra_laws_branching :
    ∃ y ∈ branchingNested.sets, ∃ z ∈ branchingNested.sets, z.contains [1] = true ∧
      z.contains [1, 2] = true ∧ SetLaws branchingNested branchingSet y z ∧
      ProductLaws branchingNested branchingSet y z ∧
      RestrictLaws branchingNested branchingSet y z ∧
      SliceLaws branchingNested branchingSet [1, 2, 3, 4] 1 1 := by
  have hx : branchingSet ∈ branchingNested.sets :=
    branchingNested_subset _ (List.mem_cons_of_mem _ branchingSet_mem)
  have hy : branchingNext.sets.head (by decide +kernel) ∈ branchingNested.sets :=
    branchingNested_subset _ (List.head_mem _)
  obtain ⟨z, hz, hz1, hz2⟩ := exists_nested
  exact ⟨_, hy, z, hz, hz1, hz2, algebra_laws (branchingNested_reachable Blake3.hash)
    (branchingNested_collisionFree _) hx hy hz [1, 2, 3, 4] 1 1⟩

end Session

end ByteTrie
