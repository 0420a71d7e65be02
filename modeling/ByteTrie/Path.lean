/-!
# Paths

A path is a string of bytes.  Paths are ordered lexicographically, a proper prefix of a path
coming before it; `sortDedup` puts a list of paths into strictly ascending order.

    (overlap p q) is the greatest n with p.take n = q.take n, n ≤ p.length and n ≤ q.length
-/

namespace ByteTrie

abbrev Path := List UInt8

namespace Path

/-- How many bytes two paths have in common at the front. -/
def overlap : Path → Path → Nat
  | x :: p, y :: q => if x = y then overlap p q + 1 else 0
  | _, _ => 0

/-- The paths of a list in strictly ascending order, each once. -/
def sortDedup (ps : List Path) : List Path :=
  (ps.mergeSort fun p q => decide (p ≤ q)).eraseReps

/-! ## Lemmas -/

@[simp] theorem overlap_nil_left (q : Path) : overlap [] q = 0 := by
  simp [overlap]

@[simp] theorem overlap_nil_right (p : Path) : overlap p [] = 0 := by
  cases p <;> simp [overlap]

@[simp] theorem overlap_cons_self (x : UInt8) (p q : Path) :
    overlap (x :: p) (x :: q) = overlap p q + 1 := by
  simp [overlap]

theorem overlap_append (p q : Path) : overlap p (p ++ q) = p.length := by
  induction p with
  | nil => simp
  | cons x p ih => rw [List.cons_append, overlap_cons_self, ih, List.length_cons]

theorem overlap_le_left (p q : Path) : overlap p q ≤ p.length := by
  induction p generalizing q with
  | nil => simp
  | cons x p ih =>
    cases q with
    | nil => simp
    | cons y q =>
      rw [overlap]
      split
      · have := ih q; simp only [List.length_cons]; omega
      · exact Nat.zero_le _

theorem overlap_comm (p q : Path) : overlap p q = overlap q p := by
  induction p generalizing q with
  | nil => simp
  | cons x p ih =>
    cases q with
    | nil => simp
    | cons y q =>
      by_cases h : x = y
      · subst h; simp [ih]
      · simp [overlap, h, Ne.symm h]

theorem overlap_le_right (p q : Path) : overlap p q ≤ q.length := by
  rw [overlap_comm]; exact overlap_le_left q p

theorem take_overlap (p q : Path) : p.take (overlap p q) = q.take (overlap p q) := by
  induction p generalizing q with
  | nil => simp
  | cons x p ih =>
    cases q with
    | nil => simp
    | cons y q =>
      by_cases h : x = y
      · subst h; simp [ih]
      · simp [overlap, h]

/-- Behind what they have in common, two paths go on with different bytes. -/
theorem ne_of_drop_overlap {p q p' q' : Path} {x y : UInt8}
    (hp : p.drop (overlap p q) = x :: p') (hq : q.drop (overlap p q) = y :: q') : x ≠ y := by
  induction p generalizing q with
  | nil => simp at hp
  | cons a p ih =>
    cases q with
    | nil => simp at hq
    | cons b q =>
      by_cases h : a = b
      · subst h
        simp only [overlap_cons_self, List.drop_succ_cons] at hp hq
        exact ih hp hq
      · simp only [overlap, h, if_false, List.drop_zero, List.cons.injEq] at hp hq
        rw [← hp.1, ← hq.1]
        exact h

theorem eq_append_of_overlap_eq {p q : Path} (h : overlap p q = p.length) :
    q = p ++ q.drop p.length := by
  have hp : p = q.take p.length := by
    rw [← h, ← take_overlap, h, List.take_length]
  exact (List.take_append_drop p.length q).symm.trans (congrArg (· ++ _) hp.symm)

/-- Two paths of which neither begins with the other part behind what they have in common. -/
theorem exists_parting {p q : Path} (hp : overlap p q ≠ p.length) (hq : overlap p q ≠ q.length) :
    ∃ c x p' y q', x ≠ y ∧ p = c ++ x :: p' ∧ q = c ++ y :: q' := by
  have hpn := overlap_le_left p q
  have hqn := overlap_le_right p q
  obtain ⟨x, p', hx⟩ : ∃ x p', p.drop (overlap p q) = x :: p' := by
    rw [← List.ne_nil_iff_exists_cons, Ne, List.drop_eq_nil_iff]
    omega
  obtain ⟨y, q', hy⟩ : ∃ y q', q.drop (overlap p q) = y :: q' := by
    rw [← List.ne_nil_iff_exists_cons, Ne, List.drop_eq_nil_iff]
    omega
  refine ⟨p.take (overlap p q), x, p', y, q', ne_of_drop_overlap hx hy, ?_, ?_⟩
  · rw [← hx, List.take_append_drop]
  · rw [← hy, take_overlap, List.take_append_drop]

end Path

end ByteTrie
