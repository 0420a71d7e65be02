import ByteTrie.Proofs.Pool
import ByteTrie.Trie.Build
import Mathlib

/-!
# Sets made of lists of paths

`sortDedup` gives a strictly ascending list of the same paths.  In such a list the paths that start
with one byte are neighbours, and what the first and the last of them share is shared by all paths
between the two, so the edge that is made for them is as long as it can be.

    makes_ofPaths ps        p ∈ t   iff  p ∈ ps
-/

namespace ByteTrie

open Trie Pool

/-! ## Repetitions -/

theorem mem_eraseReps_loop {α : Type} [BEq α] [LawfulBEq α] (a p : α) (ps acc : List α) :
    p ∈ List.eraseRepsBy.loop (· == ·) a ps acc ↔ p ∈ acc ∨ p = a ∨ p ∈ ps := by
  induction ps generalizing a acc with
  | nil => simp [List.eraseRepsBy.loop, or_comm]
  | cons b ps ih =>
    rw [List.eraseRepsBy.loop]
    split
    · next h =>
      obtain rfl : a = b := beq_iff_eq.mp h
      rw [ih, List.mem_cons]
      tauto
    · rw [ih, List.mem_cons, List.mem_cons]
      tauto

/-- Erasing repetitions from an ascending list, after a descending row of lesser ones. -/
theorem pairwise_eraseReps_loop {α : Type} [BEq α] [LawfulBEq α] [LE α] [LT α]
    (hle : ∀ a b : α, a ≤ b → a ≠ b → a < b) (htrans : ∀ a b c : α, a < b → b < c → a < c)
    (a : α) (ps acc : List α) (h : (a :: ps).Pairwise (· ≤ ·))
    (hacc : (a :: acc).Pairwise (· > ·)) :
    (List.eraseRepsBy.loop (· == ·) a ps acc).Pairwise (· < ·) := by
  induction ps generalizing a acc with
  | nil => rwa [List.eraseRepsBy.loop, List.pairwise_reverse]
  | cons b ps ih =>
    obtain ⟨hab, hps⟩ := List.pairwise_cons.mp h
    rw [List.eraseRepsBy.loop]
    split
    · next heq =>
      obtain rfl : a = b := beq_iff_eq.mp heq
      exact ih a acc hps hacc
    · next hne =>
      have hlt : a < b := hle a b (hab b List.mem_cons_self) fun heq => by simp [heq] at hne
      refine ih b (a :: acc) hps (List.pairwise_cons.mpr ⟨?_, hacc⟩)
      intro c hc
      rcases List.mem_cons.mp hc with rfl | hc
      · exact hlt
      · exact htrans c a b ((List.pairwise_cons.mp hacc).1 c hc) hlt

theorem pairwise_eraseReps {α : Type} [BEq α] [LawfulBEq α] [LE α] [LT α]
    (hle : ∀ a b : α, a ≤ b → a ≠ b → a < b) (htrans : ∀ a b c : α, a < b → b < c → a < c)
    {ps : List α} (h : ps.Pairwise (· ≤ ·)) : ps.eraseReps.Pairwise (· < ·) := by
  rw [List.eraseReps]
  cases ps with
  | nil => exact List.Pairwise.nil
  | cons a qs => exact pairwise_eraseReps_loop hle htrans a qs [] h (List.pairwise_singleton _ _)

theorem mem_eraseReps {α : Type} [BEq α] [LawfulBEq α] (p : α) (ps : List α) :
    p ∈ ps.eraseReps ↔ p ∈ ps := by
  rw [List.eraseReps]
  cases ps with
  | nil => rfl
  | cons a qs =>
    rw [List.eraseRepsBy, mem_eraseReps_loop, List.mem_cons]
    simp

/-! ## Order of paths -/

namespace Path

theorem mem_sortDedup (p : Path) (ps : List Path) : p ∈ sortDedup ps ↔ p ∈ ps := by
  rw [sortDedup, mem_eraseReps, List.mem_mergeSort]

theorem pairwise_sortDedup (ps : List Path) : (sortDedup ps).Pairwise (· < ·) := by
  have hlt : ∀ a b : Path, a ≤ b → a ≠ b → a < b := fun a b hab hne =>
    (List.le_iff_lt_or_eq.mp hab).resolve_right hne
  exact pairwise_eraseReps hlt (fun _ _ _ => List.lt_trans) (List.pairwise_mergeSort' (· ≤ ·) ps)

/-- What two paths start with, the paths between them start with. -/
theorem prefix_of_between {c p q r : Path} (hp : c <+: p) (hr : c <+: r) (hpq : p ≤ q)
    (hqr : q ≤ r) : c <+: q := by
  induction c generalizing p q r with
  | nil => exact List.nil_prefix
  | cons x c ih =>
    obtain ⟨p, rfl⟩ := hp
    obtain ⟨r, rfl⟩ := hr
    simp only [List.cons_append] at hpq hqr
    cases q with
    | nil => simp at hpq
    | cons y q =>
      rw [List.cons_le_cons_iff] at hpq hqr
      obtain rfl : x = y := by
        rcases hpq with hxy | ⟨hxy, -⟩
        · rcases hqr with hyx | ⟨hyx, -⟩
          · exact absurd hyx (UInt8.lt_asymm hxy)
          · exact hyx.symm
        · exact hxy
      have hpq' : c ++ p ≤ q := by simpa using hpq
      have hqr' : q ≤ c ++ r := by simpa using hqr
      exact List.cons_prefix_cons.mpr
        ⟨rfl, ih (List.prefix_append c p) (List.prefix_append c r) hpq' hqr'⟩

theorem lt_of_append_lt_append {c p q : Path} (h : c ++ p < c ++ q) : p < q := by
  induction c with
  | nil => exact h
  | cons x c ih => exact ih (by simpa using h)

theorem nil_mem_iff_head {ps : List Path} (h : ps.Pairwise (· < ·)) :
    [] ∈ ps ↔ (ps.head? == some []) = true := by
  cases ps with
  | nil => simp
  | cons p ps =>
    constructor
    · intro hn
      rcases List.mem_cons.mp hn with rfl | hn
      · rfl
      · exact absurd ((List.pairwise_cons.mp h).1 [] hn) (List.not_lt_nil p)
    · intro hp
      simp only [List.head?_cons, beq_iff_eq, Option.some.injEq] at hp
      simp [hp]

end Path

/-! ## Paths with one first byte -/

section Group

variable {b : UInt8} {p : Path} {ps : List Path}

theorem cons_of_mem_takeWhile {q : Path}
    (hq : q ∈ ps.takeWhile fun q => q.head? == some b) : ∃ q', q = b :: q' := by
  have h := List.mem_takeWhile_imp hq
  cases q with
  | nil => simp at h
  | cons c q' =>
    simp only [List.head?_cons, beq_iff_eq, Option.some.injEq] at h
    exact ⟨q', by rw [h]⟩

/-- Behind the paths that start with `b` stand those that start with greater bytes. -/
theorem lt_of_mem_dropWhile (h : ((b :: p) :: ps).Pairwise (· < ·)) :
    ∀ q ∈ ps.dropWhile fun q => q.head? == some b, ∃ c q', q = c :: q' ∧ b < c := by
  induction ps with
  | nil => simp
  | cons r ps ih =>
    obtain ⟨hr, hps⟩ := List.pairwise_cons.mp h
    intro q hq
    rw [List.dropWhile_cons] at hq
    split at hq
    · refine ih (List.pairwise_cons.mpr ⟨?_, (List.pairwise_cons.mp hps).2⟩) q hq
      exact fun s hs => hr s (List.mem_cons_of_mem r hs)
    · next hn =>
      have hrq : r ≤ q := by
        rcases List.mem_cons.mp hq with rfl | hq
        · exact List.le_refl q
        · exact List.le_of_lt ((List.pairwise_cons.mp hps).1 q hq)
      have hbr := hr r List.mem_cons_self
      cases r with
      | nil => simp at hbr
      | cons c r' =>
        have hbc : b < c := by
          rcases List.cons_lt_cons_iff.mp hbr with hlt | ⟨rfl, -⟩
          · exact hlt
          · simp at hn
        cases q with
        | nil => simp at hrq
        | cons d q' =>
          refine ⟨d, q', rfl, ?_⟩
          rcases List.cons_le_cons_iff.mp hrq with hcd | ⟨rfl, -⟩
          · exact UInt8.lt_trans hbc hcd
          · exact hbc

/-- The paths behind the byte `b` of those that start with it: `p`, and those of its neighbours. -/
def groupTails (b : UInt8) (p : Path) (ps : List Path) : List Path :=
  p :: (ps.takeWhile fun q => q.head? == some b).map fun q => q.drop 1

theorem mem_groupTails (h : ((b :: p) :: ps).Pairwise (· < ·)) (q : Path) :
    q ∈ groupTails b p ps ↔ b :: q ∈ (b :: p) :: ps := by
  rw [groupTails, List.mem_cons, List.mem_cons, List.mem_map]
  constructor
  · rintro (rfl | ⟨r, hr, rfl⟩)
    · exact Or.inl rfl
    · obtain ⟨q, rfl⟩ := cons_of_mem_takeWhile hr
      exact Or.inr ((List.takeWhile_sublist _).mem hr)
  · rintro (heq | hq)
    · exact Or.inl (List.cons.inj heq).2
    · right
      rw [← List.takeWhile_append_dropWhile (p := fun q => q.head? == some b) (l := ps),
        List.mem_append] at hq
      rcases hq with hq | hq
      · exact ⟨b :: q, hq, rfl⟩
      · obtain ⟨c, q', heq, hbc⟩ := lt_of_mem_dropWhile h _ hq
        obtain rfl := (List.cons.inj heq).1
        exact absurd hbc (UInt8.lt_irrefl _)

/-- The group of the paths that start with `b`, from their parts behind that byte. -/
theorem cons_takeWhile_eq_map (b : UInt8) (p : Path) (ps : List Path) :
    ((b :: p) :: ps.takeWhile fun q => q.head? == some b) = (groupTails b p ps).map (b :: ·) := by
  rw [groupTails, List.map_cons, List.map_map]
  congr 1
  conv_lhs => rw [← List.map_id (ps.takeWhile _)]
  apply List.map_congr_left
  intro q hq
  obtain ⟨q, rfl⟩ := cons_of_mem_takeWhile hq
  rfl

theorem pairwise_groupTails (h : ((b :: p) :: ps).Pairwise (· < ·)) :
    (groupTails b p ps).Pairwise (· < ·) := by
  have sorted : ((b :: p) :: ps.takeWhile fun q => q.head? == some b).Pairwise (· < ·) :=
    h.sublist ((List.takeWhile_sublist _).cons_cons _)
  rw [cons_takeWhile_eq_map, List.pairwise_map] at sorted
  exact sorted.imp fun hlt => Path.lt_of_append_lt_append (c := [b]) hlt

/-- How many bytes the paths of the group share behind the first one. -/
def sharedLength (b : UInt8) (p : Path) (ps : List Path) : Nat :=
  Path.overlap p ((groupTails b p ps).getLastD p)

/-- The paths of the group behind what they share. -/
def groupBelow (b : UInt8) (p : Path) (ps : List Path) : List Path :=
  (groupTails b p ps).map fun q => q.drop (sharedLength b p ps)

theorem getLastD_mem_groupTails : (groupTails b p ps).getLastD p ∈ groupTails b p ps := by
  rw [List.getLastD_eq_getLast?, List.getLast?_eq_some_getLast (by simp [groupTails])]
  exact List.getLast_mem _

/-- What the first and the last path share is the front of all. -/
theorem shared_prefix (h : ((b :: p) :: ps).Pairwise (· < ·)) :
    ∀ q ∈ groupTails b p ps, p.take (sharedLength b p ps) <+: q := by
  intro q hq
  have sorted := pairwise_groupTails h
  have hfirst : p ≤ q := by
    rw [groupTails] at hq sorted
    rcases List.mem_cons.mp hq with rfl | hq
    · exact List.le_refl q
    · exact List.le_of_lt ((List.pairwise_cons.mp sorted).1 q hq)
  have hlast : q ≤ (groupTails b p ps).getLastD p := by
    rw [List.getLastD_eq_getLast?, List.getLast?_eq_some_getLast (List.ne_nil_of_mem hq)]
    exact List.Pairwise.rel_getLast (R := (· ≤ ·)) (sorted.imp List.le_of_lt) hq
  refine Path.prefix_of_between (List.take_prefix _ p) ?_ hfirst hlast
  rw [sharedLength, Path.take_overlap]
  exact List.take_prefix _ _

theorem drop_shared (h : ((b :: p) :: ps).Pairwise (· < ·)) {q : Path}
    (hq : q ∈ groupTails b p ps) :
    p.take (sharedLength b p ps) ++ q.drop (sharedLength b p ps) = q := by
  have hlen : (p.take (sharedLength b p ps)).length = sharedLength b p ps := by
    rw [List.length_take]
    exact Nat.min_eq_left (Path.overlap_le_left p _)
  obtain ⟨r, rfl⟩ := shared_prefix h q hq
  rw [List.drop_append_of_le_length (Nat.le_of_eq hlen.symm), List.drop_of_length_le
    (Nat.le_of_eq hlen), List.nil_append]

theorem mem_groupBelow (h : ((b :: p) :: ps).Pairwise (· < ·)) (q : Path) :
    q ∈ groupBelow b p ps ↔ b :: (p.take (sharedLength b p ps) ++ q) ∈ (b :: p) :: ps := by
  rw [← mem_groupTails h, groupBelow, List.mem_map]
  constructor
  · rintro ⟨r, hr, rfl⟩
    rwa [drop_shared h hr]
  · intro hq
    exact ⟨_, hq, List.append_cancel_left (drop_shared h hq)⟩

theorem pairwise_groupBelow (h : ((b :: p) :: ps).Pairwise (· < ·)) :
    (groupBelow b p ps).Pairwise (· < ·) := by
  rw [groupBelow, List.pairwise_map]
  refine (pairwise_groupTails h).imp_of_mem fun hq hr hlt => ?_
  rw [← drop_shared h hq, ← drop_shared h hr] at hlt
  exact Path.lt_of_append_lt_append hlt

/-- What the group shares is all that it shares: two of its paths part behind it. -/
theorem exists_parting (b : UInt8) (p : Path) (ps : List Path) :
    ∃ q ∈ groupBelow b p ps, ∃ r ∈ groupBelow b p ps,
      ∀ x q' y r', q = x :: q' → r = y :: r' → x ≠ y := by
  refine ⟨_, List.mem_map.mpr ⟨p, List.mem_cons_self, rfl⟩, _,
    List.mem_map.mpr ⟨_, getLastD_mem_groupTails, rfl⟩, ?_⟩
  intro x q' y r' hq hr
  exact Path.ne_of_drop_overlap hq hr

end Group

/-! ## Building -/

/-- The empty path, or two paths that go on with different bytes, are a reason for a node. -/
theorem isInner_of_mem {t : Trie} {p q : Path} (hp : p ∈ t) (hq : q ∈ t)
    (h : ∀ x p' y q', p = x :: p' → q = y :: q' → x ≠ y) : t.IsInner := by
  rcases (Trie.mem_iff t p).mp hp with ⟨-, ht⟩ | ⟨e, he, p', -, rfl⟩
  · exact Or.inl ht
  · rcases (Trie.mem_iff t q).mp hq with ⟨-, ht⟩ | ⟨f, hf, q', -, rfl⟩
    · exact Or.inl ht
    · right
      have hne : e ≠ f := by
        rintro rfl
        exact h e.first (e.rest ++ p') e.first (e.rest ++ q') rfl rfl rfl
      match hes : t.edges with
      | [] => simp [hes] at he
      | [g] =>
        rw [hes, List.mem_singleton] at he hf
        exact absurd (he.trans hf.symm) hne
      | _ :: _ :: _ => simp

/-- A node made for an ascending list of paths has these paths. -/
theorem mem_node_iff {t : Trie} {ps : List Path} (h : ps.Pairwise (· < ·))
    (ht : t.terminal = (ps.head? == some []))
    (hes : edgeMembers t.edges = {p | p ≠ [] ∧ p ∈ ps}) (p : Path) : p ∈ t ↔ p ∈ ps := by
  rw [Trie.mem_iff, ht, ← Path.nil_mem_iff_head h, hes, Set.mem_ofPred_eq]
  constructor
  · rintro (⟨rfl, hn⟩ | ⟨-, hp⟩)
    · exact hn
    · exact hp
  · intro hp
    cases p with
    | nil => exact Or.inl ⟨rfl, hp⟩
    | cons b p => exact Or.inr ⟨List.cons_ne_nil b p, hp⟩

/-- The edge for a group and the edges for the paths behind it have all paths but the empty one. -/
theorem edgeMembers_group {b : UInt8} {p : Path} {ps : List Path} {child : Trie}
    {es : List (Edge Trie)} (h : ((b :: p) :: ps).Pairwise (· < ·))
    (hchild : ∀ q, q ∈ child ↔ q ∈ groupBelow b p ps)
    (hes : edgeMembers es = {q | q ≠ [] ∧ q ∈ ps.dropWhile fun q => q.head? == some b}) :
    edgeMembers (⟨b, p.take (sharedLength b p ps), child⟩ :: es) =
      {q | q ≠ [] ∧ q ∈ (b :: p) :: ps} := by
  ext q
  rw [edgeMembers_cons, Set.mem_union, hes]
  constructor
  · rintro (⟨e, he, r, hr, rfl⟩ | ⟨hne, hq⟩)
    · obtain rfl := List.mem_singleton.mp he
      exact ⟨List.cons_ne_nil _ _, (mem_groupBelow h r).mp ((hchild r).mp hr)⟩
    · exact ⟨hne, List.mem_cons_of_mem _ ((List.dropWhile_sublist _).mem hq)⟩
  · rintro ⟨hne, hq⟩
    cases q with
    | nil => exact absurd rfl hne
    | cons c q =>
      by_cases hcb : c = b
      · left
        subst hcb
        have heq := drop_shared h ((mem_groupTails h q).mpr hq)
        refine ⟨_, List.mem_singleton_self _, q.drop (sharedLength c p ps), ?_, ?_⟩
        · rw [hchild, mem_groupBelow h, heq]
          exact hq
        · exact congrArg (c :: ·) heq.symm
      · right
        refine ⟨hne, ?_⟩
        rcases List.mem_cons.mp hq with heq | hq
        · exact absurd (List.cons.inj heq).1 hcb
        · rw [← List.takeWhile_append_dropWhile (p := fun q => q.head? == some b) (l := ps),
            List.mem_append] at hq
          rcases hq with hq | hq
          · obtain ⟨q', heq⟩ := cons_of_mem_takeWhile hq
            exact absurd (List.cons.inj heq).1 hcb
          · exact hq

namespace Trie

theorem makes_edgesOfSorted (ps : List Path) (P : Pool) (h : ps.Pairwise (· < ·)) :
    P.Makes (edgesOfSorted ps) fun Q es =>
      Q.Edges es ∧ edgeMembers es = {p | p ≠ [] ∧ p ∈ ps} := by
  induction ps using edgesOfSorted.induct generalizing P with
  | case1 =>
    rw [edgesOfSorted]
    exact makes_pure ⟨edges_nil P, by simp⟩
  | case2 ps ih =>
    rw [edgesOfSorted]
    refine (ih P (List.pairwise_cons.mp h).2).imp fun Q es _ hes => ⟨hes.1, ?_⟩
    rw [hes.2]
    ext p
    simp only [Set.mem_ofPred_eq, List.mem_cons]
    tauto
  | case3 b p ps group tails shared below ihBelow ihRest =>
    rw [edgesOfSorted]
    refine (ihBelow P (pairwise_groupBelow h)).bind fun P₁ ds hP₁ hds => ?_
    refine (makes_make hds.1 (below.head? == some [])).bind fun P₂ child hP₂ hchild => ?_
    have hrest : (ps.dropWhile fun q => q.head? == some b).Pairwise (· < ·) :=
      (List.pairwise_cons.mp h).2.sublist (List.dropWhile_sublist _)
    refine (ihRest P₂ hrest).bind_pure fun Q es hQ hes => ?_
    have hmem : ∀ q, q ∈ child ↔ q ∈ groupBelow b p ps :=
      mem_node_iff (pairwise_groupBelow h) hchild.2.1 (hchild.2.2 ▸ hds.2)
    refine ⟨Edges.cons (hQ.2 child hchild.1) ?_ ?_ hes.1, edgeMembers_group h hmem hes.2⟩
    · obtain ⟨q, hq, r, hr, hqr⟩ := exists_parting b p ps
      exact isInner_of_mem ((hmem q).mpr hq) ((hmem r).mpr hr) hqr
    · intro e he
      obtain ⟨q, hq⟩ := (hes.1.nonempty_after_iff e.first).mpr ⟨e, he, rfl⟩
      rw [mem_after, hes.2] at hq
      obtain ⟨c, q', heq, hbc⟩ := lt_of_mem_dropWhile h _ hq.2
      rwa [(List.cons.inj heq).1]

theorem makes_ofSorted (P : Pool) {ps : List Path} (h : ps.Pairwise (· < ·)) :
    P.Makes (ofSorted ps) fun Q t => t ∈ Q ∧ ∀ p, p ∈ t ↔ p ∈ ps := by
  refine (makes_edgesOfSorted ps P h).bind fun Q es hQ hes => ?_
  refine (makes_make hes.1 (ps.head? == some [])).imp fun R t _ ht => ⟨ht.1, ?_⟩
  exact mem_node_iff h ht.2.1 (ht.2.2 ▸ hes.2)

/-- The set of the paths of a list has these paths and no other. -/
theorem makes_ofPaths (P : Pool) (ps : List Path) :
    P.Makes (ofPaths ps) fun Q t => t ∈ Q ∧ ∀ p, p ∈ t ↔ p ∈ ps := by
  refine (makes_ofSorted P (Path.pairwise_sortDedup ps)).imp fun Q t _ ht => ⟨ht.1, fun p => ?_⟩
  rw [ht.2, Path.mem_sortDedup]

end Trie

end ByteTrie
