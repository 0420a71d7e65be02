import ByteTrie.Proofs.Occupancy
import Mathlib

/-!
# Counting place by place

The counts of a trie can be collected by a walk that keeps the places it still has to visit, each with
its depth.  A visit adds what the node has to rows that grow on demand, and puts the children with the
pending places.  Whichever pending place is visited next, the walk ends after as many visits as there
are places, and with the same counts.

    c.visit v              the counts c with those of the place v
    Walk t k pending c     after k visits of places of t, those in pending are left, and c was counted

    vs ++ (visits below pending) ~ t.visits 0     where vs was visited
-/

namespace ByteTrie

open Trie Pool

/-- Changes entry `n` of a row, which has more entries before if it ends earlier. -/
def growModify {α : Type} (zero : α) (f : α → α) (n : Nat) (xs : List α) : List α :=
  (xs.rightpad (n + 1) zero).modify n f

/-- What a walk has counted so far. -/
structure Census where
  byDepth : List DepthCounts
  byLength : List Nat
  seen : Finset Nat

namespace Census

def start : Census := ⟨[], [], ∅⟩

/-- Adds the counts of a node at its depth. -/
def deposit (ds : List DepthCounts) (v : Trie × Nat) : List DepthCounts :=
  growModify ⟨0, 0, 0, 0⟩ (·.add v.1.ownCounts) v.2 ds

/-- Counts one more key of the length of that of an edge. -/
def measure (ns : List Nat) (e : Edge Trie) : List Nat := growModify 0 (· + 1) e.key.length ns

def visit (c : Census) (v : Trie × Nat) : Census where
  byDepth := deposit c.byDepth v
  byLength := v.1.edges.foldl measure c.byLength
  seen := insert v.1.id c.seen

end Census

/-- `k` visits are made, `pending` holds the places that are left, and `c` what was counted. -/
inductive Walk (t : Trie) : Nat → List (Trie × Nat) → Census → Prop
  | start : Walk t 0 [(t, 0)] .start
  | visit {k d : Nat} {pending rest : List (Trie × Nat)} {c : Census} {u : Trie}
      (h : Walk t k pending c) (hu : pending.Perm ((u, d) :: rest)) :
      Walk t (k + 1) (rest ++ u.edges.map fun e => (e.child, d + 1)) (c.visit (u, d))

/-! ## Rows that grow -/

section

variable {α : Type} (zero : α) (f g : α → α)

theorem growModify_zero_nil : growModify zero f 0 [] = [f zero] := rfl

theorem growModify_zero_cons (x : α) (xs : List α) :
    growModify zero f 0 (x :: xs) = f x :: xs := by
  simp [growModify, List.rightpad]

theorem growModify_succ_nil (n : Nat) :
    growModify zero f (n + 1) [] = zero :: growModify zero f n [] := rfl

theorem growModify_succ_cons (n : Nat) (x : α) (xs : List α) :
    growModify zero f (n + 1) (x :: xs) = x :: growModify zero f n xs := by
  simp [growModify, List.rightpad]

theorem growModify_comm (h : ∀ x, f (g x) = g (f x)) (m n : Nat) (xs : List α) :
    growModify zero f m (growModify zero g n xs) =
      growModify zero g n (growModify zero f m xs) := by
  induction m generalizing n xs with
  | zero =>
    cases n <;> cases xs <;> simp only [growModify_zero_nil, growModify_zero_cons,
      growModify_succ_nil, growModify_succ_cons, h]
  | succ m ih =>
    cases n <;> cases xs <;> simp only [growModify_zero_nil, growModify_zero_cons,
      growModify_succ_nil, growModify_succ_cons, ih]

theorem length_growModify (n : Nat) (xs : List α) :
    (growModify zero f n xs).length = max (n + 1) xs.length := by
  rw [growModify, List.length_modify, List.length_rightpad]

/-- What a row does not have counts as `zero` before and after. -/
theorem getD_growModify (n i : Nat) (xs : List α) : (growModify zero f n xs).getD i zero =
    if i = n then f (xs.getD n zero) else xs.getD i zero := by
  induction n generalizing i xs with
  | zero =>
    cases i <;> cases xs <;> simp [growModify_zero_nil, growModify_zero_cons]
  | succ n ih =>
    simp only [List.getD_eq_getElem?_getD] at ih
    cases i <;> cases xs <;> simp [growModify_succ_nil, growModify_succ_cons, ih]

end

theorem bound_cons (n : Nat) (ns : List Nat) : bound (n :: ns) = max (n + 1) (bound ns) := by
  refine eq_of_forall_ge_iff fun b => ?_
  rw [bound_le_iff, List.forall_mem_cons, Nat.max_le, bound_le_iff]
  exact Iff.rfl

/-- One more number is counted. -/
theorem growModify_tally (n : Nat) (ns : List Nat) :
    growModify 0 (· + 1) n (tally ns) = tally (n :: ns) := by
  refine List.ext_getElem ?_ fun i hi hj => ?_
  · rw [length_growModify, length_tally, length_tally, bound_cons]
  · have hget := getD_growModify 0 (· + 1) n i (tally ns)
    rw [← List.getD_eq_getElem _ 0 hi, ← List.getD_eq_getElem _ 0 hj, hget, getD_tally, getD_tally,
      getD_tally, List.count_cons]
    grind

/-! ## The counts of all places -/

namespace DepthCounts

theorem add_assoc (a b c : DepthCounts) : (a.add b).add c = a.add (b.add c) := by
  simp only [add, Nat.add_assoc, Nat.max_assoc]

theorem add_right_comm (a b c : DepthCounts) : (a.add b).add c = (a.add c).add b := by
  simp only [add, Nat.add_right_comm, Nat.max_assoc, Nat.max_comm b.maxItems]

theorem addAll_assoc (as bs cs : List DepthCounts) :
    addAll (addAll as bs) cs = addAll as (addAll bs cs) := by
  induction as generalizing bs cs with
  | nil => cases bs <;> cases cs <;> rfl
  | cons a as ih =>
    cases bs with
    | nil => cases cs <;> rfl
    | cons b bs =>
      cases cs with
      | nil => rfl
      | cons c cs => simp only [addAll, add_assoc, ih]

theorem nil_addAll (bs : List DepthCounts) : addAll [] bs = bs := by
  cases bs <;> rfl

theorem addAll_nil (as : List DepthCounts) : addAll as [] = as := by
  cases as <;> rfl

end DepthCounts

namespace Census

open DepthCounts

theorem deposit_comm (ds : List DepthCounts) (v w : Trie × Nat) :
    deposit (deposit ds v) w = deposit (deposit ds w) v :=
  growModify_comm _ _ _ (fun d => DepthCounts.add_right_comm d _ _) _ _ _

/-- Below the root the first entry of the counts is left alone. -/
theorem foldl_deposit_succ (vs : List (Trie × Nat)) (d : DepthCounts) (ds : List DepthCounts) :
    (vs.map fun v => (v.1, v.2 + 1)).foldl deposit (d :: ds) = d :: vs.foldl deposit ds := by
  induction vs generalizing ds with
  | nil => rfl
  | cons v vs ih =>
    rw [List.map_cons, List.foldl_cons, deposit, growModify_succ_cons, ih]
    rfl

theorem deposit_root (ds : List DepthCounts) (t : Trie) :
    deposit ds (t, 0) = addAll ds [t.ownCounts] := by
  cases ds with
  | nil => simp [deposit, growModify_zero_nil, addAll, add]
  | cons d ds => rw [deposit, growModify_zero_cons, addAll, addAll_nil]

/-- All places together have the counts by depth. -/
theorem foldl_deposit_visits (t : Trie) (ds : List DepthCounts) :
    (t.visits 0).foldl deposit ds = addAll ds t.depthCounts := by
  refine edgeInduction (fun t => ∀ ds, (t.visits 0).foldl deposit ds = addAll ds t.depthCounts)
    (fun es => ∀ ds, (edgeVisits es 0).foldl deposit ds = addAll ds (edgeDepthCounts es))
    ?node ?nil ?cons t ds
  case node =>
    intro t ih ds
    have hbelow : edgeVisits t.edges 1 = (edgeVisits t.edges 0).map fun v => (v.1, v.2 + 1) := by
      rw [edgeVisits_eq, edgeVisits_eq, List.map_flatMap]
      exact List.flatMap_congr fun e _ => visits_succ e.child 0
    rw [visits_eq, hbelow, List.foldl_cons, depthCounts_eq, deposit_root]
    cases ds with
    | nil => rw [nil_addAll, foldl_deposit_succ, ih, nil_addAll, nil_addAll]
    | cons d ds => rw [addAll, addAll_nil, foldl_deposit_succ, ih, addAll]
  case nil =>
    intro ds
    rw [edgeVisits, edgeDepthCounts, addAll_nil, List.foldl_nil]
  case cons =>
    rintro ⟨b, k, s⟩ es ihs ihes ds
    rw [edgeVisits, List.foldl_append, ihs, ihes, addAll_assoc, edgeDepthCounts]

theorem foldl_measure (es : List (Edge Trie)) (ns : List Nat) :
    es.foldl measure (tally ns) = tally ((es.map fun e => e.key.length).reverse ++ ns) := by
  induction es generalizing ns with
  | nil => rfl
  | cons e es ih =>
    rw [List.foldl_cons, measure, growModify_tally, ih, List.map_cons, List.reverse_cons,
      List.append_assoc]
    rfl

theorem byDepth_foldl_visit (vs : List (Trie × Nat)) (c : Census) :
    (vs.foldl visit c).byDepth = vs.foldl deposit c.byDepth := by
  induction vs generalizing c with
  | nil => rfl
  | cons v vs ih => rw [List.foldl_cons, ih]; rfl

theorem byLength_foldl_visit (vs : List (Trie × Nat)) {c : Census} {ns : List Nat}
    (hc : c.byLength = tally ns) : (vs.foldl visit c).byLength =
      tally ((vs.flatMap fun v => v.1.edges.map fun e => e.key.length) ++ ns) := by
  induction vs generalizing c ns with
  | nil => exact hc
  | cons v vs ih =>
    have hvisit : (c.visit v).byLength =
        tally ((v.1.edges.map fun e => e.key.length).reverse ++ ns) := by
      rw [visit, hc, foldl_measure]
    rw [List.foldl_cons, ih hvisit, List.flatMap_cons]
    refine tally_eq_of_perm ((List.perm_append_comm_assoc _ _ _).trans ?_)
    rw [List.append_assoc]
    exact (List.reverse_perm _).append_right _

theorem mem_seen_foldl_visit (vs : List (Trie × Nat)) (c : Census) (i : Nat) :
    i ∈ (vs.foldl visit c).seen ↔ (∃ v ∈ vs, v.1.id = i) ∨ i ∈ c.seen := by
  induction vs generalizing c with
  | nil => simp
  | cons v vs ih =>
    rw [List.foldl_cons, ih, visit, Finset.mem_insert, List.exists_mem_cons_iff, or_left_comm,
      or_assoc, eq_comm]

/-- The walk has counted what the occupancy says. -/
structure Agrees (c : Census) (o : Occupancy) : Prop where
  byDepth : c.byDepth = o.byDepth
  byLength : c.byLength = o.byLength
  seen : c.seen.card = o.distinct

/-- The order of the visits makes no difference. -/
theorem agrees_of_perm {P : Pool} {t : Trie} (ht : t ∈ P) {vs : List (Trie × Nat)}
    (h : vs.Perm (t.visits 0)) : (vs.foldl visit start).Agrees (.ofTrie t) where
  byDepth := by
    rw [byDepth_foldl_visit, h.foldl_eq' fun v _ w _ ds => deposit_comm ds v w,
      foldl_deposit_visits, start, nil_addAll]
    rfl
  byLength := by
    rw [byLength_foldl_visit vs (show start.byLength = tally [] from rfl), List.append_nil]
    exact tally_eq_of_perm ((h.flatMap_right _).trans (perm_keyLengthsOnto t 0))
  seen := by
    have hids : ((vs.foldl visit start).seen : Set Nat) = Trie.id '' {u | IsNode u t} := by
      ext i
      rw [SetLike.mem_coe, mem_seen_foldl_visit]
      constructor
      · rintro (⟨v, hv, rfl⟩ | hi)
        · exact ⟨v.1, (exists_mem_visits_iff v.1 t 0).mp ⟨v, h.mem_iff.mp hv, rfl⟩, rfl⟩
        · exact absurd hi (Finset.notMem_empty i)
      · rintro ⟨u, hu, rfl⟩
        obtain ⟨v, hv, rfl⟩ := (exists_mem_visits_iff u t 0).mpr hu
        exact Or.inl ⟨v, h.mem_iff.mpr hv, rfl⟩
    have hinj := P.injOn_id (S := {u | IsNode u t}) fun u hu => Pool.mem_of_isNode hu ht
    refine Nat.cast_injective (R := ℕ∞) ?_
    rw [Occupancy.ofTrie, distinctNodes_eq_encard ht, ← hinj.encard_image, ← hids,
      Set.encard_coe_eq_coe_finsetCard]

end Census

/-! ## Walks -/

namespace Walk

variable {t : Trie} {k : Nat} {pending : List (Trie × Nat)} {c : Census}

/-- What was visited and what is below the pending places are the places of the trie. -/
theorem exists_visited (h : Walk t k pending c) : ∃ vs : List (Trie × Nat),
    vs.length = k ∧ c = vs.foldl Census.visit .start ∧
      (vs ++ pending.flatMap fun v => v.1.visits v.2).Perm (t.visits 0) := by
  induction h with
  | start => exact ⟨[], rfl, rfl, by simp⟩
  | @visit k d pending rest c u _ hu ih =>
    obtain ⟨vs, rfl, rfl, hvs⟩ := ih
    refine ⟨vs ++ [(u, d)], List.length_append, by rw [List.foldl_append]; rfl, ?_⟩
    have hbelow := (hu.flatMap_right fun v : Trie × Nat => v.1.visits v.2)
    rw [List.flatMap_cons, visits_eq, edgeVisits_eq] at hbelow
    refine List.Perm.trans ?_ hvs
    rw [List.append_assoc, List.singleton_append, List.flatMap_append, List.flatMap_map]
    refine List.Perm.append_left vs (List.Perm.trans ?_ hbelow.symm)
    exact List.Perm.cons (u, d) List.perm_append_comm

theorem add_length_le (h : Walk t k pending c) : k + pending.length ≤ t.sumOver fun _ => 1 := by
  obtain ⟨vs, rfl, -, hvs⟩ := h.exists_visited
  have hle : pending.length ≤ (pending.flatMap fun v => v.1.visits v.2).length := by
    rw [List.length_flatMap, ← total_map_one]
    refine total_map_le fun v _ => ?_
    rw [visits_eq]
    exact Nat.succ_pos _
  rw [← length_visits t 0, ← hvs.length_eq, List.length_append]
  exact Nat.add_le_add_left hle _

/-- A walk ends after as many visits as there are places, and not before. -/
theorem eq_nil_iff (h : Walk t k pending c) : pending = [] ↔ k = t.sumOver fun _ => 1 := by
  constructor
  · rintro rfl
    obtain ⟨vs, rfl, -, hvs⟩ := h.exists_visited
    rw [List.flatMap_nil, List.append_nil] at hvs
    rw [hvs.length_eq, length_visits]
  · intro hk
    have hle := h.add_length_le
    exact List.eq_nil_of_length_eq_zero (by omega)

theorem agrees {P : Pool} (ht : t ∈ P) (h : Walk t k [] c) : c.Agrees (.ofTrie t) := by
  obtain ⟨vs, -, rfl, hvs⟩ := h.exists_visited
  rw [List.flatMap_nil, List.append_nil] at hvs
  exact Census.agrees_of_perm ht hvs

theorem exists_of_le (hk : k ≤ t.sumOver fun _ => 1) : ∃ pending c, Walk t k pending c := by
  induction k with
  | zero => exact ⟨_, _, .start⟩
  | succ k ih =>
    obtain ⟨pending, c, h⟩ := ih (Nat.le_of_succ_le hk)
    cases pending with
    | nil => exact absurd (h.eq_nil_iff.mp rfl) (Nat.ne_of_lt hk)
    | cons v rest => exact ⟨_, _, h.visit (List.Perm.refl _)⟩

theorem exists_finished (t : Trie) : ∃ c, Walk t (t.sumOver fun _ => 1) [] c := by
  obtain ⟨pending, c, h⟩ := exists_of_le (t := t) (Nat.le_refl _)
  obtain rfl := h.eq_nil_iff.mpr rfl
  exact ⟨c, h⟩

end Walk

namespace Session

/-- The occupancy of a set describes its trie, and a walk over its places ends with the same counts
whichever pending place it visits next. -/
theorem occupancy_describes {hash : HashFunction} {σ : Session} (h : Reachable hash σ)
    (hc : CollisionFree hash σ.interned) {x : Trie} (hx : x ∈ σ.sets) :
    (Occupancy.ofTrie x).Describes x ∧
    (∃ c, Walk x (Occupancy.ofTrie x).nodes [] c) ∧
    ∀ k pending c, Walk x k pending c → k + pending.length ≤ (Occupancy.ofTrie x).nodes ∧
      (pending = [] ↔ k = (Occupancy.ofTrie x).nodes) ∧
      (pending = [] → c.Agrees (Occupancy.ofTrie x)) := by
  obtain ⟨P, hP⟩ := h.exists_pool hc
  have hxP := hP.sets x hx
  rw [Occupancy.nodes_ofTrie]
  refine ⟨Occupancy.describes (canonical hxP), Walk.exists_finished x, fun k pending c hw =>
    ⟨hw.add_length_le, hw.eq_nil_iff, ?_⟩⟩
  rintro rfl
  exact hw.agrees hxP

/-- Three members make two places besides them, and a walk ends after five visits. -/
theorem occupancy_describes_branching :
    (Occupancy.ofTrie branchingSet).Describes branchingSet ∧
    ∃ c, Walk branchingSet 5 [] c ∧ c.byLength = [0, 2, 2] ∧ c.byDepth.length = 3 := by
  have hnodes : (Occupancy.ofTrie branchingSet).nodes = 5 := by decide +kernel
  have hlength : (Occupancy.ofTrie branchingSet).byLength = [0, 2, 2] := by decide +kernel
  have hdepth : (Occupancy.ofTrie branchingSet).byDepth.length = 3 := by decide +kernel
  obtain ⟨hdescribes, ⟨c, hc⟩, hwalk⟩ := occupancy_describes (branching_reachable Blake3.hash)
    (branching_collisionFree _) branchingSet_mem
  obtain ⟨-, -, hagrees⟩ := hwalk _ [] c hc
  rw [hnodes] at hc
  exact ⟨hdescribes, c, hc, (hagrees rfl).byLength.trans hlength,
    (congrArg List.length (hagrees rfl).byDepth).trans hdepth⟩

end Session

end ByteTrie
