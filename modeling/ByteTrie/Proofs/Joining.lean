import ByteTrie.Proofs.Concatenation
import ByteTrie.Proofs.Expression
import Mathlib

/-!
# Unions of many sets

The union of a list is made in rounds: neighbours are joined until at most one set is left.  A list
can also be joined set by set, from its first one on or from its last one on.  All of these give one
set in one form, and so does the list in any other order.

    joinTimes k ts       so many rounds, whatever is left then
    foldedLattice        tries with the union of a list as lattices have it by default
-/

namespace ByteTrie

open Trie Pool

namespace Trie

/-- So many rounds of joining neighbours. -/
def joinTimes : Nat → List Trie → Fresh (List Trie)
  | 0, ts => return ts
  | rounds + 1, ts => do joinTimes rounds (← joinPairs ts)

/-- The lattice of tries that has no union of a list of its own. -/
@[reducible] def foldedLattice : Lattice Fresh Trie where
  join := Trie.union
  meet := Trie.inter
  bottom := Trie.empty

/-! ## Rounds -/

/-- A round halves a list, rounding up. -/
theorem length_joinPairs (ts : List Trie) (n : Nat) :
    (joinPairs ts n).1.length = (ts.length + 1) / 2 := by
  induction ts using joinPairs.induct generalizing n with
  | case1 s t ts ih =>
    have hrest := ih (s.union t n).2
    rw [joinPairs]
    show (joinPairs ts (s.union t n).2).1.length + 1 = (ts.length + 1 + 1 + 1) / 2
    omega
  | case2 ts hn =>
    rw [joinPairs]
    · show ts.length = (ts.length + 1) / 2
      cases ts with
      | nil => rfl
      | cons s us =>
        cases us with
        | nil => simp
        | cons t us => exact (hn s t us rfl).elim
    · exact hn

theorem joinPairs_of_length_le {ts : List Trie} (h : ts.length ≤ 1) : joinPairs ts = pure ts := by
  match ts, h with
  | [], _ => rfl
  | [_], _ => rfl

/-- At most one set is left if and only if there were rounds enough to halve the list so often. -/
theorem length_joinTimes_le_one_iff (k : Nat) (ts : List Trie) (n : Nat) :
    (joinTimes k ts n).1.length ≤ 1 ↔ Nat.clog 2 ts.length ≤ k := by
  induction k generalizing ts n with
  | zero => rw [Nat.clog_le_iff_le_pow Nat.one_lt_two]; rfl
  | succ k ih =>
    have hround : (joinTimes (k + 1) ts n).1.length ≤ 1 ↔
        Nat.clog 2 (joinPairs ts n).1.length ≤ k := ih (joinPairs ts n).1 (joinPairs ts n).2
    rw [hround, length_joinPairs, Nat.clog_le_iff_le_pow Nat.one_lt_two,
      Nat.clog_le_iff_le_pow Nat.one_lt_two, Nat.pow_succ]
    omega

/-- No round changes a list of at most one set. -/
theorem joinTimes_of_length_le {ts : List Trie} (h : ts.length ≤ 1) (k : Nat) :
    joinTimes k ts = pure ts := by
  induction k with
  | zero => rfl
  | succ k ih => rw [joinTimes, joinPairs_of_length_le h, pure_bind, ih]

/-- More rounds than are needed make no difference. -/
theorem joinTimes_of_clog_le {k : Nat} {ts : List Trie} (h : Nat.clog 2 ts.length ≤ k) :
    joinTimes k ts = joinTimes (Nat.clog 2 ts.length) ts := by
  obtain ⟨d, rfl⟩ := Nat.exists_eq_add_of_le h
  clear h
  generalize hj : Nat.clog 2 ts.length = j
  induction j generalizing ts with
  | zero =>
    have hle : ts.length ≤ 1 := (Nat.clog_le_iff_le_pow Nat.one_lt_two).mp (Nat.le_of_eq hj)
    rw [joinTimes_of_length_le hle, joinTimes_of_length_le hle]
  | succ j ih =>
    have htwo : 2 ≤ ts.length := by
      by_contra hlt
      rw [Nat.clog_of_right_le_one (by omega)] at hj
      cases hj
    rw [Nat.clog_of_two_le Nat.one_lt_two htwo] at hj
    funext n
    have hround : Nat.clog 2 (joinPairs ts n).1.length = j := by
      rw [length_joinPairs]
      exact Nat.succ.inj hj
    rw [Nat.succ_add]
    exact congrFun (ih hround) (joinPairs ts n).2

theorem joinRounds_eq (rounds : Nat) (ts : List Trie) :
    joinRounds rounds ts = do return (← joinTimes rounds ts).headD Trie.empty := by
  induction rounds generalizing ts with
  | zero =>
    match ts with
    | [] | [_] | _ :: _ :: _ => rfl
  | succ rounds ih =>
    match ts with
    | [] | [_] =>
      rw [joinTimes_of_length_le (by simp)]
      rfl
    | s :: t :: ts =>
      rw [joinTimes, bind_assoc]
      exact bind_congr fun us => ih us

/-- The bound on the rounds is no restriction: rounds go on until at most one set is left. -/
theorem joinAll_eq (ts : List Trie) : joinAll ts = do
    return (← joinTimes (Nat.clog 2 ts.length) ts).headD Trie.empty := by
  have hle : Nat.clog 2 ts.length ≤ ts.length :=
    Nat.clog_le_of_le_pow (Nat.le_of_lt Nat.lt_two_pow_self)
  rw [joinAll, joinRounds_eq, joinTimes_of_clog_le hle]

/-! ## Folds -/

theorem makes_foldrM_union (ts : List Trie) (P : Pool) (h : ∀ t ∈ ts, t ∈ P) :
    P.Makes (ts.foldrM (fun t acc => acc.union t) Trie.empty) fun Q u =>
      u ∈ Q ∧ u.members = allMembers ts := by
  induction ts with
  | nil =>
    refine makes_pure ⟨P.empty_mem, ?_⟩
    rw [members_empty]
    simp [allMembers]
  | cons t ts ih =>
    rw [List.foldrM_cons]
    refine (ih fun s hs => h s (List.mem_cons_of_mem t hs)).bind fun Q u hPQ hu => ?_
    refine (makes_union hu.1 (hPQ.2 t (h t List.mem_cons_self))).imp fun R v _ hv => ⟨hv.mem, ?_⟩
    rw [hv.members, hu.2, allMembers_cons, Set.union_comm]
    rfl

theorem allMembers_eq_of_perm {ts us : List Trie} (h : ts.Perm us) :
    allMembers ts = allMembers us := by
  ext p
  simp only [allMembers, Set.mem_ofPred_eq, h.mem_iff]

end Trie

namespace Session

variable {hash : HashFunction} {σ : Session}

/-- The union of a list of sets of a session is made in as many rounds as halve the list to one set.
It has the members of all sets of the list and is a canonical trie; the list in another order, joined
from its first set on, and joined from its last set on give the same trie and encoding. -/
theorem joinAll_joins (h : Reachable hash σ) (hc : CollisionFree hash σ.interned)
    {ts : List Trie} (hts : ∀ t ∈ ts, t ∈ σ.sets) :
    (∀ k, (joinTimes k ts σ.next).1.length ≤ 1 ↔ Nat.clog 2 ts.length ≤ k) ∧
    (Lattice.joinAll ts : Fresh Trie) = (do
      return (← joinTimes (Nat.clog 2 ts.length) ts).headD Trie.empty) ∧
    (∀ k, ((Lattice.joinAll ts : Fresh Trie) σ.next).1.contains k = true ↔
      ∃ t ∈ ts, t.contains k = true) ∧
    ((Lattice.joinAll ts : Fresh Trie) σ.next).1.Canonical ∧
    (∀ us, ts.Perm us → σ.Agree (Lattice.joinAll ts) (Lattice.joinAll us)) ∧
    σ.Agree (Lattice.joinAll ts) (ts.foldlM Trie.union Trie.empty) ∧
    σ.Agree (Lattice.joinAll ts) (foldedLattice.joinAll ts) := by
  obtain ⟨P, hP⟩ := h.exists_pool hc
  have hmakes : ∀ us : List Trie, (∀ t ∈ us, t ∈ σ.sets) → ∀ Q : Pool, (∀ t ∈ σ.sets, t ∈ Q) →
      Q.Makes (Lattice.joinAll us) fun R u => u ∈ R ∧ u.members = allMembers us :=
    fun us hus Q hQ => makes_joinAll us fun t ht => hQ t (hus t ht)
  obtain ⟨Q, -, hu, hmem⟩ := hP.run (hmakes ts hts P hP.sets)
  refine ⟨fun k => length_joinTimes_le_one_iff k ts σ.next, joinAll_eq ts, fun k => ?members,
    canonical hu, fun us hperm => ?order, ?left, ?right⟩
  case members =>
    rw [(canonical hu).contains_iff, ← mem_members, hmem]
    refine exists_congr fun t => and_congr_right fun ht => ?_
    rw [(canonical (hP.sets t (hts t ht))).contains_iff]
  case order =>
    refine hP.agree (allMembers ts) (hmakes ts hts) ?_
    rw [allMembers_eq_of_perm hperm]
    exact hmakes us fun t ht => hts t (hperm.mem_iff.mpr ht)
  case left =>
    refine hP.agree (allMembers ts) (hmakes ts hts) fun Q hQ => ?_
    refine (makes_foldl_union ts Q Trie.empty Q.empty_mem fun t ht => hQ t (hts t ht)).imp
      fun R u _ hu => ⟨hu.1, ?_⟩
    rw [hu.2, members_empty, Set.empty_union]
  case right =>
    exact hP.agree (allMembers ts) (hmakes ts hts) fun Q hQ =>
      makes_foldrM_union ts Q fun t ht => hQ t (hts t ht)

/-- An odd number of sets, one of them twice, in another order. -/
theorem joinAll_joins_branching :
    ∃ y ∈ branchingNext.sets, y.contains [6, 7] = true ∧
      (∀ k, (joinTimes k [branchingSet, y, branchingSet] branchingNext.next).1.length ≤ 1 ↔
        Nat.clog 2 3 ≤ k) ∧
      ((Lattice.joinAll [branchingSet, y, branchingSet] : Fresh Trie)
        branchingNext.next).1.contains [6, 7] = true ∧
      branchingNext.Agree (Lattice.joinAll [branchingSet, y, branchingSet])
        (Lattice.joinAll [y, branchingSet, branchingSet]) ∧
      branchingNext.Agree (Lattice.joinAll [branchingSet, y, branchingSet])
        (foldedLattice.joinAll [branchingSet, y, branchingSet]) := by
  have hx : branchingSet ∈ branchingNext.sets := List.mem_cons_of_mem _ branchingSet_mem
  have hy : (Trie.singleton [6, 7] branching.next).1 ∈ branchingNext.sets := List.mem_cons_self
  have hcontains := (contains_singleton (branching_reachable Blake3.hash)
    (branching_collisionFree _) [6, 7] [6, 7]).mpr rfl
  generalize (Trie.singleton [6, 7] branching.next).1 = y at hy hcontains
  have hts : ∀ t ∈ [branchingSet, y, branchingSet], t ∈ branchingNext.sets :=
    List.forall_mem_cons.mpr ⟨hx, List.forall_mem_cons.mpr ⟨hy, List.forall_mem_singleton.mpr hx⟩⟩
  obtain ⟨hrounds, -, hmem, -, horder, -, hfold⟩ :=
    joinAll_joins (branchingNext_reachable Blake3.hash) (branching_collisionFree _) hts
  exact ⟨y, hy, hcontains, hrounds, (hmem [6, 7]).mpr ⟨y, by simp, hcontains⟩,
    horder _ (List.Perm.swap _ _ _), hfold⟩

end Session

end ByteTrie
