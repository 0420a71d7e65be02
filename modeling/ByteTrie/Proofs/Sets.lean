import ByteTrie.Proofs.Merge
import Mathlib

/-!
# Sets made of sets

The members of the sets that the operations make, and the arguments that are the result themselves.

    makes_union s t        u.members = s.members ∪ t.members
    makes_inter s t        u.members = s.members ∩ t.members
    makes_diff s t         u.members = s.members \ t.members
    makes_joinAll ts       u.members = the members of all sets of ts
-/

namespace ByteTrie

open Pool

/-! ## Sets -/

namespace Trie

variable {P : Pool} {s t : Trie}

theorem makes_resolve (op : SetOp) (hs : s ∈ P) (ht : t ∈ P) :
    P.Makes (return (← op.apply s t).resolvePair s t empty) fun Q u => op.Combined Q s t u :=
  (SetOp.makes_apply op hs ht).bind_pure fun _ _ hPQ ho =>
    SetOp.combined_of_exact (hPQ.2 s hs) (hPQ.2 t ht) ho

theorem makes_union (hs : s ∈ P) (ht : t ∈ P) :
    P.Makes (s.union t) fun Q u => SetOp.join.Combined Q s t u :=
  makes_resolve SetOp.join hs ht

theorem makes_inter (hs : s ∈ P) (ht : t ∈ P) :
    P.Makes (s.inter t) fun Q u => SetOp.meet.Combined Q s t u :=
  makes_resolve SetOp.meet hs ht

theorem makes_diff (hs : s ∈ P) (ht : t ∈ P) :
    P.Makes (s.diff t) fun Q u => SetOp.subtract.Combined Q s t u :=
  makes_resolve SetOp.subtract hs ht

theorem makes_restrict (hs : s ∈ P) (ht : t ∈ P) :
    P.Makes (s.restrict t) fun Q u => SetOp.restrict.Combined Q s t u :=
  makes_resolve SetOp.restrict hs ht

/-- A restriction with its arguments in the other order. -/
theorem makes_raffinate (hs : s ∈ P) (ht : t ∈ P) :
    P.Makes (s.raffinate t) fun Q u => SetOp.restrict.Combined Q t s u := by
  refine (SetOp.makes_apply SetOp.restrict ht hs).bind_pure fun Q o hPQ ho => ?_
  rw [ho.swap_resolvePair s t empty]
  exact SetOp.combined_of_exact (hPQ.2 t ht) (hPQ.2 s hs) ho

theorem makes_singleton (P : Pool) (p : Path) :
    P.Makes (singleton p) fun Q t => t ∈ Q ∧ t.members = {p} := by
  refine (makes_toTrie (s := ⟨p, leaf⟩) P.leaf_mem).imp fun Q t _ ht => ⟨ht.1, ?_⟩
  rw [ht.2, ← List.append_nil p, Stem.members_append, Stem.members_nil, members_leaf,
    Set.image_singleton]

theorem makes_insert (hs : s ∈ P) (p : Path) :
    P.Makes (s.insert p) fun Q u => u ∈ Q ∧ u.members = s.members ∪ {p} := by
  refine (makes_singleton P p).bind fun Q t hPQ ht => ?_
  refine (makes_union (hPQ.2 s hs) ht.1).imp fun R u _ hu => ⟨hu.mem, ?_⟩
  rw [hu.members, ht.2]
  rfl

theorem makes_erase (hs : s ∈ P) (p : Path) :
    P.Makes (s.erase p) fun Q u => u ∈ Q ∧ u.members = s.members \ {p} := by
  refine (makes_singleton P p).bind fun Q t hPQ ht => ?_
  refine (makes_diff (hPQ.2 s hs) ht.1).imp fun R u _ hu => ⟨hu.mem, ?_⟩
  rw [hu.members, ht.2]
  rfl

theorem makes_wrap (hs : s ∈ P) (p : Path) :
    P.Makes (s.wrap p) fun Q u => u ∈ Q ∧ u.members = (p ++ ·) '' s.members := by
  refine (makes_toTrie (s := ⟨p, s⟩) hs).imp fun Q u _ hu => ⟨hu.1, ?_⟩
  rw [hu.2, ← List.append_nil p, Stem.members_append, Stem.members_nil, List.append_nil]

/-! ## Unions of many sets -/

/-- The members of the sets of a list. -/
def allMembers (ts : List Trie) : Set Path := {p | ∃ t ∈ ts, p ∈ t}

theorem allMembers_cons (t : Trie) (ts : List Trie) :
    allMembers (t :: ts) = t.members ∪ allMembers ts := by
  ext p
  simp [allMembers]

/-- A round halves the list, rounding up, and keeps all members. -/
theorem makes_joinPairs (ts : List Trie) (P : Pool) (h : ∀ t ∈ ts, t ∈ P) :
    P.Makes (joinPairs ts) fun Q us => (∀ u ∈ us, u ∈ Q) ∧ allMembers us = allMembers ts ∧
      us.length = (ts.length + 1) / 2 := by
  induction ts using joinPairs.induct generalizing P with
  | case1 s t ts ih =>
    rw [joinPairs]
    have hs := h s List.mem_cons_self
    have ht := h t (List.mem_cons_of_mem s List.mem_cons_self)
    refine (makes_union hs ht).bind fun Q u hPQ hu => ?_
    have hts : ∀ x ∈ ts, x ∈ Q := fun x hx =>
      hPQ.2 x (h x (List.mem_cons_of_mem s (List.mem_cons_of_mem t hx)))
    refine (ih Q hts).bind_pure fun R us hQR ⟨hus, hm, hlen⟩ => ⟨?_, ?_, ?_⟩
    · intro x hx
      rcases List.mem_cons.mp hx with rfl | hx
      · exact hQR.2 _ hu.mem
      · exact hus x hx
    · rw [allMembers_cons, allMembers_cons, allMembers_cons, hm, hu.members, ← Set.union_assoc]
      rfl
    · simp only [List.length_cons, hlen]
      omega
  | case2 ts hn =>
    have hlen : ts.length = (ts.length + 1) / 2 := by
      match ts, hn with
      | [], _ => rfl
      | [_], _ => simp
      | s :: t :: ts, hn => exact absurd rfl (hn s t ts)
    rw [joinPairs]
    · exact makes_pure ⟨h, rfl, hlen⟩
    · exact hn

theorem makes_joinRounds (rounds : Nat) (ts : List Trie) (P : Pool) (h : ∀ t ∈ ts, t ∈ P)
    (hlen : ts.length ≤ rounds + 1) :
    P.Makes (joinRounds rounds ts) fun Q u => u ∈ Q ∧ u.members = allMembers ts := by
  induction rounds generalizing ts P with
  | zero =>
    match ts, hlen with
    | [], _ =>
      refine makes_pure ⟨P.empty_mem, ?_⟩
      rw [members_empty]
      simp [allMembers]
    | [t], _ =>
      refine makes_pure ⟨h t List.mem_cons_self, ?_⟩
      ext p
      simp [allMembers]
  | succ rounds ih =>
    match ts, hlen with
    | [], _ =>
      refine makes_pure ⟨P.empty_mem, ?_⟩
      rw [members_empty]
      simp [allMembers]
    | [t], _ =>
      refine makes_pure ⟨h t List.mem_cons_self, ?_⟩
      ext p
      simp [allMembers]
    | s :: t :: ts, hlen =>
      refine (makes_joinPairs (s :: t :: ts) P h).bind fun Q us hPQ ⟨hus, hm, hl⟩ => ?_
      refine (ih us Q hus ?_).imp fun R u _ hu => ⟨hu.1, hu.2.trans hm⟩
      simp only [List.length_cons] at hl hlen
      omega

theorem makes_joinAll (ts : List Trie) (h : ∀ t ∈ ts, t ∈ P) :
    P.Makes (joinAll ts) fun Q u => u ∈ Q ∧ u.members = allMembers ts :=
  makes_joinRounds ts.length ts P h (Nat.le_succ _)

end Trie

end ByteTrie
