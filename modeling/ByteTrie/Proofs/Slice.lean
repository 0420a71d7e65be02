import ByteTrie.Algebra.Slice
import ByteTrie.Proofs.Sets
import Mathlib

/-!
# Tails, heads

    makes_tails t k     q ∈ u  iff  q = p.drop k for some p ∈ t with k ≤ p.length
    makes_heads t k     q ∈ u  iff  q = p.take k for some p ∈ t

Behind a key that ends before `k` the question is the same with fewer bytes; a key that goes on
answers it by itself.  The walk for the heads is followed once, with a place for what else its steps
pass on (`Cut.Passes`).
-/

namespace ByteTrie

open Pool

/-- The tails after `n` bytes of the paths that are long enough. -/
def tailsAfter (n : Nat) (A : Set Path) : Set Path := {q | ∃ p ∈ A, n ≤ p.length ∧ q = p.drop n}

/-- The paths cut to at most `n` bytes. -/
def cutTo (n : Nat) (A : Set Path) : Set Path := (fun p => p.take n) '' A

namespace Trie

variable {P Q : Pool}

theorem allMembers_append (ts us : List Trie) :
    allMembers (ts ++ us) = allMembers ts ∪ allMembers us := by
  ext p
  simp [allMembers, or_and_right, exists_or]

/-! ## Tails -/

theorem tailsAfter_union (n : Nat) (A B : Set Path) :
    tailsAfter n (A ∪ B) = tailsAfter n A ∪ tailsAfter n B := by
  ext q
  simp [tailsAfter, or_and_right, exists_or]

theorem tailsAfter_zero (A : Set Path) : tailsAfter 0 A = A := by
  ext q
  simp [tailsAfter]

/-- A key that ends before the cut is passed over. -/
theorem tailsAfter_of_le {n : Nat} {k : Path} (h : k.length ≤ n) (t : Trie) :
    tailsAfter n (Stem.members ⟨k, t⟩) = tailsAfter (n - k.length) t.members := by
  ext q
  constructor
  · rintro ⟨_, ⟨p, hp, rfl⟩, hn, rfl⟩
    have hlen : (k ++ p).length = k.length + p.length := List.length_append
    refine ⟨p, hp, Nat.sub_le_of_le_add ?_, ?_⟩
    · rwa [Nat.add_comm, ← hlen]
    · rw [List.drop_append, List.drop_of_length_le h, List.nil_append]
  · rintro ⟨p, hp, hn, rfl⟩
    refine ⟨k ++ p, ⟨p, hp, rfl⟩, ?_, ?_⟩
    · rw [List.length_append]
      omega
    · rw [List.drop_append, List.drop_of_length_le h, List.nil_append]

/-- A key that reaches the cut is cut. -/
theorem tailsAfter_of_ge {n : Nat} {k : Path} (h : n ≤ k.length) (t : Trie) :
    tailsAfter n (Stem.members ⟨k, t⟩) = Stem.members ⟨k.drop n, t⟩ := by
  ext q
  constructor
  · rintro ⟨_, ⟨p, hp, rfl⟩, -, rfl⟩
    exact ⟨p, hp, List.drop_append_of_le_length h⟩
  · rintro ⟨p, hp, rfl⟩
    refine ⟨k ++ p, ⟨p, hp, rfl⟩, ?_, (List.drop_append_of_le_length h).symm⟩
    rw [List.length_append]
    omega

/-- Subtries that together have the tails of `A` after `n` bytes. -/
structure IsTails (Q : Pool) (n : Nat) (A : Set Path) (ts : List Trie) : Prop where
  mem : ∀ u ∈ ts, u ∈ Q
  members : allMembers ts = tailsAfter n A

/-- With the tails of one more edge whose key ends before the cut. -/
theorem IsTails.below {n : Nat} {es : List (Edge Trie)} {b : UInt8} {l : Path} {t : Trie}
    {inside below us : List Trie} (h : IsTails P n (edgeMembers es) (inside ++ below)) (hPQ : P ≤ Q)
    (hl : l.length < n) (hus : IsTails Q (n - (l.length + 1)) t.members us) :
    IsTails Q n (edgeMembers (⟨b, l, t⟩ :: es)) (inside ++ (below ++ us)) where
  mem := by
    intro u hu
    rw [← List.append_assoc, List.mem_append] at hu
    rcases hu with hu | hu
    · exact hPQ.2 u (h.mem u hu)
    · exact hus.mem u hu
  members := by
    have hkey : (b :: l).length ≤ n := hl
    have hcut : tailsAfter n (Stem.members ⟨b :: l, t⟩) = tailsAfter (n - (l.length + 1)) t.members :=
      tailsAfter_of_le hkey t
    rw [edgeMembers_cons, tailsAfter_union, edgeMembers_singleton, ← List.append_assoc,
      allMembers_append, h.members, hus.members, Set.union_comm]
    exact congrArg (· ∪ _) hcut.symm

/-- With the tails of one more edge whose key the cut parts. -/
theorem IsTails.inside {n : Nat} {es : List (Edge Trie)} {b : UInt8} {l : Path} {t u : Trie}
    {inside below : List Trie} (h : IsTails P n (edgeMembers es) (inside ++ below)) (hPQ : P ≤ Q)
    (hl : ¬ l.length < n) (hu : u ∈ Q) (hm : u.members = Stem.members ⟨(b :: l).drop n, t⟩) :
    IsTails Q n (edgeMembers (⟨b, l, t⟩ :: es)) (u :: inside ++ below) where
  mem := by
    intro v hv
    rcases List.mem_cons.mp hv with rfl | hv
    · exact hu
    · exact hPQ.2 v (h.mem v hv)
  members := by
    have hkey : n ≤ (b :: l).length := by
      rw [List.length_cons]
      omega
    rw [edgeMembers_cons, tailsAfter_union, edgeMembers_singleton, List.cons_append,
      allMembers_cons, h.members, hm]
    exact congrArg (· ∪ _) (tailsAfter_of_ge hkey t).symm

theorem makes_edgeTailTries (es : List (Edge Trie)) (n : Nat) (P : Pool)
    (hes : ∀ e ∈ es, e.child ∈ P)
    (ih : ∀ e ∈ es, ∀ m (P : Pool), e.child ∈ P →
      P.Makes (tailTries e.child m) fun Q ts => IsTails Q m e.child.members ts) :
    P.Makes (edgeTailTries es n) fun Q r => IsTails Q n (edgeMembers es) (r.1 ++ r.2) := by
  induction es generalizing P with
  | nil =>
    rw [edgeTailTries]
    refine makes_pure ⟨fun _ h => absurd h List.not_mem_nil, ?_⟩
    simp [allMembers, tailsAfter]
  | cons e es ihes =>
    obtain ⟨b, l, t⟩ := e
    have hrest := fun e he => hes e (List.mem_cons_of_mem _ he)
    rw [edgeTailTries]
    refine (ihes P hrest fun e he => ih e (List.mem_cons_of_mem _ he)).bind fun Q r hPQ hr => ?_
    obtain ⟨inside, below⟩ := r
    have ht : t ∈ Q := hPQ.2 t (hes _ List.mem_cons_self)
    simp only
    split
    · next hlt =>
      refine (ih _ List.mem_cons_self _ Q ht).bind_pure fun R us hQR hus => ?_
      exact hr.below hQR hlt hus
    · next hge =>
      refine (makes_toTrie (s := ⟨(b :: l).drop n, t⟩) ht).bind_pure fun R u hQR hu => ?_
      exact hr.inside hQR hge hu.1 hu.2

/-- The empty path is too short to have a tail. -/
theorem tailsAfter_edgeMembers (n : Nat) (t : Trie) :
    tailsAfter (n + 1) (edgeMembers t.edges) = tailsAfter (n + 1) t.members := by
  ext q
  constructor
  · rintro ⟨p, hp, hlen, rfl⟩
    exact ⟨p, (Trie.mem_iff t p).mpr (Or.inr hp), hlen, rfl⟩
  · rintro ⟨p, hp, hlen, rfl⟩
    refine ⟨p, ?_, hlen, rfl⟩
    rcases (Trie.mem_iff t p).mp hp with ⟨rfl, -⟩ | hp
    · exact absurd hlen (Nat.not_succ_le_zero n)
    · exact hp

theorem makes_tailTries (t : Trie) (n : Nat) (P : Pool) (ht : t ∈ P) :
    P.Makes (tailTries t n) fun Q ts => IsTails Q n t.members ts := by
  induction t using nodeInduction generalizing n P with
  | node t ih =>
    cases n with
    | zero =>
      rw [tailTries]
      refine makes_pure ⟨?_, ?_⟩
      · split
        · exact fun _ h => absurd h List.not_mem_nil
        · intro u hu
          exact (List.mem_singleton.mp hu) ▸ ht
      · rw [tailsAfter_zero]
        split
        · next he =>
          rw [(isEmpty_iff ht).mp he]
          simp [allMembers]
        · ext p
          simp [allMembers]
    | succ n =>
      have hedges := makes_edgeTailTries t.edges (n + 1) P (P.child_mem t ht)
        fun e he m P hP => ih e he m P hP
      cases t with
      | node i b c m es =>
        rw [tailTries]
        exact hedges.bind_pure fun Q r _ hr =>
          ⟨hr.mem, hr.members.trans (tailsAfter_edgeMembers n _)⟩

theorem makes_tails {t : Trie} (ht : t ∈ P) (n : Nat) :
    P.Makes (tails t n) fun Q u => u ∈ Q ∧ u.members = tailsAfter n t.members := by
  refine (makes_tailTries t n P ht).bind fun Q ts _ hts => ?_
  refine (makes_joinAll ts hts.mem).imp fun R u _ hu => ⟨hu.1, ?_⟩
  rw [hu.2, hts.members]

/-! ## Heads -/

theorem cutTo_union (n : Nat) (A B : Set Path) : cutTo n (A ∪ B) = cutTo n A ∪ cutTo n B :=
  Set.image_union _ A B

/-- A key that ends before the cut stays whole. -/
theorem cutTo_of_le {n : Nat} {k : Path} (h : k.length ≤ n) (t : Trie) :
    cutTo n (Stem.members ⟨k, t⟩) = (k ++ ·) '' cutTo (n - k.length) t.members := by
  ext q
  constructor
  · rintro ⟨_, ⟨p, hp, rfl⟩, rfl⟩
    exact ⟨_, ⟨p, hp, rfl⟩, by simp [List.take_append, List.take_of_length_le h]⟩
  · rintro ⟨_, ⟨p, hp, rfl⟩, rfl⟩
    exact ⟨_, ⟨p, hp, rfl⟩, by simp [List.take_append, List.take_of_length_le h]⟩

/-- A key that reaches the cut is all that is left. -/
theorem cutTo_of_ge {n : Nat} {k : Path} {t : Trie} (h : n ≤ k.length) (ht : ∃ p, p ∈ t) :
    cutTo n (Stem.members ⟨k, t⟩) = {k.take n} := by
  obtain ⟨p, hp⟩ := ht
  ext q
  constructor
  · rintro ⟨_, ⟨p, -, rfl⟩, rfl⟩
    exact List.take_append_of_le_length h
  · rintro rfl
    exact ⟨k ++ p, ⟨p, hp, rfl⟩, List.take_append_of_le_length h⟩

theorem cutTo_zero {A : Set Path} (h : A.Nonempty) : cutTo 0 A = {[]} := by
  exact Set.Nonempty.image_const h []

/-- What cutting a nonempty set gives: the argument itself where nothing is cut off. -/
def IsCut (Q : Pool) (n : Nat) (A : Set Path) : Outcome Trie → Prop
  | .none => False
  | .identity m => m = Outcome.leftBit ∧ cutTo n A = A
  | .element u => u ∈ Q ∧ u.members = cutTo n A

/-- Edges that lead to the cut paths of `es`. -/
structure Cut.Exact (Q : Pool) (n : Nat) (es : List (Edge Trie)) (c : Cut) : Prop where
  edges : Q.Edges c.edges
  members : edgeMembers c.edges = cutTo n (edgeMembers es)
  eq_of_unchanged : c.unchanged = true → c.edges = es

theorem Cut.Exact.lt_first {n : Nat} {es : List (Edge Trie)} {c : Cut} (h : c.Exact Q n es)
    {b : UInt8} (hes : ∀ e ∈ es, b < e.first) : ∀ e ∈ c.edges, b < e.first := by
  refine Edges.lt_first h.edges ?_ hes
  intro d p hp
  rw [h.members] at hp
  obtain ⟨q, hq, heq⟩ := hp
  cases q with
  | nil => exact absurd hq (nil_not_mem_edgeMembers es)
  | cons d' q =>
    obtain ⟨e, he, rfl, -⟩ := (cons_mem_edgeMembers es d' q).mp hq
    cases n with
    | zero => simp at heq
    | succ n =>
      simp only [List.take_succ_cons, List.cons.injEq] at heq
      exact ⟨e, he, heq.1⟩

/-- An edge of the argument in front, of whose paths nothing is cut off. -/
theorem Cut.Exact.cons {n : Nat} {e : Edge Trie} {es : List (Edge Trie)} {c : Cut}
    (h : c.Exact Q n es) (he : Q.Edges (e :: es))
    (hcut : cutTo n (edgeMembers [e]) = edgeMembers [e]) : (c.cons e).Exact Q n (e :: es) where
  edges := Edges.cons (he.child_mem e List.mem_cons_self) (he.inner e List.mem_cons_self)
    (h.lt_first he.head_lt) h.edges
  members := by
    rw [edgeMembers_cons e es, cutTo_union, hcut, ← h.members]
    exact edgeMembers_cons e c.edges
  eq_of_unchanged := fun hu => congrArg (e :: ·) (h.eq_of_unchanged hu)

/-- A new edge in front, to the cut paths of an edge. -/
theorem Cut.Exact.consNew {n : Nat} {e : Edge Trie} {k : Path} {u : Trie}
    {es : List (Edge Trie)} {c : Cut} (h : c.Exact Q n es) (he : Q.Edges (e :: es)) (hu : u ∈ Q)
    (hcut : edgeMembers [⟨e.first, k, u⟩] = cutTo n (edgeMembers [e])) :
    (c.consNew (Edge.over e.first k u)).Exact Q n (e :: es) where
  edges := edges_over_append hu h.edges (h.lt_first he.head_lt)
  members := by
    rw [edgeMembers_cons e es, cutTo_union, ← hcut, ← h.members, ← edgeMembers_over hu]
    exact edgeMembers_append _ _
  eq_of_unchanged := fun hu => absurd hu Bool.false_ne_true

theorem over_leaf (b : UInt8) (k : Path) : Edge.over b k leaf = some ⟨b, k, leaf⟩ := rfl

/-- A nonempty trie without edges is `leaf`. -/
theorem eq_leaf {t : Trie} (ht : t ∈ P) (hmem : ∃ p, p ∈ t) (hes : t.edges = []) : t = leaf := by
  rcases P.fixed t ht hes with rfl | rfl
  · obtain ⟨p, hp⟩ := hmem
    exact absurd hp (Set.eq_empty_iff_forall_notMem.mp members_empty p)
  · rfl

/-- An edge whose key reaches the cut is left with what is in front of the cut. -/
theorem cutTo_edge_of_ge {n : Nat} {b : UInt8} {l : Path} {t : Trie} (hn : 0 < n)
    (h : n ≤ l.length + 1) (ht : ∃ p, p ∈ t) :
    edgeMembers [⟨b, l.take (n - 1), leaf⟩] = cutTo n (edgeMembers [⟨b, l, t⟩]) := by
  obtain ⟨m, rfl⟩ := Nat.exists_eq_succ_of_ne_zero (Nat.ne_of_gt hn)
  have hge : m + 1 ≤ (b :: l).length := h
  rw [edgeMembers_singleton, edgeMembers_singleton, Edge.key, Edge.key, cutTo_of_ge hge ht,
    ← List.append_nil (b :: _), Stem.members_append, Stem.members_nil, members_leaf]
  simp

/-- An edge whose key ends before the cut is cut behind its key. -/
theorem cutTo_edge_of_le {n : Nat} {b : UInt8} {l : Path} {t u : Trie} (h : l.length + 1 ≤ n)
    (hu : u.members = cutTo (n - (l.length + 1)) t.members) :
    edgeMembers [⟨b, l, u⟩] = cutTo n (edgeMembers [⟨b, l, t⟩]) := by
  have hle : (b :: l).length ≤ n := h
  rw [edgeMembers_singleton, edgeMembers_singleton, Edge.key, Edge.key, cutTo_of_le hle,
    List.length_cons, ← hu, ← Stem.members_nil, ← Stem.members_append, List.append_nil]

/-- Facts about edges and what is cut of them that the steps of the walk pass on beside exactness. -/
structure Cut.Passes (M : Nat → List (Edge Trie) → Cut → Prop) : Prop where
  nil (n : Nat) : M n [] ⟨[], true⟩
  keep {n : Nat} {e : Edge Trie} {es : List (Edge Trie)} {c : Cut} (h : M n es c) :
    M n (e :: es) (c.cons e)
  cut {Q : Pool} {n : Nat} {b : UInt8} {l : Path} {t : Trie} {es : List (Edge Trie)} {c : Cut}
    (he : Q.Edges (⟨b, l, t⟩ :: es)) (hge : n ≤ l.length + 1)
    (hmore : n = l.length + 1 → t.edges ≠ []) (h : M n es c) :
    M n (⟨b, l, t⟩ :: es) (c.consNew (Edge.over b (l.take (n - 1)) leaf))
  rebuild {Q : Pool} {n : Nat} {b : UInt8} {l : Path} {t u : Trie} {es : List (Edge Trie)} {c d : Cut}
    (hle : l.length + 1 ≤ n) (hu : u ∈ Q) (hes : u.edges = d.edges) (hd : d.unchanged = false)
    (hM : M (n - (l.length + 1)) t.edges d) (h : M n es c) :
    M n (⟨b, l, t⟩ :: es) (c.consNew (Edge.over b l u))

/-- A node that was made for `t` has what was cut of the edges of `t`. -/
def Cut.Made (M : Nat → List (Edge Trie) → Cut → Prop) (n : Nat) (t : Trie) (o : Outcome Trie) :
    Prop :=
  ∀ u, o = .element u → ∃ d : Cut, u.edges = d.edges ∧ d.unchanged = false ∧ M n t.edges d

section

variable {M : Nat → List (Edge Trie) → Cut → Prop}

theorem Cut.Passes.makes_cutEdges (hM : Cut.Passes M) (es : List (Edge Trie)) (n : Nat)
    (hn : 0 < n) (P : Pool) (hes : P.Edges es)
    (ih : ∀ e ∈ es, ∀ m (P : Pool), 0 < m → e.child ∈ P →
      P.Makes (cutNode e.child m) fun Q o => IsCut Q m e.child.members o ∧ Made M m e.child o) :
    P.Makes (cutEdges es n) fun Q c => c.Exact Q n es ∧ M n es c := by
  induction es generalizing P with
  | nil =>
    rw [cutEdges]
    exact makes_pure ⟨⟨edges_nil P, by simp [cutTo], fun _ => rfl⟩, hM.nil n⟩
  | cons e es ihes =>
    obtain ⟨b, l, t⟩ := e
    have hrest : ∀ Q : Pool, P ≤ Q → Q.Makes (cutEdges es n) fun R c => c.Exact R n es ∧ M n es c :=
      fun Q hPQ => ihes Q (hes.tail.mono hPQ) fun e he => ih e (List.mem_cons_of_mem _ he)
    have ht : t ∈ P := hes.child_mem _ List.mem_cons_self
    have hmem : ∃ p, p ∈ t := hes.exists_mem _ List.mem_cons_self
    rw [cutEdges]
    split
    · next hcut =>
      -- the cut lies in the key, or at its end with more behind it
      simp only [Bool.or_eq_true, decide_eq_true_eq, Bool.and_eq_true, beq_iff_eq,
        Bool.not_eq_true', List.isEmpty_eq_false_iff] at hcut
      have hge : n ≤ l.length + 1 := by omega
      have hmore : n = l.length + 1 → t.edges ≠ [] := fun heq =>
        (hcut.resolve_left (by omega)).2
      refine (hrest P (le_refl P)).bind_pure fun Q c hPQ ⟨hc, hMc⟩ => ?_
      rw [← over_leaf]
      exact ⟨hc.consNew (hes.mono hPQ) Q.leaf_mem (cutTo_edge_of_ge hn hge hmem),
        hM.cut (hes.mono hPQ) hge hmore hMc⟩
    · next hpass =>
      simp only [Bool.or_eq_true, decide_eq_true_eq, Bool.and_eq_true, beq_iff_eq,
        not_or, not_and, Bool.not_eq_true', Bool.not_eq_false] at hpass
      have hle : l.length + 1 ≤ n := by omega
      split
      · next heq =>
        -- the cut lies at the end of the key, and nothing is behind it
        obtain rfl : n = l.length + 1 := beq_iff_eq.mp heq
        obtain rfl : t = leaf := eq_leaf ht hmem (List.isEmpty_iff.mp (hpass.2 rfl))
        refine (hrest P (le_refl P)).bind_pure fun Q c hPQ ⟨hc, hMc⟩ =>
          ⟨hc.cons (hes.mono hPQ) ?_, hM.keep hMc⟩
        refine (cutTo_edge_of_le hle ?_).symm
        rw [Nat.sub_self, members_leaf]
        exact (cutTo_zero (Set.singleton_nonempty [])).symm
      · next hne =>
        -- the cut lies behind the key
        have hpos : 0 < n - (l.length + 1) := by
          simp only [beq_iff_eq] at hne
          omega
        refine (ih _ List.mem_cons_self _ P hpos ht).bind fun Q o hPQ ⟨ho, hmade⟩ => ?_
        cases o with
        | none => exact absurd ho not_false
        | identity m =>
          exact (hrest Q hPQ).bind_pure fun R c hQR ⟨hc, hMc⟩ =>
            ⟨hc.cons (hes.mono (le_trans hPQ hQR)) (cutTo_edge_of_le hle ho.2.symm).symm,
              hM.keep hMc⟩
        | element u =>
          obtain ⟨d, hd, hchanged, hMd⟩ := hmade u rfl
          refine (hrest Q hPQ).bind_pure fun R c hQR ⟨hc, hMc⟩ => ?_
          have hu : u ∈ R := hQR.2 u ho.1
          exact ⟨hc.consNew (hes.mono (le_trans hPQ hQR)) hu (cutTo_edge_of_le hle ho.2),
            hM.rebuild hle hu hd hchanged hMd hMc⟩

end

/-- The empty path stays as it is; all other paths are cut behind the edges. -/
theorem mem_cutTo_members_iff (n : Nat) (t : Trie) (p : Path) : p ∈ cutTo n t.members ↔
    (p = [] ∧ t.terminal = true) ∨ p ∈ cutTo n (edgeMembers t.edges) := by
  have hsplit : t.members = {p | p = [] ∧ t.terminal = true} ∪ edgeMembers t.edges :=
    Set.ext fun p => Trie.mem_iff t p
  rw [hsplit, cutTo_union, Set.mem_union]
  refine or_congr_left ⟨?_, ?_⟩
  · rintro ⟨_, ⟨rfl, hter⟩, rfl⟩
    exact ⟨List.take_nil, hter⟩
  · rintro ⟨rfl, hter⟩
    exact ⟨[], ⟨rfl, hter⟩, List.take_nil⟩

/-- The outcome for a node is exact, and a node that was made has what the steps pass on. -/
theorem Cut.Passes.makes_cutNode {M : Nat → List (Edge Trie) → Cut → Prop} (hM : Cut.Passes M)
    (t : Trie) (n : Nat) (P : Pool) (hn : 0 < n) (ht : t ∈ P) :
    P.Makes (cutNode t n) fun Q o => IsCut Q n t.members o ∧ Made M n t o := by
  induction t using nodeInduction generalizing n P with
  | node t ih =>
    have hedges := hM.makes_cutEdges t.edges n hn P (edges_of_mem ht) fun e he m P hm hP =>
      ih e he m P hm hP
    have hcut := mem_cutTo_members_iff n t
    cases t with
    | node i b c m es =>
      rw [cutNode]
      refine hedges.bind fun Q d hPQ ⟨hd, hMd⟩ => ?_
      split
      · next hu =>
        refine makes_pure ⟨⟨rfl, ?_⟩, nofun⟩
        ext p
        rw [hcut, ← hd.members, hd.eq_of_unchanged hu, mem_members, Trie.mem_iff]
      · next hchanged =>
        refine (makes_make hd.edges b).bind_pure fun R u _ hu => ⟨⟨hu.1, ?_⟩, ?_⟩
        · ext p
          rw [hcut, ← hd.members, mem_members, Trie.mem_iff, hu.2.1, hu.2.2]
          rfl
        · rintro _ ⟨⟩
          exact ⟨d, hu.2.2, Bool.eq_false_iff.mpr hchanged, hMd⟩

theorem Cut.passes_true : Cut.Passes fun _ _ _ => True :=
  ⟨fun _ => trivial, fun _ => trivial, fun _ _ _ _ => trivial, fun _ _ _ _ _ _ => trivial⟩

theorem makes_cutNode (t : Trie) (n : Nat) (P : Pool) (hn : 0 < n) (ht : t ∈ P) :
    P.Makes (cutNode t n) fun Q o => IsCut Q n t.members o :=
  (Cut.passes_true.makes_cutNode t n P hn ht).imp fun _ _ _ ho => ho.1

/-- The set that an outcome of cutting stands for. -/
theorem IsCut.resolved {n : Nat} {t : Trie} {o : Outcome Trie} (h : IsCut Q n t.members o)
    (ht : t ∈ Q) :
    o.resolvePair t t empty ∈ Q ∧ (o.resolvePair t t empty).members = cutTo n t.members := by
  cases o with
  | none => exact absurd h not_false
  | identity m =>
    obtain ⟨rfl, hcut⟩ := h
    rw [Outcome.resolvePair_leftBit, hcut]
    exact ⟨ht, rfl⟩
  | element u => exact h

theorem makes_headsOutcome {t : Trie} (ht : t ∈ P) (hne : t.members.Nonempty) (n : Nat) :
    P.Makes (headsOutcome t n) fun Q o => IsCut Q n t.members o := by
  have hempty : ¬ t.isEmpty = true := by
    rw [isEmpty_iff ht]
    exact hne.ne_empty
  rw [headsOutcome, if_neg hempty]
  split
  · next h0 =>
    subst h0
    have hcut := cutTo_zero hne
    refine makes_pure ?_
    split
    · next hes =>
      obtain rfl := eq_leaf ht hne (List.isEmpty_iff.mp hes)
      exact ⟨rfl, hcut.trans members_leaf.symm⟩
    · exact ⟨P.leaf_mem, by rw [hcut, members_leaf]⟩
  · next hpos => exact makes_cutNode t n P (Nat.pos_of_ne_zero hpos) ht

theorem makes_heads {t : Trie} (ht : t ∈ P) (n : Nat) :
    P.Makes (heads t n) fun Q u => u ∈ Q ∧ u.members = cutTo n t.members := by
  rw [heads]
  rcases t.members.eq_empty_or_nonempty with he | hne
  · rw [headsOutcome, if_pos ((isEmpty_iff ht).mpr he)]
    refine makes_pure ⟨P.empty_mem, ?_⟩
    rw [he]
    simp [Outcome.resolvePair, Outcome.resolve, cutTo]
  · exact (makes_headsOutcome ht hne n).bind_pure fun Q o hPQ ho => ho.resolved (hPQ.2 t ht)

end Trie

end ByteTrie
