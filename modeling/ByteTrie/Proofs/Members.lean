import ByteTrie.Algebra.Merge
import Mathlib

/-!
# Members

The members of a trie, defined by its nodes alone: a terminal node has the empty path, and an edge
puts its key in front of what its child has.  No lookup and no listing is used, so lookups and
operations can be compared with it.

    p ∈ t                iff  p is [] and t is terminal, or p = e.key ++ q, q ∈ e.child, for an edge e
    p ∈ edgeMembers es   iff  p = e.key ++ q with q ∈ e.child, for some e of es
    p ∈ s.members        iff  p = s.key ++ q with q ∈ s.child, for a stem s
-/

namespace ByteTrie

/-- `Mem t p`: the path `p` leads from `t` to a terminal node. -/
inductive Trie.Mem : Trie → Path → Prop
  | here {t : Trie} (h : t.terminal = true) : Mem t []
  | along {t : Trie} {e : Edge Trie} {p : Path} (he : e ∈ t.edges) (hp : Mem e.child p) :
      Mem t (e.key ++ p)

instance : Membership Path Trie := ⟨Trie.Mem⟩

def Trie.members (t : Trie) : Set Path := {p | p ∈ t}

/-- The paths that the edges of a list lead to. -/
def edgeMembers (es : List (Edge Trie)) : Set Path :=
  {p | ∃ e ∈ es, ∃ q ∈ e.child, p = e.key ++ q}

def Stem.members (s : Stem) : Set Path := {p | ∃ q ∈ s.child, p = s.key ++ q}

/-- The paths of `A` that start with `b`, without that byte. -/
def after (b : UInt8) (A : Set Path) : Set Path := {p | b :: p ∈ A}

/-- Induction over the nodes of a trie. -/
@[elab_as_elim]
theorem Trie.nodeInduction {motive : Trie → Prop}
    (node : ∀ t : Trie, (∀ e ∈ t.edges, motive e.child) → motive t) (t : Trie) : motive t :=
  @Trie.rec motive (fun es => ∀ e ∈ es, motive e.child) (fun e => motive e.child)
    (fun i b n m es ih => node (.node i b n m es) ih)
    (fun _ h => absurd h List.not_mem_nil)
    (fun e es he hes f hf => by
      rcases List.mem_cons.mp hf with rfl | hf
      · exact he
      · exact hes f hf)
    (fun _ _ _ h => h) t

/-- Induction over a trie and the rows of edges in it, edge by edge. -/
theorem Trie.edgeInduction (motive : Trie → Prop) (rows : List (Edge Trie) → Prop)
    (node : ∀ t : Trie, rows t.edges → motive t) (nil : rows [])
    (cons : ∀ e es, motive e.child → rows es → rows (e :: es)) (t : Trie) : motive t :=
  @Trie.rec motive rows (fun e => motive e.child) (fun i b n m es ih => node (.node i b n m es) ih)
    nil cons (fun _ _ _ h => h) t

/-! ## Tries -/

theorem Trie.mem_iff (t : Trie) (p : Path) :
    p ∈ t ↔ (p = [] ∧ t.terminal = true) ∨ p ∈ edgeMembers t.edges := by
  constructor
  · intro h
    cases h with
    | here ht => exact Or.inl ⟨rfl, ht⟩
    | along he hp => exact Or.inr ⟨_, he, _, hp, rfl⟩
  · rintro (⟨rfl, ht⟩ | ⟨e, he, q, hq, rfl⟩)
    · exact .here ht
    · exact .along he hq

@[simp] theorem Trie.mem_members (t : Trie) (p : Path) : p ∈ t.members ↔ p ∈ t := Iff.rfl

@[simp] theorem nil_not_mem_edgeMembers (es : List (Edge Trie)) : [] ∉ edgeMembers es := by
  rintro ⟨e, -, q, -, h⟩
  simp [Edge.key] at h

@[simp] theorem Trie.nil_mem_iff (t : Trie) : [] ∈ t ↔ t.terminal = true := by
  rw [Trie.mem_iff]; simp

theorem Trie.cons_mem_iff (t : Trie) (b : UInt8) (p : Path) :
    b :: p ∈ t ↔ b :: p ∈ edgeMembers t.edges := by
  rw [Trie.mem_iff]; simp

/-! ## Edges -/

theorem cons_mem_edgeMembers (es : List (Edge Trie)) (b : UInt8) (p : Path) :
    b :: p ∈ edgeMembers es ↔ ∃ e ∈ es, e.first = b ∧ ∃ q ∈ e.child, p = e.rest ++ q := by
  constructor
  · rintro ⟨e, he, q, hq, h⟩
    simp only [Edge.key, List.cons_append, List.cons.injEq] at h
    exact ⟨e, he, h.1.symm, q, hq, h.2⟩
  · rintro ⟨e, he, rfl, q, hq, rfl⟩
    exact ⟨e, he, q, hq, rfl⟩

@[simp] theorem edgeMembers_nil : edgeMembers [] = ∅ := by
  ext p; simp [edgeMembers]

theorem edgeMembers_cons (e : Edge Trie) (es : List (Edge Trie)) :
    edgeMembers (e :: es) = edgeMembers [e] ∪ edgeMembers es := by
  ext p; simp [edgeMembers]

theorem edgeMembers_append (es fs : List (Edge Trie)) :
    edgeMembers (es ++ fs) = edgeMembers es ∪ edgeMembers fs := by
  ext p
  simp [edgeMembers, or_and_right, exists_or]

theorem edgeMembers_singleton (e : Edge Trie) :
    edgeMembers [e] = Stem.members ⟨e.key, e.child⟩ := by
  ext p
  simp [edgeMembers, Stem.members]

@[simp] theorem mem_after (b : UInt8) (A : Set Path) (p : Path) : p ∈ after b A ↔ b :: p ∈ A :=
  Iff.rfl

/-- What an edge leads to, seen from behind its first byte. -/
theorem after_edgeMembers_singleton (b : UInt8) (k : Path) (t : Trie) :
    after b (edgeMembers [⟨b, k, t⟩]) = Stem.members ⟨k, t⟩ := by
  ext p; simp [cons_mem_edgeMembers, Stem.members]

theorem after_edgeMembers_of_forall_ne (b : UInt8) (es : List (Edge Trie))
    (h : ∀ e ∈ es, e.first ≠ b) : after b (edgeMembers es) = ∅ := by
  ext p
  simp only [mem_after, cons_mem_edgeMembers, Set.mem_empty_iff_false, iff_false]
  rintro ⟨e, he, hb, -⟩
  exact h e he hb

/-- With other first bytes behind it, an edge alone has the paths that start with its byte. -/
theorem after_edgeMembers_cons (e : Edge Trie) (es : List (Edge Trie))
    (h : ∀ f ∈ es, e.first < f.first) :
    after e.first (edgeMembers (e :: es)) = Stem.members ⟨e.rest, e.child⟩ := by
  rw [edgeMembers_cons]
  have rest := after_edgeMembers_of_forall_ne e.first es fun f hf => (UInt8.ne_of_lt (h f hf)).symm
  have first := after_edgeMembers_singleton e.first e.rest e.child
  ext p
  have hr := Set.ext_iff.mp rest p
  have hf := Set.ext_iff.mp first p
  simp only [mem_after, Set.mem_empty_iff_false, iff_false] at hr hf
  simp only [mem_after, Set.mem_union, hr, or_false]
  exact hf

theorem after_edgeMembers_cons_of_ne (e : Edge Trie) (es : List (Edge Trie)) (b : UInt8)
    (h : e.first ≠ b) : after b (edgeMembers (e :: es)) = after b (edgeMembers es) := by
  ext p
  simp only [mem_after, cons_mem_edgeMembers, List.mem_cons, exists_eq_or_imp, h, false_and,
    false_or]

/-- Sets of nonempty paths are equal if they are equal behind every byte. -/
theorem eq_of_after_eq {A B : Set Path} (hA : [] ∉ A) (hB : [] ∉ B)
    (h : ∀ b, after b A = after b B) : A = B := by
  ext p
  cases p with
  | nil => simp [hA, hB]
  | cons b p => exact Set.ext_iff.mp (h b) p

/-! ## Stems -/

@[simp] theorem Stem.members_nil (t : Trie) : Stem.members ⟨[], t⟩ = t.members := by
  ext p; simp [Stem.members]

theorem Stem.mem_iff (s : Stem) (p : Path) :
    p ∈ s.members ↔ (p = [] ∧ s.isMember = true) ∨ p ∈ edgeMembers s.branches := by
  obtain ⟨k, t⟩ := s
  cases k with
  | nil => simpa [Stem.isMember, Stem.branches] using t.mem_iff p
  | cons b k => simp [Stem.members, Stem.isMember, Stem.branches, edgeMembers, Edge.key]

theorem Stem.nil_mem_iff (s : Stem) : [] ∈ s.members ↔ s.isMember = true := by
  rw [Stem.mem_iff]; simp

theorem Stem.after_members (s : Stem) (b : UInt8) :
    after b s.members = after b (edgeMembers s.branches) := by
  ext p; simp [Stem.mem_iff]

/-- A longer key only puts more bytes in front. -/
theorem Stem.members_append (k l : Path) (t : Trie) :
    Stem.members ⟨k ++ l, t⟩ = (k ++ ·) '' Stem.members ⟨l, t⟩ := by
  ext p
  simp only [Stem.members, Set.mem_ofPred_eq, Set.mem_image]
  constructor
  · rintro ⟨q, hq, rfl⟩
    exact ⟨l ++ q, ⟨q, hq, rfl⟩, by simp⟩
  · rintro ⟨r, ⟨q, hq, rfl⟩, rfl⟩
    exact ⟨q, hq, by simp⟩

end ByteTrie
