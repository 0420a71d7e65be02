import ByteTrie.Proofs.Canonical
import Mathlib

/-!
# The nodes made so far

A pool is the set of all nodes that there are at some time, with the next unused id.  It is closed
under children, has one node for each id, and all its nodes are tidy; `empty` and `leaf` are in it,
and are the only nodes without edges.  A computation only adds nodes.

    P.Makes x post   iff  x, run on the nodes of P, leaves a pool Q that has all nodes of P, and
                          post Q a for the value a that it gives
-/

namespace ByteTrie

open Trie

/-- All nodes at some time, and the next unused id. -/
structure Pool where
  next : Nat
  nodes : Set Trie
  empty_mem : Trie.empty ∈ nodes
  leaf_mem : leaf ∈ nodes
  child_mem : ∀ t ∈ nodes, ∀ e ∈ t.edges, e.child ∈ nodes
  id_lt : ∀ t ∈ nodes, t.id < next
  eq_of_id_eq : ∀ s ∈ nodes, ∀ t ∈ nodes, s.id = t.id → s = t
  tidy : ∀ t ∈ nodes, t.IsTidy
  fixed : ∀ t ∈ nodes, t.edges = [] → t = Trie.empty ∨ t = leaf

namespace Pool

instance : Membership Trie Pool := ⟨fun P t => t ∈ P.nodes⟩

instance : LE Pool := ⟨fun P Q => P.next ≤ Q.next ∧ ∀ t ∈ P, t ∈ Q⟩

/-- Edges that a node of the pool may have. -/
structure Edges (P : Pool) (es : List (Edge Trie)) : Prop where
  ascending : es.Pairwise fun e f => e.first < f.first
  child_mem : ∀ e ∈ es, e.child ∈ P
  inner : ∀ e ∈ es, e.child.IsInner

/-- What `x` comes to when it is run on the nodes of `P`. -/
def Makes {α : Type} (P : Pool) (x : Fresh α) (post : Pool → α → Prop) : Prop :=
  ∃ Q, P ≤ Q ∧ (x P.next).2 = Q.next ∧ post Q (x P.next).1

variable {P Q : Pool} {α β : Type}

/-! ## Pools -/

theorem le_refl (P : Pool) : P ≤ P := ⟨Nat.le_refl _, fun _ h => h⟩

theorem le_trans {P Q R : Pool} (h : P ≤ Q) (h' : Q ≤ R) : P ≤ R :=
  ⟨Nat.le_trans h.1 h'.1, fun t ht => h'.2 t (h.2 t ht)⟩

theorem mem_of_isNode {t u : Trie} (hu : IsNode u t) (ht : t ∈ P) : u ∈ P := by
  induction hu with
  | root => exact ht
  | @inside t e he _ ih => exact ih (P.child_mem t ht e he)

theorem canonical {t : Trie} (ht : t ∈ P) : t.Canonical :=
  canonical_of_tidy fun u hu => P.tidy u (mem_of_isNode hu ht)

theorem isEmpty_iff {t : Trie} (ht : t ∈ P) : t.isEmpty = true ↔ t.members = ∅ :=
  (canonical ht).isEmpty_iff

theorem eq_of_sameNode {s t : Trie} (hs : s ∈ P) (ht : t ∈ P) (h : s.sameNode t = true) : s = t :=
  P.eq_of_id_eq s hs t ht (beq_iff_eq.mp h)

theorem exists_mem_of_inner {t : Trie} (ht : t ∈ P) (h : t.IsInner) : ∃ p, p ∈ t :=
  Trie.exists_mem_of_inner (fun u hu => P.tidy u (mem_of_isNode hu ht)) h

/-- The empty set has one node. -/
theorem eq_empty_of_members {t : Trie} (ht : t ∈ P) (h : t.members = ∅) : t = Trie.empty := by
  have hn : ∀ p, p ∉ t := fun p hp => Set.notMem_empty p (h ▸ hp)
  have hes : t.edges = [] := by
    apply List.eq_nil_iff_forall_not_mem.mpr
    intro e he
    obtain ⟨p, hp⟩ := (canonical ht).inhabited t .root e he
    exact hn _ (.along he hp)
  rcases P.fixed t ht hes with h | rfl
  · exact h
  · exact absurd (Mem.here rfl) (hn [])

@[simp] theorem members_empty : Trie.empty.members = ∅ := by
  ext p
  simp [Trie.mem_iff, Trie.empty, label, terminal, edges]

@[simp] theorem members_leaf : leaf.members = {[]} := by
  ext p
  simp [Trie.mem_iff, leaf, label, terminal, edges]

/-! ## Edges of a pool -/

theorem edges_nil (P : Pool) : P.Edges [] :=
  ⟨List.Pairwise.nil, fun _ h => absurd h List.not_mem_nil, fun _ h => absurd h List.not_mem_nil⟩

theorem edges_of_mem {t : Trie} (ht : t ∈ P) : P.Edges t.edges :=
  ⟨(P.tidy t ht).ascending, P.child_mem t ht, (P.tidy t ht).inner⟩

theorem Edges.mono {es : List (Edge Trie)} (h : P.Edges es) (hPQ : P ≤ Q) : Q.Edges es :=
  ⟨h.ascending, fun e he => hPQ.2 _ (h.child_mem e he), h.inner⟩

theorem Edges.tail {e : Edge Trie} {es : List (Edge Trie)} (h : P.Edges (e :: es)) : P.Edges es :=
  ⟨(List.pairwise_cons.mp h.ascending).2, fun f hf => h.child_mem f (List.mem_cons_of_mem e hf),
    fun f hf => h.inner f (List.mem_cons_of_mem e hf)⟩

theorem Edges.head_lt {e : Edge Trie} {es : List (Edge Trie)} (h : P.Edges (e :: es)) :
    ∀ f ∈ es, e.first < f.first :=
  (List.pairwise_cons.mp h.ascending).1

theorem Edges.lt_of_lt_head {b : UInt8} {e : Edge Trie} {es : List (Edge Trie)}
    (h : P.Edges (e :: es)) (hb : b < e.first) : ∀ f ∈ e :: es, b < f.first := by
  intro f hf
  rcases List.mem_cons.mp hf with rfl | hf
  · exact hb
  · exact UInt8.lt_trans hb (h.head_lt f hf)

theorem Edges.cons {e : Edge Trie} {es : List (Edge Trie)} (hc : e.child ∈ P)
    (hi : e.child.IsInner) (hlt : ∀ f ∈ es, e.first < f.first) (h : P.Edges es) :
    P.Edges (e :: es) := by
  refine ⟨List.pairwise_cons.mpr ⟨hlt, h.ascending⟩, ?_, ?_⟩
  · intro f hf
    rcases List.mem_cons.mp hf with rfl | hf
    · exact hc
    · exact h.child_mem f hf
  · intro f hf
    rcases List.mem_cons.mp hf with rfl | hf
    · exact hi
    · exact h.inner f hf

theorem Edges.head {e : Edge Trie} {es : List (Edge Trie)} (h : P.Edges (e :: es)) : P.Edges [e] :=
  Edges.cons (h.child_mem e List.mem_cons_self) (h.inner e List.mem_cons_self)
    (fun _ hf => absurd hf List.not_mem_nil) (edges_nil P)

theorem Edges.exists_mem {es : List (Edge Trie)} (h : P.Edges es) :
    ∀ e ∈ es, ∃ p, p ∈ e.child :=
  fun e he => exists_mem_of_inner (h.child_mem e he) (h.inner e he)

/-- The first bytes of edges are the first bytes of their paths. -/
theorem Edges.nonempty_after_iff {es : List (Edge Trie)} (h : P.Edges es) (b : UInt8) :
    (after b (edgeMembers es)).Nonempty ↔ ∃ e ∈ es, e.first = b := by
  constructor
  · rintro ⟨p, hp⟩
    obtain ⟨e, he, hb, -⟩ := (cons_mem_edgeMembers es b p).mp hp
    exact ⟨e, he, hb⟩
  · rintro ⟨e, he, hb⟩
    obtain ⟨q, hq⟩ := h.exists_mem e he
    exact ⟨e.rest ++ q, (cons_mem_edgeMembers es b _).mpr ⟨e, he, hb, q, hq, rfl⟩⟩

/-- Edges whose paths start with the bytes of other edges come after what those come after. -/
theorem Edges.lt_first {b : UInt8} {gs es : List (Edge Trie)} (hg : P.Edges gs)
    (h : ∀ c p, c :: p ∈ edgeMembers gs → ∃ e ∈ es, e.first = c)
    (he : ∀ e ∈ es, b < e.first) : ∀ g ∈ gs, b < g.first := by
  intro g hgm
  obtain ⟨p, hp⟩ := (hg.nonempty_after_iff g.first).mpr ⟨g, hgm, rfl⟩
  obtain ⟨e, hem, heg⟩ := h g.first p hp
  exact heg ▸ he e hem

theorem Edges.firsts_sublist {gs es : List (Edge Trie)} (hg : P.Edges gs) (he : P.Edges es)
    (h : ∀ g ∈ gs, ∃ e ∈ es, e.first = g.first) :
    (gs.map fun e => e.first).Sublist (es.map fun e => e.first) := by
  have sorted : ∀ {fs : List (Edge Trie)}, P.Edges fs →
      (fs.map fun e => e.first).Pairwise (· < ·) :=
    fun hf => List.pairwise_map.mpr hf.ascending
  have sub : (gs.map fun e => e.first) ⊆ es.map fun e => e.first := by
    intro b hb
    obtain ⟨g, hgm, rfl⟩ := List.mem_map.mp hb
    obtain ⟨e, hem, hfe⟩ := h g hgm
    exact List.mem_map.mpr ⟨e, hem, hfe⟩
  have nodup : (gs.map fun e => e.first).Nodup := (sorted hg).imp UInt8.ne_of_lt
  have antisymm : Std.Antisymm (α := UInt8) (· < ·) :=
    ⟨fun a b hab hba => absurd hba (UInt8.lt_asymm hab)⟩
  exact List.sublist_of_subperm_of_pairwise (nodup.subperm sub) (sorted hg) (sorted he)

/-- Edges that lead to the same paths are as many. -/
theorem Edges.length_eq {gs es : List (Edge Trie)} (hg : P.Edges gs) (he : P.Edges es)
    (h : edgeMembers gs = edgeMembers es) : gs.length = es.length := by
  have one : ∀ {xs ys : List (Edge Trie)}, P.Edges xs → P.Edges ys →
      edgeMembers xs = edgeMembers ys → xs.length ≤ ys.length := by
    intro xs ys hx hy hxy
    have hs := hx.firsts_sublist hy fun x hxm => by
      rw [← hy.nonempty_after_iff, ← hxy, hx.nonempty_after_iff]
      exact ⟨x, hxm, rfl⟩
    simpa using hs.length_le
  exact Nat.le_antisymm (one hg he h) (one he hg h.symm)

/-! ## Computations -/

theorem makes_pure {a : α} {post : Pool → α → Prop} (h : post P a) : P.Makes (pure a) post :=
  ⟨P, le_refl P, rfl, h⟩

theorem Makes.bind {x : Fresh α} {f : α → Fresh β} {mid : Pool → α → Prop}
    {post : Pool → β → Prop} (hx : P.Makes x mid)
    (hf : ∀ Q a, P ≤ Q → mid Q a → Q.Makes (f a) post) : P.Makes (x >>= f) post := by
  obtain ⟨Q, hPQ, hn, ha⟩ := hx
  obtain ⟨R, hQR, hn', hb⟩ := hf Q _ hPQ ha
  rw [← hn] at hn' hb
  exact ⟨R, le_trans hPQ hQR, hn', hb⟩

theorem Makes.imp {x : Fresh α} {mid post : Pool → α → Prop} (hx : P.Makes x mid)
    (h : ∀ Q a, P ≤ Q → mid Q a → post Q a) : P.Makes x post := by
  obtain ⟨Q, hPQ, hn, ha⟩ := hx
  exact ⟨Q, hPQ, hn, h Q _ hPQ ha⟩

/-- With a fact about the value itself. -/
theorem Makes.and_value {x : Fresh α} {post : Pool → α → Prop} {q : α → Prop}
    (hx : P.Makes x post) (hq : q (x P.next).1) : P.Makes x fun Q a => post Q a ∧ q a := by
  obtain ⟨Q, hPQ, hn, ha⟩ := hx
  exact ⟨Q, hPQ, hn, ha, hq⟩

/-- A last step that only looks at what was made. -/
theorem Makes.bind_pure {x : Fresh α} {f : α → β} {mid : Pool → α → Prop}
    {post : Pool → β → Prop} (hx : P.Makes x mid)
    (h : ∀ Q a, P ≤ Q → mid Q a → post Q (f a)) : P.Makes (x >>= fun a => pure (f a)) post :=
  hx.bind fun Q a hPQ ha => makes_pure (h Q a hPQ ha)

/-! ## New nodes -/

theorem isTidy_label {es : List (Edge Trie)} (h : P.Edges es) (i : Nat) (b : Bool) :
    (label i b es).IsTidy :=
  ⟨h.ascending, h.inner, rfl, rfl⟩

/-- A pool with one more node. -/
def insert (P : Pool) (b : Bool) (es : List (Edge Trie)) (h : P.Edges es) (hes : es ≠ []) :
    Pool where
  next := P.next + 1
  nodes := {t | t ∈ P ∨ t = label P.next b es}
  empty_mem := Or.inl P.empty_mem
  leaf_mem := Or.inl P.leaf_mem
  child_mem := by
    rintro t (ht | rfl) e he
    · exact Or.inl (P.child_mem t ht e he)
    · exact Or.inl (h.child_mem e he)
  id_lt := by
    rintro t (ht | rfl)
    · exact Nat.lt_succ_of_lt (P.id_lt t ht)
    · exact Nat.lt_succ_self _
  eq_of_id_eq := by
    rintro s (hs | rfl) t (ht | rfl) hid
    · exact P.eq_of_id_eq s hs t ht hid
    · exact absurd hid (Nat.ne_of_lt (P.id_lt s hs))
    · exact absurd hid.symm (Nat.ne_of_lt (P.id_lt t ht))
    · rfl
  tidy := by
    rintro t (ht | rfl)
    · exact P.tidy t ht
    · exact isTidy_label h P.next b
  fixed := by
    rintro t (ht | rfl) hes'
    · exact P.fixed t ht hes'
    · exact absurd hes' hes

theorem makes_make {es : List (Edge Trie)} (h : P.Edges es) (b : Bool) :
    P.Makes (make b es) fun Q t => t ∈ Q ∧ t.terminal = b ∧ t.edges = es := by
  cases es with
  | nil =>
    cases b with
    | false => exact makes_pure ⟨P.empty_mem, rfl, rfl⟩
    | true => exact makes_pure ⟨P.leaf_mem, rfl, rfl⟩
  | cons e es =>
    refine ⟨P.insert b (e :: es) h (by simp), ⟨Nat.le_succ _, fun t ht => Or.inl ht⟩, rfl, ?_⟩
    exact ⟨Or.inr rfl, rfl, rfl⟩

/-- A node that only passes on to one edge has what that edge leads to. -/
theorem members_of_edges_singleton {t : Trie} {e : Edge Trie} (ht : t.terminal = false)
    (he : t.edges = [e]) : t.members = Stem.members ⟨e.key, e.child⟩ := by
  ext p
  rw [mem_members, Trie.mem_iff, ht, he]
  simp [edgeMembers, Stem.members]

theorem members_of_over_eq_none {b : UInt8} {k : Path} {t : Trie} (ht : t ∈ P)
    (h : Edge.over b k t = none) : t.members = ∅ := by
  unfold Edge.over at h
  split at h
  · next he => exact (isEmpty_iff ht).mp he
  · split at h <;> cases h

/-- The edge to a trie with members: it has their paths, and stands on a node that may stand
there. -/
theorem over_eq_some {b : UInt8} {k : Path} {t : Trie} {e : Edge Trie} (ht : t ∈ P)
    (h : Edge.over b k t = some e) :
    e.first = b ∧ e.child ∈ P ∧ e.child.IsInner ∧
      Stem.members ⟨e.rest, e.child⟩ = Stem.members ⟨k, t⟩ := by
  unfold Edge.over at h
  split at h
  · cases h
  · next hne =>
    split at h
    · next f hter hes =>
      have hf : f ∈ t.edges := by rw [hes]; exact List.mem_singleton_self f
      obtain rfl := Option.some.inj h
      refine ⟨rfl, P.child_mem t ht f hf, (P.tidy t ht).inner f hf, ?_⟩
      have hm := members_of_edges_singleton hter hes
      rw [Stem.members_append, ← hm, ← Stem.members_nil, ← Stem.members_append, List.append_nil]
    · next hn =>
      obtain rfl := Option.some.inj h
      refine ⟨rfl, ht, ?_, rfl⟩
      cases hter : t.terminal with
      | true => exact Or.inl hter
      | false =>
        right
        match hes : t.edges with
        | [] =>
          rw [isEmpty_iff ht] at hne
          refine absurd ?_ hne
          ext p
          simp [Trie.mem_iff, hter, hes]
        | [f] => exact absurd hes (hn f hter)
        | f :: g :: es => simp

theorem edges_over_append {b : UInt8} {k : Path} {t : Trie} {es : List (Edge Trie)} (ht : t ∈ P)
    (h : P.Edges es) (hlt : ∀ e ∈ es, b < e.first) :
    P.Edges ((Edge.over b k t).toList ++ es) := by
  cases ho : Edge.over b k t with
  | none => exact h
  | some e =>
    obtain ⟨rfl, hc, hi, -⟩ := over_eq_some ht ho
    exact Edges.cons hc hi hlt h

theorem edges_over {b : UInt8} {k : Path} {t : Trie} (ht : t ∈ P) :
    P.Edges (Edge.over b k t).toList := by
  have h := edges_over_append (b := b) (k := k) ht (edges_nil P) fun e he =>
    absurd he List.not_mem_nil
  rwa [List.append_nil] at h

theorem edgeMembers_over {b : UInt8} {k : Path} {t : Trie} (ht : t ∈ P) :
    edgeMembers (Edge.over b k t).toList = edgeMembers [⟨b, k, t⟩] := by
  cases h : Edge.over b k t with
  | none =>
    have hm := members_of_over_eq_none ht h
    ext p
    have hn : ∀ q, q ∉ t := fun q hq => Set.notMem_empty q (hm ▸ hq)
    simp [edgeMembers, hn]
  | some e =>
    obtain ⟨rfl, -, -, hm⟩ := over_eq_some ht h
    ext p
    have hp := fun r => Set.ext_iff.mp hm r
    simp only [Stem.members, Set.mem_ofPred_eq] at hp
    cases p with
    | nil => simp
    | cons c p => simp [cons_mem_edgeMembers, hp]

/-- The trie at the start of a stem has the paths of the stem. -/
theorem makes_toTrie {s : Stem} (h : s.child ∈ P) :
    P.Makes s.toTrie fun Q t => t ∈ Q ∧ t.members = s.members := by
  obtain ⟨k, t⟩ := s
  cases k with
  | nil => exact makes_pure ⟨h, (Stem.members_nil t).symm⟩
  | cons b k =>
    refine (makes_make (edges_over h) false).imp fun Q u _ hu => ⟨hu.1, ?_⟩
    ext p
    rw [mem_members, Trie.mem_iff, hu.2.1, hu.2.2, edgeMembers_over h]
    simp [edgeMembers, Stem.members, Edge.key]

/-- The empty set and the set of the empty path, before any other node is made. -/
def start : Pool where
  next := firstId
  nodes := {t | t = Trie.empty ∨ t = leaf}
  empty_mem := Or.inl rfl
  leaf_mem := Or.inr rfl
  child_mem := by
    rintro t (rfl | rfl) e he <;> exact absurd he List.not_mem_nil
  id_lt := by
    rintro t (rfl | rfl) <;> decide
  eq_of_id_eq := by
    rintro s (rfl | rfl) t (rfl | rfl) hid
    · rfl
    · exact absurd hid (by decide)
    · exact absurd hid (by decide)
    · rfl
  tidy := by
    rintro t (rfl | rfl) <;>
      exact ⟨List.Pairwise.nil, fun _ h => absurd h List.not_mem_nil, rfl, rfl⟩
  fixed := fun t ht _ => ht

end Pool

end ByteTrie
