import ByteTrie.Proofs.Digest
import ByteTrie.Proofs.Pool
import Mathlib

/-!
# Interning gives equal sets

Every node of the table stands for the digest it is kept under: it has the shape of a node that was
hashed to that digest.  As long as the hash function does not collide on what is hashed, the node
kept for a digest can take the place of every node with that digest.

    makes_intern m t     r.trie.shape = t.shape and r.digest = t.digest hash
-/

namespace ByteTrie

open Trie Pool Interner

variable {P Q : Pool} {hash : HashFunction} {ts : List Trie}

/-- Edges that have the shape of a node's edges may be a node's edges. -/
theorem Pool.Edges.of_edgeShapes_eq {es gs : List (Edge Trie)} (h : P.Edges es)
    (hgs : edgeShapes gs = edgeShapes es) (hmem : ∀ g ∈ gs, g.child ∈ P) : P.Edges gs where
  ascending := by
    have hasc : (es.map fun e => e.first).Pairwise (· < ·) := List.pairwise_map.mpr h.ascending
    rw [← firsts_eq_of_edgeShapes_eq hgs] at hasc
    exact List.pairwise_map.mp hasc
  child_mem := hmem
  inner := by
    intro g hg
    obtain ⟨e, he, -, -, hshape⟩ := exists_partner hgs hg
    exact isInner_of_shape_eq (h.inner e he) hshape

namespace Interner

/-- `kept` is a node of the pool with the shape of `t`. -/
structure Replaces (P : Pool) (t kept : Trie) : Prop where
  mem : kept ∈ P
  shape : kept.shape = t.shape

theorem Replaces.mono {t kept : Trie} (h : Replaces P t kept) (hPQ : P ≤ Q) :
    Replaces Q t kept :=
  ⟨hPQ.2 _ h.mem, h.shape⟩

/-- A table that keeps, for each digest, a node with the shape of the nodes with that digest. -/
def TableIn (P : Pool) (hash : HashFunction) (ts : List Trie)
    (table : Std.HashMap Digest Trie) : Prop :=
  ∀ d kept, table[d]? = some kept → ∃ v : Trie, v.IsNodeOf ts ∧ v.digest hash = d ∧ Replaces P v kept

/-- What is remembered for a visited node is its digest and a node with its shape. -/
def VisitedIn (P : Pool) (hash : HashFunction)
    (visited : Std.HashMap Nat (Digest × Trie)) : Prop :=
  ∀ i r, visited[i]? = some r → ∃ v ∈ P, v.id = i ∧ v.digest hash = r.1 ∧ Replaces P v r.2

structure State.In (s : State) (P : Pool) (hash : HashFunction) (ts : List Trie) : Prop where
  table : TableIn P hash ts s.table
  visited : VisitedIn P hash s.visited

theorem TableIn.mono {table : Std.HashMap Digest Trie} {us : List Trie}
    (h : TableIn P hash ts table) (hPQ : P ≤ Q) (hus : ∀ t ∈ ts, t ∈ us) :
    TableIn Q hash us table := by
  intro d kept hd
  obtain ⟨v, ⟨t, ht, hv⟩, hdigest, hkept⟩ := h d kept hd
  exact ⟨v, ⟨t, hus t ht, hv⟩, hdigest, hkept.mono hPQ⟩

theorem VisitedIn.mono {visited : Std.HashMap Nat (Digest × Trie)} (h : VisitedIn P hash visited)
    (hPQ : P ≤ Q) : VisitedIn Q hash visited := by
  intro i r hi
  obtain ⟨v, hv, hid, hdigest, hkept⟩ := h i r hi
  exact ⟨v, hPQ.2 v hv, hid, hdigest, hkept.mono hPQ⟩

/-! ## Steps -/

/-- A node that replaces `t` may be kept for the digest of `t`. -/
theorem State.In.enter {s : State} (hs : s.In P hash ts) (hPQ : P ≤ Q) {t kept : Trie}
    (hts : t.IsNodeOf ts) (hkept : Replaces Q t kept) :
    State.In { s with table := s.table.insert (t.digest hash) kept } Q hash ts := by
  refine ⟨fun d u hu => ?_, hs.visited.mono hPQ⟩
  rw [Std.HashMap.getElem?_insert] at hu
  split at hu
  · next hd =>
    obtain rfl := Option.some.inj hu
    exact ⟨t, hts, beq_iff_eq.mp hd, hkept⟩
  · exact hs.table.mono hPQ (fun _ h => h) d u hu

/-- The node kept for the digest of `t`: by the table, or `t` itself, or one with the interned
edges. -/
theorem makes_keep (hc : CollisionFree hash ts) {t : Trie} {gs : List (Edge Trie)} {s : State}
    (ht : t ∈ P) (hts : t.IsNodeOf ts) (hgs : edgeShapes gs = edgeShapes t.edges)
    (hmem : ∀ g ∈ gs, g.child ∈ P) (hs : s.In P hash ts) (isChanged : Bool) :
    P.Makes ((keep (t.digest hash) t gs isChanged).run s) fun Q r =>
      Replaces Q t r.1 ∧ r.2.In Q hash ts := by
  unfold keep
  simp only [StateT.run_bind, StateT.run_get, pure_bind]
  split
  · next kept hkept =>
    obtain ⟨v, hv, hdigest, hrep⟩ := hs.table _ kept hkept
    have hshape : v.shape = t.shape := shape_eq_of_digest_eq hc hv hts hdigest
    split
    · exact makes_pure ⟨⟨hrep.mem, hrep.shape.trans hshape⟩, hs.table, hs.visited⟩
    · exact makes_pure ⟨⟨hrep.mem, hrep.shape.trans hshape⟩, hs⟩
  · split
    · simp only [StateT.run_bind, StateT.run_monadLift, bind_assoc, pure_bind]
      have hedges : P.Edges gs := (edges_of_mem ht).of_edgeShapes_eq hgs hmem
      refine (makes_make hedges t.terminal).bind fun Q u hPQ hu => ?_
      have hrep : Replaces Q t u := by
        refine ⟨hu.1, (shape_eq_iff u t).mpr ⟨hu.2.1, ?_⟩⟩
        rw [hu.2.2]
        exact hgs
      exact makes_pure ⟨hrep, hs.enter hPQ hts hrep⟩
    · have hrep : Replaces P t t := ⟨ht, rfl⟩
      exact makes_pure ⟨hrep, hs.enter (le_refl P) hts hrep⟩

/-- What is found for a node: its digest, and a node with its shape. -/
structure Found (Q : Pool) (hash : HashFunction) (ts : List Trie) (t : Trie)
    (r : (Digest × Trie) × State) : Prop where
  digest : r.1.1 = t.digest hash
  replaces : Replaces Q t r.1.2
  state : r.2.In Q hash ts

/-- What is found for the edges of a node. -/
structure FoundEdges (Q : Pool) (hash : HashFunction) (ts : List Trie) (es : List (Edge Trie))
    (gs : List DigestedEdge) (s : State) : Prop where
  content : gs.map content = (digestedEdges hash es).map content
  shapes : edgeShapes (gs.map fun g => g.1) = edgeShapes es
  child_mem : ∀ g ∈ gs.map (fun g => g.1), g.child ∈ Q
  state : s.In Q hash ts

theorem makes_finish (hc : CollisionFree hash ts) {t : Trie} {gs : List DigestedEdge} {s : State}
    (ht : t ∈ P) (hts : t.IsNodeOf ts) (hgs : FoundEdges P hash ts t.edges gs s)
    (isChanged : Bool) :
    P.Makes ((finish hash t gs isChanged).run s) fun Q r => Found Q hash ts t r := by
  have hdigest : hash (message t.terminal gs) = t.digest hash := by
    rw [message_eq_of_content_eq t.terminal hgs.content, digest_eq]
    rfl
  unfold finish
  simp only [hdigest, StateT.run_bind]
  refine (makes_keep hc ht hts hgs.shapes hgs.child_mem hgs.state isChanged).bind
    fun Q r hPQ hr => makes_pure ⟨rfl, hr.1, hr.2.table, fun i x hx => ?_⟩
  rw [Std.HashMap.getElem?_insert] at hx
  split at hx
  · next hid =>
    obtain rfl := Option.some.inj hx
    exact ⟨t, hPQ.2 t ht, beq_iff_eq.mp hid, rfl, hr.1⟩
  · exact hr.2.visited i x hx

theorem makes_internEdges (es : List (Edge Trie)) (P : Pool) (s : State)
    (hes : ∀ e ∈ es, e.child ∈ P ∧ e.child.IsNodeOf ts) (hs : s.In P hash ts)
    (ih : ∀ e ∈ es, ∀ (P : Pool) (s : State), e.child ∈ P → e.child.IsNodeOf ts →
      s.In P hash ts → P.Makes ((internNode hash e.child).run s) fun Q r =>
        Found Q hash ts e.child r) :
    P.Makes ((internEdges hash es).run s) fun Q r => FoundEdges Q hash ts es r.1.1 r.2 := by
  induction es generalizing P s with
  | nil =>
    rw [internEdges]
    exact makes_pure ⟨rfl, rfl, fun _ h => absurd h List.not_mem_nil, hs⟩
  | cons e es ihes =>
    obtain ⟨b, k, t⟩ := e
    have ht := hes _ List.mem_cons_self
    rw [internEdges]
    simp only [StateT.run_bind, StateT.run_pure]
    refine (ih _ List.mem_cons_self P s ht.1 ht.2 hs).bind fun Q r hPQ hr => ?_
    have hrest : ∀ e ∈ es, e.child ∈ Q ∧ e.child.IsNodeOf ts := fun e he =>
      ⟨hPQ.2 _ (hes e (List.mem_cons_of_mem _ he)).1, (hes e (List.mem_cons_of_mem _ he)).2⟩
    refine (ihes Q r.2 hrest hr.state fun e he =>
      ih e (List.mem_cons_of_mem _ he)).bind_pure fun R q hQR hq => ⟨?_, ?_, ?_, hq.state⟩
    · rw [digestedEdges, List.map_cons, List.map_cons, hq.content, content, content, hr.digest]
      rfl
    · rw [List.map_cons, edgeShapes, edgeShapes, hq.shapes, hr.replaces.shape]
    · intro g hg
      rcases List.mem_cons.mp hg with rfl | hg
      · exact hQR.2 _ hr.replaces.mem
      · exact hq.child_mem g hg

theorem makes_internNode (hc : CollisionFree hash ts) (t : Trie) (P : Pool) (s : State)
    (ht : t ∈ P) (hts : t.IsNodeOf ts) (hs : s.In P hash ts) :
    P.Makes ((internNode hash t).run s) fun Q r => Found Q hash ts t r := by
  induction t using nodeInduction generalizing P s with
  | node t ih =>
    have hedges : P.Makes ((internEdges hash t.edges).run s) fun Q r =>
        FoundEdges Q hash ts t.edges r.1.1 r.2 :=
      makes_internEdges t.edges P s (fun e he => ⟨P.child_mem t ht e he, hts.child he⟩) hs
        fun e he P s hP hts hs => ih e he P s hP hts hs
    match t, ht, hts, hedges with
    | .node i b n m es, ht, hts, hedges =>
      rw [internNode]
      simp only [StateT.run_bind, StateT.run_get, pure_bind]
      split
      · next r hr =>
        obtain ⟨v, hv, hid, hdigest, hrep⟩ := hs.visited i r hr
        obtain rfl := P.eq_of_id_eq v hv _ ht hid
        exact makes_pure ⟨hdigest.symm, hrep, hs⟩
      · rw [StateT.run_bind]
        refine hedges.bind fun Q r hPQ hr => ?_
        exact makes_finish hc (hPQ.2 _ ht) hts hr r.1.2

/-- Interning gives a set with the same members, and its digest. -/
theorem makes_intern (hc : CollisionFree hash ts) {m : Interner} {t : Trie} (ht : t ∈ P)
    (hts : t ∈ ts) (hm : TableIn P hash ts m.table) :
    P.Makes (m.intern hash t) fun Q r =>
      Replaces Q t r.1.trie ∧ r.1.digest = t.digest hash ∧ TableIn Q hash ts r.2.table := by
  have hvisited : VisitedIn P hash {} := fun i r hi => by simp at hi
  exact (makes_internNode hc t P ⟨m.table, {}, 0⟩ ht ⟨t, hts, .root⟩ ⟨hm, hvisited⟩).bind_pure
    fun Q r _ hr => ⟨hr.replaces, hr.digest, hr.state.table⟩

end Interner

end ByteTrie
