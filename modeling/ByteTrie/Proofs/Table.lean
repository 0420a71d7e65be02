import ByteTrie.Proofs.Digest
import ByteTrie.Proofs.Pool
import Mathlib

/-!
# What interning does to the table

Whatever the hash function is and whatever the table holds, interning a trie finds the digest that
the trie has by itself, keeps every entry, and adds entries for the digests of the trie's nodes
alone.  In a table that was built by interning, every node is kept under its own digest, and the
nodes behind its edges are nodes of the table.

    Consed hash table          nodes are kept under their digests, and children are in the table
    Extends D old new          entries for the digests in D were added, and nothing was lost
    Entered N hash t s r s'    what is found for t is entered, on the way from state s to state s'

The walk remembers nodes by their ids, so the nodes of `N` are asked to be told apart by them; that they
are in canonical form is not asked.
-/

namespace ByteTrie

open Trie

variable {hash : HashFunction} {N : Set Trie}

/-- Nodes with all that is below them, of which no two have one id. -/
structure IsHeap (N : Set Trie) : Prop where
  child_mem : ∀ t ∈ N, ∀ e ∈ t.edges, e.child ∈ N
  eq_of_id_eq : ∀ s ∈ N, ∀ t ∈ N, s.id = t.id → s = t

theorem Pool.isHeap (P : Pool) : IsHeap P.nodes := ⟨P.child_mem, P.eq_of_id_eq⟩

/-! ## Digests of nodes -/

namespace Trie

/-- The digests of the nodes of a trie. -/
def digests (hash : HashFunction) (t : Trie) : Set Digest :=
  {d | ∃ u, IsNode u t ∧ u.digest hash = d}

/-- The digests of the nodes behind edges. -/
def edgeDigests (hash : HashFunction) (es : List (Edge Trie)) : Set Digest :=
  {d | ∃ e ∈ es, d ∈ e.child.digests hash}

theorem digest_mem_digests (hash : HashFunction) (t : Trie) : t.digest hash ∈ t.digests hash :=
  ⟨t, .root, rfl⟩

theorem mem_digests_iff (t : Trie) (d : Digest) :
    d ∈ t.digests hash ↔ d ∈ edgeDigests hash t.edges ∨ d = t.digest hash := by
  constructor
  · rintro ⟨u, hu, rfl⟩
    cases hu with
    | root => exact Or.inr rfl
    | inside he hu => exact Or.inl ⟨_, he, u, hu, rfl⟩
  · rintro (⟨e, he, u, hu, rfl⟩ | rfl)
    · exact ⟨u, .inside he hu, rfl⟩
    · exact digest_mem_digests hash t

theorem edgeDigests_cons (e : Edge Trie) (es : List (Edge Trie)) :
    edgeDigests hash (e :: es) = e.child.digests hash ∪ edgeDigests hash es := by
  ext d
  simp [edgeDigests]

/-- The digest looks at the flag, the keys and the digests of the children alone. -/
theorem digest_eq_of_content_eq {t : Trie} {b : Bool} {gs : List Interner.DigestedEdge}
    (hb : b = t.terminal)
    (hgs : gs.map Interner.content = (digestedEdges hash t.edges).map Interner.content) :
    hash (Interner.message b gs) = t.digest hash := by
  rw [Interner.message_eq_of_content_eq b hgs, digest_eq, hb]
  rfl

end Trie

namespace Interner

/-! ## Tables -/

/-- Every node is kept under its digest, and the nodes behind its edges are nodes of the table. -/
structure Consed (hash : HashFunction) (table : Std.HashMap Digest Trie) : Prop where
  digest_eq : ∀ (d : Digest) (u : Trie), table[d]? = some u → u.digest hash = d
  child : ∀ (d : Digest) (u : Trie), table[d]? = some u → ∀ e ∈ u.edges,
    ∃ v : Trie, table[e.child.digest hash]? = some v ∧ v.sameNode e.child = true

/-- `new` has the entries of `old`, and others for the digests in `D` alone. -/
structure Extends (D : Set Digest) (old new : Std.HashMap Digest Trie) : Prop where
  kept : ∀ (d : Digest) (u : Trie), old[d]? = some u → new[d]? = some u
  mem_iff : ∀ d, d ∈ new ↔ d ∈ old ∨ d ∈ D

variable {D E : Set Digest} {old mid new : Std.HashMap Digest Trie}

theorem consed_empty (hash : HashFunction) : Consed hash {} where
  digest_eq := fun d u h => by simp at h
  child := fun d u h => by simp at h

theorem extends_self {table : Std.HashMap Digest Trie} (h : ∀ d ∈ D, d ∈ table) :
    Extends D table table where
  kept := fun _ _ h => h
  mem_iff := fun d => ⟨Or.inl, fun hd => hd.elim id (h d)⟩

theorem Extends.trans (h : Extends D old mid) (h' : Extends E mid new) :
    Extends (D ∪ E) old new where
  kept := fun d u hd => h'.kept d u (h.kept d u hd)
  mem_iff := fun d => by rw [h'.mem_iff, h.mem_iff, Set.mem_union, or_assoc]

theorem Extends.mem (h : Extends D old new) {d : Digest} (hd : d ∈ old) : d ∈ new :=
  (h.mem_iff d).mpr (Or.inl hd)

theorem extends_insert {d : Digest} (h : old[d]? = none) (kept : Trie) :
    Extends {d} old (old.insert d kept) where
  kept := by
    intro c u hc
    have hne : d ≠ c := by
      rintro rfl
      rw [h] at hc
      cases hc
    rw [Std.HashMap.getElem?_insert, if_neg (by simpa using hne)]
    exact hc
  mem_iff := by
    intro c
    rw [Std.HashMap.mem_insert, beq_iff_eq, Set.mem_singleton_iff]
    tauto

/-- A node may be kept for its digest if what is behind its edges is kept. -/
theorem Consed.insert (h : Consed hash old) {d : Digest} {kept : Trie} (hd : old[d]? = none)
    (hdigest : kept.digest hash = d) (hchild : ∀ e ∈ kept.edges,
      ∃ v : Trie, old[e.child.digest hash]? = some v ∧ v.sameNode e.child = true) :
    Consed hash (old.insert d kept) := by
  have hext := extends_insert hd kept
  refine ⟨fun c u hc => ?_, fun c u hc e he => ?_⟩
  · rw [Std.HashMap.getElem?_insert] at hc
    split at hc
    · next heq =>
      obtain rfl := Option.some.inj hc
      rw [hdigest, beq_iff_eq.mp heq]
    · exact h.digest_eq c u hc
  · have hold : ∃ v : Trie, old[e.child.digest hash]? = some v ∧ v.sameNode e.child = true := by
      rw [Std.HashMap.getElem?_insert] at hc
      split at hc
      · obtain rfl := Option.some.inj hc
        exact hchild e he
      · exact h.child c u hc e he
    obtain ⟨v, hv, hsame⟩ := hold
    exact ⟨v, hext.kept _ v hv, hsame⟩

/-! ## Runs -/

section Gives

variable {α β : Type}

/-- Run from `s`, `x` comes to a value and a state with `post`, whatever ids are unused. -/
def Gives (x : Interning α) (s : State) (post : α → State → Prop) : Prop :=
  ∀ n, post (x.run s n).1.1 (x.run s n).1.2

variable {s : State} {post : α → State → Prop}

theorem gives_pure {a : α} (h : post a s) : Gives (pure a) s post := fun _ => h

theorem Gives.bind {x : Interning α} {f : α → Interning β} {goal : β → State → Prop}
    (hx : Gives x s post) (hf : ∀ a u, post a u → Gives (f a) u goal) : Gives (x >>= f) s goal :=
  fun n => hf _ _ (hx n) (x.run s n).2

theorem Gives.and {x : Interning α} {also : α → State → Prop} (h : Gives x s post)
    (h' : Gives x s also) : Gives x s fun a u => post a u ∧ also a u := fun n => ⟨h n, h' n⟩

theorem Gives.imp {x : Interning α} {also : α → State → Prop} (h : Gives x s post)
    (hpost : ∀ a u, post a u → also a u) : Gives x s also := fun n => hpost _ _ (h n)

theorem gives_get_bind {f : State → Interning β} {goal : β → State → Prop}
    (h : Gives (f s) s goal) : Gives (get >>= f) s goal :=
  fun n => h n

theorem gives_modify_bind {g : State → State} {f : PUnit → Interning β} {goal : β → State → Prop}
    (h : Gives (f ⟨⟩) (g s) goal) : Gives (modify g >>= f) s goal :=
  fun n => h n

end Gives

/-- What is remembered for a visited node: its digest and what is kept for it, all of its nodes
being in the table. -/
def Memo (N : Set Trie) (hash : HashFunction) (s : State) : Prop :=
  ∀ i r, s.visited[i]? = some r → ∃ v ∈ N, v.id = i ∧ r.1 = v.digest hash ∧
    s.table[v.digest hash]? = some r.2 ∧ ∀ d ∈ v.digests hash, d ∈ s.table

theorem memo_start (hash : HashFunction) (table : Std.HashMap Digest Trie) :
    Memo N hash ⟨table, {}, 0⟩ :=
  fun i r hi => by simp at hi

theorem Memo.extend {s : State} (h : Memo N hash s) (hext : Extends D s.table new) (r : Nat) :
    Memo N hash ⟨new, s.visited, r⟩ := by
  intro i r hi
  obtain ⟨v, hv, hid, hdigest, hentry, hnodes⟩ := h i r hi
  exact ⟨v, hv, hid, hdigest, hext.kept _ _ hentry, fun d hd => hext.mem (hnodes d hd)⟩

/-- What is found for a trie, on the way from the state `s` to the state `s'`. -/
structure Entered (N : Set Trie) (hash : HashFunction) (t : Trie) (s : State) (r : Digest × Trie)
    (s' : State) : Prop where
  digest : r.1 = t.digest hash
  entry : s'.table[t.digest hash]? = some r.2
  memo : Memo N hash s'
  table : Extends (t.digests hash) s.table s'.table
  consed : Consed hash s.table → Consed hash s'.table

/-- An interned edge beside the edge that it was made of. -/
structure Partner (hash : HashFunction) (table : Std.HashMap Digest Trie) (isChanged : Bool)
    (e : Edge Trie) (g : DigestedEdge) : Prop where
  first : g.1.first = e.first
  rest : g.1.rest = e.rest
  digest : g.2 = e.child.digest hash
  entry : table[e.child.digest hash]? = some g.1.child
  same : isChanged = false → g.1.child.sameNode e.child = true

/-- What is found for the edges of a node. -/
structure EnteredEdges (N : Set Trie) (hash : HashFunction) (es : List (Edge Trie)) (s : State)
    (r : List DigestedEdge × Bool) (s' : State) : Prop where
  partners : List.Forall₂ (Partner hash s'.table r.2) es r.1
  memo : Memo N hash s'
  table : Extends (edgeDigests hash es) s.table s'.table
  consed : Consed hash s.table → Consed hash s'.table

theorem content_eq_of_partners {table : Std.HashMap Digest Trie} {isChanged : Bool}
    {es : List (Edge Trie)} {gs : List DigestedEdge}
    (h : List.Forall₂ (Partner hash table isChanged) es gs) :
    gs.map content = (digestedEdges hash es).map content := by
  induction h with
  | nil => rfl
  | @cons e g es gs heg _ ih =>
    have hkey : g.1.key = e.key := by rw [Edge.key, Edge.key, heg.first, heg.rest]
    obtain ⟨b, k, t⟩ := e
    rw [digestedEdges, List.map_cons, List.map_cons, ih, content, content, hkey, heg.digest]

/-- The digest of a node is found from the interned edges. -/
theorem hash_message_of_partners {table : Std.HashMap Digest Trie} {isChanged : Bool} {t : Trie}
    {gs : List DigestedEdge} (h : List.Forall₂ (Partner hash table isChanged) t.edges gs) :
    hash (message t.terminal gs) = t.digest hash :=
  digest_eq_of_content_eq rfl (content_eq_of_partners h)

theorem exists_partner_of_mem {r : Edge Trie → DigestedEdge → Prop} {es : List (Edge Trie)}
    {gs : List DigestedEdge} (h : List.Forall₂ r es gs) :
    (∀ e ∈ es, ∃ g, r e g) ∧ ∀ g ∈ gs, ∃ e ∈ es, r e g := by
  induction h with
  | nil => exact ⟨nofun, nofun⟩
  | @cons e g es gs heg _ ih =>
    refine ⟨fun f hf => ?_, fun f hf => ?_⟩
    · rcases List.mem_cons.mp hf with rfl | hf
      · exact ⟨g, heg⟩
      · exact ih.1 f hf
    · rcases List.mem_cons.mp hf with rfl | hf
      · exact ⟨e, List.mem_cons_self, heg⟩
      · obtain ⟨e', he', h'⟩ := ih.2 f hf
        exact ⟨e', List.mem_cons_of_mem e he', h'⟩

/-- A node that is kept for a new digest: the trie itself, where all that is behind its edges was
kept, or a node with the interned edges. -/
theorem Consed.insert_partners {table : Std.HashMap Digest Trie} (h : Consed hash table)
    {t kept : Trie} {gs : List DigestedEdge} {isChanged : Bool} (hd : table[t.digest hash]? = none)
    (hp : List.Forall₂ (Partner hash table isChanged) t.edges gs)
    (hkept : isChanged = false ∧ kept = t ∨
      kept.terminal = t.terminal ∧ kept.edges = gs.map fun g => g.1) :
    Consed hash (table.insert (t.digest hash) kept) := by
  rcases hkept with ⟨hsame, rfl⟩ | ⟨hter, hes⟩
  · refine h.insert hd rfl fun e he => ?_
    obtain ⟨g, hg⟩ := (exists_partner_of_mem hp).1 e he
    exact ⟨g.1.child, hg.entry, hg.same hsame⟩
  · -- a kept child has the digest of the child that it stands for
    have hchild : ∀ g ∈ gs, g.2 = g.1.child.digest hash ∧
        table[g.1.child.digest hash]? = some g.1.child := by
      intro g hg
      obtain ⟨e, -, heg⟩ := (exists_partner_of_mem hp).2 g hg
      have hdigest : g.1.child.digest hash = e.child.digest hash := h.digest_eq _ _ heg.entry
      rw [hdigest]
      exact ⟨heg.digest, heg.entry⟩
    have hcontent : gs.map content = (digestedEdges hash kept.edges).map content := by
      rw [hes, digestedEdges_eq_map, List.map_map, List.map_map]
      refine List.map_congr_left fun g hg => ?_
      rw [Function.comp_apply, Function.comp_apply, content, content, (hchild g hg).1]
    have hdigest : kept.digest hash = t.digest hash := by
      rw [← digest_eq_of_content_eq hter.symm hcontent]
      exact hash_message_of_partners hp
    refine h.insert hd hdigest fun e he => ?_
    rw [hes] at he
    obtain ⟨g, hg, rfl⟩ := List.mem_map.mp he
    exact ⟨g.1.child, (hchild g hg).2, beq_self_eq_true _⟩

/-! ## The walk -/

/-- The digest of `t` is entered, if it was not there. -/
theorem gives_keep {t : Trie} {gs : List DigestedEdge} {isChanged : Bool} {s : State}
    (hm : Memo N hash s) (hp : List.Forall₂ (Partner hash s.table isChanged) t.edges gs) :
    Gives (keep (t.digest hash) t (gs.map fun g => g.1) isChanged) s fun kept s' =>
      s'.table[t.digest hash]? = some kept ∧ Memo N hash s' ∧
      Extends {t.digest hash} s.table s'.table ∧ (Consed hash s.table → Consed hash s'.table) := by
  unfold keep
  refine gives_get_bind ?_
  split
  · next kept hkept =>
    have hext : Extends {t.digest hash} s.table s.table := by
      refine extends_self fun d hd => ?_
      rw [Set.mem_singleton_iff.mp hd, Std.HashMap.mem_iff_isSome_getElem?, hkept]
      rfl
    split
    · exact gives_modify_bind (gives_pure ⟨hkept, hm.extend hext _, hext, id⟩)
    · exact gives_pure ⟨hkept, hm, hext, id⟩
  · next hnone =>
    have enter : ∀ kept : Trie, (isChanged = false ∧ kept = t ∨
        kept.terminal = t.terminal ∧ kept.edges = gs.map fun g => g.1) →
        let table := s.table.insert (t.digest hash) kept
        table[t.digest hash]? = some kept ∧ Memo N hash { s with table := table } ∧
          Extends {t.digest hash} s.table table ∧ (Consed hash s.table → Consed hash table) := by
      intro kept hkept
      have hext := extends_insert hnone kept
      exact ⟨Std.HashMap.getElem?_insert_self, hm.extend hext _, hext,
        fun hc => hc.insert_partners hnone hp hkept⟩
    split
    · intro n
      exact enter _ (Or.inr ⟨terminal_make _ _ n, edges_make _ _ n⟩)
    · next hsame => exact fun n => enter t (Or.inl ⟨by simpa using hsame, rfl⟩)

theorem gives_finish {t : Trie} {gs : List DigestedEdge} {isChanged : Bool} {s s' : State}
    (ht : t ∈ N) (h : EnteredEdges N hash t.edges s (gs, isChanged) s') :
    Gives (finish hash t gs isChanged) s' (Entered N hash t s) := by
  have hdigest : hash (message t.terminal gs) = t.digest hash :=
    hash_message_of_partners h.partners
  unfold finish
  simp only [hdigest]
  refine (gives_keep h.memo h.partners).bind fun kept u ⟨hentry, hmemo, hext, hcons⟩ => ?_
  have htable : Extends (t.digests hash) s.table u.table := by
    refine ⟨(h.table.trans hext).kept, fun d => ?_⟩
    rw [(h.table.trans hext).mem_iff, mem_digests_iff]
    exact Iff.rfl
  refine gives_modify_bind (gives_pure ⟨rfl, hentry, fun i r hi => ?_, htable, hcons ∘ h.consed⟩)
  rw [Std.HashMap.getElem?_insert] at hi
  split at hi
  · next hid =>
    obtain rfl := Option.some.inj hi
    exact ⟨t, ht, beq_iff_eq.mp hid, rfl, hentry, fun d hd => (htable.mem_iff d).mpr (Or.inr hd)⟩
  · exact hmemo i r hi

theorem gives_internEdges (es : List (Edge Trie)) (s : State) (hs : Memo N hash s)
    (ih : ∀ e ∈ es, ∀ s, Memo N hash s →
      Gives (internNode hash e.child) s (Entered N hash e.child s)) :
    Gives (internEdges hash es) s (EnteredEdges N hash es s) := by
  induction es generalizing s with
  | nil =>
    rw [internEdges]
    exact gives_pure ⟨.nil, hs, extends_self fun d ⟨_, he, _⟩ => absurd he List.not_mem_nil, id⟩
  | cons e es ihes =>
    obtain ⟨b, k, t⟩ := e
    rw [internEdges]
    refine (ih _ List.mem_cons_self s hs).bind fun r u hr => ?_
    refine (ihes u hr.memo fun e he => ih e (List.mem_cons_of_mem _ he)).bind fun q v hq => ?_
    refine gives_pure ⟨.cons ?_ ?_, hq.memo, ?_, hq.consed ∘ hr.consed⟩
    · refine ⟨rfl, rfl, hr.digest, hq.table.kept _ _ hr.entry, fun h => ?_⟩
      simpa using (Bool.or_eq_false_iff.mp h).2
    · exact hq.partners.imp fun e g h =>
        ⟨h.first, h.rest, h.digest, h.entry, fun hc => h.same (Bool.or_eq_false_iff.mp hc).1⟩
    · rw [edgeDigests_cons]
      exact hr.table.trans hq.table

/-- Interning a node.  The induction is over the nodes of the trie; a node that was visited before is
not looked into. -/
theorem gives_internNode (hN : IsHeap N) (t : Trie) (s : State) (ht : t ∈ N) (hs : Memo N hash s) :
    Gives (internNode hash t) s (Entered N hash t s) := by
  induction t using nodeInduction generalizing s with
  | node t ih =>
    have hedges : Gives (internEdges hash t.edges) s (EnteredEdges N hash t.edges s) :=
      gives_internEdges t.edges s hs fun e he u hu => ih e he u (hN.child_mem t ht e he) hu
    match t, ht, hedges with
    | .node i b c m es, ht, hedges =>
      rw [internNode]
      refine gives_get_bind ?_
      split
      · next r hr =>
        obtain ⟨v, hv, hid, hdigest, hentry, hnodes⟩ := hs i r hr
        obtain rfl := hN.eq_of_id_eq v hv _ ht hid
        exact gives_pure ⟨hdigest, hentry, hs, extends_self hnodes, id⟩
      · exact hedges.bind fun r u hr => gives_finish ht hr

/-- What an interner has after a trie was interned. -/
theorem entered_intern (hN : IsHeap N) (m : Interner) (hash : HashFunction) {t : Trie} (ht : t ∈ N)
    (n : Nat) :
    let r := (m.intern hash t n).1
    r.1.digest = t.digest hash ∧ r.2.table[t.digest hash]? = some r.1.trie ∧
      Extends (t.digests hash) m.table r.2.table ∧
      (Consed hash m.table → Consed hash r.2.table) := by
  have h := gives_internNode hN t ⟨m.table, {}, 0⟩ ht (memo_start hash m.table) n
  exact ⟨h.digest, h.entry, h.table, h.consed⟩

end Interner

end ByteTrie
