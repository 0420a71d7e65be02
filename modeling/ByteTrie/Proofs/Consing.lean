import ByteTrie.Proofs.Distinct
import ByteTrie.Proofs.Equality
import ByteTrie.Proofs.Table
import Mathlib

/-!
# One node for each content

The calls of one interner in a session, with any other calls between them.  As long as the hash
function does not collide on what is hashed, every set comes back as an equal one, the interner has
one node for each set of paths that is the content of a subtrie of the sets it was given, and all
that came back is made of its nodes.  So what has the same members in any two results is one node.

    Log.Step hash l l'      one more call of the interner, or of anything else in the session
    l.Kept hash             what is true of the interner's table after the calls of l
    l.Shares hash           sets come back equal, and made of one node for each content
-/

namespace ByteTrie

open Trie Pool Interner

/-- A call of an interner: the set that was given, and what came back. -/
structure Call where
  set : Trie
  result : Interned

/-- A session, an interner as it is now, and its calls so far, the last one first. -/
structure Log where
  session : Session
  interner : Interner
  calls : List Call

namespace Log

/-- A new interner in a session. -/
def start (σ : Session) : Log :=
  ⟨{ σ with interners := Interner.empty :: σ.interners }, Interner.empty, []⟩

/-- The interner is given the set `t`. -/
def intern (l : Log) (hash : HashFunction) (t : Trie) : Log :=
  let r := l.interner.intern hash t l.session.next
  ⟨l.session.intern hash l.interner t, r.1.2, ⟨t, r.1.1⟩ :: l.calls⟩

/-- One call in the session, of the interner or of something else. -/
inductive Step (hash : HashFunction) (l : Log) : Log → Prop
  | other {σ : Session} (h : Session.Step hash l.session σ) : Step hash l { l with session := σ }
  | intern {t : Trie} (ht : t ∈ l.session.sets) : Step hash l (l.intern hash t)

/-- The contents of the subtries of the sets that the interner was given. -/
def contents (l : Log) : Set (Set Path) :=
  {A | ∃ c ∈ l.calls, ∃ u, IsNode u c.set ∧ u.members = A}

/-- Sets come back equal and in canonical form, made of the nodes of a table that has one node for
each content, kept under its digest, and no others. -/
structure Shares (hash : HashFunction) (l : Log) : Prop where
  beq : ∀ c ∈ l.calls, (c.result.trie == c.set) = true
  canonical : ∀ c ∈ l.calls, c.result.trie.Canonical
  digest_eq : ∀ (d : Digest) (u : Trie), l.interner.table[d]? = some u → u.digest hash = d
  child : ∀ (d : Digest) (u : Trie), l.interner.table[d]? = some u →
    ∀ e ∈ u.edges, l.interner.table[e.child.digest hash]? = some e.child
  size_eq : (l.interner.size : ℕ∞) = l.contents.encard
  sameNode_iff : ∀ c ∈ l.calls, ∀ c' ∈ l.calls, ∀ u v : Trie, IsNode u c.result.trie →
    IsNode v c'.result.trie → (u.sameNode v = true ↔ u.members = v.members)
  sameNode_of_beq : ∀ c ∈ l.calls, ∀ c' ∈ l.calls, (c.set == c'.set) = true →
    c.result.trie.sameNode c'.result.trie = true

/-! ## What the calls leave -/

/-- What is true of a session and a table after the calls of the table's interner. -/
structure Kept (hash : HashFunction) (l : Log) : Prop where
  reachable : l.session.Reachable hash
  interner_mem : l.interner ∈ l.session.interners
  set_mem : ∀ c ∈ l.calls, c.set ∈ l.session.sets ∧ c.set ∈ l.session.interned
  trie_mem : ∀ c ∈ l.calls, c.result.trie ∈ l.session.sets
  consed : Consed hash l.interner.table
  mem_iff : ∀ d, d ∈ l.interner.table ↔ ∃ c ∈ l.calls, d ∈ c.set.digests hash
  entry : ∀ c ∈ l.calls, l.interner.table[c.set.digest hash]? = some c.result.trie

variable {hash : HashFunction} {σ : Session} {l l' : Log} {P : Pool}

theorem kept_start (h : σ.Reachable hash) : (start σ).Kept hash where
  reachable := h.step .interner
  interner_mem := List.mem_cons_self
  set_mem := fun _ hc => absurd hc List.not_mem_nil
  trie_mem := fun _ hc => absurd hc List.not_mem_nil
  consed := consed_empty hash
  mem_iff := fun d => by simp [start, Interner.empty]
  entry := fun _ hc => absurd hc List.not_mem_nil

theorem Step.interned_subset (h : Step hash l l') :
    ∀ t ∈ l.session.interned, t ∈ l'.session.interned := by
  cases h with
  | other h => exact h.interned_subset
  | intern _ => exact fun t ht => List.mem_cons_of_mem _ ht

theorem interned_subset_of_steps (h : Relation.ReflTransGen (Step hash) l l') :
    ∀ t ∈ l.session.interned, t ∈ l'.session.interned := by
  induction h with
  | refl => exact fun _ ht => ht
  | tail _ hs ih => exact fun t ht => hs.interned_subset t (ih t ht)

/-- Calls of anything else leave the table of the interner as it is. -/
theorem Kept.other {σ : Session} (hl : l.Kept hash) (h : Session.Step hash l.session σ) :
    Kept hash { l with session := σ } where
  reachable := hl.reachable.step h
  interner_mem := h.interners_subset _ hl.interner_mem
  set_mem := fun c hc =>
    ⟨h.sets_subset _ (hl.set_mem c hc).1, h.interned_subset _ (hl.set_mem c hc).2⟩
  trie_mem := fun c hc => h.sets_subset _ (hl.trie_mem c hc)
  consed := hl.consed
  mem_iff := hl.mem_iff
  entry := hl.entry

theorem Kept.intern (hl : l.Kept hash) {t : Trie} (ht : t ∈ l.session.sets)
    (hc : CollisionFree hash l.session.interned) :
    (l.intern hash t).Kept hash ∧
      Extends (t.digests hash) l.interner.table (l.intern hash t).interner.table := by
  obtain ⟨P, hP⟩ := hl.reachable.exists_pool hc
  obtain ⟨-, hentry, hext, hcons⟩ :=
    entered_intern P.isHeap l.interner hash (hP.sets t ht) l.session.next
  have hstep : Session.Step hash l.session (l.intern hash t).session :=
    .intern hl.interner_mem ht
  refine ⟨⟨hl.reachable.step hstep, List.mem_cons_self, fun c hmem => ?_, fun c hmem => ?_,
    hcons hl.consed, fun d => ?_, fun c hmem => ?_⟩, hext⟩
  · rcases List.mem_cons.mp hmem with rfl | hmem
    · exact ⟨hstep.sets_subset t ht, List.mem_cons_self⟩
    · obtain ⟨hset, hinterned⟩ := hl.set_mem c hmem
      exact ⟨hstep.sets_subset _ hset, hstep.interned_subset _ hinterned⟩
  · rcases List.mem_cons.mp hmem with rfl | hmem
    · exact List.mem_cons_self
    · exact hstep.sets_subset _ (hl.trie_mem c hmem)
  · have hmem := hext.mem_iff d
    rw [hl.mem_iff] at hmem
    refine hmem.trans ⟨?_, ?_⟩
    · rintro (⟨c, hc, hd⟩ | hd)
      · exact ⟨c, List.mem_cons_of_mem _ hc, hd⟩
      · exact ⟨_, List.mem_cons_self, hd⟩
    · rintro ⟨c, hc, hd⟩
      rcases List.mem_cons.mp hc with rfl | hc
      · exact Or.inr hd
      · exact Or.inl ⟨c, hc, hd⟩
  · rcases List.mem_cons.mp hmem with rfl | hmem
    · exact hentry
    · exact hext.kept _ _ (hl.entry c hmem)

/-- What one call keeps: the table, and all of its entries. -/
theorem Step.kept (h : Step hash l l') (hc : CollisionFree hash l'.session.interned)
    (hl : l.Kept hash) : l'.Kept hash ∧ ∀ (d : Digest) (u : Trie),
      l.interner.table[d]? = some u → l'.interner.table[d]? = some u := by
  cases h with
  | other h => exact ⟨hl.other h, fun _ _ hd => hd⟩
  | intern ht =>
    obtain ⟨hkept, hext⟩ :=
      hl.intern ht (hc.mono fun t ht => List.mem_cons_of_mem _ ht)
    exact ⟨hkept, hext.kept⟩

/-- What any calls keep. -/
theorem kept_of_steps (h : Relation.ReflTransGen (Step hash) l l')
    (hc : CollisionFree hash l'.session.interned) (hl : l.Kept hash) : l'.Kept hash ∧
      ∀ (d : Digest) (u : Trie),
        l.interner.table[d]? = some u → l'.interner.table[d]? = some u := by
  induction h with
  | refl => exact ⟨hl, fun _ _ hd => hd⟩
  | tail _ hs ih =>
    obtain ⟨hkept, hold⟩ := ih (hc.mono hs.interned_subset)
    obtain ⟨hkept', hold'⟩ := hs.kept hc hkept
    exact ⟨hkept', fun d u hd => hold' d u (hold d u hd)⟩

/-- Every interner of a session is what a row of calls made of a new one. -/
theorem exists_log (hσ : σ.Reachable hash) {m : Interner} (hm : m ∈ σ.interners) :
    ∃ (σ₀ : Session) (l : Log), σ₀.Reachable hash ∧
      Relation.ReflTransGen (Step hash) (start σ₀) l ∧ l.session = σ ∧ l.interner = m := by
  induction hσ generalizing m with
  | start => exact absurd hm List.not_mem_nil
  | @step σ σ' hσ hs ih =>
    by_cases hold : m ∈ σ.interners
    · obtain ⟨σ₀, l, hσ₀, hl, rfl, rfl⟩ := ih hold
      exact ⟨σ₀, _, hσ₀, hl.tail (.other hs), rfl, rfl⟩
    · cases hs with
      | interner =>
        obtain rfl := (List.mem_cons.mp hm).resolve_right hold
        exact ⟨σ, start σ, hσ, .refl, rfl, rfl⟩
      | intern hm' ht =>
        obtain rfl := (List.mem_cons.mp hm).resolve_right hold
        obtain ⟨σ₀, l, hσ₀, hl, rfl, rfl⟩ := ih hm'
        exact ⟨σ₀, _, hσ₀, hl.tail (.intern ht), rfl, rfl⟩
      | _ => exact absurd hm hold

theorem exists_kept (hσ : σ.Reachable hash) (hc : CollisionFree hash σ.interned) {m : Interner}
    (hm : m ∈ σ.interners) : ∃ l : Log, l.session = σ ∧ l.interner = m ∧ l.Kept hash := by
  obtain ⟨σ₀, l, hσ₀, hl, rfl, rfl⟩ := exists_log hσ hm
  exact ⟨l, rfl, rfl, (kept_of_steps hl hc (kept_start hσ₀)).1⟩

/-! ## One node for each content -/

/-- What a table holds under the digest of a node has the shape of that node. -/
theorem shape_eq_of_entry {ts : List Trie} {table : Std.HashMap Digest Trie}
    (hc : CollisionFree hash ts) (htable : TableIn P hash ts table) {u kept : Trie}
    (hu : u.IsNodeOf ts) (hkept : table[u.digest hash]? = some kept) :
    kept ∈ P ∧ kept.shape = u.shape := by
  obtain ⟨v, hv, hdigest, hrep⟩ := htable _ kept hkept
  exact ⟨hrep.mem, hrep.shape.trans (shape_eq_of_digest_eq hc hv hu hdigest)⟩

theorem exists_entry {table : Std.HashMap Digest Trie} {d : Digest} (h : d ∈ table) :
    ∃ u : Trie, table[d]? = some u := by
  rw [Std.HashMap.mem_iff_isSome_getElem?] at h
  exact Option.isSome_iff_exists.mp h

/-- The members of the entry for a digest. -/
def membersAt (l : Log) (d : Digest) : Set Path :=
  (l.interner.table[d]?.map Trie.members).getD ∅

theorem membersAt_eq {d : Digest} {u : Trie} (hu : l.interner.table[d]? = some u) :
    membersAt l d = u.members := by
  rw [membersAt, hu]
  rfl

/-- All that there is of a log in the pool of its session. -/
structure Holds (hash : HashFunction) (l : Log) (P : Pool) : Prop where
  kept : l.Kept hash
  collisionFree : CollisionFree hash l.session.interned
  sets : ∀ t ∈ l.session.sets, t ∈ P
  table : TableIn P hash l.session.interned l.interner.table

theorem Kept.exists_holds (h : l.Kept hash) (hc : CollisionFree hash l.session.interned) :
    ∃ P, Holds hash l P := by
  obtain ⟨P, hP⟩ := h.reachable.exists_pool hc
  exact ⟨P, h, hc, hP.sets, hP.interners _ h.interner_mem⟩

namespace Holds

theorem entry_mem (h : Holds hash l P) {d : Digest} {u : Trie}
    (hu : l.interner.table[d]? = some u) : u ∈ P := by
  obtain ⟨v, -, -, hrep⟩ := h.table d u hu
  exact hrep.mem

/-- The entry for a node of a set that was given has the shape of that node. -/
theorem exists_entry_of_isNode (h : Holds hash l P) {c : Call} (hc : c ∈ l.calls) {u : Trie}
    (hu : IsNode u c.set) :
    ∃ kept, l.interner.table[u.digest hash]? = some kept ∧ kept.shape = u.shape := by
  obtain ⟨kept, hkept⟩ := exists_entry ((h.kept.mem_iff _).mpr ⟨c, hc, u, hu, rfl⟩)
  have hnode : u.IsNodeOf l.session.interned := ⟨c.set, (h.kept.set_mem c hc).2, hu⟩
  exact ⟨kept, hkept, (shape_eq_of_entry h.collisionFree h.table hnode hkept).2⟩

/-- Entries with the same members are one entry. -/
theorem entry_inj (h : Holds hash l P) {d d' : Digest} {u v : Trie}
    (hu : l.interner.table[d]? = some u) (hv : l.interner.table[d']? = some v)
    (hm : u.members = v.members) : d = d' ∧ u = v := by
  have hshape : u.shape = v.shape :=
    shape_eq_of_members_eq (canonical (h.entry_mem hu)) (canonical (h.entry_mem hv)) hm
  have hd : d = d' := by
    rw [← h.kept.consed.digest_eq d u hu, ← h.kept.consed.digest_eq d' v hv,
      digest_eq_of_shape_eq hshape]
  subst hd
  exact ⟨rfl, Option.some.inj (hu.symm.trans hv)⟩

theorem child (h : Holds hash l P) {d : Digest} {u : Trie} (hu : l.interner.table[d]? = some u)
    {e : Edge Trie} (he : e ∈ u.edges) :
    l.interner.table[e.child.digest hash]? = some e.child := by
  obtain ⟨v, hv, hsame⟩ := h.kept.consed.child d u hu e he
  have hchild : e.child ∈ P := P.child_mem u (h.entry_mem hu) e he
  rw [hv, eq_of_sameNode (h.entry_mem hv) hchild hsame]

/-- All nodes of a node of the table are nodes of the table. -/
theorem entry_of_isNode (h : Holds hash l P) {t u : Trie} (hu : IsNode u t)
    (ht : l.interner.table[t.digest hash]? = some t) :
    l.interner.table[u.digest hash]? = some u := by
  induction hu with
  | root => exact ht
  | inside he _ ih => exact ih (h.child ht he)

theorem entry_of_isNode_result (h : Holds hash l P) {c : Call} (hc : c ∈ l.calls) {u : Trie}
    (hu : IsNode u c.result.trie) : l.interner.table[u.digest hash]? = some u := by
  have hentry := h.kept.entry c hc
  refine h.entry_of_isNode hu ?_
  rw [h.kept.consed.digest_eq _ _ hentry]
  exact hentry

theorem size_eq (h : Holds hash l P) : (l.interner.size : ℕ∞) = l.contents.encard := by
  have himage : membersAt l '' {d | d ∈ l.interner.table} = l.contents := by
    ext A
    constructor
    · rintro ⟨d, hd, rfl⟩
      obtain ⟨c, hc, u, hu, rfl⟩ := (h.kept.mem_iff d).mp hd
      obtain ⟨kept, hkept, hshape⟩ := h.exists_entry_of_isNode hc hu
      refine ⟨c, hc, u, hu, ?_⟩
      rw [membersAt_eq hkept, members_eq_of_shape_eq hshape]
    · rintro ⟨c, hc, u, hu, rfl⟩
      obtain ⟨kept, hkept, hshape⟩ := h.exists_entry_of_isNode hc hu
      refine ⟨u.digest hash, (h.kept.mem_iff _).mpr ⟨c, hc, u, hu, rfl⟩, ?_⟩
      rw [membersAt_eq hkept, members_eq_of_shape_eq hshape]
  have hinj : Set.InjOn (membersAt l) {d | d ∈ l.interner.table} := by
    intro d hd d' hd' hm
    obtain ⟨u, hu⟩ := exists_entry hd
    obtain ⟨v, hv⟩ := exists_entry hd'
    rw [membersAt_eq hu, membersAt_eq hv] at hm
    exact (h.entry_inj hu hv hm).1
  rw [← himage, hinj.encard_image]
  exact size_eq_encard_keys l.interner.table

theorem shares (h : Holds hash l P) : l.Shares hash where
  beq := by
    intro c hc
    obtain ⟨kept, hkept, hshape⟩ := h.exists_entry_of_isNode hc .root
    obtain rfl := Option.some.inj (hkept.symm.trans (h.kept.entry c hc))
    exact beq_of_shape_eq (canonical (h.entry_mem hkept))
      (canonical (h.sets _ (h.kept.set_mem c hc).1)) hshape
  canonical := fun c hc => canonical (h.sets _ (h.kept.trie_mem c hc))
  digest_eq := h.kept.consed.digest_eq
  child := fun d u hu e he => h.child hu he
  size_eq := h.size_eq
  sameNode_iff := by
    intro c hc c' hc' u v hu hv
    have hentry := h.entry_of_isNode_result hc hu
    have hentry' := h.entry_of_isNode_result hc' hv
    constructor
    · intro hsame
      rw [eq_of_sameNode (h.entry_mem hentry) (h.entry_mem hentry') hsame]
    · intro hm
      rw [(h.entry_inj hentry hentry' hm).2]
      exact beq_self_eq_true v.id
  sameNode_of_beq := by
    intro c hc c' hc' hbeq
    have hset := h.sets _ (h.kept.set_mem c hc).1
    have hset' := h.sets _ (h.kept.set_mem c' hc').1
    have hdigest : c.set.digest hash = c'.set.digest hash :=
      digest_eq_of_shape_eq ((beq_iff_shape_eq hset hset').mp hbeq)
    have hentry := h.kept.entry c hc
    rw [hdigest, h.kept.entry c' hc'] at hentry
    rw [Option.some.inj hentry]
    exact beq_self_eq_true c.result.trie.id

end Holds

theorem Kept.shares (h : l.Kept hash) (hc : CollisionFree hash l.session.interned) :
    l.Shares hash := by
  obtain ⟨P, hP⟩ := h.exists_holds hc
  exact hP.shares

/-- Behind every interner of a session there are calls in which sets came back equal and made of one
node for each content. -/
theorem exists_shares (hσ : σ.Reachable hash) (hc : CollisionFree hash σ.interned) {m : Interner}
    (hm : m ∈ σ.interners) : ∃ l : Log, l.session = σ ∧ l.interner = m ∧ l.Shares hash := by
  obtain ⟨l, rfl, rfl, hl⟩ := exists_kept hσ hc hm
  exact ⟨l, rfl, rfl, hl.shares hc⟩

/-- An interner in a session, whatever it is given and whatever else is done in between: sets come
back equal and made of one node for each content, and no entry is ever replaced. -/
theorem shares_of_steps (hσ : σ.Reachable hash)
    (h : Relation.ReflTransGen (Step hash) (start σ) l)
    (h' : Relation.ReflTransGen (Step hash) l l')
    (hc : CollisionFree hash l'.session.interned) :
    l'.Shares hash ∧ ∀ (d : Digest) (u : Trie),
      l.interner.table[d]? = some u → l'.interner.table[d]? = some u := by
  obtain ⟨hkept, -⟩ := kept_of_steps h (hc.mono (interned_subset_of_steps h')) (kept_start hσ)
  obtain ⟨hkept', hold⟩ := kept_of_steps h' hc hkept
  exact ⟨hkept'.shares hc, hold⟩

/-- A set is interned that has two equal subtries, a set of one path is made, and a set equal to the first
one is interned. -/
theorem shares_of_steps_twin : ∃ l l' : Log,
    Relation.ReflTransGen (Step Blake3.hash) (start Session.doubled) l ∧
    Relation.ReflTransGen (Step Blake3.hash) l l' ∧
    l'.calls.map Call.set = [Session.doubledTwin, Session.doubledSet] ∧
    (Session.doubledTwin.sameNode Session.doubledSet = false ∧
      ∃ e ∈ Session.doubledSet.edges, ∃ f ∈ Session.doubledSet.edges,
        e.child.sameNode f.child = false ∧ (e.child == f.child) = true) ∧
    l'.Shares Blake3.hash ∧ ∀ (d : Digest) (u : Trie),
      l.interner.table[d]? = some u → l'.interner.table[d]? = some u := by
  let first : Log := (start Session.doubled).intern Blake3.hash Session.doubledSet
  let other : Log := { first with session := first.session.gain (Trie.singleton [1, 2]) }
  have step₁ : Step Blake3.hash (start Session.doubled) first := .intern Session.doubledSet_mem
  have step₂ : Step Blake3.hash first other := .other (.singleton [1, 2])
  have step₃ : Step Blake3.hash other (other.intern Blake3.hash Session.doubledTwin) :=
    .intern (List.mem_cons_of_mem _ (List.mem_cons_of_mem _ Session.doubledTwin_mem))
  have h := Relation.ReflTransGen.single step₁
  have h' := (Relation.ReflTransGen.single step₂).tail step₃
  have hinterned : (other.intern Blake3.hash Session.doubledTwin).session.interned =
      [Session.doubledTwin, Session.doubledSet] :=
    congrArg (fun ts => Session.doubledTwin :: Session.doubledSet :: ts) Session.doubled_interned
  exact ⟨first, _, h, h', rfl, Session.doubled_nodes, shares_of_steps
    (Session.doubled_reachable _) h h' (hinterned ▸ Session.doubled_collisionFree)⟩

end Log

end ByteTrie
