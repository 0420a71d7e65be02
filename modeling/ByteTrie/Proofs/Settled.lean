import ByteTrie.Proofs.Accounting
import Mathlib

/-!
# Interning what was interned

What came back from an interner has one node for each content, so it has as many nodes as the set
that was given has contents.  Interning it again, with the same table or with a new one, finds for
every node that node itself: the same set comes back, and nothing is counted as reused.

    Idle hash t s        a walk over nodes of t has reused nothing so far, and will not
    Settled hash m t     t comes back as it is from m
-/

namespace ByteTrie

open Trie

namespace Trie

/-- The contents of the subtries of a trie. -/
def contents (t : Trie) : Set (Set Path) := Trie.members '' {u | IsNode u t}

theorem contents_eq_of_shape_eq {s t : Trie} (h : s.shape = t.shape) : s.contents = t.contents := by
  have subset : ∀ {s t : Trie}, s.shape = t.shape → s.contents ⊆ t.contents := by
    rintro s t h _ ⟨u, hu, rfl⟩
    obtain ⟨v, hv, hshape⟩ := exists_node_of_shape_eq hu h
    exact ⟨v, hv, members_eq_of_shape_eq hshape⟩
  exact (subset h).antisymm (subset h.symm)

end Trie

namespace Interner

variable {hash : HashFunction} {P : Pool} {m : Interner} {root t : Trie} {s : State}

/-- Nodes of `t` with one digest are one node. -/
def IsConsed (hash : HashFunction) (t : Trie) : Prop :=
  ∀ u v, IsNode u t → IsNode v t → u.digest hash = v.digest hash → u = v

/-- For the digest of a node of `t`, the table keeps that node or nothing. -/
def KeepsOwn (hash : HashFunction) (t : Trie) (table : Std.HashMap Digest Trie) : Prop :=
  ∀ u, IsNode u t → ∀ kept, table[u.digest hash]? = some kept → kept = u

/-- `t` comes back as it is, whatever ids are unused, and nothing is reused. -/
def Settled (hash : HashFunction) (m : Interner) (t : Trie) : Prop :=
  ∀ n, (m.intern hash t n).1.1.trie = t ∧ (m.intern hash t n).1.1.reused = 0

/-- Nothing was reused, and the nodes of `t` are found to be kept themselves. -/
structure Idle (hash : HashFunction) (t : Trie) (s : State) : Prop where
  own : KeepsOwn hash t s.table
  reused : s.reused = 0

theorem KeepsOwn.insert {table : Std.HashMap Digest Trie} (h : KeepsOwn hash root table)
    (hroot : IsConsed hash root) (ht : IsNode t root) :
    KeepsOwn hash root (table.insert (t.digest hash) t) := by
  intro u hu kept hkept
  rw [Std.HashMap.getElem?_insert] at hkept
  split at hkept
  · next hd =>
    obtain rfl := Option.some.inj hkept
    exact hroot t u ht hu (beq_iff_eq.mp hd)
  · exact h u hu kept hkept

theorem gives_keep_idle (h : Idle hash root s) (hroot : IsConsed hash root) (ht : IsNode t root)
    (gs : List (Edge Trie)) :
    Gives (keep (t.digest hash) t gs false) s fun _ s' => Idle hash root s' := by
  unfold keep
  refine gives_get_bind ?_
  split
  · next kept hkept =>
    obtain rfl := h.own t ht kept hkept
    rw [show kept.sameNode kept = true from beq_self_eq_true kept.id]
    exact gives_pure h
  · have enter : Idle hash root { s with table := s.table.insert (t.digest hash) t } :=
      ⟨h.own.insert hroot ht, h.reused⟩
    exact fun _ => enter

theorem gives_finish_idle {gs : List DigestedEdge} {isChanged : Bool} (h : Idle hash root s)
    (hroot : IsConsed hash root) (ht : IsNode t root)
    (hp : List.Forall₂ (Partner hash s.table isChanged) t.edges gs) :
    Gives (finish hash t gs false) s fun _ s' => Idle hash root s' := by
  have hdigest : hash (message t.terminal gs) = t.digest hash :=
    hash_message_of_partners hp
  unfold finish
  simp only [hdigest]
  refine (gives_keep_idle h hroot ht _).bind fun kept u hu => ?_
  exact gives_modify_bind (gives_pure ⟨hu.own, hu.reused⟩)

theorem gives_internEdges_idle (es : List (Edge Trie)) (s : State) (hs : Memo P.nodes hash s)
    (h : Idle hash root s)
    (ih : ∀ e ∈ es, ∀ s, Memo P.nodes hash s → Idle hash root s →
      Gives (internNode hash e.child) s fun r s' =>
        r.2 = e.child ∧ Memo P.nodes hash s' ∧ Idle hash root s') :
    Gives (internEdges hash es) s fun r s' => r.2 = false ∧ Idle hash root s' := by
  induction es generalizing s with
  | nil =>
    rw [internEdges]
    exact gives_pure ⟨rfl, h⟩
  | cons e es ihes =>
    obtain ⟨b, k, t⟩ := e
    rw [internEdges]
    refine (ih _ List.mem_cons_self s hs h).bind fun r u hu => ?_
    obtain ⟨hr, hmemo, hidle⟩ := hu
    have htail := ihes u hmemo hidle fun e he => ih e (List.mem_cons_of_mem _ he)
    refine htail.bind fun q v hv => gives_pure ⟨?_, hv.2⟩
    rw [hv.1, hr, Bool.false_or]
    exact congrArg not (beq_self_eq_true t.id)

/-- A walk over nodes that the table keeps itself, or not at all, leaves it so. -/
theorem gives_internNode_idle (hroot : IsConsed hash root) (t : Trie) (s : State) (ht : t ∈ P)
    (hnode : IsNode t root) (hs : Memo P.nodes hash s) (h : Idle hash root s) :
    Gives (internNode hash t) s fun r s' => r.2 = t ∧ Memo P.nodes hash s' ∧ Idle hash root s' := by
  induction t using nodeInduction generalizing s with
  | node t ih =>
    have hentered := gives_internNode P.isHeap t s ht hs
    have hedges : Gives (internEdges hash t.edges) s fun r s' => r.2 = false ∧ Idle hash root s' :=
      gives_internEdges_idle t.edges s hs h fun e he s hs h =>
        ih e he s (P.child_mem t ht e he) ((IsNode.child he).trans hnode) hs h
    have hidle : Gives (internNode hash t) s fun _ s' => Idle hash root s' := by
      have hes : Gives (internEdges hash t.edges) s (EnteredEdges P.nodes hash t.edges s) :=
        gives_internEdges t.edges s hs fun e he s hs =>
          gives_internNode P.isHeap e.child s (P.child_mem t ht e he) hs
      have hall := hedges.and hes
      cases t with
      | node i b c m es =>
        rw [internNode]
        refine gives_get_bind ?_
        split
        · exact gives_pure h
        · refine hall.bind fun r u hu => ?_
          obtain ⟨gs, isChanged⟩ := r
          obtain ⟨⟨hsame, hidle⟩, hr⟩ := hu
          obtain rfl : isChanged = false := hsame
          exact gives_finish_idle hidle hroot hnode hr.partners
    exact (hidle.and hentered).imp fun r s' h =>
      ⟨h.1.own t hnode r.2 h.2.entry, h.2.memo, h.1⟩

/-- A set of the pool with one node for each digest comes back as it is from a table that keeps no
other nodes for these digests. -/
theorem settled (ht : t ∈ P) (hone : IsConsed hash t) (hown : KeepsOwn hash t m.table) :
    Settled hash m t := by
  intro n
  have h := gives_internNode_idle hone t ⟨m.table, {}, 0⟩ ht .root (memo_start hash m.table)
    ⟨hown, rfl⟩ n
  exact ⟨h.1, h.2.2.reused⟩

end Interner

namespace Log

variable {hash : HashFunction} {σ : Session} {l : Log} {P : Pool} {c : Call}

open Interner

/-- What a new interner counts when it is given the set `x`: it gets one node for each content, and
all nodes of `x` but as many are reused. -/
structure CountsAnew (hash : HashFunction) (x : Trie) (n : Nat) : Prop where
  size_eq : (Interner.empty.intern hash x n).1.2.size =
    (Interner.empty.intern hash x n).1.1.trie.distinctNodes
  size_eq_encard : ((Interner.empty.intern hash x n).1.2.size : ℕ∞) = x.contents.encard
  distinct : x.distinctNodes = (Interner.empty.intern hash x n).1.1.reused +
    (Interner.empty.intern hash x n).1.1.trie.distinctNodes

namespace Holds

/-- What came back has one node for each content of the set that was given. -/
theorem distinctNodes_result (h : Holds hash l P) (hc : c ∈ l.calls) :
    (c.result.trie.distinctNodes : ℕ∞) = c.set.contents.encard := by
  obtain ⟨kept, hkept, hshape⟩ := h.exists_entry_of_isNode hc .root
  obtain rfl := Option.some.inj (hkept.symm.trans (h.kept.entry c hc))
  have hinj : Set.InjOn Trie.members {u | IsNode u c.result.trie} := fun u hu v hv hm =>
    (h.entry_inj (h.entry_of_isNode_result hc hu) (h.entry_of_isNode_result hc hv) hm).2
  rw [distinctNodes_eq_encard (h.sets _ (h.kept.trie_mem c hc)), ← contents_eq_of_shape_eq hshape,
    Trie.contents, hinj.encard_image]

theorem settled_result (h : Holds hash l P) (hc : c ∈ l.calls) :
    Settled hash l.interner c.result.trie ∧ Settled hash Interner.empty c.result.trie := by
  have ht := h.sets _ (h.kept.trie_mem c hc)
  have entry : ∀ {u}, IsNode u c.result.trie → l.interner.table[u.digest hash]? = some u :=
    fun hu => h.entry_of_isNode_result hc hu
  have hone : IsConsed hash c.result.trie := fun u v hu hv hd =>
    Option.some.inj ((entry hu).symm.trans (hd ▸ entry hv))
  refine ⟨settled ht hone fun u hu kept hkept => ?_, settled ht hone fun u hu kept hkept => ?_⟩
  · exact Option.some.inj (hkept.symm.trans (entry hu))
  · simp [Interner.empty] at hkept

end Holds

theorem Kept.counts (hl : l.Kept hash) (hc : CollisionFree hash l.session.interned) {x : Trie}
    (hx : x ∈ l.session.sets) : Counts hash l.interner x l.session.next := by
  obtain ⟨P, hP⟩ := hl.reachable.exists_pool hc
  refine Interner.counts l.interner (hP.sets x hx) (fun d u hu => ⟨?_, hl.consed.digest_eq d u hu⟩)
    (Nat.le_of_eq hP.next_eq.symm)
  obtain ⟨v, -, -, hrep⟩ := hP.interners _ hl.interner_mem d u hu
  exact hrep.mem

/-- What any interner of a session counts when it is given one of the sets. -/
theorem counts_of_mem (hσ : σ.Reachable hash) (hc : CollisionFree hash σ.interned) {m : Interner}
    (hm : m ∈ σ.interners) {x : Trie} (hx : x ∈ σ.sets) : Counts hash m x σ.next := by
  obtain ⟨l, rfl, rfl, hl⟩ := exists_kept hσ hc hm
  exact hl.counts hc hx

theorem countsAnew (hσ : σ.Reachable hash) {x : Trie} (hx : x ∈ σ.sets)
    (hc : CollisionFree hash (x :: σ.interned)) : CountsAnew hash x σ.next := by
  have hfree : CollisionFree hash σ.interned := hc.mono fun t ht => List.mem_cons_of_mem x ht
  obtain ⟨hkept, -⟩ := (kept_start hσ).intern hx hfree
  obtain ⟨P, hP⟩ := hkept.exists_holds hc
  have hcontents : ((start σ).intern hash x).contents = x.contents := by
    ext A
    simp [Log.contents, Trie.contents, Log.intern, start]
  have hsize := hP.size_eq
  have hresult := hP.distinctNodes_result List.mem_cons_self
  have hcounts : Counts hash Interner.empty x σ.next := (kept_start hσ).counts hfree hx
  rw [hcontents] at hsize
  have heq : (Interner.empty.intern hash x σ.next).1.2.size =
      (Interner.empty.intern hash x σ.next).1.1.trie.distinctNodes := by
    exact_mod_cast hsize.trans hresult.symm
  refine ⟨heq, hsize, ?_⟩
  rw [← heq]
  exact hcounts.distinct_of_empty

/-- An interner in a session is given the set `x`: it counts the nodes of `x`, as a new interner
would, and what came back from this call and from those before is settled. -/
theorem intern_counts (hσ : σ.Reachable hash)
    (h : Relation.ReflTransGen (Step hash) (start σ) l) {x : Trie} (hx : x ∈ l.session.sets)
    (hc : CollisionFree hash (x :: l.session.interned)) :
    Counts hash l.interner x l.session.next ∧ CountsAnew hash x l.session.next ∧
      ∀ c ∈ (l.intern hash x).calls, Settled hash (l.intern hash x).interner c.result.trie ∧
        Settled hash Interner.empty c.result.trie := by
  have hfree : CollisionFree hash l.session.interned :=
    hc.mono fun t ht => List.mem_cons_of_mem x ht
  obtain ⟨hkept, -⟩ := kept_of_steps h hfree (kept_start hσ)
  obtain ⟨hkept', -⟩ := hkept.intern hx hfree
  obtain ⟨P, hP⟩ := hkept'.exists_holds hc
  exact ⟨counts_of_mem hkept.reachable hfree hkept.interner_mem hx,
    countsAnew hkept.reachable hx hc, fun c hc => hP.settled_result hc⟩

/-- A new interner in the session of two equal sets, after it was given the first of them. -/
def afterDoubled : Log := (start Session.doubled).intern Blake3.hash Session.doubledSet

/-- It is given the other one, in which every node but that of the empty path is a node of its own. -/
theorem intern_counts_twin : Session.doubledTwin ∈ afterDoubled.session.sets ∧
    Counts Blake3.hash afterDoubled.interner Session.doubledTwin afterDoubled.session.next ∧
      CountsAnew Blake3.hash Session.doubledTwin afterDoubled.session.next ∧
      ∀ c ∈ (afterDoubled.intern Blake3.hash Session.doubledTwin).calls,
        Settled Blake3.hash (afterDoubled.intern Blake3.hash Session.doubledTwin).interner
            c.result.trie ∧
          Settled Blake3.hash Interner.empty c.result.trie := by
  have step : Step Blake3.hash (start Session.doubled) afterDoubled :=
    .intern Session.doubledSet_mem
  have hmem : Session.doubledTwin ∈ afterDoubled.session.sets :=
    List.mem_cons_of_mem _ Session.doubledTwin_mem
  have hinterned : afterDoubled.session.interned = [Session.doubledSet] :=
    congrArg (Session.doubledSet :: ·) Session.doubled_interned
  exact ⟨hmem, intern_counts (Session.doubled_reachable _) (.single step) hmem
    (hinterned ▸ Session.doubled_collisionFree)⟩

end Log

end ByteTrie
