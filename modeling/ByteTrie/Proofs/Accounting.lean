import ByteTrie.Proofs.Consing
import Mathlib

/-!
# What interning counts

Interning finishes every node of a trie once, whatever the hash function is.  Where the table keeps
another node for the digest, one more is counted as reused; where it keeps nothing, it gets one more
entry; else it keeps the node itself, and did so before the call.

    m.internLogged hash t              interning, with the nodes that are finished
    Finished P hash start N s log s'   the nodes of N that were not visited in s are finished, in the
                                       order of log, on the way from s to s'
-/

namespace ByteTrie

open Trie

namespace Interner

variable {hash : HashFunction} {P : Pool}

/-! ## The nodes that are finished -/

mutual

/-- `internNode`, with the nodes that it finishes. -/
def internNodeLogged (hash : HashFunction) : Trie → Interning ((Digest × Trie) × List Trie)
  | .node i t n m es => do
    match (← get).visited[i]? with
    | some found => return (found, [])
    | none =>
      let ((interned, isChanged), log) ← internEdgesLogged hash es
      let found ← finish hash (.node i t n m es) interned isChanged
      return (found, log ++ [.node i t n m es])

def internEdgesLogged (hash : HashFunction) :
    List (Edge Trie) → Interning ((List DigestedEdge × Bool) × List Trie)
  | [] => return (([], false), [])
  | ⟨b, k, t⟩ :: es => do
    let ((digest, kept), first) ← internNodeLogged hash t
    let ((interned, isChanged), rest) ← internEdgesLogged hash es
    return (((⟨b, k, kept⟩, digest) :: interned, isChanged || !kept.sameNode t), first ++ rest)

end

/-- `intern`, with the nodes that it finishes. -/
def internLogged (m : Interner) (hash : HashFunction) (t : Trie) :
    Fresh ((Interned × Interner) × List Trie) := do
  let (((digest, kept), log), s) ← (internNodeLogged hash t).run ⟨m.table, {}, 0⟩
  return ((⟨kept, digest, s.reused⟩, ⟨s.table⟩), log)

theorem fst_internEdgesLogged (es : List (Edge Trie))
    (ih : ∀ e ∈ es, Prod.fst <$> internNodeLogged hash e.child = internNode hash e.child) :
    Prod.fst <$> internEdgesLogged hash es = internEdges hash es := by
  induction es with
  | nil => rw [internEdgesLogged, internEdges, map_pure]
  | cons e es ihes =>
    have hes := ihes fun e he => ih e (List.mem_cons_of_mem _ he)
    have he := ih e List.mem_cons_self
    obtain ⟨b, k, t⟩ := e
    simp only [internEdgesLogged, internEdges, ← hes, ← he, map_bind, map_pure, bind_map_left]

theorem fst_internNodeLogged (t : Trie) :
    Prod.fst <$> internNodeLogged hash t = internNode hash t := by
  induction t using nodeInduction with
  | node t ih =>
    have hes := fst_internEdgesLogged t.edges ih
    match t, hes with
    | .node i b n m es, hes =>
      rw [edges] at hes
      rw [internNodeLogged, internNode, map_bind]
      refine bind_congr fun s => ?_
      cases s.visited[i]? with
      | some found => exact map_pure _ _
      | none => simp only [← hes, map_bind, map_pure, bind_map_left, bind_pure]

/-- The log takes no part in interning. -/
theorem fst_internLogged (m : Interner) (t : Trie) :
    Prod.fst <$> m.internLogged hash t = m.intern hash t := by
  rw [intern, internLogged, ← fst_internNodeLogged]
  simp only [StateT.run_map, map_bind, map_pure, bind_map_left]

/-! ## Runs with unused ids -/

section GivesFrom

variable {α β : Type}

/-- `Gives`, for runs in which `b` and all greater ids are unused. -/
def GivesFrom (b : Nat) (x : Interning α) (s : State) (post : α → State → Prop) : Prop :=
  ∀ n, b ≤ n → b ≤ (x.run s n).2 ∧ post (x.run s n).1.1 (x.run s n).1.2

variable {b : Nat} {s : State} {post : α → State → Prop}

theorem givesFrom_pure {a : α} (h : post a s) : GivesFrom b (pure a) s post := fun _ hn => ⟨hn, h⟩

theorem GivesFrom.bind {x : Interning α} {f : α → Interning β} {goal : β → State → Prop}
    (hx : GivesFrom b x s post) (hf : ∀ a u, post a u → GivesFrom b (f a) u goal) :
    GivesFrom b (x >>= f) s goal := fun n hn => hf _ _ (hx n hn).2 _ (hx n hn).1

theorem givesFrom_get_bind {f : State → Interning β} {goal : β → State → Prop}
    (h : GivesFrom b (f s) s goal) : GivesFrom b (get >>= f) s goal :=
  fun n hn => h n hn

theorem givesFrom_modify_bind {g : State → State} {f : PUnit → Interning β}
    {goal : β → State → Prop} (h : GivesFrom b (f ⟨⟩) (g s) goal) :
    GivesFrom b (modify g >>= f) s goal :=
  fun n hn => h n hn

theorem GivesFrom.imp {x : Interning α} {also : α → State → Prop} (h : GivesFrom b x s post)
    (hpost : ∀ a u, post a u → also a u) : GivesFrom b x s also :=
  fun n hn => ⟨(h n hn).1, hpost _ _ (h n hn).2⟩

theorem GivesFrom.and {x : Interning α} {also : α → State → Prop} (h : GivesFrom b x s post)
    (h' : Gives x s also) : GivesFrom b x s fun a u => post a u ∧ also a u :=
  fun n hn => ⟨(h n hn).1, (h n hn).2, h' n⟩

/-- A node that is made has an unused id. -/
theorem givesFrom_make_bind {ter : Bool} {es : List (Edge Trie)} (hes : es ≠ [])
    {f : Trie → Interning β} {goal : β → State → Prop}
    (hf : ∀ u : Trie, b ≤ u.id → GivesFrom b (f u) s goal) :
    GivesFrom b ((Trie.make ter es : Fresh Trie) >>= f) s goal := by
  cases es with
  | nil => exact absurd rfl hes
  | cons e es =>
    intro n hn
    exact hf (label n ter (e :: es)) hn (n + 1) (Nat.le_succ_of_le hn)

/-- What a run gives, it gives beside its log. -/
theorem Gives.of_fst {γ : Type} {x : Interning (α × γ)} (h : Gives (Prod.fst <$> x) s post) :
    Gives x s fun a u => post a.1 u :=
  fun n => h n

end GivesFrom

/-! ## The table -/

/-- Whether the table keeps `t` itself for its digest. -/
def keeps (hash : HashFunction) (table : Std.HashMap Digest Trie) (t : Trie) : Bool :=
  table[t.digest hash]?.any fun u => u.sameNode t

/-- The entries of `start` are entries of `table`, and the others are nodes that were met, or have
ids that were unused. -/
structure Sourced (b : Nat) (start table : Std.HashMap Digest Trie) (met : Nat → Prop) : Prop where
  old : ∀ (d : Digest) (u : Trie), start[d]? = some u → table[d]? = some u
  entry : ∀ (d : Digest) (u : Trie), table[d]? = some u → start[d]? = some u ∨ met u.id ∨ b ≤ u.id

variable {b : Nat} {start table : Std.HashMap Digest Trie} {met : Nat → Prop} {t : Trie}

theorem sourced_self (b : Nat) (start : Std.HashMap Digest Trie) (met : Nat → Prop) :
    Sourced b start start met :=
  ⟨fun _ _ h => h, fun _ _ h => Or.inl h⟩

theorem Sourced.mono (h : Sourced b start table met) {also : Nat → Prop}
    (hmet : ∀ i, met i → also i) : Sourced b start table also :=
  ⟨h.old, fun d u hu => (h.entry d u hu).imp_right fun hu => hu.imp_left (hmet u.id)⟩

theorem Sourced.insert (h : Sourced b start table met) {d : Digest} (hd : table[d]? = none)
    {kept : Trie} (hkept : met kept.id ∨ b ≤ kept.id) :
    Sourced b start (table.insert d kept) met where
  old := fun c u hu => (extends_insert hd kept).kept c u (h.old c u hu)
  entry := by
    intro c u hu
    rw [Std.HashMap.getElem?_insert] at hu
    split at hu
    · obtain rfl := Option.some.inj hu
      exact Or.inr hkept
    · exact h.entry c u hu

/-- Where a node that was not met finds itself in the table, it was there at the start. -/
theorem Sourced.keeps_eq (h : Sourced b start table met) (hmet : ¬ met t.id) (hlt : t.id < b)
    {kept : Trie} (hkept : table[t.digest hash]? = some kept) :
    keeps hash start t = kept.sameNode t := by
  unfold keeps
  cases hstart : start[t.digest hash]? with
  | some u =>
    obtain rfl := Option.some.inj (hkept.symm.trans (h.old _ u hstart))
    rfl
  | none =>
    refine (beq_eq_false_iff_ne.mpr fun hid => ?_).symm
    rcases h.entry _ kept hkept with hu | hu | hu
    · rw [hstart] at hu
      cases hu
    · exact hmet (hid ▸ hu)
    · omega

theorem Sourced.keeps_eq_false (h : Sourced b start table met)
    (hnone : table[t.digest hash]? = none) : keeps hash start t = false := by
  unfold keeps
  cases hstart : start[t.digest hash]? with
  | none => rfl
  | some u =>
    rw [h.old _ u hstart] at hnone
    cases hnone

/-! ## The walk -/

/-- Where a walk stands that started with the table `start`: below a node that was visited, all
nodes were visited. -/
structure Tracked (P : Pool) (hash : HashFunction) (start : Std.HashMap Digest Trie)
    (s : State) : Prop where
  memo : Memo P.nodes hash s
  sourced : Sourced P.next start s.table fun i => i ∈ s.visited
  below : ∀ v ∈ P, v.id ∈ s.visited → ∀ u, IsNode u v → u.id ∈ s.visited

theorem tracked_start (hash : HashFunction) (start : Std.HashMap Digest Trie) :
    Tracked P hash start ⟨start, {}, 0⟩ where
  memo := memo_start hash start
  sourced := sourced_self P.next start _
  below := fun _ _ hid => absurd hid Std.HashMap.not_mem_empty

/-- The nodes of `N` that were not visited are finished, in the order of `log`, and every one of them
is counted: as reused, as an entry of its own, or as kept before. -/
structure Finished (P : Pool) (hash : HashFunction) (start : Std.HashMap Digest Trie)
    (N : Set Trie) (s : State) (log : List Trie) (s' : State) : Prop where
  tracked : Tracked P hash start s'
  nodup : log.Nodup
  mem_log : ∀ u, u ∈ log ↔ u ∈ N ∧ u.id ∉ s.visited
  mem_visited : ∀ i, i ∈ s'.visited ↔ i ∈ s.visited ∨ ∃ u ∈ N, u.id = i
  sum : s'.table.size + s'.reused + log.countP (keeps hash start) =
    s.table.size + s.reused + log.length

variable {s s' s'' : State} {N M : Set Trie} {log log' : List Trie}

/-- Nothing is left to do for nodes that were visited. -/
theorem finished_of_visited (hs : Tracked P hash start s) (hN : ∀ u ∈ N, u.id ∈ s.visited) :
    Finished P hash start N s [] s where
  tracked := hs
  nodup := List.nodup_nil
  mem_log := fun u => iff_of_false List.not_mem_nil fun h => h.2 (hN u h.1)
  mem_visited := by
    refine fun i => ⟨Or.inl, ?_⟩
    rintro (hi | ⟨u, hu, rfl⟩)
    · exact hi
    · exact hN u hu
  sum := rfl

theorem Finished.trans (h : Finished P hash start N s log s')
    (h' : Finished P hash start M s' log' s'') (hN : ∀ u ∈ N, u ∈ P) (hM : ∀ u ∈ M, u ∈ P) :
    Finished P hash start (N ∪ M) s (log ++ log') s'' where
  tracked := h'.tracked
  nodup := by
    refine h.nodup.append h'.nodup fun u hu hu' => ?_
    have hid := (h.mem_visited u.id).mpr (Or.inr ⟨u, ((h.mem_log u).mp hu).1, rfl⟩)
    exact ((h'.mem_log u).mp hu').2 hid
  mem_log := by
    intro u
    rw [List.mem_append, h.mem_log, h'.mem_log, h.mem_visited, Set.mem_union]
    constructor
    · rintro (⟨hu, hid⟩ | ⟨hu, hid⟩)
      · exact ⟨Or.inl hu, hid⟩
      · exact ⟨Or.inr hu, fun hs => hid (Or.inl hs)⟩
    · rintro ⟨hu | hu, hid⟩
      · exact Or.inl ⟨hu, hid⟩
      · -- a node of both sets is finished with the first of them
        by_cases hv : ∃ v ∈ N, v.id = u.id
        · obtain ⟨v, hv, heq⟩ := hv
          obtain rfl := P.eq_of_id_eq v (hN v hv) u (hM u hu) heq
          exact Or.inl ⟨hv, hid⟩
        · exact Or.inr ⟨hu, not_or.mpr ⟨hid, hv⟩⟩
  mem_visited := by
    intro i
    rw [h'.mem_visited, h.mem_visited, or_assoc]
    refine or_congr_right ⟨?_, ?_⟩
    · rintro (⟨u, hu, hid⟩ | ⟨u, hu, hid⟩)
      · exact ⟨u, Or.inl hu, hid⟩
      · exact ⟨u, Or.inr hu, hid⟩
    · rintro ⟨u, hu | hu, hid⟩
      · exact Or.inl ⟨u, hu, hid⟩
      · exact Or.inr ⟨u, hu, hid⟩
  sum := by
    have hsum := h.sum
    have hsum' := h'.sum
    rw [List.countP_append, List.length_append]
    omega

/-- What a step from `s` to `s'` does to the counts, if it counts `t` once. -/
structure Counted (b : Nat) (hash : HashFunction) (start : Std.HashMap Digest Trie) (t : Trie)
    (s s' : State) : Prop where
  sourced : Sourced b start s'.table fun i => t.id = i ∨ i ∈ s.visited
  sum : s'.table.size + s'.reused + (keeps hash start t).toNat = s.table.size + s.reused + 1

/-- What is entered for a new digest is one more entry. -/
theorem counted_insert (hs : Sourced b start s.table fun i => t.id = i ∨ i ∈ s.visited)
    (hnone : s.table[t.digest hash]? = none) {kept : Trie} (hkept : t.id = kept.id ∨ b ≤ kept.id) :
    Counted b hash start t s { s with table := s.table.insert (t.digest hash) kept } where
  sourced := hs.insert hnone (hkept.imp_left Or.inl)
  sum := by
    have hnew : t.digest hash ∉ s.table := by
      rw [Std.HashMap.mem_iff_isSome_getElem?, hnone]
      exact Bool.false_ne_true
    show (s.table.insert (t.digest hash) kept).size + s.reused + _ = _
    rw [hs.keeps_eq_false hnone, Std.HashMap.size_insert, if_neg hnew, Bool.toNat_false]
    omega

/-- A node that was not met is counted in one of the three ways. -/
theorem givesFrom_keep {gs : List (Edge Trie)} {isChanged : Bool}
    (hs : Sourced b start s.table fun i => i ∈ s.visited) (hmet : t.id ∉ s.visited)
    (hlt : t.id < b) (hgs : isChanged = true → gs ≠ []) :
    GivesFrom b (keep (t.digest hash) t gs isChanged) s fun _ s' =>
      s'.visited = s.visited ∧ Counted b hash start t s s' := by
  have hsourced : Sourced b start s.table fun i => t.id = i ∨ i ∈ s.visited :=
    hs.mono fun _ hi => Or.inr hi
  unfold keep
  refine givesFrom_get_bind ?_
  split
  · next kept hkept =>
    have hkeeps := hs.keeps_eq hmet hlt hkept
    cases hsame : kept.sameNode t with
    | true =>
      refine givesFrom_pure ⟨rfl, hsourced, ?_⟩
      rw [hkeeps, hsame, Bool.toNat_true]
    | false =>
      refine givesFrom_modify_bind (givesFrom_pure ⟨rfl, hsourced, ?_⟩)
      rw [hkeeps, hsame, Bool.toNat_false]
      rfl
  · next hnone =>
    cases isChanged with
    | true =>
      refine givesFrom_make_bind (hgs rfl) fun u hu => ?_
      exact givesFrom_modify_bind (givesFrom_pure ⟨rfl, counted_insert hsourced hnone (Or.inr hu)⟩)
    | false =>
      have hcounted := counted_insert hsourced hnone (Or.inl (Eq.refl t.id))
      exact fun n hn => ⟨hn, rfl, hcounted⟩

/-- A node is finished after the nodes behind its edges. -/
theorem finished_singleton (hs : Tracked P hash start s) (ht : t ∈ P) (hmet : t.id ∉ s.visited)
    (hbelow : ∀ e ∈ t.edges, e.child.id ∈ s.visited) (hmemo : Memo P.nodes hash s')
    (hvisited : ∀ i, i ∈ s'.visited ↔ t.id = i ∨ i ∈ s.visited)
    (hcounted : Counted P.next hash start t s s') : Finished P hash start {t} s [t] s' where
  tracked := by
    refine ⟨hmemo, hcounted.sourced.mono fun i hi => (hvisited i).mpr hi, fun v hv hid u hu => ?_⟩
    rw [hvisited] at hid ⊢
    rcases hid with hid | hid
    · obtain rfl := P.eq_of_id_eq t ht v hv hid
      cases hu with
      | root => exact Or.inl rfl
      | inside he hu => exact Or.inr (hs.below _ (P.child_mem t ht _ he) (hbelow _ he) u hu)
    · exact Or.inr (hs.below v hv hid u hu)
  nodup := List.nodup_singleton t
  mem_log := by
    intro u
    rw [List.mem_singleton, Set.mem_singleton_iff]
    refine ⟨?_, fun h => h.1⟩
    rintro rfl
    exact ⟨rfl, hmet⟩
  mem_visited := by
    intro i
    rw [hvisited, or_comm]
    simp
  sum := by
    have hcount : [t].countP (keeps hash start) = (keeps hash start t).toNat := by
      rw [List.countP_singleton]
      cases keeps hash start t <;> rfl
    rw [hcount]
    exact hcounted.sum

theorem givesFrom_finish {gs : List DigestedEdge} {isChanged : Bool} (ht : t ∈ P)
    (h : EnteredEdges P.nodes hash t.edges s (gs, isChanged) s') (hs : Tracked P hash start s')
    (hgs : isChanged = true → gs ≠ []) (hmet : t.id ∉ s'.visited)
    (hbelow : ∀ e ∈ t.edges, e.child.id ∈ s'.visited) :
    GivesFrom P.next (finish hash t gs isChanged) s' fun _ u =>
      Finished P hash start {t} s' [t] u := by
  have hdigest : hash (message t.terminal gs) = t.digest hash :=
    hash_message_of_partners h.partners
  have hkeep : GivesFrom P.next (finish hash t gs isChanged) s' fun _ u =>
      (∀ i, i ∈ u.visited ↔ t.id = i ∨ i ∈ s'.visited) ∧ Counted P.next hash start t s' u := by
    have hmap : isChanged = true → (gs.map fun g => g.1) ≠ [] := fun hc hnil =>
      hgs hc (List.map_eq_nil_iff.mp hnil)
    unfold finish
    simp only [hdigest]
    refine (givesFrom_keep hs.sourced hmet (P.id_lt t ht) hmap).bind fun kept u hu => ?_
    refine givesFrom_modify_bind (givesFrom_pure ⟨fun i => ?_, hu.2.sourced, hu.2.sum⟩)
    rw [Std.HashMap.mem_insert, beq_iff_eq, hu.1]
  refine (hkeep.and (gives_finish ht h)).imp fun r u hu => ?_
  exact finished_singleton hs ht hmet hbelow hu.2.memo hu.1.1 hu.1.2

/-- The nodes behind edges. -/
def edgeNodes (es : List (Edge Trie)) : Set Trie := {u | ∃ e ∈ es, IsNode u e.child}

theorem edgeNodes_cons (e : Edge Trie) (es : List (Edge Trie)) :
    edgeNodes (e :: es) = {u | IsNode u e.child} ∪ edgeNodes es := by
  ext u
  simp [edgeNodes]

theorem nodes_eq (t : Trie) : {u | IsNode u t} = edgeNodes t.edges ∪ {t} := by
  ext u
  constructor
  · intro hu
    cases hu with
    | root => exact Or.inr rfl
    | inside he hu => exact Or.inl ⟨_, he, hu⟩
  · rintro (⟨e, he, hu⟩ | rfl)
    · exact .inside he hu
    · exact .root

/-- After what is behind its edges a node is still to be finished, as it is not below itself. -/
theorem Finished.visited_edges (h : Finished P hash start (edgeNodes t.edges) s log s')
    (ht : t ∈ P) (hnew : t.id ∉ s.visited) :
    t.id ∉ s'.visited ∧ ∀ e ∈ t.edges, e.child.id ∈ s'.visited := by
  constructor
  · rw [h.mem_visited]
    rintro (hid | ⟨u, ⟨e, he, hu⟩, hid⟩)
    · exact hnew hid
    · obtain rfl := P.eq_of_id_eq u (Pool.mem_of_isNode (.inside he hu) ht) t ht hid
      exact not_isNode_child he hu
  · intro e he
    exact (h.mem_visited _).mpr (Or.inr ⟨e.child, ⟨e, he, .root⟩, rfl⟩)

theorem gives_internEdges_ne_nil (es : List (Edge Trie)) (s : State) :
    Gives (internEdges hash es) s fun r _ => r.2 = true → r.1 ≠ [] := by
  cases es with
  | nil =>
    rw [internEdges]
    exact gives_pure fun h => absurd h Bool.false_ne_true
  | cons e es =>
    obtain ⟨b, k, t⟩ := e
    rw [internEdges]
    exact fun n _ => List.cons_ne_nil _ _

theorem givesFrom_internEdges (es : List (Edge Trie)) (s : State) (hs : Tracked P hash start s)
    (hes : ∀ e ∈ es, e.child ∈ P)
    (ih : ∀ e ∈ es, ∀ s, Tracked P hash start s →
      GivesFrom P.next (internNodeLogged hash e.child) s fun r s' =>
        Finished P hash start {u | IsNode u e.child} s r.2 s') :
    GivesFrom P.next (internEdgesLogged hash es) s fun r s' =>
      Finished P hash start (edgeNodes es) s r.2 s' := by
  induction es generalizing s with
  | nil =>
    rw [internEdgesLogged]
    exact givesFrom_pure (finished_of_visited hs fun u ⟨e, he, _⟩ => absurd he List.not_mem_nil)
  | cons e es ihes =>
    have hhead : ∀ u ∈ {u | IsNode u e.child}, u ∈ P := fun u hu =>
      Pool.mem_of_isNode hu (hes e List.mem_cons_self)
    have htail : ∀ u ∈ edgeNodes es, u ∈ P := fun u ⟨f, hf, hu⟩ =>
      Pool.mem_of_isNode hu (hes f (List.mem_cons_of_mem e hf))
    rw [edgeNodes_cons]
    obtain ⟨b, k, t⟩ := e
    rw [internEdgesLogged]
    refine (ih _ List.mem_cons_self s hs).bind fun r u hr => ?_
    refine (ihes u hr.tracked (fun e he => hes e (List.mem_cons_of_mem _ he))
      fun e he => ih e (List.mem_cons_of_mem _ he)).bind fun q v hq => ?_
    exact givesFrom_pure (hr.trans hq hhead htail)

/-- The nodes of a trie that were not visited are finished, each of them once.  The induction is over
the nodes of the trie; it is for any table, and for a hash function that may collide. -/
theorem givesFrom_internNode (t : Trie) (s : State) (ht : t ∈ P) (hs : Tracked P hash start s) :
    GivesFrom P.next (internNodeLogged hash t) s fun r s' =>
      Finished P hash start {u | IsNode u t} s r.2 s' := by
  induction t using nodeInduction generalizing s with
  | node t ih =>
    have hedges : GivesFrom P.next (internEdgesLogged hash t.edges) s fun r s' =>
        Finished P hash start (edgeNodes t.edges) s r.2 s' :=
      givesFrom_internEdges t.edges s hs (P.child_mem t ht) fun e he u hu =>
        ih e he u (P.child_mem t ht e he) hu
    have hfst : Prod.fst <$> internEdgesLogged hash t.edges = internEdges hash t.edges :=
      fst_internEdgesLogged t.edges fun e _ => fst_internNodeLogged e.child
    have hentered : Gives (internEdges hash t.edges) s (EnteredEdges P.nodes hash t.edges s) :=
      gives_internEdges t.edges s hs.memo fun e he u hu =>
        gives_internNode P.isHeap e.child u (P.child_mem t ht e he) hu
    have hne : Gives (internEdges hash t.edges) s fun r _ => r.2 = true → r.1 ≠ [] :=
      gives_internEdges_ne_nil t.edges s
    rw [← hfst] at hentered hne
    have hall := (hedges.and hentered.of_fst).and hne.of_fst
    match t, ht, hall with
    | .node i b c m es, ht, hall =>
      rw [internNodeLogged]
      refine givesFrom_get_bind ?_
      split
      · next r hr =>
        have hid : i ∈ s.visited := by
          rw [Std.HashMap.mem_iff_isSome_getElem?, hr]
          rfl
        exact givesFrom_pure (finished_of_visited hs (hs.below _ ht hid))
      · next hnone =>
        refine hall.bind fun r u ⟨⟨hr, hentered⟩, hne⟩ => ?_
        have hnew : i ∉ s.visited := by
          rw [Std.HashMap.mem_iff_isSome_getElem?, hnone]
          exact Bool.false_ne_true
        obtain ⟨hmet, hbelow⟩ := hr.visited_edges ht hnew
        refine (givesFrom_finish ht hentered hr.tracked hne hmet hbelow).bind fun found v hv => ?_
        refine givesFrom_pure ?_
        rw [nodes_eq]
        refine hr.trans hv (fun w ⟨e, he, hw⟩ => Pool.mem_of_isNode (.inside he hw) ht) ?_
        rintro w rfl
        exact ht

/-! ## One call -/

theorem Extends.size_le {D : Set Digest} {old new : Std.HashMap Digest Trie}
    (h : Extends D old new) : old.size ≤ new.size := by
  have hle : {d | d ∈ old}.encard ≤ {d | d ∈ new}.encard :=
    Set.encard_le_encard fun d hd => h.mem hd
  rw [← size_eq_encard_keys, ← size_eq_encard_keys] at hle
  exact_mod_cast hle

/-- The nodes that a table keeps. -/
def entries (table : Std.HashMap Digest Trie) : Set Trie := {u | ∃ d : Digest, table[d]? = some u}

theorem entries_empty : entries {} = ∅ := by
  ext u
  simp [entries]

/-- What a call counts: every node of `t` is finished once, and the nodes of `t` are those that are
counted as reused, those for which the table got an entry, and those that it kept before. -/
structure Counts (hash : HashFunction) (m : Interner) (t : Trie) (n : Nat) : Prop where
  erase : Prod.fst <$> m.internLogged hash t = m.intern hash t
  nodup : (m.internLogged hash t n).1.2.Nodup
  mem_log : ∀ u, u ∈ (m.internLogged hash t n).1.2 ↔ IsNode u t
  size_le : m.size ≤ (m.intern hash t n).1.2.size
  distinct : (t.distinctNodes : ℕ∞) =
    (m.intern hash t n).1.1.reused + ((m.intern hash t n).1.2.size - m.size : Nat) +
      ({u | IsNode u t} ∩ entries m.table).encard

theorem keeps_iff (htable : ∀ (d : Digest) (u : Trie), start[d]? = some u →
    u ∈ P ∧ u.digest hash = d) (ht : t ∈ P) : keeps hash start t = true ↔ t ∈ entries start := by
  unfold keeps
  constructor
  · intro h
    cases hkept : start[t.digest hash]? with
    | none =>
      rw [hkept] at h
      cases h
    | some kept =>
      rw [hkept] at h
      obtain rfl := Pool.eq_of_sameNode (htable _ kept hkept).1 ht h
      exact ⟨_, hkept⟩
  · rintro ⟨d, hd⟩
    rw [(htable d t hd).2, hd]
    exact beq_self_eq_true t.id

/-- A table that keeps nodes of the pool under their digests counts the nodes of a trie. -/
theorem counts (m : Interner) (ht : t ∈ P) (htable : ∀ (d : Digest) (u : Trie),
    m.table[d]? = some u → u ∈ P ∧ u.digest hash = d) {n : Nat} (hn : P.next ≤ n) :
    Counts hash m t n := by
  have h := (givesFrom_internNode t ⟨m.table, {}, 0⟩ ht (tracked_start hash m.table) n hn).2
  have hmem : ∀ u, u ∈ (m.internLogged hash t n).1.2 ↔ IsNode u t := fun u =>
    (h.mem_log u).trans (and_iff_left Std.HashMap.not_mem_empty)
  have hle : m.size ≤ (m.intern hash t n).1.2.size :=
    (entered_intern P.isHeap m hash ht n).2.2.1.size_le
  have hsum : (m.intern hash t n).1.2.size + (m.intern hash t n).1.1.reused +
      (m.internLogged hash t n).1.2.countP (keeps hash m.table) =
        m.size + (m.internLogged hash t n).1.2.length := by
    rw [← fst_internLogged m t]
    exact h.sum
  have hnodup : (m.internLogged hash t n).1.2.Nodup := h.nodup
  have hlog : (t.distinctNodes : ℕ∞) = (m.internLogged hash t n).1.2.length := by
    rw [distinctNodes_eq_encard ht, ← encard_of_nodup hnodup]
    exact congrArg Set.encard (Set.ext fun u => (hmem u).symm)
  have hkept : ({u | IsNode u t} ∩ entries m.table).encard =
      (m.internLogged hash t n).1.2.countP (keeps hash m.table) := by
    rw [List.countP_eq_length_filter, ← encard_of_nodup (hnodup.filter _)]
    refine congrArg Set.encard (Set.ext fun u => ?_)
    rw [Set.mem_ofPred_eq, List.mem_filter, hmem]
    exact and_congr_right fun hu => (keeps_iff htable (Pool.mem_of_isNode hu ht)).symm
  refine ⟨fst_internLogged m t, hnodup, hmem, hle, ?_⟩
  rw [hlog, hkept]
  norm_cast
  omega

/-- A new interner kept nothing before. -/
theorem Counts.distinct_of_empty {n : Nat} (h : Counts hash Interner.empty t n) :
    t.distinctNodes = (Interner.empty.intern hash t n).1.1.reused +
      (Interner.empty.intern hash t n).1.2.size := by
  have hdistinct := h.distinct
  have hentries : entries Interner.empty.table = ∅ := entries_empty
  have hsize : Interner.empty.size = 0 := rfl
  rw [hentries, hsize, Set.inter_empty, Set.encard_empty, add_zero, Nat.sub_zero] at hdistinct
  exact_mod_cast hdistinct

end Interner

end ByteTrie
