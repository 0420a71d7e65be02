import ByteTrie.Proofs.Moves
import Mathlib

/-!
# The next member

In lexicographic order the paths greater than `p` are those that go on from `p`, and after them
those that part from `p` by a greater byte.  A cursor finds the least member of the first kind down
the first edge ahead of it, and the least one of the second kind by the edges that come after those
taken from its ancestors.  So a move to the next member leads to the least member greater than the
path, and moves from the root lead to all members but the empty path, in ascending order.

    Path.Before p q      p and q part, and q goes on with the greater byte
    Finds A o            o is a cursor on the least path of A, or none where A is empty
    Visits c ps          moves to the next member lead from c to the paths ps, and then to the root
-/

namespace ByteTrie

open Trie

/-! ## Order of paths -/

namespace Path

/-- Where the two paths part, the second one goes on with the greater byte. -/
inductive Before : Path → Path → Prop
  | head {x y : UInt8} {p q : Path} (h : x < y) : Before (x :: p) (y :: q)
  | tail {x : UInt8} {p q : Path} (h : Before p q) : Before (x :: p) (x :: q)

variable {p q k l : Path} {x y : UInt8}

@[simp] theorem not_nil_before (q : Path) : ¬ Before [] q := nofun

@[simp] theorem not_before_nil (p : Path) : ¬ Before p [] := nofun

theorem cons_before_cons_iff : Before (x :: p) (y :: q) ↔ x < y ∨ x = y ∧ Before p q := by
  constructor
  · intro h
    cases h with
    | head h => exact Or.inl h
    | tail h => exact Or.inr ⟨rfl, h⟩
  · rintro (h | ⟨rfl, h⟩)
    · exact .head h
    · exact .tail h

theorem Before.append (h : Before p q) (k l : Path) : Before (p ++ k) (q ++ l) := by
  induction h with
  | head h => exact .head h
  | tail _ ih => exact .tail ih

/-- A path comes before what goes on from it in another way. -/
theorem append_before_iff (p k q : Path) :
    Before (p ++ k) q ↔ Before p q ∨ ∃ r, q = p ++ r ∧ Before k r := by
  induction p generalizing q with
  | nil => simp
  | cons x p ih =>
    cases q with
    | nil => simp
    | cons y q =>
      rw [List.cons_append, cons_before_cons_iff, cons_before_cons_iff, ih]
      constructor
      · rintro (h | ⟨rfl, h | ⟨r, rfl, h⟩⟩)
        · exact Or.inl (Or.inl h)
        · exact Or.inl (Or.inr ⟨rfl, h⟩)
        · exact Or.inr ⟨r, rfl, h⟩
      · rintro ((h | h) | ⟨r, hr, h⟩)
        · exact Or.inl h
        · exact Or.inr ⟨h.1, Or.inl h.2⟩
        · obtain ⟨rfl, rfl⟩ := List.cons.inj hr
          exact Or.inr ⟨rfl, Or.inr ⟨r, rfl, h⟩⟩

theorem not_before_append (p k : Path) : ¬ Before p (p ++ k) := by
  induction p with
  | nil => exact not_nil_before k
  | cons x p ih =>
    rw [List.cons_append, cons_before_cons_iff]
    rintro (h | ⟨-, h⟩)
    · exact UInt8.lt_irrefl x h
    · exact ih h

/-- A greater path goes on from the lesser one, or parts from it by a greater byte. -/
theorem lt_iff (p q : Path) : p < q ↔ (∃ k, k ≠ [] ∧ q = p ++ k) ∨ Before p q := by
  induction p generalizing q with
  | nil =>
    cases q with
    | nil => simp
    | cons y q => simp
  | cons x p ih =>
    cases q with
    | nil => simp
    | cons y q =>
      rw [List.cons_lt_cons_iff, cons_before_cons_iff, ih]
      constructor
      · rintro (h | ⟨rfl, ⟨k, hk, rfl⟩ | h⟩)
        · exact Or.inr (Or.inl h)
        · exact Or.inl ⟨k, hk, rfl⟩
        · exact Or.inr (Or.inr ⟨rfl, h⟩)
      · rintro (⟨k, hk, hq⟩ | h | ⟨rfl, h⟩)
        · obtain ⟨rfl, rfl⟩ := List.cons.inj hq
          exact Or.inr ⟨rfl, Or.inl ⟨k, hk, rfl⟩⟩
        · exact Or.inl h
        · exact Or.inr ⟨rfl, Or.inr h⟩

theorem Before.le (h : Before p q) : p ≤ q := List.le_of_lt ((lt_iff p q).mpr (Or.inr h))

theorem append_le_append (h : p ≤ q) (c : Path) : c ++ p ≤ c ++ q := by
  rcases List.le_iff_lt_or_eq.mp h with hlt | rfl
  · exact List.le_of_lt (List.append_left_lt hlt)
  · exact List.le_refl _

/-- In front of all paths of a set, a key keeps the least one the least. -/
theorem isLeast_image {A : Set Path} (h : IsLeast A p) (k : Path) :
    IsLeast ((k ++ ·) '' A) (k ++ p) := by
  refine ⟨⟨p, h.1, rfl⟩, ?_⟩
  rintro _ ⟨q, hq, rfl⟩
  exact append_le_append (h.2 hq) k

end Path

/-! ## Least members -/

namespace Trie

variable {t : Trie} {e : Edge Trie} {es : List (Edge Trie)} {p : Path} {i : Nat}

/-- The least path along edges is the least one along the first of them. -/
theorem isLeast_edgeMembers (hlt : ∀ f ∈ es, e.first < f.first) (h : IsLeast e.child.members p) :
    IsLeast (edgeMembers (e :: es)) (e.key ++ p) := by
  refine ⟨⟨e, List.mem_cons_self, p, h.1, rfl⟩, ?_⟩
  rintro _ ⟨f, hf, q, hq, rfl⟩
  rcases List.mem_cons.mp hf with rfl | hf
  · exact Path.append_le_append (h.2 hq) f.key
  · have hbefore : Path.Before e.key f.key := .head (hlt f hf)
    exact (hbefore.append p q).le

namespace Canonical

theorem isLeast_least? (h : t.Canonical) (hp : t.least? = some p) : IsLeast t.members p := by
  induction t using nodeInduction generalizing p with
  | node t ih =>
    match t, h, ih, hp with
    | .node _ true _ _ _, h, _, hp =>
      rw [least?] at hp
      cases hp
      exact ⟨(nil_mem_iff _).mpr rfl, fun q _ => List.nil_le q⟩
    | .node _ false _ _ [], _, _, hp =>
      rw [least?] at hp
      cases hp
    | .node i false n m (⟨b, k, u⟩ :: es), h, ih, hp =>
      rw [Trie.least?] at hp
      obtain ⟨q, hq, rfl⟩ := Option.map_eq_some_iff.mp hp
      have hmem : (⟨b, k, u⟩ : Edge Trie) ∈ (⟨b, k, u⟩ :: es) := List.mem_cons_self
      have hchild : IsLeast u.members q := ih _ hmem (h.child hmem) hq
      have hlt := (List.pairwise_cons.mp h.tidy.ascending).1
      have hmembers : (Trie.node i false n m (⟨b, k, u⟩ :: es)).members =
          edgeMembers (⟨b, k, u⟩ :: es) := by
        ext r
        rw [mem_members, mem_iff]
        constructor
        · rintro (⟨-, hter⟩ | hr)
          · cases hter
          · exact hr
        · exact Or.inr
      rw [hmembers]
      exact isLeast_edgeMembers hlt hchild

theorem exists_least? (h : t.Canonical) (ht : t.members.Nonempty) : ∃ p, t.least? = some p := by
  induction t using nodeInduction with
  | node t ih =>
    match t, h, ih, ht with
    | .node _ true _ _ _, _, _, _ =>
      rw [least?]
      exact ⟨[], rfl⟩
    | .node i false n m [], _, _, ht =>
      obtain ⟨q, hq⟩ := ht
      rw [mem_members, mem_iff] at hq
      have hes : (Trie.node i false n m []).edges = [] := rfl
      rw [hes, edgeMembers_nil] at hq
      rcases hq with ⟨-, hter⟩ | hq
      · cases hter
      · exact absurd hq (Set.notMem_empty q)
    | .node _ false _ _ (⟨b, k, u⟩ :: es), h, ih, _ =>
      have hu : (⟨b, k, u⟩ : Edge Trie) ∈ (⟨b, k, u⟩ :: es) := List.mem_cons_self
      obtain ⟨q, hq⟩ := ih _ hu (h.child hu) (h.inhabited _ .root _ hu)
      have hq' : u.least? = some q := hq
      rw [least?, hq']
      exact ⟨b :: k ++ q, rfl⟩

/-- The edges after one of the edges lead to the members that its key comes before. -/
theorem mem_edgeMembers_drop_iff (h : t.Canonical) (he : t.edges[i]? = some e) (q : Path) :
    q ∈ edgeMembers (t.edges.drop (i + 1)) ↔ q ∈ t ∧ Path.Before e.key q := by
  have hasc := List.pairwise_iff_getElem.mp h.tidy.ascending
  obtain ⟨hi, hei⟩ := List.getElem?_eq_some_iff.mp he
  constructor
  · rintro ⟨f, hf, r, hr, rfl⟩
    obtain ⟨j, hj, hfj⟩ := List.mem_drop_iff_getElem.mp hf
    have hlt : e.first < f.first := by
      have := hasc i (i + 1 + j) hi (by omega) (by omega)
      rwa [hei, hfj] at this
    have hkey : Path.Before e.key f.key := .head hlt
    have hkeyr := hkey.append [] r
    rw [List.append_nil] at hkeyr
    exact ⟨.along (List.mem_of_mem_drop hf) hr, hkeyr⟩
  · rintro ⟨hq, hbefore⟩
    cases hq with
    | here _ => exact absurd hbefore (Path.not_before_nil e.key)
    | @along _ f r hf hr =>
      refine ⟨f, ?_, r, hr, rfl⟩
      obtain ⟨j, hj, hfj⟩ := List.mem_iff_getElem.mp hf
      have hji : i < j := by
        by_contra hle
        rcases Path.cons_before_cons_iff.mp hbefore with hlt | ⟨heq, hrest⟩
        · -- an edge up to this one does not start with a greater byte
          rcases Nat.lt_or_eq_of_le (Nat.le_of_not_lt hle) with hji | rfl
          · have := hasc j i hj hi hji
            rw [hei, hfj] at this
            exact UInt8.lt_asymm hlt this
          · rw [← hei, ← hfj] at hlt
            exact UInt8.lt_irrefl _ hlt
        · obtain rfl := h.eq_of_first_eq (List.mem_of_getElem? he) hf heq
          exact Path.not_before_append e.rest r hrest
      rw [List.mem_drop_iff_getElem]
      have hsum : i + 1 + (j - (i + 1)) = j := by omega
      refine ⟨j - (i + 1), by omega, ?_⟩
      simp only [hsum]
      exact hfj

end Canonical

end Trie

/-! ## What a search finds -/

namespace Cursor

variable {root t : Trie} {c d : Cursor} {A B : Set Path} {o o' : Option Cursor} {p k q : Path}
  {e : Edge Trie} {above : List (Trie × Nat)} {starts : List Nat} {i : Nat}

/-- The outcome of a search for the least path of a set. -/
def Finds (A : Set Path) : Option Cursor → Prop
  | some c => IsLeast A c.path
  | none => A = ∅

/-- A search among lesser paths, and only if there are none among greater ones. -/
theorem Finds.or (h : Finds A o) (h' : A = ∅ → Finds B o') (hle : ∀ p ∈ A, ∀ q ∈ B, p ≤ q) :
    Finds (A ∪ B) (o.or o') := by
  cases o with
  | none =>
    obtain rfl : A = ∅ := h
    rw [Set.empty_union, Option.none_or]
    exact h' rfl
  | some c =>
    refine ⟨Or.inl h.1, ?_⟩
    rintro q (hq | hq)
    · exact h.2 hq
    · exact hle _ h.1 q hq

theorem keyLength_follow (c : Cursor) (i : Nat) (e : Edge Trie) : (c.follow i e).keyLength = 0 :=
  Nat.sub_self _

theorem path_follow (hc : c.keyLength = 0) (i : Nat) (e : Edge Trie) :
    (c.follow i e).path = c.path ++ e.key := by
  have h : (c.bytes ++ e.key.drop c.keyLength).toList = c.bytes.toList ++ e.key := by
    rw [hc, List.drop_zero]
    exact Array.toList_appendList
  exact h

/-- Down from the start of a node, a cursor comes to the least member. -/
theorem map_path_firstMember? (t : Trie) (hc : c.keyLength = 0) :
    (firstMember? t c).map path = t.least?.map (c.path ++ ·) := by
  induction t using nodeInduction generalizing c with
  | node t ih =>
    match t, ih with
    | .node _ true _ _ _, _ =>
      rw [firstMember?, Trie.least?]
      simp
    | .node _ false _ _ [], _ =>
      rw [firstMember?, Trie.least?]
      rfl
    | .node _ false _ _ (⟨b, k, u⟩ :: es), ih =>
      have hu := ih ⟨b, k, u⟩ List.mem_cons_self (keyLength_follow c 0 ⟨b, k, u⟩)
      rw [firstMember?, Trie.least?, hu, path_follow hc, Option.map_map]
      congr 1
      funext q
      exact List.append_assoc c.path (b :: k) q

/-- Behind an edge of its node, a cursor finds the least member there. -/
theorem Placed.exists_firstAlong? (h : c.Placed p k) (hc : c.root.Canonical)
    (he : c.node.edges[i]? = some e) (hk : k <+: e.key) :
    ∃ d q, c.firstAlong? (some (i, e)) = some d ∧ d.path = p ++ e.key ++ q ∧
      IsLeast e.child.members q := by
  have hnode := h.canonical_node hc
  have hmem := List.mem_of_getElem? he
  have hchild := hnode.child hmem
  obtain ⟨q, hq⟩ := hchild.exists_least? (hnode.inhabited c.node .root e hmem)
  have hpath := (h.follow he hk).path_eq
  rw [List.append_nil] at hpath
  have hfirst := map_path_firstMember? e.child (keyLength_follow c i e)
  rw [hpath, hq, Option.map_some] at hfirst
  obtain ⟨d, hd, hdpath⟩ := Option.map_eq_some_iff.mp hfirst
  exact ⟨d, q, hd, hdpath, hchild.isLeast_least? hq⟩

/-- Along the edges of the node from the `i`th one on. -/
theorem Placed.finds_firstAlong? (h : c.Placed p []) (hc : c.root.Canonical) (i : Nat) :
    Finds ((p ++ ·) '' edgeMembers (c.node.edges.drop i))
      (c.firstAlong? (c.node.edges[i]?.map fun e => (i, e))) := by
  cases he : c.node.edges[i]? with
  | none =>
    rw [List.drop_of_length_le (List.getElem?_eq_none_iff.mp he), edgeMembers_nil]
    exact Set.image_empty _
  | some e =>
    have hdrop : c.node.edges.drop i = e :: c.node.edges.drop (i + 1) := by
      obtain ⟨hi, rfl⟩ := List.getElem?_eq_some_iff.mp he
      exact List.drop_eq_getElem_cons hi
    have hasc : (e :: c.node.edges.drop (i + 1)).Pairwise fun e f => e.first < f.first := by
      rw [← hdrop]
      exact (h.canonical_node hc).tidy.ascending.drop
    obtain ⟨d, q, hd, hpath, hleast⟩ := h.exists_firstAlong? hc he List.nil_prefix
    have hedges := isLeast_edgeMembers (List.pairwise_cons.mp hasc).1 hleast
    rw [Option.map_some, hd, hdrop]
    show IsLeast _ d.path
    rw [hpath, List.append_assoc]
    exact Path.isLeast_image hedges p

/-- By the edges after those taken from its ancestors, a cursor finds the least member that the path
to its node comes before. -/
theorem finds_firstAfter? (h : Chain root above starts p t) (hc : root.Canonical)
    {bytes : Array UInt8} (hbytes : bytes.toList = p ++ k) :
    Finds {q | q ∈ root ∧ Path.Before p q}
      (firstAfter? above ⟨root, t, bytes, starts, above⟩) := by
  induction h generalizing bytes k with
  | root =>
    ext q
    simp
  | @child above starts p t i e h he ih =>
    have hcut : (bytes.take (starts.headD 0)).toList = p ++ [] := by
      rw [toList_take, hbytes, h.headD_starts, List.append_assoc, List.take_left,
        List.append_nil]
    have hpop : Placed ⟨root, t, bytes.take (starts.headD 0), starts, above⟩ p [] :=
      ⟨h, hcut, Or.inl rfl⟩
    have hnode : t.Canonical := hc.node h.isNode
    have hsplit : {q | q ∈ root ∧ Path.Before (p ++ e.key) q} =
        (p ++ ·) '' edgeMembers (t.edges.drop (i + 1)) ∪ {q | q ∈ root ∧ Path.Before p q} := by
      ext q
      rw [Set.mem_union, Set.mem_image, Set.mem_ofPred_eq, Set.mem_ofPred_eq,
        Path.append_before_iff]
      constructor
      · rintro ⟨hq, hbefore | ⟨r, rfl, hbefore⟩⟩
        · exact Or.inr ⟨hq, hbefore⟩
        · have hr : r ∈ t := (Set.ext_iff.mp (h.members_eq hc) r).mpr hq
          exact Or.inl ⟨r, (hnode.mem_edgeMembers_drop_iff he r).mpr ⟨hr, hbefore⟩, rfl⟩
      · rintro (⟨r, hr, rfl⟩ | ⟨hq, hbefore⟩)
        · obtain ⟨hrt, hbefore⟩ := (hnode.mem_edgeMembers_drop_iff he r).mp hr
          exact ⟨(Set.ext_iff.mp (h.members_eq hc) r).mp hrt, Or.inr ⟨r, rfl, hbefore⟩⟩
        · exact ⟨hq, Or.inl hbefore⟩
    rw [hsplit, firstAfter?, Option.orElse_eq_orElse, Option.orElse_eq_or]
    refine (hpop.finds_firstAlong? hc (i + 1)).or (fun _ => ih hcut) ?_
    rintro _ ⟨r, -, rfl⟩ q ⟨-, hbefore⟩
    have hle := (hbefore.append r []).le
    rwa [List.append_nil] at hle

/-- The members that go on from a path. -/
def extensions (root : Trie) (p : Path) : Set Path := {q | q ∈ root ∧ ∃ l, l ≠ [] ∧ q = p ++ l}

theorem Placed.extensions_node (h : c.Placed p []) (hc : c.root.Canonical) :
    extensions c.root p = (p ++ ·) '' edgeMembers c.node.edges := by
  have hmembers := Set.ext_iff.mp (h.chain.members_eq hc)
  ext q
  constructor
  · rintro ⟨hq, l, hl, rfl⟩
    have hnode : l ∈ c.node := (hmembers l).mpr hq
    rcases (mem_iff c.node l).mp hnode with ⟨hnil, -⟩ | hedge
    · exact absurd hnil hl
    · exact ⟨l, hedge, rfl⟩
  · rintro ⟨l, hl, rfl⟩
    have hnode : l ∈ c.node := (mem_iff c.node l).mpr (Or.inr hl)
    refine ⟨(hmembers l).mp hnode, l, ?_, rfl⟩
    rintro rfl
    exact nil_not_mem_edgeMembers _ hl

theorem Placed.extensions_inside (h : c.Placed p k) (hc : c.root.Canonical)
    (hfocus : c.focusEdge? = some (i, e)) (hpre : k <+: e.key) (hne : k ≠ e.key) :
    extensions c.root (p ++ k) = (p ++ e.key ++ ·) '' e.child.members := by
  obtain ⟨l, hl⟩ := hpre
  have hlne : l ≠ [] := fun hnil => hne (by rw [← hl, hnil, List.append_nil])
  have hstem : c.stem = ⟨l, e.child⟩ := by
    rw [stem, hfocus]
    dsimp only
    rw [h.keyLength_eq, ← hl, List.drop_left]
  have hbelow := Set.ext_iff.mp (h.members_stem hc)
  rw [hstem] at hbelow
  have hkey : ∀ q, p ++ e.key ++ q = p ++ k ++ (l ++ q) := by
    intro q
    rw [← hl]
    simp
  ext r
  constructor
  · rintro ⟨hr, m, -, rfl⟩
    obtain ⟨q, hq, rfl⟩ := (hbelow m).mpr hr
    exact ⟨q, hq, hkey q⟩
  · rintro ⟨q, hq, rfl⟩
    refine ⟨?_, l ++ q, List.append_ne_nil_of_left_ne_nil hlne q, hkey q⟩
    show p ++ e.key ++ q ∈ c.root
    rw [hkey]
    exact (hbelow (l ++ q)).mp ⟨q, hq, rfl⟩

theorem Placed.finds_edgeAhead? (h : c.Placed p k) (hc : c.root.Canonical) :
    Finds (extensions c.root (p ++ k)) (c.firstAlong? c.edgeAhead?) := by
  unfold edgeAhead?
  rw [Option.orElse_eq_orElse, Option.orElse_eq_or]
  by_cases hk : k = []
  · subst hk
    have hfinds := h.finds_firstAlong? hc 0
    rw [h.focusEdge?_eq_none rfl, Option.none_or, List.append_nil, h.extensions_node hc,
      List.head?_eq_getElem?]
    exact hfinds
  · obtain ⟨i, e, hfocus, he, hpre, hne⟩ := h.exists_focusEdge hc hk
    obtain ⟨d, q, hd, hpath, hleast⟩ := h.exists_firstAlong? hc he hpre
    rw [hfocus, Option.some_or, hd, h.extensions_inside hc hfocus hpre hne]
    show IsLeast _ d.path
    rw [hpath]
    exact Path.isLeast_image hleast (p ++ e.key)

/-- A place that no member goes on from is at the start of a node. -/
theorem Placed.eq_nil_of_extensions_eq_empty (h : c.Placed p k) (hc : c.root.Canonical)
    (hnone : extensions c.root (p ++ k) = ∅) : k = [] := by
  by_contra hk
  obtain ⟨i, e, hfocus, he, hpre, hne⟩ := h.exists_focusEdge hc hk
  rw [h.extensions_inside hc hfocus hpre hne, Set.image_eq_empty] at hnone
  have hinhabited := (h.canonical_node hc).inhabited c.node .root e (List.mem_of_getElem? he)
  exact Set.Nonempty.ne_empty hinhabited hnone

/-- A move forward searches the members that are greater than the path. -/
theorem IsAt.finds_nextMember? (h : c.IsAt t q) (ht : t.Canonical) :
    Finds {r | r ∈ t ∧ q < r} c.nextMember? := by
  obtain ⟨rfl, hpath, p, k, h⟩ := h
  obtain rfl : p ++ k = q := h.path_eq.symm.trans hpath
  have hsplit : {r | r ∈ c.root ∧ p ++ k < r} =
      extensions c.root (p ++ k) ∪ {r | r ∈ c.root ∧ Path.Before (p ++ k) r} := by
    ext r
    rw [Set.mem_union, Set.mem_ofPred_eq, Set.mem_ofPred_eq, Path.lt_iff, extensions,
      Set.mem_ofPred_eq, ← and_or_left]
  rw [hsplit, nextMember?, Option.orElse_eq_orElse, Option.orElse_eq_or]
  refine (h.finds_edgeAhead? ht).or (fun hnone => ?_) ?_
  · obtain rfl := h.eq_nil_of_extensions_eq_empty ht hnone
    rw [List.append_nil]
    exact finds_firstAfter? h.chain ht h.path_eq
  · rintro _ ⟨-, l, -, rfl⟩ r ⟨-, hbefore⟩
    have hle := (hbefore.append l []).le
    rwa [List.append_nil] at hle

/-! ## Rows of moves forward -/

/-- Moves to the next member lead from the cursor to these paths, one after the other; the move
after the last of them fails. -/
inductive Visits : Cursor → List Path → Prop
  | stop {c : Cursor} (h : c.move .nextMember = (false, c.reset)) : Visits c []
  | step {c d : Cursor} {ps : List Path} (h : c.move .nextMember = (true, d)) (hs : Visits d ps) :
      Visits c (d.path :: ps)

/-- The members that are greater than the path of a cursor, in ascending order. -/
structure Ahead (t : Trie) (p : Path) (ps : List Path) : Prop where
  ascending : ps.Pairwise (· < ·)
  mem_iff : ∀ q, q ∈ ps ↔ t.contains q = true ∧ p < q

theorem greater_finite (ht : t.Canonical) (p : Path) : {r | r ∈ t ∧ p < r}.Finite := by
  have hfinite : t.members.Finite := Set.finite_of_encard_eq_coe ht.count_eq_encard.symm
  exact hfinite.subset fun r hr => hr.1

theorem greater_eq_insert (h : IsLeast {r | r ∈ t ∧ p < r} q) :
    {r | r ∈ t ∧ p < r} = insert q {r | r ∈ t ∧ q < r} := by
  ext r
  rw [Set.mem_insert_iff, Set.mem_ofPred_eq, Set.mem_ofPred_eq]
  constructor
  · intro hr
    rcases List.le_iff_lt_or_eq.mp (h.2 hr) with hlt | heq
    · exact Or.inr ⟨hr.1, hlt⟩
    · exact Or.inl heq.symm
  · rintro (rfl | hr)
    · exact h.1
    · exact ⟨hr.1, List.lt_trans h.1.2 hr.2⟩

/-- Moves forward from a place lead to all members that are ahead of it, in ascending order. -/
theorem IsAt.exists_visits (h : c.IsAt t q) (ht : t.Canonical) :
    ∃ ps, Visits c ps ∧ Ahead t q ps := by
  -- each move leaves one member fewer ahead
  induction hn : {r | r ∈ t ∧ q < r}.ncard using Nat.strong_induction_on generalizing c q with
  | _ n ih =>
    have hfinds := h.finds_nextMember? ht
    have hmove : c.move .nextMember = c.reset.orStay c.nextMember? := rfl
    cases hd : c.nextMember? with
    | none =>
      rw [hd] at hfinds hmove
      have hnone : {r | r ∈ t ∧ q < r} = ∅ := hfinds
      refine ⟨[], .stop hmove, List.Pairwise.nil, fun r => ?_⟩
      have hr := Set.ext_iff.mp hnone r
      rw [Set.mem_ofPred_eq, ← ht.contains_iff] at hr
      simpa using hr
    | some d =>
      rw [hd] at hfinds hmove
      have hleast : IsLeast {r | r ∈ t ∧ q < r} d.path := hfinds
      obtain ⟨p, hat⟩ := h.nextMember ht hd
      obtain rfl := hat.path_eq
      have hsplit := greater_eq_insert hleast
      have hnotMem : d.path ∉ {r | r ∈ t ∧ d.path < r} := fun hmem => List.lt_irrefl _ hmem.2
      have hcard : {r | r ∈ t ∧ d.path < r}.ncard < n := by
        rw [← hn, hsplit, Set.ncard_insert_of_notMem hnotMem (greater_finite ht d.path)]
        exact Nat.lt_succ_self _
      obtain ⟨ps, hvisits, hahead⟩ := ih _ hcard hat rfl
      refine ⟨d.path :: ps, .step hmove hvisits, ?_, fun r => ?_⟩
      · exact List.pairwise_cons.mpr ⟨fun r hr => ((hahead.mem_iff r).mp hr).2, hahead.ascending⟩
      · have hr := Set.ext_iff.mp hsplit r
        rw [Set.mem_insert_iff, Set.mem_ofPred_eq, Set.mem_ofPred_eq, ← ht.contains_iff] at hr
        rw [List.mem_cons, hahead.mem_iff, hr]

/-- What a move to the next member answers, and where the cursor is then. -/
structure Forward (t : Trie) (c : Cursor) (r : Bool × Cursor) : Prop where
  succeeds_iff : r.1 = true ↔ ∃ q, t.contains q = true ∧ c.path < q
  isLeast : r.1 = true → IsLeast {q | t.contains q = true ∧ c.path < q} r.2.path
  atRoot : r.1 = false → r.2 = ofTrie t

theorem IsAt.forward (h : c.IsAt t c.path) (ht : t.Canonical) :
    Forward t c (c.move .nextMember) := by
  have hfinds := h.finds_nextMember? ht
  have hmove : c.move .nextMember = c.reset.orStay c.nextMember? := rfl
  simp only [← ht.contains_iff] at hfinds
  rw [hmove]
  cases hd : c.nextMember? with
  | none =>
    rw [hd] at hfinds
    have hnone : {q | t.contains q = true ∧ c.path < q} = ∅ := hfinds
    have hroot : c.reset = ofTrie t := by rw [Cursor.reset, h.root_eq]
    refine ⟨⟨fun h => absurd h Bool.false_ne_true, ?_⟩, fun h => absurd h Bool.false_ne_true,
      fun _ => hroot⟩
    rintro ⟨q, hq⟩
    have hmem : q ∈ {q | t.contains q = true ∧ c.path < q} := hq
    rw [hnone] at hmem
    exact absurd hmem (Set.notMem_empty q)
  | some d =>
    rw [hd] at hfinds
    have hleast : IsLeast {q | t.contains q = true ∧ c.path < q} d.path := hfinds
    exact ⟨⟨fun _ => ⟨d.path, hleast.1⟩, fun _ => rfl⟩, fun _ => hleast,
      fun h => absurd h.symm Bool.false_ne_true⟩

end Cursor

namespace Session

variable {hash : HashFunction} {σ : Session}

/-- From whatever place, a move to the next member leads to the least member greater than the path,
and to the root where there is none; so from the root such moves lead to each member but the empty
path once, in ascending order, and then end. -/
theorem nextMember_isLeast (h : Reachable hash σ) (hc : CollisionFree hash σ.interned) {x : Trie}
    (hx : x ∈ σ.sets) :
    (∀ c, Cursor.Run x c → Cursor.Forward x c (c.move .nextMember)) ∧
      ∃ ps, Cursor.Visits (Cursor.ofTrie x) ps ∧ ps.Pairwise (· < ·) ∧
        ∀ k, k ∈ ps ↔ k ≠ [] ∧ x.contains k = true := by
  have hcan := h.canonical hc hx
  refine ⟨fun c hr => (hr.isAt hcan).forward hcan, ?_⟩
  obtain ⟨ps, hvisits, hahead⟩ := (Cursor.isAt_ofTrie x).exists_visits hcan
  refine ⟨ps, hvisits, hahead.ascending, fun k => ?_⟩
  have hpos : [] < k ↔ k ≠ [] := by
    cases k with
    | nil => simp
    | cons b k => simp
  rw [hahead.mem_iff, hpos, and_comm]

/-- From inside the first edge of the branching set, and from the root on. -/
theorem nextMember_isLeast_branching :
    insideEdge.path = [1] ∧ (insideEdge.move .nextMember).2.path = [1, 2, 3] ∧
      Cursor.Forward branchingSet insideEdge (insideEdge.move .nextMember) ∧
      ∃ ps, Cursor.Visits (Cursor.ofTrie branchingSet) ps ∧ ps.Pairwise (· < ·) ∧
        ∀ k, k ∈ ps ↔ k ≠ [] ∧ branchingSet.contains k = true := by
  have hmoves := nextMember_isLeast (branching_reachable Blake3.hash)
    (branching_collisionFree Blake3.hash) branchingSet_mem
  exact ⟨by decide +kernel, by decide +kernel, hmoves.1 insideEdge run_insideEdge, hmoves.2⟩

end Session

end ByteTrie
