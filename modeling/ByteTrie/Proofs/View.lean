import ByteTrie.Proofs.Expression
import ByteTrie.Proofs.Listing
import ByteTrie.View.Json
import Mathlib

/-!
# What the views show

A place in a trie, at a node or inside an edge, goes on by some bytes, and each of them leads to a
place again.  Both views have a level for every place and an entry for every byte that it goes on by,
so going down a view by the names of bytes is going down the trie by the bytes; where the edges end on
the way cannot be told from it, and neither which of the prefixes are members.

    s.step? b, s.walk? p       the place that a byte, or the bytes of a path, lead to from s
    v.descend? names           what the names lead to in a view
    v.Describes x              the view v has a position for each prefix of a member of x, and there
                               the bytes that go on from it
-/

namespace ByteTrie

open Trie Pool

/-! ## Places -/

namespace Stem

/-- The place behind a byte. -/
def step? (s : Stem) (b : UInt8) : Option Stem :=
  (s.branches.find? fun e => e.first == b).map fun e => ⟨e.rest, e.child⟩

/-- The place behind the bytes of a path. -/
def walk? : Stem → Path → Option Stem
  | s, [] => some s
  | s, b :: p => (s.step? b).bind fun t => walk? t p

/-- Induction over the places of a trie, byte by byte. -/
theorem byteInduction {motive : Stem → Prop}
    (byte : ∀ s : Stem, (∀ e ∈ s.branches, motive ⟨e.rest, e.child⟩) → motive s) (s : Stem) :
    motive s := by
  obtain ⟨k, t⟩ := s
  induction t using nodeInduction generalizing k with
  | node t ih =>
    induction k with
    | nil => exact byte ⟨[], t⟩ fun e he => ih e he e.rest
    | cons b k ihk =>
      refine byte ⟨b :: k, t⟩ fun e he => ?_
      obtain rfl := List.mem_singleton.mp he
      exact ihk

end Stem

variable {P : Pool} {s t : Stem} {e f : Edge Trie} {p : Path} {b : UInt8}

/-- The edges that go on from a place start with different bytes. -/
theorem SetOp.IsPlace.eq_of_first_eq (h : SetOp.IsPlace P s) (he : e ∈ s.branches)
    (hf : f ∈ s.branches) (hfirst : e.first = f.first) : e = f :=
  edge_eq_of_first_eq h.edges.ascending he hf hfirst

theorem SetOp.IsPlace.step (h : SetOp.IsPlace P s) (he : e ∈ s.branches) :
    SetOp.IsPlace P ⟨e.rest, e.child⟩ :=
  ⟨h.edges.child_mem e he, fun _ => h.edges.inner e he⟩

theorem SetOp.IsPlace.members_step (h : SetOp.IsPlace P s) (he : e ∈ s.branches) :
    Stem.members ⟨e.rest, e.child⟩ = after e.first s.members := by
  rw [s.after_members]
  ext q
  rw [mem_after, cons_mem_edgeMembers]
  constructor
  · rintro ⟨r, hr, rfl⟩
    exact ⟨e, he, rfl, r, hr, rfl⟩
  · rintro ⟨f, hf, hfirst, r, hr, rfl⟩
    obtain rfl := h.eq_of_first_eq hf he hfirst
    exact ⟨r, hr, rfl⟩

/-- A place goes on by the bytes that its members start with. -/
theorem SetOp.IsPlace.nonempty_after_iff (h : SetOp.IsPlace P s) (b : UInt8) :
    (after b s.members).Nonempty ↔ b ∈ s.branches.map fun e => e.first := by
  rw [s.after_members, h.edges.nonempty_after_iff, List.mem_map]

theorem SetOp.IsPlace.of_step? (h : SetOp.IsPlace P s) (hb : s.step? b = some t) :
    SetOp.IsPlace P t ∧ t.members = after b s.members := by
  obtain ⟨e, he, rfl⟩ := Option.map_eq_some_iff.mp hb
  have hmem := List.mem_of_find?_eq_some he
  have hfirst := List.find?_some he
  obtain rfl : e.first = b := beq_iff_eq.mp hfirst
  exact ⟨h.step hmem, h.members_step hmem⟩

theorem SetOp.IsPlace.after_eq_empty (h : SetOp.IsPlace P s) (hb : s.step? b = none) :
    after b s.members = ∅ := by
  rw [← Set.not_nonempty_iff_eq_empty, h.nonempty_after_iff, List.mem_map]
  rintro ⟨e, he, hfirst⟩
  have hnone := List.find?_eq_none.mp (Option.map_eq_none_iff.mp hb) e he
  exact hnone (beq_iff_eq.mpr hfirst)

/-- The place behind a path has what its members go on with. -/
theorem SetOp.IsPlace.of_walk? (h : SetOp.IsPlace P s) (hp : s.walk? p = some t) :
    SetOp.IsPlace P t ∧ t.members = behind p s.members := by
  induction p generalizing s with
  | nil =>
    cases hp
    exact ⟨h, rfl⟩
  | cons b p ih =>
    obtain ⟨u, hu, hp⟩ := Option.bind_eq_some_iff.mp hp
    obtain ⟨hplace, hmembers⟩ := h.of_step? hu
    obtain ⟨ht, htm⟩ := ih hplace hp
    refine ⟨ht, ?_⟩
    rw [htm, hmembers]
    rfl

/-- There is a place behind each path that members start with. -/
theorem SetOp.IsPlace.isSome_walk?_iff (h : SetOp.IsPlace P s) (p : Path) :
    (s.walk? p).isSome = true ↔ p = [] ∨ (behind p s.members).Nonempty := by
  induction p generalizing s with
  | nil => simp [Stem.walk?]
  | cons b p ih =>
    have hbehind : behind (b :: p) s.members = behind p (after b s.members) := rfl
    rw [hbehind, Stem.walk?]
    cases hb : s.step? b with
    | none =>
      rw [h.after_eq_empty hb]
      simp [behind]
    | some u =>
      obtain ⟨hplace, hmembers⟩ := h.of_step? hb
      rw [← hmembers, Option.bind_some, ih hplace]
      refine ⟨fun hp => ?_, fun hp => Or.inr (hp.resolve_left (List.cons_ne_nil b p))⟩
      obtain rfl | hp := hp
      · -- behind a byte there are members, as no edge leads to none
        obtain ⟨e, he, rfl⟩ := Option.map_eq_some_iff.mp hb
        obtain ⟨q, hq⟩ := h.edges.exists_mem e (List.mem_of_find?_eq_some he)
        exact Or.inr ⟨e.rest ++ q, q, hq, rfl⟩
      · exact Or.inr hp

/-- What is made of a place byte by byte is the same for two places that have the same prefixes,
wherever edges end behind the one and the other. -/
theorem eq_of_same_prefixes {α : Type} (level : Stem → α) (build : List (UInt8 × α) → α)
    (hlevel : ∀ s, level s = build (s.branches.map fun e => (e.first, level ⟨e.rest, e.child⟩)))
    (hs : SetOp.IsPlace P s) (ht : SetOp.IsPlace P t)
    (h : ∀ p ≠ [], (behind p s.members).Nonempty ↔ (behind p t.members).Nonempty) :
    level s = level t := by
  induction s using Stem.byteInduction generalizing t with
  | byte s ih =>
    have hfirsts : (s.branches.map fun e => e.first) = t.branches.map fun e => e.first := by
      refine ByteMask.eq_of_pairwise_of_mem_iff (List.pairwise_map.mpr hs.edges.ascending)
        (List.pairwise_map.mpr ht.edges.ascending) fun b => ?_
      rw [← hs.nonempty_after_iff, ← ht.nonempty_after_iff]
      exact h [b] (List.cons_ne_nil b [])
    have hlen : s.branches.length = t.branches.length := by
      simpa using congrArg List.length hfirsts
    rw [hlevel s, hlevel t]
    congr 1
    refine List.ext_getElem (by simpa using hlen) fun i hi hj => ?_
    rw [List.length_map] at hi hj
    have hfirst : s.branches[i].first = t.branches[i].first := by
      simpa [hi, hj] using congrArg (fun l : List UInt8 => l[i]?) hfirsts
    rw [List.getElem_map, List.getElem_map, hfirst]
    congr 1
    have he := List.getElem_mem hi
    have hf := List.getElem_mem hj
    refine ih _ he (hs.step he) (ht.step hf) fun p _ => ?_
    rw [hs.members_step he, ht.members_step hf, hfirst]
    exact h (t.branches[i].first :: p) (List.cons_ne_nil _ p)

/-! ## Names -/

theorem byteName_injective : Function.Injective byteName := fun _ _ h =>
  UInt8.toNat_inj.mp (Nat.repr_inj.mp h)

theorem byteName_beq (b c : UInt8) : (byteName b == byteName c) = (b == c) := by
  rw [Bool.eq_iff_iff, beq_iff_eq, beq_iff_eq, byteName_injective.eq_iff]

/-! ## Nested view -/

namespace NestedView

def entries : NestedView → List (String × NestedView)
  | level es => es

/-- The names of the entries of a level. -/
def names (v : NestedView) : List String := v.entries.map Prod.fst

/-- What the names lead to, level by level. -/
def descend? : NestedView → List String → Option NestedView
  | v, [] => some v
  | v, n :: ns => (v.entries.lookup n).bind fun w => descend? w ns

/-- The level at a place. -/
def ofStem (s : Stem) : NestedView := along (ofTrie s.child) s.key

theorem ofEdges_eq (es : List (Edge Trie)) :
    ofEdges es = es.map fun e => (byteName e.first, ofStem ⟨e.rest, e.child⟩) := by
  induction es with
  | nil => rw [ofEdges, List.map_nil]
  | cons e es ih =>
    obtain ⟨b, k, t⟩ := e
    rw [ofEdges, ih, List.map_cons]
    rfl

/-- A level has an entry for each byte that its place goes on by. -/
theorem ofStem_eq (s : Stem) : ofStem s =
    level (s.branches.map fun e => (byteName e.first, ofStem ⟨e.rest, e.child⟩)) := by
  obtain ⟨k, t⟩ := s
  cases k with
  | nil =>
    obtain ⟨i, b, n, m, es⟩ := t
    rw [ofStem, along, ofTrie, ofEdges_eq]
    rfl
  | cons b k => rfl

theorem entries_ofStem (s : Stem) : (ofStem s).entries =
    s.branches.map fun e => (byteName e.first, ofStem ⟨e.rest, e.child⟩) := by
  rw [ofStem_eq, entries]

theorem names_ofStem (s : Stem) :
    (ofStem s).names = (s.branches.map fun e => e.first).map byteName := by
  rw [names, entries_ofStem, List.map_map, List.map_map]
  rfl

theorem lookup_ofStem (s : Stem) (b : UInt8) :
    (ofStem s).entries.lookup (byteName b) = (s.step? b).map ofStem := by
  rw [entries_ofStem, Stem.step?]
  induction s.branches with
  | nil => rfl
  | cons e es ih =>
    rw [List.map_cons, List.lookup_cons, List.find?_cons, byteName_beq, Bool.beq_comm]
    cases e.first == b with
    | true => rfl
    | false => exact ih

theorem descend?_ofStem (s : Stem) (p : Path) :
    (ofStem s).descend? (p.map byteName) = (s.walk? p).map ofStem := by
  induction p generalizing s with
  | nil => rfl
  | cons b p ih =>
    rw [List.map_cons, descend?, lookup_ofStem, Stem.walk?]
    cases s.step? b with
    | none => rfl
    | some t => exact ih t

end NestedView

/-! ## Hierarchy -/

namespace HierarchyEntry

def name : HierarchyEntry → String
  | entry n _ => n

def children? : HierarchyEntry → Option (List HierarchyEntry)
  | entry _ es => es

/-- The entries below an entry, none where it has no list. -/
def entriesBelow (e : HierarchyEntry) : List HierarchyEntry := e.children?.getD []

/-- What the names lead to, entry by entry. -/
def descend? : HierarchyEntry → List String → Option HierarchyEntry
  | e, [] => some e
  | e, n :: ns => (e.entriesBelow.find? fun f => f.name == n).bind fun f => descend? f ns

/-- The entries for the bytes that a place goes on by. -/
def listAt (s : Stem) : List HierarchyEntry :=
  s.branches.map fun e => along (listed? (ofTrie e.child)) e.first e.rest

/-- The entry of a place, for the byte with this name. -/
def ofStem (n : String) (s : Stem) : HierarchyEntry := entry n (listed? (listAt s))

theorem ofEdges_eq (es : List (Edge Trie)) : ofEdges es =
    es.map fun e => along (listed? (ofTrie e.child)) e.first e.rest := by
  induction es with
  | nil => rw [ofEdges, List.map_nil]
  | cons e es ih => rw [ofEdges, ih, List.map_cons]

theorem ofTrie_eq (t : Trie) : ofTrie t = listAt ⟨[], t⟩ := by
  cases t with
  | node i b n m es =>
    rw [ofTrie, ofEdges_eq]
    rfl

theorem along_eq (b : UInt8) (k : Path) (t : Trie) :
    along (listed? (ofTrie t)) b k = ofStem (byteName b) ⟨k, t⟩ := by
  cases k with
  | nil => rw [along, ofTrie_eq, ofStem]
  | cons c k => rfl

theorem listAt_eq (s : Stem) :
    listAt s = s.branches.map fun e => ofStem (byteName e.first) ⟨e.rest, e.child⟩ :=
  List.map_congr_left fun e _ => along_eq e.first e.rest e.child

@[simp] theorem entriesBelow_ofStem (n : String) (s : Stem) : (ofStem n s).entriesBelow = listAt s := by
  show (listed? (listAt s)).getD [] = listAt s
  cases listAt s with
  | nil => rfl
  | cons e es => rfl

theorem isSome_children?_ofStem (n : String) (s : Stem) :
    (ofStem n s).children?.isSome = true ↔ s.branches ≠ [] := by
  show (listed? (listAt s)).isSome = true ↔ s.branches ≠ []
  rw [listAt]
  cases s.branches with
  | nil => simp [listed?]
  | cons e es => simp [listed?]

theorem names_listAt (s : Stem) :
    (listAt s).map name = (s.branches.map fun e => e.first).map byteName := by
  rw [listAt_eq, List.map_map, List.map_map]
  rfl

theorem find?_listAt (s : Stem) (b : UInt8) :
    ((listAt s).find? fun f => f.name == byteName b) = (s.step? b).map (ofStem (byteName b)) := by
  rw [listAt_eq, Stem.step?]
  induction s.branches with
  | nil => rfl
  | cons e es ih =>
    have hname : (ofStem (byteName e.first) ⟨e.rest, e.child⟩).name = byteName e.first := rfl
    rw [List.map_cons, List.find?_cons, List.find?_cons, hname, byteName_beq]
    cases hb : e.first == b with
    | true =>
      obtain rfl := beq_iff_eq.mp hb
      rfl
    | false => exact ih

/-- Below the first byte the entry is that of the place, named for the last byte. -/
theorem descend?_cons {e : HierarchyEntry} (he : e.entriesBelow = listAt s) (b : UInt8) (p : Path) :
    e.descend? ((b :: p).map byteName) =
      (s.walk? (b :: p)).map (ofStem (byteName ((b :: p).getLast (List.cons_ne_nil b p)))) := by
  induction p generalizing e s b with
  | nil =>
    rw [List.map_cons, descend?, he, find?_listAt, Stem.walk?]
    cases s.step? b with
    | none => rfl
    | some t => rfl
  | cons c p ih =>
    rw [List.map_cons, descend?, he, find?_listAt, Stem.walk?, List.getLast_cons (List.cons_ne_nil c p)]
    cases s.step? b with
    | none => rfl
    | some t => exact ih (entriesBelow_ofStem (byteName b) t) c

end HierarchyEntry

/-! ## What is shown of a set -/

/-- The nested view `v` has a level for each prefix of a member of `x`, with an entry for each byte that
goes on from it. -/
structure NestedView.Describes (v : NestedView) (x : Trie) : Prop where
  isSome_descend?_iff : ∀ p ≠ [], (v.descend? (p.map byteName)).isSome = true ↔ x.HasPrefix p
  names : ∀ p w, v.descend? (p.map byteName) = some w →
    ∃ bs, x.Continues p bs ∧ w.names = bs.map byteName

/-- The hierarchy `e` has an entry for each prefix of a member of `x`; below an entry are those for the
bytes that go on from it, in a list if there are any. -/
structure HierarchyEntry.Describes (e : HierarchyEntry) (x : Trie) : Prop where
  isSome_descend?_iff : ∀ p ≠ [], (e.descend? (p.map byteName)).isSome = true ↔ x.HasPrefix p
  names : ∀ p f, e.descend? (p.map byteName) = some f →
    ∃ bs, x.Continues p bs ∧ f.entriesBelow.map name = bs.map byteName
  children_iff : ∀ p f, p ≠ [] → e.descend? (p.map byteName) = some f →
    (f.children?.isSome = true ↔ ∃ b, x.HasPrefix (p ++ [b]))

section

variable {x y : Trie}

theorem isPlace_root (hx : x ∈ P) : SetOp.IsPlace P ⟨[], x⟩ := ⟨hx, fun h => absurd rfl h⟩

theorem hasPrefix_iff_behind (hx : x ∈ P) (p : Path) :
    x.HasPrefix p ↔ (behind p (Stem.members ⟨[], x⟩)).Nonempty := by
  rw [(canonical hx).hasPrefix_iff, Stem.members_nil]
  rfl

theorem hasPrefix_iff_paths (hx : x ∈ P) (p : Path) : x.HasPrefix p ↔ ∃ q, p ++ q ∈ x.paths :=
  exists_congr fun q => by rw [(canonical hx).contains_iff, mem_paths_iff]

theorem isSome_walk?_root (hx : x ∈ P) (hp : p ≠ []) :
    (Stem.walk? ⟨[], x⟩ p).isSome = true ↔ x.HasPrefix p := by
  rw [(isPlace_root hx).isSome_walk?_iff, hasPrefix_iff_behind hx, or_iff_right hp]

/-- The bytes that go on from the place behind a path. -/
theorem continues_of_walk? (hx : x ∈ P) (hs : Stem.walk? ⟨[], x⟩ p = some s) :
    x.Continues p (s.branches.map fun e => e.first) := by
  obtain ⟨hplace, hmembers⟩ := (isPlace_root hx).of_walk? hs
  refine ⟨List.pairwise_map.mpr hplace.edges.ascending, fun b => ?_⟩
  have hbehind : behind (p ++ [b]) (Stem.members ⟨[], x⟩) = after b s.members := by
    rw [hmembers]
    ext q
    show p ++ [b] ++ q ∈ Stem.members ⟨[], x⟩ ↔ p ++ b :: q ∈ Stem.members ⟨[], x⟩
    rw [List.append_assoc]
    rfl
  rw [hasPrefix_iff_behind hx, hbehind, hplace.nonempty_after_iff]

theorem NestedView.describes (hx : x ∈ P) : (NestedView.ofTrie x).Describes x := by
  have hdescend : ∀ p : Path, (NestedView.ofTrie x).descend? (p.map byteName) =
      (Stem.walk? ⟨[], x⟩ p).map ofStem := fun p => descend?_ofStem ⟨[], x⟩ p
  refine ⟨fun p hp => ?_, fun p w hw => ?_⟩
  · rw [hdescend, Option.isSome_map, isSome_walk?_root hx hp]
  · rw [hdescend] at hw
    obtain ⟨s, hs, rfl⟩ := Option.map_eq_some_iff.mp hw
    exact ⟨_, continues_of_walk? hx hs, names_ofStem s⟩

theorem HierarchyEntry.entriesBelow_rootOf (x : Trie) :
    (rootOf x).entriesBelow = listAt ⟨[], x⟩ := ofTrie_eq x

theorem HierarchyEntry.describes (hx : x ∈ P) : (rootOf x).Describes x := by
  refine ⟨fun p hp => ?_, fun p f hf => ?_, fun p f hp hf => ?_⟩
  · obtain ⟨b, p, rfl⟩ := List.exists_cons_of_ne_nil hp
    rw [descend?_cons (entriesBelow_rootOf x), Option.isSome_map, isSome_walk?_root hx hp]
  · cases p with
    | nil =>
      cases hf
      rw [entriesBelow_rootOf]
      exact ⟨_, continues_of_walk? hx rfl, names_listAt _⟩
    | cons b p =>
      rw [descend?_cons (entriesBelow_rootOf x)] at hf
      obtain ⟨s, hs, rfl⟩ := Option.map_eq_some_iff.mp hf
      rw [entriesBelow_ofStem]
      exact ⟨_, continues_of_walk? hx hs, names_listAt s⟩
  · obtain ⟨b, p, rfl⟩ := List.exists_cons_of_ne_nil hp
    rw [descend?_cons (entriesBelow_rootOf x)] at hf
    obtain ⟨s, hs, rfl⟩ := Option.map_eq_some_iff.mp hf
    have hcontinues := continues_of_walk? hx hs
    rw [isSome_children?_ofStem]
    constructor
    · intro hne
      obtain ⟨e, he⟩ := List.exists_mem_of_ne_nil _ hne
      exact ⟨e.first, (hcontinues.mem_iff e.first).mp (List.mem_map_of_mem he)⟩
    · rintro ⟨c, hc⟩
      obtain ⟨e, he, -⟩ := List.mem_map.mp ((hcontinues.mem_iff c).mpr hc)
      exact List.ne_nil_of_mem he

/-- Two sets with the same prefixes have the same views. -/
theorem views_eq_of_same_prefixes (hx : x ∈ P) (hy : y ∈ P)
    (h : ∀ p ≠ [], x.HasPrefix p ↔ y.HasPrefix p) :
    NestedView.ofTrie x = NestedView.ofTrie y ∧
      HierarchyEntry.rootOf x = HierarchyEntry.rootOf y := by
  have hsame : ∀ p ≠ [], (behind p (Stem.members ⟨[], x⟩)).Nonempty ↔
      (behind p (Stem.members ⟨[], y⟩)).Nonempty := fun p hp => by
    rw [← hasPrefix_iff_behind hx, ← hasPrefix_iff_behind hy, h p hp]
  constructor
  · refine eq_of_same_prefixes NestedView.ofStem
      (fun es => .level (es.map fun a => (byteName a.1, a.2))) (fun s => ?_)
      (isPlace_root hx) (isPlace_root hy) hsame
    rw [NestedView.ofStem_eq, List.map_map]
    rfl
  · rw [HierarchyEntry.rootOf, HierarchyEntry.rootOf, HierarchyEntry.ofTrie_eq,
      HierarchyEntry.ofTrie_eq]
    congr 2
    refine eq_of_same_prefixes HierarchyEntry.listAt
      (fun es => es.map fun a => .entry (byteName a.1) (HierarchyEntry.listed? a.2)) (fun s => ?_)
      (isPlace_root hx) (isPlace_root hy) hsame
    rw [HierarchyEntry.listAt_eq, List.map_map]
    rfl

end

namespace Session

variable {hash : HashFunction} {σ : Session}

/-- Each view of a set of a session has a position for each prefix of a member, and offers there the
bytes that go on from it; so the views tell as much of a set as the prefixes of its members.  As
objects, whose entries have no order, two nested views are the same if the same names lead down both. -/
theorem views_show_prefixes (h : Reachable hash σ) (hc : CollisionFree hash σ.interned) {x y : Trie}
    (hx : x ∈ σ.sets) (hy : y ∈ σ.sets) :
    (NestedView.ofTrie x).Describes x ∧ (HierarchyEntry.rootOf x).Describes x ∧
      List.TFAE [NestedView.ofTrie x = NestedView.ofTrie y,
        ∀ ns, ((NestedView.ofTrie x).descend? ns).isSome = ((NestedView.ofTrie y).descend? ns).isSome,
        HierarchyEntry.rootOf x = HierarchyEntry.rootOf y,
        ∀ p ≠ [], x.HasPrefix p ↔ y.HasPrefix p] := by
  obtain ⟨P, hP⟩ := h.exists_pool hc
  have hxP := hP.sets x hx
  have hyP := hP.sets y hy
  refine ⟨NestedView.describes hxP, HierarchyEntry.describes hxP, ?_⟩
  tfae_have 1 → 2 := fun heq ns => by rw [heq]
  tfae_have 2 → 4 := fun heq p hp => by
    rw [← (NestedView.describes hxP).isSome_descend?_iff p hp, heq,
      (NestedView.describes hyP).isSome_descend?_iff p hp]
  tfae_have 3 → 4 := fun heq p hp => by
    rw [← (HierarchyEntry.describes hxP).isSome_descend?_iff p hp, heq,
      (HierarchyEntry.describes hyP).isSome_descend?_iff p hp]
  tfae_have 4 → 1 := fun hp => (views_eq_of_same_prefixes hxP hyP hp).1
  tfae_have 4 → 3 := fun hp => (views_eq_of_same_prefixes hxP hyP hp).2
  tfae_finish

/-- After the set of 1 and 1 2, the set of 1 2 alone. -/
def branchingSame : Session := branchingNested.gain (Trie.singleton [1, 2])

theorem branchingSame_reachable (hash : HashFunction) : Reachable hash branchingSame :=
  (branchingNested_reachable hash).step (.singleton [1, 2])

/-- The two sets have other members and the same prefixes, and so the same views: where the edge to the
member 1 of the first set ends is not shown. -/
theorem views_show_prefixes_same :
    ∃ x ∈ branchingSame.sets, ∃ y ∈ branchingSame.sets, x.paths = [[1], [1, 2]] ∧
      y.paths = [[1, 2]] ∧ NestedView.ofTrie x = NestedView.ofTrie y ∧
      HierarchyEntry.rootOf x = HierarchyEntry.rootOf y ∧
      ((HierarchyEntry.rootOf x).descend? [byteName 1, byteName 2]).isSome = true := by
  have hx : branchingNested.sets.head (by decide +kernel) ∈ branchingSame.sets :=
    List.mem_cons_of_mem _ (List.head_mem _)
  have hy : branchingSame.sets.head (by decide +kernel) ∈ branchingSame.sets := List.head_mem _
  have hreach := branchingSame_reachable Blake3.hash
  have hfree := branchingNested_collisionFree Blake3.hash
  obtain ⟨P, hP⟩ := hreach.exists_pool hfree
  have hxpaths : (branchingNested.sets.head (by decide +kernel)).paths = [[1], [1, 2]] := by
    decide +kernel
  have hypaths : (branchingSame.sets.head (by decide +kernel)).paths = [[1, 2]] := by
    decide +kernel
  obtain ⟨-, hdescribes, htfae⟩ := views_show_prefixes hreach hfree hx hy
  have hprefixes := htfae.out 3 0
  have hprefixes' := htfae.out 3 2
  have hsame : ∀ p ≠ [], (branchingNested.sets.head (by decide +kernel)).HasPrefix p ↔
      (branchingSame.sets.head (by decide +kernel)).HasPrefix p := by
    intro p hp
    rw [hasPrefix_iff_paths (hP.sets _ hx), hasPrefix_iff_paths (hP.sets _ hy), hxpaths, hypaths]
    simp only [List.mem_cons, List.not_mem_nil, or_false]
    constructor
    · rintro ⟨q, hq | hq⟩
      · obtain ⟨b, p, rfl⟩ := List.exists_cons_of_ne_nil hp
        obtain ⟨rfl, rfl⟩ : b = 1 ∧ p = [] := by simp_all
        exact ⟨[2], rfl⟩
      · exact ⟨q, hq⟩
    · rintro ⟨q, hq⟩
      exact ⟨q, Or.inr hq⟩
  refine ⟨_, hx, _, hy, hxpaths, hypaths, hprefixes.mp hsame, hprefixes'.mp hsame, ?_⟩
  refine (hdescribes.isSome_descend?_iff [1, 2] (by decide)).mpr ?_
  exact (hasPrefix_iff_paths (hP.sets _ hx) _).mpr ⟨[], hxpaths ▸ by decide⟩

end Session

end ByteTrie
