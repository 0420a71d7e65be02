import ByteTrie.Proofs.Reuse
import Mathlib

/-!
# Places

A subtrie that is used several times is met in each of its places, and a place is told by the path that
leads to it.  What is added up node by node over a trie counts what is found at its places.

    t.sumOver own     own n for the node n of every place of t, added up
    t.marks mark      the places of t, each with all that is marked at its node

    (t.marks mark).encard = t.sumOver own    if own n is the number of marks at n
-/

namespace ByteTrie

open Pool

namespace Trie

mutual

/-- The sum of `own` over the nodes of a trie, a node counting once for each of its places. -/
def sumOver (own : Trie → Nat) : Trie → Nat
  | node i t n m es => own (node i t n m es) + edgeSumOver own es

def edgeSumOver (own : Trie → Nat) : List (Edge Trie) → Nat
  | [] => 0
  | ⟨_, _, t⟩ :: es => sumOver own t + edgeSumOver own es

end

/-- The places of a trie, each with all that is marked at the node there. -/
def marks {α : Type} (mark : Trie → Set α) (t : Trie) : Set (Path × α) :=
  {x | ∃ n : Trie, n.IsNodeAt x.1 t ∧ x.2 ∈ mark n}

/-- The marks behind edges. -/
def edgeMarks {α : Type} (mark : Trie → Set α) (es : List (Edge Trie)) : Set (Path × α) :=
  {x | ∃ e ∈ es, ∃ y ∈ e.child.marks mark, x = (e.key ++ y.1, y.2)}

/-! ## Sums -/

theorem edgeSumOver_eq (own : Trie → Nat) (es : List (Edge Trie)) :
    edgeSumOver own es = total (es.map fun e => e.child.sumOver own) := by
  induction es with
  | nil => rfl
  | cons e es ih =>
    obtain ⟨b, k, t⟩ := e
    rw [edgeSumOver, ih, List.map_cons, total_cons]

theorem sumOver_eq (own : Trie → Nat) (t : Trie) :
    t.sumOver own = own t + total (t.edges.map fun e => e.child.sumOver own) := by
  cases t with
  | node i b n m es => rw [sumOver, edgeSumOver_eq]; rfl

theorem sumOver_mono {own more : Trie → Nat} (h : ∀ n, own n ≤ more n) (t : Trie) :
    t.sumOver own ≤ t.sumOver more := by
  induction t using nodeInduction with
  | node t ih =>
    rw [sumOver_eq, sumOver_eq]
    exact Nat.add_le_add (h t) (total_map_le ih)

/-! ## Lists of places -/

/-- One deeper, all depths are one more. -/
theorem visits_succ (t : Trie) (d : Nat) :
    t.visits (d + 1) = (t.visits d).map fun v => (v.1, v.2 + 1) := by
  induction t using nodeInduction generalizing d with
  | node t ih =>
    rw [visits_eq, visits_eq, edgeVisits_eq, edgeVisits_eq, List.map_cons, List.map_flatMap]
    exact congrArg _ (List.flatMap_congr fun e he => ih e he (d + 1))

theorem total_visits (own : Trie → Nat) (t : Trie) (d : Nat) :
    total ((t.visits d).map fun v => own v.1) = t.sumOver own := by
  refine edgeInduction (fun t => ∀ d, total ((t.visits d).map fun v => own v.1) = t.sumOver own)
    (fun es => ∀ d, total ((edgeVisits es d).map fun v => own v.1) = edgeSumOver own es)
    ?node ?nil ?cons t d
  case node =>
    intro t ih d
    rw [visits_eq, List.map_cons, total_cons, ih, sumOver_eq, edgeSumOver_eq]
  case nil => exact fun _ => rfl
  case cons =>
    rintro ⟨b, k, s⟩ es ihs ihes d
    rw [edgeVisits, List.map_append, total_append, ihs, ihes, edgeSumOver]

theorem length_visits (t : Trie) (d : Nat) : (t.visits d).length = t.sumOver fun _ => 1 := by
  rw [← total_visits _ t d, total_map_one]

/-! ## Marks -/

section

variable {α : Type} (mark : Trie → Set α)

theorem marks_eq (t : Trie) :
    t.marks mark = ((fun a => ([], a)) '' mark t) ∪ edgeMarks mark t.edges := by
  ext ⟨p, a⟩
  constructor
  · rintro ⟨n, hn, ha⟩
    rcases (isNodeAt_iff n t p).mp hn with ⟨rfl, rfl⟩ | ⟨e, he, q, hq, hp⟩
    · exact Or.inl ⟨a, ha, rfl⟩
    · exact Or.inr ⟨e, he, (q, a), ⟨n, hq, ha⟩, Prod.ext hp rfl⟩
  · rintro (⟨b, hb, heq⟩ | ⟨e, he, ⟨q, b⟩, ⟨n, hn, hb⟩, heq⟩)
    · obtain ⟨rfl, rfl⟩ := Prod.mk.inj heq
      exact ⟨t, .root, hb⟩
    · obtain ⟨rfl, rfl⟩ := Prod.mk.inj heq
      exact ⟨n, .inside he hn, hb⟩

theorem edgeMarks_cons (e : Edge Trie) (es : List (Edge Trie)) : edgeMarks mark (e :: es) =
    (fun x => (e.key ++ x.1, x.2)) '' e.child.marks mark ∪ edgeMarks mark es := by
  ext x
  constructor
  · rintro ⟨f, hf, y, hy, rfl⟩
    rcases List.mem_cons.mp hf with rfl | hf
    · exact Or.inl ⟨y, hy, rfl⟩
    · exact Or.inr ⟨f, hf, y, hy, rfl⟩
  · rintro (⟨y, hy, rfl⟩ | ⟨f, hf, y, hy, rfl⟩)
    · exact ⟨e, List.mem_cons_self, y, hy, rfl⟩
    · exact ⟨f, List.mem_cons_of_mem e hf, y, hy, rfl⟩

/-- Edges with different first bytes lead to different places, so no mark behind them counts twice. -/
theorem encard_edgeMarks (own : Trie → Nat) {es : List (Edge Trie)}
    (hasc : es.Pairwise fun e f => e.first < f.first)
    (h : ∀ e ∈ es, (e.child.marks mark).encard = e.child.sumOver own) :
    (edgeMarks mark es).encard = edgeSumOver own es := by
  induction es with
  | nil =>
    have hnone : edgeMarks mark [] = ∅ := by
      refine Set.eq_empty_iff_forall_notMem.mpr ?_
      rintro x ⟨e, he, -⟩
      exact absurd he List.not_mem_nil
    rw [hnone, Set.encard_empty, edgeSumOver, Nat.cast_zero]
  | cons e es ih =>
    obtain ⟨hlt, hasc⟩ := List.pairwise_cons.mp hasc
    have hinj : Function.Injective fun x : Path × α => (e.key ++ x.1, x.2) := by
      rintro ⟨p, a⟩ ⟨q, b⟩ heq
      obtain ⟨hp, rfl⟩ := Prod.mk.inj heq
      exact Prod.ext (List.append_cancel_left hp) rfl
    have hdisj : Disjoint ((fun x => (e.key ++ x.1, x.2)) '' e.child.marks mark)
        (edgeMarks mark es) := by
      rw [Set.disjoint_left]
      rintro _ ⟨x, -, rfl⟩ ⟨f, hf, y, -, heq⟩
      have hfirst : e.first = f.first := (List.cons.inj (congrArg Prod.fst heq)).1
      exact absurd hfirst (UInt8.ne_of_lt (hlt f hf))
    rw [edgeMarks_cons, Set.encard_union_eq hdisj, hinj.encard_image,
      h e List.mem_cons_self, ih hasc fun f hf => h f (List.mem_cons_of_mem e hf)]
    obtain ⟨b, k, t⟩ := e
    rw [edgeSumOver, Nat.cast_add]

/-- What is counted node by node is the number of marks. -/
theorem Canonical.encard_marks {t : Trie} (h : t.Canonical) (own : Trie → Nat)
    (hown : ∀ n, n.Canonical → (mark n).encard = own n) :
    (t.marks mark).encard = t.sumOver own := by
  induction t using nodeInduction with
  | node t ih =>
    have hinj : Function.Injective fun a : α => (([], a) : Path × α) := fun _ _ heq =>
      congrArg Prod.snd heq
    have hdisj : Disjoint ((fun a => ([], a)) '' mark t) (edgeMarks mark t.edges) := by
      rw [Set.disjoint_left]
      rintro _ ⟨a, -, rfl⟩ ⟨e, -, y, -, heq⟩
      cases congrArg Prod.fst heq
    have hedges := encard_edgeMarks mark own h.tidy.ascending fun e he => ih e he (h.child he)
    rw [marks_eq, Set.encard_union_eq hdisj, hinj.encard_image, hown t h, hedges, sumOver_eq,
      edgeSumOver_eq, Nat.cast_add]

end

/-- The number of places of the nodes that `own` tells. -/
theorem Canonical.encard_places {t : Trie} (h : t.Canonical) (own : Trie → Bool) :
    ({p | ∃ n : Trie, n.IsNodeAt p t ∧ own n = true} : Set Path).encard =
      t.sumOver fun n => (own n).toNat := by
  have hfst : {p | ∃ n : Trie, n.IsNodeAt p t ∧ own n = true} =
      Prod.fst '' t.marks fun n => {_x : Unit | own n = true} := by
    ext p
    constructor
    · rintro ⟨n, hn, hown⟩
      exact ⟨(p, ()), ⟨n, hn, hown⟩, rfl⟩
    · rintro ⟨⟨q, _⟩, ⟨n, hn, hown⟩, rfl⟩
      exact ⟨n, hn, hown⟩
  have hinj : Function.Injective (Prod.fst : Path × Unit → Path) := fun _ _ heq =>
    Prod.ext heq rfl
  rw [hfst, hinj.encard_image, h.encard_marks _ fun n => (own n).toNat]
  intro n _
  cases own n with
  | false => simp
  | true => simp

end Trie

end ByteTrie
