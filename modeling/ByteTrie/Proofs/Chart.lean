import ByteTrie.Proofs.Distinct
import ByteTrie.Proofs.Moves
import ByteTrie.View.Chart
import Mathlib

/-!
# What a chart shows

A chart is drawn root by root.  Where a walk comes to a node that its root has marked, all that is
shown below is marked; where it comes to one that another root has drawn, it goes on without drawing.

    u.IsShown style t          u is t, or is reached along edges that the chart shows
    d.roots u                  the roots that have marked u, if any have
    d.items u                  the items of u: its node, and the edges from it
    Gains style r u A l d d'   on the way from d to d', root r has marked u if A holds, and u has got
                               the items l, and all of its items if it was marked by none before
-/

namespace ByteTrie

open Trie Pool

/-- The id of the node that an item draws, or from which the edge that it draws leads. -/
def ChartItem.owner : ChartItem → Nat
  | .node i _ => i
  | .edge i _ _ => i

namespace Trie

/-- `u` is reached from `t` along edges that are not hidden. -/
inductive IsShown (style : ChartStyle) (u : Trie) : Trie → Prop
  | root : IsShown style u u
  | inside {t : Trie} {e : Edge Trie} (he : e ∈ t.edges)
      (hshown : Drawing.isHidden style e.child = false) (hu : IsShown style u e.child) :
      IsShown style u t

/-- `u` is reached along one of the edges that are not hidden. -/
def IsShownAlong (style : ChartStyle) (u : Trie) (es : List (Edge Trie)) : Prop :=
  ∃ e ∈ es, Drawing.isHidden style e.child = false ∧ IsShown style u e.child

end Trie

namespace Drawing

/-- The edges of a list that are not hidden. -/
def shownEdges (style : ChartStyle) (es : List (Edge Trie)) : List (Edge Trie) :=
  es.filter fun e => !isHidden style e.child

/-- The items for edges that lead from one node. -/
def edgeItems (style : ChartStyle) (source : Nat) (es : List (Edge Trie)) : List ChartItem :=
  (shownEdges style es).map fun e => .edge source e.child.id e.key

/-- All items of a node. -/
def nodeItems (style : ChartStyle) (u : Trie) : List ChartItem :=
  .node u.id u.terminal :: edgeItems style u.id u.edges

def roots (d : Drawing) (u : Trie) : Option (List Nat) := d.reachedBy[u.id]?

def items (d : Drawing) (u : Trie) : List ChartItem :=
  d.itemsRev.reverse.filter fun i => i.owner == u.id

/-- The edge is drawn, if its source is given. -/
def lead (source : Option Nat) (e : Edge Trie) (d : Drawing) : Drawing :=
  match source with
  | some i => d.item (.edge i e.child.id e.key)
  | none => d

/-- The items of `u` for edges that are drawn from the given source. -/
def topItems (style : ChartStyle) (source : Option Nat) (u : Trie) (es : List (Edge Trie)) :
    List ChartItem :=
  if source = some u.id then edgeItems style u.id es else []

/-- Root `r` has marked `u`. -/
def IsMarked (d : Drawing) (r : Nat) (u : Trie) : Prop := ∃ rs, d.roots u = some rs ∧ r ∈ rs

/-- Below the nodes of `t` that root `r` has marked, it has marked all that is shown. -/
def MarkedBelow (style : ChartStyle) (r : Nat) (t : Trie) (d : Drawing) : Prop :=
  ∀ v, v.IsShown style t → d.IsMarked r v → ∀ u, u.IsShown style v → d.IsMarked r u

/-- The roots of a node with one more. -/
def addRoot (r : Nat) : Option (List Nat) → List Nat
  | none => [r]
  | some rs => if rs.contains r then rs else r :: rs

/-- What a walk of root `r` from `d` to `d'` does to the node `u`. -/
structure Gains (style : ChartStyle) (r : Nat) (u : Trie) (reached : Prop) (top : List ChartItem)
    (d d' : Drawing) : Prop where
  marked : reached → d'.roots u = some (addRoot r (d.roots u))
  kept : ¬ reached → d'.roots u = d.roots u
  drawn : reached → d.roots u = none → d'.items u = d.items u ++ top ++ nodeItems style u
  listed : ¬ (reached ∧ d.roots u = none) → d'.items u = d.items u ++ top

end Drawing

/-! ## Shown nodes -/

namespace Trie

variable {style : ChartStyle} {t u v : Trie}

theorem IsShown.trans (huv : u.IsShown style v) (hvt : v.IsShown style t) : u.IsShown style t := by
  induction hvt with
  | root => exact huv
  | inside he hshown _ ih => exact .inside he hshown ih

theorem IsShown.isNode (h : u.IsShown style t) : IsNode u t := by
  induction h with
  | root => exact .root
  | inside he _ _ ih => exact .inside he ih

theorem isShown_iff : u.IsShown style t ↔ u = t ∨ IsShownAlong style u t.edges := by
  constructor
  · intro h
    cases h with
    | root => exact Or.inl rfl
    | inside he hshown hu => exact Or.inr ⟨_, he, hshown, hu⟩
  · rintro (rfl | ⟨e, he, hshown, hu⟩)
    · exact .root
    · exact .inside he hshown hu

theorem not_isShownAlong_self : ¬ IsShownAlong style t t.edges := by
  rintro ⟨e, he, -, ht⟩
  exact not_isNode_child he ht.isNode

end Trie

namespace Drawing

variable {style : ChartStyle} {r : Nat} {d d₁ d₂ : Drawing} {u : Trie}

/-! ## Marks and items -/

theorem mem_addRoot (r s : Nat) (rs : Option (List Nat)) :
    s ∈ addRoot r rs ↔ s = r ∨ s ∈ rs.getD [] := by
  cases rs with
  | none => simp [addRoot]
  | some rs =>
    rw [addRoot]
    split
    · next h =>
      refine ⟨Or.inr, fun hs => hs.elim ?_ id⟩
      rintro rfl
      exact List.contains_iff_mem.mp h
    · exact List.mem_cons

theorem addRoot_of_mem {rs : List Nat} (h : r ∈ rs) : addRoot r (some rs) = rs :=
  if_pos (List.contains_iff_mem.mpr h)

theorem addRoot_addRoot (r : Nat) (rs : Option (List Nat)) :
    addRoot r (some (addRoot r rs)) = addRoot r rs :=
  addRoot_of_mem ((mem_addRoot r r rs).mpr (Or.inl rfl))

theorem nodup_addRoot {rs : Option (List Nat)} (h : (rs.getD []).Nodup) :
    (addRoot r rs).Nodup := by
  cases rs with
  | none => exact List.nodup_singleton r
  | some rs =>
    rw [addRoot]
    split
    · exact h
    · next hr => exact List.nodup_cons.mpr ⟨mt List.contains_iff_mem.mpr hr, h⟩

theorem roots_reach (i : Nat) (rs : List Nat) (d : Drawing) (u : Trie) :
    (d.reach i rs).roots u = if i = u.id then some rs else d.roots u := by
  rw [roots, reach, Std.HashMap.getElem?_insert]
  simp only [beq_iff_eq]
  rfl

theorem items_item (i : ChartItem) (d : Drawing) (u : Trie) :
    (d.item i).items u = d.items u ++ if i.owner = u.id then [i] else [] := by
  rw [items, item, List.reverse_cons, List.filter_append, List.filter_cons, List.filter_nil]
  simp only [beq_iff_eq]
  rfl

/-! ## One step after another -/

theorem gains_self : Gains style r u False [] d d where
  marked := False.elim
  kept _ := rfl
  drawn := False.elim
  listed _ := (List.append_nil _).symm

/-- What a node gets on the way by `d₁`.  It gets all of its items at most once, and none by itself
before them. -/
theorem Gains.trans {A B : Prop} {l₁ l₂ : List ChartItem} (h₁ : Gains style r u A l₁ d d₁)
    (h₂ : Gains style r u B l₂ d₁ d₂) (hl : l₂ ≠ [] → d.roots u ≠ none) :
    Gains style r u (A ∨ B) (l₁ ++ l₂) d d₂ := by
  by_cases hA : A
  · have hsome := h₁.marked hA
    have hne : d₁.roots u ≠ none := by
      rw [hsome]
      exact Option.some_ne_none _
    refine ⟨fun _ => ?_, fun h => absurd (Or.inl hA) h, fun _ hnone => ?_, fun h => ?_⟩
    · by_cases hB : B
      · rw [h₂.marked hB, hsome, addRoot_addRoot]
      · rw [h₂.kept hB, hsome]
    · obtain rfl : l₂ = [] := not_not.mp fun h => hl h hnone
      rw [h₂.listed fun h => hne h.2, h₁.drawn hA hnone, List.append_nil, List.append_nil]
    · have hnone : d.roots u ≠ none := fun hnone => h ⟨Or.inl hA, hnone⟩
      rw [h₂.listed fun h => hne h.2, h₁.listed fun h => hnone h.2, List.append_assoc]
  · have hkept := h₁.kept hA
    have hitems := h₁.listed fun h => hA h.1
    refine ⟨fun h => ?_, fun h => ?_, fun h hnone => ?_, fun h => ?_⟩
    · rw [h₂.marked (h.resolve_left hA), hkept]
    · rw [h₂.kept fun hB => h (Or.inr hB), hkept]
    · rw [h₂.drawn (h.resolve_left hA) (hkept.trans hnone), hitems, List.append_assoc (d.items u)]
    · rw [h₂.listed fun hB => h ⟨Or.inr hB.1, hkept ▸ hB.2⟩, hitems, List.append_assoc]

theorem Gains.congr {A B : Prop} {l m : List ChartItem} (h : Gains style r u A l d d₁)
    (hAB : A ↔ B) (hlm : l = m) : Gains style r u B m d d₁ := by
  rwa [← hAB, ← hlm]

/-- Only what `d` has of `u` matters. -/
theorem Gains.of_eq {A : Prop} {l : List ChartItem} (h : Gains style r u A l d₁ d₂)
    (hroots : d₁.roots u = d.roots u) (hitems : d₁.items u = d.items u) :
    Gains style r u A l d d₂ := by
  obtain ⟨hmarked, hkept, hdrawn, hlisted⟩ := h
  rw [hroots] at hmarked hkept hdrawn hlisted
  rw [hitems] at hdrawn hlisted
  exact ⟨hmarked, hkept, hdrawn, hlisted⟩

theorem Gains.roots_ne_none {A : Prop} {l : List ChartItem} (h : Gains style r u A l d d₁)
    (hne : d.roots u ≠ none) : d₁.roots u ≠ none := by
  by_cases hA : A
  · rw [h.marked hA]
    exact Option.some_ne_none _
  · rwa [h.kept hA]

theorem Gains.isMarked_iff {A : Prop} {l : List ChartItem} (h : Gains style r u A l d d₁) :
    d₁.IsMarked r u ↔ d.IsMarked r u ∨ A := by
  by_cases hA : A
  · refine iff_of_true ⟨_, h.marked hA, (mem_addRoot r r _).mpr (Or.inl rfl)⟩ (Or.inr hA)
  · rw [IsMarked, h.kept hA, or_iff_left hA]
    exact Iff.rfl

/-! ## Walks -/

theorem visit_eq (style : ChartStyle) (r : Nat) (t : Trie) (d : Drawing) :
    visit style r t d = match d.roots t with
      | some rs =>
        if rs.contains r then d
        else visitEdges style r none t.edges (d.reach t.id (r :: rs))
      | none =>
        visitEdges style r (some t.id) t.edges
          ((d.reach t.id [r]).item (.node t.id t.terminal)) := by
  cases t
  rw [visit]
  rfl

theorem visitEdges_cons (style : ChartStyle) (r : Nat) (source : Option Nat) (e : Edge Trie)
    (es : List (Edge Trie)) (d : Drawing) :
    visitEdges style r source (e :: es) d =
      if isHidden style e.child then visitEdges style r source es d
      else visitEdges style r source es (visit style r e.child (d.lead source e)) := by
  obtain ⟨b, k, t⟩ := e
  cases source <;> rw [visitEdges] <;> rfl

theorem shownEdges_cons (style : ChartStyle) (e : Edge Trie) (es : List (Edge Trie)) :
    shownEdges style (e :: es) =
      if isHidden style e.child then shownEdges style es else e :: shownEdges style es := by
  rw [shownEdges, List.filter_cons]
  cases isHidden style e.child <;> rfl

theorem topItems_nil (style : ChartStyle) (source : Option Nat) (u : Trie) :
    topItems style source u [] = [] := by
  rw [topItems]
  split <;> rfl

theorem topItems_cons_of_hidden {e : Edge Trie} (h : isHidden style e.child = true)
    (source : Option Nat) (u : Trie) (es : List (Edge Trie)) :
    topItems style source u (e :: es) = topItems style source u es := by
  rw [topItems, topItems, edgeItems, edgeItems, shownEdges_cons, if_pos h]

theorem topItems_cons_of_shown {e : Edge Trie} (h : isHidden style e.child = false)
    (source : Option Nat) (u : Trie) (es : List (Edge Trie)) : topItems style source u (e :: es) =
      (if source = some u.id then [.edge u.id e.child.id e.key] else []) ++
        topItems style source u es := by
  rw [topItems, topItems, edgeItems, edgeItems, shownEdges_cons, if_neg (Bool.eq_false_iff.mp h)]
  split <;> rfl

theorem gains_lead (source : Option Nat) (e : Edge Trie) : Gains style r u False
    (if source = some u.id then [.edge u.id e.child.id e.key] else []) d (d.lead source e) := by
  have hroots : (d.lead source e).roots u = d.roots u := by
    cases source <;> rfl
  refine ⟨False.elim, fun _ => hroots, False.elim, fun _ => ?_⟩
  cases source with
  | none => simp [lead]
  | some i =>
    rw [lead, items_item]
    by_cases hi : i = u.id
    · subst hi
      simp [ChartItem.owner]
    · simp [ChartItem.owner, hi]

section

variable {P : Pool} {t : Trie} {e : Edge Trie} {es : List (Edge Trie)}

theorem isShownAlong_cons_of_hidden (h : isHidden style e.child = true) :
    u.IsShownAlong style (e :: es) ↔ u.IsShownAlong style es := by
  simp [IsShownAlong, h]

theorem isShownAlong_cons_of_shown (h : isHidden style e.child = false) :
    u.IsShownAlong style (e :: es) ↔ u.IsShown style e.child ∨ u.IsShownAlong style es := by
  simp [IsShownAlong, h]

/-- What is marked on the way is marked as far as it is shown. -/
theorem MarkedBelow.later {f : Edge Trie} {top : Trie → List ChartItem} (hf : f.child ∈ P)
    (h : MarkedBelow style r f.child d)
    (hgains : ∀ u ∈ P, Gains style r u (u.IsShown style e.child) (top u) d d₁) :
    MarkedBelow style r f.child d₁ := by
  intro v hv hmark u hu
  have hvP : v ∈ P := mem_of_isNode hv.isNode hf
  have huP : u ∈ P := mem_of_isNode hu.isNode hvP
  rw [(hgains v hvP).isMarked_iff] at hmark
  rw [(hgains u huP).isMarked_iff]
  rcases hmark with hmark | hmark
  · exact Or.inl (h v hv hmark u hu)
  · exact Or.inr (hu.trans hmark)

/-- Below a node, what was marked before is marked as far as it is shown. -/
theorem MarkedBelow.child (ht : t ∈ P) (h : MarkedBelow style r t d)
    (hroots : ∀ u ∈ P, u ≠ t → d₁.roots u = d.roots u) (he : e ∈ t.edges)
    (hshown : isHidden style e.child = false) : MarkedBelow style r e.child d₁ := by
  have hne : ∀ u : Trie, u.IsShown style e.child → u ∈ P ∧ u ≠ t := by
    intro u hu
    refine ⟨mem_of_isNode hu.isNode (P.child_mem t ht e he), ?_⟩
    rintro rfl
    exact not_isNode_child he hu.isNode
  intro v hv hmark u hu
  obtain ⟨hvP, hvt⟩ := hne v hv
  obtain ⟨huP, hut⟩ := hne u (hu.trans hv)
  rw [IsMarked, hroots v hvP hvt] at hmark
  rw [IsMarked, hroots u huP hut]
  exact h v (.inside he hshown hv) hmark u hu

/-- Edge by edge, the child is visited after the edge is drawn. -/
theorem gains_visitEdges (source : Option Nat) (hes : ∀ e ∈ es, e.child ∈ P)
    (hsource : ∀ u ∈ P, source = some u.id → d.roots u ≠ none)
    (hbelow : ∀ e ∈ es, isHidden style e.child = false → MarkedBelow style r e.child d)
    (ih : ∀ e ∈ es, isHidden style e.child = false → ∀ d, MarkedBelow style r e.child d →
      ∀ u ∈ P, Gains style r u (u.IsShown style e.child) [] d (visit style r e.child d)) :
    ∀ u ∈ P, Gains style r u (u.IsShownAlong style es) (topItems style source u es) d
      (visitEdges style r source es d) := by
  induction es generalizing d with
  | nil =>
    intro u _
    have hself : visitEdges style r source [] d = d := by
      cases source <;> rfl
    rw [hself, topItems_nil]
    refine gains_self.congr (iff_of_false id ?_) rfl
    rintro ⟨e, he, -⟩
    exact List.not_mem_nil he
  | cons e es ihes =>
    rw [visitEdges_cons]
    cases hhidden : isHidden style e.child with
    | true =>
      intro u hu
      rw [if_pos rfl, topItems_cons_of_hidden hhidden]
      refine (ihes (fun f hf => hes f (List.mem_cons_of_mem e hf)) hsource
        (fun f hf => hbelow f (List.mem_cons_of_mem e hf))
        (fun f hf => ih f (List.mem_cons_of_mem e hf)) u hu).congr ?_ rfl
      exact (isShownAlong_cons_of_hidden hhidden).symm
    | false =>
      rw [if_neg Bool.false_ne_true]
      have hlead : MarkedBelow style r e.child (d.lead source e) := by
        cases source with
        | none => exact hbelow e List.mem_cons_self hhidden
        | some i => exact hbelow e List.mem_cons_self hhidden
      have hfirst : ∀ u ∈ P, Gains style r u (u.IsShown style e.child)
          (if source = some u.id then [.edge u.id e.child.id e.key] else []) d
          (visit style r e.child (d.lead source e)) := fun u hu =>
        ((gains_lead source e).trans (ih e List.mem_cons_self hhidden _ hlead u hu)
          fun h => absurd rfl h).congr (Iff.of_eq (false_or _)) (List.append_nil _)
      have hrest := ihes (fun f hf => hes f (List.mem_cons_of_mem e hf))
        (fun u hu h => (hfirst u hu).roots_ne_none (hsource u hu h))
        (fun f hf hf' => (hbelow f (List.mem_cons_of_mem e hf) hf').later
          (hes f (List.mem_cons_of_mem e hf)) hfirst)
        (fun f hf => ih f (List.mem_cons_of_mem e hf))
      intro u hu
      refine ((hfirst u hu).trans (hrest u hu) fun htop => ?_).congr
        (isShownAlong_cons_of_shown hhidden).symm (topItems_cons_of_shown hhidden source u es).symm
      refine hsource u hu ?_
      by_contra hne
      exact htop (if_neg hne)

/-- A node that is marked now, from which the walk goes on. -/
theorem gains_below {source : Option Nat} (ht : t ∈ P) (h : MarkedBelow style r t d)
    (hmark : d₁.roots t = some (addRoot r (d.roots t)))
    (hroots : ∀ u ∈ P, u ≠ t → d₁.roots u = d.roots u)
    (hitems : ∀ u ∈ P, u ≠ t → d₁.items u = d.items u)
    (hsource : ∀ i, source = some i → i = t.id)
    (htop : d₁.items t ++ topItems style source t t.edges =
      d.items t ++ if d.roots t = none then nodeItems style t else [])
    (ih : ∀ e ∈ t.edges, isHidden style e.child = false → ∀ d, MarkedBelow style r e.child d →
      ∀ u ∈ P, Gains style r u (u.IsShown style e.child) [] d (visit style r e.child d)) :
    ∀ u ∈ P, Gains style r u (u.IsShown style t) [] d (visitEdges style r source t.edges d₁) := by
  have hsome : d₁.roots t ≠ none := by
    rw [hmark]
    exact Option.some_ne_none _
  have hsource' : ∀ u ∈ P, source = some u.id → u = t := fun u hu hid =>
    P.eq_of_id_eq u hu t ht (hsource u.id hid)
  have hedges := gains_visitEdges source (P.child_mem t ht)
    (fun u hu hid => hsource' u hu hid ▸ hsome) (fun e he hshown => h.child ht hroots he hshown) ih
  intro u hu
  by_cases hut : u = t
  · subst hut
    have hgains := hedges u hu
    have hlisted := hgains.listed fun h => not_isShownAlong_self h.1
    rw [htop] at hlisted
    refine ⟨fun _ => ?_, fun hn => absurd .root hn, fun _ hnone => ?_, fun hn => ?_⟩
    · rw [hgains.kept not_isShownAlong_self, hmark]
    · rw [hlisted, if_pos hnone, List.append_nil]
    · rw [hlisted, if_neg fun hnone => hn ⟨.root, hnone⟩]
  · refine ((hedges u hu).of_eq (hroots u hu hut) (hitems u hu hut)).congr ?_ ?_
    · rw [isShown_iff, or_iff_right hut]
    · exact if_neg fun hid => hut (hsource' u hu hid)

/-- The walk from a node: nothing to do if the root has marked it, else it is marked, and drawn unless
another root has marked it. -/
theorem gains_visit (ht : t ∈ P) (h : MarkedBelow style r t d) :
    ∀ u ∈ P, Gains style r u (u.IsShown style t) [] d (visit style r t d) := by
  induction t using nodeInduction generalizing d with
  | node t ih =>
    have hbelow : ∀ e ∈ t.edges, isHidden style e.child = false → ∀ d,
        MarkedBelow style r e.child d → ∀ u ∈ P,
          Gains style r u (u.IsShown style e.child) [] d (visit style r e.child d) :=
      fun e he _ d hd => ih e he (P.child_mem t ht e he) hd
    have hid : ∀ u ∈ P, u ≠ t → t.id ≠ u.id := fun u hu hne hid =>
      hne (P.eq_of_id_eq u hu t ht hid.symm)
    rw [visit_eq]
    cases hcase : d.roots t with
    | none =>
      refine gains_below ht h ?_ (fun u hu hne => ?_) (fun u hu hne => ?_)
        (fun i hi => (Option.some.inj hi).symm) ?_ hbelow
      · rw [hcase]
        exact (roots_reach _ _ _ _).trans (if_pos rfl)
      · exact (roots_reach _ _ _ _).trans (if_neg (hid u hu hne))
      · rw [items_item, ChartItem.owner, if_neg (hid u hu hne), List.append_nil]
        rfl
      · rw [items_item, ChartItem.owner, if_pos rfl, if_pos hcase, topItems, if_pos rfl,
          List.append_assoc]
        rfl
    | some rs =>
      by_cases hr : rs.contains r = true
      · -- what is shown below is marked, so there is nothing to do
        intro u _
        have hmarked : u.IsShown style t → d.IsMarked r u :=
          h t .root ⟨rs, hcase, List.contains_iff_mem.mp hr⟩ u
        refine ⟨fun hu => ?_, fun _ => ?_, fun hu hnone => ?_, fun _ => ?_⟩
        · obtain ⟨us, hus, hmem⟩ := hmarked hu
          simp only [hr, if_true]
          rw [hus, addRoot_of_mem hmem]
        · simp only [hr, if_true]
        · obtain ⟨us, hus, -⟩ := hmarked hu
          rw [hus] at hnone
          cases hnone
        · simp only [hr, if_true, List.append_nil]
      · have hadd : addRoot r (d.roots t) = r :: rs := by
          rw [hcase, addRoot, if_neg hr]
        simp only [hr, if_false, Bool.false_eq_true]
        refine gains_below ht h ?_ (fun u hu hne => ?_) (fun u hu hne => rfl)
          (fun i hi => absurd hi.symm (Option.some_ne_none i)) ?_ hbelow
        · rw [hadd]
          exact (roots_reach _ _ _ _).trans (if_pos rfl)
        · exact (roots_reach _ _ _ _).trans (if_neg (hid u hu hne))
        · rw [topItems, if_neg (Option.some_ne_none _).symm, hcase, if_neg (Option.some_ne_none rs)]
          rfl

end

/-! ## Owners -/

theorem owner_visitEdges (source : Option Nat) (es : List (Edge Trie)) (d : Drawing)
    (ih : ∀ e ∈ es, ∀ d, ∀ i ∈ (visit style r e.child d).itemsRev,
      i ∈ d.itemsRev ∨ ∃ u : Trie, u.IsShown style e.child ∧ i.owner = u.id) :
    ∀ i ∈ (visitEdges style r source es d).itemsRev, i ∈ d.itemsRev ∨ source = some i.owner ∨
      ∃ u : Trie, u.IsShownAlong style es ∧ i.owner = u.id := by
  induction es generalizing d with
  | nil =>
    have hself : visitEdges style r source [] d = d := by
      cases source <;> rfl
    rw [hself]
    exact fun i hi => Or.inl hi
  | cons e es ihes =>
    intro i hi
    rw [visitEdges_cons] at hi
    cases hhidden : isHidden style e.child with
    | true =>
      rw [if_pos hhidden] at hi
      simp only [isShownAlong_cons_of_hidden hhidden]
      exact ihes d (fun f hf => ih f (List.mem_cons_of_mem e hf)) i hi
    | false =>
      rw [if_neg (Bool.eq_false_iff.mp hhidden)] at hi
      simp only [isShownAlong_cons_of_shown hhidden]
      rcases ihes _ (fun f hf => ih f (List.mem_cons_of_mem e hf)) i hi with hi | hi | ⟨u, hu, hid⟩
      · rcases ih e List.mem_cons_self _ i hi with hi | ⟨u, hu, hid⟩
        · cases source with
          | none => exact Or.inl hi
          | some j =>
            rcases List.mem_cons.mp hi with rfl | hi
            · exact Or.inr (Or.inl rfl)
            · exact Or.inl hi
        · exact Or.inr (Or.inr ⟨u, Or.inl hu, hid⟩)
      · exact Or.inr (Or.inl hi)
      · exact Or.inr (Or.inr ⟨u, Or.inr hu, hid⟩)

/-- Every item that a walk adds is one of a node that it reaches. -/
theorem owner_visit (t : Trie) (d : Drawing) : ∀ i ∈ (visit style r t d).itemsRev,
    i ∈ d.itemsRev ∨ ∃ u : Trie, u.IsShown style t ∧ i.owner = u.id := by
  induction t using nodeInduction generalizing d with
  | node t ih =>
    intro i hi
    rw [visit_eq] at hi
    have hedges := fun source d₁ => @owner_visitEdges style r source t.edges d₁ ih
    cases hcase : d.roots t with
    | none =>
      simp only [hcase] at hi
      rcases hedges _ _ i hi with hi | hid | ⟨u, hu, hid⟩
      · rcases List.mem_cons.mp hi with rfl | hi
        · exact Or.inr ⟨t, .root, rfl⟩
        · exact Or.inl hi
      · exact Or.inr ⟨t, .root, (Option.some.inj hid).symm⟩
      · exact Or.inr ⟨u, isShown_iff.mpr (Or.inr hu), hid⟩
    | some rs =>
      simp only [hcase] at hi
      split at hi
      · exact Or.inl hi
      · rcases hedges _ _ i hi with hi | hid | ⟨u, hu, hid⟩
        · exact Or.inl hi
        · cases hid
        · exact Or.inr ⟨u, isShown_iff.mpr (Or.inr hu), hid⟩

end Drawing

/-! ## Root by root -/

/-- `u` is reached from one of the tries. -/
def IsReached (style : ChartStyle) (ts : List Trie) (u : Trie) : Prop :=
  ∃ t ∈ ts, u.IsShown style t

namespace Drawing

/-- The drawing of all tries. -/
def ofTries (style : ChartStyle) (ts : List Trie) : Drawing :=
  ts.zipIdx.foldl (fun d x => visit style x.2 x.1 d) empty

/-- The nodes that are reached are drawn once, and marked by the roots that reach them. -/
structure Shows (style : ChartStyle) (P : Pool) (ts : List Trie) (d : Drawing) : Prop where
  mem_roots : ∀ u ∈ P, ∀ k, k ∈ (d.roots u).getD [] ↔ ∃ t, ts[k]? = some t ∧ u.IsShown style t
  nodup_roots : ∀ u ∈ P, ((d.roots u).getD []).Nodup
  roots_eq_none : ∀ u ∈ P, d.roots u = none ↔ ¬ IsReached style ts u
  items_of_reached : ∀ u ∈ P, IsReached style ts u → d.items u = nodeItems style u
  items_of_not : ∀ u ∈ P, ¬ IsReached style ts u → d.items u = []
  owned : ∀ i ∈ d.itemsRev, ∃ u, IsReached style ts u ∧ i.owner = u.id

theorem ofTries_append (style : ChartStyle) (ts : List Trie) (t : Trie) :
    ofTries style (ts ++ [t]) = visit style ts.length t (ofTries style ts) := by
  rw [ofTries, List.zipIdx_append, List.foldl_append]
  simp [ofTries]

theorem isReached_append {ts : List Trie} {t : Trie} :
    IsReached style (ts ++ [t]) u ↔ IsReached style ts u ∨ u.IsShown style t := by
  simp [IsReached, or_and_right, exists_or]

theorem exists_getElem?_append {α : Type} (p : α → Prop) (xs : List α) (x : α) (k : Nat) :
    (∃ y, (xs ++ [x])[k]? = some y ∧ p y) ↔
      (∃ y, xs[k]? = some y ∧ p y) ∨ (k = xs.length ∧ p x) := by
  rcases Nat.lt_trichotomy k xs.length with hk | rfl | hk
  · rw [List.getElem?_append_left hk]
    simp [Nat.ne_of_lt hk]
  · simp
  · rw [List.getElem?_eq_none (by simpa using hk), List.getElem?_eq_none (Nat.le_of_lt hk)]
    simp [Nat.ne_of_gt hk]

theorem shows_empty (style : ChartStyle) (P : Pool) : empty.Shows style P [] := by
  have hroots : ∀ u, empty.roots u = none := fun u => Std.HashMap.getElem?_empty
  have hnone : ∀ u, ¬ IsReached style [] u := by
    rintro u ⟨t, ht, -⟩
    exact List.not_mem_nil ht
  refine ⟨fun u _ k => ?_, fun u _ => ?_, fun u _ => ?_, fun u _ hu => absurd hu (hnone u),
    fun _ _ _ => rfl, fun i hi => absurd hi List.not_mem_nil⟩
  · rw [hroots]
    simp
  · rw [hroots]
    exact List.nodup_nil
  · exact iff_of_true (hroots u) (hnone u)

/-- No root before has the number of the next one, so its walk finds nothing that it has marked. -/
theorem Shows.visit {P : Pool} {ts : List Trie} {t : Trie} (h : d.Shows style P ts) (ht : t ∈ P) :
    (visit style ts.length t d).Shows style P (ts ++ [t]) := by
  have hbelow : MarkedBelow style ts.length t d := by
    rintro v hv ⟨rs, hrs, hmem⟩
    have hk := (h.mem_roots v (mem_of_isNode hv.isNode ht) ts.length).mp (hrs ▸ hmem)
    simp at hk
  have hgains := gains_visit ht hbelow
  refine ⟨fun u hu k => ?mem, fun u hu => ?nodup, fun u hu => ?none, fun u hu hreach => ?items,
    fun u hu hnot => ?empty, fun i hi => ?owned⟩
  case mem =>
    rw [exists_getElem?_append, ← h.mem_roots u hu]
    by_cases hshown : u.IsShown style t
    · rw [(hgains u hu).marked hshown, Option.getD_some, mem_addRoot, or_comm,
        and_iff_left hshown]
    · rw [(hgains u hu).kept hshown]
      simp [hshown]
  case nodup =>
    by_cases hshown : u.IsShown style t
    · rw [(hgains u hu).marked hshown]
      exact nodup_addRoot (h.nodup_roots u hu)
    · rw [(hgains u hu).kept hshown]
      exact h.nodup_roots u hu
  case none =>
    rw [isReached_append, not_or, ← h.roots_eq_none u hu]
    by_cases hshown : u.IsShown style t
    · rw [(hgains u hu).marked hshown]
      simp [hshown]
    · rw [(hgains u hu).kept hshown, and_iff_left hshown]
  case items =>
    by_cases hold : IsReached style ts u
    · have hsome : d.roots u ≠ none := fun hnone => (h.roots_eq_none u hu).mp hnone hold
      rw [(hgains u hu).listed fun hn => hsome hn.2, h.items_of_reached u hu hold, List.append_nil]
    · have hshown := (isReached_append.mp hreach).resolve_left hold
      rw [(hgains u hu).drawn hshown ((h.roots_eq_none u hu).mpr hold), h.items_of_not u hu hold]
      rfl
  case empty =>
    rw [isReached_append, not_or] at hnot
    rw [(hgains u hu).listed fun hn => hnot.2 hn.1, h.items_of_not u hu hnot.1, List.append_nil]
  case owned =>
    rcases owner_visit t d i hi with hi | ⟨u, hu, hid⟩
    · obtain ⟨u, hu, hid⟩ := h.owned i hi
      exact ⟨u, isReached_append.mpr (Or.inl hu), hid⟩
    · exact ⟨u, isReached_append.mpr (Or.inr hu), hid⟩

theorem shows_ofTries {P : Pool} (style : ChartStyle) {ts : List Trie} (hts : ∀ t ∈ ts, t ∈ P) :
    (ofTries style ts).Shows style P ts := by
  induction ts using List.reverseRecOn with
  | nil => exact shows_empty style P
  | append_singleton ts t ih =>
    rw [List.forall_mem_append, List.forall_mem_singleton] at hts
    rw [ofTries_append]
    exact (ih hts.1).visit hts.2

end Drawing

/-! ## The chart -/

namespace Chart

/-- The line that draws a node. -/
def nodeLine (name : Nat → Nat) (i : Nat) (t : Bool) : String :=
  s!"g{name i}@" ++ Listing.openBrace ++ " shape: rect, label: " ++
    Quoted.encode (if t then "T" else "N") ++ Listing.closeBrace ++ "\n"

/-- The line that gives a node its colour. -/
def styleLine (name : Nat → Nat) (i : Nat) (roots : List Nat) : String :=
  s!"style g{name i} fill:{colour roots}\n"

theorem itemText_node (style : ChartStyle) (c : Chart) (name : Nat → Nat) (i : Nat) (t : Bool) :
    itemText style c name (.node i t) =
      if 1 < (c.reachedBy.getD i []).length
      then nodeLine name i t ++ styleLine name i (c.reachedBy.getD i [])
      else nodeLine name i t := rfl

/-- `u` is reached from at least two of the tries, the same trie counting as often as it is given. -/
def IsShared (style : ChartStyle) (ts : List Trie) (u : Trie) : Prop :=
  ∃ j k : Nat, (∃ t, ts[j]? = some t ∧ u.IsShown style t) ∧
    (∃ t, ts[k]? = some t ∧ u.IsShown style t) ∧ j ≠ k

/-- What a chart has of the nodes that are reached. -/
structure Shows (style : ChartStyle) (ts : List Trie) (c : Chart) : Prop where
  /-- There is one node for an id. -/
  unique : ∀ u v, IsReached style ts u → IsReached style ts v → u.id = v.id → u = v
  /-- Of the items of a node the first one draws it, and the others draw its edges. -/
  drawn : ∀ u, IsReached style ts u →
    (c.items.filter fun i => i.owner == u.id) = Drawing.nodeItems style u
  ascending : ∀ u, IsReached style ts u →
    (Drawing.shownEdges style u.edges).Pairwise fun e f => e.first < f.first
  owned : ∀ i ∈ c.items, ∃ u, IsReached style ts u ∧ i.owner = u.id
  marked : ∀ u, IsReached style ts u → ∀ k,
    k ∈ c.reachedBy.getD u.id [] ↔ ∃ t, ts[k]? = some t ∧ u.IsShown style t
  styled : ∀ u, IsReached style ts u → ∀ name, IsShared style ts u →
    itemText style c name (.node u.id u.terminal) =
      nodeLine name u.id u.terminal ++ styleLine name u.id (c.reachedBy.getD u.id [])
  plain : ∀ u, IsReached style ts u → ∀ name, ¬ IsShared style ts u →
    itemText style c name (.node u.id u.terminal) = nodeLine name u.id u.terminal

theorem shows_ofTries {P : Pool} (style : ChartStyle) {ts : List Trie} (hts : ∀ t ∈ ts, t ∈ P) :
    (ofTries style ts).Shows style (ts.take maxRoots) := by
  have htake : ∀ t ∈ ts.take maxRoots, t ∈ P := fun t ht => hts t (List.mem_of_mem_take ht)
  have hshows := Drawing.shows_ofTries style htake
  have hP : ∀ u, IsReached style (ts.take maxRoots) u → u ∈ P := by
    rintro u ⟨t, ht, hu⟩
    exact mem_of_isNode hu.isNode (htake t ht)
  have hroots : ∀ u, (ofTries style ts).reachedBy.getD u.id [] =
      ((Drawing.ofTries style (ts.take maxRoots)).roots u).getD [] := fun u =>
    Std.HashMap.getD_eq_getD_getElem?
  have hmarked : ∀ u, IsReached style (ts.take maxRoots) u → ∀ k,
      k ∈ (ofTries style ts).reachedBy.getD u.id [] ↔
        ∃ t, (ts.take maxRoots)[k]? = some t ∧ u.IsShown style t := by
    intro u hu k
    rw [hroots]
    exact hshows.mem_roots u (hP u hu) k
  have hshared : ∀ u, IsReached style (ts.take maxRoots) u →
      (1 < ((ofTries style ts).reachedBy.getD u.id []).length ↔
        IsShared style (ts.take maxRoots) u) := by
    intro u hu
    have hnodup : ((ofTries style ts).reachedBy.getD u.id []).Nodup := by
      rw [hroots]
      exact hshows.nodup_roots u (hP u hu)
    rw [← List.toFinset_card_of_nodup hnodup, Finset.one_lt_card_iff]
    simp only [List.mem_toFinset, hmarked u hu]
    exact Iff.rfl
  refine ⟨fun u v hu hv hid => ?unique, fun u hu => ?drawn, fun u hu => ?ascending,
    fun i hi => ?owned, hmarked, fun u hu name hs => ?styled, fun u hu name hs => ?plain⟩
  case unique => exact P.eq_of_id_eq u (hP u hu) v (hP v hv) hid
  case drawn => exact hshows.items_of_reached u (hP u hu) hu
  case ascending => exact (P.tidy u (hP u hu)).ascending.filter _
  case owned => exact hshows.owned i (List.mem_reverse.mp hi)
  case styled => rw [itemText_node, if_pos ((hshared u hu).mpr hs)]
  case plain => rw [itemText_node, if_neg (mt (hshared u hu).mp hs)]

end Chart

namespace Session

/-- The chart of sets of a session draws each node that one of the first 64 reaches once, with its
edges, and tells for each node which of them reach it. -/
theorem chart_shows {hash : HashFunction} {σ : Session} (h : Reachable hash σ)
    (hc : CollisionFree hash σ.interned) (style : ChartStyle) {ts : List Trie}
    (hts : ∀ t ∈ ts, t ∈ σ.sets) :
    (Chart.ofTries style ts).Shows style (ts.take Chart.maxRoots) := by
  obtain ⟨P, hP⟩ := h.exists_pool hc
  exact Chart.shows_ofTries style fun t ht => hP.sets t (hts t ht)

/-- A set that is given twice has a coloured root, which is drawn once. -/
theorem chart_shows_branching :
    (((Chart.ofTries .default [branchingSet, branchingSet]).items.filter fun i =>
        i.owner == branchingSet.id) = Drawing.nodeItems .default branchingSet) ∧
    ∀ name, Chart.itemText .default (Chart.ofTries .default [branchingSet, branchingSet]) name
        (.node branchingSet.id branchingSet.terminal) =
      Chart.nodeLine name branchingSet.id branchingSet.terminal ++
        Chart.styleLine name branchingSet.id
          ((Chart.ofTries .default [branchingSet, branchingSet]).reachedBy.getD
            branchingSet.id []) := by
  have hts : ∀ t ∈ [branchingSet, branchingSet], t ∈ branching.sets :=
    List.forall_mem_cons.mpr ⟨branchingSet_mem, List.forall_mem_singleton.mpr branchingSet_mem⟩
  have hshows := chart_shows (branching_reachable Blake3.hash) (branching_collisionFree _)
    .default hts
  have hreach : IsReached .default ([branchingSet, branchingSet].take Chart.maxRoots)
      branchingSet := ⟨branchingSet, List.mem_cons_self, .root⟩
  refine ⟨hshows.drawn _ hreach, fun name => hshows.styled _ hreach name ?_⟩
  exact ⟨0, 1, ⟨branchingSet, rfl, .root⟩, ⟨branchingSet, rfl, .root⟩, Nat.zero_ne_one⟩

end Session

end ByteTrie
