import ByteTrie.Cursor.Move
import ByteTrie.Proofs.Pool
import Mathlib

/-!
# Cursors stay in the pool

A cursor holds the root of its snapshot, the node of its focus and the nodes above it, and it moves by
going from these to their children or back to them.  So all that it ever holds are nodes of the pool,
and what it cuts out below its focus is a set of the pool.
-/

namespace ByteTrie

open Trie Pool

variable {P Q : Pool}

theorem Trie.edgeAt?_eq_some {t : Trie} {b : UInt8} {i : Nat} {e : Edge Trie}
    (h : t.edgeAt? b = some (i, e)) : t.mask.contains b = true ∧ i = t.mask.rank b ∧
      t.edges[i]? = some e := by
  unfold edgeAt? at h
  split at h
  · next hb =>
    obtain ⟨f, hf, heq⟩ := Option.map_eq_some_iff.mp h
    cases heq
    exact ⟨hb, rfl, hf⟩
  · cases h

/-- A cursor that holds nodes of the pool only. -/
structure Cursor.In (c : Cursor) (P : Pool) : Prop where
  root : c.root ∈ P
  node : c.node ∈ P
  ancestors : ∀ a ∈ c.ancestors, a.1 ∈ P

namespace Cursor

variable {c c' : Cursor}

theorem In.mono (h : c.In P) (hPQ : P ≤ Q) : c.In Q :=
  ⟨hPQ.2 _ h.root, hPQ.2 _ h.node, fun a ha => hPQ.2 _ (h.ancestors a ha)⟩

theorem in_ofTrie {t : Trie} (ht : t ∈ P) : (ofTrie t).In P :=
  ⟨ht, ht, fun _ h => absurd h List.not_mem_nil⟩

theorem mem_edges_of_focusEdge? {i : Nat} {e : Edge Trie} (h : c.focusEdge? = some (i, e)) :
    e ∈ c.node.edges := by
  obtain ⟨b, -, he⟩ := Option.bind_eq_some_iff.mp h
  exact List.mem_of_getElem? (edgeAt?_eq_some he).2.2

/-! ## Down -/

theorem In.enterChild (h : c.In P) (i : Nat) {e : Edge Trie} (he : e.child ∈ P) :
    (c.enterChild i e).In P := by
  refine ⟨h.root, he, fun a ha => ?_⟩
  rcases List.mem_cons.mp ha with rfl | ha
  · exact h.node
  · exact h.ancestors a ha

theorem In.along (h : c.In P) (b : UInt8) (i : Nat) {e : Edge Trie} (he : e.child ∈ P) :
    (c.along b i e).In P := by
  have hpush : ({ c with bytes := c.bytes.push b } : Cursor).In P := ⟨h.root, h.node, h.ancestors⟩
  unfold Cursor.along
  dsimp only
  split
  · exact hpush.enterChild i he
  · exact hpush

theorem mem_edges_of_edgeBy? {b : UInt8} {i : Nat} {e : Edge Trie}
    (h : c.edgeBy? b = some (i, e)) : e ∈ c.node.edges := by
  unfold edgeBy? at h
  split at h
  · next j f hf =>
    split at h
    · cases h
      exact mem_edges_of_focusEdge? hf
    · cases h
  · exact List.mem_of_getElem? (edgeAt?_eq_some h).2.2

theorem In.descendByte (h : c.In P) {b : UInt8} (hc : c.descendByte? b = some c') : c'.In P := by
  obtain ⟨⟨i, e⟩, he, rfl⟩ := Option.map_eq_some_iff.mp hc
  exact h.along b i (P.child_mem c.node h.node e (mem_edges_of_edgeBy? he))

theorem In.descendIndex (h : c.In P) {i : Nat} (hc : c.descendIndex? i = some c') : c'.In P := by
  obtain ⟨b, -, hc⟩ := Option.bind_eq_some_iff.mp hc
  exact h.descendByte hc

/-! ## Up -/

theorem In.popTo {n : Nat} {ss : List Nat} (h : c.In P) (hc : popTo? n ss c = some c') :
    c'.In P := by
  induction ss generalizing c with
  | nil =>
    cases hc
    exact h
  | cons s ss ih =>
    rw [popTo?] at hc
    split at hc
    · cases hc
      exact h
    · split at hc
      · cases hc
      · next t i above habove =>
        have ht : t ∈ P := h.ancestors (t, i) (habove ▸ List.mem_cons_self)
        have hrest : ∀ a ∈ above, a.1 ∈ P := fun a ha =>
          h.ancestors a (habove ▸ List.mem_cons_of_mem (t, i) ha)
        exact ih (c := { c with node := t, starts := ss, ancestors := above })
          ⟨h.root, ht, hrest⟩ hc

theorem In.ascendTo (h : c.In P) (n : Nat) : (c.ascendTo n).In P := by
  unfold Cursor.ascendTo
  cases hc : c.ascendTo? n with
  | none => exact h
  | some c' =>
    obtain ⟨d, hd, rfl⟩ := Option.map_eq_some_iff.mp hc
    have hpop := h.popTo hd
    exact ⟨hpop.root, hpop.node, hpop.ancestors⟩

theorem In.ascend (h : c.In P) (n : Nat) : (c.ascend n).2.In P := by
  unfold Cursor.ascend
  split
  · exact h.ascendTo _
  · exact h

theorem In.descendOr (h : c.In P) (n : Nat) (p : Path) : (descendOr n p c).2.In P := by
  induction p generalizing c with
  | nil => exact h
  | cons b p ih =>
    rw [Cursor.descendOr]
    split
    · next d hd => exact ih (h.descendByte hd)
    · exact h.ascendTo n

theorem In.orStay {o : Option Cursor} (h : c.In P) (ho : ∀ c', o = some c' → c'.In P) :
    (c.orStay o).2.In P := by
  cases o with
  | none => exact h
  | some c' => exact ho c' rfl

/-! ## Sideways, forward -/

theorem In.sibling (h : c.In P) (choose : ByteMask → UInt8 → Option UInt8) :
    (c.sibling choose).2.In P := by
  unfold Cursor.sibling
  split
  · exact h
  · exact (h.ascendTo _).orStay fun c' hc => (h.ascendTo _).descendByte hc

theorem In.follow (h : c.In P) (i : Nat) {e : Edge Trie} (he : e.child ∈ P) :
    (c.follow i e).In P := by
  have hbytes : ({ c with bytes := c.bytes ++ e.key.drop c.keyLength } : Cursor).In P :=
    ⟨h.root, h.node, h.ancestors⟩
  exact hbytes.enterChild i he

theorem In.firstMember {t : Trie} (h : c.In P) (ht : t ∈ P) (hc : firstMember? t c = some c') :
    c'.In P := by
  induction t using nodeInduction generalizing c with
  | node t ih =>
    match t, ht, ih, hc with
    | .node _ true _ _ _, _, _, hc =>
      rw [firstMember?] at hc
      cases hc
      exact h
    | .node _ false _ _ [], _, _, hc =>
      rw [firstMember?] at hc
      cases hc
    | .node _ false _ _ (⟨b, k, u⟩ :: es), ht, ih, hc =>
      rw [firstMember?] at hc
      have hu := P.child_mem _ ht ⟨b, k, u⟩ List.mem_cons_self
      exact ih ⟨b, k, u⟩ List.mem_cons_self (h.follow 0 hu) hu hc

theorem In.firstAlong {o : Option (Nat × Edge Trie)} (h : c.In P)
    (ho : ∀ i e, o = some (i, e) → e ∈ c.node.edges) (hc : c.firstAlong? o = some c') :
    c'.In P := by
  cases o with
  | none => cases hc
  | some a =>
    have hchild := P.child_mem _ h.node a.2 (ho a.1 a.2 rfl)
    exact (h.follow a.1 hchild).firstMember hchild hc

theorem In.firstAfter {above : List (Trie × Nat)} (h : c.In P) (habove : ∀ a ∈ above, a.1 ∈ P)
    (hc : firstAfter? above c = some c') : c'.In P := by
  induction above generalizing c with
  | nil => cases hc
  | cons a above ih =>
    obtain ⟨t, i⟩ := a
    have hrest := fun a ha => habove a (List.mem_cons_of_mem (t, i) ha)
    have hpop : (c.pop t above).In P := ⟨h.root, habove (t, i) List.mem_cons_self, hrest⟩
    rw [firstAfter?, Option.orElse_eq_orElse, Option.orElse_eq_or] at hc
    rcases Option.or_eq_some_iff.mp hc with hc | ⟨-, hc⟩
    · refine hpop.firstAlong (fun j e he => ?_) hc
      obtain ⟨f, hf, heq⟩ := Option.map_eq_some_iff.mp he
      cases heq
      exact List.mem_of_getElem? hf
    · exact ih hpop hrest hc

theorem mem_edges_of_edgeAhead? {i : Nat} {e : Edge Trie} (h : c.edgeAhead? = some (i, e)) :
    e ∈ c.node.edges := by
  unfold edgeAhead? at h
  rw [Option.orElse_eq_orElse, Option.orElse_eq_or] at h
  rcases Option.or_eq_some_iff.mp h with h | ⟨-, h⟩
  · exact mem_edges_of_focusEdge? h
  · obtain ⟨f, hf, heq⟩ := Option.map_eq_some_iff.mp h
    cases heq
    exact List.mem_of_head? hf

theorem In.nextMember (h : c.In P) (hc : c.nextMember? = some c') : c'.In P := by
  unfold nextMember? at hc
  rw [Option.orElse_eq_orElse, Option.orElse_eq_or] at hc
  rcases Option.or_eq_some_iff.mp hc with hc | ⟨-, hc⟩
  · exact h.firstAlong (fun i e he => mem_edges_of_edgeAhead? he) hc
  · exact h.firstAfter h.ancestors hc

/-! ## All moves -/

/-- No move leaves the pool, whether it succeeds or not. -/
theorem In.move (h : c.In P) (m : Move) : (c.move m).2.In P := by
  have hroot : c.reset.In P := in_ofTrie h.root
  cases m with
  | descend p => exact h.descendOr _ p
  | descendByte b => exact h.orStay fun c' hc => h.descendByte hc
  | descendIndex i => exact h.orStay fun c' hc => h.descendIndex hc
  | ascend n => exact h.ascend n
  | nextSibling => exact h.sibling ByteMask.next?
  | prevSibling => exact h.sibling ByteMask.prev?
  | nextMember => exact hroot.orStay fun c' hc => h.nextMember hc
  | reset => exact hroot

theorem In.stem (h : c.In P) : c.stem.child ∈ P := by
  unfold Cursor.stem
  split
  · next i e he => exact P.child_mem c.node h.node e (mem_edges_of_focusEdge? he)
  · exact h.node

/-- The set below the focus. -/
theorem makes_subtrie (h : c.In P) :
    P.Makes c.subtrie fun Q t => t ∈ Q ∧ t.members = c.stem.members :=
  makes_toTrie h.stem

theorem makes_fork (h : c.In P) : P.Makes c.fork fun Q d => d.In Q :=
  (makes_subtrie h).bind_pure fun _ _ _ ht => in_ofTrie ht.1

end Cursor

end ByteTrie
