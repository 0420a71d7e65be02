import ByteTrie.Proofs.Machine
import ByteTrie.Proofs.Mask
import ByteTrie.Proofs.Outcome
import ByteTrie.Proofs.Shape
import Mathlib

/-!
# The joint walk on a stack

Combining two tries is a loop over frames.  A frame has two places, the node that is being made for them,
and the bytes still to come; where both places have a branch for a byte, the frame waits for what is below
the key that the branches share.  Branches are looked up by rank, slices are checked, and whatever is not
to happen stops the loop: a byte without a branch, an identity that names a place without one, branches
that share nothing, a node whose edges do not ascend.

    a.push? b o            the frame with the outcome `o` for the byte `b`
    op.step?               one byte of the frame on top, or its end
    Stack.Sound w           what holds of every frame on the stack
    keeps_sound op         a step from a sound stack is not stopped, and leads to a sound stack
-/

namespace ByteTrie

open Trie

/-! ## Places -/

namespace Stem

/-- The first bytes of the branches. -/
def mask : Stem → ByteMask
  | ⟨[], t⟩ => t.mask
  | ⟨b :: _, _⟩ => .singleton b

/-- The branch that starts with `b`, if the mask has that byte; then it has to stand at its rank. -/
def branch? (s : Stem) (b : UInt8) : Option (Option (Edge Trie)) :=
  if s.mask.contains b then s.branches[s.mask.rank b]?.map some else some none

def HasBranch (s : Stem) (b : UInt8) : Prop := ∃ e ∈ s.branches, e.first = b

/-- A canonical trie, or a place inside an edge that leads to one. -/
structure IsOperand (s : Stem) : Prop where
  canonical : s.child.Canonical
  inner : s.key ≠ [] → s.child.IsInner

namespace IsOperand

variable {s t : Stem} {e f : Edge Trie} {b : UInt8}

theorem of_canonical {t : Trie} (h : t.Canonical) : IsOperand ⟨[], t⟩ := ⟨h, fun hn => absurd rfl hn⟩

theorem edges (h : s.IsOperand) : CanonicalEdges s.branches := by
  obtain ⟨k, t⟩ := s
  cases k with
  | nil => exact h.canonical.edges
  | cons c k =>
    refine ⟨List.pairwise_singleton _ _, fun e he => ?_, fun e he => ?_⟩
    · obtain rfl := List.mem_singleton.mp he
      exact h.canonical
    · obtain rfl := List.mem_singleton.mp he
      exact h.inner (List.cons_ne_nil c k)

/-- The place `n` bytes along a branch. -/
theorem along (h : s.IsOperand) (he : e ∈ s.branches) (n : Nat) :
    IsOperand ⟨e.key.drop n, e.child⟩ :=
  ⟨h.edges.canonical e he, fun _ => h.edges.inner e he⟩

theorem isEmpty_child (h : s.IsOperand) (he : e ∈ s.branches) : e.child.isEmpty = false := by
  obtain ⟨p, hp, -⟩ := (h.edges.canonical e he).exists_parting (h.edges.inner e he)
  rw [← Bool.not_eq_true, (h.edges.canonical e he).isEmpty_iff]
  exact fun hempty => Set.notMem_empty p (hempty ▸ hp)

theorem mask_eq (h : s.IsOperand) : s.mask = ByteMask.ofList (s.branches.map fun e => e.first) := by
  obtain ⟨k, t⟩ := s
  cases k with
  | nil => exact h.canonical.tidy.mask_eq
  | cons c k => rfl

theorem contains_mask_iff (h : s.IsOperand) : s.mask.contains b = true ↔ s.HasBranch b := by
  rw [h.mask_eq, ByteMask.contains_ofList, List.mem_map]
  rfl

/-- A lookup by rank is in bounds, and finds the branch that starts with the byte. -/
theorem branch?_eq (h : s.IsOperand) (b : UInt8) :
    ∃ o, s.branch? b = some o ∧ ∀ e, o = some e ↔ e ∈ s.branches ∧ e.first = b := by
  by_cases hb : s.mask.contains b = true
  · obtain ⟨f, hf, hfirst⟩ := h.contains_mask_iff.mp hb
    obtain ⟨i, hi⟩ := List.mem_iff_getElem?.mp hf
    have hrank : s.mask.rank b = i := by
      rw [h.mask_eq, ← hfirst, ByteMask.rank_firsts h.edges.ascending hi]
    refine ⟨some f, ?_, fun e => ?_⟩
    · rw [branch?, if_pos hb, hrank, hi]
      rfl
    · constructor
      · rintro ⟨⟩
        exact ⟨hf, hfirst⟩
      · rintro ⟨he, hefirst⟩
        rw [edge_eq_of_first_eq h.edges.ascending hf he (hfirst.trans hefirst.symm)]
  · refine ⟨none, if_neg hb, fun e => ?_⟩
    rw [h.contains_mask_iff] at hb
    exact iff_of_false (fun hn => by cases hn) fun he => hb ⟨e, he⟩

theorem branch?_eq_some (h : s.IsOperand) (he : e ∈ s.branches) :
    s.branch? e.first = some (some e) := by
  obtain ⟨o, ho, hiff⟩ := h.branch?_eq e.first
  rw [ho, (hiff e).mpr ⟨he, rfl⟩]

theorem branch?_eq_none (h : s.IsOperand) (hb : ¬ s.HasBranch b) : s.branch? b = some none := by
  obtain ⟨o, ho, hiff⟩ := h.branch?_eq b
  cases o with
  | none => exact ho
  | some e => exact absurd ⟨e, (hiff e).mp rfl⟩ hb

theorem of_branch?_eq (h : s.IsOperand) (he : s.branch? b = some (some e)) :
    e ∈ s.branches ∧ e.first = b := by
  obtain ⟨o, ho, hiff⟩ := h.branch?_eq b
  exact (hiff e).mp (Option.some.inj (ho.symm.trans he))

/-- Two branches found for one byte share at least that byte. -/
theorem overlap_pos (hs : s.IsOperand) (ht : t.IsOperand) (he : s.branch? b = some (some e))
    (hf : t.branch? b = some (some f)) : 0 < Path.overlap e.key f.key := by
  have hfirst : e.first = f.first := (hs.of_branch?_eq he).2.trans (ht.of_branch?_eq hf).2.symm
  rw [Edge.key, Edge.key, hfirst, Path.overlap_cons_self]
  exact Nat.succ_pos _

/-- The node that stands for a place inside an edge: a canonical trie whose root passes on to one edge.
It has the mask, the edges and the mark that are read off the place. -/
theorem toTrie_eq (h : s.IsOperand) (i : Nat) : (s.toTrie i).1.Canonical ∧
    (s.toTrie i).1.edges = s.branches ∧ (s.toTrie i).1.mask = s.mask ∧
      (s.toTrie i).1.terminal = s.isMember ∧ (s.toTrie i).1.isEmpty = s.isEmpty := by
  obtain ⟨k, t⟩ := s
  cases k with
  | nil => exact ⟨h.canonical, rfl, rfl, rfl, rfl⟩
  | cons b k =>
    have hinner := h.inner (List.cons_ne_nil b k)
    have hempty : t.isEmpty = false := h.isEmpty_child (e := ⟨b, k, t⟩) (List.mem_singleton_self _)
    have hover : Edge.over b k t = some ⟨b, k, t⟩ := by
      unfold Edge.over
      rw [hempty]
      simp only [Bool.false_eq_true, if_false]
      split
      · next e hter hes =>
        rcases hinner with ht | ht
        · cases hter.symm.trans ht
        · rw [hes] at ht
          exact absurd ht (by simp)
      · rfl
    have hnode : (Stem.toTrie ⟨b :: k, t⟩ i).1 = label i false [⟨b, k, t⟩] := by
      rw [Stem.toTrie, hover]
      rfl
    rw [hnode]
    refine ⟨canonical_of_tidy fun u hu => ?_, rfl, rfl, rfl, ?_⟩
    · cases hu with
      | root =>
        refine ⟨List.pairwise_singleton _ _, fun e he => ?_, rfl, rfl⟩
        obtain rfl := List.mem_singleton.mp he
        exact hinner
      | inside he hu =>
        obtain rfl := List.mem_singleton.mp he
        exact (h.canonical.node hu).tidy
    · show ((0 + (t.count + 0)) == 0) = (t.count == 0)
      rw [Nat.zero_add, Nat.add_zero]

end IsOperand

end Stem

/-! ## Frames -/

/-- The node that is being made for two places.  `agree` names the places that all edges so far were
taken from; `pushed` are the bytes that were done, with their outcomes. -/
structure Assembly where
  left : Stem
  right : Stem
  terminal : Bool
  edges : List (Edge Trie)
  agree : UInt64
  pushed : List (UInt8 × Outcome (Edge Trie))

/-- What a byte comes to: an outcome, or two places below a key. -/
inductive Visit where
  | outcome (o : Outcome (Edge Trie))
  | descent (key : Path) (s t : Stem)

/-- An outcome below a key, as one for the edge with that key. -/
def Outcome.belowKey? : Path → Outcome Trie → Option (Outcome (Edge Trie))
  | _, .none => some .none
  | _, .identity m => some (.identity m)
  | [], .element _ => Option.none
  | b :: k, .element t =>
    match Edge.over b k t with
    | some e => some (.element e)
    | Option.none => some .none

namespace Assembly

/-- The bytes that were done. -/
def bytesDone (a : Assembly) : List UInt8 := a.pushed.map fun x => x.1

def record (a : Assembly) (b : UInt8) (o : Outcome (Edge Trie)) (es : List (Edge Trie))
    (agree : UInt64) : Assembly :=
  { a with edges := a.edges ++ es, agree := agree, pushed := a.pushed ++ [(b, o)] }

/-- The place of which an identity takes the branch. -/
def source (a : Assembly) (l : Bool) : Stem := if l then a.left else a.right

def push? (a : Assembly) (b : UInt8) : Outcome (Edge Trie) → Option Assembly
  | .none => some (a.record b .none [] a.agree)
  | .identity m => do
    let found ← (a.source (m &&& Outcome.leftBit != 0)).branch? b
    let e ← found
    return a.record b (.identity m) [e] (a.agree &&& (m ||| ~~~Outcome.bothBits))
  | .element e => some (a.record b (.element e) [e] 0)

def visit? (op : SetOp) (a : Assembly) (b : UInt8) : Option Visit := do
  match ← a.left.branch? b, ← a.right.branch? b with
  | some e, some f =>
    let n := Path.overlap e.key f.key
    guard (0 < n)
    let key ← e.key.slice? 0 n
    let s : Stem := ⟨← e.key.slice? n e.key.length, e.child⟩
    let t : Stem := ⟨← f.key.slice? n f.key.length, f.child⟩
    match op.settle s t with
    | some o => return .outcome (← o.belowKey? key)
    | none => return .descent key s t
  | some _, none => return .outcome (.identity Outcome.leftBit)
  | none, some _ => return .outcome (.identity Outcome.rightBit)
  | none, none => failure

/-- The places that the node is equal to: all its edges were taken from there, and none of theirs was
left out. -/
def unchanged (a : Assembly) : UInt64 :=
  let agree := if a.edges.length = a.left.branches.length then a.agree
    else a.agree &&& ~~~Outcome.leftBit
  if a.edges.length = a.right.branches.length then agree else agree &&& ~~~Outcome.rightBit

def finish? (a : Assembly) (i : Nat) : Option (Outcome Trie × Nat) :=
  if a.edges.isEmpty && !a.terminal then some (.none, i)
  else if a.unchanged ≠ 0 then some (.identity a.unchanged, i)
  else (make? a.terminal a.edges i).map fun r => (.element r.1, r.2)

end Assembly

/-- A node that is being made, and the bytes still to come. -/
structure Frame where
  assembly : Assembly
  bytes : List UInt8

/-- A frame that waits for what is below a key of two branches. -/
structure Waiting where
  frame : Frame
  byte : UInt8
  key : Path

structure Stack where
  frame : Frame
  parents : List Waiting

/-- The nodes that are being made, the one on top first. -/
def Stack.assemblies (w : Stack) : List Assembly :=
  w.frame.assembly :: w.parents.map fun p => p.frame.assembly

def Waiting.resume? (p : Waiting) (o : Outcome Trie) : Option Frame := do
  return ⟨← p.frame.assembly.push? p.byte (← o.belowKey? p.key), p.frame.bytes⟩

namespace SetOp

/-- The bytes at which two places are looked at. -/
def bytes (op : SetOp) (s t : Stem) : ByteMask :=
  match op with
  | join => s.mask.union t.mask
  | meet | restrict => s.mask.inter t.mask
  | subtract => s.mask

def assemble (op : SetOp) (s t : Stem) : Frame :=
  let terminal := op.terminal s.isMember t.isMember
  let left := if terminal == s.isMember then Outcome.leftBit else 0
  let right := if op.isCommutative && terminal == t.isMember then Outcome.rightBit else 0
  ⟨⟨s, t, terminal, [], left ||| right, []⟩, (op.bytes s t).toList⟩

def step? (op : SetOp) : Machine Stack (Outcome Trie) := fun w i =>
  match w.frame.bytes with
  | b :: bytes => do
    match ← w.frame.assembly.visit? op b with
    | .outcome o => return (.inr ⟨⟨← w.frame.assembly.push? b o, bytes⟩, w.parents⟩, i)
    | .descent key s t =>
      return (.inr ⟨op.assemble s t, ⟨⟨w.frame.assembly, bytes⟩, b, key⟩ :: w.parents⟩, i)
  | [] => do
    let (o, j) ← w.frame.assembly.finish? i
    match w.parents with
    | [] => return (.inl o, j)
    | p :: parents => return (.inr ⟨← p.resume? o, parents⟩, j)

end SetOp

/-! ## What holds of every frame -/

namespace Assembly

/-- The mask names places, and each that it names has a branch that starts with `b`. -/
def Names (a : Assembly) (b : UInt8) (m : UInt64) : Prop :=
  ∃ l r, m = Outcome.mask l r ∧ (l = true ∨ r = true) ∧ (l = true → a.left.HasBranch b) ∧
    (r = true → a.right.HasBranch b)

structure Sound (a : Assembly) : Prop where
  left : a.left.IsOperand
  right : a.right.IsOperand
  ascending : a.bytesDone.Pairwise (· < ·)
  identity : ∀ b m, (b, .identity m) ∈ a.pushed → a.Names b m
  edges : (a.edges.map fun e => e.first).Sublist a.bytesDone
  inhabited : ∀ e ∈ a.edges, e.child.isEmpty = false
  agree : ∃ l r, a.agree = Outcome.mask l r

/-- What may be pushed for a byte. -/
def Fits (a : Assembly) (b : UInt8) : Outcome (Edge Trie) → Prop
  | .none => True
  | .identity m => a.Names b m
  | .element e => e.first = b ∧ e.child.isEmpty = false

end Assembly

structure Frame.Sound (f : Frame) : Prop where
  assembly : f.assembly.Sound
  ascending : (f.assembly.bytesDone ++ f.bytes).Pairwise (· < ·)
  present : ∀ b ∈ f.bytes, f.assembly.left.HasBranch b ∨ f.assembly.right.HasBranch b
  meeting : ∀ b e g, f.assembly.left.branch? b = some (some e) →
    f.assembly.right.branch? b = some (some g) → 0 < Path.overlap e.key g.key

/-- A frame that waits is sound with its byte still to come, and both of its places have that byte. -/
structure Waiting.Sound (p : Waiting) : Prop where
  frame : Frame.Sound ⟨p.frame.assembly, p.byte :: p.frame.bytes⟩
  left : p.frame.assembly.left.HasBranch p.byte
  right : p.frame.assembly.right.HasBranch p.byte
  key : ∃ k, p.key = p.byte :: k

structure Stack.Sound (w : Stack) : Prop where
  frame : w.frame.Sound
  parents : ∀ p ∈ w.parents, p.Sound

/-- The places of all frames stand for canonical tries. -/
theorem Stack.Sound.canonical {w : Stack} (h : w.Sound) {a : Assembly} (ha : a ∈ w.assemblies) (n : Nat) :
    (a.left.toTrie n).1.Canonical ∧ (a.right.toTrie n).1.Canonical := by
  have hsound : a.Sound := by
    rcases List.mem_cons.mp ha with rfl | ha
    · exact h.frame.assembly
    · obtain ⟨p, hp, rfl⟩ := List.mem_map.mp ha
      exact (h.parents p hp).frame.assembly
  exact ⟨(hsound.left.toTrie_eq n).1, (hsound.right.toTrie_eq n).1⟩

/-- What a finished frame gives: a mask that names a place, or a node whose edges lead to nonempty
sets. -/
def Outcome.Formed : Outcome Trie → Prop
  | .none => True
  | .identity m => ∃ l r, m = Outcome.mask l r ∧ (l = true ∨ r = true)
  | .element t => ∀ e ∈ t.edges, e.child.isEmpty = false

def Visit.Sound (a : Assembly) (b : UInt8) : Visit → Prop
  | .outcome o => a.Fits b o
  | .descent key s t => (∃ k, key = b :: k) ∧ s.IsOperand ∧ t.IsOperand ∧ a.left.HasBranch b ∧
      a.right.HasBranch b

/-! ## Pushing -/

theorem isEmpty_child_over {b : UInt8} {k : Path} {t : Trie} {e : Edge Trie}
    (ht : ∀ f ∈ t.edges, f.child.isEmpty = false) (h : Edge.over b k t = some e) :
    e.first = b ∧ e.child.isEmpty = false := by
  unfold Edge.over at h
  split at h
  · cases h
  · next hempty =>
    split at h
    · next f hter hes =>
      obtain rfl := Option.some.inj h
      exact ⟨rfl, ht f (by rw [hes]; exact List.mem_singleton_self f)⟩
    · obtain rfl := Option.some.inj h
      exact ⟨rfl, by simpa using hempty⟩

/-- Below a key an outcome is one for the edge that starts with the first byte of the key. -/
theorem Outcome.Formed.belowKey {o : Outcome Trie} (h : o.Formed) {a : Assembly} {b : UInt8}
    (hl : a.left.HasBranch b) (hr : a.right.HasBranch b) (k : Path) :
    ∃ o', o.belowKey? (b :: k) = some o' ∧ a.Fits b o' := by
  cases o with
  | none => exact ⟨.none, rfl, trivial⟩
  | identity m =>
    obtain ⟨l, r, hm, hlr⟩ := h
    exact ⟨.identity m, rfl, l, r, hm, hlr, fun _ => hl, fun _ => hr⟩
  | element t =>
    cases hover : Edge.over b k t with
    | none => exact ⟨.none, by rw [belowKey?, hover], trivial⟩
    | some e => exact ⟨.element e, by rw [belowKey?, hover], isEmpty_child_over h hover⟩

namespace Assembly

variable {a : Assembly} {b : UInt8} {o : Outcome (Edge Trie)}

theorem bytesDone_record (a : Assembly) (b : UInt8) (o : Outcome (Edge Trie))
    (es : List (Edge Trie)) (agree : UInt64) :
    (a.record b o es agree).bytesDone = a.bytesDone ++ [b] :=
  List.map_append

theorem Sound.record (h : a.Sound) (hb : ∀ c ∈ a.bytesDone, c < b) (ho : a.Fits b o)
    {es : List (Edge Trie)} (hes : (es.map fun e => e.first).Sublist [b])
    (hinh : ∀ e ∈ es, e.child.isEmpty = false) {agree : UInt64}
    (hagree : ∃ l r, agree = Outcome.mask l r) : (a.record b o es agree).Sound where
  left := h.left
  right := h.right
  ascending := by
    rw [bytesDone_record, List.pairwise_append]
    refine ⟨h.ascending, List.pairwise_singleton _ _, fun c hc d hd => ?_⟩
    obtain rfl := List.mem_singleton.mp hd
    exact hb c hc
  identity := by
    intro c m hm
    rcases List.mem_append.mp hm with hm | hm
    · exact h.identity c m hm
    · obtain ⟨rfl, rfl⟩ := Prod.mk.inj (List.mem_singleton.mp hm)
      exact ho
  edges := by
    rw [bytesDone_record]
    show (List.map _ (a.edges ++ es)).Sublist _
    rw [List.map_append]
    exact h.edges.append hes
  inhabited := by
    intro e he
    rcases List.mem_append.mp he with he | he
    · exact h.inhabited e he
    · exact hinh e he
  agree := hagree

theorem Sound.agree_and (h : a.Sound) (l r : Bool) :
    a.agree &&& (Outcome.mask l r ||| ~~~Outcome.bothBits) = a.agree &&& Outcome.mask l r := by
  obtain ⟨x, y, hxy⟩ := h.agree
  rw [hxy]
  clear hxy
  revert l r x y
  decide

theorem Sound.isOperand_source (h : a.Sound) (l : Bool) : (a.source l).IsOperand := by
  cases l with
  | true => exact h.left
  | false => exact h.right

theorem Names.hasBranch_source {l r : Bool} (hlr : l = true ∨ r = true)
    (hl : l = true → a.left.HasBranch b) (hr : r = true → a.right.HasBranch b) :
    (a.source l).HasBranch b := by
  cases l with
  | true => exact hl rfl
  | false => exact hr (by simpa using hlr)

theorem Sound.push_identity (h : a.Sound) {l : Bool} {e : Edge Trie}
    (he : e ∈ (a.source l).branches) (r : Bool) :
    a.push? e.first (.identity (Outcome.mask l r)) =
      some (a.record e.first (.identity (Outcome.mask l r)) [e] (a.agree &&& Outcome.mask l r)) := by
  have hl : (Outcome.mask l r &&& Outcome.leftBit != 0) = l := by
    clear he
    revert l r
    decide
  rw [push?, hl, (h.isOperand_source l).branch?_eq_some he, h.agree_and]
  rfl

/-- What fits is pushed. -/
theorem Sound.push (h : a.Sound) (hb : ∀ c ∈ a.bytesDone, c < b) (ho : a.Fits b o) :
    ∃ es agree, a.push? b o = some (a.record b o es agree) ∧ (a.record b o es agree).Sound := by
  cases o with
  | none =>
    refine ⟨[], a.agree, rfl, h.record hb ho ?_ (fun e he => absurd he List.not_mem_nil) h.agree⟩
    exact List.nil_sublist [b]
  | identity m =>
    have hnames : a.Names b m := ho
    obtain ⟨l, r, rfl, hlr, hl, hr⟩ := hnames
    obtain ⟨e, he, rfl⟩ := Names.hasBranch_source hlr hl hr
    refine ⟨[e], a.agree &&& Outcome.mask l r, h.push_identity he r, ?_⟩
    refine h.record hb ho (List.Sublist.refl _) ?_ ?_
    · intro f hf
      obtain rfl := List.mem_singleton.mp hf
      exact (h.isOperand_source l).isEmpty_child he
    · obtain ⟨x, y, hxy⟩ := h.agree
      exact ⟨x && l, y && r, by rw [hxy, Outcome.mask_and]⟩
  | element e =>
    have he : e.first = b ∧ e.child.isEmpty = false := ho
    obtain rfl := he.1
    refine ⟨[e], 0, rfl, h.record hb ho (List.Sublist.refl _) ?_ ⟨false, false, rfl⟩⟩
    intro f hf
    obtain rfl := List.mem_singleton.mp hf
    exact he.2

end Assembly

/-- A byte off a frame, pushed. -/
theorem Frame.Sound.push {a : Assembly} {b : UInt8} {bytes : List UInt8}
    (h : Frame.Sound ⟨a, b :: bytes⟩) {o : Outcome (Edge Trie)} (ho : a.Fits b o) :
    ∃ a', a.push? b o = some a' ∧ Frame.Sound ⟨a', bytes⟩ := by
  have hlt : ∀ c ∈ a.bytesDone, c < b := fun c hc =>
    (List.pairwise_append.mp h.ascending).2.2 c hc b List.mem_cons_self
  obtain ⟨es, agree, hpush, hsound⟩ := h.assembly.push hlt ho
  refine ⟨_, hpush, hsound, ?_, fun c hc => h.present c (List.mem_cons_of_mem b hc), h.meeting⟩
  rw [Assembly.bytesDone_record, List.append_assoc]
  exact h.ascending

theorem Waiting.Sound.resume {p : Waiting} (h : p.Sound) {o : Outcome Trie} (ho : o.Formed) :
    ∃ f, p.resume? o = some f ∧ f.Sound := by
  obtain ⟨k, hk⟩ := h.key
  obtain ⟨o', ho', hfits⟩ := ho.belowKey h.left h.right k
  obtain ⟨a', ha', hsound⟩ := h.frame.push hfits
  refine ⟨⟨a', p.frame.bytes⟩, ?_, hsound⟩
  unfold Waiting.resume?
  rw [hk, ho']
  show (do return ⟨← p.frame.assembly.push? p.byte o', p.frame.bytes⟩ : Option Frame) = _
  rw [ha']
  rfl

/-- An identity for a byte at which its place has no branch stops the loop. -/
example : (Assembly.push? ⟨⟨[7], leaf⟩, ⟨[], leaf⟩, true, [], 3, []⟩ 7 (.identity 2)).isNone = true := by
  decide

/-! ## A step -/

theorem SetOp.formed_of_settle {op : SetOp} {s t : Stem} {o : Outcome Trie}
    (h : op.settle s t = some o) : o.Formed := by
  have both : (Outcome.identity Outcome.bothBits).Formed := ⟨true, true, rfl, Or.inl rfl⟩
  have left : (Outcome.identity Outcome.leftBit).Formed := ⟨true, false, rfl, Or.inl rfl⟩
  have right : (Outcome.identity Outcome.rightBit).Formed := ⟨false, true, rfl, Or.inr rfl⟩
  cases op
  all_goals
    simp only [settle] at h
    repeat' split at h
    all_goals cases h
    all_goals trivial

namespace Assembly

variable {a : Assembly} {op : SetOp} {b : UInt8}

/-! Two branches that start with one byte, and share `n` bytes behind it. -/

section

variable {e f : Edge Trie} {n : Nat}

theorem visit?_both (he : a.left.branch? b = some (some e)) (hf : a.right.branch? b = some (some f))
    (hef : e.first = f.first) (hn : Path.overlap e.rest f.rest = n) : a.visit? op b =
      (match op.settle ⟨e.rest.drop n, e.child⟩ ⟨f.rest.drop n, f.child⟩ with
        | some o => (o.belowKey? (e.first :: e.rest.take n)).map Visit.outcome
        | none => some (.descent (e.first :: e.rest.take n) ⟨e.rest.drop n, e.child⟩
            ⟨f.rest.drop n, f.child⟩)) := by
  have hkeys : Path.overlap e.key f.key = n + 1 := by
    rw [Edge.key, Edge.key, hef, Path.overlap_cons_self, hn]
  have hle : n + 1 ≤ e.key.length := hkeys ▸ Path.overlap_le_left e.key f.key
  have hle' : n + 1 ≤ f.key.length := hkeys ▸ Path.overlap_le_right e.key f.key
  simp only [visit?, he, hf, hkeys, Option.bind_eq_bind, Option.bind_some, Path.slice?_to_end hle,
    Path.slice?_to_end hle', Path.slice?_eq (Nat.zero_le _) hle, guard, Nat.succ_pos, if_true]
  show (match op.settle ⟨e.rest.drop n, e.child⟩ ⟨f.rest.drop n, f.child⟩ with
    | some o => _
    | none => _) = _
  cases op.settle ⟨e.rest.drop n, e.child⟩ ⟨f.rest.drop n, f.child⟩ with
  | none => rfl
  | some o =>
    show (Option.bind (o.belowKey? (e.first :: e.rest.take n)) fun o' => some (Visit.outcome o')) =
      (o.belowKey? (e.first :: e.rest.take n)).map Visit.outcome
    rw [Option.map_eq_bind]
    rfl

theorem visit?_settled {o : Outcome Trie} (he : a.left.branch? b = some (some e))
    (hf : a.right.branch? b = some (some f)) (hef : e.first = f.first)
    (hn : Path.overlap e.rest f.rest = n)
    (h : op.settle ⟨e.rest.drop n, e.child⟩ ⟨f.rest.drop n, f.child⟩ = some o) :
    a.visit? op b = (o.belowKey? (e.first :: e.rest.take n)).map Visit.outcome := by
  rw [visit?_both he hf hef hn, h]

theorem visit?_descent (he : a.left.branch? b = some (some e))
    (hf : a.right.branch? b = some (some f)) (hef : e.first = f.first)
    (hn : Path.overlap e.rest f.rest = n)
    (h : op.settle ⟨e.rest.drop n, e.child⟩ ⟨f.rest.drop n, f.child⟩ = none) :
    a.visit? op b = some (.descent (e.first :: e.rest.take n) ⟨e.rest.drop n, e.child⟩
      ⟨f.rest.drop n, f.child⟩) := by
  rw [visit?_both he hf hef hn, h]

end

end Assembly

/-- What a byte still to come is, is said, and fits or is a sound descent. -/
theorem Frame.Sound.visit {a : Assembly} {b : UInt8} {bytes : List UInt8}
    (h : Frame.Sound ⟨a, b :: bytes⟩) (op : SetOp) : ∃ v, a.visit? op b = some v ∧ v.Sound a b := by
  have hleft := h.assembly.left
  have hright := h.assembly.right
  obtain ⟨x, hx, hxiff⟩ := hleft.branch?_eq b
  obtain ⟨y, hy, hyiff⟩ := hright.branch?_eq b
  have hl : ∀ e, x = some e → a.left.HasBranch b := fun e he => ⟨e, (hxiff e).mp he⟩
  have hr : ∀ f, y = some f → a.right.HasBranch b := fun f hf => ⟨f, (hyiff f).mp hf⟩
  cases x with
  | none =>
    cases y with
    | none =>
      rcases h.present b List.mem_cons_self with ⟨e, he⟩ | ⟨f, hf⟩
      · cases (hxiff e).mpr he
      · cases (hyiff f).mpr hf
    | some f =>
      refine ⟨.outcome (.identity Outcome.rightBit), by rw [Assembly.visit?, hx, hy]; rfl, ?_⟩
      exact ⟨false, true, rfl, Or.inr rfl, fun hn => absurd hn Bool.false_ne_true, fun _ => hr f rfl⟩
  | some e =>
    cases y with
    | none =>
      refine ⟨.outcome (.identity Outcome.leftBit), by rw [Assembly.visit?, hx, hy]; rfl, ?_⟩
      exact ⟨true, false, rfl, Or.inl rfl, fun _ => hl e rfl, fun hn => absurd hn Bool.false_ne_true⟩
    | some f =>
      obtain ⟨he, rfl⟩ := (hxiff e).mp rfl
      obtain ⟨hf, hfe⟩ := (hyiff f).mp rfl
      cases hsettle : op.settle ⟨e.rest.drop (Path.overlap e.rest f.rest), e.child⟩
          ⟨f.rest.drop (Path.overlap e.rest f.rest), f.child⟩ with
      | some o =>
        obtain ⟨o', ho', hfits⟩ := (SetOp.formed_of_settle hsettle).belowKey (hl e rfl) (hr f rfl)
          (e.rest.take (Path.overlap e.rest f.rest))
        refine ⟨.outcome o', ?_, hfits⟩
        rw [Assembly.visit?_settled hx hy hfe.symm rfl hsettle, ho']
        rfl
      | none =>
        refine ⟨_, Assembly.visit?_descent hx hy hfe.symm rfl hsettle, ⟨_, rfl⟩, ?_, ?_, hl e rfl,
          hr f rfl⟩
        · exact hleft.along he (Path.overlap e.rest f.rest + 1)
        · exact hright.along hf (Path.overlap e.rest f.rest + 1)

namespace SetOp

variable {op : SetOp} {s t : Stem} {b : UInt8}

/-- Whether a byte is looked at that the left place has and that the right one has. -/
def takes : SetOp → Bool → Bool → Bool
  | join, l, r => l || r
  | meet, l, r | restrict, l, r => l && r
  | subtract, l, _ => l

theorem of_takes (op : SetOp) (l r : Bool) (h : op.takes l r = true) : l = true ∨ r = true := by
  revert l r
  cases op <;> decide

theorem mem_bytes_iff (op : SetOp) (s t : Stem) (b : UInt8) : b ∈ (op.bytes s t).toList ↔
    op.takes (s.mask.contains b) (t.mask.contains b) = true := by
  rw [ByteMask.mem_toList]
  cases op with
  | join => simp [bytes, takes, ByteMask.contains, ByteMask.union]
  | meet => simp [bytes, takes, ByteMask.contains, ByteMask.inter]
  | subtract => rfl
  | restrict => simp [bytes, takes, ByteMask.contains, ByteMask.inter]

theorem sound_assemble (op : SetOp) (hs : s.IsOperand) (ht : t.IsOperand) :
    (op.assemble s t).Sound where
  assembly := by
    refine ⟨hs, ht, List.Pairwise.nil, fun b m hm => absurd hm List.not_mem_nil,
      List.Sublist.refl _, fun e he => absurd he List.not_mem_nil, ?_⟩
    exact ⟨op.terminal s.isMember t.isMember == s.isMember,
      op.isCommutative && op.terminal s.isMember t.isMember == t.isMember, rfl⟩
  ascending := ByteMask.pairwise_toList _
  present := by
    intro b hb
    have hlr := op.of_takes _ _ ((op.mem_bytes_iff s t b).mp hb)
    rwa [hs.contains_mask_iff, ht.contains_mask_iff] at hlr
  meeting := fun _ _ _ he hf => hs.overlap_pos ht he hf

end SetOp

/-- A place is equal to the node if it is agreed with and has as many branches as there are edges. -/
theorem Assembly.unchanged_eq {a : Assembly} {x y : Bool} {u : UInt64}
    (h : a.agree = Outcome.mask x y &&& u) : a.unchanged =
      u &&& Outcome.mask (x && a.edges.length == a.left.branches.length)
        (y && a.edges.length == a.right.branches.length) := by
  have hleft : ∀ x y, Outcome.mask x y &&& ~~~Outcome.leftBit = Outcome.mask false y := by decide
  have hright : ∀ x y, Outcome.mask x y &&& ~~~Outcome.rightBit = Outcome.mask x false := by decide
  rw [UInt64.and_comm] at h
  simp only [unchanged, h]
  by_cases hl : a.edges.length = a.left.branches.length
  · rw [if_pos hl, beq_iff_eq.mpr hl, Bool.and_true]
    by_cases hr : a.edges.length = a.right.branches.length
    · rw [if_pos hr, beq_iff_eq.mpr hr, Bool.and_true]
    · rw [if_neg hr, beq_eq_false_iff_ne.mpr hr, Bool.and_false, UInt64.and_assoc, hright]
  · rw [if_neg hl, beq_eq_false_iff_ne.mpr hl, Bool.and_false, UInt64.and_assoc, hleft]
    by_cases hr : a.edges.length = a.right.branches.length
    · rw [if_pos hr, beq_iff_eq.mpr hr, Bool.and_true]
    · rw [if_neg hr, beq_eq_false_iff_ne.mpr hr, Bool.and_false, UInt64.and_assoc, hright]

theorem Assembly.Sound.buildable {a : Assembly} (h : a.Sound) : Buildable a.edges :=
  ⟨List.pairwise_map.mp (h.ascending.sublist h.edges), h.inhabited⟩

/-- A frame without bytes to come is finished. -/
theorem Assembly.Sound.finish {a : Assembly} (h : a.Sound) (i : Nat) :
    ∃ o j, a.finish? i = some (o, j) ∧ o.Formed := by
  unfold Assembly.finish?
  by_cases hnone : (a.edges.isEmpty && !a.terminal) = true
  · exact ⟨.none, i, if_pos hnone, trivial⟩
  · rw [if_neg hnone]
    by_cases hzero : a.unchanged = 0
    · rw [if_neg (not_not.mpr hzero), make?_eq h.buildable]
      refine ⟨_, _, rfl, ?_⟩
      show ∀ e ∈ (make a.terminal a.edges i).1.edges, e.child.isEmpty = false
      rw [edges_make]
      exact h.inhabited
    · rw [if_pos hzero]
      obtain ⟨x, y, hxy⟩ := h.agree
      have hmask := unchanged_eq (x := x) (y := y) (u := Outcome.mask true true)
        (by rw [hxy, Outcome.mask_and, Bool.and_true, Bool.and_true])
      rw [Outcome.mask_and, Bool.true_and, Bool.true_and] at hmask
      refine ⟨_, _, rfl, _, _, hmask, ?_⟩
      rw [hmask, Outcome.mask_eq_zero_iff, not_and_or, Bool.not_eq_false, Bool.not_eq_false] at hzero
      exact hzero

namespace SetOp

variable {op : SetOp} {a a' : Assembly} {b : UInt8} (bytes : List UInt8) (parents : List Waiting)

theorem leads_outcome {o : Outcome (Edge Trie)} (hv : a.visit? op b = some (.outcome o))
    (ha' : a.push? b o = some a') (i : Nat) :
    op.step?.Leads (⟨⟨a, b :: bytes⟩, parents⟩, i) (⟨⟨a', bytes⟩, parents⟩, i) := by
  simp only [Machine.Leads, step?, hv, ha', Option.bind_eq_bind, Option.bind_some]
  rfl

theorem leads_descent {key : Path} {s t : Stem} (hv : a.visit? op b = some (.descent key s t))
    (i : Nat) : op.step?.Leads (⟨⟨a, b :: bytes⟩, parents⟩, i)
      (⟨op.assemble s t, ⟨⟨a, bytes⟩, b, key⟩ :: parents⟩, i) := by
  simp only [Machine.Leads, step?, hv, Option.bind_eq_bind, Option.bind_some]
  rfl

theorem leads_resume {p : Waiting} {f : Frame} {o : Outcome Trie} {i j : Nat}
    (ho : a.finish? i = some (o, j)) (hf : p.resume? o = some f) :
    op.step?.Leads (⟨⟨a, []⟩, p :: parents⟩, i) (⟨f, parents⟩, j) := by
  simp only [Machine.Leads, step?, ho, hf, Option.bind_eq_bind, Option.bind_some]
  rfl

theorem step?_last {o : Outcome Trie} {i j : Nat} (ho : a.finish? i = some (o, j)) :
    op.step? ⟨⟨a, []⟩, []⟩ i = some (.inl o, j) := by
  simp only [step?, ho, Option.bind_eq_bind, Option.bind_some]
  rfl

end SetOp

/-- A step from a sound stack of frames is not stopped, and leads to a sound one. -/
theorem keeps_sound (op : SetOp) : op.step?.Keeps Stack.Sound := by
  rintro ⟨⟨a, bytes⟩, parents⟩ i ⟨hframe, hparents⟩
  cases bytes with
  | cons b bytes =>
    obtain ⟨v, hv, hsound⟩ := hframe.visit op
    cases v with
    | outcome o =>
      obtain ⟨a', ha', hframe'⟩ := hframe.push hsound
      refine ⟨_, SetOp.leads_outcome bytes parents hv ha' i, ?_⟩
      rintro w ⟨⟩
      exact ⟨hframe', hparents⟩
    | descent key s t =>
      obtain ⟨hkey, hs, ht, hl, hr⟩ := hsound
      refine ⟨_, SetOp.leads_descent bytes parents hv i, ?_⟩
      rintro w ⟨⟩
      refine ⟨op.sound_assemble hs ht, fun p hp => ?_⟩
      rcases List.mem_cons.mp hp with rfl | hp
      · exact ⟨hframe, hl, hr, hkey⟩
      · exact hparents p hp
  | nil =>
    obtain ⟨o, j, ho, hformed⟩ := hframe.assembly.finish i
    cases parents with
    | nil => exact ⟨_, SetOp.step?_last ho, fun w hw => by cases hw⟩
    | cons p parents =>
      obtain ⟨f, hf, hsound⟩ := (hparents p List.mem_cons_self).resume hformed
      refine ⟨_, SetOp.leads_resume parents ho hf, ?_⟩
      rintro w ⟨⟩
      exact ⟨hsound, fun q hq => hparents q (List.mem_cons_of_mem p hq)⟩

end ByteTrie
