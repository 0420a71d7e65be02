import ByteTrie.Proofs.Frames
import ByteTrie.Proofs.Merge
import Mathlib

/-!
# The walk on a stack is the recursive walk

The loop over frames gives what `combine` gives, with the same ids.  The bytes of a frame go along both
lists of branches: `Ahead` says which branches are still to come, and a byte off the frame is the step of
`combineEdges` past the branches that start with it.  Branches at which nothing is looked at are passed
without a step.

    Extends a a' m        the frame a' is the frame a with the merged edges m behind its own
    Merges op es fs x     on top of any stack the loop goes past es and fs, with the edges that x merges
    Combines op s t x     the loop gives for s and t what x gives
-/

namespace ByteTrie

open Trie

namespace SetOp

/-! ## What is ahead -/

/-- Whether an edge starts with `b`. -/
def hasFirst (es : List (Edge Trie)) (b : UInt8) : Bool := es.any fun e => e.first == b

variable {op : SetOp} {s t : Stem} {left right es fs : List (Edge Trie)} {e f : Edge Trie}
  {b c : UInt8} {bytes : List UInt8}

theorem hasFirst_iff : hasFirst es b = true ↔ ∃ e ∈ es, e.first = b := by
  simp [hasFirst]

theorem Front.hasFirst_self (h : Front b left es) : hasFirst (left ++ es) b = hasFirst left b := by
  have hes : hasFirst es b = false := by
    rw [← Bool.not_eq_true, hasFirst_iff]
    rintro ⟨e, he, hb⟩
    exact UInt8.ne_of_lt (h.lt_first e he) hb.symm
  rw [hasFirst, List.any_append]
  show (hasFirst left b || hasFirst es b) = _
  rw [hes, Bool.or_false]

theorem Front.hasFirst_ne (h : Front b left es) (hc : c ≠ b) :
    hasFirst (left ++ es) c = hasFirst es c := by
  have hleft : hasFirst left c = false := by
    rw [← Bool.not_eq_true, hasFirst_iff]
    rintro ⟨e, he, hec⟩
    exact hc (hec.symm.trans (h.first_eq e he))
  rw [hasFirst, List.any_append]
  show (hasFirst left c || hasFirst es c) = _
  rw [hleft, Bool.false_or]

/-- The branches of `s` and `t` that are still to come, with the bytes at which they are looked at. -/
structure Ahead (op : SetOp) (s t : Stem) (es fs : List (Edge Trie)) (bytes : List UInt8) :
    Prop where
  left : es.Sublist s.branches
  right : fs.Sublist t.branches
  left_mem : ∀ e ∈ s.branches, e.first ∈ bytes → e ∈ es
  right_mem : ∀ f ∈ t.branches, f.first ∈ bytes → f ∈ fs
  ascending : bytes.Pairwise (· < ·)
  mem_iff : ∀ b, b ∈ bytes ↔ op.takes (hasFirst es b) (hasFirst fs b) = true

theorem ahead_assemble (op : SetOp) (hs : s.IsOperand) (ht : t.IsOperand) :
    Ahead op s t s.branches t.branches (op.assemble s t).bytes where
  left := List.Sublist.refl _
  right := List.Sublist.refl _
  left_mem := fun _ he _ => he
  right_mem := fun _ hf _ => hf
  ascending := ByteMask.pairwise_toList _
  mem_iff := by
    intro b
    have hl : hasFirst s.branches b = s.mask.contains b := by
      rw [Bool.eq_iff_iff, hasFirst_iff, hs.contains_mask_iff]
      rfl
    have hr : hasFirst t.branches b = t.mask.contains b := by
      rw [Bool.eq_iff_iff, hasFirst_iff, ht.contains_mask_iff]
      rfl
    rw [hl, hr]
    exact op.mem_bytes_iff s t b

/-- Past a byte the bytes to come are those at which the branches behind it are looked at. -/
theorem Ahead.mem_iff_of_ne (h : Ahead op s t (left ++ es) (right ++ fs) bytes)
    (hl : Front b left es) (hr : Front b right fs) (hc : c ≠ b) :
    c ∈ bytes ↔ op.takes (hasFirst es c) (hasFirst fs c) = true := by
  rw [h.mem_iff, hl.hasFirst_ne hc, hr.hasFirst_ne hc]

theorem lt_of_takes (op : SetOp) (hl : Front b left es) (hr : Front b right fs)
    (hc : op.takes (hasFirst es c) (hasFirst fs c) = true) : b < c := by
  rcases op.of_takes _ _ hc with hc | hc
  · obtain ⟨e, he, rfl⟩ := hasFirst_iff.mp hc
    exact hl.lt_first e he
  · obtain ⟨f, hf, rfl⟩ := hasFirst_iff.mp hc
    exact hr.lt_first f hf

theorem Front.mem_of_ne (h : Front b left es) (he : e ∈ left ++ es) (hb : e.first ≠ b) : e ∈ es := by
  rcases List.mem_append.mp he with he | he
  · exact absurd (h.first_eq e he) hb
  · exact he

/-- At a byte at which branches are looked at, it is the first one of those to come. -/
theorem Ahead.taken (h : Ahead op s t (left ++ es) (right ++ fs) bytes) (hl : Front b left es)
    (hr : Front b right fs) (ht : op.takes (hasFirst left b) (hasFirst right b) = true) :
    ∃ bs, bytes = b :: bs ∧ Ahead op s t es fs bs := by
  have hb : b ∈ bytes := by rwa [h.mem_iff, hl.hasFirst_self, hr.hasFirst_self]
  have hle : ∀ c ∈ bytes, c ≠ b → b < c := fun c hc hcb =>
    lt_of_takes op hl hr ((h.mem_iff_of_ne hl hr hcb).mp hc)
  cases bytes with
  | nil => cases hb
  | cons x bs =>
    obtain ⟨hx, hbs⟩ := List.pairwise_cons.mp h.ascending
    obtain rfl : x = b := by
      by_contra hxb
      rcases List.mem_cons.mp hb with hbx | hb
      · exact hxb hbx.symm
      · exact UInt8.lt_asymm (hx b hb) (hle x List.mem_cons_self hxb)
    have hne : ∀ c ∈ bs, c ≠ x := fun c hc => (UInt8.ne_of_lt (hx c hc)).symm
    refine ⟨bs, rfl, (List.sublist_append_right _ _).trans h.left,
      (List.sublist_append_right _ _).trans h.right, fun e he hfirst => ?_, fun f hf hfirst => ?_, hbs,
      fun c => ?_⟩
    · exact hl.mem_of_ne (h.left_mem e he (List.mem_cons_of_mem x hfirst)) (hne _ hfirst)
    · exact hr.mem_of_ne (h.right_mem f hf (List.mem_cons_of_mem x hfirst)) (hne _ hfirst)
    · constructor
      · intro hc
        exact (h.mem_iff_of_ne hl hr (hne c hc)).mp (List.mem_cons_of_mem x hc)
      · intro hc
        have hcx := (UInt8.ne_of_lt (lt_of_takes op hl hr hc)).symm
        exact List.mem_of_ne_of_mem hcx ((h.mem_iff_of_ne hl hr hcx).mpr hc)

/-- Branches at which nothing is looked at are passed. -/
theorem Ahead.passed (h : Ahead op s t (left ++ es) (right ++ fs) bytes) (hl : Front b left es)
    (hr : Front b right fs) (ht : op.takes (hasFirst left b) (hasFirst right b) = false) :
    Ahead op s t es fs bytes := by
  have hb : b ∉ bytes := by
    rw [h.mem_iff, hl.hasFirst_self, hr.hasFirst_self, ht]
    exact Bool.false_ne_true
  have hne : ∀ c ∈ bytes, c ≠ b := fun c hc hcb => hb (hcb ▸ hc)
  refine ⟨(List.sublist_append_right _ _).trans h.left, (List.sublist_append_right _ _).trans h.right,
    fun e he hfirst => ?_, fun f hf hfirst => ?_, h.ascending, fun c => ?_⟩
  · exact hl.mem_of_ne (h.left_mem e he hfirst) (hne _ hfirst)
  · exact hr.mem_of_ne (h.right_mem f hf hfirst) (hne _ hfirst)
  · constructor
    · exact fun hc => (h.mem_iff_of_ne hl hr (hne c hc)).mp hc
    · intro hc
      exact (h.mem_iff_of_ne hl hr (UInt8.ne_of_lt (lt_of_takes op hl hr hc)).symm).mpr hc

/-- Where no branch for the first byte to come is ahead, there is none. -/
theorem Ahead.not_hasBranch_left (h : Ahead op s t es fs (b :: bytes)) (hb : ∀ e ∈ es, b < e.first) :
    ¬ s.HasBranch b := by
  rintro ⟨e, he, rfl⟩
  exact UInt8.lt_irrefl _ (hb e (h.left_mem e he List.mem_cons_self))

theorem Ahead.not_hasBranch_right (h : Ahead op s t es fs (b :: bytes))
    (hb : ∀ f ∈ fs, b < f.first) : ¬ t.HasBranch b := by
  rintro ⟨f, hf, rfl⟩
  exact UInt8.lt_irrefl _ (hb f (h.right_mem f hf List.mem_cons_self))

/-! ## Merged edges on a frame -/

structure Extends (a a' : Assembly) (m : Merged) : Prop where
  left : a'.left = a.left
  right : a'.right = a.right
  terminal : a'.terminal = a.terminal
  edges : a'.edges = a.edges ++ m.edges
  agree : a'.agree = a.agree &&& m.agree

variable {a a' : Assembly} {m : Merged} {o : Outcome (Edge Trie)} {mask : UInt64}

theorem extends_nil (h : a.Sound) : Extends a a Merged.nil := by
  refine ⟨rfl, rfl, rfl, (List.append_nil _).symm, ?_⟩
  obtain ⟨l, r, hlr⟩ := h.agree
  rw [hlr]
  show _ = Outcome.mask l r &&& Outcome.mask true true
  rw [Outcome.mask_and, Bool.and_true, Bool.and_true]

theorem Extends.skip (h : Extends (a.record b o [] a.agree) a' m) : Extends a a' m :=
  ⟨h.left, h.right, h.terminal, h.edges.trans (congrArg (· ++ m.edges) (List.append_nil a.edges)),
    h.agree⟩

theorem Extends.cons (h : Extends (a.record b o [e] (a.agree &&& mask)) a' m) :
    Extends a a' (m.cons e mask) :=
  ⟨h.left, h.right, h.terminal, h.edges.trans (List.append_assoc a.edges [e] m.edges),
    h.agree.trans (UInt64.and_assoc _ _ _)⟩

/-- An outcome below what two branches share, pushed for their first byte. -/
theorem push_belowKey (h : a.Sound) (he : e ∈ a.left.branches) (hf : f ∈ a.right.branches)
    (hef : f.first = e.first) {o : Outcome Trie} (ho : o.Formed) (k : Path) :
    ∃ o' a₁, o.belowKey? (e.first :: k) = some o' ∧ a.push? e.first o' = some a₁ ∧
      ∀ a' m, Extends a₁ a' m → Extends a a' (m.consBoth e f k o) := by
  cases o with
  | none => exact ⟨.none, _, rfl, rfl, fun a' m hext => hext.skip⟩
  | identity mask =>
    obtain ⟨l, r, rfl, hlr⟩ := ho
    cases l with
    | true =>
      refine ⟨_, _, rfl, h.push_identity (l := true) he r, fun a' m hext => ?_⟩
      have hcons : m.consBoth e f k (.identity (Outcome.mask true r)) =
          m.cons e (Outcome.mask true r) := by
        cases r <;> rfl
      rw [hcons]
      exact hext.cons
    | false =>
      have hpush := h.push_identity (l := false) hf r
      rw [hef] at hpush
      refine ⟨_, _, rfl, hpush, fun a' m hext => ?_⟩
      have hcons : m.consBoth e f k (.identity (Outcome.mask false r)) =
          m.cons f (Outcome.mask false r) := by
        cases r <;> rfl
      rw [hcons]
      exact hext.cons
  | element t =>
    unfold Merged.consBoth
    cases hover : Edge.over e.first k t with
    | none =>
      refine ⟨.none, _, by rw [Outcome.belowKey?, hover], rfl, fun a' m hext => ?_⟩
      simp only [hover]
      exact hext.skip
    | some g =>
      refine ⟨.element g, _, by rw [Outcome.belowKey?, hover], rfl, fun a' m hext => ?_⟩
      simp only [hover]
      refine Extends.cons (b := e.first) (o := .element g) ?_
      rw [UInt64.and_zero]
      exact hext

/-! ## The walk -/

/-- On top of any stack, the loop goes past the branches `es` and `fs` with the edges that `x` merges. -/
def Merges (op : SetOp) (es fs : List (Edge Trie)) (x : Fresh Merged) : Prop :=
  ∀ a bytes parents i, Stack.Sound ⟨⟨a, bytes⟩, parents⟩ → Ahead op a.left a.right es fs bytes →
    ∃ a', op.step?.Reaches (⟨⟨a, bytes⟩, parents⟩, i) (⟨⟨a', []⟩, parents⟩, (x i).2) ∧
      Extends a a' (x i).1

/-- What is known without a look at the branches is what `x` gives; else, on top of any stack, the
loop finishes the frame for `s` and `t` with what `x` gives. -/
structure Combines (op : SetOp) (s t : Stem) (x : Fresh (Outcome Trie)) : Prop where
  settled : ∀ o, op.settle s t = some o → ∀ i, x i = (o, i)
  walked : op.settle s t = none → ∀ parents i, Stack.Sound ⟨op.assemble s t, parents⟩ →
    ∃ a j, op.step?.Reaches (⟨op.assemble s t, parents⟩, i) (⟨⟨a, []⟩, parents⟩, j) ∧
      a.finish? j = some (x i)

variable {x : Fresh Merged} {y : Fresh (Outcome Trie)}

theorem merges_nil (op : SetOp) : Merges op [] [] (pure Merged.nil) := by
  intro a bytes parents i hw hahead
  have hbytes : bytes = [] := by
    rw [List.eq_nil_iff_forall_not_mem]
    intro b hb
    rw [hahead.mem_iff] at hb
    revert hb
    cases op <;> exact Bool.false_ne_true
  subst hbytes
  exact ⟨a, Machine.Reaches.refl _, extends_nil hw.frame.assembly⟩

theorem hasFirst_singleton (e : Edge Trie) : hasFirst [e] e.first = true :=
  hasFirst_iff.mpr ⟨e, List.mem_singleton_self e, rfl⟩

/-- Branches at which nothing is looked at leave the merged edges as they are. -/
theorem Merges.passed (h : Merges op es fs x) (hl : Front b left es) (hr : Front b right fs)
    (ht : op.takes (hasFirst left b) (hasFirst right b) = false) :
    Merges op (left ++ es) (right ++ fs) x :=
  fun a bytes parents i hw hahead => h a bytes parents i hw (hahead.passed hl hr ht)

/-- At the byte `b`, first of those to come, the loop comes back to the frame with that byte done.  What the
branches ahead merge to is then `put` to what comes behind, for the value that `y` gives. -/
def Crosses {β : Type} (op : SetOp) (es fs : List (Edge Trie)) (b : UInt8) (y : Fresh β)
    (put : β → Merged → Merged) : Prop :=
  ∀ a bytes parents i, Stack.Sound ⟨⟨a, b :: bytes⟩, parents⟩ →
    Ahead op a.left a.right es fs (b :: bytes) →
    ∃ a₁, op.step?.Reaches (⟨⟨a, b :: bytes⟩, parents⟩, i) (⟨⟨a₁, bytes⟩, parents⟩, (y i).2) ∧
      ∀ a' m, Extends a₁ a' m → Extends a a' (put (y i).1 m)

theorem Merges.taken {β : Type} {z : Fresh β} {put : β → Merged → Merged} (h : Merges op es fs x)
    (hl : Front b left es) (hr : Front b right fs)
    (ht : op.takes (hasFirst left b) (hasFirst right b) = true)
    (hz : Crosses op (left ++ es) (right ++ fs) b z put) :
    Merges op (left ++ es) (right ++ fs) (do let o ← z; return put o (← x)) := by
  intro a bytes parents i hw hahead
  obtain ⟨bs, rfl, hahead'⟩ := hahead.taken hl hr ht
  obtain ⟨a₁, hreaches, hext⟩ := hz a bs parents i hw hahead
  have hw' := (keeps_sound op).reaches hw hreaches
  have hsame := hext a₁ Merged.nil (extends_nil hw'.frame.assembly)
  rw [← show a₁.left = a.left from hsame.left, ← show a₁.right = a.right from hsame.right] at hahead'
  obtain ⟨a', hreaches', hext'⟩ := h a₁ bs parents (z i).2 hw' hahead'
  exact ⟨a', hreaches.trans hreaches', hext a' _ hext'⟩

/-- A branch that only the left place has. -/
theorem crosses_left (he : e ∈ es) (hf : ∀ f ∈ fs, e.first < f.first) :
    Crosses op es fs e.first (pure ()) fun _ m => m.cons e Outcome.leftBit := by
  intro a bytes parents i hw hahead
  have hsound := hw.frame.assembly
  have hmem := hahead.left.mem he
  have hvisit : a.visit? op e.first = some (.outcome (.identity Outcome.leftBit)) := by
    rw [Assembly.visit?, hsound.left.branch?_eq_some hmem,
      hsound.right.branch?_eq_none (hahead.not_hasBranch_right hf)]
    rfl
  have hstep := leads_outcome bytes parents hvisit (hsound.push_identity (l := true) hmem false) i
  exact ⟨_, hstep.reaches, fun a' m hext => hext.cons⟩

/-- A branch that only the right place has. -/
theorem crosses_right (he : ∀ e ∈ es, f.first < e.first) (hf : f ∈ fs) :
    Crosses op es fs f.first (pure ()) fun _ m => m.cons f Outcome.rightBit := by
  intro a bytes parents i hw hahead
  have hsound := hw.frame.assembly
  have hmem := hahead.right.mem hf
  have hvisit : a.visit? op f.first = some (.outcome (.identity Outcome.rightBit)) := by
    rw [Assembly.visit?, hsound.right.branch?_eq_some hmem,
      hsound.left.branch?_eq_none (hahead.not_hasBranch_left he)]
    rfl
  have hstep := leads_outcome bytes parents hvisit (hsound.push_identity (l := false) hmem true) i
  exact ⟨_, hstep.reaches, fun a' m hext => hext.cons⟩

/-- Two branches that start with one byte, and share `n` bytes behind it. -/
theorem Combines.crosses {n : Nat}
    (hy : Combines op ⟨e.rest.drop n, e.child⟩ ⟨f.rest.drop n, f.child⟩ y)
    (hn : Path.overlap e.rest f.rest = n) (hef : f.first = e.first) (he : e ∈ es) (hf : f ∈ fs) :
    Crosses op es fs e.first y fun o m => m.consBoth e f (e.rest.take n) o := by
  intro a bytes parents i hw hahead
  have hsound := hw.frame.assembly
  have he := hahead.left.mem he
  have hf := hahead.right.mem hf
  have hleft := hsound.left.branch?_eq_some he
  have hright := hsound.right.branch?_eq_some hf
  rw [hef] at hright
  cases hsettle : op.settle ⟨e.rest.drop n, e.child⟩ ⟨f.rest.drop n, f.child⟩ with
  | some o =>
    obtain ⟨o', a₁, ho', ha₁, hext⟩ := push_belowKey hsound he hf hef (formed_of_settle hsettle)
      (e.rest.take n)
    have hvisit := Assembly.visit?_settled hleft hright hef.symm hn hsettle
    rw [ho'] at hvisit
    have hstep := leads_outcome bytes parents hvisit ha₁ i
    rw [hy.settled o hsettle i]
    exact ⟨a₁, hstep.reaches, hext⟩
  | none =>
    have hvisit := Assembly.visit?_descent hleft hright hef.symm hn hsettle
    have hdown := leads_descent bytes parents hvisit i
    have hw' := (keeps_sound op).reaches hw hdown.reaches
    obtain ⟨b, j, hreaches, hfinish⟩ := hy.walked hsettle _ i hw'
    -- the nested frame is sound, so its outcome is well formed
    obtain ⟨o, j', ho, hformed⟩ := ((keeps_sound op).reaches hw' hreaches).frame.assembly.finish j
    have heq : y i = (o, j') := Option.some.inj (hfinish.symm.trans ho)
    obtain ⟨o', a₁, ho', ha₁, hext⟩ := push_belowKey hsound he hf hef hformed (e.rest.take n)
    have hresume : Waiting.resume? ⟨⟨a, bytes⟩, e.first, e.first :: e.rest.take n⟩ o =
        some ⟨a₁, bytes⟩ := by
      rw [Waiting.resume?, ho']
      show (do return ⟨← a.push? e.first o', bytes⟩ : Option Frame) = _
      rw [ha₁]
      rfl
    rw [heq]
    exact ⟨a₁, hdown.reaches.trans (hreaches.trans (leads_resume parents ho hresume).reaches), hext⟩

theorem Merges.consLeft (h : Merges op es fs x) (he : ∀ g ∈ es, e.first < g.first)
    (hf : ∀ f ∈ fs, e.first < f.first) :
    Merges op (e :: es) fs (do return (← x).consLeft op e) := by
  have hl : Front e.first [e] es := front_singleton he
  have hr : Front e.first [] fs := front_nil hf
  have htakes : op.takes (hasFirst [e] e.first) (hasFirst [] e.first) = op.keepsLeft := by
    rw [hasFirst_singleton]
    cases op <;> rfl
  unfold Merged.consLeft
  cases hk : op.keepsLeft with
  | false => exact h.passed hl hr (htakes.trans hk)
  | true => exact h.taken hl hr (htakes.trans hk) (crosses_left List.mem_cons_self hf)

theorem Merges.consRight (h : Merges op es fs x) (he : ∀ e ∈ es, f.first < e.first)
    (hf : ∀ g ∈ fs, f.first < g.first) :
    Merges op es (f :: fs) (do return (← x).consRight op f) := by
  have hl : Front f.first [] es := front_nil he
  have hr : Front f.first [f] fs := front_singleton hf
  have htakes : op.takes (hasFirst [] f.first) (hasFirst [f] f.first) = op.keepsRight := by
    rw [hasFirst_singleton]
    cases op <;> rfl
  unfold Merged.consRight
  cases hk : op.keepsRight with
  | false => exact h.passed hl hr (htakes.trans hk)
  | true => exact h.taken hl hr (htakes.trans hk) (crosses_right he List.mem_cons_self)

theorem Merges.consBoth (h : Merges op es fs x) (hef : f.first = e.first)
    (he : ∀ g ∈ es, e.first < g.first) (hf : ∀ g ∈ fs, f.first < g.first) {n : Nat}
    (hn : Path.overlap e.rest f.rest = n)
    (hy : Combines op ⟨e.rest.drop n, e.child⟩ ⟨f.rest.drop n, f.child⟩ y) :
    Merges op (e :: es) (f :: fs)
      (do let o ← y; return (← x).consBoth e f (e.rest.take n) o) := by
  have hl : Front e.first [e] es := front_singleton he
  have hr : Front e.first [f] fs := hef ▸ front_singleton hf
  have htakes : op.takes (hasFirst [e] e.first) (hasFirst [f] e.first) = true := by
    rw [hasFirst_singleton, ← hef, hasFirst_singleton]
    cases op <;> rfl
  exact h.taken hl hr htakes (hy.crosses hn hef List.mem_cons_self List.mem_cons_self)

/-- At its end a frame with the merged edges has the outcome that they have. -/
theorem finish?_eq (ha : a.Sound) (h : Extends (op.assemble s t).assembly a m) (i : Nat) :
    a.finish? i = some (op.finish s t m i) := by
  have hedges : a.edges = m.edges := h.edges
  have hterminal : a.terminal = op.terminal s.isMember t.isMember := h.terminal
  have hagree : a.agree = Outcome.mask (op.terminal s.isMember t.isMember == s.isMember)
      (op.isCommutative && op.terminal s.isMember t.isMember == t.isMember) &&& m.agree := h.agree
  have hunchanged := Assembly.unchanged_eq hagree
  rw [hedges, show a.left = s from h.left, show a.right = t from h.right] at hunchanged
  have hbuild := ha.buildable
  rw [hedges] at hbuild
  unfold Assembly.finish? finish
  rw [hedges, hterminal, hunchanged, make?_eq hbuild]
  generalize op.terminal s.isMember t.isMember = x
  by_cases hnone : (m.edges.isEmpty && !x) = true
  · simp only [hnone, if_true]
    rfl
  · simp only [hnone]
    show (if m.agree &&& Outcome.mask _ _ ≠ 0 then _ else _) =
      some ((if m.agree &&& Outcome.mask _ _ = 0 then _ else _ : Fresh (Outcome Trie)) i)
    by_cases hzero : m.agree &&& Outcome.mask (x == s.isMember && m.edges.length == s.branches.length)
        (op.isCommutative && x == t.isMember && m.edges.length == t.branches.length) = 0
    · rw [if_neg (not_not.mpr hzero), if_pos hzero]
      rfl
    · rw [if_pos hzero, if_neg hzero]
      rfl

/-- The place `n` bytes behind the first byte of the first edge. -/
theorem isOperand_head (h : CanonicalEdges (e :: es)) (n : Nat) :
    Stem.IsOperand ⟨e.rest.drop n, e.child⟩ :=
  ⟨h.canonical e List.mem_cons_self, fun _ => h.inner e List.mem_cons_self⟩

/-- The loop gives for two places what the recursive walk gives.  The induction is that of the walk: two
places, or the edges at two places. -/
theorem combines (op : SetOp) (s t : Stem) (hs : s.IsOperand) (ht : t.IsOperand) :
    Combines op s t (op.combine s t) := by
  refine combine.induct op
    (fun s t => s.IsOperand → t.IsOperand → Combines op s t (op.combine s t))
    (fun es fs => CanonicalEdges es → CanonicalEdges fs → Merges op es fs (op.combineEdges es fs))
    ?_ ?_ ?_ ?_ ?_ ?_ ?_ ?_ s t hs ht
  case refine_1 =>
    intro s t o h hs ht
    refine ⟨fun o' ho' i => ?_, fun hn => ?_⟩
    · obtain rfl := Option.some.inj (h.symm.trans ho')
      rw [combine, h]
      rfl
    · cases h.symm.trans hn
  case refine_2 =>
    intro s t h ih hs ht
    refine ⟨fun o ho => ?_, fun _ parents i hw => ?_⟩
    · cases h.symm.trans ho
    · obtain ⟨a, hreaches, hext⟩ := ih hs.edges ht.edges (op.assemble s t).assembly _ parents i hw
        (ahead_assemble op hs ht)
      have ha := ((keeps_sound op).reaches hw hreaches).frame.assembly
      refine ⟨a, _, hreaches, ?_⟩
      rw [finish?_eq ha hext, combine, h]
      rfl
  case refine_3 =>
    intro _ _
    rw [combineEdges]
    exact merges_nil op
  case refine_4 =>
    intro b k s es ih he hf
    rw [combineEdges]
    exact (ih he.tail hf).consLeft he.head_lt fun f h => absurd h List.not_mem_nil
  case refine_5 =>
    intro c l t fs ih he hf
    rw [combineEdges]
    exact (ih he hf.tail).consRight (fun e h => absurd h List.not_mem_nil) hf.head_lt
  case refine_6 =>
    intro b k s es c l t fs hbc ih he hf
    rw [combineEdges, if_pos hbc]
    exact (ih he.tail hf).consLeft he.head_lt (hf.lt_of_lt_head hbc)
  case refine_7 =>
    intro b k s es c l t fs hbc hcb ih he hf
    rw [combineEdges, if_neg hbc, if_pos hcb]
    exact (ih he hf.tail).consRight (he.lt_of_lt_head hcb) hf.head_lt
  case refine_8 =>
    intro b k s es c l t fs hbc hcb n ihc ih he hf
    obtain rfl : b = c := UInt8.le_antisymm (UInt8.not_lt.mp hcb) (UInt8.not_lt.mp hbc)
    rw [combineEdges, if_neg hbc, if_neg hcb]
    have hc := ihc (isOperand_head he n) (isOperand_head hf n)
    exact (ih he.tail hf.tail).consBoth (e := ⟨b, k, s⟩) (f := ⟨b, l, t⟩) rfl he.head_lt hf.head_lt
      rfl hc

/-- Started on the frame for two tries, the loop is never stopped, every stack of frames that it comes to is
sound, and it gives what `apply` gives, with the same ids. -/
theorem safe_apply (op : SetOp) {s t : Trie} (hs : s.Canonical) (ht : t.Canonical)
    (h : op.settle ⟨[], s⟩ ⟨[], t⟩ = none) (i : Nat) :
    op.step?.Safe Stack.Sound (⟨op.assemble ⟨[], s⟩ ⟨[], t⟩, []⟩, i) (op.apply s t i) := by
  have hs' := Stem.IsOperand.of_canonical hs
  have ht' := Stem.IsOperand.of_canonical ht
  have hw : Stack.Sound ⟨op.assemble ⟨[], s⟩ ⟨[], t⟩, []⟩ :=
    ⟨op.sound_assemble hs' ht', fun p hp => absurd hp List.not_mem_nil⟩
  obtain ⟨a, j, hreaches, hfinish⟩ := (combines op _ _ hs' ht').walked h [] i hw
  exact (keeps_sound op).safe hw ⟨_, hreaches, step?_last hfinish⟩

end SetOp

end ByteTrie
