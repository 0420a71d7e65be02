import ByteTrie.Proofs.Outcome
import Mathlib

/-!
# Combining two tries

The joint walk over two tries is exact.  Merged edges are described byte by byte: what is behind a
byte is what the operation makes of what the arguments have behind it, and an argument is agreed
with if it has the same behind every byte that is left.  From this follow the outcome at a node and,
by induction over the walk, the outcome for whole tries.

    makes_combine      the outcome of `combine op s t` is exact for the members of s and t
    makes_apply        the same for whole tries
-/

namespace ByteTrie

open Trie Pool

namespace SetOp

/-! ## Merged edges -/

/-- Behind each byte that `gs` has, `gs` and `es` lead to the same paths. -/
def Agrees (gs es : List (Edge Trie)) : Prop :=
  ∀ b, (after b (edgeMembers gs)).Nonempty → after b (edgeMembers gs) = after b (edgeMembers es)

/-- What merging the edges `es` and `fs` has to give: their combined paths, and the arguments with
which all edges agree. -/
structure Merged.Exact (op : SetOp) (Q : Pool) (es fs : List (Edge Trie)) (m : Merged) : Prop where
  edges : Q.Edges m.edges
  members : edgeMembers m.edges = op.result (edgeMembers es) (edgeMembers fs)
  agree : ∃ l r, m.agree = Outcome.mask l r ∧ (l = true ↔ Agrees m.edges es) ∧
    (op.isCommutative = true → (r = true ↔ Agrees m.edges fs))

/-- At most one edge that starts with `b`, in front of edges that start with greater bytes. -/
structure Front (b : UInt8) (top es : List (Edge Trie)) : Prop where
  first_eq : ∀ e ∈ top, e.first = b
  lt_first : ∀ e ∈ es, b < e.first

variable {op : SetOp} {P Q : Pool} {b : UInt8} {top es : List (Edge Trie)}

theorem Front.after_self (h : Front b top es) :
    after b (edgeMembers (top ++ es)) = after b (edgeMembers top) := by
  have he := after_edgeMembers_of_forall_ne b es fun e he => (UInt8.ne_of_lt (h.lt_first e he)).symm
  ext p
  have hp := Set.ext_iff.mp he p
  simp only [mem_after, Set.mem_empty_iff_false, iff_false] at hp
  simp [edgeMembers_append, hp]

theorem Front.after_ne (h : Front b top es) {c : UInt8} (hc : c ≠ b) :
    after c (edgeMembers (top ++ es)) = after c (edgeMembers es) := by
  have ht := after_edgeMembers_of_forall_ne c top fun e he => h.first_eq e he ▸ Ne.symm hc
  ext p
  have hp := Set.ext_iff.mp ht p
  simp only [mem_after, Set.mem_empty_iff_false, iff_false] at hp
  simp [edgeMembers_append, hp]

theorem agrees_front {new gs : List (Edge Trie)} (hn : Front b new gs) (ht : Front b top es)
    (hgs : ¬ (after b (edgeMembers gs)).Nonempty) :
    Agrees (new ++ gs) (top ++ es) ↔
      ((after b (edgeMembers new)).Nonempty →
        after b (edgeMembers new) = after b (edgeMembers top)) ∧ Agrees gs es := by
  constructor
  · intro h
    refine ⟨?_, fun c hc => ?_⟩
    · have hb := h b
      rwa [hn.after_self, ht.after_self] at hb
    · by_cases hcb : c = b
      · exact absurd (hcb ▸ hc) hgs
      · have hb := h c
        rw [hn.after_ne hcb, ht.after_ne hcb] at hb
        exact hb hc
  · rintro ⟨hb, hr⟩ c hc
    by_cases hcb : c = b
    · subst hcb
      rw [hn.after_self] at hc
      rw [hn.after_self, ht.after_self]
      exact hb hc
    · rw [hn.after_ne hcb] at hc
      rw [hn.after_ne hcb, ht.after_ne hcb]
      exact hr c hc

/-- The merged edges start with bytes of the arguments. -/
theorem Merged.Exact.lt_first {fs : List (Edge Trie)} {m : Merged} (h : m.Exact op Q es fs)
    (he : ∀ e ∈ es, b < e.first) (hf : ∀ f ∈ fs, b < f.first) : ∀ g ∈ m.edges, b < g.first := by
  intro g hg
  obtain ⟨p, hp⟩ := (h.edges.nonempty_after_iff g.first).mpr ⟨g, hg, rfl⟩
  rw [h.members, after_result op fun _ => nil_not_mem_edgeMembers fs] at hp
  have hsub : p ∈ after g.first (edgeMembers es) ∨ p ∈ after g.first (edgeMembers fs) := by
    revert hp
    cases op with
    | join => exact id
    | meet => exact fun hp => Or.inl hp.1
    | subtract => exact fun hp => Or.inl hp.1
    | restrict => exact fun hp => Or.inl hp.1
  rcases hsub with hp | hp
  · obtain ⟨e, hem, heg, -⟩ := (cons_mem_edgeMembers es _ p).mp hp
    exact heg ▸ he e hem
  · obtain ⟨f, hfm, hfg, -⟩ := (cons_mem_edgeMembers fs _ p).mp hp
    exact hfg ▸ hf f hfm

variable {left right es fs : List (Edge Trie)} {m : Merged}

theorem members_front {new : List (Edge Trie)} (h : m.Exact op Q es fs) (hl : Front b left es)
    (hr : Front b right fs) (hn : Front b new m.edges)
    (hb : after b (edgeMembers new) =
      op.result (after b (edgeMembers left)) (after b (edgeMembers right))) :
    edgeMembers (new ++ m.edges) =
      op.result (edgeMembers (left ++ es)) (edgeMembers (right ++ fs)) := by
  have nil_not_mem : [] ∉ op.result (edgeMembers (left ++ es)) (edgeMembers (right ++ fs)) := by
    cases op <;> simp [result]
  refine eq_of_after_eq (nil_not_mem_edgeMembers _) nil_not_mem fun c => ?_
  rw [after_result op fun _ => nil_not_mem_edgeMembers _]
  by_cases hc : c = b
  · subst hc
    rw [hn.after_self, hl.after_self, hr.after_self, hb]
  · rw [hn.after_ne hc, hl.after_ne hc, hr.after_ne hc, h.members,
      after_result op fun _ => nil_not_mem_edgeMembers fs]

/-- At a byte at which nothing is left, the merged edges stay as they are. -/
theorem Merged.Exact.skip (h : m.Exact op Q es fs) (hl : Front b left es) (hr : Front b right fs)
    (hb : op.result (after b (edgeMembers left)) (after b (edgeMembers right)) = ∅) :
    m.Exact op Q (left ++ es) (right ++ fs) := by
  have hlt := h.lt_first hl.lt_first hr.lt_first
  have hn : Front b [] m.edges := ⟨fun _ h => absurd h List.not_mem_nil, hlt⟩
  have hgs : ¬ (after b (edgeMembers m.edges)).Nonempty := by
    rw [h.edges.nonempty_after_iff]
    rintro ⟨e, he, heb⟩
    exact UInt8.ne_of_lt (hlt e he) heb.symm
  have hnil : after b (edgeMembers ([] : List (Edge Trie))) = ∅ := by rw [edgeMembers_nil]; rfl
  obtain ⟨l, r, hm, hml, hmr⟩ := h.agree
  refine ⟨h.edges, members_front h hl hr hn (hnil.trans hb.symm), l, r, hm, ?_, fun hc => ?_⟩
  · have ha := agrees_front hn hl hgs
    rw [hnil] at ha
    simpa [hml] using ha.symm
  · have ha := agrees_front hn hr hgs
    rw [hnil] at ha
    simpa [hmr hc] using ha.symm

/-- At a byte at which an edge is left, that edge is put in front, with the arguments that have it
among those that its mask names. -/
theorem Merged.Exact.cons (h : m.Exact op Q es fs) (hl : Front b left es) (hr : Front b right fs)
    {g : Edge Trie} {l r : Bool} (hg : g.first = b) (hc : g.child ∈ Q) (hi : g.child.IsInner)
    (hb : after b (edgeMembers [g]) =
      op.result (after b (edgeMembers left)) (after b (edgeMembers right)))
    (hgl : l = true ↔ after b (edgeMembers [g]) = after b (edgeMembers left))
    (hgr : op.isCommutative = true →
      (r = true ↔ after b (edgeMembers [g]) = after b (edgeMembers right))) :
    (m.cons g (Outcome.mask l r)).Exact op Q (left ++ es) (right ++ fs) := by
  have hlt := h.lt_first hl.lt_first hr.lt_first
  have hn : Front b [g] m.edges :=
    ⟨fun e he => (List.mem_singleton.mp he) ▸ hg, hlt⟩
  have hgs : ¬ (after b (edgeMembers m.edges)).Nonempty := by
    rw [h.edges.nonempty_after_iff]
    rintro ⟨e, he, heb⟩
    exact UInt8.ne_of_lt (hlt e he) heb.symm
  have hedges : Q.Edges (g :: m.edges) := Edges.cons hc hi (fun f hf => hg ▸ hlt f hf) h.edges
  have hne : (after b (edgeMembers [g])).Nonempty := by
    obtain ⟨q, hq⟩ := Pool.exists_mem_of_inner hc hi
    exact ⟨g.rest ++ q, (cons_mem_edgeMembers [g] b _).mpr
      ⟨g, List.mem_singleton_self g, hg, q, hq, rfl⟩⟩
  obtain ⟨l', r', hm, hml, hmr⟩ := h.agree
  refine ⟨hedges, members_front h hl hr hn hb, l && l', r && r', ?_, ?_, fun hcm => ?_⟩
  · show Outcome.mask l r &&& m.agree = _
    rw [hm, Outcome.mask_and]
  · have ha := agrees_front hn hl hgs
    rw [Bool.and_eq_true, hgl, hml]
    exact (ha.trans (and_congr_left' ⟨fun h => h hne, fun h _ => h⟩)).symm
  · have ha := agrees_front hn hr hgs
    rw [Bool.and_eq_true, hgr hcm, hmr hcm]
    exact (ha.trans (and_congr_left' ⟨fun h => h hne, fun h _ => h⟩)).symm

theorem front_nil (h : ∀ e ∈ es, b < e.first) : Front b [] es :=
  ⟨fun _ h => absurd h List.not_mem_nil, h⟩

theorem front_singleton {e : Edge Trie} (h : ∀ f ∈ es, e.first < f.first) :
    Front e.first [e] es :=
  ⟨fun f hf => by rw [List.mem_singleton.mp hf], h⟩

theorem after_nil (b : UInt8) : after b (edgeMembers []) = ∅ := by
  rw [edgeMembers_nil]
  rfl

theorem Merged.Exact.consLeft {e : Edge Trie} (h : m.Exact op Q es fs) (he : Q.Edges (e :: es))
    (hf : ∀ f ∈ fs, e.first < f.first) : (m.consLeft op e).Exact op Q (e :: es) fs := by
  have hl := front_singleton he.head_lt
  have hr := front_nil hf
  have hne : after e.first (edgeMembers [e]) ≠ ∅ := by
    rw [← Set.nonempty_iff_ne_empty, (Edges.head he).nonempty_after_iff]
    exact ⟨e, List.mem_singleton_self e, rfl⟩
  unfold Merged.consLeft
  split
  · next hk =>
    refine h.cons hl hr (l := true) (r := false) rfl (he.child_mem e List.mem_cons_self)
      (he.inner e List.mem_cons_self) ?_ (by simp) fun _ => ?_
    · rw [after_nil, result_empty_right, if_pos hk]
    · rw [after_nil]
      simp [hne]
  · next hk => exact h.skip hl hr (by rw [after_nil, result_empty_right, if_neg hk])

theorem Merged.Exact.consRight {f : Edge Trie} (h : m.Exact op Q es fs) (hf : Q.Edges (f :: fs))
    (he : ∀ e ∈ es, f.first < e.first) : (m.consRight op f).Exact op Q es (f :: fs) := by
  have hl := front_nil he
  have hr := front_singleton hf.head_lt
  have hne : after f.first (edgeMembers [f]) ≠ ∅ := by
    rw [← Set.nonempty_iff_ne_empty, (Edges.head hf).nonempty_after_iff]
    exact ⟨f, List.mem_singleton_self f, rfl⟩
  unfold Merged.consRight
  split
  · next hk =>
    refine h.cons hl hr (l := false) (r := true) rfl (hf.child_mem f List.mem_cons_self)
      (hf.inner f List.mem_cons_self) ?_ ?_ (by simp)
    · rw [after_nil, result_empty_left, if_pos hk]
    · rw [after_nil]
      simp [hne]
  · next hk => exact h.skip hl hr (by rw [after_nil, result_empty_left, if_neg hk])

theorem image_append_injective (c : Path) :
    Function.Injective ((c ++ ·) '' · : Set Path → Set Path) :=
  Set.image_injective.mpr fun _ _ => List.append_cancel_left

/-- Behind the first byte of an edge its key may be cut in two. -/
theorem after_eq_image (b : UInt8) (k : Path) (s : Trie) (n : Nat) :
    after b (edgeMembers [⟨b, k, s⟩]) = (k.take n ++ ·) '' Stem.members ⟨k.drop n, s⟩ := by
  rw [after_edgeMembers_singleton, ← Stem.members_append, List.take_append_drop]

/-! Two edges that start with one byte, behind which both have `c` in front of the sets `A` and
`B`. -/

section

variable {e f : Edge Trie} {c : Path} {A B : Set Path}

/-- The edge of an argument that has the combined members is kept. -/
theorem Merged.Exact.consIdentity {mask : UInt64} (h : m.Exact op Q es fs)
    (he : Q.Edges (e :: es)) (hf : Q.Edges (f :: fs)) (hef : f.first = e.first)
    (hA : after e.first (edgeMembers [e]) = (c ++ ·) '' A)
    (hB : after e.first (edgeMembers [f]) = (c ++ ·) '' B)
    (ho : (Outcome.identity mask).Exact Q op.isCommutative A B (op.result A B)) :
    (m.consBoth e f c (.identity mask)).Exact op Q (e :: es) (f :: fs) := by
  have hl : Front e.first [e] es := front_singleton he.head_lt
  have hr : Front e.first [f] fs := hef ▸ front_singleton hf.head_lt
  have inj := image_append_injective c
  have hresult : op.result (after e.first (edgeMembers [e])) (after e.first (edgeMembers [f])) =
      (c ++ ·) '' op.result A B := by
    rw [hA, hB, result_image]
  obtain ⟨hne, x, y, rfl, hxy, hx, hy⟩ := ho
  unfold Merged.consBoth
  simp only [Outcome.mask_and_leftBit_eq_zero_iff]
  cases x with
  | true =>
    have hR : op.result A B = A := hx.mp rfl
    refine h.cons hl hr (g := e) rfl (he.child_mem _ List.mem_cons_self)
      (he.inner _ List.mem_cons_self) (by rw [hresult, hR, hA]) (by simp) fun hcm => ?_
    rw [hy, hR]
    simp only [hA, hB, hcm, true_and, inj.eq_iff]
  | false =>
    have hyt : y = true := by simpa using hxy
    obtain ⟨hcm, hR⟩ := hy.mp hyt
    have hAB : A ≠ B := fun hAB => by simpa using hx.mpr (hR.trans hAB.symm)
    refine h.cons hl hr (g := f) hef (hf.child_mem _ List.mem_cons_self)
      (hf.inner _ List.mem_cons_self) (by rw [hresult, hR, hB]) ?_ fun _ => by simp [hyt]
    simp only [hA, hB, Bool.false_eq_true, inj.eq_iff, false_iff]
    exact Ne.symm hAB

/-- The edge to a combined set is neither argument's. -/
theorem Merged.Exact.consElement {v : Trie} (h : m.Exact op Q es fs)
    (hl : Front e.first [e] es) (hr : Front e.first [f] fs)
    (hA : after e.first (edgeMembers [e]) = (c ++ ·) '' A)
    (hB : after e.first (edgeMembers [f]) = (c ++ ·) '' B)
    (ho : (Outcome.element v).Exact Q op.isCommutative A B (op.result A B)) :
    (m.consBoth e f c (.element v)).Exact op Q (e :: es) (f :: fs) := by
  have inj := image_append_injective c
  obtain ⟨hne, hnA, hnB, hv, hR⟩ := ho
  unfold Merged.consBoth
  simp only
  cases hg : Edge.over e.first c v with
  | none => exact absurd (hR.symm.trans (members_of_over_eq_none hv hg)) hne
  | some g =>
    obtain ⟨hgb, hgc, hgi, hgm⟩ := over_eq_some hv hg
    have hgR : after e.first (edgeMembers [g]) = (c ++ ·) '' op.result A B := by
      obtain ⟨b', k', u⟩ := g
      obtain rfl : b' = e.first := hgb
      rw [after_edgeMembers_singleton, hgm, ← hR, ← Stem.members_nil, ← Stem.members_append,
        List.append_nil]
    refine h.cons hl hr (l := false) (r := false) hgb hgc hgi ?_ ?_ fun hcm => ?_
    · rw [hgR, hA, hB, result_image]
    · rw [hgR, hA, inj.eq_iff]
      simp [hnA]
    · rw [hgR, hB, inj.eq_iff]
      simp [hnB hcm]

end

theorem Merged.Exact.consBoth {k l : Path} {s t : Trie} {o : Outcome Trie}
    (h : m.Exact op Q es fs) (he : Q.Edges (⟨b, k, s⟩ :: es)) (hf : Q.Edges (⟨b, l, t⟩ :: fs))
    (ho : o.Exact Q op.isCommutative (Stem.members ⟨k.drop (Path.overlap k l), s⟩)
      (Stem.members ⟨l.drop (Path.overlap k l), t⟩)
      (op.result (Stem.members ⟨k.drop (Path.overlap k l), s⟩)
        (Stem.members ⟨l.drop (Path.overlap k l), t⟩))) :
    (m.consBoth ⟨b, k, s⟩ ⟨b, l, t⟩ (k.take (Path.overlap k l)) o).Exact op Q (⟨b, k, s⟩ :: es)
      (⟨b, l, t⟩ :: fs) := by
  have hl : Front b [⟨b, k, s⟩] es := front_singleton he.head_lt
  have hr : Front b [⟨b, l, t⟩] fs := front_singleton hf.head_lt
  have hA := after_eq_image b k s (Path.overlap k l)
  have hB := after_eq_image b l t (Path.overlap k l)
  rw [← Path.take_overlap] at hB
  cases o with
  | none =>
    have hR : op.result _ _ = ∅ := ho
    exact h.skip hl hr (by rw [hA, hB, result_image, hR, Set.image_empty])
  | identity mask => exact h.consIdentity he hf rfl hA hB ho
  | element v => exact h.consElement hl hr hA hB ho

/-! ## Whole nodes -/

/-- Edges that agree with `es`, as many as `es`, lead to the same paths. -/
theorem edgeMembers_eq_iff {gs : List (Edge Trie)} (hg : Q.Edges gs) (he : Q.Edges es) :
    edgeMembers gs = edgeMembers es ↔ Agrees gs es ∧ gs.length = es.length := by
  constructor
  · intro h
    exact ⟨fun c _ => by rw [h], hg.length_eq he h⟩
  · rintro ⟨ha, hlen⟩
    have hsub : ∀ g ∈ gs, ∃ e ∈ es, e.first = g.first := by
      intro g hgm
      have hne := (hg.nonempty_after_iff g.first).mpr ⟨g, hgm, rfl⟩
      rw [← he.nonempty_after_iff, ← ha g.first hne]
      exact hne
    have hfirsts : (gs.map fun e => e.first) = es.map fun e => e.first :=
      (hg.firsts_sublist he hsub).eq_of_length (by simpa using hlen)
    refine eq_of_after_eq (nil_not_mem_edgeMembers gs) (nil_not_mem_edgeMembers es) fun c => ?_
    by_cases hc : (after c (edgeMembers gs)).Nonempty
    · exact ha c hc
    · have hc' : ¬ (after c (edgeMembers es)).Nonempty := by
        rw [he.nonempty_after_iff]
        rw [hg.nonempty_after_iff] at hc
        have := Iff.of_eq (congrArg (c ∈ ·) hfirsts)
        simpa [List.mem_map] using (not_congr this).mp (by simpa [List.mem_map] using hc)
      rw [Set.not_nonempty_iff_eq_empty.mp hc, Set.not_nonempty_iff_eq_empty.mp hc']

/-- The set of the paths of edges, with the empty path if `b`. -/
def nodeMembers (b : Bool) (es : List (Edge Trie)) : Set Path :=
  {p | (p = [] ∧ b = true) ∨ p ∈ edgeMembers es}

theorem nodeMembers_eq_iff {a c : Bool} {gs : List (Edge Trie)} :
    nodeMembers a gs = nodeMembers c es ↔ a = c ∧ edgeMembers gs = edgeMembers es := by
  constructor
  · intro h
    refine ⟨?_, ?_⟩
    · have hn := Set.ext_iff.mp h []
      rw [Bool.eq_iff_iff]
      simpa [nodeMembers] using hn
    · ext p
      cases p with
      | nil => simp
      | cons d p =>
        have hp := Set.ext_iff.mp h (d :: p)
        simpa [nodeMembers] using hp
  · rintro ⟨rfl, he⟩
    rw [nodeMembers, he]
    rfl

/-- A place from which two tries may be combined: a node, or inside an edge. -/
structure IsPlace (P : Pool) (s : Stem) : Prop where
  mem : s.child ∈ P
  inner : s.key ≠ [] → s.child.IsInner

theorem IsPlace.edges {s : Stem} (h : IsPlace P s) : P.Edges s.branches := by
  obtain ⟨k, t⟩ := s
  cases k with
  | nil => exact edges_of_mem h.mem
  | cons c k =>
    exact Edges.cons h.mem (h.inner (List.cons_ne_nil c k)) (fun _ hf => absurd hf List.not_mem_nil)
      (edges_nil P)

theorem IsPlace.mono {s : Stem} (h : IsPlace P s) (hPQ : P ≤ Q) : IsPlace Q s :=
  ⟨hPQ.2 _ h.mem, h.inner⟩

theorem IsPlace.isEmpty_iff {s : Stem} (h : IsPlace P s) : s.isEmpty = true ↔ s.members = ∅ := by
  rw [Stem.isEmpty, Pool.isEmpty_iff h.mem, Set.eq_empty_iff_forall_notMem,
    Set.eq_empty_iff_forall_notMem]
  constructor
  · rintro hn p ⟨q, hq, rfl⟩
    exact hn q hq
  · intro hn q hq
    exact hn (s.key ++ q) ⟨q, hq, rfl⟩

theorem IsPlace.members_eq_of_sameNode {s t : Stem} (hs : IsPlace P s) (ht : IsPlace P t)
    (h : s.sameNode t = true) : s.members = t.members := by
  obtain ⟨k, u⟩ := s
  obtain ⟨l, v⟩ := t
  simp only [Stem.sameNode, Bool.and_eq_true, List.isEmpty_iff] at h
  obtain ⟨⟨rfl, rfl⟩, huv⟩ := h
  have huv : u = v := eq_of_sameNode hs.mem ht.mem huv
  rw [huv]

theorem members_eq_nodeMembers (s : Stem) : s.members = nodeMembers s.isMember s.branches := by
  ext p
  exact s.mem_iff p

theorem result_nodeMembers (op : SetOp) (s t : Stem)
    (h : op = restrict → t.isMember = false) {gs : List (Edge Trie)}
    (hgs : edgeMembers gs = op.result (edgeMembers s.branches) (edgeMembers t.branches)) :
    op.result s.members t.members = nodeMembers (op.terminal s.isMember t.isMember) gs := by
  ext p
  cases p with
  | nil =>
    rw [nil_mem_result op s.nil_mem_iff t.nil_mem_iff h]
    simp [nodeMembers]
  | cons c p =>
    have ht : op = restrict → [] ∉ t.members := fun ho => by
      rw [t.nil_mem_iff, h ho]
      exact Bool.false_ne_true
    have ha := Set.ext_iff.mp (after_result op ht (A := s.members) c) p
    have hb := Set.ext_iff.mp (after_result op (fun _ => nil_not_mem_edgeMembers t.branches)
      (A := edgeMembers s.branches) c) p
    rw [s.after_members, t.after_members, ← hb, ← hgs] at ha
    simpa [nodeMembers] using ha

variable {s t : Stem}

theorem nodeMembers_eq_empty_iff {x : Bool} {gs : List (Edge Trie)} (hg : Q.Edges gs) :
    nodeMembers x gs = ∅ ↔ gs = [] ∧ x = false := by
  constructor
  · intro h
    refine ⟨List.eq_nil_iff_forall_not_mem.mpr fun g hgm => ?_, ?_⟩
    · obtain ⟨p, hp⟩ := hg.exists_mem g hgm
      exact Set.eq_empty_iff_forall_notMem.mp h (g.key ++ p) (Or.inr ⟨g, hgm, p, hp, rfl⟩)
    · rw [← Bool.not_eq_true]
      exact fun hx => Set.eq_empty_iff_forall_notMem.mp h [] (Or.inl ⟨rfl, hx⟩)
  · rintro ⟨rfl, rfl⟩
    ext p
    simp [nodeMembers]

/-- A node has the members of a place if their terminal marks are the same, all its edges agree
with that place, and it has as many. -/
theorem IsPlace.nodeMembers_eq_iff {x : Bool} {gs : List (Edge Trie)} (hs : IsPlace Q s)
    (hg : Q.Edges gs) : nodeMembers x gs = s.members ↔
      Agrees gs s.branches ∧ x = s.isMember ∧ gs.length = s.branches.length := by
  rw [members_eq_nodeMembers, SetOp.nodeMembers_eq_iff, edgeMembers_eq_iff hg hs.edges]
  tauto

/-- The mask at a node names the arguments that have its members. -/
theorem Merged.Exact.mask_eq (hm : m.Exact op Q s.branches t.branches) (hs : IsPlace Q s)
    (ht : IsPlace Q t) (x : Bool) : ∃ l r,
      m.agree &&& ((if (x == s.isMember && m.edges.length == s.branches.length) = true
          then Outcome.leftBit else 0) |||
        if (op.isCommutative && x == t.isMember && m.edges.length == t.branches.length) = true
          then Outcome.rightBit else 0) = Outcome.mask l r ∧
      (l = true ↔ nodeMembers x m.edges = s.members) ∧
      (r = true ↔ op.isCommutative = true ∧ nodeMembers x m.edges = t.members) := by
  obtain ⟨l, r, hlr, hl, hr⟩ := hm.agree
  refine ⟨_, _, (congrArg (· &&& _) hlr).trans (Outcome.mask_and l r _ _), ?_, ?_⟩
  · rw [hs.nodeMembers_eq_iff hm.edges, ← hl]
    simp only [Bool.and_eq_true, beq_iff_eq]
  · rw [and_congr_right fun hc => by rw [ht.nodeMembers_eq_iff hm.edges, ← hr hc]]
    simp only [Bool.and_eq_true, beq_iff_eq]
    tauto

/-- The outcome at a node is exact for what its merged edges lead to. -/
theorem makes_finish (hs : IsPlace Q s) (ht : IsPlace Q t)
    (hm : m.Exact op Q s.branches t.branches) (h : op = restrict → t.isMember = false) :
    Q.Makes (op.finish s t m) fun R o =>
      o.Exact R op.isCommutative s.members t.members (op.result s.members t.members) := by
  rw [result_nodeMembers op s t h hm.members]
  unfold finish
  generalize op.terminal s.isMember t.isMember = x
  obtain ⟨l, r, hmask, hl, hr⟩ := hm.mask_eq hs ht x
  by_cases hempty : (m.edges.isEmpty && !x) = true
  · simp only [hempty, if_true]
    exact makes_pure ((nodeMembers_eq_empty_iff hm.edges).mpr (by simpa using hempty))
  · have hne : nodeMembers x m.edges ≠ ∅ := by
      rw [ne_eq, nodeMembers_eq_empty_iff hm.edges]
      simpa using hempty
    simp only [hempty, Bool.false_eq_true, if_false, hmask, Outcome.mask_eq_zero_iff]
    by_cases hzero : l = false ∧ r = false
    · rw [if_pos hzero]
      rw [← Bool.not_eq_true, ← Bool.not_eq_true, hl, hr] at hzero
      refine (makes_make hm.edges x).bind_pure fun R v _ hv => ?_
      refine ⟨hne, hzero.1, fun hc hR => hzero.2 ⟨hc, hR⟩, hv.1, ?_⟩
      ext p
      rw [mem_members, Trie.mem_iff, hv.2.1, hv.2.2]
      rfl
    · rw [if_neg hzero]
      refine makes_pure ⟨hne, l, r, rfl, ?_, hl, hr⟩
      rw [← Bool.not_eq_true, ← Bool.not_eq_true, ← not_or] at hzero
      exact not_not.mp hzero

theorem settle_eq_none (h : op.settle s t = none) : op = restrict → t.isMember = false := by
  rintro rfl
  simp only [settle] at h
  split at h
  · cases h
  · split at h
    · cases h
    · next hn =>
      have hn' : t.isMember = false ∧ s.sameNode t = false := by simpa using hn
      exact hn'.1

/-! What is known without a look at the edges is exact. -/

section

variable {o : Outcome Trie}

theorem settle_join_exact (hs : IsPlace Q s) (ht : IsPlace Q t) (h : join.settle s t = some o) :
    o.Exact Q true s.members t.members (s.members ∪ t.members) := by
  simp only [settle, Bool.and_eq_true, hs.isEmpty_iff, ht.isEmpty_iff] at h
  split at h
  · next hst =>
    obtain rfl := Option.some.inj h
    show s.members ∪ t.members = ∅
    rw [hst.1, hst.2, Set.union_empty]
  · next hst =>
    split at h
    · next hn =>
      obtain rfl := Option.some.inj h
      have hsame := hs.members_eq_of_sameNode ht hn
      rw [← hsame] at hst ⊢
      exact .of_both (Set.union_self _) fun hse => hst ⟨hse, hse⟩
    · split at h
      · next hte =>
        obtain rfl := Option.some.inj h
        rw [hte] at hst ⊢
        exact .of_left (Set.union_empty _) (fun hse => hst ⟨hse, rfl⟩) fun _ hse => hst ⟨hse, rfl⟩
      · next hte =>
        split at h
        · next hse =>
          obtain rfl := Option.some.inj h
          rw [hse]
          exact .of_right (Set.empty_union _) hte (Ne.symm hte) rfl
        · cases h

theorem settle_meet_exact (hs : IsPlace Q s) (ht : IsPlace Q t) (h : meet.settle s t = some o) :
    o.Exact Q true s.members t.members (s.members ∩ t.members) := by
  simp only [settle, Bool.or_eq_true, hs.isEmpty_iff, ht.isEmpty_iff] at h
  split at h
  · next hst =>
    obtain rfl := Option.some.inj h
    show s.members ∩ t.members = ∅
    rcases hst with hse | hte
    · rw [hse, Set.empty_inter]
    · rw [hte, Set.inter_empty]
  · next hst =>
    split at h
    · next hn =>
      obtain rfl := Option.some.inj h
      rw [← hs.members_eq_of_sameNode ht hn]
      exact .of_both (Set.inter_self _) fun hse => hst (Or.inl hse)
    · cases h

theorem settle_subtract_exact (hs : IsPlace Q s) (ht : IsPlace Q t)
    (h : subtract.settle s t = some o) :
    o.Exact Q false s.members t.members (s.members \ t.members) := by
  simp only [settle, Bool.or_eq_true, hs.isEmpty_iff, ht.isEmpty_iff] at h
  split at h
  · next hst =>
    obtain rfl := Option.some.inj h
    show s.members \ t.members = ∅
    rcases hst with hse | hn
    · rw [hse, Set.empty_sdiff]
    · rw [hs.members_eq_of_sameNode ht hn, Set.sdiff_self]
  · next hst =>
    split at h
    · next hte =>
      obtain rfl := Option.some.inj h
      rw [hte]
      exact .of_left Set.sdiff_empty (fun hse => hst (Or.inl hse)) fun hc => by cases hc
    · cases h

theorem settle_restrict_exact (hs : IsPlace Q s) (ht : IsPlace Q t)
    (h : restrict.settle s t = some o) :
    o.Exact Q false s.members t.members (restrict.result s.members t.members) := by
  simp only [settle, Bool.or_eq_true, hs.isEmpty_iff, ht.isEmpty_iff] at h
  split at h
  · next hst =>
    obtain rfl := Option.some.inj h
    show {p | p ∈ s.members ∧ ∃ q ∈ t.members, q <+: p} = ∅
    rcases hst with he | he <;> simp [he]
  · next hst =>
    split at h
    · next hn =>
      obtain rfl := Option.some.inj h
      refine .of_left ?_ (fun hse => hst (Or.inl hse)) fun hc => by cases hc
      refine Set.Subset.antisymm (fun p hp => hp.1) fun p hp => ⟨hp, ?_⟩
      rcases hn with hn | hn
      · exact ⟨[], t.nil_mem_iff.mpr hn, List.nil_prefix⟩
      · exact ⟨p, hs.members_eq_of_sameNode ht hn ▸ hp, List.prefix_rfl⟩
    · cases h

theorem settle_exact (hs : IsPlace Q s) (ht : IsPlace Q t) (h : op.settle s t = some o) :
    o.Exact Q op.isCommutative s.members t.members (op.result s.members t.members) := by
  cases op with
  | join => exact settle_join_exact hs ht h
  | meet => exact settle_meet_exact hs ht h
  | subtract => exact settle_subtract_exact hs ht h
  | restrict => exact settle_restrict_exact hs ht h

end

/-! ## The walk -/

theorem nil_exact (op : SetOp) (Q : Pool) : Merged.nil.Exact op Q [] [] := by
  refine ⟨edges_nil Q, ?_, true, true, rfl, ?_, fun _ => ?_⟩
  · show edgeMembers [] = _
    cases op <;> simp [result]
  · exact iff_of_true rfl fun c h => rfl
  · exact iff_of_true rfl fun c h => rfl

/-- What each step of the walk passes on: `R` of the outcome for two places and `M` of the edges
merged from two lists, where outcomes and merged edges are known to be exact. -/
structure Passes (op : SetOp) (R : Stem → Stem → Outcome Trie → Prop)
    (M : List (Edge Trie) → List (Edge Trie) → Merged → Prop) : Prop where
  settle {s t : Stem} {o : Outcome Trie} (h : op.settle s t = some o) : R s t o
  finish {s t : Stem} {m : Merged} (n : Nat) (h : M s.branches t.branches m) :
    R s t (op.finish s t m n).1
  nil : M [] [] Merged.nil
  consLeft {Q : Pool} {e : Edge Trie} {es fs : List (Edge Trie)} {m : Merged}
    (hm : m.Exact op Q es fs) (he : Q.Edges (e :: es)) (hf : ∀ f ∈ fs, e.first < f.first)
    (h : M es fs m) : M (e :: es) fs (m.consLeft op e)
  consRight {Q : Pool} {f : Edge Trie} {es fs : List (Edge Trie)} {m : Merged}
    (hm : m.Exact op Q es fs) (hf : Q.Edges (f :: fs)) (he : ∀ e ∈ es, f.first < e.first)
    (h : M es fs m) : M es (f :: fs) (m.consRight op f)
  consBoth {Q : Pool} {b : UInt8} {k l : Path} {s t : Trie} {es fs : List (Edge Trie)} {m : Merged}
    {o : Outcome Trie} (hm : m.Exact op Q es fs) (he : Q.Edges (⟨b, k, s⟩ :: es))
    (hf : Q.Edges (⟨b, l, t⟩ :: fs))
    (ho : o.Exact Q op.isCommutative (Stem.members ⟨k.drop (Path.overlap k l), s⟩)
      (Stem.members ⟨l.drop (Path.overlap k l), t⟩)
      (op.result (Stem.members ⟨k.drop (Path.overlap k l), s⟩)
        (Stem.members ⟨l.drop (Path.overlap k l), t⟩)))
    (hR : R ⟨k.drop (Path.overlap k l), s⟩ ⟨l.drop (Path.overlap k l), t⟩ o) (h : M es fs m) :
    M (⟨b, k, s⟩ :: es) (⟨b, l, t⟩ :: fs)
      (m.consBoth ⟨b, k, s⟩ ⟨b, l, t⟩ (k.take (Path.overlap k l)) o)

/-- The outcome for two places is exact, and has what the steps of the walk pass on.  The induction is
that of the walk: two places, or the edges at two places. -/
theorem Passes.makes_combine {R : Stem → Stem → Outcome Trie → Prop}
    {M : List (Edge Trie) → List (Edge Trie) → Merged → Prop} (hop : op.Passes R M) (s t : Stem)
    (P : Pool) (hs : IsPlace P s) (ht : IsPlace P t) :
    P.Makes (op.combine s t) fun Q o =>
      o.Exact Q op.isCommutative s.members t.members (op.result s.members t.members) ∧ R s t o := by
  refine combine.induct op
    (fun s t => ∀ P, IsPlace P s → IsPlace P t → P.Makes (op.combine s t) fun Q o =>
      o.Exact Q op.isCommutative s.members t.members (op.result s.members t.members) ∧ R s t o)
    (fun es fs => ∀ P : Pool, P.Edges es → P.Edges fs → P.Makes (op.combineEdges es fs)
      fun Q m => m.Exact op Q es fs ∧ M es fs m) ?_ ?_ ?_ ?_ ?_ ?_ ?_ ?_ s t P hs ht
  case refine_1 =>
    intro s t o h P hs ht
    rw [combine, h]
    exact makes_pure ⟨settle_exact hs ht h, hop.settle h⟩
  case refine_2 =>
    intro s t h ih P hs ht
    rw [combine, h]
    refine (ih P hs.edges ht.edges).bind fun Q m hPQ ⟨hm, hM⟩ => ?_
    have hexact := makes_finish (hs.mono hPQ) (ht.mono hPQ) hm (settle_eq_none h)
    exact hexact.and_value (hop.finish Q.next hM)
  case refine_3 =>
    intro P _ _
    rw [combineEdges]
    exact makes_pure ⟨nil_exact op P, hop.nil⟩
  case refine_4 =>
    intro b k s es ih P he hf
    rw [combineEdges]
    refine (ih P he.tail hf).bind_pure fun Q m hPQ ⟨hm, hM⟩ => ?_
    have hlt : ∀ f ∈ ([] : List (Edge Trie)), b < f.first := fun f h => absurd h List.not_mem_nil
    exact ⟨hm.consLeft (he.mono hPQ) hlt, hop.consLeft hm (he.mono hPQ) hlt hM⟩
  case refine_5 =>
    intro c l t fs ih P he hf
    rw [combineEdges]
    refine (ih P he hf.tail).bind_pure fun Q m hPQ ⟨hm, hM⟩ => ?_
    have hlt : ∀ e ∈ ([] : List (Edge Trie)), c < e.first := fun e h => absurd h List.not_mem_nil
    exact ⟨hm.consRight (hf.mono hPQ) hlt, hop.consRight hm (hf.mono hPQ) hlt hM⟩
  case refine_6 =>
    intro b k s es c l t fs hbc ih P he hf
    rw [combineEdges, if_pos hbc]
    refine (ih P he.tail hf).bind_pure fun Q m hPQ ⟨hm, hM⟩ => ?_
    have hlt : ∀ f ∈ ⟨c, l, t⟩ :: fs, b < f.first := hf.lt_of_lt_head hbc
    exact ⟨hm.consLeft (he.mono hPQ) hlt, hop.consLeft hm (he.mono hPQ) hlt hM⟩
  case refine_7 =>
    intro b k s es c l t fs hbc hcb ih P he hf
    rw [combineEdges, if_neg hbc, if_pos hcb]
    refine (ih P he hf.tail).bind_pure fun Q m hPQ ⟨hm, hM⟩ => ?_
    have hlt : ∀ e ∈ ⟨b, k, s⟩ :: es, c < e.first := he.lt_of_lt_head hcb
    exact ⟨hm.consRight (hf.mono hPQ) hlt, hop.consRight hm (hf.mono hPQ) hlt hM⟩
  case refine_8 =>
    intro b k s es c l t fs hbc hcb n ihc ih P he hf
    obtain rfl : b = c := UInt8.le_antisymm (UInt8.not_lt.mp hcb) (UInt8.not_lt.mp hbc)
    rw [combineEdges, if_neg hbc, if_neg hcb]
    have hs : IsPlace P ⟨k.drop n, s⟩ :=
      ⟨he.child_mem _ List.mem_cons_self, fun _ => he.inner _ List.mem_cons_self⟩
    have ht : IsPlace P ⟨l.drop n, t⟩ :=
      ⟨hf.child_mem _ List.mem_cons_self, fun _ => hf.inner _ List.mem_cons_self⟩
    refine (ihc P hs ht).bind fun Q o hPQ ⟨ho, hR⟩ => ?_
    refine (ih Q (he.tail.mono hPQ) (hf.tail.mono hPQ)).bind_pure fun R m hQR ⟨hm, hM⟩ => ?_
    have he' := he.mono (le_trans hPQ hQR)
    have hf' := hf.mono (le_trans hPQ hQR)
    exact ⟨hm.consBoth he' hf' (ho.mono hQR), hop.consBoth hm he' hf' (ho.mono hQR) hR hM⟩

theorem passes_true (op : SetOp) : op.Passes (fun _ _ _ => True) fun _ _ _ => True :=
  ⟨fun _ => trivial, fun _ _ => trivial, trivial, fun _ _ _ _ => trivial, fun _ _ _ _ => trivial,
    fun _ _ _ _ _ _ => trivial⟩

/-- The outcome for two places is exact. -/
theorem makes_combine (op : SetOp) (s t : Stem) (P : Pool) (hs : IsPlace P s) (ht : IsPlace P t) :
    P.Makes (op.combine s t) fun Q o =>
      o.Exact Q op.isCommutative s.members t.members (op.result s.members t.members) :=
  ((passes_true op).makes_combine s t P hs ht).imp fun _ _ _ ho => ho.1

theorem makes_apply (op : SetOp) {s t : Trie} (hs : s ∈ P) (ht : t ∈ P) :
    P.Makes (op.apply s t) fun Q o =>
      o.Exact Q op.isCommutative s.members t.members (op.result s.members t.members) := by
  have h := makes_combine op ⟨[], s⟩ ⟨[], t⟩ P ⟨hs, fun h => absurd rfl h⟩
    ⟨ht, fun h => absurd rfl h⟩
  rwa [Stem.members_nil, Stem.members_nil] at h

/-- The set `u` made of `s` and `t`: an argument that may be named and has its members is `u`. -/
structure Combined (op : SetOp) (Q : Pool) (s t u : Trie) : Prop where
  mem : u ∈ Q
  members : u.members = op.result s.members t.members
  eq_left : op.result s.members t.members = s.members → u = s
  eq_right : op.isCommutative = true → op.result s.members t.members = t.members →
    op.result s.members t.members ≠ s.members → u = t

theorem combined_of_exact {P : Pool} {s t : Trie} (hs : s ∈ P) (ht : t ∈ P) {o : Outcome Trie}
    (h : o.Exact P op.isCommutative s.members t.members (op.result s.members t.members)) :
    op.Combined P s t (o.resolvePair s t Trie.empty) := by
  generalize hR : op.result s.members t.members = R at h
  cases o with
  | none =>
    have hR' : R = ∅ := h
    refine ⟨P.empty_mem, ?_, fun hS => ?_, fun _ hT _ => ?_⟩
    · rw [hR, hR']
      exact members_empty
    · exact (eq_empty_of_members hs (by rw [← hS, hR, hR'])).symm
    · exact (eq_empty_of_members ht (by rw [← hT, hR, hR'])).symm
  | identity m =>
    obtain ⟨hne, l, r, rfl, hlr, hl, hr⟩ := h
    rw [Outcome.resolvePair_mask s t Trie.empty hlr]
    cases l with
    | true =>
      have hS : R = s.members := hl.mp rfl
      exact ⟨hs, by rw [hR, hS]; rfl, fun _ => rfl, fun _ _ hn => absurd (hR.trans hS) hn⟩
    | false =>
      have hT := (hr.mp (by simpa using hlr)).2
      refine ⟨ht, by rw [hR, hT]; rfl, fun hS => ?_, fun _ _ _ => rfl⟩
      exact absurd (hl.mpr (hR.symm.trans hS)) Bool.false_ne_true
  | element v =>
    obtain ⟨-, hS, hT, hv, hm⟩ := h
    exact ⟨hv, hm.trans hR.symm, fun h => absurd (hR.symm.trans h) hS,
      fun hc h _ => absurd (hR.symm.trans h) (hT hc)⟩

end SetOp

end ByteTrie
