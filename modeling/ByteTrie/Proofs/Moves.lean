import ByteTrie.Proofs.Position
import ByteTrie.Proofs.Session
import Mathlib

/-!
# Where moves lead

Each move succeeds where the snapshot has a path for it, and leads to that path; one that fails gives
back the cursor that it was given, also where it had moved before it failed.  For what it undoes leads
to the path that it started from, and a path has one cursor: the same stacks, and the same place
inside an edge.

    Run t c               some row of moves leads from the root of t to c
    Leads t p m p'        from p, the move m leads to p', for the members of t
    Exact t c m (b, d)    m, made by c, succeeds where it leads anywhere, and then leads there
-/

namespace ByteTrie

open Trie

namespace Cursor

variable {root t : Trie} {c d : Cursor} {p k q : Path} {e : Edge Trie} {above : List (Trie × Nat)}
  {starts : List Nat} {i n : Nat} {b : UInt8}

/-! ## Up -/

theorem toList_take (bytes : Array UInt8) (n : Nat) :
    (bytes.take n).toList = bytes.toList.take n := by
  rw [Array.take_eq_extract, Array.toList_extract]
  exact List.drop_zero

/-- Popping the nodes that begin behind the first `n` bytes ends, at the node that the place behind
these bytes is in. -/
theorem exists_popTo (h : Chain root above starts p t) {bytes : Array UInt8}
    (hbytes : bytes.toList = p ++ k) (hin : p.length ≤ n → t.Inside (k.take (n - p.length))) :
    ∃ d, popTo? n starts ⟨root, t, bytes, starts, above⟩ = some d ∧
      ({ d with bytes := d.bytes.take n } : Cursor).IsAt root (bytes.toList.take n) := by
  -- on the chain: either its last node begins in front of the cut, or the place is above that node
  induction h generalizing k with
  | root =>
    refine ⟨_, rfl, rfl, toList_take bytes n, [], k.take n, .root, ?_, hin (Nat.zero_le n)⟩
    exact (toList_take bytes n).trans (congrArg (List.take n) hbytes)
  | @child above starts p t i e h he ih =>
    rw [popTo?]
    by_cases hn : (p ++ e.key).length ≤ n
    · rw [if_pos hn]
      refine ⟨_, rfl, rfl, toList_take bytes n, p ++ e.key, _, h.child he, ?_, hin hn⟩
      refine (toList_take bytes n).trans ?_
      rw [hbytes, List.take_append, List.take_of_length_le hn]
    · rw [if_neg hn]
      refine ih (hbytes.trans (List.append_assoc p e.key k)) fun hp => Or.inr ?_
      rw [List.length_append] at hn
      rw [List.take_append_of_le_length (by omega)]
      refine ⟨e, List.mem_of_getElem? he, List.take_prefix _ _, fun heq => ?_⟩
      have hlen := congrArg List.length heq
      rw [List.length_take] at hlen
      omega

theorem IsAt.size_eq (h : c.IsAt t q) : c.bytes.size = q.length := by
  rw [← h.path_eq]
  exact Array.length_toList.symm

theorem IsAt.exists_ascendTo (h : c.IsAt t q) (n : Nat) :
    ∃ d, c.ascendTo? n = some d ∧ d.IsAt t (q.take n) := by
  obtain ⟨rfl, rfl, p, k, h⟩ := h
  obtain ⟨d, hd, hat⟩ := exists_popTo h.chain h.path_eq fun _ => h.inside.take (n - p.length)
  exact ⟨_, Option.map_eq_some_iff.mpr ⟨d, hd, rfl⟩, hat⟩

theorem IsAt.ascendTo (h : c.IsAt t q) (n : Nat) : (c.ascendTo n).IsAt t (q.take n) := by
  obtain ⟨d, hd, hat⟩ := h.exists_ascendTo n
  rwa [Cursor.ascendTo, hd]

/-- Back to a place that was passed is back to the cursor that was there. -/
theorem IsAt.ascendTo_eq (h : c.IsAt t (q ++ k)) (ht : t.Canonical) (hd : d.IsAt t q) :
    c.ascendTo q.length = d := by
  have hat := h.ascendTo q.length
  rw [List.take_left] at hat
  exact hat.unique hd ht

theorem IsAt.ascend_of_le (h : c.IsAt t q) (hn : n ≤ q.length) :
    ∃ d, c.ascend n = (true, d) ∧ d.IsAt t (q.take (q.length - n)) := by
  rw [ascend, h.size_eq, if_pos hn]
  exact ⟨_, rfl, h.ascendTo _⟩

theorem IsAt.ascend_of_lt (h : c.IsAt t q) (hn : q.length < n) : c.ascend n = (false, c) := by
  rw [ascend, h.size_eq, if_neg (Nat.not_le_of_lt hn)]

/-! ## Down -/

theorem IsAt.descendOr_of_nonempty (h : c.IsAt t q) (ht : t.Canonical)
    (hk : k = [] ∨ (t.membersAfter (q ++ k)).Nonempty) (n : Nat) :
    ∃ d, descendOr n k c = (true, d) ∧ d.IsAt t (q ++ k) := by
  induction k generalizing c q with
  | nil =>
    rw [List.append_nil]
    exact ⟨c, rfl, h⟩
  | cons b k ih =>
    obtain hk | ⟨r, hr⟩ := hk
    · cases hk
    rw [List.append_cons] at hr ⊢
    rw [mem_membersAfter, List.append_assoc] at hr
    obtain ⟨c', hc'⟩ := (exists_descendByte_iff h ht b).mpr ⟨k ++ r, hr⟩
    rw [descendOr, hc']
    refine ih (h.descendByte ht hc') (Or.inr ⟨r, ?_⟩)
    rwa [mem_membersAfter, List.append_assoc]

/-- Where a path ends on the way, the way back leads to the cursor that set out. -/
theorem IsAt.descendOr_of_empty {k' : Path} (hd : d.IsAt t q) (h : c.IsAt t (q ++ k'))
    (ht : t.Canonical) (hk : ¬ (k = [] ∨ (t.membersAfter (q ++ k' ++ k)).Nonempty)) :
    descendOr q.length k c = (false, d) := by
  induction k generalizing c k' with
  | nil => exact absurd (Or.inl rfl) hk
  | cons b k ih =>
    rw [descendOr]
    split
    · next c' hc' =>
      have hat := h.descendByte ht hc'
      rw [List.append_assoc] at hat
      refine ih hat fun hk' => hk (Or.inr ?_)
      rw [List.append_cons, List.append_assoc q]
      obtain rfl | hk' := hk'
      · rw [List.append_nil]
        exact hat.nonempty ht (by simp)
      · exact hk'
    · rw [h.ascendTo_eq ht hd]

theorem IsAt.descend_of_nonempty (h : c.IsAt t q) (ht : t.Canonical)
    (hk : k = [] ∨ (t.membersAfter (q ++ k)).Nonempty) :
    ∃ d, c.descend k = (true, d) ∧ d.IsAt t (q ++ k) :=
  h.descendOr_of_nonempty ht hk c.bytes.size

theorem IsAt.descend_of_empty (h : c.IsAt t q) (ht : t.Canonical)
    (hk : ¬ (k = [] ∨ (t.membersAfter (q ++ k)).Nonempty)) : c.descend k = (false, c) := by
  rw [descend, h.size_eq]
  rw [← List.append_nil q] at hk
  exact h.descendOr_of_empty ((List.append_nil q).symm ▸ h) ht hk

/-! ## Sideways -/

theorem IsAt.childMask_contains_iff (h : c.IsAt t q) (ht : t.Canonical) (b : UInt8) :
    c.childMask.contains b = true ↔ t.HasPrefix (q ++ [b]) := by
  rw [ht.hasPrefix_iff, ← exists_descendByte_iff h ht b]
  obtain ⟨rfl, rfl, p, k, h⟩ := h
  simp only [descendByte?, Option.map_eq_some_iff, edgeBy?, childMask]
  by_cases hk : k = []
  · have hnode := h.canonical_node ht
    simp only [h.focusEdge?_eq_none hk, hnode.mask_iff c.node .root b]
    constructor
    · rintro ⟨e, he, rfl⟩
      obtain ⟨i, hi⟩ := List.mem_iff_getElem?.mp he
      exact ⟨_, (i, e), hnode.edgeAt?_eq_some_iff.mpr ⟨hi, rfl⟩, rfl⟩
    · rintro ⟨_, ⟨i, e⟩, ha, -⟩
      obtain ⟨he, rfl⟩ := hnode.edgeAt?_eq_some_iff.mp ha
      exact ⟨e, List.mem_of_getElem? he, rfl⟩
  · obtain ⟨i, e, hfocus, -⟩ := h.exists_focusEdge ht hk
    simp only [hfocus, ByteMask.singleton_eq_ofList, ByteMask.contains_ofList, List.mem_singleton]
    constructor
    · rintro rfl
      exact ⟨_, (i, e), if_pos rfl, rfl⟩
    · rintro ⟨_, a, ha, -⟩
      split at ha
      · next hb => exact hb.symm
      · cases ha

theorem IsAt.continues (h : c.IsAt t q) (ht : t.Canonical) : t.Continues q c.children where
  ascending := c.childMask.pairwise_toList
  mem_iff b := (c.childMask.mem_toList b).trans (h.childMask_contains_iff ht b)

theorem IsAt.sibling_root (h : c.IsAt t []) (choose : ByteMask → UInt8 → Option UInt8) :
    c.sibling choose = (false, c) := by
  rw [h.eq_ofTrie]
  rfl

/-- A cursor goes sideways over the place above it. -/
theorem IsAt.exists_sibling (h : c.IsAt t (q ++ [b])) (ht : t.Canonical)
    (choose : ByteMask → UInt8 → Option UInt8) : ∃ d : Cursor, d.IsAt t q ∧
      c.sibling choose = match choose d.childMask b with
        | some b' => (true, (d.orStay (d.descendByte? b')).2)
        | none => (false, c) := by
  obtain ⟨d, hd, hdown⟩ := h.exists_before ht
  have hlast : c.bytes.back? = some b := by
    rw [← Array.getLast?_toList, show c.bytes.toList = q ++ [b] from h.path_eq]
    exact List.getLast?_concat
  have hup : c.ascendTo (c.bytes.size - 1) = d := by
    rw [h.size_eq, List.length_append]
    exact h.ascendTo_eq ht hd
  refine ⟨d, hd, ?_⟩
  rw [sibling, hlast]
  dsimp only
  rw [hup]
  cases choose d.childMask b with
  | none =>
    rw [Option.getD_none, hdown]
    rfl
  | some b' => rfl

/-! ## Forward -/

theorem Placed.follow (h : c.Placed p k) (he : c.node.edges[i]? = some e) (hk : k <+: e.key) :
    (c.follow i e).Placed (p ++ e.key) [] := by
  obtain ⟨l, hl⟩ := hk
  refine placed_enterChild (c := { c with bytes := c.bytes ++ e.key.drop c.keyLength }) h.chain he ?_
  rw [h.keyLength_eq, ← hl, List.drop_left, ← List.append_assoc, ← h.path_eq]
  exact Array.toList_appendList

theorem Placed.firstMember (h : c.Placed p []) (hd : firstMember? c.node c = some d) :
    ∃ q, d.IsAt c.root q := by
  generalize ht : c.node = t at hd
  induction t using nodeInduction generalizing c p with
  | node t ih =>
    match t, ht, ih, hd with
    | .node _ true _ _ _, _, _, hd =>
      rw [firstMember?] at hd
      cases hd
      exact ⟨_, h.isAt⟩
    | .node _ false _ _ [], _, _, hd =>
      rw [firstMember?] at hd
      cases hd
    | .node _ false _ _ (⟨b, k, u⟩ :: es), ht, ih, hd =>
      rw [firstMember?] at hd
      have he : c.node.edges[0]? = some ⟨b, k, u⟩ := by
        rw [ht]
        rfl
      have hfollow := h.follow he List.nil_prefix
      have hfound := ih ⟨b, k, u⟩ List.mem_cons_self hfollow rfl hd
      exact hfound

theorem Placed.firstAlong {o : Option (Nat × Edge Trie)} (h : c.Placed p k)
    (ho : ∀ i e, o = some (i, e) → c.node.edges[i]? = some e ∧ k <+: e.key)
    (hd : c.firstAlong? o = some d) : ∃ q, d.IsAt c.root q := by
  cases o with
  | none => cases hd
  | some a =>
    obtain ⟨he, hk⟩ := ho a.1 a.2 rfl
    exact (h.follow he hk).firstMember hd

theorem firstAfter_isAt (h : Chain root above starts p t) {bytes : Array UInt8}
    (hbytes : bytes.toList = p ++ k)
    (hd : firstAfter? above ⟨root, t, bytes, starts, above⟩ = some d) : ∃ q, d.IsAt root q := by
  induction h generalizing bytes k with
  | root => cases hd
  | @child above starts p t i e h he ih =>
    have hcut : (bytes.take (starts.headD 0)).toList = p ++ [] := by
      rw [toList_take, hbytes, h.headD_starts, List.append_assoc, List.take_left,
        List.append_nil]
    have hpop : Placed ⟨root, t, bytes.take (starts.headD 0), starts, above⟩ p [] :=
      ⟨h, hcut, Or.inl rfl⟩
    rw [firstAfter?, Option.orElse_eq_orElse, Option.orElse_eq_or] at hd
    rcases Option.or_eq_some_iff.mp hd with hd | ⟨-, hd⟩
    · refine hpop.firstAlong (fun j f hf => ?_) hd
      obtain ⟨g, hg, heq⟩ := Option.map_eq_some_iff.mp hf
      cases heq
      exact ⟨hg, List.nil_prefix⟩
    · exact ih hcut hd

theorem Placed.edgeAhead (h : c.Placed p k) (hc : c.root.Canonical)
    (ha : c.edgeAhead? = some (i, e)) : c.node.edges[i]? = some e ∧ k <+: e.key := by
  rw [edgeAhead?, Option.orElse_eq_orElse, Option.orElse_eq_or] at ha
  by_cases hk : k = []
  · rw [h.focusEdge?_eq_none hk, Option.none_or] at ha
    obtain ⟨f, hf, heq⟩ := Option.map_eq_some_iff.mp ha
    cases heq
    rw [List.head?_eq_getElem?] at hf
    exact ⟨hf, hk ▸ List.nil_prefix⟩
  · obtain ⟨j, f, hfocus, hf, hpre, -⟩ := h.exists_focusEdge hc hk
    rw [hfocus] at ha
    cases ha
    exact ⟨hf, hpre⟩

theorem IsAt.nextMember (h : c.IsAt t q) (ht : t.Canonical) (hd : c.nextMember? = some d) :
    ∃ r, d.IsAt t r := by
  obtain ⟨rfl, -, p, k, h⟩ := h
  rw [nextMember?, Option.orElse_eq_orElse, Option.orElse_eq_or] at hd
  rcases Option.or_eq_some_iff.mp hd with hd | ⟨-, hd⟩
  · exact h.firstAlong (fun i e ha => h.edgeAhead ht ha) hd
  · exact firstAfter_isAt h.chain h.path_eq hd

/-! ## Rows of moves -/

/-- The cursors that rows of moves lead to from the root of `t`.  A copy of a cursor is the cursor
itself, so copies add none. -/
inductive Run (t : Trie) : Cursor → Prop
  | opened : Run t (ofTrie t)
  | move {c : Cursor} (h : Run t c) (m : Move) : Run t (c.move m).2

theorem IsAt.reset (h : c.IsAt t q) : c.reset.IsAt t [] := by
  rw [Cursor.reset, h.root_eq]
  exact isAt_ofTrie t

theorem IsAt.orStay {o : Option Cursor} (h : c.IsAt t q) (ho : ∀ d, o = some d → ∃ r, d.IsAt t r) :
    ∃ r, (c.orStay o).2.IsAt t r := by
  cases o with
  | none => exact ⟨q, h⟩
  | some d => exact ho d rfl

theorem IsAt.sibling (h : c.IsAt t q) (ht : t.Canonical) (choose : ByteMask → UInt8 → Option UInt8) :
    ∃ r, (c.sibling choose).2.IsAt t r := by
  obtain rfl | ⟨q, b, rfl⟩ := List.eq_nil_or_concat' q
  · rw [h.sibling_root]
    exact ⟨[], h⟩
  · obtain ⟨d, hd, hs⟩ := h.exists_sibling ht choose
    rw [hs]
    split
    · exact hd.orStay fun c' hc' => ⟨_, hd.descendByte ht hc'⟩
    · exact ⟨_, h⟩

/-- Every move leads to a place of the same snapshot. -/
theorem IsAt.move (h : c.IsAt t q) (ht : t.Canonical) (m : Move) :
    ∃ r, (c.move m).2.IsAt t r := by
  cases m with
  | descend k =>
    show ∃ r, (c.descend k).2.IsAt t r
    by_cases hk : k = [] ∨ (t.membersAfter (q ++ k)).Nonempty
    · obtain ⟨d, hd, hat⟩ := h.descend_of_nonempty ht hk
      rw [hd]
      exact ⟨_, hat⟩
    · rw [h.descend_of_empty ht hk]
      exact ⟨q, h⟩
  | descendByte b => exact h.orStay fun d hd => ⟨_, h.descendByte ht hd⟩
  | descendIndex i =>
    refine h.orStay fun d hd => ?_
    obtain ⟨b, -, hd⟩ := Option.bind_eq_some_iff.mp hd
    exact ⟨_, h.descendByte ht hd⟩
  | ascend n =>
    show ∃ r, (c.ascend n).2.IsAt t r
    by_cases hn : n ≤ q.length
    · obtain ⟨d, hd, hat⟩ := h.ascend_of_le hn
      rw [hd]
      exact ⟨_, hat⟩
    · rw [h.ascend_of_lt (Nat.lt_of_not_le hn)]
      exact ⟨q, h⟩
  | nextSibling => exact h.sibling ht ByteMask.next?
  | prevSibling => exact h.sibling ht ByteMask.prev?
  | nextMember => exact h.reset.orStay fun d hd => h.nextMember ht hd
  | reset => exact ⟨[], h.reset⟩

theorem Run.isAt (h : Run t c) (ht : t.Canonical) : c.IsAt t c.path := by
  have hplace : ∃ q, c.IsAt t q := by
    induction h with
    | opened => exact ⟨[], isAt_ofTrie t⟩
    | move _ m ih =>
      obtain ⟨q, hq⟩ := ih
      exact hq.move ht m
  obtain ⟨q, hq⟩ := hplace
  exact hq.path_eq ▸ hq

/-! ## What the members say -/

/-- `Leads t p m p'`: for the members of `t`, the move `m` leads from the path `p` to `p'`. -/
inductive Leads (t : Trie) (p : Path) : Move → Path → Prop
  | descend {k : Path} (h : k = [] ∨ t.HasPrefix (p ++ k)) : Leads t p (.descend k) (p ++ k)
  | descendByte {b : UInt8} (h : t.HasPrefix (p ++ [b])) : Leads t p (.descendByte b) (p ++ [b])
  | descendIndex {i : Nat} {b : UInt8} {bs : List UInt8} (hbs : t.Continues p bs)
      (h : bs[i]? = some b) : Leads t p (.descendIndex i) (p ++ [b])
  | ascend {n : Nat} (h : n ≤ p.length) : Leads t p (.ascend n) (p.take (p.length - n))
  | nextSibling {q : Path} {b b' : UInt8} (hp : p = q ++ [b]) (hlt : b < b')
      (h : t.HasPrefix (q ++ [b'])) (least : ∀ d, b < d → t.HasPrefix (q ++ [d]) → b' ≤ d) :
      Leads t p .nextSibling (q ++ [b'])
  | prevSibling {q : Path} {b b' : UInt8} (hp : p = q ++ [b]) (hlt : b' < b)
      (h : t.HasPrefix (q ++ [b'])) (greatest : ∀ d, d < b → t.HasPrefix (q ++ [d]) → d ≤ b') :
      Leads t p .prevSibling (q ++ [b'])
  | reset : Leads t p .reset []

/-- What a move of `c` answers, and where the cursor is then: it succeeds where it leads to some
path, it leads there, and where it fails nothing has changed. -/
structure Exact (t : Trie) (c : Cursor) (m : Move) (r : Bool × Cursor) : Prop where
  succeeds_iff : r.1 = true ↔ ∃ p, Leads t c.path m p
  leads : r.1 = true → Leads t c.path m r.2.path
  stays : r.1 = false → r.2 = c

theorem exact_of_leads {m : Move} {r : Bool × Cursor} (hr : r = (true, d))
    (h : Leads t c.path m d.path) : Exact t c m r := by
  subst hr
  exact ⟨⟨fun _ => ⟨_, h⟩, fun _ => rfl⟩, fun _ => h, nofun⟩

theorem exact_of_not_leads {m : Move} {r : Bool × Cursor} (hr : r = (false, c))
    (h : ∀ p, ¬ Leads t c.path m p) : Exact t c m r := by
  subst hr
  exact ⟨⟨nofun, fun ⟨p, hp⟩ => absurd hp (h p)⟩, nofun, fun _ => rfl⟩

theorem IsAt.exact_descend (h : c.IsAt t c.path) (ht : t.Canonical) (k : Path) :
    Exact t c (.descend k) (c.descend k) := by
  by_cases hk : k = [] ∨ t.HasPrefix (c.path ++ k)
  · obtain ⟨d, hd, hat⟩ := h.descend_of_nonempty ht (by rwa [← ht.hasPrefix_iff])
    exact exact_of_leads hd (hat.path_eq ▸ .descend hk)
  · refine exact_of_not_leads (h.descend_of_empty ht (by rwa [← ht.hasPrefix_iff])) ?_
    rintro _ ⟨hp⟩
    exact hk hp

theorem IsAt.exact_descendByte (h : c.IsAt t c.path) (ht : t.Canonical) (b : UInt8) :
    Exact t c (.descendByte b) (c.orStay (c.descendByte? b)) := by
  have hb := exists_descendByte_iff h ht b
  rw [← ht.hasPrefix_iff] at hb
  cases hd : c.descendByte? b with
  | some d =>
    refine exact_of_leads rfl ?_
    rw [(h.descendByte ht hd).path_eq]
    exact .descendByte (hb.mp ⟨d, hd⟩)
  | none =>
    refine exact_of_not_leads rfl ?_
    rintro _ (_ | ⟨hp⟩)
    obtain ⟨d, hd'⟩ := hb.mpr hp
    cases hd.symm.trans hd'

theorem IsAt.exact_descendIndex (h : c.IsAt t c.path) (ht : t.Canonical) (i : Nat) :
    Exact t c (.descendIndex i) (c.orStay (c.descendIndex? i)) := by
  have hbs := h.continues ht
  have hstep : c.descendIndex? i = c.children[i]?.bind c.descendByte? := rfl
  rw [hstep]
  cases hb : c.children[i]? with
  | none =>
    refine exact_of_not_leads rfl fun p hp => ?_
    cases hp with
    | descendIndex hbs' hb' =>
      rw [← hbs.unique hbs', hb] at hb'
      cases hb'
  | some b =>
    have hmem := (hbs.mem_iff b).mp (List.mem_of_getElem? hb)
    obtain ⟨d, hd⟩ := (exists_descendByte_iff h ht b).mpr ((ht.hasPrefix_iff _).mp hmem)
    rw [Option.bind_some, hd]
    refine exact_of_leads rfl ?_
    rw [(h.descendByte ht hd).path_eq]
    exact .descendIndex hbs hb

theorem IsAt.exact_ascend (h : c.IsAt t c.path) (n : Nat) : Exact t c (.ascend n) (c.ascend n) := by
  by_cases hn : n ≤ c.path.length
  · obtain ⟨d, hd, hat⟩ := h.ascend_of_le hn
    exact exact_of_leads hd (hat.path_eq ▸ .ascend hn)
  · refine exact_of_not_leads (h.ascend_of_lt (Nat.lt_of_not_le hn)) ?_
    rintro _ (_ | _ | _ | ⟨hn'⟩)
    exact hn hn'

/-- One of the two moves sideways: `near b b'` says that `choose` picks `b'` as the neighbour of `b`
among the bytes of a mask. -/
theorem IsAt.exact_sibling (h : c.IsAt t c.path) (ht : t.Canonical) {m : Move}
    {choose : ByteMask → UInt8 → Option UInt8} (near : Path → UInt8 → UInt8 → Prop)
    (hm : ∀ p p', Leads t p m p' ↔ ∃ q b b', p = q ++ [b] ∧ p' = q ++ [b'] ∧ near q b b')
    (hnear : ∀ {d : Cursor} {q : Path} {b b' : UInt8}, d.IsAt t q →
      (choose d.childMask b = some b' ↔ near q b b'))
    (hpre : ∀ {q : Path} {b b' : UInt8}, near q b b' → t.HasPrefix (q ++ [b'])) :
    Exact t c m (c.sibling choose) := by
  obtain hp | ⟨q, b, hp⟩ := List.eq_nil_or_concat' c.path
  · refine exact_of_not_leads ((hp ▸ h).sibling_root choose) fun p hl => ?_
    obtain ⟨q, b, b', hq, -⟩ := (hm _ _).mp hl
    exact List.append_ne_nil_of_right_ne_nil q (List.cons_ne_nil b []) (hq.symm.trans hp)
  · obtain ⟨d, hd, hs⟩ := (hp ▸ h).exists_sibling ht choose
    cases hb : choose d.childMask b with
    | none =>
      rw [hb] at hs
      refine exact_of_not_leads hs fun p hl => ?_
      obtain ⟨q', a, b', hq, -, hn⟩ := (hm _ _).mp hl
      obtain ⟨rfl, hab⟩ := List.append_inj' (hp.symm.trans hq) rfl
      cases hab
      cases hb.symm.trans ((hnear hd).mpr hn)
    | some b' =>
      have hn := (hnear hd).mp hb
      obtain ⟨c', hc'⟩ := (exists_descendByte_iff hd ht b').mpr ((ht.hasPrefix_iff _).mp (hpre hn))
      rw [hb] at hs
      dsimp only at hs
      rw [hc'] at hs
      refine exact_of_leads hs ((hm _ _).mpr ⟨q, b, b', hp, ?_, hn⟩)
      exact (hd.descendByte ht hc').path_eq

theorem IsAt.exact_nextSibling (h : c.IsAt t c.path) (ht : t.Canonical) :
    Exact t c .nextSibling (c.sibling ByteMask.next?) := by
  refine h.exact_sibling ht (fun q b b' => b < b' ∧ t.HasPrefix (q ++ [b']) ∧
    ∀ d, b < d → t.HasPrefix (q ++ [d]) → b' ≤ d) (fun p p' => ⟨?_, ?_⟩) (fun hd => ?_)
    fun hn => hn.2.1
  · intro hl
    cases hl with
    | nextSibling hp hlt hpre hleast => exact ⟨_, _, _, hp, rfl, hlt, hpre, hleast⟩
  · rintro ⟨q, b, b', hp, rfl, hlt, hpre, hleast⟩
    exact .nextSibling hp hlt hpre hleast
  · rw [ByteMask.next?_eq_some_iff]
    simp only [ByteMask.IsNext, hd.childMask_contains_iff ht]

theorem IsAt.exact_prevSibling (h : c.IsAt t c.path) (ht : t.Canonical) :
    Exact t c .prevSibling (c.sibling ByteMask.prev?) := by
  refine h.exact_sibling ht (fun q b b' => b' < b ∧ t.HasPrefix (q ++ [b']) ∧
    ∀ d, d < b → t.HasPrefix (q ++ [d]) → d ≤ b') (fun p p' => ⟨?_, ?_⟩) (fun hd => ?_)
    fun hn => hn.2.1
  · intro hl
    cases hl with
    | prevSibling hp hlt hpre hgreatest => exact ⟨_, _, _, hp, rfl, hlt, hpre, hgreatest⟩
  · rintro ⟨q, b, b', hp, rfl, hlt, hpre, hgreatest⟩
    exact .prevSibling hp hlt hpre hgreatest
  · rw [ByteMask.prev?_eq_some_iff]
    simp only [ByteMask.IsPrev, hd.childMask_contains_iff ht]

/-- Every move but the one to the next member leads where the members of the snapshot say. -/
theorem IsAt.exact_move (h : c.IsAt t c.path) (ht : t.Canonical) {m : Move}
    (hm : m ≠ .nextMember) : Exact t c m (c.move m) := by
  cases m with
  | descend k => exact h.exact_descend ht k
  | descendByte b => exact h.exact_descendByte ht b
  | descendIndex i => exact h.exact_descendIndex ht i
  | ascend n => exact h.exact_ascend n
  | nextSibling => exact h.exact_nextSibling ht
  | prevSibling => exact h.exact_prevSibling ht
  | nextMember => exact absurd rfl hm
  | reset =>
    have hroot : c.reset.path = [] := h.reset.path_eq
    exact exact_of_leads rfl (hroot ▸ .reset)

end Cursor

namespace Session

variable {hash : HashFunction} {σ : Session}

/-- Every move made from whatever place succeeds where the set has a path for it, leads there, and
else changes nothing; and two rows of moves that lead to one path lead to one cursor. -/
theorem exact_moves (h : Reachable hash σ) (hc : CollisionFree hash σ.interned) {x : Trie}
    (hx : x ∈ σ.sets) {c : Cursor} (hr : Cursor.Run x c) :
    (∀ m, m ≠ .nextMember → Cursor.Exact x c m (c.move m)) ∧
      ∀ d, Cursor.Run x d → d.path = c.path → d = c := by
  have hcan := h.canonical hc hx
  have hat := hr.isAt hcan
  refine ⟨fun m hm => hat.exact_move hcan hm, fun d hd hpath => ?_⟩
  exact Cursor.IsAt.unique (hpath ▸ hd.isAt hcan) hat hcan

/-- The session with the one set of 1 2 3, 1 2 4 5 and 6. -/
def branching : Session :=
  start.gainOk
    (Trie.decodeWithin 3 [0, 2, 2, 1, 2, 0, 2, 1, 3, 1, 0, 2, 4, 5, 1, 0, 1, 6, 1, 0]) id

def branchingSet : Trie := branching.sets.headD Trie.empty

theorem branching_reachable (hash : HashFunction) : Reachable hash branching :=
  .step .start (.decodeWithin 3 _)

theorem branching_collisionFree (hash : HashFunction) : CollisionFree hash branching.interned :=
  collisionFree_nil hash

theorem branchingSet_mem : branchingSet ∈ branching.sets := by
  have h : branching.sets.length = 1 := by decide +kernel
  obtain ⟨t, ht⟩ := List.length_eq_one_iff.mp h
  rw [branchingSet, ht]
  exact List.mem_singleton_self t

theorem branchingSet_canonical : branchingSet.Canonical :=
  (branching_reachable Blake3.hash).canonical (branching_collisionFree _) branchingSet_mem

/-- Inside the first edge of that set. -/
def insideEdge : Cursor := ((Cursor.ofTrie branchingSet).move (.descend [1])).2

theorem run_insideEdge : Cursor.Run branchingSet insideEdge := .move .opened _

/-- Past the node at 1 2 and into the edge behind it, and back; and two ways to one place inside
that edge, byte by byte and along whole edges. -/
theorem exact_moves_branching :
    insideEdge.path = [1] ∧ (insideEdge.move (.descend [2, 4, 9])).1 = false ∧
      (insideEdge.move (.descend [2, 4, 9])).2 = insideEdge ∧
      (insideEdge.move (.descend [2, 4])).2 =
        ((((insideEdge.move .nextMember).2.move .nextMember).2).move (.ascend 1)).2 := by
  have hmoves := fun {c} (hr : Cursor.Run branchingSet c) =>
    exact_moves (branching_reachable Blake3.hash) (branching_collisionFree _) branchingSet_mem hr
  have hfails : (insideEdge.move (.descend [2, 4, 9])).1 = false := by decide +kernel
  refine ⟨by decide +kernel, hfails, ((hmoves run_insideEdge).1 _ (by decide)).stays hfails, ?_⟩
  have hwhole := ((run_insideEdge.move .nextMember).move .nextMember).move (.ascend 1)
  exact (hmoves hwhole).2 _ (run_insideEdge.move _) (by decide +kernel)

end Session

end ByteTrie
