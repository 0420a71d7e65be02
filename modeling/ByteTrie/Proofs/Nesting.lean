import ByteTrie.Proofs.Delimiting
import Mathlib

/-!
# Limits on the nesting

A limit on the nesting is met at the header of a node, before a byte of it is read, and what was read
up to there was read as without the limit.  So two readers with different limits go together until one
of them comes to a node that is too deep for it; and the nodes that a reader comes to are those of the
trie that it gives.

    header isRoot               the flag of a node and the number of its edges
    Opens limit n isRoot d s    reading a node from s comes to the header of a node d edges below
-/

namespace ByteTrie

open Trie

namespace Reader

/-! ## Nodes that a reader comes to -/

/-- The bytes of a node in front of its edges. -/
def header (isRoot : Bool) : Reader (Bool × Nat) := do
  let start ← offset
  let terminal ← flag
  let n ← varint
  if 256 < n then throw (.tooManyChildren start n)
  if !isRoot && !terminal && n < 2 then throw (.nonCanonical start)
  return (terminal, n)

/-- Reading so many edges comes to a child, its input satisfying `P`. -/
def Comes (child : Reader Trie) (P : Input → Prop) : Nat → Option UInt8 → Input → Prop
  | 0, _, _ => False
  | n + 1, previous, s => ∃ b k s₁, key previous s = .ok ((b, k), s₁) ∧
      (P s₁ ∨ ∃ c s₂, child s₁ = .ok (c, s₂) ∧ Comes child P n (some b) s₂)

/-- Reading a node from `s`, where so many levels of nodes are allowed, comes to the header of a
node `depth` edges below it. -/
def Opens (limit : Nat) : Nat → Bool → Nat → Input → Prop
  | _, _, 0, _ => True
  | 0, _, _ + 1, _ => False
  | levels + 1, isRoot, depth + 1, s => ∃ terminal n s₁,
      header isRoot s = .ok ((terminal, n), s₁) ∧
      Comes (node limit levels false) (Opens limit levels false depth) n none s₁

theorem throws_header (isRoot : Bool) : Throws (header isRoot) DecodeError.IsLocal := by
  rw [header]
  refine (throws_offset _).bind fun start => throws_flag.bind fun t => throws_varint.bind fun n => ?_
  exact throws_guard (by trivial) (throws_guard (by trivial) (throws_pure _ _))

theorem throw_bind {α β : Type} (e : DecodeError) (f : α → Reader β) :
    (throw e : Reader α) >>= f = throw e := rfl

theorem node_succ (limit levels : Nat) (isRoot : Bool) : node limit (levels + 1) isRoot =
    header isRoot >>= fun h => edges (node limit levels false) h.2 none >>= fun es =>
      lift (Trie.make h.1 es) := by
  rw [node, header]
  simp only [bind_assoc, throw_bind]
  refine congrArg (offset >>= ·) (funext fun start => congrArg (flag >>= ·) (funext fun t =>
    congrArg (varint >>= ·) (funext fun n => ?_)))
  by_cases hn : 256 < n
  · rw [if_pos hn, if_pos hn, throw_bind]
  · rw [if_neg hn, if_neg hn]
    by_cases hc : (!isRoot && !t && decide (n < 2)) = true
    · rw [if_pos hc, if_pos hc, throw_bind]
    · rw [if_neg hc, if_neg hc, pure_bind]

variable {limit max levels more depth n : Nat} {isRoot : Bool} {previous : Option UInt8}
  {s s' : Input} {t : Trie}

/-! ## Two limits -/

section Edges

variable {child child' : Reader Trie} {P : Input → Prop} {e : DecodeError}

/-- Readers of edges go together until one of them comes to a child that they read differently. -/
theorem edges_eq_of_not_comes (h : ∀ s, ¬ P s → child s = child' s)
    (hs : ¬ Comes child' P n previous s) : edges child n previous s = edges child' n previous s := by
  induction n generalizing previous s with
  | zero => rfl
  | succ n ih =>
    rw [edges, edges, bind_apply, bind_apply]
    cases hkey : key previous s with
    | error e => rfl
    | ok x =>
      obtain ⟨⟨b, k⟩, s₁⟩ := x
      have hP : ¬ P s₁ := fun hP => hs ⟨b, k, s₁, hkey, Or.inl hP⟩
      show (child >>= _) s₁ = (child' >>= _) s₁
      rw [bind_apply, bind_apply, h s₁ hP]
      cases hchild : child' s₁ with
      | error e => rfl
      | ok y =>
        obtain ⟨c, s₂⟩ := y
        have hrest : ¬ Comes child' P n (some b) s₂ := fun hrest =>
          hs ⟨b, k, s₁, hkey, Or.inr ⟨c, s₂, hchild, hrest⟩⟩
        show (edges child n (some b) >>= _) s₂ = (edges child' n (some b) >>= _) s₂
        rw [bind_apply, bind_apply, ih hrest]

/-- The fault of a child that reading edges comes to is theirs. -/
theorem edges_eq_error_of_comes (hP : ∀ s, P s → child s = .error e)
    (hN : ∀ s, ¬ P s → child s = child' s) (hs : Comes child' P n previous s) :
    edges child n previous s = .error e := by
  induction n generalizing previous s with
  | zero => exact absurd hs not_false
  | succ n ih =>
    obtain ⟨b, k, s₁, hkey, hs⟩ := hs
    rw [edges]
    refine bind_eq_error_iff.mpr (Or.inr ⟨(b, k), s₁, hkey, ?_⟩)
    by_cases hP₁ : P s₁
    · exact bind_eq_error_iff.mpr (Or.inl (hP s₁ hP₁))
    · obtain ⟨c, s₂, hchild, hrest⟩ := hs.resolve_left hP₁
      rw [← hN s₁ hP₁] at hchild
      refine bind_eq_error_iff.mpr (Or.inr ⟨c, s₂, hchild, ?_⟩)
      exact bind_eq_error_iff.mpr (Or.inl (ih hrest))

/-- No edge is at fault for the nesting where no child is. -/
theorem edges_ne_depthLimit (h : ∀ s, ¬ P s → ∀ l, child s ≠ .error (.depthLimitExceeded l))
    (hs : ¬ Comes child P n previous s) (l : Nat) :
    edges child n previous s ≠ .error (.depthLimitExceeded l) := by
  induction n generalizing previous s with
  | zero => exact fun hs => by cases hs
  | succ n ih =>
    rw [edges]
    intro he
    rcases bind_eq_error_iff.mp he with he | ⟨⟨b, k⟩, s₁, hkey, he⟩
    · exact (throws_key previous s _ he).ne_depthLimitExceeded l rfl
    · have hP : ¬ P s₁ := fun hP => hs ⟨b, k, s₁, hkey, Or.inl hP⟩
      rcases bind_eq_error_iff.mp he with he | ⟨c, s₂, hchild, he⟩
      · exact h s₁ hP l he
      · have hrest : ¬ Comes child P n (some b) s₂ := fun hrest =>
          hs ⟨b, k, s₁, hkey, Or.inr ⟨c, s₂, hchild, hrest⟩⟩
        rcases bind_eq_error_iff.mp he with he | ⟨es, s₃, -, he⟩
        · exact ih hrest he
        · cases he

/-- What holds of the inputs of all children that are read holds of the children. -/
theorem comes_iff_exists_mem {Q : Trie → Prop} {es : List (Edge Trie)}
    (h : ∀ s c s', child s = .ok (c, s') → (P s ↔ Q c))
    (hs : edges child n previous s = .ok (es, s')) :
    Comes child P n previous s ↔ ∃ e ∈ es, Q e.child := by
  induction n generalizing previous s es with
  | zero =>
    cases hs
    simp [Comes]
  | succ n ih =>
    rw [edges] at hs
    obtain ⟨⟨b, k⟩, s₁, hkey, hs⟩ := bind_eq_ok_iff.mp hs
    obtain ⟨c, s₂, hchild, hs⟩ := bind_eq_ok_iff.mp hs
    obtain ⟨fs, s₃, hrest, hs⟩ := bind_eq_ok_iff.mp hs
    cases hs
    rw [Comes, List.exists_mem_cons_iff, ← h s₁ c s₂ hchild, ← ih hrest]
    constructor
    · rintro ⟨b', k', s₁', hkey', hs⟩
      rw [hkey] at hkey'
      cases hkey'
      refine hs.imp_right ?_
      rintro ⟨c', s₂', hchild', hs⟩
      rw [hchild] at hchild'
      cases hchild'
      exact hs
    · intro hs
      exact ⟨b, k, s₁, hkey, hs.imp_right fun hs => ⟨c, s₂, hchild, hs⟩⟩

end Edges

theorem Comes.imp {child : Reader Trie} {P Q : Input → Prop} (hPQ : ∀ s, P s → Q s)
    (h : Comes child P n previous s) : Comes child Q n previous s := by
  induction n generalizing previous s with
  | zero => exact h
  | succ n ih =>
    obtain ⟨b, k, s₁, hkey, hs⟩ := h
    refine ⟨b, k, s₁, hkey, hs.imp (hPQ s₁) ?_⟩
    rintro ⟨c, s₂, hchild, hs⟩
    exact ⟨c, s₂, hchild, ih hs⟩

/-- Above a node that a reader comes to are others. -/
theorem opens_of_le {depth' : Nat} (hle : depth ≤ depth') (h : Opens limit levels isRoot depth' s) :
    Opens limit levels isRoot depth s := by
  induction levels generalizing isRoot depth depth' s with
  | zero =>
    cases depth' with
    | zero =>
      obtain rfl := Nat.le_zero.mp hle
      exact h
    | succ depth' => exact absurd h not_false
  | succ levels ih =>
    cases depth with
    | zero =>
      rw [Opens]
      trivial
    | succ depth =>
      cases depth' with
      | zero => exact absurd hle (Nat.not_succ_le_zero depth)
      | succ depth' =>
        obtain ⟨terminal, n, s₁, hheader, hedges⟩ := h
        exact ⟨terminal, n, s₁, hheader, hedges.imp fun s hs => ih (Nat.le_of_succ_le_succ hle) hs⟩

/-- Up to a node that is too deep for the lower limit, two readers go together. -/
theorem node_eq_of_not_opens (h : ¬ Opens max (levels + more) isRoot levels s) :
    node limit levels isRoot s = node max (levels + more) isRoot s ∧
      ∀ l, node max (levels + more) isRoot s ≠ .error (.depthLimitExceeded l) := by
  induction levels generalizing isRoot s with
  | zero =>
    rw [Opens] at h
    exact absurd trivial h
  | succ levels ih =>
    rw [Nat.add_right_comm] at h ⊢
    rw [node_succ, node_succ]
    have hedges : ∀ terminal n s₁, header isRoot s = .ok ((terminal, n), s₁) →
        ¬ Comes (node max (levels + more) false) (Opens max (levels + more) false levels) n none s₁ :=
      fun terminal n s₁ hheader hedges => h ⟨terminal, n, s₁, hheader, hedges⟩
    constructor
    · rw [bind_apply, bind_apply]
      cases hheader : header isRoot s with
      | error e => rfl
      | ok x =>
        obtain ⟨⟨terminal, n⟩, s₁⟩ := x
        show (edges (node limit levels false) n none >>= _) s₁ =
          (edges (node max (levels + more) false) n none >>= _) s₁
        rw [bind_apply, bind_apply,
          edges_eq_of_not_comes (fun s hs => (ih hs).1) (hedges terminal n s₁ hheader)]
    · intro l hl
      rcases bind_eq_error_iff.mp hl with hl | ⟨⟨terminal, n⟩, s₁, hheader, hl⟩
      · exact (throws_header isRoot s _ hl).ne_depthLimitExceeded l rfl
      · rcases bind_eq_error_iff.mp hl with hl | ⟨es, s₂, -, hl⟩
        · exact edges_ne_depthLimit (fun s hs => (ih hs).2) (hedges terminal n s₁ hheader) l hl
        · cases hl

/-- A reader that comes to a node which is too deep for a lower limit fails there under that limit. -/
theorem node_of_opens (h : Opens max (levels + more) isRoot levels s) :
    node limit levels isRoot s = .error (.depthLimitExceeded limit) := by
  induction levels generalizing isRoot s with
  | zero => rfl
  | succ levels ih =>
    rw [Nat.add_right_comm] at h
    obtain ⟨terminal, n, s₁, hheader, hedges⟩ := h
    rw [node_succ]
    refine bind_eq_error_iff.mpr (Or.inr ⟨(terminal, n), s₁, hheader, ?_⟩)
    refine bind_eq_error_iff.mpr (Or.inl (edges_eq_error_of_comes (fun s hs => ih hs) ?_ hedges))
    exact fun s hs => (node_eq_of_not_opens hs).1

/-- The nodes that a reader comes to are those of the trie that it gives. -/
theorem opens_succ_iff (h : node limit levels isRoot s = .ok (t, s')) :
    Opens limit levels isRoot (depth + 1) s ↔ ¬ NestedWithin depth t := by
  induction levels generalizing isRoot s t s' depth with
  | zero => cases h
  | succ levels ih =>
    rw [node_succ] at h
    obtain ⟨⟨terminal, n⟩, s₁, hheader, h⟩ := bind_eq_ok_iff.mp h
    obtain ⟨es, s₂, hedges, h⟩ := bind_eq_ok_iff.mp h
    have hes : t.edges = es := by
      cases h
      exact edges_make terminal es _
    have hopens : Opens limit (levels + 1) isRoot (depth + 1) s ↔
        Comes (node limit levels false) (Opens limit levels false depth) n none s₁ := by
      constructor
      · rintro ⟨terminal', n', s₁', hheader', hcomes⟩
        rw [hheader] at hheader'
        cases hheader'
        exact hcomes
      · exact fun hcomes => ⟨terminal, n, s₁, hheader, hcomes⟩
    rw [hopens]
    cases depth with
    | zero =>
      have hall : ∀ s c s', node limit levels false s = .ok (c, s') →
          (Opens limit levels false 0 s ↔ True) := fun s c s' _ => by rw [Opens]
      rw [comes_iff_exists_mem hall hedges, NestedWithin, hes]
      simp [List.eq_nil_iff_forall_not_mem]
    | succ depth =>
      rw [comes_iff_exists_mem (fun s c s' hc => ih hc) hedges, NestedWithin, hes]
      simp

end Reader

namespace Trie

/-! ## Limited reading -/

variable {limit max n : Nat} {src : List UInt8} {t : Trie}

/-- Reading `src` comes to the header of a node more than `depth` edges below the root. -/
def Exceeds (max n : Nat) (src : List UInt8) (depth : Nat) : Prop :=
  ∃ d, depth < d ∧ Reader.Opens max (max + 1) true d ⟨src, 0, n⟩

theorem exceeds_iff : Exceeds max n src limit ↔
    Reader.Opens max (max + 1) true (limit + 1) ⟨src, 0, n⟩ := by
  constructor
  · rintro ⟨d, hd, h⟩
    exact Reader.opens_of_le hd h
  · exact fun h => ⟨limit + 1, Nat.lt_succ_self limit, h⟩

theorem decodeWithin_of_exceeds (hle : limit ≤ max) (h : Exceeds max n src limit) :
    (decodeWithin limit src n).1 = .error (.depthLimitExceeded limit) := by
  obtain ⟨more, rfl⟩ := Nat.exists_eq_add_of_le hle
  rw [exceeds_iff, Nat.add_right_comm] at h
  exact Reader.run_eq_error_iff.mpr (Or.inl (Reader.node_of_opens h))

theorem decodeWithin_of_not_exceeds (hle : limit ≤ max) (h : ¬ Exceeds max n src limit) :
    decodeWithin limit src n = decodeWithin max src n ∧
      ∀ l, (decodeWithin max src n).1 ≠ .error (.depthLimitExceeded l) := by
  obtain ⟨more, rfl⟩ := Nat.exists_eq_add_of_le hle
  rw [exceeds_iff, Nat.add_right_comm] at h
  obtain ⟨heq, hne⟩ : Reader.node limit (limit + 1) true ⟨src, 0, n⟩ = _ ∧ _ :=
    Reader.node_eq_of_not_opens h
  rw [← Nat.add_right_comm] at heq hne
  constructor
  · unfold decodeWithin Reader.run
    rw [heq]
  · intro l hl
    rcases Reader.run_eq_error_iff.mp hl with hl | ⟨u, s, -, -, hl⟩
    · exact hne l hl
    · cases hl

theorem exceeds_iff_of_ok (h : (decodeWithin max src n).1 = .ok t) :
    Exceeds max n src limit ↔ ¬ NestedWithin limit t := by
  obtain ⟨s, hs, -⟩ := Reader.run_eq_ok_iff.mp h
  rw [exceeds_iff]
  exact Reader.opens_succ_iff hs

/-- A limit on the nesting takes away the tries that are nested deeper and changes nothing else: what
is refused without it is refused for the same reason, unless a node that is too deep comes first.
Limits are numbers of 64 bits, and to be without one is to have the greatest of them. -/
theorem decodeWithin_iff (hl : limit ≤ unlimitedDepth) (src : List UInt8) (n : Nat) :
    (∀ t, (decodeWithin limit src n).1 = .ok t ↔
      (decode src n).1 = .ok t ∧ NestedWithin limit t) ∧
    (∀ t, (decode src n).1 = .ok t → ¬ NestedWithin limit t →
      (decodeWithin limit src n).1 = .error (.depthLimitExceeded limit)) ∧
    ∀ e, (decode src n).1 = .error e →
      ((decodeWithin limit src n).1 = .error e ∨
        (decodeWithin limit src n).1 = .error (.depthLimitExceeded limit)) ∧
      ((decodeWithin limit src n).1 = .error (.depthLimitExceeded limit) ↔
        Exceeds unlimitedDepth n src limit) := by
  rw [decode]
  generalize unlimitedDepth = max at hl
  by_cases hdeep : Exceeds max n src limit
  · have hlimited := decodeWithin_of_exceeds hl hdeep
    rw [hlimited]
    refine ⟨fun t => ⟨(by simp), fun ht => ?_⟩, fun _ _ _ => rfl, fun e _ => ⟨Or.inr rfl, ?_⟩⟩
    · exact absurd ht.2 ((exceeds_iff_of_ok ht.1).mp hdeep)
    · exact ⟨fun _ => hdeep, fun _ => rfl⟩
  · obtain ⟨heq, hne⟩ := decodeWithin_of_not_exceeds hl hdeep
    have hnested : ∀ t, (decodeWithin max src n).1 = .ok t → NestedWithin limit t := fun t ht =>
      not_not.mp (mt (exceeds_iff_of_ok ht).mpr hdeep)
    rw [heq]
    refine ⟨fun t => ⟨fun ht => ⟨ht, hnested t ht⟩, fun ht => ht.1⟩, fun t ht hdeeper => ?_,
      fun e he => ⟨Or.inl he, ?_⟩⟩
    · exact absurd (hnested t ht) hdeeper
    · exact ⟨fun h => absurd h (hne limit), fun h => absurd h hdeep⟩

/-- The set of 1, 1 1: read with a limit of two levels, and not with one; and bytes with a fault in
the header of the lowest node. -/
theorem decodeWithin_iff_chain :
    (∃ t, (decodeWithin 2 [0, 1, 1, 1, 1, 1, 1, 1, 1, 0] firstId).1 = .ok t ∧ NestedWithin 2 t) ∧
      (decodeWithin 1 [0, 1, 1, 1, 1, 1, 1, 1, 1, 0] firstId).1 = .error (.depthLimitExceeded 1) ∧
      (decode [0, 1, 1, 1, 1, 1, 1, 1, 7] firstId).1 = .error (.invalidFlag 8 7) ∧
      Exceeds unlimitedDepth firstId [0, 1, 1, 1, 1, 1, 1, 1, 7] 1 ∧
      ¬ Exceeds unlimitedDepth firstId [0, 1, 1, 1, 1, 1, 1, 1, 7] 2 := by
  have h₁ : 1 ≤ unlimitedDepth := by decide
  have h₂ : 2 ≤ unlimitedDepth := by decide
  have hfault : (decode [0, 1, 1, 1, 1, 1, 1, 1, 7] firstId).1 = .error (.invalidFlag 8 7) := rfl
  have hchain := (decodeWithin_iff h₂ [0, 1, 1, 1, 1, 1, 1, 1, 1, 0] firstId).1
  refine ⟨⟨_, rfl, ((hchain _).mp rfl).2⟩, ?_, hfault, ?_, ?_⟩
  · refine (decodeWithin_iff h₁ _ firstId).2.1 _ rfl fun hflat => ?_
    exact absurd (hflat _ List.mem_cons_self) (List.cons_ne_nil _ _)
  · exact (((decodeWithin_iff h₁ _ firstId).2.2 _ hfault).2).mp rfl
  · exact fun h => nomatch (((decodeWithin_iff h₂ _ firstId).2.2 _ hfault).2).mpr h

end Trie

end ByteTrie
