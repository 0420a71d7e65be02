import ByteTrie.Proofs.Enumeration
import ByteTrie.Proofs.Observers
import Mathlib

/-!
# Forks

A fork of a cursor is a cursor on the set below the focus.  Inside an edge that set has a node of its
own in front, so the two go over different nodes and edges; what they answer is the same all the same,
as long as the moves of the fork stay below its root.

    m.Within q              the move m, made at q, does not ask for anything above the root
    f.StaysWithin ms        each of the moves ms does so where f then is
    Mirrors p c f           the cursor c is at the path of f behind p, and both show the same
    u = x behind p          u.contains q = x.contains (p ++ q) for all q
-/

namespace ByteTrie

open Trie Pool

/-- The snapshots of a session: its sets, and the sets that forks of its cursors are on. -/
def Session.Holds (σ : Session) (x : Trie) : Prop := x ∈ σ.sets ∨ ∃ c ∈ σ.cursors, c.root = x

namespace Cursor

/-! ## Rows of moves and what they answer -/

/-- The cursor after a row of moves. -/
def after (c : Cursor) (ms : List Move) : Cursor := ms.foldl (fun d m => (d.move m).2) c

/-- What the moves of a row answer. -/
def answers (c : Cursor) : List Move → List Bool
  | [] => []
  | m :: ms => (c.move m).1 :: answers (c.move m).2 ms

/-- The moves that, made at the path `q`, ask for nothing above the root or beside it: those up by at
most the length of the path, those sideways at any place but the root, and all that lead down. -/
def Move.Within (q : Path) : Move → Prop
  | .descend _ => True
  | .descendByte _ => True
  | .descendIndex _ => True
  | .ascend n => n ≤ q.length
  | .nextSibling => q ≠ []
  | .prevSibling => q ≠ []
  | .nextMember => False
  | .reset => False

instance Move.decidableWithin (q : Path) : (m : Move) → Decidable (m.Within q)
  | .descend _ => inferInstanceAs (Decidable True)
  | .descendByte _ => inferInstanceAs (Decidable True)
  | .descendIndex _ => inferInstanceAs (Decidable True)
  | .ascend n => inferInstanceAs (Decidable (n ≤ q.length))
  | .nextSibling => inferInstanceAs (Decidable (q ≠ []))
  | .prevSibling => inferInstanceAs (Decidable (q ≠ []))
  | .nextMember => inferInstanceAs (Decidable False)
  | .reset => inferInstanceAs (Decidable False)

/-- A row of moves that stays below the root. -/
def StaysWithin (f : Cursor) : List Move → Prop
  | [] => True
  | m :: ms => m.Within f.path ∧ StaysWithin (f.move m).2 ms

instance decidableStaysWithin (f : Cursor) : (ms : List Move) → Decidable (f.StaysWithin ms)
  | [] => inferInstanceAs (Decidable True)
  | m :: ms =>
    have := decidableStaysWithin (f.move m).2 ms
    inferInstanceAs (Decidable (m.Within f.path ∧ StaysWithin (f.move m).2 ms))

/-- The cursor `c` is where `f` is, behind `p`, and shows what `f` shows. -/
structure Mirrors (p : Path) (c f : Cursor) : Prop where
  path_eq : c.path = p ++ f.path
  childMask_eq : c.childMask = f.childMask
  children_eq : c.children = f.children
  childCount_eq : c.childCount = f.childCount
  isMember_eq : c.isMember = f.isMember
  count_eq : c.count = f.count

variable {t u x : Trie} {c f : Cursor} {p q r r' : Path} {m : Move}

theorem exists_snoc_of_append {s : Path} {b : UInt8} (hq : q ≠ []) (h : p ++ q = s ++ [b]) :
    ∃ q₀, q = q₀ ++ [b] ∧ s = p ++ q₀ := by
  obtain hnil | ⟨q₀, d, rfl⟩ := List.eq_nil_or_concat' q
  · exact absurd hnil hq
  · rw [← List.append_assoc] at h
    obtain ⟨rfl, hd⟩ := List.append_inj' h rfl
    exact ⟨q₀, by rw [hd], rfl⟩

/-! ## The set behind a path -/

section

variable (hu : ∀ q, u.contains q = x.contains (p ++ q))

include hu

theorem hasPrefix_behind (q : Path) : u.HasPrefix q ↔ x.HasPrefix (p ++ q) := by
  refine exists_congr fun r => ?_
  rw [hu, List.append_assoc]

theorem continues_behind (q : Path) (bs : List UInt8) :
    u.Continues q bs ↔ x.Continues (p ++ q) bs := by
  constructor
  · rintro ⟨hasc, hmem⟩
    refine ⟨hasc, fun b => ?_⟩
    rw [hmem, hasPrefix_behind hu, List.append_assoc]
  · rintro ⟨hasc, hmem⟩
    refine ⟨hasc, fun b => ?_⟩
    rw [hmem, hasPrefix_behind hu, List.append_assoc]

/-- Behind the path `p`, the members that start with `p` are those of `u`. -/
theorem encard_behind (q : Path) : {r | p ++ q <+: r ∧ x.contains r = true}.encard =
    {r | q <+: r ∧ u.contains r = true}.encard := by
  have inj : Function.Injective (p ++ · : Path → Path) := fun _ _ => List.append_cancel_left
  have himage : {r | p ++ q <+: r ∧ x.contains r = true} =
      (p ++ ·) '' {r | q <+: r ∧ u.contains r = true} := by
    ext r
    constructor
    · rintro ⟨⟨s, rfl⟩, hr⟩
      rw [List.append_assoc] at hr ⊢
      exact ⟨q ++ s, ⟨List.prefix_append q s, (hu _).trans hr⟩, rfl⟩
    · rintro ⟨r, ⟨hq, hr⟩, rfl⟩
      exact ⟨(List.prefix_append_right_inj p).mpr hq, (hu r).symm.trans hr⟩
  rw [himage, inj.encard_image]

/-- A move that stays below the root of `u` leads in `x` to where it leads in `u`, behind `p`, and
nowhere else. -/
theorem leads_behind (hm : m.Within q) :
    Leads x (p ++ q) m r' ↔ ∃ r, r' = p ++ r ∧ Leads u q m r := by
  have hpre := hasPrefix_behind hu
  constructor
  · intro h
    cases h with
    | @descend k h =>
      rw [List.append_assoc] at h ⊢
      exact ⟨q ++ k, rfl, .descend (h.imp_right (hpre _).mpr)⟩
    | @descendByte b h =>
      rw [List.append_assoc] at h ⊢
      exact ⟨q ++ [b], rfl, .descendByte ((hpre _).mpr h)⟩
    | @descendIndex i b bs hbs h =>
      rw [List.append_assoc]
      exact ⟨q ++ [b], rfl, .descendIndex ((continues_behind hu q bs).mpr hbs) h⟩
    | @ascend n _ =>
      have hn : n ≤ q.length := hm
      refine ⟨q.take (q.length - n), ?_, .ascend hn⟩
      have hlen : (p ++ q).length - n = p.length + (q.length - n) := by
        rw [List.length_append]
        omega
      rw [hlen, List.take_length_add_append]
    | @nextSibling s b b' hp hlt h hleast =>
      obtain ⟨q, rfl, rfl⟩ := exists_snoc_of_append hm hp
      simp only [List.append_assoc, ← hpre] at h hleast
      exact ⟨q ++ [b'], List.append_assoc .., .nextSibling rfl hlt h hleast⟩
    | @prevSibling s b b' hp hlt h hgreatest =>
      obtain ⟨q, rfl, rfl⟩ := exists_snoc_of_append hm hp
      simp only [List.append_assoc, ← hpre] at h hgreatest
      exact ⟨q ++ [b'], List.append_assoc .., .prevSibling rfl hlt h hgreatest⟩
    | reset => exact absurd hm not_false
  · rintro ⟨r, rfl, h⟩
    cases h with
    | @descend k h =>
      rw [← List.append_assoc]
      refine .descend (h.imp_right fun h => ?_)
      rwa [List.append_assoc, ← hpre]
    | @descendByte b h =>
      rw [hpre, ← List.append_assoc] at h
      rw [← List.append_assoc]
      exact .descendByte h
    | @descendIndex i b bs hbs h =>
      rw [← List.append_assoc]
      exact .descendIndex ((continues_behind hu q bs).mp hbs) h
    | @ascend n hn =>
      have hlen : (p ++ q).length - n = p.length + (q.length - n) := by
        rw [List.length_append]
        omega
      rw [← List.take_length_add_append, ← hlen]
      refine .ascend ?_
      rw [List.length_append]
      omega
    | @nextSibling s b b' hp hlt h hleast =>
      simp only [hpre, ← List.append_assoc] at h hleast ⊢
      refine .nextSibling ?_ hlt h hleast
      rw [hp, List.append_assoc]
    | @prevSibling s b b' hp hlt h hgreatest =>
      simp only [hpre, ← List.append_assoc] at h hgreatest ⊢
      refine .prevSibling ?_ hlt h hgreatest
      rw [hp, List.append_assoc]
    | reset => exact absurd hm not_false

end

/-- For the members of a snapshot, a move leads to one path at most. -/
theorem Leads.unique (h : Leads t p m r) (h' : Leads t p m r') : r = r' := by
  cases h with
  | descend => cases h'; rfl
  | descendByte => cases h'; rfl
  | descendIndex hbs hb =>
    cases h' with
    | descendIndex hbs' hb' =>
      rw [hbs.unique hbs', hb'] at hb
      cases hb
      rfl
  | ascend => cases h'; rfl
  | @nextSibling q b b₁ hp hlt hpre hleast =>
    cases h' with
    | @nextSibling q' b' b₂ hp' hlt' hpre' hleast' =>
      obtain ⟨rfl, hb⟩ := List.append_inj' (hp.symm.trans hp') rfl
      cases hb
      rw [UInt8.le_antisymm (hleast _ hlt' hpre') (hleast' _ hlt hpre)]
  | @prevSibling q b b₁ hp hlt hpre hgreatest =>
    cases h' with
    | @prevSibling q' b' b₂ hp' hlt' hpre' hgreatest' =>
      obtain ⟨rfl, hb⟩ := List.append_inj' (hp.symm.trans hp') rfl
      cases hb
      rw [UInt8.le_antisymm (hgreatest' _ hlt hpre) (hgreatest _ hlt' hpre')]
  | reset => cases h'; rfl

/-! ## One move, and a row of them -/

/-- The cursor `c` on `x` is behind `p` where `f` is on `u`. -/
structure Paired (x u : Trie) (p : Path) (c f : Cursor) : Prop where
  left : c.IsAt x (p ++ f.path)
  right : f.IsAt u f.path

section

variable (hx : x.Canonical) (hcan : u.Canonical)
  (hu : ∀ q, u.contains q = x.contains (p ++ q))

include hx hcan hu

/-- Both answer a move in the same way, and are in the same places after it. -/
theorem Paired.move (h : Paired x u p c f) (hm : m.Within f.path) :
    (c.move m).1 = (f.move m).1 ∧ Paired x u p (c.move m).2 (f.move m).2 := by
  have hnext : m ≠ .nextMember := by
    rintro rfl
    exact hm
  have hpath : c.path = p ++ f.path := h.left.path_eq
  have hc := (hpath ▸ h.left).exact_move hx hnext
  have hf := h.right.exact_move hcan hnext
  have hbehind : ∀ r', Leads x c.path m r' ↔ ∃ r, r' = p ++ r ∧ Leads u f.path m r := fun _ => by
    rw [hpath]
    exact leads_behind hu hm
  have hsame : (c.move m).1 = (f.move m).1 := by
    rw [Bool.eq_iff_iff, hc.succeeds_iff, hf.succeeds_iff]
    constructor
    · rintro ⟨r', hr'⟩
      obtain ⟨r, -, hr⟩ := (hbehind r').mp hr'
      exact ⟨r, hr⟩
    · rintro ⟨r, hr⟩
      exact ⟨p ++ r, (hbehind _).mpr ⟨r, rfl, hr⟩⟩
  refine ⟨hsame, ?_⟩
  cases hans : (f.move m).1 with
  | false =>
    rw [hc.stays (hsame.trans hans), hf.stays hans]
    exact h
  | true =>
    obtain ⟨r, hr, hl⟩ := (hbehind _).mp (hc.leads (hsame.trans hans))
    obtain rfl := hl.unique (hf.leads hans)
    obtain ⟨s, hat⟩ := h.left.move hx m
    obtain ⟨s', hat'⟩ := h.right.move hcan m
    exact ⟨hr ▸ hat.path_eq ▸ hat, hat'.path_eq ▸ hat'⟩

/-- The induction is over the row, for the cursors after its first move. -/
theorem Paired.moves {ms : List Move} (h : Paired x u p c f) (hms : f.StaysWithin ms) :
    c.answers ms = f.answers ms ∧ Paired x u p (c.after ms) (f.after ms) := by
  induction ms generalizing c f with
  | nil => exact ⟨rfl, h⟩
  | cons m ms ih =>
    obtain ⟨hm, hms⟩ := hms
    obtain ⟨hans, hpaired⟩ := h.move hx hcan hu hm
    obtain ⟨hrest, hafter⟩ := ih hpaired hms
    refine ⟨?_, hafter⟩
    rw [answers, answers, hans, hrest]

theorem Paired.mirrors (h : Paired x u p c f) : Mirrors p c f := by
  have hpath : c.path = p ++ f.path := h.left.path_eq
  have hc := (hpath ▸ h.left : c.IsAt x c.path).shows hx
  have hf := h.right.shows hcan
  have hchildren : c.children = f.children := by
    have hbehind := (continues_behind hu f.path f.children).mp hf.children
    rw [← hpath] at hbehind
    exact hc.children.unique hbehind
  refine ⟨hpath, ?_, hchildren, ?_, ?_, ?_⟩
  · refine ByteMask.eq_of_contains_eq fun b => ?_
    rw [Bool.eq_iff_iff, hc.childMask_iff, hf.childMask_iff, hasPrefix_behind hu, hpath,
      List.append_assoc]
  · rw [hc.childCount_eq, hf.childCount_eq, hchildren]
  · rw [hc.isMember_eq, hf.isMember_eq, hu, hpath]
  · have hcount : (c.count : ℕ∞) = f.count := by
      rw [hc.count_eq, hf.count_eq, hpath, encard_behind hu]
    exact_mod_cast hcount

end

end Cursor

namespace Session

variable {hash : HashFunction} {σ : Session}

theorem In.mem_of_holds {P : Pool} (h : σ.In hash P) {x : Trie} (hx : σ.Holds x) : x ∈ P := by
  rcases hx with hx | ⟨c, hc, rfl⟩
  · exact h.sets x hx
  · exact (h.cursors c hc).root

/-- Wherever moves have led a cursor, the set below its focus has the members behind its path, and a
fork goes on like the cursor itself as long as its moves stay below its root. -/
theorem fork_mirrors (h : Reachable hash σ) (hc : CollisionFree hash σ.interned) {x : Trie}
    (hx : σ.Holds x) {c : Cursor} (hr : Cursor.Run x c) (n : Nat) :
    (c.subtrie n).1.Canonical ∧
    (∀ q, (c.subtrie n).1.contains q = x.contains (c.path ++ q)) ∧
    ∀ ms, (c.fork n).1.StaysWithin ms →
      c.answers ms = (c.fork n).1.answers ms ∧
      Cursor.Mirrors c.path (c.after ms) ((c.fork n).1.after ms) := by
  obtain ⟨P, hP⟩ := h.exists_pool hc
  have hxP := hP.mem_of_holds hx
  have hcan := canonical hxP
  have hat := hr.isAt hcan
  obtain ⟨hsub, hmembers⟩ := hat.subtrie (hr.mem hxP) hcan n
  have hu : ∀ q, (c.subtrie n).1.contains q = x.contains (c.path ++ q) := by
    intro q
    rw [Bool.eq_iff_iff, hsub.contains_iff, hcan.contains_iff]
    exact Set.ext_iff.mp hmembers q
  refine ⟨hsub, hu, fun ms hms => ?_⟩
  have hfork : (c.fork n).1 = Cursor.ofTrie (c.subtrie n).1 := rfl
  rw [hfork] at hms ⊢
  have hstart : Cursor.Paired x (c.subtrie n).1 c.path c (Cursor.ofTrie (c.subtrie n).1) := by
    refine ⟨?_, Cursor.isAt_ofTrie _⟩
    have hroot : (Cursor.ofTrie (c.subtrie n).1).path = [] := rfl
    rw [hroot, List.append_nil]
    exact hat
  obtain ⟨hanswers, hpaired⟩ := hstart.moves hcan hsub hu hms
  exact ⟨hanswers, hpaired.mirrors hcan hsub hu⟩

/-- From inside the first edge of the branching set: down to the node at 1 2, into the edge to 4, to
its sibling and back to the fork's root. -/
theorem fork_mirrors_branching :
    insideEdge.path = [1] ∧ (insideEdge.subtrie 7).1.contains [2, 3] = true ∧
      insideEdge.answers [.descend [2, 4], .prevSibling, .descendIndex 0, .ascend 2] =
        (insideEdge.fork 7).1.answers [.descend [2, 4], .prevSibling, .descendIndex 0, .ascend 2] ∧
      Cursor.Mirrors [1] (insideEdge.after [.descend [2, 4], .prevSibling])
        ((insideEdge.fork 7).1.after [.descend [2, 4], .prevSibling]) := by
  obtain ⟨-, hmem, hmoves⟩ := fork_mirrors (branching_reachable Blake3.hash)
    (branching_collisionFree _) (Or.inl branchingSet_mem) run_insideEdge 7
  have hpath : insideEdge.path = [1] := by decide +kernel
  have hcontains : branchingSet.contains [1, 2, 3] = true := by decide +kernel
  rw [hpath] at hmem hmoves
  refine ⟨hpath, (hmem _).trans hcontains, (hmoves _ ?_).1, (hmoves _ ?_).2⟩
  · decide +kernel
  · decide +kernel

end Session

end ByteTrie
