import ByteTrie.Proofs.Build
import ByteTrie.Proofs.Descent
import ByteTrie.Proofs.Watched
import Mathlib

/-!
# Building on a stack

A trie is built from an ascending list of paths by a loop over rows.  A row is a node that is being built,
with the paths below it that no edge covers yet; the paths that go on with one byte are taken off and
become a row of their own, and at the end of that one the edge to it is put into its parent.  All indices
and slices are checked, and so is every node that is made.

    r.next? first          the row of the paths that go on as `first` does, and what is left of r
    Rows.step?             the next group of the row on top, or its end
    Rows.Sound w           what holds of every row on the stack
    keeps_rows             a step from a sound stack is not stopped, and leads to a sound stack
    safe_ofSorted          the loop gives what `ofSorted` gives
-/

namespace ByteTrie

open Trie

/-- A node that is being built: its edges so far, and the paths that no edge covers yet, each with `depth`
bytes that lead to the node.  `key` is the key of the edge that is to lead to it. -/
structure Row where
  terminal : Bool
  edges : List (Edge Trie)
  rest : List Path
  depth : Nat
  key : Path

/-- How many paths at the front have the byte `b` at index `depth`. -/
def Path.count? (depth : Nat) (b : UInt8) : List Path → Option Nat
  | [] => some 0
  | p :: ps => do
    let c ← p[depth]?
    if c = b then return (← count? depth b ps) + 1 else return 0

def Path.splitAt? (n : Nat) (ps : List Path) : Option (List Path × List Path) :=
  if n ≤ ps.length then some (ps.take n, ps.drop n) else none

namespace Row

/-- The row for paths that share their first `depth` bytes.  One that ends there is the first one, and is
left out. -/
def start (ps : List Path) (depth : Nat) (key : Path) : Row :=
  let terminal := ps.head?.any fun p => p.length == depth
  ⟨terminal, [], ps.drop terminal.toNat, depth, key⟩

def next? (r : Row) (first : Path) : Option (Row × Row) := do
  let b ← first[r.depth]?
  let n ← Path.count? r.depth b r.rest
  let (group, tail) ← Path.splitAt? n r.rest
  let last ← group[← Range.Checked.sub? n 1]?
  let shared := Path.overlap (← first.slice? r.depth first.length) (← last.slice? r.depth last.length)
  let key ← first.slice? r.depth (r.depth + shared)
  return (start group (r.depth + shared) key, { r with rest := tail })

end Row

structure Rows where
  row : Row
  parents : List Row

def Rows.step? : Machine Rows Trie := fun w i =>
  match w.row.rest with
  | first :: _ => do
    let (child, row) ← w.row.next? first
    return (.inr ⟨child, row :: w.parents⟩, i)
  | [] => do
    let (t, j) ← make? w.row.terminal w.row.edges i
    match w.parents, w.row.key with
    | [], _ => return (.inl t, j)
    | _ :: _, [] => failure
    | p :: parents, b :: k =>
      return (.inr ⟨{ p with edges := p.edges ++ [⟨b, k, t⟩] }, parents⟩, j)

/-! ## One group -/

section

variable {c p : Path} {b : UInt8} {ps : List Path}

theorem getElem?_append_length (c p : Path) : (c ++ p)[c.length]? = p.head? := by
  rw [List.getElem?_append_right (Nat.le_refl _), Nat.sub_self, List.head?_eq_getElem?]

theorem count?_eq (hps : ∀ p ∈ ps, p ≠ []) : Path.count? c.length b (ps.map (c ++ ·)) =
    some (ps.takeWhile fun q => q.head? == some b).length := by
  induction ps with
  | nil => rfl
  | cons p ps ih =>
    have ih := ih fun q hq => hps q (List.mem_cons_of_mem p hq)
    cases p with
    | nil => exact absurd rfl (hps [] List.mem_cons_self)
    | cons d p =>
      rw [List.map_cons, Path.count?, getElem?_append_length, ih]
      by_cases hd : d = b
      · subst hd
        simp
      · simp [hd]

theorem splitAt?_eq (qs rs : List Path) :
    Path.splitAt? qs.length (qs ++ rs) = some (qs, rs) := by
  rw [Path.splitAt?, if_pos (by simp), List.take_left, List.drop_left]

theorem slice?_to_end_append (c p : Path) : (c ++ p).slice? c.length (c ++ p).length = some p := by
  rw [Path.slice?_to_end (by simp), List.drop_left]

theorem slice?_append (c p : Path) {n : Nat} (hn : n ≤ p.length) :
    (c ++ p).slice? c.length (c.length + n) = some (p.take n) := by
  rw [Path.slice?_eq (Nat.le_add_right _ _) (by simpa using hn), List.take_length_add_append,
    List.drop_left]

theorem ne_nil_of_lt {p q : Path} (h : p < q) : q ≠ [] := by
  rintro rfl
  exact List.not_lt_nil p h

theorem dropWhile_isEmpty_eq (h : ∀ p ∈ ps, p ≠ []) : ps.dropWhile List.isEmpty = ps := by
  cases ps with
  | nil => rfl
  | cons p ps =>
    have hp : p.isEmpty = false := by simpa using h p List.mem_cons_self
    rw [List.dropWhile_cons, hp]
    rfl

/-- Of ascending paths only the first may be empty. -/
theorem ne_nil_of_mem_dropWhile (h : ps.Pairwise (· < ·)) :
    ∀ p ∈ ps.dropWhile List.isEmpty, p ≠ [] := by
  cases ps with
  | nil => exact fun p hp => absurd hp List.not_mem_nil
  | cons q ps =>
    have hps : ∀ p ∈ ps, p ≠ [] := fun p hp => ne_nil_of_lt ((List.pairwise_cons.mp h).1 p hp)
    cases q with
    | nil =>
      rw [List.dropWhile_cons_of_pos rfl, dropWhile_isEmpty_eq hps]
      exact hps
    | cons b q =>
      rw [List.dropWhile_cons_of_neg (by simp)]
      intro p hp
      rcases List.mem_cons.mp hp with rfl | hp
      · exact List.cons_ne_nil b q
      · exact hps p hp

/-- The row for paths behind `c`: they ascend, so only the first may end there. -/
theorem start_eq (hps : ps.Pairwise (· < ·)) (key : Path) : Row.start (ps.map (c ++ ·)) c.length key =
    ⟨ps.head? == some [], [], (ps.dropWhile List.isEmpty).map (c ++ ·), c.length, key⟩ := by
  cases ps with
  | nil => rfl
  | cons p ps =>
    cases p with
    | nil =>
      have hne : ∀ q ∈ ps, q ≠ [] := fun q hq => ne_nil_of_lt ((List.pairwise_cons.mp hps).1 q hq)
      have hlen : ((c ++ []).length == c.length) = true := by simp
      rw [List.dropWhile_cons_of_pos rfl, dropWhile_isEmpty_eq hne]
      simp only [Row.start, List.map_cons, List.head?_cons, Option.any_some, hlen]
      rfl
    | cons b p =>
      have hlen : ((c ++ b :: p).length == c.length) = false := by
        rw [beq_eq_false_iff_ne, List.length_append, List.length_cons]
        omega
      rw [List.dropWhile_cons_of_neg (by simp)]
      simp only [Row.start, List.map_cons, List.head?_cons, Option.any_some, hlen]
      rfl

/-- The group of the first path behind `c`, and what is left. -/
theorem next?_eq (h : ((b :: p) :: ps).Pairwise (· < ·)) {r : Row} (hc : c.length = r.depth)
    (hrest : r.rest = ((b :: p) :: ps).map (c ++ ·)) : r.next? (c ++ b :: p) =
      some (Row.start ((groupBelow b p ps).map (c ++ b :: p.take (sharedLength b p ps) ++ ·))
        (c ++ b :: p.take (sharedLength b p ps)).length (b :: p.take (sharedLength b p ps)),
        { r with rest := (ps.dropWhile fun q => q.head? == some b).map (c ++ ·) }) := by
  have hne : ∀ q ∈ (b :: p) :: ps, q ≠ [] := by
    intro q hq
    rcases List.mem_cons.mp hq with rfl | hq
    · exact List.cons_ne_nil b p
    · exact ne_nil_of_lt ((List.pairwise_cons.mp h).1 q hq)
  -- the group, and the paths behind it
  have hgroup : (((b :: p) :: ps).takeWhile fun q => q.head? == some b) =
      (groupTails b p ps).map (b :: ·) := by
    rw [← cons_takeWhile_eq_map, List.takeWhile_cons_of_pos (by simp)]
  have htail : (((b :: p) :: ps).dropWhile fun q => q.head? == some b) =
      ps.dropWhile fun q => q.head? == some b :=
    List.dropWhile_cons_of_pos (by simp)
  have hsplit : r.rest = ((groupTails b p ps).map fun q => c ++ b :: q) ++
      (ps.dropWhile fun q => q.head? == some b).map (c ++ ·) := by
    rw [hrest, ← List.takeWhile_append_dropWhile (p := fun q => q.head? == some b)
      (l := (b :: p) :: ps), List.map_append, hgroup, htail, List.map_map]
    rfl
  have hcount : Path.count? c.length b r.rest =
      some ((groupTails b p ps).map fun q => c ++ b :: q).length := by
    rw [hrest, count?_eq hne, hgroup, List.length_map, List.length_map]
  -- its last path
  have hpos : 1 ≤ ((groupTails b p ps).map fun q => c ++ b :: q).length := by
    rw [List.length_map, groupTails, List.length_cons]
    omega
  have hlast : ((groupTails b p ps).map fun q => c ++ b :: q)[
      ((groupTails b p ps).map fun q => c ++ b :: q).length - 1]? =
        some (c ++ b :: (groupTails b p ps).getLastD p) := by
    rw [← List.getLast?_eq_getElem?, List.getLast?_map, List.getLastD_eq_getLast?, groupTails,
      List.getLast?_cons, Option.map_some, Option.getD_some]
  have hshared : Path.overlap (b :: p) (b :: (groupTails b p ps).getLastD p) =
      sharedLength b p ps + 1 :=
    Path.overlap_cons_self b p _
  have hle : sharedLength b p ps + 1 ≤ (b :: p).length := by
    rw [← hshared]
    exact Path.overlap_le_left _ _
  have hbelow : ((groupTails b p ps).map fun q => c ++ b :: q) =
      (groupBelow b p ps).map (c ++ b :: p.take (sharedLength b p ps) ++ ·) := by
    rw [groupBelow, List.map_map]
    apply List.map_congr_left
    intro q hq
    show c ++ b :: q = c ++ b :: p.take (sharedLength b p ps) ++ q.drop (sharedLength b p ps)
    rw [List.append_assoc, List.cons_append, drop_shared h hq]
  have hdepth : (c ++ b :: p.take (sharedLength b p ps)).length =
      c.length + (sharedLength b p ps + 1) := by
    rw [List.length_append, List.length_cons, List.length_take,
      Nat.min_eq_left (Nat.le_of_succ_le_succ hle)]
  unfold Row.next?
  rw [← hc, getElem?_append_length, hdepth, ← hbelow]
  simp only [List.head?_cons, Option.bind_eq_bind, Option.bind_some, hcount]
  rw [hsplit, splitAt?_eq]
  simp only [Option.bind_some, Range.Checked.sub?_eq hpos, hlast, slice?_to_end_append, hshared,
    slice?_append c _ hle]
  rfl

end

/-! ## What holds of every row -/

/-- The paths of a row share the bytes that lead to it, ascend, and go on behind these bytes. -/
structure Row.Sound (r : Row) : Prop where
  shares : ∃ (c : Path) (ps : List Path), c.length = r.depth ∧ r.rest = ps.map (c ++ ·) ∧ ps.Pairwise (· < ·) ∧
    ∀ p ∈ ps, p ≠ []
  inBounds : ∀ p ∈ r.rest, r.depth < p.length
  ascending : r.edges.Pairwise fun e f => e.first < f.first
  inhabited : ∀ e ∈ r.edges, e.child.isEmpty = false
  behind : ∀ e ∈ r.edges, ∀ p ∈ r.rest, ∀ b, p[r.depth]? = some b → e.first < b

/-- The edge to a row stands behind the edges of its parent, and before those still to come. -/
def Row.Hangs (r parent : Row) : Prop :=
  ∃ b k, r.key = b :: k ∧ (∀ e ∈ parent.edges, e.first < b) ∧
    ∀ p ∈ parent.rest, ∀ c, p[parent.depth]? = some c → b < c

/-- Below the root no row comes to an empty node. -/
structure Rows.Sound (w : Rows) : Prop where
  rows : ∀ r ∈ w.row :: w.parents, r.Sound
  hangs : (w.row :: w.parents).IsChain Row.Hangs
  inhabited : w.parents ≠ [] → w.row.terminal = true ∨ w.row.edges ≠ [] ∨ w.row.rest ≠ []

theorem Row.Sound.buildable {r : Row} (h : r.Sound) : Buildable r.edges := ⟨h.ascending, h.inhabited⟩

variable {c : Path} {ps : List Path} {r : Row}

/-- A row for paths that ascend behind `c`. -/
theorem sound_of_rest (hc : c.length = r.depth) (hrest : r.rest = ps.map (c ++ ·))
    (hps : ps.Pairwise (· < ·)) (hne : ∀ p ∈ ps, p ≠ []) (hbuild : Buildable r.edges)
    (hbehind : ∀ e ∈ r.edges, ∀ b p, b :: p ∈ ps → e.first < b) : r.Sound where
  shares := ⟨c, ps, hc, hrest, hps, hne⟩
  inBounds := by
    rw [hrest]
    intro p hp
    obtain ⟨q, hq, rfl⟩ := List.mem_map.mp hp
    have hpos := List.length_pos_iff.mpr (hne q hq)
    rw [← hc, List.length_append]
    omega
  ascending := hbuild.1
  inhabited := hbuild.2
  behind := by
    rw [hrest, ← hc]
    intro e he p hp b hb
    obtain ⟨q, hq, rfl⟩ := List.mem_map.mp hp
    rw [getElem?_append_length] at hb
    cases q with
    | nil => cases hb
    | cons d q =>
      obtain rfl := Option.some.inj hb
      exact hbehind e he d q hq

theorem buildable_nil : Buildable [] := ⟨List.Pairwise.nil, fun _ he => absurd he List.not_mem_nil⟩

theorem sound_start (hps : ps.Pairwise (· < ·)) (key : Path) :
    (Row.start (ps.map (c ++ ·)) c.length key).Sound := by
  rw [start_eq hps]
  exact sound_of_rest rfl rfl (hps.sublist (List.dropWhile_sublist _)) (ne_nil_of_mem_dropWhile hps)
    buildable_nil fun e he => absurd he List.not_mem_nil

/-- A row made for some path ends there, or has a path to go on with. -/
theorem inhabited_start (hps : ps.Pairwise (· < ·)) (hne : ps ≠ []) (key : Path) :
    (Row.start (ps.map (c ++ ·)) c.length key).terminal = true ∨
      (Row.start (ps.map (c ++ ·)) c.length key).rest ≠ [] := by
  rw [start_eq hps]
  cases ps with
  | nil => exact absurd rfl hne
  | cons p ps =>
    cases p with
    | nil => exact Or.inl rfl
    | cons b p => exact Or.inr (List.cons_ne_nil _ _)

/-! ## A step -/

/-- Where a row hangs its key alone decides. -/
theorem isChain_of_key_eq {r' : Row} {parents : List Row} (h : (r :: parents).IsChain Row.Hangs)
    (hkey : r'.key = r.key) : (r' :: parents).IsChain Row.Hangs := by
  cases parents with
  | nil => exact List.IsChain.singleton r'
  | cons parent parents =>
    obtain ⟨⟨b, k, hk, hbk⟩, htail⟩ := List.isChain_cons_cons.mp h
    exact List.isChain_cons_cons.mpr ⟨⟨b, k, hkey.trans hk, hbk⟩, htail⟩

theorem Row.Sound.lt_first {d : UInt8} {p : Path} (h : r.Sound) (hc : c.length = r.depth)
    (hp : c ++ d :: p ∈ r.rest) {e : Edge Trie} (he : e ∈ r.edges) : e.first < d := by
  refine h.behind e he _ hp d ?_
  rw [← hc, getElem?_append_length]
  rfl

/-- A group is taken off: the row for it, and the row without it. -/
theorem Row.Sound.next {first : Path} {rest : List Path} (h : r.Sound)
    (hrest : r.rest = first :: rest) : ∃ child tail, r.next? first = some (child, tail) ∧
      child.Sound ∧ tail.Sound ∧ tail.key = r.key ∧ child.Hangs tail ∧
        (child.terminal = true ∨ child.rest ≠ []) := by
  obtain ⟨c, ps, hc, hps, hsorted, hne⟩ := h.shares
  cases ps with
  | nil => cases hrest.symm.trans hps
  | cons q ps =>
    cases q with
    | nil => exact absurd rfl (hne [] List.mem_cons_self)
    | cons b p =>
      obtain rfl : first = c ++ b :: p := (List.cons.inj (hrest.symm.trans hps)).1
      have hsub : (ps.dropWhile fun q => q.head? == some b).Sublist ((b :: p) :: ps) :=
        (List.dropWhile_sublist _).trans (List.sublist_cons_self _ _)
      have hbelow : groupBelow b p ps ≠ [] := by
        rw [groupBelow, groupTails, List.map_cons]
        exact List.cons_ne_nil _ _
      refine ⟨_, _, next?_eq hsorted hc hps, sound_start (pairwise_groupBelow hsorted) _, ?_, rfl, ?_,
        inhabited_start (pairwise_groupBelow hsorted) hbelow _⟩
      · refine sound_of_rest hc rfl (hsorted.sublist hsub) (fun q hq => hne q (hsub.mem hq)) h.buildable
          fun e he d q hq => ?_
        have hmem : c ++ d :: q ∈ r.rest := by
          rw [hps]
          exact List.mem_map.mpr ⟨d :: q, hsub.mem hq, rfl⟩
        exact h.lt_first hc hmem he
      · refine ⟨b, _, rfl, fun e he => ?_, fun q hq d hd => ?_⟩
        · exact h.lt_first hc (hrest ▸ List.mem_cons_self) he
        · obtain ⟨q', hq', rfl⟩ := List.mem_map.mp hq
          obtain ⟨d', q'', rfl, hlt⟩ := lt_of_mem_dropWhile hsorted q' hq'
          have hd' : (c ++ d' :: q'')[r.depth]? = some d := hd
          rw [← hc, getElem?_append_length] at hd'
          obtain rfl := Option.some.inj hd'
          exact hlt

/-- At the end of a row the edge to it is put into its parent. -/
theorem Row.Sound.attach {parent : Row} (h : parent.Sound) {b : UInt8} {k : Path} {t : Trie}
    (hedges : ∀ e ∈ parent.edges, e.first < b)
    (hrest : ∀ p ∈ parent.rest, ∀ c, p[parent.depth]? = some c → b < c) (ht : t.isEmpty = false) :
    Row.Sound { parent with edges := parent.edges ++ [⟨b, k, t⟩] } where
  shares := h.shares
  inBounds := h.inBounds
  ascending := by
    rw [List.pairwise_append]
    refine ⟨h.ascending, List.pairwise_singleton _ _, fun e he f hf => ?_⟩
    obtain rfl := List.mem_singleton.mp hf
    exact hedges e he
  inhabited := by
    intro e he
    rcases List.mem_append.mp he with he | he
    · exact h.inhabited e he
    · obtain rfl := List.mem_singleton.mp he
      exact ht
  behind := by
    intro e he p hp c hc
    rcases List.mem_append.mp he with he | he
    · exact h.behind e he p hp c hc
    · obtain rfl := List.mem_singleton.mp he
      exact hrest p hp c hc

namespace Rows

variable (parents : List Row) {child tail : Row} {i j : Nat} {t : Trie}

theorem leads_next {first : Path} {rest : List Path} (hrest : r.rest = first :: rest)
    (hnext : r.next? first = some (child, tail)) (i : Nat) :
    Rows.step?.Leads (⟨r, parents⟩, i) (⟨child, tail :: parents⟩, i) := by
  simp only [Machine.Leads, step?, hrest, hnext, Option.bind_eq_bind, Option.bind_some]
  rfl

theorem leads_attach (parent : Row) {b : UInt8} {k : Path} (hrest : r.rest = []) (hkey : r.key = b :: k)
    (hmake : make? r.terminal r.edges i = some (t, j)) :
    Rows.step?.Leads (⟨r, parent :: parents⟩, i)
      (⟨{ parent with edges := parent.edges ++ [⟨b, k, t⟩] }, parents⟩, j) := by
  simp only [Machine.Leads, step?, hrest, hkey, hmake, Option.bind_eq_bind, Option.bind_some]
  rfl

theorem step?_last (hrest : r.rest = []) (hmake : make? r.terminal r.edges i = some (t, j)) :
    Rows.step? ⟨r, []⟩ i = some (.inl t, j) := by
  simp only [step?, hrest, hmake, Option.bind_eq_bind, Option.bind_some]
  rfl

end Rows

/-- A step from a sound stack of rows is not stopped, and leads to a sound one. -/
theorem keeps_rows : Rows.step?.Keeps Rows.Sound := by
  rintro ⟨r, parents⟩ i ⟨hrows, hhangs, hinhabited⟩
  have hr := hrows r List.mem_cons_self
  cases hrest : r.rest with
  | cons first rest =>
    obtain ⟨child, tail, hnext, hchild, htail, hkey, hangs, hstart⟩ := hr.next hrest
    refine ⟨_, Rows.leads_next parents hrest hnext i, ?_⟩
    rintro w ⟨⟩
    refine ⟨fun q hq => ?_, ?_, fun _ => hstart.imp id Or.inr⟩
    · rcases List.mem_cons.mp hq with rfl | hq
      · exact hchild
      · rcases List.mem_cons.mp hq with rfl | hq
        · exact htail
        · exact hrows q (List.mem_cons_of_mem r hq)
    · exact List.isChain_cons_cons.mpr ⟨hangs, isChain_of_key_eq hhangs hkey⟩
  | nil =>
    have hmake := make?_eq hr.buildable r.terminal i
    cases parents with
    | nil => exact ⟨_, Rows.step?_last hrest hmake, fun w hw => by cases hw⟩
    | cons parent parents =>
      obtain ⟨⟨b, k, hkey, hedges, hbefore⟩, htail⟩ := List.isChain_cons_cons.mp hhangs
      refine ⟨_, Rows.leads_attach parents parent hrest hkey hmake, ?_⟩
      rintro w ⟨⟩
      have hempty : (make r.terminal r.edges i).1.isEmpty = false := by
        refine isEmpty_make hr.buildable ?_ i
        rcases hinhabited (List.cons_ne_nil _ _) with h | h | h
        · exact Or.inl h
        · exact Or.inr h
        · exact absurd hrest h
      have hparent := (hrows parent (List.mem_cons_of_mem r List.mem_cons_self)).attach (k := k) hedges
        hbefore hempty
      refine ⟨fun q hq => ?_, ?_, fun _ => Or.inr (Or.inl ?_)⟩
      · rcases List.mem_cons.mp hq with rfl | hq
        · exact hparent
        · exact hrows q (List.mem_cons_of_mem r (List.mem_cons_of_mem parent hq))
      · exact isChain_of_key_eq htail rfl
      · exact List.append_ne_nil_of_right_ne_nil _ (List.cons_ne_nil _ _)

/-! ## The rows and the recursion -/

/-- On top of any stack, the loop covers the paths `ps` of a row with the edges that `x` makes. -/
def Covers (ps : List Path) (x : Fresh (List (Edge Trie))) : Prop :=
  ∀ (c : Path) r parents i, Rows.Sound ⟨r, parents⟩ → c.length = r.depth →
    r.rest = (ps.dropWhile List.isEmpty).map (c ++ ·) →
    Rows.step?.Reaches (⟨r, parents⟩, i)
      (⟨{ r with edges := r.edges ++ (x i).1, rest := [] }, parents⟩, (x i).2)

theorem covers_nil : Covers [] (pure []) := by
  rintro c ⟨terminal, edges, rest, depth, key⟩ parents i _ _ hrest
  obtain rfl : rest = [] := hrest
  show Rows.step?.Reaches _ (⟨⟨terminal, edges ++ [], [], depth, key⟩, parents⟩, i)
  rw [List.append_nil]
  exact Machine.Reaches.refl _

/-- The induction is that of the recursion: the paths below a group, and those behind it. -/
theorem covers (ps : List Path) (h : ps.Pairwise (· < ·)) : Covers ps (edgesOfSorted ps) := by
  induction ps using edgesOfSorted.induct with
  | case1 =>
    rw [edgesOfSorted]
    exact covers_nil
  | case2 ps ih =>
    rw [edgesOfSorted]
    intro c r parents i hw hc hrest
    exact ih (List.pairwise_cons.mp h).2 c r parents i hw hc hrest
  | case3 b p ps group tails shared below ihBelow ihRest =>
    rw [edgesOfSorted]
    intro c r parents i hw hc hrest
    rw [List.dropWhile_cons_of_neg (by simp)] at hrest
    have hbelow : (groupBelow b p ps).Pairwise (· < ·) := pairwise_groupBelow h
    -- down to the row of the group
    have hnext := next?_eq h hc hrest
    rw [start_eq hbelow] at hnext
    have hdown := Rows.leads_next parents hrest hnext i
    have hw₁ := keeps_rows.reaches hw hdown.reaches
    have hchild := ihBelow hbelow _ _ _ i hw₁ rfl rfl
    have hw₂ := keeps_rows.reaches hw₁ hchild
    -- and up again with its edge
    have hmake := make?_eq (hw₂.rows _ List.mem_cons_self).buildable
      ((groupBelow b p ps).head? == some []) (edgesOfSorted below i).2
    have hup := Rows.leads_attach parents
      { r with rest := (ps.dropWhile fun q => q.head? == some b).map (c ++ ·) } rfl rfl hmake
    have hw₃ := keeps_rows.reaches hw₂ hup.reaches
    have hne : ∀ q ∈ ps.dropWhile fun q => q.head? == some b, q ≠ [] := by
      intro q hq
      obtain ⟨d, q', rfl, -⟩ := lt_of_mem_dropWhile h q hq
      exact List.cons_ne_nil d q'
    have htail := ihRest ((List.pairwise_cons.mp h).2.sublist (List.dropWhile_sublist _)) c _ _
      (make (below.head? == some []) (edgesOfSorted below i).1 (edgesOfSorted below i).2).2 hw₃ hc
      (by rw [dropWhile_isEmpty_eq hne])
    have hall := hdown.reaches.trans (hchild.trans (hup.reaches.trans htail))
    rw [List.append_assoc] at hall
    exact hall

/-- The loop for paths that share the bytes of `c` and ascend behind them is never stopped: no index is out
of bounds, in no row that it comes to, and every node may be made.  It gives what `ofSorted` gives for what is
behind `c`, with the same ids. -/
theorem safe_ofSorted (c : Path) {ps : List Path} (h : ps.Pairwise (· < ·)) (i : Nat) :
    Rows.step?.Safe Rows.Sound (⟨Row.start (ps.map (c ++ ·)) c.length [], []⟩, i) (ofSorted ps i) := by
  have hw : Rows.Sound ⟨Row.start (ps.map (c ++ ·)) c.length [], []⟩ := by
    refine ⟨fun r hr => ?_, List.IsChain.singleton _, fun hn => absurd rfl hn⟩
    obtain rfl := List.mem_singleton.mp hr
    exact sound_start h []
  refine keeps_rows.safe hw ?_
  rw [start_eq h] at hw ⊢
  have hcovers := covers ps h c _ _ i hw rfl rfl
  have hmake := make?_eq ((keeps_rows.reaches hw hcovers).rows _ List.mem_cons_self).buildable
    (ps.head? == some []) (edgesOfSorted ps i).2
  exact ⟨_, hcovers, Rows.step?_last rfl hmake⟩

/-! ## Both loops -/

/-- Neither the loop over two tries nor the loop over a list of paths is ever stopped.  From two canonical
tries, where the outcome is not known without a look at the edges, every stack of frames that comes up is
sound, all places on it stand for canonical tries, and the outcome is that of `apply`; from ascending paths
behind `c` every stack of rows that comes up is sound, and the trie is that of `ofSorted`. -/
theorem loops_safe :
    (∀ (op : SetOp) (s t : Trie) (i : Nat), s.Canonical → t.Canonical →
      (∀ o, op.settle ⟨[], s⟩ ⟨[], t⟩ = some o → op.apply s t i = (o, i)) ∧
      (op.settle ⟨[], s⟩ ⟨[], t⟩ = none →
        op.step?.Safe Stack.Sound (⟨op.assemble ⟨[], s⟩ ⟨[], t⟩, []⟩, i) (op.apply s t i) ∧
        ∀ y, op.step?.Reaches (⟨op.assemble ⟨[], s⟩ ⟨[], t⟩, []⟩, i) y → ∀ a ∈ y.1.assemblies, ∀ n,
          (a.left.toTrie n).1.Canonical ∧ (a.right.toTrie n).1.Canonical)) ∧
    ∀ (c : Path) (ps : List Path) (i : Nat), ps.Pairwise (· < ·) →
      Rows.step?.Safe Rows.Sound (⟨Row.start (ps.map (c ++ ·)) c.length [], []⟩, i)
        (ofSorted ps i) := by
  refine ⟨fun op s t i hs ht => ⟨fun o ho => ?_, fun h => ?_⟩, fun c ps i h => safe_ofSorted c h i⟩
  · have hcombines := op.combines _ _ (Stem.IsOperand.of_canonical hs) (Stem.IsOperand.of_canonical ht)
    exact hcombines.settled o ho i
  · have hsafe := op.safe_apply hs ht h i
    exact ⟨hsafe, fun y hy a ha n => (hsafe.sound y hy).canonical ha n⟩

/-- Two paths that part behind a byte that they share, and three paths of which one ends inside another. -/
theorem loops_safe_two_paths :
    SetOp.join.step?.Safe Stack.Sound
      (⟨SetOp.join.assemble ⟨[], (singleton [1, 2] 2).1⟩ ⟨[], (singleton [1, 3] 3).1⟩, []⟩, 4)
      (SetOp.join.apply (singleton [1, 2] 2).1 (singleton [1, 3] 3).1 4) ∧
    Rows.step?.Safe Rows.Sound (⟨Row.start [[1], [1, 2], [3]] 0 [], []⟩, 2)
      (ofSorted [[1], [1, 2], [3]] 2) := by
  have hleaf : ∀ p, Stem.IsOperand ⟨p, leaf⟩ := fun _ =>
    ⟨Pool.canonical Pool.start.leaf_mem, fun _ => Or.inl rfl⟩
  have happly := (loops_safe.1 SetOp.join (singleton [1, 2] 2).1 (singleton [1, 3] 3).1 4
    ((hleaf [1, 2]).toTrie_eq 2).1 ((hleaf [1, 3]).toTrie_eq 3).1).2 rfl
  exact ⟨happly.1, loops_safe.2 [] [[1], [1, 2], [3]] 2 (by decide)⟩

/-- Out of order, a path that is too short is looked at behind its end. -/
example : ((Row.start [[1], []] 0 []).next? [1]).isNone = true := by decide

end ByteTrie
