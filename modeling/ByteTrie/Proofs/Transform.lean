import ByteTrie.Pattern.Rewrite
import ByteTrie.Proofs.Enumeration
import ByteTrie.Proofs.Expression
import Mathlib

/-!
# Rewriting all members

What a rewriter makes of a set is its image, the rewrites of the members that it accepts.  The members
are read one by one by a cursor and their rewrites sorted into a new trie, so neither the order in which
they come nor how many of them fall together is seen in the result.

    f.image A                    the paths k with f p = some k for some p in A
    x.transform f                the image of x
    (x.transform f).transform g  agrees with  x.transform (f.andThen g)
    E.rewriteMatches? x …        the image under what the engine E makes of a pattern and a template
-/

namespace ByteTrie

open Trie Pool

/-! ## Images -/

namespace Rewriter

variable (f g : Rewriter) (A B : Set Path)

/-- The rewrites of the paths of `A` that `f` accepts. -/
def image : Set Path := {k | ∃ p ∈ A, f p = some k}

/-- `f` and then `g`, for the paths that are accepted by both. -/
def andThen : Rewriter := fun p => (f p).bind g

theorem mem_image_iff (k : Path) : k ∈ f.image A ↔ ∃ p ∈ A, f p = some k := Iff.rfl

theorem image_union : f.image (A ∪ B) = f.image A ∪ f.image B := by
  ext k
  simp only [mem_image_iff, Set.mem_union, or_and_right, exists_or]

theorem image_andThen : (f.andThen g).image A = g.image (f.image A) := by
  ext k
  constructor
  · rintro ⟨p, hp, hk⟩
    obtain ⟨q, hq, hk⟩ := Option.bind_eq_some_iff.mp hk
    exact ⟨q, ⟨p, hp, hq⟩, hk⟩
  · rintro ⟨q, ⟨p, hp, hq⟩, hk⟩
    exact ⟨p, hp, Option.bind_eq_some_iff.mpr ⟨q, hq, hk⟩⟩

end Rewriter

namespace Trie

/-- The cursor gives every member, and the trie of the rewrites has each of them once. -/
theorem makes_transform {P : Pool} {t : Trie} (ht : t ∈ P) (f : Rewriter) :
    P.Makes (t.transform f) fun Q u => u ∈ Q ∧ u.members = f.image t.members := by
  refine (makes_ofPaths P _).imp fun Q u _ ⟨hu, hmem⟩ => ⟨hu, ?_⟩
  ext k
  rw [mem_members, hmem, PathIter.drain_ofTrie (canonical ht), List.mem_filterMap]
  exact exists_congr fun p => and_congr_left fun _ => mem_paths_iff t p

end Trie

/-! ## Engines -/

namespace Pattern

/-- What compiles patterns, finds a match of one in a path, and fills a template in from a match. -/
structure Engine where
  Regex : Type
  Match : Type
  compile? : String → Option Regex
  find? : Regex → Path → Option Match
  expand : List UInt8 → Match → Path

namespace Engine

variable (E : Engine) (template : List UInt8)

def rewriter (r : E.Regex) : Rewriter := fun p => (E.find? r p).map (E.expand template)

/-- The rewrites of the members that match; none if the pattern does not compile. -/
def rewriteMatches? (t : Trie) (pattern : String) : Fresh (Option Trie) :=
  match E.compile? pattern with
  | some r => some <$> t.transform (E.rewriter template r)
  | none => return none

/-- The engine of the patterns here. -/
def standard : Engine where
  Regex := Matcher
  Match := Captures
  compile? := Matcher.ofText?
  find? := Matcher.find?
  expand := fun template => (Template.ofBytes template).expand

theorem standard_rewriteMatches? (t : Trie) (pattern : String) :
    standard.rewriteMatches? template t pattern = t.rewriteMatches? pattern template := by
  have hcompile : standard.compile? pattern = Matcher.ofText? pattern := rfl
  rw [rewriteMatches?, Trie.rewriteMatches?, rewriter?, hcompile]
  cases Matcher.ofText? pattern with
  | none => rfl
  | some m => rfl

theorem rewriteMatches?_of_none {pattern : String} (h : E.compile? pattern = none) (t : Trie)
    (n : Nat) : E.rewriteMatches? template t pattern n = (none, n) := by
  rw [rewriteMatches?, h]
  rfl

theorem rewriteMatches?_of_some {pattern : String} {r : E.Regex} (h : E.compile? pattern = some r)
    (t : Trie) (n : Nat) : E.rewriteMatches? template t pattern n =
      (some (t.transform (E.rewriter template r) n).1, (t.transform (E.rewriter template r) n).2) := by
  rw [rewriteMatches?, h]
  rfl

theorem rewriter_eq_some_iff (r : E.Regex) (p k : Path) :
    E.rewriter template r p = some k ↔ ∃ m, E.find? r p = some m ∧ k = E.expand template m := by
  rw [rewriter, Option.map_eq_some_iff]
  exact exists_congr fun m => and_congr_right fun _ => eq_comm

end Engine

end Pattern

namespace Session

open Pattern

variable {hash : HashFunction} {σ : Session}

/-- What becomes of `x` and `y` by `f`, and by `g` after it. -/
structure Transforms (σ : Session) (x y : Trie) (f g : Rewriter) : Prop where
  canonical : ∀ n, σ.next ≤ n → (x.transform f n).1.Canonical
  contains_iff : ∀ n, σ.next ≤ n → ∀ k,
    (x.transform f n).1.contains k = true ↔ ∃ p, x.contains p = true ∧ f p = some k
  union : σ.Agree (do (← x.union y).transform f) (do (← x.transform f).union (← y.transform f))
  andThen : σ.Agree (do (← x.transform f).transform g) (x.transform (f.andThen g))

/-- What an engine makes of `x` by a pattern and a template: it fails by the pattern alone, and else it
gives the templates filled in from the members that match. -/
structure Rewrites (σ : Session) (E : Engine) (x : Trie) (pattern : String)
    (template : List UInt8) : Prop where
  eq_none_iff : ∀ n, (E.rewriteMatches? template x pattern n).1 = none ↔ E.compile? pattern = none
  eq_some : ∀ r, E.compile? pattern = some r → ∀ n,
    (E.rewriteMatches? template x pattern n).1 = some (x.transform (E.rewriter template r) n).1
  contains_iff : ∀ r, E.compile? pattern = some r → ∀ n, σ.next ≤ n → ∀ u,
    (E.rewriteMatches? template x pattern n).1 = some u → u.Canonical ∧
      ∀ k, u.contains k = true ↔
        ∃ p m, x.contains p = true ∧ E.find? r p = some m ∧ k = E.expand template m

theorem In.transform {P : Pool} (hP : σ.In hash P) {x : Trie} (hx : x ∈ σ.sets) (f : Rewriter)
    {n : Nat} (hn : σ.next ≤ n) : (x.transform f n).1.Canonical ∧
      ∀ k, (x.transform f n).1.contains k = true ↔ ∃ p, x.contains p = true ∧ f p = some k := by
  obtain ⟨Q, rfl, hQ⟩ := hP.exists_later hn
  obtain ⟨R, -, -, hu, hmembers⟩ := makes_transform (hQ x hx) f
  refine ⟨Pool.canonical hu, fun k => ?_⟩
  rw [(Pool.canonical hu).contains_iff, ← mem_members, hmembers, Rewriter.mem_image_iff]
  exact exists_congr fun p => and_congr_left fun _ =>
    ((Pool.canonical (hQ x hx)).contains_iff p).symm

theorem In.transforms {P : Pool} (hP : σ.In hash P) {x y : Trie} (hx : x ∈ σ.sets)
    (hy : y ∈ σ.sets) (f g : Rewriter) : Transforms σ x y f g where
  canonical n hn := (hP.transform hx f hn).1
  contains_iff n hn := (hP.transform hx f hn).2
  union := by
    refine hP.agree (f.image (x.members ∪ y.members)) (fun Q hQ => ?_) fun Q hQ => ?_
    · refine (makes_union (hQ x hx) (hQ y hy)).bind fun R u _ hu => ?_
      refine (makes_transform hu.mem f).imp fun S v _ hv => ⟨hv.1, ?_⟩
      rw [hv.2, hu.members]
      rfl
    · refine (makes_transform (hQ x hx) f).bind fun R u hQR ⟨hu, hum⟩ => ?_
      refine (makes_transform (hQR.2 y (hQ y hy)) f).bind fun S v hRS ⟨hv, hvm⟩ => ?_
      refine (makes_union (hRS.2 u hu) hv).imp fun T w _ hw => ⟨hw.mem, ?_⟩
      rw [hw.members, hum, hvm, f.image_union]
      rfl
  andThen := by
    refine hP.agree (g.image (f.image x.members)) (fun Q hQ => ?_) fun Q hQ => ?_
    · refine (makes_transform (hQ x hx) f).bind fun R u _ ⟨hu, hum⟩ => ?_
      refine (makes_transform hu g).imp fun S v _ hv => ⟨hv.1, ?_⟩
      rw [hv.2, hum]
    · refine (makes_transform (hQ x hx) (f.andThen g)).imp fun R u _ hu => ⟨hu.1, ?_⟩
      rw [hu.2, f.image_andThen]

theorem In.rewrites {P : Pool} (hP : σ.In hash P) {x : Trie} (hx : x ∈ σ.sets) (E : Engine)
    (pattern : String) (template : List UInt8) : Rewrites σ E x pattern template where
  eq_none_iff n := by
    cases h : E.compile? pattern with
    | none =>
      rw [E.rewriteMatches?_of_none template h]
      exact iff_of_true rfl rfl
    | some r =>
      rw [E.rewriteMatches?_of_some template h]
      exact iff_of_false (Option.some_ne_none _) (Option.some_ne_none _)
  eq_some r h n := by
    rw [E.rewriteMatches?_of_some template h]
  contains_iff r h n hn u hu := by
    rw [E.rewriteMatches?_of_some template h] at hu
    cases hu
    obtain ⟨hcan, hmem⟩ := hP.transform hx (E.rewriter template r) hn
    refine ⟨hcan, fun k => (hmem k).trans ?_⟩
    simp only [E.rewriter_eq_some_iff, exists_and_left]

/-- Transformation is the image under a rewriter, so it goes through unions and one rewriter after
another is their composition; rewriting by a pattern is transformation by what the engine makes of
it. -/
theorem transform_images (h : Reachable hash σ) (hc : CollisionFree hash σ.interned) {x y : Trie}
    (hx : x ∈ σ.sets) (hy : y ∈ σ.sets) (f g : Rewriter) :
    Transforms σ x y f g ∧
      (∀ E pattern template, Rewrites σ E x pattern template) ∧
      ∀ pattern template,
        x.rewriteMatches? pattern template = Engine.standard.rewriteMatches? template x pattern := by
  obtain ⟨P, hP⟩ := h.exists_pool hc
  exact ⟨hP.transforms hx hy f g, hP.rewrites hx,
    fun pattern template => (Engine.standard_rewriteMatches? template x pattern).symm⟩

/-- The first byte of the paths with at least two. -/
def firstOfLonger : Rewriter := fun p => if p.length < 2 then none else some (p.take 1)

/-- The paths 1 2 3 and 1 2 4 5 of the branching set fall together, while 6 is rejected; and a group that
is not closed does not compile. -/
theorem transform_images_branching :
    ∃ y ∈ branchingNext.sets, y.contains [6, 7] = true ∧
      Transforms branchingNext branchingSet y firstOfLonger firstOfLonger ∧
      (∀ k, (branchingSet.transform firstOfLonger 99).1.contains k = true ↔ k = [1]) ∧
      (branchingSet.rewriteMatches? "(" [] 99).1 = none := by
  have hx : branchingSet ∈ branchingNext.sets := List.mem_cons_of_mem _ branchingSet_mem
  have hy : branchingNext.sets.head (by decide +kernel) ∈ branchingNext.sets := List.head_mem _
  obtain ⟨htransforms, hrewrites, hstandard⟩ := transform_images
    (branchingNext_reachable Blake3.hash) (branching_collisionFree _) hx hy firstOfLonger
    firstOfLonger
  have hnext : branchingNext.next ≤ 99 := by decide +kernel
  refine ⟨_, hy, by decide +kernel, htransforms, fun k => ?_, ?_⟩
  · have hrewritten : branchingSet.paths.filterMap firstOfLonger = [[1], [1]] := by decide +kernel
    have hk : k ∈ branchingSet.paths.filterMap firstOfLonger ↔ k = [1] := by
      rw [hrewritten]
      simp
    rw [htransforms.contains_iff 99 hnext, ← hk, List.mem_filterMap]
    refine exists_congr fun p => and_congr_left fun _ => ?_
    rw [branchingSet_canonical.contains_iff, mem_paths_iff]
  · rw [hstandard, (hrewrites Engine.standard _ _).eq_none_iff]
    show Matcher.ofText? "(" = none
    rw [← Option.isNone_iff_eq_none]
    decide +kernel

end Session

end ByteTrie
