import ByteTrie.Proofs.Fork
import Mathlib

/-!
# Batches

The paths below a cursor can be had in parts, each with a limit on their number and one on their
bytes.  A part ends with the first path that reaches one of the limits, the next one goes on behind it,
and so nothing is lost and nothing is given twice, whatever the limits are.

    IsBatch v w ps qs          qs is the shortest beginning of ps that reaches the limits v and w
    Gave start it ps           asked by and by, start has given ps and is it by now
    Remaining t it ps          it gives the paths ps by a cursor on t, and drain knows how many
-/

namespace ByteTrie

open Trie Pool Cursor

/-- The bytes of all paths of a list. -/
def byteTotal (ps : List Path) : Nat := total (ps.map List.length)

@[simp] theorem byteTotal_nil : byteTotal [] = 0 := rfl

@[simp] theorem byteTotal_cons (p : Path) (ps : List Path) :
    byteTotal (p :: ps) = p.length + byteTotal ps := rfl

/-! ## The shortest part that reaches a limit -/

/-- Of the paths `ps`, the part `qs` has `v` paths or `w` bytes, or is all of them. -/
def Reached (v w : Nat) (ps qs : List Path) : Prop :=
  v ≤ qs.length ∨ w ≤ byteTotal qs ∨ qs = ps

/-- The shortest beginning of `ps` that has `v` paths or `w` bytes or is all of `ps`. -/
structure IsBatch (v w : Nat) (ps qs : List Path) : Prop where
  isPrefix : qs <+: ps
  reached : Reached v w ps qs
  shortest : ∀ rs, rs <+: ps → Reached v w ps rs → qs.length ≤ rs.length

section

variable {v w : Nat} {p : Path} {ps qs rs : List Path}

theorem isBatch_nil (h : Reached v w ps []) : IsBatch v w ps [] :=
  ⟨List.nil_prefix, h, fun _ _ _ => Nat.zero_le _⟩

/-- With one more path in front, which takes one from the first limit and its bytes from the second. -/
theorem reached_cons_iff :
    Reached (v + 1) w (p :: ps) (p :: qs) ↔ Reached v (w - p.length) ps qs := by
  simp only [Reached, List.length_cons, byteTotal_cons, List.cons.injEq, true_and]
  refine or_congr (Nat.add_le_add_iff_right) (or_congr_left ?_)
  omega

theorem IsBatch.cons (hw : 0 < w) (h : IsBatch v (w - p.length) ps qs) :
    IsBatch (v + 1) w (p :: ps) (p :: qs) where
  isPrefix := (List.prefix_cons_inj p).mpr h.isPrefix
  reached := reached_cons_iff.mpr h.reached
  shortest rs hrs hreached := by
    cases rs with
    | nil =>
      rcases hreached with hv | hb | hall
      · simp at hv
      · simp at hb
        omega
      · cases hall
    | cons r rs =>
      obtain ⟨rfl, hpre⟩ := List.cons_prefix_cons.mp hrs
      have hle := h.shortest rs hpre (reached_cons_iff.mp hreached)
      simp only [List.length_cons]
      omega

/-- A batch is empty only where there is nothing left, unless a limit asks for nothing. -/
theorem IsBatch.eq_nil (h : IsBatch v w ps []) (hv : 0 < v) (hw : 0 < w) : ps = [] := by
  rcases h.reached with hlen | hb | hall
  · exact absurd hlen (Nat.not_le.mpr hv)
  · exact absurd hb (Nat.not_le.mpr hw)
  · exact hall.symm

/-- A part has no more bytes than the whole. -/
theorem byteTotal_le_of_isPrefix (h : qs <+: ps) : byteTotal qs ≤ byteTotal ps := by
  obtain ⟨rs, rfl⟩ := h
  simp [byteTotal, total_append]

/-- Limits that all paths together do not reach are not reached by a part. -/
theorem IsBatch.eq_self (h : IsBatch v w ps qs) (hv : ps.length < v) (hw : byteTotal ps < w) :
    qs = ps := by
  have hlen := h.isPrefix.length_le
  have hbytes := byteTotal_le_of_isPrefix h.isPrefix
  rcases h.reached with hv' | hw' | hall
  · omega
  · omega
  · exact hall

end

/-! ## Iterators and what is left of them -/

namespace PathIter

/-- The batches for a row of limits, one after the other. -/
def batches (it : PathIter) : List (Nat × Nat) → List (List Path)
  | [] => []
  | (v, w) :: limits => (it.nextBatch v w).1 :: batches (it.nextBatch v w).2 limits

/-- Asked for a path or for a batch any number of times, `start` has given `ps` and is `it` by now. -/
inductive Gave (start : PathIter) : PathIter → List Path → Prop
  | start : Gave start start []
  | next {it : PathIter} {ps : List Path} (h : Gave start it ps) :
      Gave start it.next.2 (ps ++ it.next.1.toList)
  | batch {it : PathIter} {ps : List Path} (h : Gave start it ps) (v w : Nat) :
      Gave start (it.nextBatch v w).2 (ps ++ (it.nextBatch v w).1)

/-- It gives the paths `ps` by a cursor on `t`, which has at least as many. -/
structure Remaining (t : Trie) (it : PathIter) (ps : List Path) : Prop where
  drains : Drains t it ps
  root_eq : ∀ c, it.cursor = some c → c.root = t
  length_le : ps.length ≤ t.count

variable {t : Trie} {start it it' : PathIter} {ps qs : List Path} {v w : Nat}

theorem remaining_ofTrie (ht : t.Canonical) : Remaining t (ofTrie t) t.paths where
  drains := drains_ofTrie ht
  root_eq := by
    rintro _ ⟨⟩
    rfl
  length_le := Nat.le_of_eq ht.length_paths

/-- Where there is no further path, the cursor is given up. -/
theorem eq_of_next_eq_none (h : it.next = (none, it')) : it' = ⟨none, true⟩ := by
  unfold next at h
  split at h
  · cases h
    rw [‹it.cursor = none›]
  · split at h
    · cases h
    · split at h
      · cases h
      · cases h
        rfl

theorem Remaining.drain_eq (h : Remaining t it ps) : it.drain = ps := by
  cases hcursor : it.cursor with
  | none =>
    have hnone : it.next.1 = none := by simp [PathIter.next, hcursor]
    have hdrain : it.drain = [] := by simp [drain, hcursor, drainOnto]
    cases h.drains with
    | stop => exact hdrain
    | step hnext => simp [hnext] at hnone
  | some c =>
    have hfuel : ps.length ≤ c.root.count + 1 := by
      rw [h.root_eq c hcursor]
      have := h.length_le
      omega
    have hdrain : it.drain = (drainOnto (c.root.count + 1) it []).reverse := by
      simp [drain, hcursor]
    rw [hdrain, h.drains.drainOnto_eq hfuel, List.append_nil, List.reverse_reverse]

/-- The next path is the first of those that are left. -/
theorem Remaining.next (h : Remaining t it ps) :
    it.next.1 = ps.head? ∧ Remaining t it.next.2 ps.tail := by
  cases h.drains with
  | @stop _ it' hnext hs =>
    rw [hnext]
    refine ⟨rfl, .stop hs hs, ?_, Nat.zero_le _⟩
    rw [eq_of_next_eq_none hnext]
    exact nofun
  | @step _ c ps hnext hroot hs =>
    rw [hnext]
    refine ⟨rfl, hs, ?_, Nat.le_of_succ_le h.length_le⟩
    rintro _ ⟨⟩
    exact hroot

/-- The induction is on the number of paths that the batch may still have. -/
theorem Remaining.batchOnto (h : Remaining t it ps) (v w : Nat) (given : List Path) :
    ∃ qs rs, ps = qs ++ rs ∧ IsBatch v w ps qs ∧ (it.batchOnto v w given).1 = qs.reverse ++ given ∧
      Remaining t (it.batchOnto v w given).2 rs := by
  induction v generalizing it ps w given with
  | zero => exact ⟨[], ps, rfl, isBatch_nil (Or.inl (Nat.zero_le _)), rfl, h⟩
  | succ v ih =>
    rw [PathIter.batchOnto]
    by_cases hw : w = 0
    · rw [if_pos hw, hw]
      exact ⟨[], ps, rfl, isBatch_nil (Or.inr (Or.inl (Nat.zero_le _))), rfl, h⟩
    rw [if_neg hw]
    obtain ⟨hhead, hrest⟩ := h.next
    cases hn : it.next with
    | mk o it' =>
      rw [hn] at hhead hrest
      cases ps with
      | nil =>
        obtain rfl : o = none := hhead
        exact ⟨[], [], rfl, isBatch_nil (Or.inr (Or.inr rfl)), rfl, hrest⟩
      | cons p ps =>
        obtain rfl : o = some p := hhead
        obtain ⟨qs, rs, hsplit, hbatch, hgiven, hremaining⟩ := ih hrest (w - p.length) (p :: given)
        have hsplit : ps = qs ++ rs := hsplit
        refine ⟨p :: qs, rs, by rw [hsplit, List.cons_append], ?_, ?_, hremaining⟩
        · exact hbatch.cons (Nat.pos_of_ne_zero hw)
        · show (PathIter.batchOnto v (w - p.length) it' (p :: given)).1 = _
          rw [hgiven, List.reverse_cons, List.append_assoc]
          rfl

theorem Remaining.nextBatch (h : Remaining t it ps) (v w : Nat) :
    IsBatch v w ps (it.nextBatch v w).1 ∧
      ∃ rs, ps = (it.nextBatch v w).1 ++ rs ∧ Remaining t (it.nextBatch v w).2 rs := by
  obtain ⟨qs, rs, hsplit, hbatch, hgiven, hremaining⟩ := h.batchOnto v w []
  have hqs : (it.nextBatch v w).1 = qs := by
    show (it.batchOnto v w []).1.reverse = qs
    rw [hgiven, List.append_nil, List.reverse_reverse]
  rw [hqs]
  exact ⟨hbatch, rs, hsplit, hremaining⟩

/-- What was given and what is left are together what there was at the start. -/
theorem Gave.remaining (h : Gave start it qs) (hs : Remaining t start ps) :
    ∃ rs, ps = qs ++ rs ∧ Remaining t it rs := by
  induction h with
  | start => exact ⟨ps, rfl, hs⟩
  | @next it qs _ ih =>
    obtain ⟨rs, hsplit, hremaining⟩ := ih
    obtain ⟨hhead, hrest⟩ := hremaining.next
    refine ⟨rs.tail, ?_, hrest⟩
    rw [hhead, List.append_assoc, hsplit]
    cases rs <;> rfl
  | @batch it qs _ v w ih =>
    obtain ⟨rs, hsplit, hremaining⟩ := ih
    obtain ⟨-, rest, hbatch, hrest⟩ := hremaining.nextBatch v w
    exact ⟨rest, by rw [hsplit, hbatch, List.append_assoc], hrest⟩

/-- Batch by batch, whatever their limits, come the paths that are left, from the first one on. -/
theorem Remaining.batches (h : Remaining t it ps) (limits : List (Nat × Nat)) :
    (it.batches limits).flatten <+: ps := by
  induction limits generalizing it ps with
  | nil => exact List.nil_prefix
  | cons limit limits ih =>
    obtain ⟨v, w⟩ := limit
    obtain ⟨-, rs, hsplit, hrest⟩ := h.nextBatch v w
    rw [PathIter.batches, List.flatten_cons, hsplit]
    exact (List.prefix_append_right_inj _).mpr (ih hrest)

/-- Of all the paths `full`, the iterator `it` has given `ps` and no other; `drain` is what it has not
given yet, and batches take the shortest part of this that their limits allow. -/
structure Resumes (full : List Path) (it : PathIter) (ps : List Path) : Prop where
  full_eq : full = ps ++ it.drain
  next_eq : it.next.1 = it.drain.head? ∧ it.next.2.drain = it.drain.tail
  isBatch : ∀ v w, IsBatch v w it.drain (it.nextBatch v w).1
  leaves : ∀ v w, it.drain = (it.nextBatch v w).1 ++ (it.nextBatch v w).2.drain
  ends : ∀ v w, 0 < v → 0 < w → (it.nextBatch v w).1 = [] → it.drain = []
  flatten_batches : ∀ limits, ps ++ (it.batches limits).flatten <+: full

theorem Gave.resumes (h : Gave start it qs) (hs : Remaining t start ps) : Resumes ps it qs := by
  obtain ⟨rs, hsplit, hremaining⟩ := h.remaining hs
  have hdrain := hremaining.drain_eq
  refine ⟨by rw [hdrain, hsplit], ?next, fun v w => ?batch, fun v w => ?rest,
    fun v w hv hw he => ?ends, fun limits => ?batches⟩
  case next =>
    obtain ⟨hhead, hrest⟩ := hremaining.next
    rw [hdrain, hrest.drain_eq]
    exact ⟨hhead, rfl⟩
  case batch =>
    rw [hdrain]
    exact (hremaining.nextBatch v w).1
  case rest =>
    obtain ⟨-, rest, hbatch, hrest⟩ := hremaining.nextBatch v w
    rw [hdrain, hrest.drain_eq]
    exact hbatch
  case ends =>
    have hbatch := (hremaining.nextBatch v w).1
    rw [he] at hbatch
    rw [hdrain]
    exact hbatch.eq_nil hv hw
  case batches =>
    rw [hsplit]
    exact (List.prefix_append_right_inj qs).mpr (hremaining.batches limits)

end PathIter

/-! ## Iterators below a cursor -/

namespace Cursor

variable {t : Trie} {c : Cursor} {q : Path}

/-- At the root the cursor itself goes on, which is then like a new one on its snapshot. -/
theorem IsAt.intoIter_eq (h : c.IsAt t q) (n : Nat) : (c.intoIter n).1 = (c.iter n).1 := by
  rw [intoIter]
  by_cases hroot : c.atRoot = true
  · rw [if_pos hroot, h.eq_ofTrie_of_atRoot hroot]
    rfl
  · rw [if_neg hroot]

end Cursor

namespace Session

variable {hash : HashFunction} {σ : Session}

/-- An iterator below a cursor, asked for single paths and for batches in any order, gives the paths
that the cursor reads at once, each once and in their order; and a bounded reading is the first batch,
or everything if the limits allow it. -/
theorem batches_resume (h : Reachable hash σ) (hc : CollisionFree hash σ.interned) {x : Trie}
    (hx : σ.Holds x) {c : Cursor} (hr : Cursor.Run x c) (n : Nat) :
    (c.readPaths n).1.Pairwise (· < ·) ∧
    (∀ q, q ∈ (c.readPaths n).1 ↔ x.contains (c.path ++ q) = true) ∧
    (c.intoIter n).1 = (c.iter n).1 ∧
    (∀ it ps, PathIter.Gave (c.iter n).1 it ps → PathIter.Resumes (c.readPaths n).1 it ps) ∧
    ∀ v w, (c.traverse v w n).1 = ((c.iter n).1.nextBatch v w).1 ∧
      ((c.readPaths n).1.length < v → byteTotal (c.readPaths n).1 < w →
        (c.traverse v w n).1 = (c.readPaths n).1) := by
  obtain ⟨P, hP⟩ := h.exists_pool hc
  have hxP := hP.mem_of_holds hx
  have hcan := canonical hxP
  have hat := hr.isAt hcan
  obtain ⟨hsub, hmembers⟩ := hat.subtrie (hr.mem hxP) hcan n
  have hfull := PathIter.remaining_ofTrie hsub
  have hread : (c.readPaths n).1 = (c.subtrie n).1.paths := hfull.drain_eq
  rw [hread]
  refine ⟨hsub.pairwise_paths, fun q => ?mem, hat.intoIter_eq n,
    fun it ps hgave => hgave.resumes hfull, fun v w => ⟨rfl, fun hv hw => ?all⟩⟩
  case mem =>
    rw [mem_paths_iff, hcan.contains_iff]
    exact Set.ext_iff.mp hmembers q
  case all => exact (hfull.nextBatch v w).1.eq_self hv hw

/-- Two paths from inside the first edge of the branching set: a batch of one, then the other one, and
both in a reading with room for three paths and six bytes. -/
theorem batches_resume_branching :
    PathIter.Resumes [[2, 3], [2, 4, 5]] ((insideEdge.iter 7).1.nextBatch 1 9).2 [[2, 3]] ∧
      IsBatch 5 3 [[2, 4, 5]] (((insideEdge.iter 7).1.nextBatch 1 9).2.nextBatch 5 3).1 ∧
      (insideEdge.traverse 3 6 7).1 = [[2, 3], [2, 4, 5]] := by
  obtain ⟨-, -, -, hresumes, hbounded⟩ := batches_resume (branching_reachable Blake3.hash)
    (branching_collisionFree _) (Or.inl branchingSet_mem) run_insideEdge 7
  have hread : (insideEdge.readPaths 7).1 = [[2, 3], [2, 4, 5]] := by decide +kernel
  have hfirst : ((insideEdge.iter 7).1.nextBatch 1 9).1 = [[2, 3]] := by decide +kernel
  rw [hread] at hresumes hbounded
  have hrest := hresumes _ _ (.batch .start 1 9)
  rw [hfirst, List.nil_append] at hrest
  have hall := (hbounded 3 6).2 (by decide) (by decide)
  generalize ((insideEdge.iter 7).1.nextBatch 1 9).2 = it at hrest ⊢
  have hdrain : it.drain = [[2, 4, 5]] := by simpa using hrest.full_eq.symm
  have hbatch := hrest.isBatch 5 3
  rw [hdrain] at hbatch
  exact ⟨hrest, hbatch, hall⟩

end Session

end ByteTrie
