import ByteTrie.Proofs.Fork
import ByteTrie.Proofs.Records
import Mathlib

/-!
# Writing path lists

The paths below a cursor are written record by record, each announced before it is written.  What a sink
gets is a beginning of one row of bytes, the records of all paths in order: with room for all of them the
whole, and else as much as there is room for, whether the end is inside a length, inside a path or between
two records.  What was written whole is read again as the set that it was written from.

    written ps             what an unbounded sink gets of ps
    Overflows ps room i    the record of the path i is the first that does not fit into room bytes
-/

namespace ByteTrie

open Trie Pool Cursor

/-! ## One write after the other -/

namespace Sink

variable {room : Nat} {stored : Array UInt8} {as bs : List UInt8}

theorem appendList_append (stored : Array UInt8) (as bs : List UInt8) :
    stored ++ as ++ bs = stored ++ (as ++ bs) := by
  apply Array.toList_inj.mp
  simp

theorem write_unbounded (stored : Array UInt8) (bs : List UInt8) :
    write ⟨none, stored⟩ bs = (.ok (), ⟨none, stored ++ bs⟩) := rfl

theorem write_of_le (h : bs.length ≤ room) (stored : Array UInt8) :
    write ⟨some room, stored⟩ bs = (.ok (), ⟨some (room - bs.length), stored ++ bs⟩) := by
  simp [write, h]

theorem write_of_lt (h : room < bs.length) (stored : Array UInt8) :
    write ⟨some room, stored⟩ bs = (.error .full, ⟨some 0, stored ++ bs.take room⟩) := by
  simp [write, Nat.not_le.mpr h]

/-- Two writes store what one write of the same bytes stores, and fail where it fails. -/
theorem write_append (s : Sink) (as bs : List UInt8) : s.write (as ++ bs) =
    match s.write as with
    | (.ok (), s) => s.write bs
    | (.error e, s) => (.error e, s) := by
  obtain ⟨room, stored⟩ := s
  cases room with
  | none => rw [write_unbounded, write_unbounded, ← appendList_append, ← write_unbounded]
  | some room =>
    have hlen : (as ++ bs).length = as.length + bs.length := List.length_append
    by_cases has : as.length ≤ room
    · rw [write_of_le has]
      dsimp only
      by_cases hbs : bs.length ≤ room - as.length
      · rw [write_of_le hbs, write_of_le (by omega), hlen, appendList_append, Nat.sub_sub]
      · rw [write_of_lt (by omega), write_of_lt (by omega), appendList_append,
          List.take_append, List.take_of_length_le has]
    · rw [write_of_lt (by omega), write_of_lt (by omega), List.take_append_of_le_length (by omega)]

end Sink

namespace PathList

variable {p : Path} {ps : List Path} {room i : Nat} {stats : WriteStats}

/-! ## One path -/

theorem writeAfter_of_le (hp : lengthLimit ≤ p.length) (stats : WriteStats) (ps : List Path)
    (s : Sink) :
    writeAfter stats (p :: ps) s = ⟨.error .tooLong, [(stats.pathCount, p)], s⟩ := by
  rw [writeAfter, if_pos hp]

/-- The counts after one more path. -/
def WriteStats.add (stats : WriteStats) (p : Path) : WriteStats :=
  ⟨stats.bytesOut + (record p).length, stats.pathCount + 1⟩

/-- The length and the path are written like one piece. -/
theorem writeAfter_of_lt (hp : p.length < lengthLimit) (stats : WriteStats) (ps : List Path)
    (s : Sink) :
    writeAfter stats (p :: ps) s =
      match s.write (record p) with
      | (.error e, s) => ⟨.error (.sink e), [(stats.pathCount, p)], s⟩
      | (.ok (), s) =>
        { writeAfter (stats.add p) ps s with
          seen := (stats.pathCount, p) :: (writeAfter (stats.add p) ps s).seen } := by
  have hadd : stats.add p = ⟨stats.bytesOut + lengthWidth + p.length, stats.pathCount + 1⟩ := by
    rw [WriteStats.add, length_record, Nat.add_assoc]
  rw [writeAfter, if_neg (Nat.not_le.mpr hp), ← hadd, record, Sink.write_append]
  cases s.write (littleEndian lengthWidth p.length) with
  | mk result s =>
    cases result with
    | error e => rfl
    | ok =>
      cases hwrite : s.write p with
      | mk result t => cases result <;> simp only [hwrite]

/-! ## All paths -/

/-- Every path is short enough for a record. -/
def AllShort (ps : List Path) : Prop := ∀ p ∈ ps, p.length < lengthLimit

theorem allShort_cons_iff : AllShort (p :: ps) ↔ p.length < lengthLimit ∧ AllShort ps :=
  List.forall_mem_cons

/-- The records up to the first path that is too long for one. -/
def written (ps : List Path) : List UInt8 :=
  encode (ps.takeWhile fun p => decide (p.length < lengthLimit))

theorem written_of_lt (hp : p.length < lengthLimit) (ps : List Path) :
    written (p :: ps) = record p ++ written ps := by
  simp [written, hp, encode_cons]

theorem written_of_le (hp : lengthLimit ≤ p.length) (ps : List Path) : written (p :: ps) = [] := by
  simp [written, Nat.not_lt.mpr hp, encode]

theorem written_eq_encode (h : AllShort ps) : written ps = encode ps := by
  rw [written, List.takeWhile_eq_self_iff.mpr fun p hp => decide_eq_true (h p hp)]

theorem writeAfter_unbounded (stats : WriteStats) (ps : List Path) (stored : Array UInt8) :
    (writeAfter stats ps ⟨none, stored⟩).sink = ⟨none, stored ++ written ps⟩ ∧
    (AllShort ps →
      (writeAfter stats ps ⟨none, stored⟩).result =
        .ok ⟨stats.bytesOut + (encode ps).length, stats.pathCount + ps.length⟩ ∧
      (writeAfter stats ps ⟨none, stored⟩).seen = numbered stats.pathCount ps) ∧
    (¬ AllShort ps → (writeAfter stats ps ⟨none, stored⟩).result = .error .tooLong) := by
  induction ps generalizing stats stored with
  | nil => exact ⟨by simp [writeAfter, written, encode], fun _ => ⟨rfl, rfl⟩, fun h => absurd nofun h⟩
  | cons p ps ih =>
    rcases Nat.lt_or_ge p.length lengthLimit with hp | hp
    · obtain ⟨hsink, hok, herror⟩ := ih (stats.add p) (stored ++ record p)
      rw [writeAfter_of_lt hp, Sink.write_unbounded, written_of_lt hp, allShort_cons_iff,
        encode_cons, List.length_append, List.length_cons, numbered_cons]
      refine ⟨?sink, fun h => ?ok, fun h => herror fun hps => h ⟨hp, hps⟩⟩
      case sink =>
        rw [← Sink.appendList_append]
        exact hsink
      case ok =>
        obtain ⟨hresult, hseen⟩ := hok h.2
        refine ⟨hresult.trans ?_, congrArg _ hseen⟩
        rw [WriteStats.add, Nat.add_assoc, Nat.add_assoc, Nat.add_comm 1]
    · rw [writeAfter_of_le hp, written_of_le hp]
      refine ⟨by simp, fun h => ?_, fun _ => rfl⟩
      exact absurd (h p List.mem_cons_self) (Nat.not_lt.mpr hp)

/-- Where there is room, a bound on it makes no difference. -/
theorem writeAfter_of_room (h : (written ps).length ≤ room) (stats : WriteStats)
    (stored stored' : Array UInt8) :
    writeAfter stats ps ⟨some room, stored⟩ =
      { writeAfter stats ps ⟨none, stored'⟩ with
        sink := ⟨some (room - (written ps).length), stored ++ written ps⟩ } := by
  induction ps generalizing stats stored stored' room with
  | nil => simp [writeAfter, written, encode]
  | cons p ps ih =>
    rcases Nat.lt_or_ge p.length lengthLimit with hp | hp
    · rw [written_of_lt hp, List.length_append] at h
      rw [writeAfter_of_lt hp, writeAfter_of_lt hp, Sink.write_of_le (by omega),
        Sink.write_unbounded, written_of_lt hp]
      dsimp only
      rw [ih (by omega) _ _ (stored' ++ record p), List.length_append, Nat.sub_sub,
        Sink.appendList_append]
    · rw [writeAfter_of_le hp, writeAfter_of_le hp, written_of_le hp]
      simp

/-- The path with the index `i` is the first one whose record ends behind `room` bytes. -/
structure Overflows (ps : List Path) (room i : Nat) : Prop where
  lt : i < ps.length
  fits : (encode (ps.take i)).length ≤ room
  exceeds : room < (encode (ps.take (i + 1))).length

theorem overflows_head (h : room < (record p).length) (ps : List Path) :
    Overflows (p :: ps) room 0 where
  lt := Nat.succ_pos _
  fits := Nat.zero_le _
  exceeds := by
    show room < (encode [p]).length
    rw [encode_cons, List.length_append]
    omega

theorem Overflows.cons (h : Overflows ps (room - (record p).length) i)
    (hp : (record p).length ≤ room) : Overflows (p :: ps) room (i + 1) where
  lt := Nat.succ_lt_succ h.lt
  fits := by
    have hfits := h.fits
    rw [List.take_succ_cons, encode_cons, List.length_append]
    omega
  exceeds := by
    have hexceeds := h.exceeds
    rw [List.take_succ_cons, encode_cons, List.length_append]
    omega

/-- Without room for all, the write of one record fails, in its length or in its path, and what fits of
it is stored. -/
theorem writeAfter_of_no_room (h : room < (written ps).length) (stats : WriteStats)
    (stored : Array UInt8) : ∃ i, Overflows ps room i ∧
      writeAfter stats ps ⟨some room, stored⟩ =
        ⟨.error (.sink .full), numbered stats.pathCount (ps.take (i + 1)),
          ⟨some 0, stored ++ (written ps).take room⟩⟩ := by
  induction ps generalizing stats stored room with
  | nil => exact absurd h (Nat.not_lt_zero room)
  | cons p ps ih =>
    rcases Nat.lt_or_ge p.length lengthLimit with hp | hp
    · rw [written_of_lt hp] at h ⊢
      rw [List.length_append] at h
      rw [writeAfter_of_lt hp]
      by_cases hroom : (record p).length ≤ room
      · have hrest : room - (record p).length < (written ps).length := by omega
        obtain ⟨i, hi, hrest⟩ := ih hrest (stats.add p) (stored ++ record p)
        refine ⟨i + 1, hi.cons hroom, ?_⟩
        rw [Sink.write_of_le hroom]
        dsimp only
        rw [hrest, Sink.appendList_append, List.take_append, List.take_of_length_le hroom,
          List.take_succ_cons, numbered_cons]
        rfl
      · refine ⟨0, overflows_head (by omega) ps, ?_⟩
        rw [Sink.write_of_lt (by omega), List.take_append_of_le_length (by omega)]
        rfl
    · rw [written_of_le hp] at h
      exact absurd h (Nat.not_lt_zero room)

theorem sink_write_unbounded (ps : List Path) :
    (write ps Sink.unbounded).sink = ⟨none, (written ps).toArray⟩ :=
  (writeAfter_unbounded ⟨0, 0⟩ ps #[]).1.trans (congrArg _ (Array.toList_inj.mp (by simp)))

theorem write_unbounded_of_allShort (h : AllShort ps) : write ps Sink.unbounded =
    ⟨.ok ⟨(encode ps).length, ps.length⟩, numbered 0 ps, ⟨none, (encode ps).toArray⟩⟩ := by
  obtain ⟨-, hok, -⟩ := writeAfter_unbounded ⟨0, 0⟩ ps #[]
  obtain ⟨hresult, hseen⟩ := hok h
  simp only [Nat.zero_add] at hresult
  refine Written.ext hresult hseen ?_
  rw [sink_write_unbounded, written_eq_encode h]

/-- What comes of writing into a sink with room for `capacity` bytes, beside writing into one that has
room for everything. -/
structure Truncates (ps : List Path) (capacity : Nat) (full part : Written) : Prop where
  stored_eq : part.sink.stored.toList = full.sink.stored.toList.take capacity
  of_le : full.sink.stored.size ≤ capacity → part.result = full.result ∧ part.seen = full.seen
  of_lt : capacity < full.sink.stored.size → part.result = .error (.sink .full) ∧
    ∃ i, Overflows ps capacity i ∧ part.seen = numbered 0 (ps.take (i + 1))

theorem truncates_write (ps : List Path) (capacity : Nat) :
    Truncates ps capacity (write ps Sink.unbounded) (write ps (Sink.bounded capacity)) := by
  have hsink := sink_write_unbounded ps
  have hsize : (write ps Sink.unbounded).sink.stored.size = (written ps).length := by
    rw [hsink, List.size_toArray]
  rcases Nat.lt_or_ge capacity (written ps).length with hroom | hroom
  · obtain ⟨i, hi, hpart⟩ := writeAfter_of_no_room hroom ⟨0, 0⟩ #[]
    have hpart : write ps (Sink.bounded capacity) = _ := hpart
    rw [hpart]
    refine ⟨by rw [hsink]; simp, fun h => ?_, fun _ => ⟨rfl, i, hi, rfl⟩⟩
    rw [hsize] at h
    exact absurd h (Nat.not_le.mpr hroom)
  · have hpart : write ps (Sink.bounded capacity) = _ :=
      writeAfter_of_room hroom ⟨0, 0⟩ #[] #[]
    rw [hpart]
    refine ⟨?_, fun _ => ⟨rfl, rfl⟩, fun h => ?_⟩
    · rw [hsink]
      simp [List.take_of_length_le hroom]
    · rw [hsize] at h
      exact absurd h (Nat.not_lt.mpr hroom)

end PathList

/-! ## Below a cursor -/

namespace Cursor

/-- The list `ps` has the paths behind that of `c`, ascending, as many as `c` counts. -/
structure Lists (x : Trie) (c : Cursor) (ps : List Path) : Prop where
  ascending : ps.Pairwise (· < ·)
  mem_iff : ∀ q, q ∈ ps ↔ x.contains (c.path ++ q) = true
  length_eq : ps.length = c.count

theorem IsAt.lists {P : Pool} {x : Trie} {c : Cursor} (h : c.IsAt x c.path) (hin : c.In P)
    (hx : x.Canonical) (n : Nat) :
    Lists x c (c.readPaths n).1 ∧ ∀ q, q ∈ (c.subtrie n).1 ↔ q ∈ (c.readPaths n).1 := by
  obtain ⟨hsub, hmembers⟩ := h.subtrie hin hx n
  rw [h.readPaths_eq_paths hin hx]
  refine ⟨⟨hsub.pairwise_paths, fun q => ?mem, ?length⟩, fun q => (mem_paths_iff _ q).symm⟩
  case mem =>
    rw [mem_paths_iff, hx.contains_iff]
    exact Set.ext_iff.mp hmembers q
  case length =>
    have hcount : ((c.subtrie n).1.count : ℕ∞) = c.count := by
      obtain ⟨rfl, -, p, k, hplaced⟩ := h
      rw [hsub.count_eq_encard, hmembers, ← IsAt.members_stem ⟨rfl, rfl, p, k, hplaced⟩ hx,
        Stem.encard_members, ← (hplaced.canonical_stem hx).count_eq_encard]
      rfl
    rw [hsub.length_paths]
    exact_mod_cast hcount

end Cursor

namespace Session

open PathList

variable {hash : HashFunction} {σ : Session}

/-- In a session a cursor stands where its moves led it, on the nodes of one pool. -/
theorem exists_isAt (h : Reachable hash σ) (hc : CollisionFree hash σ.interned) {x : Trie}
    (hx : σ.Holds x) {c : Cursor} (hr : Cursor.Run x c) :
    ∃ P : Pool, x.Canonical ∧ c.In P ∧ c.IsAt x c.path := by
  obtain ⟨P, hP⟩ := h.exists_pool hc
  have hxP := hP.mem_of_holds hx
  exact ⟨P, canonical hxP, hr.mem hxP, hr.isAt (canonical hxP)⟩

/-- The paths below a cursor, all of which have records, are announced in order and written one after
the other, and from what was written the set below the cursor is read again. -/
theorem written_reads_back (h : Reachable hash σ) (hc : CollisionFree hash σ.interned) {x : Trie}
    (hx : σ.Holds x) {c : Cursor} (hr : Cursor.Run x c) (n : Nat)
    (hshort : ∀ q, x.contains (c.path ++ q) = true → q.length < lengthLimit) :
    ∃ ps, c.Lists x ps ∧
      (writeBelow c Sink.unbounded n).1 =
        ⟨.ok ⟨(encode ps).length, c.count⟩, numbered 0 ps, ⟨none, (encode ps).toArray⟩⟩ ∧
      ∀ m, firstId ≤ m → ∃ t,
        (read (fun _ _ => true) (encode ps) m).1 = .ok (t, ⟨(encode ps).length, c.count⟩) ∧
          t.Canonical ∧ (t == (c.subtrie n).1) = true := by
  obtain ⟨P, hcan, hin, hat⟩ := exists_isAt h hc hx hr
  obtain ⟨hlists, hmem⟩ := hat.lists hin hcan n
  obtain ⟨hsub, -⟩ := hat.subtrie hin hcan n
  have hall : AllShort (c.readPaths n).1 := fun q hq => hshort q ((hlists.mem_iff q).mp hq)
  refine ⟨_, hlists, ?written, fun m hm => ?read⟩
  case written =>
    rw [← hlists.length_eq]
    exact write_unbounded_of_allShort hall
  case read =>
    have hread := (splits_encode hall).readAsking_eq_ok (fun _ _ => true) m
    have hset := isSetOf_ofPaths (kept (fun _ _ => true) (numbered 0 (c.readPaths n).1)) hm
    rw [hlists.length_eq] at hread
    refine ⟨_, congrArg Reading.result hread, hset.canonical, ?_⟩
    refine beq_of_shape_eq hset.canonical hsub ?_
    refine shape_eq_of_members_eq hset.canonical hsub (Set.ext fun q => ?_)
    rw [mem_members, mem_members, hset.mem_iff, hmem, kept, List.filter_true, map_snd_numbered]

/-- From inside the first edge of the branching set: two records, of two and of three bytes. -/
theorem written_reads_back_branching :
    (writeBelow insideEdge Sink.unbounded 7).1.sink.stored.toList =
        [2, 0, 0, 0, 2, 3, 3, 0, 0, 0, 2, 4, 5] ∧
      ∃ t, (read (fun _ _ => true) [2, 0, 0, 0, 2, 3, 3, 0, 0, 0, 2, 4, 5] 9).1 = .ok (t, ⟨13, 2⟩) ∧
        (t == (insideEdge.subtrie 7).1) = true := by
  have hshort : ∀ q, branchingSet.contains (insideEdge.path ++ q) = true →
      q.length < lengthLimit := by
    intro q hq
    have hpaths : branchingSet.paths = [[1, 2, 3], [1, 2, 4, 5], [6]] := by decide +kernel
    rw [branchingSet_canonical.contains_iff, ← mem_paths_iff, hpaths] at hq
    have hlong : ∀ p ∈ ([[1, 2, 3], [1, 2, 4, 5], [6]] : List Path), p.length < 5 := by decide
    have hlen := hlong _ hq
    rw [List.length_append] at hlen
    exact Nat.lt_trans (Nat.lt_of_le_of_lt (Nat.le_add_left _ _) hlen) (by decide)
  obtain ⟨ps, -, hwritten, hread⟩ := written_reads_back (branching_reachable Blake3.hash)
    (branching_collisionFree _) (Or.inl branchingSet_mem) run_insideEdge 7 hshort
  have hstored : (writeBelow insideEdge Sink.unbounded 7).1.sink.stored.toList =
      [2, 0, 0, 0, 2, 3, 3, 0, 0, 0, 2, 4, 5] := by decide +kernel
  have hcount : insideEdge.count = 2 := by decide +kernel
  have hencode : encode ps = [2, 0, 0, 0, 2, 3, 3, 0, 0, 0, 2, 4, 5] := by
    rw [← hstored, hwritten]
  obtain ⟨t, ht, -, heq⟩ := hread 9 (by decide)
  rw [hencode, hcount] at ht
  exact ⟨hstored, t, ht, heq⟩

/-- A bounded sink gets as many bytes as it has room for of those that an unbounded one gets, which are
the records of all paths where all have records.  With room for all of them nothing else changes either;
otherwise the writing fails at the first path whose record does not fit, which was announced, and none
after it. -/
theorem bounded_writing (h : Reachable hash σ) (hc : CollisionFree hash σ.interned) {x : Trie}
    (hx : σ.Holds x) {c : Cursor} (hr : Cursor.Run x c) (n capacity : Nat) :
    ∃ ps, c.Lists x ps ∧
      let full := (writeBelow c Sink.unbounded n).1
      let part := (writeBelow c (Sink.bounded capacity) n).1
      (AllShort ps → full =
          ⟨.ok ⟨(encode ps).length, c.count⟩, numbered 0 ps, ⟨none, (encode ps).toArray⟩⟩ ∧
        ((∃ stats, part.result = .ok stats) ↔ (encode ps).length ≤ capacity)) ∧
      (¬ AllShort ps → full.result = .error .tooLong) ∧
      Truncates ps capacity full part ∧
      (PathList.WriteError.sink .full).kind = .writeZero := by
  obtain ⟨P, hcan, hin, hat⟩ := exists_isAt h hc hx hr
  obtain ⟨hlists, -⟩ := hat.lists hin hcan n
  have hcut := truncates_write (c.readPaths n).1 capacity
  refine ⟨_, hlists, fun hall => ?short, (writeAfter_unbounded ⟨0, 0⟩ _ #[]).2.2, hcut, rfl⟩
  have hfull := write_unbounded_of_allShort hall
  rw [hfull] at hcut
  rw [← hlists.length_eq]
  refine ⟨hfull, fun ⟨stats, hok⟩ => ?_, fun hroom => ⟨_, (hcut.of_le hroom).1⟩⟩
  by_contra hroom
  have hok : (write (c.readPaths n).1 (Sink.bounded capacity)).result = .ok stats := hok
  rw [(hcut.of_lt (Nat.not_le.mp hroom)).1] at hok
  cases hok

/-- The two records of the example above in a sink with room for eight bytes, which ends inside the
second length, and in one with room for the first record alone. -/
theorem bounded_writing_branching :
    (writeBelow insideEdge (Sink.bounded 8) 7).1.result = .error (.sink .full) ∧
      (writeBelow insideEdge (Sink.bounded 8) 7).1.sink.stored.toList = [2, 0, 0, 0, 2, 3, 3, 0] ∧
      (writeBelow insideEdge (Sink.bounded 6) 7).1.result = .error (.sink .full) ∧
      (writeBelow insideEdge (Sink.bounded 6) 7).1.sink.stored.toList = [2, 0, 0, 0, 2, 3] := by
  have hall := bounded_writing (branching_reachable Blake3.hash) (branching_collisionFree _)
    (Or.inl branchingSet_mem) run_insideEdge 7
  have hstored : (writeBelow insideEdge Sink.unbounded 7).1.sink.stored.toList =
      [2, 0, 0, 0, 2, 3, 3, 0, 0, 0, 2, 4, 5] := by decide +kernel
  obtain ⟨_, -, -, -, hmiddle, -⟩ := hall 8
  obtain ⟨_, -, -, -, hbetween, -⟩ := hall 6
  have height := hmiddle.stored_eq
  have hsix := hbetween.stored_eq
  rw [hstored] at height hsix
  have hsize : (writeBelow insideEdge Sink.unbounded 7).1.sink.stored.size = 13 := by
    rw [← Array.length_toList, hstored]
    rfl
  refine ⟨(hmiddle.of_lt ?_).1, height, (hbetween.of_lt ?_).1, hsix⟩
  · rw [hsize]
    decide
  · rw [hsize]
    decide

end Session

end ByteTrie
