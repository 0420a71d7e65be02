import ByteTrie.Proofs.Count
import ByteTrie.Proofs.Equality
import ByteTrie.Proofs.Range
import Mathlib

/-!
# Ranges are progressions

A range has the encodings of start, start + step, … below stop as members, whichever way it is made.
For the blocks, a signed progression is cut at zero: adding the modulus to its negative numbers gives
their bit patterns, and rounding up to zero in whole steps gives the first of the others.  Written out,
the numbers end at the last one below stop, as adding a step to it would go past stop in any case.

    p.paths r order   the encodings of start + i * step, for all i with start + i * step below stop
-/

namespace ByteTrie

open Trie Pool

/-! ## Numbers of a type -/

namespace IntType

variable {r : IntType} {v w : Int}

theorem modulus_pos (r : IntType) : 0 < r.modulus := Nat.pow_pos (by decide)

/-- Numbers of a type are less than the modulus apart. -/
theorem contains.lt_add_modulus (hv : r.contains v) (hw : r.contains w) : v < w + r.modulus := by
  obtain ⟨-, hv⟩ := hv
  obtain ⟨hw, -⟩ := hw
  have hpos := r.modulus_pos
  unfold IntType.max at hv
  unfold IntType.min at hw
  split at hv
  · rw [if_pos ‹_›] at hw
    omega
  · rw [if_neg ‹_›] at hw
    omega

theorem pattern_of_nonneg (h : 0 ≤ v) (hv : v < r.modulus) : r.pattern v = v.toNat := by
  rw [pattern, Int.emod_eq_of_lt h hv]

/-- A negative number has the pattern of the number one modulus above it. -/
theorem pattern_of_neg (h : v < 0) (hv : 0 ≤ v + r.modulus) :
    r.pattern v = (v + r.modulus).toNat := by
  rw [pattern, ← Int.add_emod_right, Int.emod_eq_of_lt hv (by omega)]

theorem pattern_lt (r : IntType) (v : Int) : r.pattern v < r.modulus := by
  have hpos := r.modulus_pos
  have hlt := Int.emod_lt_of_pos v (Int.natCast_pos.mpr hpos)
  rw [pattern]
  omega

theorem contains.pattern_inj (hv : r.contains v) (hw : r.contains w)
    (h : r.pattern v = r.pattern w) : v = w := by
  have hpos := r.modulus_pos
  have hvw := hv.lt_add_modulus hw
  have hwv := hw.lt_add_modulus hv
  have hmod : v % r.modulus = w % r.modulus := by
    have hv0 := Int.emod_nonneg v (Int.natCast_ne_zero.mpr hpos.ne')
    have hw0 := Int.emod_nonneg w (Int.natCast_ne_zero.mpr hpos.ne')
    rw [pattern, pattern] at h
    omega
  have hdvd : (r.modulus : Int) ∣ w - v := Int.ModEq.dvd hmod
  have hzero := Int.eq_zero_of_abs_lt_dvd hdvd (abs_lt.mpr ⟨by omega, by omega⟩)
  omega

/-- A type encodes its numbers one-to-one. -/
theorem contains.encode_inj {order : ByteOrder} (hv : r.contains v) (hw : r.contains w)
    (h : r.encode order v = r.encode order w) : v = w := by
  refine hv.pattern_inj hw (littleEndian_inj (r.pattern_lt v) (r.pattern_lt w) ?_)
  cases order with
  | little => exact h
  | big => exact List.reverse_inj.mp h

end IntType

/-! ## Progressions -/

namespace Progression

variable {p : Progression} {r : IntType} {v w : Int}

/-- The encodings of the numbers of a progression. -/
def paths (p : Progression) (r : IntType) (order : ByteOrder) : Set Path :=
  {q | ∃ i : Nat, p.start + i * p.step < p.stop ∧ q = r.encode order (p.start + i * p.step)}

/-- Steps only go up. -/
theorem steps_nonneg (hstep : 0 < p.step) (i : Nat) : 0 ≤ (i : Int) * p.step :=
  Int.mul_nonneg (Int.natCast_nonneg i) hstep.le

theorem contains_of_lt (hstart : r.contains p.start) (hstop : r.contains p.stop)
    (hstep : 0 < p.step) {i : Nat} (hi : p.start + i * p.step < p.stop) :
    r.contains (p.start + i * p.step) := by
  have hnonneg := steps_nonneg hstep i
  exact ⟨hstart.1.trans (by omega), hi.le.trans hstop.2⟩

/-! ## Written out -/

/-- The first number, and those from the second one on. -/
theorem exists_step_iff (p : Progression) (v w : Int) :
    (∃ i : Nat, v = w + i * p.step ∧ v < p.stop) ↔
      (v = w ∧ w < p.stop) ∨ ∃ i : Nat, v = w + p.step + i * p.step ∧ v < p.stop := by
  rw [← Nat.or_exists_add_one]
  refine or_congr ?_ (exists_congr fun i => ?_)
  · rw [Nat.cast_zero, Int.zero_mul, Int.add_zero]
    exact and_congr_right fun h => by rw [h]
  · rw [Nat.cast_add_one, Int.add_mul, Int.one_mul, Int.add_assoc, Int.add_comm p.step]

theorem not_exists_step (hstep : 0 < p.step) (hw : p.stop ≤ w) :
    ¬ ∃ i : Nat, v = w + i * p.step ∧ v < p.stop := by
  rintro ⟨i, rfl, hi⟩
  have hnonneg := steps_nonneg hstep i
  omega

theorem mem_valuesOnto (hstep : 0 < p.step) (hstop : r.contains p.stop) (given : List Int) :
    v ∈ p.valuesOnto r w given ↔ v ∈ given ∨ ∃ i : Nat, v = w + i * p.step ∧ v < p.stop := by
  fun_induction p.valuesOnto r w given with
  | case1 w given hlt hmax ih =>
    rw [ih, exists_step_iff p v w, and_iff_left hlt.1, List.mem_cons, ← or_assoc,
      or_comm (a := v = w)]
  | case2 w given hlt hmax =>
    -- the next number would not be of the type, so it is not below stop
    have hend := not_exists_step (v := v) hstep (hstop.2.trans (Int.le_of_lt (Int.not_le.mp hmax)))
    rw [exists_step_iff, or_iff_left hend, and_iff_left hlt.1, List.mem_cons, or_comm]
  | case3 w given hge =>
    have hend := not_exists_step (v := v) (w := w) hstep (Int.not_lt.mp fun h => hge ⟨h, hstep⟩)
    rw [or_iff_left hend]

theorem mem_toList (hstep : 0 < p.step) (hstop : r.contains p.stop) :
    v ∈ p.toList r ↔ ∃ i : Nat, v = p.start + i * p.step ∧ v < p.stop := by
  rw [toList, List.mem_reverse, mem_valuesOnto hstep hstop, or_iff_right List.not_mem_nil]

theorem mem_map_toList_iff (hstep : 0 < p.step) (hstop : r.contains p.stop) (order : ByteOrder)
    (q : Path) : q ∈ (p.toList r).map (r.encode order) ↔ q ∈ p.paths r order := by
  rw [List.mem_map]
  constructor
  · rintro ⟨v, hv, rfl⟩
    obtain ⟨i, rfl, hi⟩ := (mem_toList hstep hstop).mp hv
    exact ⟨i, hi, rfl⟩
  · rintro ⟨i, hi, rfl⟩
    exact ⟨_, (mem_toList hstep hstop).mpr ⟨i, rfl, hi⟩, rfl⟩

/-! ## Made of blocks -/

/-- A part whose numbers are `c` below their bit patterns. -/
theorem blockPaths_eq_paths {a b c : Int} (hstep : 0 < p.step) (ha : 0 ≤ a + c)
    (hpattern : ∀ v, a ≤ v → v < b → r.pattern v = (v + c).toNat) :
    Range.blockPaths p.step.toNat r.width 0 (a + c).toNat (b + c).toNat =
      paths ⟨a, b, p.step⟩ r .big := by
  have hcast : (p.step.toNat : Int) = p.step := Int.toNat_of_nonneg hstep.le
  ext q
  refine exists_congr fun i => ?_
  have hnonneg := steps_nonneg hstep i
  have hnum : (a + c).toNat + i * p.step.toNat = (a + i * p.step + c).toNat := by
    zify
    rw [hcast, Int.toNat_of_nonneg ha, Int.toNat_of_nonneg (by omega)]
    ring
  have hlt : (a + c).toNat + i * p.step.toNat < (b + c).toNat ↔ a + i * p.step < b := by
    rw [hnum]
    omega
  rw [hlt]
  refine and_congr_right fun hi => ?_
  rw [hnum, IntType.encode, hpattern _ (by omega) hi]
  rfl

/-- A part whose numbers are their own bit patterns. -/
theorem blockPaths_eq_paths_of_nonneg {a b : Int} (hstep : 0 < p.step) (ha : 0 ≤ a)
    (hb : b ≤ r.modulus) : Range.blockPaths p.step.toNat r.width 0 a.toNat b.toNat =
      paths ⟨a, b, p.step⟩ r .big := by
  have hpaths := blockPaths_eq_paths (r := r) (a := a) (b := b) (c := 0) hstep (by omega)
    fun v hv hlt => by rw [IntType.pattern_of_nonneg (by omega) (by omega), Int.add_zero]
  rwa [Int.add_zero, Int.add_zero] at hpaths

/-- The numbers below zero, and those from the first one on that is not. -/
theorem paths_eq_union (order : ByteOrder) {s : Nat}
    (hs : ∀ i : Nat, i < s ↔ p.start + i * p.step < 0) : p.paths r order =
      paths ⟨p.start, min p.stop 0, p.step⟩ r order ∪
        paths ⟨p.start + s * p.step, p.stop, p.step⟩ r order := by
  ext q
  refine (Range.exists_iff_lt_or_add s).trans ?_
  refine or_congr (exists_congr fun i => ?_) (exists_congr fun j => ?_)
  · rw [hs, lt_min_iff, and_assoc, and_left_comm]
  · rw [Nat.cast_add, Int.add_mul, ← Int.add_assoc]

theorem paths_eq_empty (hstep : 0 < p.step) (h : p.stop ≤ p.start) (order : ByteOrder) :
    p.paths r order = ∅ := by
  refine Set.eq_empty_iff_forall_notMem.mpr ?_
  rintro q ⟨i, hi, -⟩
  exact not_exists_step hstep h ⟨i, rfl, hi⟩

/-- A part that is left out where it would start at its end or behind it. -/
theorem partPaths_ite (hstep : 0 < p.step) {c : Prop} [Decidable c] {part : Nat × Nat}
    {a b : Int} (hpart : c → Range.blockPaths p.step.toNat r.width 0 part.1 part.2 =
      paths ⟨a, b, p.step⟩ r .big) (hc : ¬ c → b ≤ a) :
    Range.partPaths p.step.toNat r.width (if c then [part] else []) =
      paths ⟨a, b, p.step⟩ r .big := by
  split
  · next h => rw [Range.partPaths_cons, Range.partPaths_nil, Set.union_empty, hpart h]
  · next h => rw [Range.partPaths_nil, paths_eq_empty (p := ⟨a, b, p.step⟩) hstep (hc h)]

/-- Whole steps from the start to the first number that is not negative. -/
theorem exists_steps_to_zero (hstep : 0 < p.step) : ∃ s : Nat,
    (if 0 ≤ p.start then p.start
      else p.start + Range.stepsTo p.step.toNat 0 (-p.start).toNat * p.step) =
        p.start + s * p.step ∧ ∀ i : Nat, i < s ↔ p.start + i * p.step < 0 := by
  split
  · next h =>
    refine ⟨0, by simp, fun i => ?_⟩
    have hnonneg := steps_nonneg hstep i
    omega
  · next h =>
    refine ⟨_, rfl, fun i => ?_⟩
    rw [Range.lt_stepsTo_iff (Int.lt_toNat.mpr hstep)]
    have hcast : ((i * p.step.toNat : Nat) : Int) = i * p.step := by
      rw [Nat.cast_mul, Int.toNat_of_nonneg hstep.le]
    omega

/-- The parts are bit patterns of numbers of the type, and have the digits of all its numbers. -/
theorem partPaths_patterns (hstart : r.contains p.start) (hstop : r.contains p.stop)
    (hstep : 0 < p.step) : (∀ part ∈ p.patterns r, part.2 ≤ r.modulus) ∧
      Range.partPaths p.step.toNat r.width (p.patterns r) = p.paths r .big := by
  obtain ⟨hmin, -⟩ := hstart
  obtain ⟨-, hmax⟩ := hstop
  unfold IntType.min at hmin
  unfold IntType.max at hmax
  have hpos := r.modulus_pos
  cases hr : r.isSigned with
  | false =>
    simp only [patterns, hr, Bool.false_eq_true, if_false, List.mem_singleton, forall_eq] at *
    refine ⟨by omega, ?_⟩
    rw [Range.partPaths_cons, Range.partPaths_nil, Set.union_empty]
    exact blockPaths_eq_paths_of_nonneg hstep (by omega) (by omega)
  | true =>
    obtain ⟨s, hs, hneg⟩ := exists_steps_to_zero hstep
    have hfirst : 0 ≤ p.start + s * p.step := by
      by_contra h
      exact Nat.lt_irrefl s ((hneg s).mpr (by omega))
    simp only [patterns, hr, if_true, hs] at *
    constructor
    · intro part hpart
      rcases List.mem_append.mp hpart with hpart | hpart
      all_goals
        obtain ⟨-, hpart⟩ := List.mem_ite_nil_right.mp hpart
        obtain rfl := List.mem_singleton.mp hpart
        omega
    · rw [Range.partPaths_append, paths_eq_union .big hneg]
      congr 1
      · refine partPaths_ite hstep (fun h => blockPaths_eq_paths hstep (by omega) ?_) fun h => ?_
        · intro v hv hlt
          exact IntType.pattern_of_neg (by omega) (by omega)
        · omega
      · refine partPaths_ite hstep (fun h => ?_) fun h => by omega
        exact blockPaths_eq_paths_of_nonneg hstep hfirst (by omega)

/-! ## Counting -/

/-- As many numbers as steps fit between start and stop, rounded up. -/
theorem encard_paths (hstart : r.contains p.start) (hstop : r.contains p.stop) (hstep : 0 < p.step)
    (order : ByteOrder) : (p.paths r order).encard =
      (⌈((p.stop - p.start : Int) : ℚ) / p.step⌉₊ : ℕ∞) := by
  have hlt : ∀ i : Nat, p.start + i * p.step < p.stop ↔
      i < ⌈((p.stop - p.start : Int) : ℚ) / p.step⌉₊ := fun i => by
    rw [Nat.lt_ceil, lt_div_iff₀ (by exact_mod_cast hstep)]
    norm_cast
    omega
  have himage : p.paths r order = (fun i : Nat => r.encode order (p.start + i * p.step)) ''
      (Finset.range ⌈((p.stop - p.start : Int) : ℚ) / p.step⌉₊ : Set Nat) := by
    ext q
    simp only [paths, Set.mem_ofPred_eq, Set.mem_image, Finset.coe_range, Set.mem_Iio, hlt]
    exact exists_congr fun i => and_congr_right fun _ => eq_comm
  have inj : Set.InjOn (fun i : Nat => r.encode order (p.start + i * p.step))
      (Finset.range ⌈((p.stop - p.start : Int) : ℚ) / p.step⌉₊ : Set Nat) := by
    intro i hi j hj h
    rw [Finset.coe_range, Set.mem_Iio, ← hlt] at hi hj
    have hv := (contains_of_lt hstart hstop hstep hi).encode_inj
      (contains_of_lt hstart hstop hstep hj) h
    have hmul : (i : Int) * p.step = j * p.step := by omega
    exact_mod_cast Int.eq_of_mul_eq_mul_right hstep.ne' hmul
  rw [himage, inj.encard_image, Set.encard_coe_eq_coe_finsetCard, Finset.card_range]

end Progression

/-! ## Ranges -/

/-- The empty set and the set of the empty path, before any id from `next` on is given out. -/
def Pool.startAt (next : Nat) (h : firstId ≤ next) : Pool where
  __ := Pool.start
  next := next
  id_lt t ht := Nat.lt_of_lt_of_le (Pool.start.id_lt t ht) h

namespace Trie

variable {P : Pool} {r : IntType} {order : ByteOrder} {p : Progression}

theorem makes_writtenOut (order : ByteOrder) (P : Pool) (hstop : r.contains p.stop)
    (hstep : 0 < p.step) : P.Makes (writtenOut r order p) fun Q t => t ∈ Q ∧ t.members = p.paths r order := by
  refine (makes_ofPaths P _).imp fun Q t _ ht => ⟨ht.1, ?_⟩
  ext q
  exact (ht.2 q).trans (Progression.mem_map_toList_iff hstep hstop order q)

/-- Both ways to make a range give it the members of the progression. -/
theorem makes_range_paths (P : Pool) (order : ByteOrder) (hstart : r.contains p.start)
    (hstop : r.contains p.stop) (hstep : 0 < p.step) : P.Makes (range r order p) fun Q res =>
      ∃ t, res = .ok t ∧ t ∈ Q ∧ t.members = p.paths r order := by
  refine (makes_range_of_pos P r order p hstep).imp ?_
  rintro Q res - ⟨t, rfl, ht, hblocks, hwritten⟩
  refine ⟨t, rfl, ht, ?_⟩
  by_cases hbig : order = .big ∧ r.width ≤ widestBlock
  · obtain ⟨hparts, hpaths⟩ := Progression.partPaths_patterns hstart hstop hstep
    rw [hblocks hbig hparts, hpaths, hbig.1]
  · rw [hwritten hbig]
    ext q
    exact Progression.mem_map_toList_iff hstep hstop order q

/-- A set of the encodings has as many members as steps fit between start and stop. -/
theorem count_eq_of_paths {t : Trie} (ht : t.Canonical) (hstart : r.contains p.start)
    (hstop : r.contains p.stop) (hstep : 0 < p.step) (hm : t.members = p.paths r order) :
    (t.count : ℤ) = max 0 ⌈((p.stop - p.start : ℤ) : ℚ) / p.step⌉ := by
  have hcount := ht.count_eq_encard
  rw [hm, Progression.encard_paths hstart hstop hstep order] at hcount
  rw [Nat.cast_inj.mp hcount, ← Int.ceil_toNat, Int.ofNat_toNat, max_comm]

/-- A range fails for a step that is not positive, and else is the set of the encodings of its numbers,
the same one that is made number by number. -/
theorem range_eq_progression (r : IntType) (order : ByteOrder) (p : Progression)
    (hstart : r.contains p.start) (hstop : r.contains p.stop) {next : Nat} (hnext : firstId ≤ next) :
    ((range r order p next).1 = .error .zeroStep ↔ p.step ≤ 0) ∧
      (0 < p.step → ∃ t, (range r order p next).1 = .ok t ∧ t.Canonical ∧
        (∀ q, t.contains q = true ↔
          ∃ i : Nat, p.start + i * p.step < p.stop ∧ q = r.encode order (p.start + i * p.step)) ∧
        (t.count : ℤ) = max 0 ⌈((p.stop - p.start : ℤ) : ℚ) / p.step⌉ ∧
        (t == (writtenOut r order p (range r order p next).2).1) = true ∧
        t.encode = (writtenOut r order p (range r order p next).2).1.encode) := by
  refine ⟨?_, fun hstep => ?_⟩
  · by_cases hstep : p.step ≤ 0
    · rw [range, if_pos hstep]
      exact ⟨fun _ => hstep, fun _ => rfl⟩
    · obtain ⟨Q, -, -, t, ht, -⟩ :=
        makes_range_paths (Pool.startAt next hnext) order hstart hstop (Int.lt_of_not_ge hstep)
      refine ⟨fun herror => ?_, fun h => absurd h hstep⟩
      cases ht.symm.trans herror
  · obtain ⟨Q, -, hn, t, hok, ht, hm⟩ :=
      makes_range_paths (Pool.startAt next hnext) order hstart hstop hstep
    obtain ⟨R, hQR, -, hu, hum⟩ := makes_writtenOut order Q hstop hstep
    rw [← hn] at hu hum
    have hcan := Pool.canonical ht
    have hshape := shape_eq_of_members_eq hcan (Pool.canonical hu) (hm.trans hum.symm)
    refine ⟨t, hok, hcan, fun q => ?_, count_eq_of_paths hcan hstart hstop hstep hm, ?_, ?_⟩
    · rw [hcan.contains_iff, ← mem_members, hm]
      rfl
    · exact (beq_iff_shape_eq (hQR.2 t ht) hu).mpr hshape
    · exact (encode_eq_iff t _).mpr hshape

/-- Signed numbers of two bytes, on both sides of zero: 167 of them, the first one and zero included. -/
theorem range_eq_progression_signed : ∃ t, (range ⟨2, true⟩ .big ⟨-300, 200, 3⟩ firstId).1 = .ok t ∧
    t.Canonical ∧ t.count = 167 ∧ t.contains [254, 212] = true ∧ t.contains [0, 0] = true := by
  have hrange := range_eq_progression ⟨2, true⟩ .big ⟨-300, 200, 3⟩ ⟨by decide, by decide⟩
    ⟨by decide, by decide⟩ (Nat.le_refl firstId)
  obtain ⟨t, hok, hcan, hmem, hcount, -⟩ := hrange.2 (by decide)
  refine ⟨t, hok, hcan, ?_, (hmem _).mpr ⟨0, by decide, by decide⟩,
    (hmem _).mpr ⟨100, by decide, by decide⟩⟩
  norm_num at hcount
  exact_mod_cast hcount

end Trie

end ByteTrie
