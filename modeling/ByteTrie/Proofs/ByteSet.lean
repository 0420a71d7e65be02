import ByteTrie.Proofs.Scan
import Mathlib

/-!
# Sets of bytes

A mask is an ordered set of bytes.  It lists its members in ascending order, counts them, and numbers them
by how many are below; from each byte it finds the nearest one above and below.  However a mask is made, it
holds the bytes that it was made of, and made in words it is the same mask.

    r.bytes                  the bytes of a recipe for a mask
    m.Orders s               m is the set s of bytes, with its order
    w.Mirrors m              on the words w everything gives what it gives on m
-/

namespace ByteTrie

namespace ByteMask

variable {m : ByteMask} {s : Set UInt8}

/-! ## The order of a mask -/

theorem size_eq_length (m : ByteMask) : m.size = m.toList.length := by
  rw [size, BitVec.toNat_cpop, cpopNatRec_eq_countP, toList, List.filter_map, List.length_map,
    List.countP_eq_length_filter]
  have hbits : ∀ i ∈ List.range 256, m.bits.getLsbD i = (m.contains ∘ UInt8.ofNat) i := by
    intro i hi
    rw [Function.comp_apply, contains_ofNat (List.mem_range.mp hi)]
  exact congrArg List.length (List.filter_congr hbits)

theorem isEmpty_iff (m : ByteMask) : m.isEmpty = true ↔ ∀ b, m.contains b = false := by
  rw [isEmpty, beq_iff_eq]
  constructor
  · intro h b
    rw [contains, h, BitVec.getLsbD_zero]
  · intro h
    have hempty : m = empty := eq_of_contains_eq fun b => by
      rw [h b, contains, empty, BitVec.getLsbD_zero]
    rw [hempty]
    rfl

/-- The rank of a byte is the number of members below it. -/
theorem rank_eq_ncard (h : ∀ b, m.contains b = true ↔ b ∈ s) (b : UInt8) :
    m.rank b = {c ∈ s | c < b}.ncard := by
  have hset : {c ∈ s | c < b} = ((m.toList.filter fun c => decide (c < b)).toFinset : Set UInt8) := by
    ext c
    simp [mem_toList, h]
  have hnodup : (m.toList.filter fun c => decide (c < b)).Nodup :=
    ((pairwise_toList m).imp UInt8.ne_of_lt).filter _
  rw [hset, Set.ncard_coe_finset, List.toFinset_card_of_nodup hnodup, rank_eq_length]

theorem rank_of_nth? {i : Nat} {b : UInt8} (h : m.nth? i = some b) : m.rank b = i := by
  rw [rank_eq_length]
  exact length_filter_lt (pairwise_toList m) h

theorem nth?_rank {b : UInt8} (h : m.contains b = true) : m.nth? (m.rank b) = some b := by
  obtain ⟨i, hi⟩ := List.mem_iff_getElem?.mp ((mem_toList m b).mpr h)
  have hrank : m.rank b = i := rank_of_nth? hi
  rw [hrank]
  exact hi

theorem next?_eq_some_iff_isLeast (h : ∀ b, m.contains b = true ↔ b ∈ s) (b c : UInt8) :
    m.next? b = some c ↔ IsLeast {d ∈ s | b < d} c := by
  rw [next?_eq_some_iff]
  constructor
  · rintro ⟨hlt, hmem, hle⟩
    exact ⟨⟨(h c).mp hmem, hlt⟩, fun d hd => hle d hd.2 ((h d).mpr hd.1)⟩
  · rintro ⟨⟨hmem, hlt⟩, hle⟩
    exact ⟨hlt, (h c).mpr hmem, fun d hd hdm => hle ⟨(h d).mp hdm, hd⟩⟩

theorem prev?_eq_some_iff_isGreatest (h : ∀ b, m.contains b = true ↔ b ∈ s) (b c : UInt8) :
    m.prev? b = some c ↔ IsGreatest {d ∈ s | d < b} c := by
  rw [prev?_eq_some_iff]
  constructor
  · rintro ⟨hlt, hmem, hle⟩
    exact ⟨⟨(h c).mp hmem, hlt⟩, fun d hd => hle d hd.2 ((h d).mpr hd.1)⟩
  · rintro ⟨⟨hmem, hlt⟩, hle⟩
    exact ⟨hlt, (h c).mpr hmem, fun d hd hdm => hle ⟨(h d).mp hdm, hd⟩⟩

theorem next?_eq_none_iff (h : ∀ b, m.contains b = true ↔ b ∈ s) (b : UInt8) :
    m.next? b = none ↔ {d ∈ s | b < d} = ∅ := by
  constructor
  · intro hnone
    rw [next?] at hnone
    split at hnone
    · next habove =>
      rw [Set.eq_empty_iff_forall_notMem]
      rintro d ⟨hmem, hlt⟩
      have hnot := not_contains_of_above_eq_zero habove hlt
      rw [(h d).mpr hmem] at hnot
      cases hnot
    · cases hnone
  · intro hempty
    rw [Option.eq_none_iff_forall_ne_some]
    intro c hc
    have hleast := (next?_eq_some_iff_isLeast h b c).mp hc
    exact Set.eq_empty_iff_forall_notMem.mp hempty c hleast.1

theorem prev?_eq_none_iff (h : ∀ b, m.contains b = true ↔ b ∈ s) (b : UInt8) :
    m.prev? b = none ↔ {d ∈ s | d < b} = ∅ := by
  constructor
  · intro hnone
    rw [prev?] at hnone
    split at hnone
    · next hbelow =>
      rw [Set.eq_empty_iff_forall_notMem]
      rintro d ⟨hmem, hlt⟩
      have hnot := contains_eq_below (m := m) hlt
      rw [(h d).mpr hmem, hbelow, BitVec.getLsbD_zero] at hnot
      cases hnot
    · cases hnone
  · intro hempty
    rw [Option.eq_none_iff_forall_ne_some]
    intro c hc
    have hgreatest := (prev?_eq_some_iff_isGreatest h b c).mp hc
    exact Set.eq_empty_iff_forall_notMem.mp hempty c hgreatest.1

/-- `m` is the set `s`: its members are listed in ascending order, counted and numbered by rank, and from
every byte the nearest ones above and below are found. -/
structure Orders (m : ByteMask) (s : Set UInt8) : Prop where
  contains_iff : ∀ b, m.contains b = true ↔ b ∈ s
  isEmpty_iff : m.isEmpty = true ↔ s = ∅
  mem_toList_iff : ∀ b, b ∈ m.toList ↔ b ∈ s
  ascending : m.toList.Pairwise (· < ·)
  size_eq : m.size = m.toList.length
  rank_eq : ∀ b, m.rank b = {c ∈ s | c < b}.ncard
  nth?_eq : ∀ i, m.nth? i = m.toList[i]?
  nth?_rank : ∀ b ∈ s, m.nth? (m.rank b) = some b
  rank_of_nth? : ∀ i b, m.nth? i = some b → m.rank b = i
  next?_eq_some : ∀ b c, m.next? b = some c ↔ IsLeast {d ∈ s | b < d} c
  next?_eq_none : ∀ b, m.next? b = none ↔ {d ∈ s | b < d} = ∅
  prev?_eq_some : ∀ b c, m.prev? b = some c ↔ IsGreatest {d ∈ s | d < b} c
  prev?_eq_none : ∀ b, m.prev? b = none ↔ {d ∈ s | d < b} = ∅

theorem orders (h : ∀ b, m.contains b = true ↔ b ∈ s) : m.Orders s where
  contains_iff := h
  isEmpty_iff := by
    rw [isEmpty_iff, Set.eq_empty_iff_forall_notMem]
    exact forall_congr' fun b => by rw [← h b, Bool.not_eq_true]
  mem_toList_iff b := (mem_toList m b).trans (h b)
  ascending := pairwise_toList m
  size_eq := size_eq_length m
  rank_eq := rank_eq_ncard h
  nth?_eq _ := rfl
  nth?_rank b hb := nth?_rank ((h b).mpr hb)
  rank_of_nth? _ _ hb := rank_of_nth? hb
  next?_eq_some := next?_eq_some_iff_isLeast h
  next?_eq_none := next?_eq_none_iff h
  prev?_eq_some := prev?_eq_some_iff_isGreatest h
  prev?_eq_none := prev?_eq_none_iff h

end ByteMask

namespace Words

/-- The words `w` hold the mask `m`, and every operation on them is carried out and gives what it gives on
the mask. -/
structure Mirrors (w : Words) (m : ByteMask) : Prop where
  mask_eq : w.mask = m
  testBit? : ∀ b, w.testBit? b = some (m.contains b)
  len : w.len = m.size
  isEmpty : w.isEmpty = m.isEmpty
  indexOf? : ∀ b, w.indexOf? b = some (m.rank b)
  collect? : w.collect? = some m.toList
  nth? : ∀ i, w.nth? i = some (m.nth? i)
  nextBit? : ∀ b, w.nextBit? b = some (m.next? b)
  prevBit? : ∀ b, w.prevBit? b = some (m.prev? b)

/-- The four words of a mask are told by its bits. -/
theorem mask_injective {w v : Words} (h : w.mask = v.mask) : w = v := by
  obtain ⟨x⟩ := w
  obtain ⟨y⟩ := v
  congr 1
  ext i hi j hj
  have hbit := congrArg (fun m : ByteMask => m.bits.getLsbD (i * 64 + j)) h
  simp only [getLsbD_mask_mul_add _ hj] at hbit
  rw [word_eq_getElem _ hi, word_eq_getElem _ hi] at hbit
  exact hbit

theorem isEmpty_eq (w : Words) : w.isEmpty = w.mask.isEmpty := by
  rw [Bool.eq_iff_iff, isEmpty, beq_iff_eq, ByteMask.isEmpty, beq_iff_eq]
  constructor
  · rintro rfl
    rfl
  · intro h
    have hempty : w.mask = ByteMask.empty := ByteMask.eq_of_contains_eq fun b => by
      rw [ByteMask.contains, h]
      rfl
    exact mask_injective hempty

theorem mirrors (w : Words) : w.Mirrors w.mask where
  mask_eq := rfl
  testBit? := testBit?_eq w
  len := len_eq w
  isEmpty := isEmpty_eq w
  indexOf? := indexOf?_eq w
  collect? := collect?_eq w
  nth? := nth?_eq w
  nextBit? := nextBit?_eq w
  prevBit? := prevBit?_eq w

end Words

/-! ## Making masks -/

/-- How a mask is made. -/
inductive Recipe where
  | new
  | ofByte (b : UInt8)
  | ofBytes (bs : List UInt8)
  | setBit (r : Recipe) (b : UInt8)
  | or (r q : Recipe)
  | and (r q : Recipe)

namespace Recipe

/-- The bytes that are meant. -/
def bytes : Recipe → Set UInt8
  | new => ∅
  | ofByte b => {b}
  | ofBytes bs => {b | b ∈ bs}
  | setBit r b => insert b r.bytes
  | or r q => r.bytes ∪ q.bytes
  | and r q => r.bytes ∩ q.bytes

def mask : Recipe → ByteMask
  | new => ByteMask.empty
  | ofByte b => ByteMask.singleton b
  | ofBytes bs => ByteMask.ofList bs
  | setBit r b => r.mask.insert b
  | or r q => r.mask.union q.mask
  | and r q => r.mask.inter q.mask

def words? : Recipe → Option Words
  | new => some Words.zero
  | ofByte b => Words.zero.setBit? b
  | ofBytes bs => bs.foldlM Words.setBit? Words.zero
  | setBit r b => do (← r.words?).setBit? b
  | or r q => do return (← r.words?).or (← q.words?)
  | and r q => do return (← r.words?).and (← q.words?)

theorem contains_mask_iff (r : Recipe) (b : UInt8) : r.mask.contains b = true ↔ b ∈ r.bytes := by
  induction r with
  | new => simp [mask, bytes, ByteMask.contains, ByteMask.empty]
  | ofByte a =>
    rw [mask, ByteMask.singleton_eq_ofList, ByteMask.contains_ofList, List.mem_singleton]
    rfl
  | ofBytes bs => exact ByteMask.contains_ofList bs b
  | setBit r a ih =>
    rw [mask, ByteMask.contains_insert, Bool.or_eq_true, ih, decide_eq_true_iff, bytes,
      Set.mem_insert_iff, or_comm, eq_comm]
  | or r q ihr ihq =>
    have hbit : (mask (or r q)).contains b = (r.mask.contains b || q.mask.contains b) :=
      BitVec.getLsbD_or
    rw [hbit, Bool.or_eq_true, ihr, ihq]
    rfl
  | and r q ihr ihq =>
    have hbit : (mask (and r q)).contains b = (r.mask.contains b && q.mask.contains b) :=
      BitVec.getLsbD_and
    rw [hbit, Bool.and_eq_true, ihr, ihq]
    rfl

theorem foldlM_setBit?_eq (bs : List UInt8) (w : Words) : ∃ v, bs.foldlM Words.setBit? w = some v ∧
    v.mask = bs.foldl ByteMask.insert w.mask := by
  induction bs generalizing w with
  | nil => exact ⟨w, rfl, rfl⟩
  | cons b bs ih =>
    obtain ⟨v, hv, hmask⟩ := Words.setBit?_eq w b
    obtain ⟨u, hu, hfold⟩ := ih v
    refine ⟨u, ?_, ?_⟩
    · rw [List.foldlM_cons, hv]
      exact hu
    · rw [hfold, hmask, List.foldl_cons]

/-- A mask is made in words without being stopped; the induction is on how it is made. -/
theorem words?_eq (r : Recipe) : ∃ w, r.words? = some w ∧ w.mask = r.mask := by
  induction r with
  | new => exact ⟨_, rfl, rfl⟩
  | ofByte b => exact Words.setBit?_eq Words.zero b
  | ofBytes bs => exact foldlM_setBit?_eq bs Words.zero
  | setBit r b ih =>
    obtain ⟨w, hw, hmask⟩ := ih
    obtain ⟨v, hv, hset⟩ := Words.setBit?_eq w b
    refine ⟨v, ?_, ?_⟩
    · rw [words?, hw]
      exact hv
    · rw [hset, hmask]
      rfl
  | or r q ihr ihq =>
    obtain ⟨w, hw, hr⟩ := ihr
    obtain ⟨v, hv, hq⟩ := ihq
    refine ⟨w.or v, ?_, ?_⟩
    · rw [words?, hw, hv]
      rfl
    · rw [Words.mask_or, hr, hq]
      rfl
  | and r q ihr ihq =>
    obtain ⟨w, hw, hr⟩ := ihr
    obtain ⟨v, hv, hq⟩ := ihq
    refine ⟨w.and v, ?_, ?_⟩
    · rw [words?, hw, hv]
      rfl
    · rw [Words.mask_and, hr, hq]
      rfl

/-- However a mask is made, in words it is made without being stopped, so is everything that is asked of
it, and the answers are those of the ordered set of the bytes that are meant. -/
theorem orders_bytes (r : Recipe) :
    ∃ w, r.words? = some w ∧ w.Mirrors r.mask ∧ r.mask.Orders r.bytes := by
  obtain ⟨w, hw, hmask⟩ := words?_eq r
  refine ⟨w, hw, ?_, ByteMask.orders (contains_mask_iff r)⟩
  rw [← hmask]
  exact w.mirrors

example : (words? (ofBytes [255, 64, 0, 63])).bind (fun w => w.prevBit? 64) = some (some 63) := by
  decide

end Recipe

end ByteTrie
