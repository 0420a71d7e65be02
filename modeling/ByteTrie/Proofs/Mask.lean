import ByteTrie.Proofs.Canonical
import Mathlib

/-!
# Masks as ascending sets of bytes

A mask lists its bytes in ascending order, so an ascending list of bytes comes back from the mask
made of it.  The neighbours of a byte are found by bit scans: shifted down past the byte, the lowest
bit that is set; masked below the byte, the highest one.

    next? m b = some c   iff  c is the least byte of m above b
    prev? m b = some c   iff  c is the greatest byte of m below b
    rank m b = i         when  b is the byte at index i of the list
-/

namespace ByteTrie

namespace ByteMask

variable {m : ByteMask} {b c : UInt8}

/-! ## Listing -/

theorem pairwise_bytes : ((List.range 256).map UInt8.ofNat).Pairwise (· < ·) := by
  rw [List.pairwise_map]
  refine List.pairwise_lt_range.imp_of_mem fun ha hb hlt => ?_
  rw [List.mem_range] at ha hb
  rw [UInt8.lt_iff_toNat_lt, UInt8.toNat_ofNat_of_lt' ha, UInt8.toNat_ofNat_of_lt' hb]
  exact hlt

theorem pairwise_toList (m : ByteMask) : m.toList.Pairwise (· < ·) :=
  pairwise_bytes.sublist List.filter_sublist

theorem mem_toList (m : ByteMask) (b : UInt8) : b ∈ m.toList ↔ m.contains b = true := by
  rw [toList, List.mem_filter, List.mem_map]
  constructor
  · exact fun h => h.2
  · intro h
    exact ⟨⟨b.toNat, List.mem_range.mpr b.toNat_lt, UInt8.ofNat_toNat⟩, h⟩

theorem eq_of_pairwise_of_mem_iff {bs cs : List UInt8} (hb : bs.Pairwise (· < ·))
    (hc : cs.Pairwise (· < ·)) (h : ∀ b, b ∈ bs ↔ b ∈ cs) : bs = cs := by
  have antisymm : Std.Antisymm (α := UInt8) (· < ·) :=
    ⟨fun a b hab hba => absurd hba (UInt8.lt_asymm hab)⟩
  have irrefl : Std.Irrefl (α := UInt8) (· < ·) := ⟨UInt8.lt_irrefl⟩
  exact hb.eq_of_mem_iff hc h

/-- The mask of an ascending list of bytes lists them. -/
theorem toList_ofList {bs : List UInt8} (h : bs.Pairwise (· < ·)) : (ofList bs).toList = bs := by
  refine eq_of_pairwise_of_mem_iff (pairwise_toList _) h fun b => ?_
  rw [mem_toList, contains_ofList]

theorem singleton_eq_ofList (b : UInt8) : singleton b = ofList [b] := rfl

/-! ## Neighbours -/

/-- `c` is the least byte of `m` above `b`. -/
def IsNext (m : ByteMask) (b c : UInt8) : Prop :=
  b < c ∧ m.contains c = true ∧ ∀ d, b < d → m.contains d = true → c ≤ d

/-- `c` is the greatest byte of `m` below `b`. -/
def IsPrev (m : ByteMask) (b c : UInt8) : Prop :=
  c < b ∧ m.contains c = true ∧ ∀ d, d < b → m.contains d = true → d ≤ c

theorem contains_ofNat {n : Nat} (h : n < 256) : m.contains (UInt8.ofNat n) = m.bits.getLsbD n := by
  rw [contains, UInt8.toNat_ofNat_of_lt' h]

theorem getLsbD_above (m : ByteMask) (b : UInt8) (i : Nat) :
    (m.bits >>> (b.toNat + 1)).getLsbD i = m.bits.getLsbD (b.toNat + 1 + i) :=
  BitVec.getLsbD_ushiftRight _ _ _

/-- Without a bit above that of `b`, no byte above `b` is there. -/
theorem not_contains_of_above_eq_zero (h : m.bits >>> (b.toNat + 1) = 0#256) {d : UInt8}
    (hd : b < d) : m.contains d = false := by
  have hbit := getLsbD_above m b (d.toNat - (b.toNat + 1))
  rw [h, BitVec.getLsbD_zero] at hbit
  have hlt := UInt8.lt_iff_toNat_lt.mp hd
  rw [contains, hbit]
  congr 1
  omega

theorem isNext_of_above_ne_zero (h : m.bits >>> (b.toNat + 1) ≠ 0#256) :
    m.IsNext b (UInt8.ofNat (b.toNat + 1 + (m.bits >>> (b.toNat + 1)).ctz.toNat)) := by
  have hset := BitVec.getLsbD_true_ctz_of_ne_zero h
  have hlow := fun i => BitVec.getLsbD_false_of_lt_ctz (i := i) (x := m.bits >>> (b.toNat + 1))
  generalize (m.bits >>> (b.toNat + 1)).ctz.toNat = i at hset hlow ⊢
  rw [getLsbD_above] at hset
  have hi : b.toNat + 1 + i < 256 := BitVec.lt_of_getLsbD hset
  refine ⟨?_, by rwa [contains_ofNat hi], fun d hd hdm => ?_⟩
  · rw [UInt8.lt_iff_toNat_lt, UInt8.toNat_ofNat_of_lt' hi]
    omega
  · rw [UInt8.le_iff_toNat_le, UInt8.toNat_ofNat_of_lt' hi]
    by_contra hlt
    have hbd := UInt8.lt_iff_toNat_lt.mp hd
    have hbit := hlow (d.toNat - (b.toNat + 1)) (by omega)
    rw [getLsbD_above, Nat.add_sub_cancel' hbd] at hbit
    rw [contains, hbit] at hdm
    cases hdm

theorem IsNext.unique {d : UInt8} (hc : m.IsNext b c) (hd : m.IsNext b d) : c = d :=
  UInt8.le_antisymm (hc.2.2 d hd.1 hd.2.1) (hd.2.2 c hc.1 hc.2.1)

theorem next?_eq_some_iff : m.next? b = some c ↔ m.IsNext b c := by
  rw [next?]
  split
  · next h =>
    refine ⟨fun hn => absurd hn.symm (Option.some_ne_none c), fun hc => ?_⟩
    have hn := not_contains_of_above_eq_zero h hc.1
    rw [hc.2.1] at hn
    cases hn
  · next h =>
    have hnext := isNext_of_above_ne_zero h
    rw [Option.some.injEq]
    constructor
    · rintro rfl
      exact hnext
    · exact hnext.unique

theorem twoPow_sub_one {w n : Nat} (hn : n < w) :
    BitVec.twoPow w n - 1#w = BitVec.ofNat w (2 ^ n - 1) := by
  have hlt : 2 ^ n < 2 ^ w := Nat.pow_lt_pow_right (by decide) hn
  have hpos : 0 < 2 ^ n := Nat.two_pow_pos n
  apply BitVec.eq_of_toNat_eq
  rw [BitVec.toNat_sub_of_le, BitVec.toNat_twoPow_of_lt hn, BitVec.toNat_ofNat, BitVec.toNat_ofNat,
    Nat.mod_eq_of_lt (by omega), Nat.mod_eq_of_lt (by omega)]
  rw [BitVec.le_def, BitVec.toNat_twoPow_of_lt hn, BitVec.toNat_ofNat, Nat.mod_eq_of_lt (by omega)]
  exact hpos

/-- One less than the bit at `n` is the mask of the bits below it. -/
theorem getLsbD_and_twoPow_sub_one {w n : Nat} (x : BitVec w) (hn : n < w) (i : Nat) :
    (x &&& (BitVec.twoPow w n - 1#w)).getLsbD i = (x.getLsbD i && decide (i < n)) := by
  rw [BitVec.getLsbD_and, twoPow_sub_one hn, BitVec.getLsbD_ofNat, Nat.testBit_two_pow_sub_one]
  by_cases hi : i < w
  · simp [hi]
  · rw [BitVec.getLsbD_of_ge _ _ (Nat.le_of_not_lt hi)]
    rfl

theorem getLsbD_below (m : ByteMask) {n : Nat} (hn : n < 256) (i : Nat) :
    (m.below n).getLsbD i = (m.bits.getLsbD i && decide (i < n)) :=
  getLsbD_and_twoPow_sub_one m.bits hn i

theorem contains_eq_below {d : UInt8} (hd : d < b) :
    m.contains d = (m.below b.toNat).getLsbD d.toNat := by
  rw [getLsbD_below m b.toNat_lt, decide_eq_true (UInt8.lt_iff_toNat_lt.mp hd), Bool.and_true]
  rfl

theorem isPrev_of_below_ne_zero (h : m.below b.toNat ≠ 0#256) :
    m.IsPrev b (UInt8.ofNat (255 - (m.below b.toNat).clz.toNat)) := by
  have hset := BitVec.getLsbD_true_clz_of_ne_zero (by decide) h
  have hhigh := BitVec.toNat_lt_two_pow_sub_clz (x := m.below b.toNat)
  generalize (m.below b.toNat).clz.toNat = i at hset hhigh ⊢
  have hi : (UInt8.ofNat (255 - i)).toNat = 255 - i :=
    UInt8.toNat_ofNat_of_lt' (show 255 - i < 256 by omega)
  rw [getLsbD_below m b.toNat_lt, Bool.and_eq_true, decide_eq_true_iff] at hset
  refine ⟨?_, ?_, fun d hd hdm => ?_⟩
  · rw [UInt8.lt_iff_toNat_lt, hi]
    exact hset.2
  · rw [contains, hi]
    exact hset.1
  · rw [UInt8.le_iff_toNat_le, hi]
    by_contra hlt
    rw [contains_eq_below hd] at hdm
    have hzero : (m.below b.toNat).getLsbD d.toNat = false :=
      Nat.testBit_lt_two_pow (Nat.lt_of_lt_of_le hhigh (Nat.pow_le_pow_right (by decide) (by omega)))
    rw [hzero] at hdm
    cases hdm

theorem IsPrev.unique {d : UInt8} (hc : m.IsPrev b c) (hd : m.IsPrev b d) : c = d :=
  UInt8.le_antisymm (hd.2.2 c hc.1 hc.2.1) (hc.2.2 d hd.1 hd.2.1)

theorem prev?_eq_some_iff : m.prev? b = some c ↔ m.IsPrev b c := by
  rw [prev?]
  split
  · next h =>
    refine ⟨fun hn => absurd hn.symm (Option.some_ne_none c), fun hc => ?_⟩
    have hn := hc.2.1
    rw [contains_eq_below hc.1, h, BitVec.getLsbD_zero] at hn
    cases hn
  · next h =>
    have hprev := isPrev_of_below_ne_zero h
    rw [Option.some.injEq]
    constructor
    · rintro rfl
      exact hprev
    · exact hprev.unique

/-! ## Rank -/

theorem cpopNatRec_eq_countP {w : Nat} (x : BitVec w) (n : Nat) :
    x.cpopNatRec n 0 = (List.range n).countP x.getLsbD := by
  induction n with
  | zero => rfl
  | succ n ih =>
    rw [BitVec.cpopNatRec_succ, BitVec.cpopNatRec_eq, ih, List.range_succ, List.countP_append,
      List.countP_singleton, Nat.zero_add]
    cases x.getLsbD n <;> rfl

theorem cpop_and_twoPow_sub_one {w n : Nat} (x : BitVec w) (hn : n < w) :
    (x &&& (BitVec.twoPow w n - 1#w)).cpop.toNat = (List.range n).countP x.getLsbD := by
  have hrange : List.range w = List.range n ++ (List.range (w - n)).map (n + ·) := by
    rw [← List.range_add, Nat.add_sub_cancel' (Nat.le_of_lt hn)]
  have hlow : ∀ i ∈ List.range n,
      (x &&& (BitVec.twoPow w n - 1#w)).getLsbD i = true ↔ x.getLsbD i = true := by
    intro i hi
    rw [getLsbD_and_twoPow_sub_one x hn, decide_eq_true (List.mem_range.mp hi), Bool.and_true]
  have hhigh : ∀ i ∈ (List.range (w - n)).map (n + ·),
      ¬ (x &&& (BitVec.twoPow w n - 1#w)).getLsbD i = true := by
    intro i hi
    obtain ⟨j, -, rfl⟩ := List.mem_map.mp hi
    rw [getLsbD_and_twoPow_sub_one x hn, decide_eq_false (by omega), Bool.and_false]
    exact Bool.false_ne_true
  rw [BitVec.toNat_cpop, cpopNatRec_eq_countP, hrange, List.countP_append, List.countP_congr hlow,
    List.countP_eq_zero.mpr hhigh, Nat.add_zero]

theorem rank_eq_countP (m : ByteMask) (b : UInt8) :
    m.rank b = (List.range b.toNat).countP m.bits.getLsbD :=
  cpop_and_twoPow_sub_one m.bits b.toNat_lt

/-- The rank of a byte is the number of bytes of the mask below it. -/
theorem rank_eq_length (m : ByteMask) (b : UInt8) :
    m.rank b = (m.toList.filter fun c => decide (c < b)).length := by
  rw [rank, BitVec.toNat_cpop, cpopNatRec_eq_countP, toList, List.filter_filter, List.filter_map,
    List.length_map, List.countP_eq_length_filter]
  congr 1
  refine List.filter_congr fun i hi => ?_
  have hi := List.mem_range.mp hi
  have hlt : UInt8.ofNat i < b ↔ i < b.toNat := by
    rw [UInt8.lt_iff_toNat_lt, UInt8.toNat_ofNat_of_lt' hi]
  rw [getLsbD_below m b.toNat_lt, Function.comp_apply, contains_ofNat hi, Bool.and_comm,
    decide_eq_decide.mpr hlt]

theorem length_filter_lt {bs : List UInt8} (h : bs.Pairwise (· < ·)) {i : Nat}
    (hi : bs[i]? = some b) : (bs.filter fun c => decide (c < b)).length = i := by
  induction bs generalizing i with
  | nil => cases hi
  | cons a bs ih =>
    obtain ⟨hlt, hbs⟩ := List.pairwise_cons.mp h
    cases i with
    | zero =>
      obtain rfl : a = b := Option.some.inj hi
      have hnone : ∀ c ∈ a :: bs, ¬ decide (c < a) = true := fun c hc => by
        rw [decide_eq_true_iff]
        rcases List.mem_cons.mp hc with rfl | hc
        · exact UInt8.lt_irrefl _
        · exact UInt8.lt_asymm (hlt c hc)
      rw [List.filter_eq_nil_iff.mpr hnone]
      rfl
    | succ i =>
      have hab : a < b := hlt b (List.mem_of_getElem? hi)
      rw [List.filter_cons, if_pos (decide_eq_true hab), List.length_cons, ih hbs hi]

/-- In a mask made of an ascending list, the rank of a byte is its index. -/
theorem rank_ofList {bs : List UInt8} (h : bs.Pairwise (· < ·)) {i : Nat} (hi : bs[i]? = some b) :
    (ofList bs).rank b = i := by
  rw [rank_eq_length, toList_ofList h, length_filter_lt h hi]

/-- In the mask of ascending edges, the rank of the byte that an edge starts with is its index. -/
theorem rank_firsts {es : List (Edge Trie)} (h : es.Pairwise fun e f => e.first < f.first) {i : Nat}
    {e : Edge Trie} (hi : es[i]? = some e) : (ofList (es.map fun e => e.first)).rank e.first = i := by
  refine rank_ofList (List.pairwise_map.mpr h) ?_
  rw [List.getElem?_map, hi, Option.map_some]

end ByteMask

end ByteTrie
