import ByteTrie.Proofs.Words
import Mathlib

/-!
# Scanning words

The neighbours of a byte are found by a scan that starts inside its word and goes on word by word, and the
bytes of a mask are listed by taking the lowest bit out of the first word that has one, again and again.

    m.IsFirst lo r      r is the least byte of m from lo on, if there is one
    m.IsLast hi r       r is the greatest byte of m below hi, if there is one
    it.Lists bs         bs are the bytes that are still to come
-/

namespace ByteTrie

open Range.Checked

/-! ## The first and the last byte -/

namespace ByteMask

/-- The least byte of a mask from `lo` on, if there is one. -/
def IsFirst (m : ByteMask) (lo : Nat) : Option UInt8 → Prop
  | some c => lo ≤ c.toNat ∧ m.contains c = true ∧ ∀ d, lo ≤ d.toNat → m.contains d = true → c ≤ d
  | none => ∀ d, lo ≤ d.toNat → m.contains d = false

/-- The greatest byte of a mask below `hi`, if there is one. -/
def IsLast (m : ByteMask) (hi : Nat) : Option UInt8 → Prop
  | some c => c.toNat < hi ∧ m.contains c = true ∧ ∀ d, d.toNat < hi → m.contains d = true → d ≤ c
  | none => ∀ d, d.toNat < hi → m.contains d = false

section

variable {m : ByteMask} {b : UInt8} {lo lo' hi hi' : Nat} {r : Option UInt8}

theorem IsFirst.next? (h : m.IsFirst (b.toNat + 1) r) : m.next? b = r := by
  cases r with
  | some c =>
    obtain ⟨hlt, hc, hle⟩ := h
    refine next?_eq_some_iff.mpr ⟨UInt8.lt_iff_toNat_lt.mpr hlt, hc, fun d hd => ?_⟩
    exact hle d (UInt8.lt_iff_toNat_lt.mp hd)
  | none =>
    rw [Option.eq_none_iff_forall_ne_some]
    intro c hc
    obtain ⟨hlt, hmem, -⟩ := next?_eq_some_iff.mp hc
    rw [h c (UInt8.lt_iff_toNat_lt.mp hlt)] at hmem
    cases hmem

theorem IsLast.prev? (h : m.IsLast b.toNat r) : m.prev? b = r := by
  cases r with
  | some c =>
    obtain ⟨hlt, hc, hle⟩ := h
    refine prev?_eq_some_iff.mpr ⟨UInt8.lt_iff_toNat_lt.mpr hlt, hc, fun d hd => ?_⟩
    exact hle d (UInt8.lt_iff_toNat_lt.mp hd)
  | none =>
    rw [Option.eq_none_iff_forall_ne_some]
    intro c hc
    obtain ⟨hlt, hmem, -⟩ := prev?_eq_some_iff.mp hc
    rw [h c (UInt8.lt_iff_toNat_lt.mp hlt)] at hmem
    cases hmem

/-- Where no byte is between two bounds, the first one is the same from both. -/
theorem IsFirst.of_le (h : m.IsFirst lo' r) (hle : lo ≤ lo')
    (hnone : ∀ d : UInt8, lo ≤ d.toNat → d.toNat < lo' → m.contains d = false) : m.IsFirst lo r := by
  have later : ∀ d : UInt8, lo ≤ d.toNat → m.contains d = true → lo' ≤ d.toNat := by
    intro d hd hmem
    by_contra hlt
    rw [hnone d hd (Nat.lt_of_not_le hlt)] at hmem
    cases hmem
  cases r with
  | some c =>
    obtain ⟨hc, hmem, hleast⟩ := h
    exact ⟨Nat.le_trans hle hc, hmem, fun d hd hdm => hleast d (later d hd hdm) hdm⟩
  | none =>
    intro d hd
    by_contra hmem
    rw [Bool.not_eq_false] at hmem
    have hempty := h d (later d hd hmem)
    rw [hmem] at hempty
    cases hempty

theorem IsLast.of_le (h : m.IsLast hi' r) (hle : hi' ≤ hi)
    (hnone : ∀ d : UInt8, hi' ≤ d.toNat → d.toNat < hi → m.contains d = false) : m.IsLast hi r := by
  have earlier : ∀ d : UInt8, d.toNat < hi → m.contains d = true → d.toNat < hi' := by
    intro d hd hmem
    by_contra hge
    rw [hnone d (Nat.le_of_not_lt hge) hd] at hmem
    cases hmem
  cases r with
  | some c =>
    obtain ⟨hc, hmem, hgreatest⟩ := h
    exact ⟨Nat.lt_of_lt_of_le hc hle, hmem, fun d hd hdm => hgreatest d (earlier d hd hdm) hdm⟩
  | none =>
    intro d hd
    by_contra hmem
    rw [Bool.not_eq_false] at hmem
    have hempty := h d (earlier d hd hmem)
    rw [hmem] at hempty
    cases hempty

end

end ByteMask

namespace Words

variable {w v : Words} {b : UInt8} {i j lo hi : Nat} {bits : Word}
  {bs : List UInt8} {it : Iter}

theorem contains_ofNat_mul_add (w : Words) (hi : i < 4) (hj : j < 64) :
    w.mask.contains (UInt8.ofNat (i * 64 + j)) = (w.word i).getLsbD j := by
  rw [ByteMask.contains_ofNat (by omega), getLsbD_mask_mul_add w hj]

/-! ## Upwards -/

/-- `bits` are those of the word at `i`, from the byte `lo` on. -/
structure IsUpper (w : Words) (i lo : Nat) (bits : Word) : Prop where
  le : i * 64 ≤ lo
  bit : ∀ j < 64, bits.getLsbD j = (decide (lo ≤ i * 64 + j) && (w.word i).getLsbD j)

theorem isUpper_word (w : Words) (i : Nat) : w.IsUpper i (i * 64) (w.word i) := by
  refine ⟨Nat.le_refl _, fun j _ => ?_⟩
  rw [decide_eq_true (Nat.le_add_right _ _), Bool.true_and]

theorem IsUpper.isFirst (h : w.IsUpper i lo bits) (hi : i < 4) (hbits : bits ≠ 0#64) :
    w.mask.IsFirst lo (some (UInt8.ofNat (i * 64 + bits.ctz.toNat))) := by
  have hset := BitVec.getLsbD_true_ctz_of_ne_zero hbits
  have hlow := fun j => BitVec.getLsbD_false_of_lt_ctz (i := j) (x := bits)
  generalize bits.ctz.toNat = t at hset hlow ⊢
  have ht : t < 64 := BitVec.lt_of_getLsbD hset
  have hbyte : (UInt8.ofNat (i * 64 + t)).toNat = i * 64 + t :=
    UInt8.toNat_ofNat_of_lt' (show i * 64 + t < 256 by omega)
  rw [h.bit t ht, Bool.and_eq_true, decide_eq_true_iff] at hset
  refine ⟨?_, ?_, fun d hd hmem => ?_⟩
  · rw [hbyte]
    exact hset.1
  · rw [contains_ofNat_mul_add w hi ht]
    exact hset.2
  · rw [UInt8.le_iff_toNat_le, hbyte]
    by_contra hlt
    -- a lesser byte from `lo` on is in the same word, and its bit is lower
    have hle := h.le
    have hdiv : d.toNat / 64 = i := by omega
    have hbit := h.bit (d.toNat % 64) (by omega)
    rw [hlow _ (by omega), decide_eq_true (by omega), Bool.true_and, ← hdiv, ← contains_mask,
      hmem] at hbit
    cases hbit

theorem IsUpper.not_contains (h : w.IsUpper i lo bits) (hbits : bits = 0#64) (d : UInt8)
    (hd : lo ≤ d.toNat) (hlt : d.toNat < (i + 1) * 64) : w.mask.contains d = false := by
  have hle := h.le
  have hdiv : d.toNat / 64 = i := by omega
  have hbit := h.bit (d.toNat % 64) (by omega)
  rw [hbits, BitVec.getLsbD_zero, decide_eq_true (by omega), Bool.true_and, ← hdiv,
    ← contains_mask] at hbit
  exact hbit.symm

theorem not_contains_of_word_eq_zero (hzero : w.word i = 0#64) (d : UInt8)
    (hd : i * 64 ≤ d.toNat) (hlt : d.toNat < (i + 1) * 64) : w.mask.contains d = false :=
  (isUpper_word w i).not_contains hzero d hd hlt

/-- The search goes on through the words behind; the induction is on how many there are. -/
theorem scanUp?_isFirst {n : Nat} (hn : i + n = 3) (h : w.IsUpper i lo bits)
    (hlo : lo ≤ (i + 1) * 64) : ∃ r, w.scanUp? i bits = some r ∧ w.mask.IsFirst lo r := by
  induction n generalizing i lo bits with
  | zero =>
    obtain rfl : i = 3 := by omega
    rw [scanUp?]
    by_cases hbits : bits = 0#64
    · rw [if_neg (not_not.mpr hbits), if_pos rfl]
      refine ⟨none, rfl, fun d hd => h.not_contains hbits d hd ?_⟩
      exact d.toNat_lt
    · rw [if_pos hbits, Word.lowest?_eq (by decide) hbits]
      exact ⟨_, rfl, h.isFirst (by decide) hbits⟩
  | succ n ih =>
    rw [scanUp?]
    by_cases hbits : bits = 0#64
    · rw [if_neg (not_not.mpr hbits), if_neg (by omega)]
      have hword := word?_eq (w := w) (i := i + 1) (by omega)
      split
      · next hnone =>
        rw [hword] at hnone
        cases hnone
      · next later hlater =>
        rw [hword] at hlater
        obtain rfl := Option.some.inj hlater
        obtain ⟨r, hr, hfirst⟩ := ih (by omega) (isUpper_word w (i + 1)) (by omega)
        exact ⟨r, hr, hfirst.of_le hlo (h.not_contains hbits)⟩
    · rw [if_pos hbits, Word.lowest?_eq (by omega) hbits]
      exact ⟨_, rfl, h.isFirst (by omega) hbits⟩

theorem nextBit?_eq (w : Words) (b : UInt8) : w.nextBit? b = some (w.mask.next? b) := by
  have hb := b.toNat_lt
  have hword : (b.toNat + 1) >>> 6 = (b.toNat + 1) / 64 := Nat.shiftRight_eq_div_pow _ 6
  have hshift : (b.toNat + 1) &&& 63 = (b.toNat + 1) % 64 := Nat.and_two_pow_sub_one_eq_mod _ 6
  rw [nextBit?]
  simp only [hword, hshift]
  by_cases hlast : (b.toNat + 1) / 64 = 4
  · have hnone : w.mask.IsFirst (b.toNat + 1) none := by
      intro d hd
      have hdlt := d.toNat_lt
      omega
    rw [if_pos hlast, hnone.next?]
    rfl
  · have hmod : (b.toNat + 1) % 64 < 64 := Nat.mod_lt _ (by decide)
    rw [if_neg hlast, word?_eq (by omega), Word.shiftLeft?_eq hmod]
    simp only [Option.bind_eq_bind, Option.bind_some]
    have hupper : w.IsUpper ((b.toNat + 1) / 64) (b.toNat + 1)
        (w.word ((b.toNat + 1) / 64) &&& (BitVec.allOnes 64 <<< ((b.toNat + 1) % 64))) := by
      refine ⟨by omega, fun j hj => ?_⟩
      have hiff : (j < (b.toNat + 1) % 64) ↔ ¬ (b.toNat + 1 ≤ (b.toNat + 1) / 64 * 64 + j) := by omega
      rw [BitVec.getLsbD_and, BitVec.getLsbD_shiftLeft, BitVec.getLsbD_allOnes, Bool.and_comm]
      by_cases hle : b.toNat + 1 ≤ (b.toNat + 1) / 64 * 64 + j
      · have hge : ¬ j < (b.toNat + 1) % 64 := fun hlt => hiff.mp hlt hle
        have hdiff : j - (b.toNat + 1) % 64 < 64 := by omega
        simp [hj, hle, hge, hdiff]
      · have hlt : j < (b.toNat + 1) % 64 := hiff.mpr hle
        simp [hle, hlt]
    obtain ⟨r, hr, hfirst⟩ := scanUp?_isFirst (n := 3 - (b.toNat + 1) / 64) (by omega) hupper (by omega)
    rw [hr, hfirst.next?]

/-! ## Downwards -/

/-- `bits` are those of the word at `i`, up to the byte `hi`. -/
structure IsLower (w : Words) (i hi : Nat) (bits : Word) : Prop where
  le : hi ≤ (i + 1) * 64
  bit : ∀ j < 64, bits.getLsbD j = (decide (i * 64 + j < hi) && (w.word i).getLsbD j)

theorem isLower_word (w : Words) (i : Nat) : w.IsLower i ((i + 1) * 64) (w.word i) := by
  refine ⟨Nat.le_refl _, fun j hj => ?_⟩
  rw [decide_eq_true (by omega), Bool.true_and]

theorem IsLower.isLast (h : w.IsLower i hi bits) (hi4 : i < 4) (hbits : bits ≠ 0#64) :
    w.mask.IsLast hi (some (UInt8.ofNat (i * 64 + 63 - bits.clz.toNat))) := by
  have hset := BitVec.getLsbD_true_clz_of_ne_zero (by decide) hbits
  have hhigh := BitVec.toNat_lt_two_pow_sub_clz (x := bits)
  have hclz := Word.clz_lt hbits
  generalize bits.clz.toNat = z at hset hhigh hclz ⊢
  have hsum : i * 64 + 63 - z = i * 64 + (63 - z) := by omega
  have hplace : 64 - 1 - z = 63 - z := by omega
  have hbyte : (UInt8.ofNat (i * 64 + (63 - z))).toNat = i * 64 + (63 - z) :=
    UInt8.toNat_ofNat_of_lt' (show i * 64 + (63 - z) < 256 by omega)
  rw [hplace, h.bit _ (by omega), Bool.and_eq_true, decide_eq_true_iff] at hset
  rw [hsum]
  refine ⟨?_, ?_, fun d hd hmem => ?_⟩
  · rw [hbyte]
    exact hset.1
  · rw [contains_ofNat_mul_add w hi4 (by omega)]
    exact hset.2
  · rw [UInt8.le_iff_toNat_le, hbyte]
    by_contra hlt
    have hle := h.le
    have hdiv : d.toNat / 64 = i := by omega
    have hbit := h.bit (d.toNat % 64) (by omega)
    have hzero : bits.getLsbD (d.toNat % 64) = false :=
      Nat.testBit_lt_two_pow (Nat.lt_of_lt_of_le hhigh (Nat.pow_le_pow_right (by decide) (by omega)))
    rw [hzero, decide_eq_true (by omega), Bool.true_and, ← hdiv, ← contains_mask, hmem] at hbit
    cases hbit

theorem IsLower.not_contains (h : w.IsLower i hi bits) (hbits : bits = 0#64) (d : UInt8)
    (hd : i * 64 ≤ d.toNat) (hlt : d.toNat < hi) : w.mask.contains d = false := by
  have hle := h.le
  have hdiv : d.toNat / 64 = i := by omega
  have hbit := h.bit (d.toNat % 64) (by omega)
  rw [hbits, BitVec.getLsbD_zero, decide_eq_true (by omega), Bool.true_and, ← hdiv,
    ← contains_mask] at hbit
  exact hbit.symm

theorem scanDown?_isLast (hi4 : i < 4) (h : w.IsLower i hi bits) (hhi : i * 64 ≤ hi) :
    ∃ r, w.scanDown? i bits = some r ∧ w.mask.IsLast hi r := by
  induction i generalizing hi bits with
  | zero =>
    rw [scanDown?]
    by_cases hbits : bits = 0#64
    · rw [if_neg (not_not.mpr hbits)]
      refine ⟨none, rfl, fun d hd => h.not_contains hbits d ?_ hd⟩
      omega
    · rw [if_pos hbits, Word.highest?_eq hi4 hbits]
      exact ⟨_, rfl, h.isLast hi4 hbits⟩
  | succ i ih =>
    rw [scanDown?]
    by_cases hbits : bits = 0#64
    · obtain ⟨r, hr, hlast⟩ := ih (by omega) (isLower_word w i) (by omega)
      rw [if_neg (not_not.mpr hbits), word?_eq (by omega)]
      exact ⟨r, hr, hlast.of_le hhi (h.not_contains hbits)⟩
    · rw [if_pos hbits, Word.highest?_eq hi4 hbits]
      exact ⟨_, rfl, h.isLast hi4 hbits⟩

theorem prevBit?_eq (w : Words) (b : UInt8) : w.prevBit? b = some (w.mask.prev? b) := by
  have hb := b.toNat_lt
  have hword : (b.toNat - 1) >>> 6 = (b.toNat - 1) / 64 := Nat.shiftRight_eq_div_pow _ 6
  have hshift : (b.toNat - 1) &&& 63 = (b.toNat - 1) % 64 := Nat.and_two_pow_sub_one_eq_mod _ 6
  rw [prevBit?]
  simp only [hword, hshift]
  by_cases hzero : b.toNat = 0
  · have hnone : w.mask.IsLast b.toNat none := by
      intro d hd
      omega
    rw [if_pos hzero, hnone.prev?]
    rfl
  · have hmod : (b.toNat - 1) % 64 < 64 := Nat.mod_lt _ (by decide)
    rw [if_neg hzero, sub?_eq (by omega), word?_eq (by omega)]
    simp only [Option.bind_eq_bind, Option.bind_some]
    rw [Word.shiftRight?_eq (by omega)]
    simp only [Option.bind_some]
    have hlower : w.IsLower ((b.toNat - 1) / 64) b.toNat
        (w.word ((b.toNat - 1) / 64) &&& (BitVec.allOnes 64 >>> (63 - (b.toNat - 1) % 64))) := by
      refine ⟨by omega, fun j hj => ?_⟩
      have hiff : (63 - (b.toNat - 1) % 64 + j < 64) ↔ (b.toNat - 1) / 64 * 64 + j < b.toNat := by omega
      rw [BitVec.getLsbD_and, BitVec.getLsbD_ushiftRight, BitVec.getLsbD_allOnes,
        decide_eq_decide.mpr hiff, Bool.and_comm]
    obtain ⟨r, hr, hlast⟩ := scanDown?_isLast (by omega) hlower (by omega)
    rw [hr, hlast.prev?]

/-! ## One after the other -/

/-- The bytes that are still to come. -/
def Iter.Remains (it : Iter) (b : UInt8) : Prop :=
  it.word * 64 ≤ b.toNat ∧ it.words.mask.contains b = true

/-- The lowest bit is taken out of its word, and all other bytes are still to come. -/
theorem remains_clear (hi : it.word < 4) (hbits : it.words.word it.word ≠ 0#64)
    (hword : ∀ j, v.word j = if j = it.word
      then it.words.word it.word &&& (it.words.word it.word - 1#64) else it.words.word j) (b : UInt8) :
    Iter.Remains { it with words := v } b ↔ it.Remains b ∧
      b ≠ UInt8.ofNat (it.word * 64 + (it.words.word it.word).ctz.toNat) := by
  have hset := BitVec.getLsbD_true_ctz_of_ne_zero hbits
  have hclear := Word.getLsbD_and_pred hbits
  have hlt := BitVec.lt_of_getLsbD hset
  generalize (it.words.word it.word).ctz.toNat = t at hclear hlt ⊢
  have hbyte : (UInt8.ofNat (it.word * 64 + t)).toNat = it.word * 64 + t :=
    UInt8.toNat_ofNat_of_lt' (show it.word * 64 + t < 256 by omega)
  have heq : b = UInt8.ofNat (it.word * 64 + t) ↔ b.toNat / 64 = it.word ∧ b.toNat % 64 = t := by
    rw [← UInt8.toNat_inj, hbyte]
    omega
  unfold Iter.Remains
  simp only [contains_mask, hword]
  rw [and_assoc, and_congr_right_iff]
  intro _
  by_cases hdiv : b.toNat / 64 = it.word
  · rw [if_pos hdiv, hdiv, hclear, Bool.and_eq_true, decide_eq_true_iff, and_congr_right_iff]
    intro _
    rw [not_iff_not, heq, and_iff_right hdiv]
  · have hne : b ≠ UInt8.ofNat (it.word * 64 + t) := fun h => hdiv (heq.mp h).1
    rw [if_neg hdiv, and_iff_left hne]

/-- A step gives the first byte that is still to come, and leaves the others; the induction is on the words
that may be skipped. -/
theorem next?_isFirst {n : Nat} (hn : it.word + n = 4) : ∃ r later, it.next? = some (r, later) ∧
    it.words.mask.IsFirst (it.word * 64) r ∧
      ∀ c, r = some c → later.word ≤ 4 ∧ ∀ b, later.Remains b ↔ it.Remains b ∧ b ≠ c := by
  induction n generalizing it with
  | zero =>
    have hend : ¬ it.word < 4 := by omega
    rw [Iter.next?, dif_neg hend]
    refine ⟨none, it, rfl, fun d hd => ?_, fun c hc => by cases hc⟩
    have hdlt := d.toNat_lt
    omega
  | succ n ih =>
    have hi : it.word < 4 := by omega
    rw [Iter.next?, dif_pos hi, word?_eq hi]
    simp only [Option.bind_eq_bind, Option.bind_some]
    by_cases hbits : it.words.word it.word = 0#64
    · rw [if_neg (not_not.mpr hbits)]
      have hskip : ({ it with word := it.word + 1 } : Iter).word + n = 4 := by
        show it.word + 1 + n = 4
        omega
      obtain ⟨r, later, hnext, hfirst, hlater⟩ := ih hskip
      have hnone := not_contains_of_word_eq_zero hbits
      have hle : it.word * 64 ≤ (it.word + 1) * 64 := by omega
      refine ⟨r, later, hnext, hfirst.of_le hle hnone, fun c hc => ⟨(hlater c hc).1, fun b => ?_⟩⟩
      rw [(hlater c hc).2 b, and_congr_left_iff]
      intro _
      unfold Iter.Remains
      constructor
      · rintro ⟨hle, hmem⟩
        have hlater : (it.word + 1) * 64 ≤ b.toNat := hle
        exact ⟨by omega, hmem⟩
      · rintro ⟨hle, hmem⟩
        refine ⟨?_, hmem⟩
        by_contra hlt
        rw [hnone b hle (Nat.lt_of_not_le hlt)] at hmem
        cases hmem
    · obtain ⟨v, hv, hword⟩ := setWord?_eq it.words hi
        (it.words.word it.word &&& (it.words.word it.word - 1#64))
      rw [if_pos hbits, Word.pred?_eq hbits]
      simp only [Option.bind_some, hv, Word.lowest?_eq hi hbits, Option.pure_def]
      refine ⟨_, _, rfl, (isUpper_word it.words it.word).isFirst hi hbits, fun c hc => ?_⟩
      obtain rfl := Option.some.inj hc
      exact ⟨Nat.le_of_lt hi, remains_clear hi hbits hword⟩

/-- `bs` are the bytes that are still to come, in ascending order. -/
structure Iter.Lists (it : Iter) (bs : List UInt8) : Prop where
  word_le : it.word ≤ 4
  ascending : bs.Pairwise (· < ·)
  mem_iff : ∀ b, b ∈ bs ↔ it.Remains b

theorem Iter.Lists.next?_nil (h : it.Lists []) : ∃ later, it.next? = some (none, later) := by
  obtain ⟨r, later, hnext, hfirst, -⟩ := next?_isFirst (Nat.add_sub_cancel' h.word_le)
  cases r with
  | none => exact ⟨later, hnext⟩
  | some c =>
    obtain ⟨hle, hmem, -⟩ := hfirst
    exact absurd ((h.mem_iff c).mpr ⟨hle, hmem⟩) List.not_mem_nil

theorem Iter.Lists.next?_cons (h : it.Lists (b :: bs)) :
    ∃ later, it.next? = some (some b, later) ∧ later.Lists bs := by
  obtain ⟨r, later, hnext, hfirst, hlater⟩ := next?_isFirst (Nat.add_sub_cancel' h.word_le)
  obtain ⟨hlt, hasc⟩ := List.pairwise_cons.mp h.ascending
  obtain ⟨hle, hmem⟩ := (h.mem_iff b).mp List.mem_cons_self
  cases r with
  | none =>
    rw [hfirst b hle] at hmem
    cases hmem
  | some c =>
    obtain ⟨hcle, hcmem, hleast⟩ := hfirst
    obtain rfl : c = b := by
      have hcb := hleast b hle hmem
      rcases List.mem_cons.mp ((h.mem_iff c).mpr ⟨hcle, hcmem⟩) with hc | hc
      · exact hc
      · exact absurd (hlt c hc) (UInt8.not_lt.mpr hcb)
    obtain ⟨hword, hremains⟩ := hlater c rfl
    refine ⟨later, hnext, hword, hasc, fun d => ?_⟩
    rw [hremains, ← h.mem_iff, List.mem_cons]
    constructor
    · intro hd
      refine ⟨Or.inr hd, ?_⟩
      rintro rfl
      exact UInt8.lt_irrefl _ (hlt d hd)
    · rintro ⟨rfl | hd, hne⟩
      · exact absurd rfl hne
      · exact hd

theorem Iter.Lists.collect?_eq {n : Nat} (h : it.Lists bs) (hn : bs.length < n) :
    it.collect? n = some bs := by
  induction bs generalizing it n with
  | nil =>
    obtain ⟨n, rfl⟩ : ∃ k, n = k + 1 := Nat.exists_eq_add_one.mpr hn
    obtain ⟨later, hnext⟩ := h.next?_nil
    rw [Iter.collect?, hnext]
    rfl
  | cons b bs ih =>
    obtain ⟨n, rfl⟩ : ∃ k, n = k + 1 := Nat.exists_eq_add_one.mpr (Nat.zero_lt_of_lt hn)
    obtain ⟨later, hnext, hlater⟩ := h.next?_cons
    rw [Iter.collect?, hnext]
    simp only [Option.bind_eq_bind, Option.bind_some]
    rw [ih hlater (Nat.lt_of_succ_lt_succ hn)]
    rfl

theorem Iter.Lists.nth?_eq (h : it.Lists bs) (n : Nat) : it.nth? n = some bs[n]? := by
  induction bs generalizing it n with
  | nil =>
    obtain ⟨later, hnext⟩ := h.next?_nil
    cases n with
    | zero =>
      rw [Iter.nth?, hnext]
      rfl
    | succ n =>
      rw [Iter.nth?, hnext]
      rfl
  | cons b bs ih =>
    obtain ⟨later, hnext, hlater⟩ := h.next?_cons
    cases n with
    | zero =>
      rw [Iter.nth?, hnext]
      rfl
    | succ n =>
      rw [Iter.nth?, hnext]
      simp only [Option.bind_eq_bind, Option.bind_some]
      rw [ih hlater n, List.getElem?_cons_succ]

theorem lists_iter (w : Words) : w.iter.Lists w.mask.toList := by
  refine ⟨Nat.zero_le 4, ByteMask.pairwise_toList w.mask, fun b => ?_⟩
  rw [ByteMask.mem_toList, Iter.Remains]
  show _ ↔ 0 * 64 ≤ b.toNat ∧ _
  simp only [Nat.zero_mul, Nat.zero_le, true_and]
  rfl

theorem length_toList_le (m : ByteMask) : m.toList.length ≤ 256 := by
  rw [ByteMask.toList]
  refine Nat.le_trans (List.length_filter_le _ _) ?_
  simp

theorem collect?_eq (w : Words) : w.collect? = some w.mask.toList :=
  (lists_iter w).collect?_eq (Nat.lt_succ_of_le (length_toList_le w.mask))

theorem nth?_eq (w : Words) (i : Nat) : w.nth? i = some (w.mask.nth? i) :=
  (lists_iter w).nth?_eq i

end Words

end ByteTrie
