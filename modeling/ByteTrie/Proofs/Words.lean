import ByteTrie.Proofs.Mask
import ByteTrie.Proofs.Watched
import Mathlib

/-!
# Masks in words

A mask fits into four words of 64 bits, the one of the lowest bytes first.  Here every operation works on
the words, and it is watched: an index behind the last word stops it, so does a shift by the width of a word
or more, a difference below zero, and a byte that is none.  It is never stopped, and gives what the
operation gives on the mask.

    testBit? w b = some (w.mask.contains b)      indexOf? w b = some (w.mask.rank b)
    nextBit? w b = some (w.mask.next? b)         prevBit? w b = some (w.mask.prev? b)
    collect? w   = some w.mask.toList            nth? w i     = some (w.mask.nth? i)
-/

namespace ByteTrie

open Range.Checked

abbrev Word := BitVec 64

namespace Word

def shiftLeft? (x : Word) (n : Nat) : Option Word := if n < 64 then some (x <<< n) else none

def shiftRight? (x : Word) (n : Nat) : Option Word := if n < 64 then some (x >>> n) else none

/-- One less, of a word that is not 0. -/
def pred? (x : Word) : Option Word := if x = 0#64 then none else some (x - 1#64)

def ones (x : Word) : Nat := x.cpop.toNat

/-- The byte of the lowest bit of the word at `i`. -/
def lowest? (x : Word) (i : Nat) : Option UInt8 := byte? (i * 64 + x.ctz.toNat)

/-- The byte of the highest bit of the word at `i`. -/
def highest? (x : Word) (i : Nat) : Option UInt8 := do byte? (← sub? (i * 64 + 63) x.clz.toNat)

variable {x : Word} {n i : Nat}

theorem shiftLeft?_eq (h : n < 64) : shiftLeft? x n = some (x <<< n) := if_pos h

theorem shiftRight?_eq (h : n < 64) : shiftRight? x n = some (x >>> n) := if_pos h

theorem pred?_eq (h : x ≠ 0#64) : pred? x = some (x - 1#64) := if_neg h

theorem twoPow_ne_zero (h : n < 64) : BitVec.twoPow 64 n ≠ 0#64 := by
  intro hzero
  have hnat := congrArg BitVec.toNat hzero
  rw [BitVec.toNat_twoPow_of_lt h] at hnat
  exact Nat.ne_of_gt (Nat.two_pow_pos n) hnat

/-- A number and one less share all bits but the lowest one that is set; the induction is on its place. -/
theorem testBit_and_pred {m t : Nat} (hset : m.testBit t = true)
    (hlow : ∀ j < t, m.testBit j = false) (i : Nat) :
    (m &&& (m - 1)).testBit i = (m.testBit i && decide (i ≠ t)) := by
  induction t generalizing m i with
  | zero =>
    have hodd : m % 2 = 1 := by simpa using hset
    rw [Nat.testBit_and]
    cases i with
    | zero =>
      have heven : (m - 1) % 2 = 0 := by omega
      simp [heven]
    | succ i =>
      have hhalf : (m - 1) / 2 = m / 2 := by omega
      rw [Nat.testBit_succ, Nat.testBit_succ, hhalf]
      simp
  | succ t ih =>
    have heven : m % 2 = 0 := by simpa using hlow 0 (Nat.succ_pos t)
    cases i with
    | zero =>
      rw [Nat.testBit_and]
      simp [heven]
    | succ i =>
      have hhalf : (m - 1) / 2 = m / 2 - 1 := by omega
      have hbits := ih (m := m / 2) (by rwa [← Nat.testBit_succ]) (fun j hj => by
        rw [← Nat.testBit_succ]
        exact hlow (j + 1) (Nat.succ_lt_succ hj)) i
      rw [Nat.testBit_and] at hbits
      rw [Nat.testBit_and, Nat.testBit_succ, Nat.testBit_succ, hhalf, hbits]
      simp

theorem getLsbD_and_pred (h : x ≠ 0#64) (i : Nat) :
    (x &&& (x - 1#64)).getLsbD i = (x.getLsbD i && decide (i ≠ x.ctz.toNat)) := by
  have hone : 1#64 ≤ x := by
    rw [BitVec.le_def]
    apply Nat.one_le_iff_ne_zero.mpr
    intro hzero
    exact h (BitVec.eq_of_toNat_eq hzero)
  have hsub : (x - 1#64).toNat = x.toNat - 1 := BitVec.toNat_sub_of_le hone
  rw [BitVec.getLsbD, BitVec.toNat_and, hsub]
  exact testBit_and_pred (BitVec.getLsbD_true_ctz_of_ne_zero h)
    (fun j hj => BitVec.getLsbD_false_of_lt_ctz hj) i

theorem lowest?_eq (hi : i < 4) (h : x ≠ 0#64) :
    x.lowest? i = some (UInt8.ofNat (i * 64 + x.ctz.toNat)) := by
  have hlt := BitVec.lt_of_getLsbD (BitVec.getLsbD_true_ctz_of_ne_zero h)
  exact byte?_eq (by omega)

theorem clz_lt (h : x ≠ 0#64) : x.clz.toNat < 64 :=
  BitVec.lt_def.mp (BitVec.clz_lt_iff_ne_zero.mpr h)

theorem highest?_eq (hi : i < 4) (h : x ≠ 0#64) :
    x.highest? i = some (UInt8.ofNat (i * 64 + 63 - x.clz.toNat)) := by
  have hclz := clz_lt h
  rw [highest?, sub?_eq (by omega)]
  exact byte?_eq (by omega)

theorem ones_eq_countP (x : Word) : ones x = (List.range 64).countP x.getLsbD := by
  rw [ones, BitVec.toNat_cpop, ByteMask.cpopNatRec_eq_countP]

end Word

/-- The four words of a mask, the one of the lowest bytes first. -/
structure Words where
  words : Vector Word 4
deriving DecidableEq

namespace Words

def zero : Words := ⟨#v[0#64, 0#64, 0#64, 0#64]⟩

def word? (w : Words) (i : Nat) : Option Word := w.words[i]?

def setWord? (w : Words) (i : Nat) (x : Word) : Option Words :=
  if h : i < 4 then some ⟨w.words.set i x⟩ else none

/-- The word of a byte, and its bit in it. -/
def locate? (b : UInt8) : Option (Nat × Word) := do
  return ((b >>> 6).toNat, ← Word.shiftLeft? 1#64 (b &&& 63).toNat)

def testBit? (w : Words) (b : UInt8) : Option Bool := do
  let (i, bit) ← locate? b
  return (← w.word? i) &&& bit != 0#64

def setBit? (w : Words) (b : UInt8) : Option Words := do
  let (i, bit) ← locate? b
  w.setWord? i ((← w.word? i) ||| bit)

def len (w : Words) : Nat := total (w.words.toList.map Word.ones)

def isEmpty (w : Words) : Bool := w == zero

def or (w v : Words) : Words := ⟨Vector.ofFn fun i : Fin 4 => w.words[i] ||| v.words[i]⟩

def and (w v : Words) : Words := ⟨Vector.ofFn fun i : Fin 4 => w.words[i] &&& v.words[i]⟩

/-- The words in front of the one at `i`. -/
def before? (w : Words) (i : Nat) : Option (List Word) :=
  if i ≤ 4 then some (w.words.toList.take i) else none

def indexOf? (w : Words) (b : UInt8) : Option Nat := do
  let (i, bit) ← locate? b
  let below := total ((← w.before? i).map Word.ones)
  return below + Word.ones ((← w.word? i) &&& (← bit.pred?))

/-- The byte of the lowest bit of `bits`, and if there is none, of the words behind the one at `i`. -/
def scanUp? (w : Words) (i : Nat) (bits : Word) : Option (Option UInt8) :=
  if bits ≠ 0#64 then some <$> bits.lowest? i
  else if i + 1 = 4 then some none
  else match h : w.word? (i + 1) with
    | none => none
    | some bits => scanUp? w (i + 1) bits
termination_by 4 - i
decreasing_by
  obtain ⟨hlt, -⟩ := Vector.getElem?_eq_some_iff.mp h
  omega

def nextBit? (w : Words) (b : UInt8) : Option (Option UInt8) := do
  let start := b.toNat + 1
  let i := start >>> 6
  if i = 4 then return none
  else w.scanUp? i ((← w.word? i) &&& (← Word.shiftLeft? (BitVec.allOnes 64) (start &&& 63)))

/-- The byte of the highest bit of `bits`, and if there is none, of the words in front of the one at `i`. -/
def scanDown? (w : Words) (i : Nat) (bits : Word) : Option (Option UInt8) :=
  if bits ≠ 0#64 then some <$> bits.highest? i
  else match i with
    | 0 => some none
    | i + 1 => do w.scanDown? i (← w.word? i)

def prevBit? (w : Words) (b : UInt8) : Option (Option UInt8) := do
  if b.toNat = 0 then return none
  else
    let last := b.toNat - 1
    let i := last >>> 6
    let shift ← sub? 63 (last &&& 63)
    w.scanDown? i ((← w.word? i) &&& (← Word.shiftRight? (BitVec.allOnes 64) shift))

/-- The words with the bits that are still to come, and the index of the first that may have one. -/
structure Iter where
  words : Words
  word : Nat

def iter (w : Words) : Iter := ⟨w, 0⟩

namespace Iter

def next? (it : Iter) : Option (Option UInt8 × Iter) :=
  if _ : it.word < 4 then do
    let bits ← it.words.word? it.word
    if bits ≠ 0#64 then
      let words ← it.words.setWord? it.word (bits &&& (← bits.pred?))
      return (some (← bits.lowest? it.word), { it with words })
    else next? { it with word := it.word + 1 }
  else some (none, it)
termination_by 4 - it.word

def nth? : Nat → Iter → Option (Option UInt8)
  | 0, it => do return (← it.next?).1
  | n + 1, it => do
    match ← it.next? with
    | (none, _) => return none
    | (some _, it) => nth? n it

/-- All bytes that are still to come, if it takes less than so many steps to come to the end. -/
def collect? : Nat → Iter → Option (List UInt8)
  | 0, _ => none
  | n + 1, it => do
    match ← it.next? with
    | (none, _) => return []
    | (some b, it) => return b :: (← collect? n it)

end Iter

def nth? (w : Words) (i : Nat) : Option (Option UInt8) := w.iter.nth? i

def collect? (w : Words) : Option (List UInt8) := w.iter.collect? 257

/-! ## The mask of four words -/

variable {w v : Words} {b : UInt8} {i j : Nat}

/-- The word at an index, and 0 behind the last one. -/
def word (w : Words) (i : Nat) : Word := (w.word? i).getD 0#64

def mask (w : Words) : ByteMask := ⟨w.words[3] ++ w.words[2] ++ w.words[1] ++ w.words[0]⟩

theorem word?_eq (h : i < 4) : w.word? i = some (w.word i) := by
  have hsome : w.word? i = some w.words[i] := Vector.getElem?_eq_getElem h
  rw [word, hsome]
  rfl

theorem word_eq_getElem (w : Words) (h : i < 4) : w.word i = w.words[i] :=
  Option.some.inj ((word?_eq h).symm.trans (Vector.getElem?_eq_getElem h))

theorem word_of_le (h : 4 ≤ i) : w.word i = 0#64 := by
  have hnone : w.word? i = none := Vector.getElem?_eq_none h
  rw [word, hnone]
  rfl

theorem getLsbD_mask (w : Words) (i : Nat) :
    w.mask.bits.getLsbD i = (w.word (i / 64)).getLsbD (i % 64) := by
  have hbits : w.mask.bits.getLsbD i =
      (w.words[3] ++ w.words[2] ++ w.words[1] ++ w.words[0]).getLsbD i := rfl
  rw [hbits]
  simp only [BitVec.getLsbD_append]
  by_cases h0 : i < 64
  · rw [if_pos h0, Nat.div_eq_of_lt h0, Nat.mod_eq_of_lt h0]
    rfl
  rw [if_neg h0]
  by_cases h1 : i - 64 < 64
  · have hdiv : i / 64 = 1 := by omega
    have hmod : i % 64 = i - 64 := by omega
    rw [if_pos h1, hdiv, hmod]
    rfl
  rw [if_neg h1]
  by_cases h2 : i - 64 - 64 < 64
  · have hdiv : i / 64 = 2 := by omega
    have hmod : i % 64 = i - 64 - 64 := by omega
    rw [if_pos h2, hdiv, hmod]
    rfl
  rw [if_neg h2]
  by_cases h3 : i - 64 - 64 - 64 < 64
  · have hdiv : i / 64 = 3 := by omega
    have hmod : i % 64 = i - 64 - 64 - 64 := by omega
    rw [hdiv, hmod]
    rfl
  · rw [word_of_le (by omega), BitVec.getLsbD_zero, BitVec.getLsbD_of_ge _ _ (by omega)]

theorem getLsbD_mask_mul_add (w : Words) (h : j < 64) :
    w.mask.bits.getLsbD (i * 64 + j) = (w.word i).getLsbD j := by
  have hdiv : (i * 64 + j) / 64 = i := by omega
  have hmod : (i * 64 + j) % 64 = j := by omega
  rw [getLsbD_mask, hdiv, hmod]

theorem contains_mask (w : Words) (b : UInt8) :
    w.mask.contains b = (w.word (b.toNat / 64)).getLsbD (b.toNat % 64) := getLsbD_mask w b.toNat

theorem div_lt_four (b : UInt8) : b.toNat / 64 < 4 := by
  have hb := b.toNat_lt
  omega

/-! ## Bits -/

theorem locate?_eq (b : UInt8) :
    locate? b = some (b.toNat / 64, BitVec.twoPow 64 (b.toNat % 64)) := by
  have hword : (b >>> 6).toNat = b.toNat / 64 := by
    rw [UInt8.toNat_shiftRight]
    show b.toNat >>> (6 % 8) = _
    rw [Nat.shiftRight_eq_div_pow]
  have hbit : (b &&& 63).toNat = b.toNat % 64 := by
    rw [UInt8.toNat_and]
    exact Nat.and_two_pow_sub_one_eq_mod b.toNat 6
  rw [locate?, hword, hbit, Word.shiftLeft?_eq (by omega), ← BitVec.twoPow_eq]
  rfl

theorem testBit?_eq (w : Words) (b : UInt8) : w.testBit? b = some (w.mask.contains b) := by
  rw [testBit?, locate?_eq]
  simp only [Option.bind_eq_bind, Option.bind_some, word?_eq (div_lt_four b), Option.pure_def]
  rw [contains_mask, BitVec.and_twoPow]
  have hne := Word.twoPow_ne_zero (Nat.mod_lt b.toNat (by decide : 0 < 64))
  cases (w.word (b.toNat / 64)).getLsbD (b.toNat % 64) <;> simp [hne]

theorem setWord?_eq (w : Words) (h : i < 4) (x : Word) :
    ∃ v, w.setWord? i x = some v ∧ ∀ j, v.word j = if j = i then x else w.word j := by
  refine ⟨_, dif_pos h, fun j => ?_⟩
  rw [word, word, word?, word?, Vector.getElem?_set]
  by_cases hij : j = i
  · rw [if_pos hij.symm, if_pos hij]
    rfl
  · rw [if_neg (Ne.symm hij), if_neg hij]

theorem setBit?_eq (w : Words) (b : UInt8) :
    ∃ v, w.setBit? b = some v ∧ v.mask = w.mask.insert b := by
  obtain ⟨v, hv, hword⟩ := setWord?_eq w (div_lt_four b)
    (w.word (b.toNat / 64) ||| BitVec.twoPow 64 (b.toNat % 64))
  refine ⟨v, ?_, ?_⟩
  · rw [setBit?, locate?_eq]
    simp only [Option.bind_eq_bind, Option.bind_some, word?_eq (div_lt_four b)]
    exact hv
  · apply ByteMask.eq_of_contains_eq
    intro c
    rw [ByteMask.contains_insert, contains_mask, contains_mask, hword]
    by_cases hdiv : c.toNat / 64 = b.toNat / 64
    · rw [if_pos hdiv, hdiv, BitVec.getLsbD_or, BitVec.getLsbD_twoPow]
      have heq : b = c ↔ b.toNat % 64 = c.toNat % 64 := by
        rw [← UInt8.toNat_inj]
        omega
      have hlt : b.toNat % 64 < 64 := by omega
      simp [heq, hlt]
    · have hne : b ≠ c := by
        rintro rfl
        exact hdiv rfl
      rw [if_neg hdiv]
      simp [hne]

theorem mask_zero : zero.mask = ByteMask.empty := rfl

theorem word_or (w v : Words) (i : Nat) : (w.or v).word i = w.word i ||| v.word i := by
  by_cases hi : i < 4
  · rw [word_eq_getElem _ hi, word_eq_getElem w hi, word_eq_getElem v hi, or]
    simp
  · rw [word_of_le (by omega), word_of_le (by omega), word_of_le (by omega)]
    rfl

theorem word_and (w v : Words) (i : Nat) : (w.and v).word i = w.word i &&& v.word i := by
  by_cases hi : i < 4
  · rw [word_eq_getElem _ hi, word_eq_getElem w hi, word_eq_getElem v hi, and]
    simp
  · rw [word_of_le (by omega), word_of_le (by omega), word_of_le (by omega)]
    rfl

theorem mask_or (w v : Words) : (w.or v).mask = w.mask.union v.mask := by
  apply ByteMask.eq_of_contains_eq
  intro b
  rw [contains_mask, word_or, BitVec.getLsbD_or, ← contains_mask, ← contains_mask]
  exact BitVec.getLsbD_or.symm

theorem mask_and (w v : Words) : (w.and v).mask = w.mask.inter v.mask := by
  apply ByteMask.eq_of_contains_eq
  intro b
  rw [contains_mask, word_and, BitVec.getLsbD_and, ← contains_mask, ← contains_mask]
  exact BitVec.getLsbD_and.symm

/-! ## Counting -/

/-- The bits of all words in front of one. -/
theorem total_ones_take (w : Words) (h : i ≤ 4) :
    total ((w.words.toList.take i).map Word.ones) = (List.range (i * 64)).countP w.mask.bits.getLsbD := by
  induction i with
  | zero => simp
  | succ i ih =>
    have hi : i < 4 := h
    have hget : w.words.toList[i]? = some (w.word i) := by
      rw [← word?_eq hi, word?, Vector.getElem?_toList]
    have hrange : List.range ((i + 1) * 64) =
        List.range (i * 64) ++ (List.range 64).map (i * 64 + ·) := by
      rw [Nat.succ_mul, List.range_add]
    have hbits : (List.range 64).countP (w.mask.bits.getLsbD ∘ (i * 64 + ·)) =
        (List.range 64).countP (w.word i).getLsbD := by
      apply List.countP_congr
      intro j hj
      rw [Function.comp_apply, getLsbD_mask_mul_add w (List.mem_range.mp hj)]
    rw [List.take_add_one, hget, Option.toList_some, List.map_append, total_append, ih (by omega),
      hrange, List.countP_append, List.countP_map, hbits, ← Word.ones_eq_countP]
    simp

theorem len_eq (w : Words) : w.len = w.mask.size := by
  have htake : w.words.toList.take 4 = w.words.toList := by
    rw [List.take_of_length_le]
    simp
  rw [len, ← htake, total_ones_take w (Nat.le_refl 4), ByteMask.size, BitVec.toNat_cpop,
    ByteMask.cpopNatRec_eq_countP]

/-- The bits below one in its word. -/
theorem countP_range_mod (w : Words) (h : j ≤ 64) :
    (List.range (i * 64 + j)).countP w.mask.bits.getLsbD =
      (List.range (i * 64)).countP w.mask.bits.getLsbD + (List.range j).countP (w.word i).getLsbD := by
  rw [List.range_add, List.countP_append, List.countP_map]
  congr 1
  apply List.countP_congr
  intro l hl
  rw [Function.comp_apply, getLsbD_mask_mul_add w (Nat.lt_of_lt_of_le (List.mem_range.mp hl) h)]

theorem indexOf?_eq (w : Words) (b : UInt8) : w.indexOf? b = some (w.mask.rank b) := by
  have hlt := div_lt_four b
  have hmod : b.toNat % 64 < 64 := Nat.mod_lt _ (by decide)
  have hsplit : b.toNat = b.toNat / 64 * 64 + b.toNat % 64 := by omega
  have hbefore : w.before? (b.toNat / 64) = some (w.words.toList.take (b.toNat / 64)) :=
    if_pos (Nat.le_of_lt hlt)
  rw [indexOf?, locate?_eq]
  simp only [Option.bind_eq_bind, Option.bind_some, word?_eq hlt, hbefore,
    Word.pred?_eq (Word.twoPow_ne_zero hmod), Option.pure_def]
  rw [total_ones_take w (Nat.le_of_lt hlt), Word.ones, ByteMask.cpop_and_twoPow_sub_one _ hmod,
    ← countP_range_mod w (Nat.le_of_lt hmod), ← hsplit, ByteMask.rank_eq_countP]

end Words

end ByteTrie
