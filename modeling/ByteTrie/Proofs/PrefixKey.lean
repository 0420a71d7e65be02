import ByteTrie.PrefixKey
import ByteTrie.Proofs.Records
import Mathlib

/-!
# Keys are shortest

A number takes as many bytes as its digits in base 256, and 0 takes one.  Zero bytes behind a list of bytes
do not change its number, so among all lists with a number its key is the only one that does not end in a
zero byte that could be left out.

    width k ≤ n              iff  k < 256^n, for n ≥ 1
    encode (decode bs) = bs  iff  bs has 1 to 8 bytes, and its last byte is not 0 or its only one
-/

namespace ByteTrie

open PathList

namespace PrefixKey

variable {k : UInt64} {n : Nat} {bs : Path}

/-! ## Digits -/

theorem ofLittleEndian_snoc (bs : Path) (b : UInt8) :
    ofLittleEndian (bs ++ [b]) = ofLittleEndian bs + 256 ^ bs.length * b.toNat := by
  induction bs with
  | nil =>
    show b.toNat + 256 * 0 = 0 + 256 ^ 0 * b.toNat
    omega
  | cons a bs ih =>
    show a.toNat + 256 * ofLittleEndian (bs ++ [b]) =
      a.toNat + 256 * ofLittleEndian bs + 256 ^ (bs.length + 1) * b.toNat
    rw [ih, pow_succ]
    ring

theorem take_littleEndian {m : Nat} (h : n ≤ m) (x : Nat) :
    (littleEndian m x).take n = littleEndian n x := by
  induction n generalizing m x with
  | zero => simp [littleEndian]
  | succ n ih =>
    obtain ⟨m, rfl⟩ : ∃ l, m = l + 1 := ⟨m - 1, by omega⟩
    rw [littleEndian, littleEndian, List.take_succ_cons, ih (by omega)]

/-! ## The bytes that a number takes -/

/-- The leading zeros of a number that is not 0 say between which powers of 2 it lies. -/
theorem clz_bounds (h : k.toBitVec ≠ 0#64) : k.toBitVec.clz.toNat < 64 ∧
    2 ^ (63 - k.toBitVec.clz.toNat) ≤ k.toNat ∧ k.toNat < 2 ^ (64 - k.toBitVec.clz.toNat) := by
  have hclz := BitVec.lt_def.mp (BitVec.clz_lt_iff_ne_zero.mpr h)
  refine ⟨hclz, ?_, BitVec.toNat_lt_two_pow_sub_clz⟩
  have hlow := BitVec.two_pow_sub_clz_le_toNat_of_ne_zero (by decide) h
  have hexp : 64 - 1 - k.toBitVec.clz.toNat = 63 - k.toBitVec.clz.toNat := by omega
  rwa [hexp] at hlow

theorem one_le_width (k : UInt64) : 1 ≤ width k := Nat.le_max_left _ _

theorem width_le_eight (k : UInt64) : width k ≤ 8 := by
  unfold width
  omega

/-- So many bytes are enough for a number if and only if it is that small. -/
theorem width_le_iff (hn : 1 ≤ n) : width k ≤ n ↔ k.toNat < 256 ^ n := by
  have hpow : 256 ^ n = 2 ^ (8 * n) := (Nat.pow_mul 2 8 n).symm
  rw [hpow]
  by_cases hk : k.toBitVec = 0#64
  · have hzero : k.toNat = 0 := congrArg BitVec.toNat hk
    have hclz : k.toBitVec.clz.toNat = 64 := by
      rw [hk]
      decide
    have hpos : 0 < 2 ^ (8 * n) := Nat.two_pow_pos _
    unfold width
    rw [hclz, hzero]
    omega
  · obtain ⟨hclz, hlow, hhigh⟩ := clz_bounds hk
    unfold width
    constructor
    · intro h
      -- `n` bytes have at least the bits behind the leading zeros
      exact Nat.lt_of_lt_of_le hhigh (Nat.pow_le_pow_right (by decide) (by omega))
    · intro h
      have hexp := (Nat.pow_lt_pow_iff_right (by decide)).mp (Nat.lt_of_le_of_lt hlow h)
      omega

theorem length_encode (k : UInt64) : (encode k).length = width k := length_littleEndian _ _

/-- A key is the front of the eight bytes of its number. -/
theorem encode_eq_take (k : UInt64) : encode k = (littleEndian 8 k.toNat).take (width k) :=
  (take_littleEndian (width_le_eight k) k.toNat).symm

/-! ## The number of a list of bytes -/

theorem toNat_decode (bs : Path) : (decode bs).toNat = ofLittleEndian (bs.take 8) := by
  have hlt := ofLittleEndian_lt (bs.take 8)
  have hlen : (bs.take 8).length ≤ 8 := List.length_take_le 8 bs
  have hpow : 256 ^ (bs.take 8).length ≤ 256 ^ 8 := Nat.pow_le_pow_right (by decide) hlen
  exact UInt64.toNat_ofNat_of_lt' (Nat.lt_of_lt_of_le hlt hpow)

theorem toNat_decode_of_le (h : bs.length ≤ 8) : (decode bs).toNat = ofLittleEndian bs := by
  rw [toNat_decode, List.take_of_length_le h]

/-- A zero byte at the end does not count. -/
theorem decode_snoc_zero (bs : Path) : decode (bs ++ [0]) = decode bs := by
  apply UInt64.toNat_inj.mp
  rw [toNat_decode, toNat_decode]
  by_cases h : 8 ≤ bs.length
  · rw [List.take_append_of_le_length h]
  · have hlen : (bs ++ [0]).length ≤ 8 := by
      rw [List.length_append, List.length_singleton]
      omega
    rw [List.take_of_length_le hlen, List.take_of_length_le (by omega), ofLittleEndian_snoc]
    show ofLittleEndian bs + 256 ^ bs.length * 0 = _
    omega

theorem decode_encode (k : UInt64) : decode (encode k) = k := by
  apply UInt64.toNat_inj.mp
  have hlen : (encode k).length ≤ 8 := by
    rw [length_encode]
    exact width_le_eight k
  rw [toNat_decode_of_le hlen]
  exact ofLittleEndian_littleEndian ((width_le_iff (one_le_width k)).mp (Nat.le_refl _))

/-- No list with the number of a key is shorter than it, but the empty one. -/
theorem length_encode_decode_le (h : bs ≠ []) : (encode (decode bs)).length ≤ bs.length := by
  have hpos : 0 < bs.length := List.length_pos_iff.mpr h
  rw [length_encode, width_le_iff hpos, toNat_decode]
  have hlt := ofLittleEndian_lt (bs.take 8)
  exact Nat.lt_of_lt_of_le hlt (Nat.pow_le_pow_right (by decide) (List.length_take_le' 8 bs))

/-- A list that ends in another byte than 0 has a number that takes all of its bytes. -/
theorem length_le_width {b : UInt8} (hb : b ≠ 0) (hlen : (bs ++ [b]).length ≤ 8) :
    (bs ++ [b]).length ≤ width (decode (bs ++ [b])) := by
  have hpos : 0 < b.toNat := by
    apply Nat.pos_of_ne_zero
    intro h
    exact hb (UInt8.toNat_inj.mp h)
  have hle : 256 ^ bs.length ≤ (decode (bs ++ [b])).toNat := by
    rw [toNat_decode_of_le hlen, ofLittleEndian_snoc]
    have hmul : 256 ^ bs.length * 1 ≤ 256 ^ bs.length * b.toNat := Nat.mul_le_mul_left _ hpos
    omega
  rw [List.length_append, List.length_singleton]
  by_contra hlt
  have hone := one_le_width (decode (bs ++ [b]))
  have hwidth := (width_le_iff (by omega)).mp (Nat.le_of_lt_succ (Nat.lt_of_not_le hlt))
  omega

theorem encode_decode_of_width_eq (hlen : bs.length ≤ 8) (h : width (decode bs) = bs.length) :
    encode (decode bs) = bs := by
  rw [encode, h, toNat_decode_of_le hlen, littleEndian_ofLittleEndian]

/-- The lists of bytes that are keys. -/
theorem encode_decode_iff (bs : Path) : encode (decode bs) = bs ↔
    (1 ≤ bs.length ∧ bs.length ≤ 8) ∧ (bs.length = 1 ∨ bs.getLast? ≠ some 0) := by
  constructor
  · intro h
    have hlen := length_encode (decode bs)
    rw [h] at hlen
    have hone := one_le_width (decode bs)
    have height := width_le_eight (decode bs)
    refine ⟨⟨by omega, by omega⟩, ?_⟩
    by_cases hsingle : bs.length = 1
    · exact Or.inl hsingle
    · right
      intro hlast
      obtain ⟨init, rfl⟩ := List.getLast?_eq_some_iff.mp hlast
      rw [List.length_append, List.length_singleton] at hlen hsingle
      have hne : init ≠ [] := by
        rintro rfl
        exact hsingle rfl
      have hshort := length_encode_decode_le hne
      rw [← decode_snoc_zero, h, List.length_append, List.length_singleton] at hshort
      omega
  · rintro ⟨⟨hpos, hlen⟩, hlast⟩
    have hne : bs ≠ [] := List.length_pos_iff.mp hpos
    have hle := length_encode_decode_le hne
    rw [length_encode] at hle
    apply encode_decode_of_width_eq hlen
    apply Nat.le_antisymm hle
    rcases hlast with hsingle | hlast
    · rw [hsingle]
      exact one_le_width _
    · obtain ⟨init, b, rfl⟩ := List.eq_nil_or_concat' bs |>.resolve_left hne
      rw [List.getLast?_concat] at hlast
      exact length_le_width (fun hb => hlast (congrArg some hb)) hlen

/-- The key of a number leads back to it, takes one to eight bytes, and no shorter list that is not empty
has this number; and the keys are the lists of one to eight bytes without a zero byte that could be left
out at the end. -/
theorem encode_shortest :
    (∀ k : UInt64, decode (encode k) = k ∧ 1 ≤ (encode k).length ∧ (encode k).length ≤ 8 ∧
      ∀ bs : Path, bs ≠ [] → bs.length < (encode k).length → decode bs ≠ k) ∧
    ∀ bs : Path, encode (decode bs) = bs ↔
      (1 ≤ bs.length ∧ bs.length ≤ 8) ∧ (bs.length = 1 ∨ bs.getLast? ≠ some 0) := by
  refine ⟨fun k => ⟨decode_encode k, ?_, ?_, ?_⟩, encode_decode_iff⟩
  · rw [length_encode]
    exact one_le_width k
  · rw [length_encode]
    exact width_le_eight k
  · rintro bs hne hlt rfl
    have hle := length_encode_decode_le hne
    omega

/-- 256 takes two bytes, so the one byte 255 does not stand for it; with a zero byte more at the end the
two are no key. -/
theorem encode_shortest_256 :
    (encode 256).length = 2 ∧ decode [255] ≠ 256 ∧ encode (decode [0, 1, 0]) ≠ [0, 1, 0] := by
  have hlen : (encode 256).length = 2 := by decide
  refine ⟨hlen, (encode_shortest.1 256).2.2.2 [255] (by decide) (by rw [hlen]; decide), ?_⟩
  rw [Ne, encode_shortest.2]
  decide

end PrefixKey

end ByteTrie
