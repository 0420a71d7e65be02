import ByteTrie.Proofs.Pool
import ByteTrie.Range.Basic
import Mathlib

/-!
# What blocks hold

The block at `base` with `n` bytes to come stands for the numbers from `base` to below `base + 256^n`,
and its subtrie has, of each member of the progression among them, the last `n` digits.  A step of the
loop over its sub-blocks cuts the members at the end of one sub-block: those before it are the members
of that sub-block, and rounding the rest of the way up to whole steps leads to the first one behind it.
In a block that ends before the progression does only the offset of the first member matters, so what
is remembered under it is right wherever it is found again.

    blockPaths step n base first stop   the digits of first, first + step, … below stop, from base on
-/

namespace ByteTrie

open Trie Pool

/-! ## Digits -/

/-- The last `n` digits of a number in base 256, the most significant one first. -/
def bigEndian (n m : Nat) : Path := (littleEndian n m).reverse

theorem littleEndian_snoc (n m : Nat) :
    littleEndian (n + 1) m = littleEndian n m ++ [UInt8.ofNat (m / 256 ^ n % 256)] := by
  induction n generalizing m with
  | zero => simp [littleEndian]
  | succ n ih =>
    rw [littleEndian, ih, littleEndian, List.cons_append, Nat.div_div_eq_div_mul, ← Nat.pow_succ']

/-- Digits further up do not matter. -/
theorem littleEndian_add_mul (n m k : Nat) :
    littleEndian n (m + k * 256 ^ n) = littleEndian n m := by
  induction n generalizing m with
  | zero => rfl
  | succ n ih =>
    have hmul : k * 256 ^ (n + 1) = 256 * (k * 256 ^ n) := by rw [Nat.pow_succ']; ring
    rw [littleEndian, littleEndian, hmul, Nat.add_mul_mod_self_left,
      Nat.add_mul_div_left _ _ (by decide), ih]

/-- The first digit of a number, and the others. -/
theorem bigEndian_succ {n k m : Nat} (hk : k < 256) (hm : m < 256 ^ n) :
    bigEndian (n + 1) (m + k * 256 ^ n) = UInt8.ofNat k :: bigEndian n m := by
  have hdigit : (m + k * 256 ^ n) / 256 ^ n % 256 = k := by
    rw [Nat.add_mul_div_right _ _ (Nat.pow_pos (by decide)), Nat.div_eq_of_lt hm, Nat.zero_add,
      Nat.mod_eq_of_lt hk]
  rw [bigEndian, littleEndian_snoc, List.reverse_append, hdigit, littleEndian_add_mul]
  rfl

namespace Range

variable {step n base first stop limit : Nat}

/-! ## Steps -/

/-- So many steps lead to `m` or above, and fewer do not. -/
theorem lt_stepsTo_iff (hstep : 0 < step) {i m : Nat} :
    i < stepsTo step n m ↔ n + i * step < m := by
  rw [stepsTo, ← Nat.succ_le_iff, Nat.le_div_iff_mul_le hstep, Nat.succ_mul]
  omega

theorem le_add_stepsTo (hstep : 0 < step) (n m : Nat) : m ≤ n + stepsTo step n m * step :=
  Nat.le_of_not_lt fun h => Nat.lt_irrefl _ ((lt_stepsTo_iff hstep).mpr h)

/-- The digits of the members of a progression, from `base` on. -/
def blockPaths (step n base first stop : Nat) : Set Path :=
  {q | ∃ i : Nat, first + i * step < stop ∧ q = bigEndian n (first + i * step - base)}

theorem blockPaths_eq_empty (h : stop ≤ first) : blockPaths step n base first stop = ∅ := by
  refine Set.eq_empty_iff_forall_notMem.mpr ?_
  rintro q ⟨i, hi, -⟩
  omega

/-- The first `s` numbers of a progression, and those behind them. -/
theorem exists_iff_lt_or_add {p : Nat → Prop} (s : Nat) :
    (∃ i, p i) ↔ (∃ i, i < s ∧ p i) ∨ ∃ j, p (s + j) := by
  constructor
  · rintro ⟨i, hi⟩
    by_cases hlt : i < s
    · exact Or.inl ⟨i, hlt, hi⟩
    · obtain ⟨j, rfl⟩ := Nat.exists_eq_add_of_le (Nat.le_of_not_lt hlt)
      exact Or.inr ⟨j, hi⟩
  · rintro (⟨i, -, hi⟩ | ⟨j, hj⟩)
    · exact ⟨i, hi⟩
    · exact ⟨s + j, hj⟩

/-- The members before `stop`, and those from the first one behind it on. -/
theorem blockPaths_split (hstep : 0 < step) (n base first stop limit : Nat) :
    blockPaths step n base first limit = blockPaths step n base first (min stop limit) ∪
      blockPaths step n base (first + stepsTo step first stop * step) limit := by
  ext q
  refine (exists_iff_lt_or_add (stepsTo step first stop)).trans ?_
  refine or_congr (exists_congr fun i => ?_) (exists_congr fun j => ?_)
  · rw [lt_stepsTo_iff hstep, lt_min_iff, and_assoc]
  · rw [Nat.add_mul, ← Nat.add_assoc]

/-- The members in one sub-block have its byte in front. -/
theorem blockPaths_succ {k : Nat} (hk : k < 256) (hfirst : base + k * 256 ^ n ≤ first)
    (hstop : stop ≤ base + k * 256 ^ n + 256 ^ n) : blockPaths step (n + 1) base first stop =
      (UInt8.ofNat k :: ·) '' blockPaths step n (base + k * 256 ^ n) first stop := by
  have hcons : ∀ i, first + i * step < stop → bigEndian (n + 1) (first + i * step - base) =
      UInt8.ofNat k :: bigEndian n (first + i * step - (base + k * 256 ^ n)) := fun i hi => by
    rw [← bigEndian_succ hk (by omega)]
    congr 1
    omega
  ext q
  constructor
  · rintro ⟨i, hi, rfl⟩
    exact ⟨_, ⟨i, hi, rfl⟩, (hcons i hi).symm⟩
  · rintro ⟨_, ⟨i, hi, rfl⟩, rfl⟩
    exact ⟨i, hi, (hcons i hi).symm⟩

/-- Only the offset of the first member matters. -/
theorem blockPaths_shift (h : base ≤ first) :
    blockPaths step n base first (base + stop) = blockPaths step n 0 (first - base) stop := by
  ext q
  constructor
  · rintro ⟨i, hi, rfl⟩
    exact ⟨i, by omega, congrArg _ (by omega)⟩
  · rintro ⟨i, hi, rfl⟩
    exact ⟨i, by omega, congrArg _ (by omega)⟩

/-! ## Memory -/

variable {P Q : Pool}

/-- The subtries that are remembered for whole blocks. -/
abbrev Known := Std.HashMap (Nat × Nat) Trie

/-- Every remembered subtrie is in the pool, and has the members of a whole block. -/
def Known.Holds (known : Known) (step : Nat) (P : Pool) : Prop :=
  ∀ (n phase : Nat) (t : Trie), known[(n, phase)]? = some t →
    t ∈ P ∧ t.members = blockPaths step n 0 phase (256 ^ n)

theorem Known.Holds.mono {known : Known} (h : known.Holds step P) (hPQ : P ≤ Q) :
    known.Holds step Q :=
  fun n phase t ht => ⟨hPQ.2 t (h n phase t ht).1, (h n phase t ht).2⟩

theorem Known.holds_empty (step : Nat) (P : Pool) : Known.Holds {} step P :=
  fun n phase t ht => by simp at ht

theorem Known.Holds.insert {known : Known} (h : known.Holds step P) {t : Trie} (ht : t ∈ P)
    {phase : Nat} (hm : t.members = blockPaths step n 0 phase (256 ^ n)) :
    Known.Holds (known.insert (n, phase) t) step P := by
  intro m later u hu
  rw [Std.HashMap.getElem?_insert] at hu
  split at hu
  · next heq =>
    obtain ⟨rfl, rfl⟩ := Prod.mk.inj (beq_iff_eq.mp heq)
    cases hu
    exact ⟨ht, hm⟩
  · exact h m later u hu

/-! ## Blocks -/

/-- What the block at `base` comes to, from its member `first` on. -/
structure Filled (step hi n base first : Nat) (Q : Pool) (r : Trie × Known) : Prop where
  mem : r.1 ∈ Q
  members : r.1.members = blockPaths step n base first (min (base + 256 ^ n) hi)
  known : r.2.Holds step Q

/-- What its sub-blocks of the bytes `bs` come to. -/
structure FilledEdges (step n base first limit : Nat) (bs : List UInt8) (Q : Pool)
    (r : List (Edge Trie) × Known) : Prop where
  edges : Q.Edges r.1
  first_mem : ∀ e ∈ r.1, e.first ∈ bs
  members : edgeMembers r.1 = blockPaths step (n + 1) base first limit
  known : r.2.Holds step Q

theorem edgeMembers_byte (b : UInt8) (t : Trie) :
    edgeMembers [⟨b, [], t⟩] = (b :: ·) '' t.members := by
  rw [edgeMembers_singleton, ← Stem.members_nil]
  exact Stem.members_append [b] [] t

/-- Behind the last member nothing is made. -/
theorem subblocks_of_le (sub : Nat → Nat → Blocks Trie) (step size : Nat) (h : limit ≤ first)
    (bs : List UInt8) (base : Nat) :
    subblocks sub step size limit bs base first = return [] := by
  induction bs generalizing base with
  | nil => rw [subblocks]
  | cons b bs ih => rw [subblocks, if_neg (by omega), ih]

/-- The loop over the sub-blocks of the last bytes, from the byte `k` on. -/
theorem makes_subblocks {sub : Nat → Nat → Blocks Trie} {hi : Nat} (hstep : 0 < step)
    (hsub : ∀ (P : Pool) (known : Known) (base first : Nat), known.Holds step P → base ≤ first →
      first < base + 256 ^ n → first < hi →
        P.Makes ((sub base first).run known) (Filled step hi n base first))
    (hlimit : limit = min (base + 256 ^ (n + 1)) hi) {bs : List UInt8} {k : Nat}
    (hbs : bs.map UInt8.toNat = List.range' k bs.length) (hk : k + bs.length = 256)
    (hfirst : base + k * 256 ^ n ≤ first) {known : Known} (hknown : known.Holds step P) :
    P.Makes ((subblocks sub step (256 ^ n) limit bs (base + k * 256 ^ n) first).run known)
      (FilledEdges step n base first limit bs) := by
  have hpow : 256 ^ (n + 1) = 256 * 256 ^ n := Nat.pow_succ'
  induction bs generalizing k first P known with
  | nil =>
    have hk : k = 256 := hk
    have hle : limit ≤ first := by
      rw [hk] at hfirst
      omega
    rw [subblocks]
    refine makes_pure ⟨edges_nil P, fun _ h => absurd h List.not_mem_nil, ?_, hknown⟩
    rw [blockPaths_eq_empty hle, edgeMembers_nil]
  | cons b bs ih =>
    rw [List.map_cons, List.length_cons, List.range'_succ] at hbs
    obtain ⟨hb, hbs⟩ := List.cons.inj hbs
    rw [List.length_cons] at hk
    have hk' : k + 1 + bs.length = 256 := by omega
    have hnext : base + k * 256 ^ n + 256 ^ n = base + (k + 1) * 256 ^ n := by
      rw [Nat.succ_mul, Nat.add_assoc]
    have hblt : ∀ c ∈ bs, b < c := fun c hc => by
      have hmem : c.toNat ∈ List.range' (k + 1) bs.length := hbs ▸ List.mem_map_of_mem hc
      rw [List.mem_range'_1] at hmem
      rw [UInt8.lt_iff_toNat_lt]
      omega
    by_cases hlt : first < limit
    · rw [subblocks]
      by_cases hin : first < base + k * 256 ^ n + 256 ^ n
      · rw [if_pos ⟨hin, hlt⟩]
        simp only [StateT.run_bind, StateT.run_pure]
        refine (hsub P known _ first hknown hfirst hin (by omega)).bind fun Q r hPQ hr => ?_
        rw [hnext]
        have hle := le_add_stepsTo hstep first (base + (k + 1) * 256 ^ n)
        refine (ih hbs hk' hle hr.known).bind_pure fun R es hQR hes => ⟨?_, ?_, ?_, hes.known⟩
        · exact edges_over_append (hQR.2 _ hr.mem) hes.edges fun e he => hblt _ (hes.first_mem e he)
        · intro e he
          rcases List.mem_append.mp he with he | he
          · have hover := over_eq_some hr.mem (Option.mem_toList.mp he)
            exact hover.1 ▸ List.mem_cons_self
          · exact List.mem_cons_of_mem b (hes.first_mem e he)
        · have hstop : base + (k + 1) * 256 ^ n ≤ base + 256 ^ (n + 1) :=
            hpow ▸ Nat.add_le_add_left (Nat.mul_le_mul_right _ (by omega)) base
          have hmin : min (base + k * 256 ^ n + 256 ^ n) hi =
              min (base + (k + 1) * 256 ^ n) limit := by omega
          have hbyte : UInt8.ofNat k = b := by rw [← hb, UInt8.ofNat_toNat]
          have hsplit := blockPaths_split hstep (n + 1) base first (base + (k + 1) * 256 ^ n) limit
          have hhere : blockPaths step (n + 1) base first (min (base + (k + 1) * 256 ^ n) limit) = _ :=
            blockPaths_succ (by omega) hfirst (by omega)
          rw [edgeMembers_append, edgeMembers_over hr.mem, hes.members, edgeMembers_byte, hr.members,
            hsplit, hmin, hhere, hbyte]
      · rw [if_neg (fun h => hin h.1), hnext]
        have hrest := ih hbs hk' (hnext ▸ Nat.le_of_not_lt hin) hknown
        refine hrest.imp fun Q r _ hr => ⟨hr.edges, ?_, hr.members, hr.known⟩
        exact fun e he => List.mem_cons_of_mem b (hr.first_mem e he)
    · have hle := Nat.le_of_not_lt hlt
      rw [subblocks_of_le sub step _ hle]
      refine makes_pure ⟨edges_nil P, fun _ h => absurd h List.not_mem_nil, ?_, hknown⟩
      rw [blockPaths_eq_empty hle, edgeMembers_nil]

theorem length_allBytes : allBytes.length = 256 := by
  rw [allBytes, List.length_map, List.length_range]

theorem map_toNat_allBytes : allBytes.map UInt8.toNat = List.range' 0 allBytes.length := by
  decide +kernel

/-- A block holds the members that it is asked for, be it remembered or made now. -/
theorem makes_block {hi : Nat} (hstep : 0 < step) (n base first : Nat) (P : Pool) (known : Known)
    (hknown : known.Holds step P) (hfirst : base ≤ first) (hlt : first < base + 256 ^ n)
    (hhi : first < hi) :
    P.Makes ((block step hi n base first).run known) (Filled step hi n base first) := by
  induction n generalizing base first P known with
  | zero =>
    rw [block]
    refine makes_pure ⟨P.leaf_mem, ?_, hknown⟩
    rw [members_leaf]
    ext q
    constructor
    · rintro rfl
      exact ⟨0, by omega, rfl⟩
    · rintro ⟨i, -, rfl⟩
      rfl
  | succ n ih =>
    have hsize : 256 * Nat.pow 256 n = 256 ^ (n + 1) := Nat.pow_succ'.symm
    have hwhole : base + 256 ^ (n + 1) ≤ hi → blockPaths step (n + 1) 0 (first - base)
        (256 ^ (n + 1)) = blockPaths step (n + 1) base first (min (base + 256 ^ (n + 1)) hi) :=
      fun hle => by rw [min_eq_left hle, blockPaths_shift hfirst]
    rw [block]
    simp only [StateT.run_bind, StateT.run_get, pure_bind]
    rw [hsize]
    split
    · next t hle ht =>
      obtain ⟨hmem, hm⟩ := hknown _ _ t ht
      exact makes_pure ⟨hmem, hm.trans (hwhole (of_decide_eq_true hle)), hknown⟩
    · simp only [StateT.run_bind, StateT.run_monadLift, bind_assoc, pure_bind]
      have hzero : base + 0 * 256 ^ n ≤ first := by omega
      have hsub := makes_subblocks hstep
        (fun P known base first hk hf hl hh => ih base first P known hk hf hl hh)
        rfl map_toNat_allBytes (by rw [Nat.zero_add, length_allBytes]) hzero hknown
      rw [Nat.zero_mul, Nat.add_zero] at hsub
      refine hsub.bind fun Q r hPQ hr => (makes_make hr.edges false).bind fun R t hQR ht => ?_
      have hm : t.members = blockPaths step (n + 1) base first (min (base + 256 ^ (n + 1)) hi) := by
        rw [← hr.members]
        ext q
        rw [mem_members, Trie.mem_iff, ht.2.1, ht.2.2]
        simp
      have hkept := hr.known.mono hQR
      split
      · next hle =>
        have hinsert := hkept.insert ht.1 (hm.trans (hwhole (of_decide_eq_true hle)).symm)
        exact makes_pure ⟨ht.1, hm, hinsert⟩
      · exact makes_pure ⟨ht.1, hm, hkept⟩

end Range

end ByteTrie
