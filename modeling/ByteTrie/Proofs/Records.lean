import ByteTrie.Proofs.Insertion
import Mathlib

/-!
# Records

Every string of bytes starts with some complete records, and behind the last of them there is nothing, or
too little for a length, or less than the length there says.  Reading goes from one record to the next, so
it asks about all complete ones, whatever follows, and what follows alone decides whether it fails.

    numbered i ps            the paths of ps with their indices, from i on
    Splits src rs fault      src is the records of rs, and then nothing or what fault says
-/

namespace ByteTrie

open Trie Pool

namespace PathList

/-! ## Numbers as bytes -/

theorem ofLittleEndian_littleEndian {width n : Nat} (h : n < 256 ^ width) :
    ofLittleEndian (littleEndian width n) = n := by
  induction width generalizing n with
  | zero =>
    rw [pow_zero] at h
    obtain rfl : n = 0 := by omega
    rfl
  | succ width ih =>
    have hdiv : n / 256 < 256 ^ width := by
      rw [pow_succ] at h
      omega
    have hdigit : (UInt8.ofNat (n % 256)).toNat = n % 256 :=
      UInt8.toNat_ofNat_of_lt' (by show n % 256 < 256; omega)
    show (UInt8.ofNat (n % 256)).toNat + 256 * ofLittleEndian (littleEndian width (n / 256)) = n
    rw [ih hdiv, hdigit]
    omega

theorem ofLittleEndian_lt (bs : List UInt8) : ofLittleEndian bs < 256 ^ bs.length := by
  induction bs with
  | nil => exact Nat.one_pos
  | cons b bs ih =>
    have hb := b.toNat_lt
    show b.toNat + 256 * ofLittleEndian bs < 256 ^ (bs.length + 1)
    rw [pow_succ]
    omega

theorem littleEndian_ofLittleEndian (bs : List UInt8) :
    littleEndian bs.length (ofLittleEndian bs) = bs := by
  induction bs with
  | nil => rfl
  | cons b bs ih =>
    have hb := b.toNat_lt
    have hlow : (b.toNat + 256 * ofLittleEndian bs) % 256 = b.toNat := by omega
    have hhigh : (b.toNat + 256 * ofLittleEndian bs) / 256 = ofLittleEndian bs := by omega
    show littleEndian (bs.length + 1) (b.toNat + 256 * ofLittleEndian bs) = b :: bs
    rw [littleEndian, hlow, hhigh, ih, UInt8.ofNat_toNat]

theorem lengthLimit_eq : lengthLimit = 256 ^ lengthWidth := rfl

/-! ## The first record -/

/-- What stands behind complete records, and what is wrong with it. -/
inductive Remains (tail : List UInt8) : Option ReadError → Prop
  | nothing (h : tail = []) : Remains tail none
  | length (h : tail ≠ []) (hshort : tail.length < lengthWidth) : Remains tail (some .truncatedLength)
  | path (h : lengthWidth ≤ tail.length)
      (hshort : tail.length - lengthWidth < ofLittleEndian (tail.take lengthWidth)) :
      Remains tail (some .truncatedPath)

variable {p : Path} {src rest : List UInt8} {ps rs : List Path} {e : ReadError}
  {fault : Option ReadError}

theorem length_record (p : Path) : (record p).length = lengthWidth + p.length := by
  rw [record, List.length_append, length_littleEndian]

theorem firstRecord_record (hp : p.length < lengthLimit) (rest : List UInt8) :
    firstRecord (record p ++ rest) = .ok (p, rest) := by
  have hsize : (littleEndian lengthWidth p.length).length = lengthWidth := length_littleEndian _ _
  have htake : (record p ++ rest).take lengthWidth = littleEndian lengthWidth p.length := by
    rw [record, List.append_assoc, List.take_left' hsize]
  have hdrop : (record p ++ rest).drop lengthWidth = p ++ rest := by
    rw [record, List.append_assoc, List.drop_left' hsize]
  unfold firstRecord
  simp only [List.splitAt_eq, htake, hdrop, ofLittleEndian_littleEndian (lengthLimit_eq ▸ hp)]
  rw [if_neg (by rw [hsize]; exact Nat.lt_irrefl _), List.take_left, List.drop_left,
    if_neg (Nat.lt_irrefl _)]

theorem Remains.ne_nil (h : Remains src (some e)) : src ≠ [] := by
  rintro rfl
  cases h with
  | length h _ => exact h rfl
  | path h _ => exact absurd h (by decide)

theorem firstRecord_remains (h : Remains src (some e)) : firstRecord src = .error e := by
  unfold firstRecord
  simp only [List.splitAt_eq]
  cases h with
  | length h hshort =>
    rw [if_pos (by rw [List.length_take]; omega)]
  | path h hshort =>
    rw [if_neg (by rw [List.length_take]; omega),
      if_pos (by rw [List.length_take, List.length_drop]; omega)]

/-- What reading the first record says is true of what stands there. -/
theorem of_firstRecord (h : src ≠ []) :
    (∃ p rest, src = record p ++ rest ∧ p.length < lengthLimit) ∨ ∃ e, Remains src (some e) := by
  by_cases hsize : src.length < lengthWidth
  · exact Or.inr ⟨_, .length h hsize⟩
  have hlen : (src.take lengthWidth).length = lengthWidth := by
    rw [List.length_take]
    omega
  by_cases hpath : src.length - lengthWidth < ofLittleEndian (src.take lengthWidth)
  · exact Or.inr ⟨_, .path (by omega) hpath⟩
  refine Or.inl ⟨(src.drop lengthWidth).take (ofLittleEndian (src.take lengthWidth)),
    (src.drop lengthWidth).drop (ofLittleEndian (src.take lengthWidth)), ?_, ?_⟩
  · have hn : ((src.drop lengthWidth).take (ofLittleEndian (src.take lengthWidth))).length =
        ofLittleEndian (src.take lengthWidth) := by
      rw [List.length_take, List.length_drop]
      omega
    have hfirst := littleEndian_ofLittleEndian (src.take lengthWidth)
    rw [hlen] at hfirst
    rw [record, hn, hfirst, List.append_assoc, List.take_append_drop, List.take_append_drop]
  · have hlt := ofLittleEndian_lt (src.take lengthWidth)
    rw [hlen] at hlt
    rw [List.length_take, lengthLimit_eq]
    omega

/-! ## All records -/

/-- The paths of a list with their indices, the first one with `i`. -/
def numbered (i : Nat) (ps : List Path) : List (Nat × Path) := (ps.zipIdx i).map Prod.swap

@[simp] theorem numbered_nil (i : Nat) : numbered i [] = [] := rfl

@[simp] theorem numbered_cons (i : Nat) (p : Path) (ps : List Path) :
    numbered i (p :: ps) = (i, p) :: numbered (i + 1) ps := rfl

theorem length_numbered (i : Nat) (ps : List Path) : (numbered i ps).length = ps.length := by
  rw [numbered, List.length_map, List.length_zipIdx]

theorem map_snd_numbered (i : Nat) (ps : List Path) : (numbered i ps).map Prod.snd = ps := by
  induction ps generalizing i with
  | nil => rfl
  | cons p ps ih => rw [numbered_cons, List.map_cons, ih]

theorem mem_numbered_zero_iff {ps : List Path} {i : Nat} {p : Path} :
    (i, p) ∈ numbered 0 ps ↔ ps[i]? = some p := by
  rw [numbered, List.mem_map]
  constructor
  · rintro ⟨⟨q, j⟩, hmem, hswap⟩
    obtain ⟨rfl, rfl⟩ := Prod.mk.inj hswap
    exact List.mem_zipIdx_iff_getElem?.mp hmem
  · intro h
    exact ⟨(p, i), List.mem_zipIdx_iff_getElem?.mpr h, rfl⟩

/-- `src` is the records of `rs`, and behind them what `fault` says. -/
structure Splits (src : List UInt8) (rs : List Path) (fault : Option ReadError) : Prop where
  short : ∀ r ∈ rs, r.length < lengthLimit
  eq : ∃ tail, src = encode rs ++ tail ∧ Remains tail fault

theorem encode_cons (p : Path) (ps : List Path) : encode (p :: ps) = record p ++ encode ps := rfl

theorem splits_nil : Splits [] [] none := ⟨nofun, [], rfl, .nothing rfl⟩

theorem Splits.cons (hp : p.length < lengthLimit) (h : Splits rest rs fault) :
    Splits (record p ++ rest) (p :: rs) fault := by
  obtain ⟨hshort, tail, rfl, htail⟩ := h
  refine ⟨fun r hr => ?_, tail, by rw [encode_cons, List.append_assoc], htail⟩
  rcases List.mem_cons.mp hr with rfl | hr
  · exact hp
  · exact hshort r hr

theorem Splits.tail (h : Splits src (p :: rs) fault) :
    p.length < lengthLimit ∧ ∃ rest, src = record p ++ rest ∧ Splits rest rs fault := by
  obtain ⟨hshort, tail, rfl, htail⟩ := h
  refine ⟨hshort p List.mem_cons_self, encode rs ++ tail, by rw [encode_cons, List.append_assoc], ?_⟩
  exact ⟨fun r hr => hshort r (List.mem_cons_of_mem p hr), tail, rfl, htail⟩

/-- Records without anything behind them. -/
theorem splits_encode (h : ∀ p ∈ ps, p.length < lengthLimit) : Splits (encode ps) ps none :=
  ⟨h, [], (List.append_nil _).symm, .nothing rfl⟩

theorem exists_splits (src : List UInt8) : ∃ rs fault, Splits src rs fault := by
  induction hn : src.length using Nat.strong_induction_on generalizing src with
  | _ n ih =>
    by_cases hsrc : src = []
    · exact ⟨[], none, hsrc ▸ splits_nil⟩
    rcases of_firstRecord hsrc with ⟨p, rest, rfl, hp⟩ | ⟨e, he⟩
    · have hlt : rest.length < n := by
        rw [← hn, List.length_append, length_record]
        simp only [lengthWidth]
        omega
      obtain ⟨rs, fault, hrest⟩ := ih _ hlt rest rfl
      exact ⟨p :: rs, fault, hrest.cons hp⟩
    · exact ⟨[], some e, nofun, src, rfl, he⟩

/-! ## Reading -/

/-- The paths that are kept of those that are asked about. -/
def kept (keep : Nat → Path → Bool) (asked : List (Nat × Path)) : List Path :=
  (asked.filter fun a => keep a.1 a.2).map Prod.snd

theorem kept_cons (keep : Nat → Path → Bool) (i : Nat) (p : Path) (asked : List (Nat × Path)) :
    kept keep ((i, p) :: asked) = if keep i p then p :: kept keep asked else kept keep asked := by
  by_cases h : keep i p = true <;> simp [kept, h]

/-- The induction is on the complete records.  What is left of `limit` is enough for what is left of the
bytes, as every record has some. -/
theorem Splits.selectUpTo_eq (h : Splits src rs fault) (keep : Nat → Path → Bool) {limit : Nat}
    (hlimit : src.length ≤ limit) (i : Nat) :
    selectUpTo keep limit i src = ⟨kept keep (numbered i rs), numbered i rs, fault⟩ := by
  induction rs generalizing src limit i with
  | nil =>
    obtain ⟨-, src, rfl, hsrc⟩ := h
    cases fault with
    | none =>
      cases hsrc with
      | nothing h =>
        subst h
        cases limit <;> rfl
    | some e =>
      have hpos : 0 < src.length := List.length_pos_iff.mpr hsrc.ne_nil
      obtain ⟨limit, rfl⟩ : ∃ l, limit = l + 1 := ⟨limit - 1, by
        have hle : src.length ≤ limit := hlimit
        omega⟩
      show selectUpTo keep (limit + 1) i src = _
      rw [selectUpTo, if_neg (by simpa using hsrc.ne_nil), firstRecord_remains hsrc]
      rfl
  | cons p rs ih =>
    obtain ⟨hp, rest, rfl, hrest⟩ := h.tail
    rw [List.length_append, length_record, lengthWidth] at hlimit
    obtain ⟨limit, rfl⟩ : ∃ l, limit = l + 1 := ⟨limit - 1, by omega⟩
    have hne : ¬(record p ++ rest).isEmpty = true := by
      rw [List.isEmpty_iff]
      intro hnil
      have hlen := congrArg List.length hnil
      rw [List.length_append, length_record, List.length_nil, lengthWidth] at hlen
      omega
    rw [selectUpTo, if_neg hne, firstRecord_record hp]
    dsimp only
    rw [ih hrest (by omega) (i + 1), numbered_cons, kept_cons]

theorem Splits.select_eq (h : Splits src rs fault) (keep : Nat → Path → Bool) :
    select keep src = ⟨kept keep (numbered 0 rs), numbered 0 rs, fault⟩ :=
  h.selectUpTo_eq keep (Nat.le_refl _) 0

/-- There is one way to take a string of bytes apart. -/
theorem Splits.unique {rs' : List Path} {fault' : Option ReadError} (h : Splits src rs fault)
    (h' : Splits src rs' fault') : rs = rs' ∧ fault = fault' := by
  have heq := h.select_eq fun _ _ => true
  rw [h'.select_eq, Selection.mk.injEq] at heq
  obtain ⟨-, hasked, hfault⟩ := heq
  have hrs := congrArg (List.map Prod.snd) hasked
  rw [map_snd_numbered, map_snd_numbered] at hrs
  exact ⟨hrs.symm, hfault.symm⟩

theorem mem_kept_numbered_iff (keep : Nat → Path → Bool) (rs : List Path) (k : Path) :
    k ∈ kept keep (numbered 0 rs) ↔ ∃ i, rs[i]? = some k ∧ keep i k = true := by
  rw [kept, List.mem_map]
  constructor
  · rintro ⟨⟨i, q⟩, hmem, rfl⟩
    obtain ⟨hmem, hkeep⟩ := List.mem_filter.mp hmem
    exact ⟨i, mem_numbered_zero_iff.mp hmem, hkeep⟩
  · rintro ⟨i, hi, hkeep⟩
    exact ⟨(i, k), List.mem_filter.mpr ⟨mem_numbered_zero_iff.mpr hi, hkeep⟩, rfl⟩

theorem Splits.readAsking_eq_error (h : Splits src rs (some e)) (keep : Nat → Path → Bool) (m : Nat) :
    (readAsking keep src m).1 = ⟨.error e, numbered 0 rs⟩ := by
  unfold readAsking
  rw [h.select_eq]
  rfl

theorem Splits.readAsking_eq_ok (h : Splits src rs none) (keep : Nat → Path → Bool) (m : Nat) :
    (readAsking keep src m).1 =
      ⟨.ok ((Trie.ofPaths (kept keep (numbered 0 rs)) m).1, ⟨src.length, rs.length⟩),
        numbered 0 rs⟩ := by
  unfold readAsking
  rw [h.select_eq]
  show (_ : Reading) = ⟨.ok (_, ⟨_, rs.length⟩), _⟩
  rw [← length_numbered 0 rs]
  rfl

/-- A string of bytes is complete records and then nothing, too little for a length or too little for
a path; it is so in one way.  The records are all that is asked about, in their order, and what follows
them decides what comes back: an error, or the set of the records that were accepted. -/
theorem read_splits (keep : Nat → Path → Bool) (src : List UInt8) {m : Nat} (hm : firstId ≤ m) :
    (∃! s : List Path × Option ReadError, Splits src s.1 s.2) ∧
    (∀ rs fault, Splits src rs fault →
      (readAsking keep src m).1.asked = numbered 0 rs ∧
      (∀ e, fault = some e → (readAsking keep src m).1.result = .error e) ∧
      (fault = none → ∃ t,
        (readAsking keep src m).1.result = .ok (t, ⟨src.length, rs.length⟩) ∧ t.Canonical ∧
          ∀ k, t.contains k = true ↔ ∃ i, rs[i]? = some k ∧ keep i k = true)) ∧
    ReadError.truncatedLength.message = "truncated path length" ∧
    ReadError.truncatedPath.message = "truncated path" ∧
    ∀ e : ReadError, e.kind = .unexpectedEnd := by
  refine ⟨?unique, fun rs fault h => ⟨?asked, ?fails, ?succeeds⟩, rfl, rfl, fun e => by cases e <;> rfl⟩
  case unique =>
    obtain ⟨rs, fault, h⟩ := exists_splits src
    refine ⟨(rs, fault), h, fun s hs => ?_⟩
    obtain ⟨hrs, hfault⟩ := hs.unique h
    exact Prod.ext hrs hfault
  case asked =>
    cases fault with
    | none => rw [h.readAsking_eq_ok]
    | some e => rw [h.readAsking_eq_error]
  case fails =>
    rintro e rfl
    rw [h.readAsking_eq_error]
  case succeeds =>
    rintro rfl
    rw [h.readAsking_eq_ok]
    have hset := isSetOf_ofPaths (kept keep (numbered 0 rs)) hm
    refine ⟨_, rfl, hset.canonical, fun k => ?_⟩
    rw [hset.canonical.contains_iff, hset.mem_iff, mem_kept_numbered_iff]

/-- Two records, the second one of the empty path and the only one that is accepted; and the same with
three more bytes. -/
theorem read_splits_second :
    (∃ t, (readAsking (fun i _ => i == 1) [1, 0, 0, 0, 97, 0, 0, 0, 0] 7).1.result = .ok (t, ⟨9, 2⟩) ∧
      t.contains [] = true ∧ t.contains [97] = false) ∧
    (readAsking (fun i _ => i == 1) [1, 0, 0, 0, 97, 0, 0, 0, 0, 9, 0, 0] 7).1.result =
      .error .truncatedLength ∧
    (readAsking (fun i _ => i == 1) [1, 0, 0, 0, 97, 0, 0, 0, 0, 9, 0, 0] 7).1.asked =
      [(0, [97]), (1, [])] := by
  have hshort : ∀ p ∈ ([[97], []] : List Path), p.length < lengthLimit := by decide
  obtain ⟨-, hcomplete, -⟩ := read_splits (fun i _ => i == 1) [1, 0, 0, 0, 97, 0, 0, 0, 0]
    (m := 7) (by decide)
  obtain ⟨-, hcut, -⟩ := read_splits (fun i _ => i == 1) [1, 0, 0, 0, 97, 0, 0, 0, 0, 9, 0, 0]
    (m := 7) (by decide)
  obtain ⟨-, -, hok⟩ := hcomplete [[97], []] none (splits_encode hshort)
  obtain ⟨t, hresult, -, hmem⟩ := hok rfl
  obtain ⟨hasked, herror, -⟩ := hcut [[97], []] (some .truncatedLength)
    ⟨hshort, [9, 0, 0], rfl, .length (by decide) (by decide)⟩
  refine ⟨⟨t, hresult, (hmem []).mpr ⟨1, rfl, rfl⟩, ?_⟩, herror _ rfl, hasked⟩
  rw [← Bool.not_eq_true, hmem]
  rintro ⟨i, hi, hkeep⟩
  obtain rfl := beq_iff_eq.mp hkeep
  cases hi

end PathList

end ByteTrie
