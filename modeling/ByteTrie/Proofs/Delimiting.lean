import ByteTrie.Proofs.RoundTrip
import Mathlib

/-!
# Where an encoding ends

A reader takes the bytes one after the other, so what it has found in front of its input, a value or a
fault, does not change with the bytes that stand further back.  Only where the input ends too early
could more of it be answered otherwise, and then the fault names the end.  The end of an encoding is
therefore told by the encoding itself: no encoding is the beginning of another one.

    Throws r E     every fault of r satisfies E
    Delimits r     r answers a longer input as it answers its front, unless the front ends too early
    IsValid n src  src is read as a trie
-/

namespace ByteTrie

open Trie

namespace Input

/-- The same input with `more` behind it. -/
def append (s : Input) (more : List UInt8) : Input := { s with rest := s.rest ++ more }

/-- The offset at which the input ends. -/
def stop (s : Input) : Nat := s.offset + s.rest.length

end Input

namespace DecodeError

/-- What may be wrong with a flag, a number or a key: neither the nesting nor what stands behind. -/
def IsLocal : DecodeError → Prop
  | .depthLimitExceeded _ | .trailingBytes _ _ => False
  | _ => True

theorem IsLocal.ne_depthLimitExceeded {e : DecodeError} (he : e.IsLocal) (l : Nat) :
    e ≠ .depthLimitExceeded l := by
  rintro rfl
  exact he

theorem IsLocal.ne_trailingBytes {e : DecodeError} (he : e.IsLocal) (o m : Nat) :
    e ≠ .trailingBytes o m := by
  rintro rfl
  exact he

end DecodeError

namespace Reader

variable {α β : Type}

/-! ## Faults -/

def Throws (r : Reader α) (E : DecodeError → Prop) : Prop := ∀ s e, r s = .error e → E e

theorem throws_pure (a : α) (E : DecodeError → Prop) : Throws (pure a) E := by
  intro s e h
  cases h

theorem throws_throw {e : DecodeError} {E : DecodeError → Prop} (he : E e) :
    Throws (throw e : Reader α) E := by
  intro s e' h
  cases h
  exact he

theorem Throws.bind {r : Reader α} {f : α → Reader β} {E : DecodeError → Prop} (hr : Throws r E)
    (hf : ∀ a, Throws (f a) E) : Throws (r >>= f) E := by
  intro s e h
  rcases bind_eq_error_iff.mp h with h | ⟨a, s', -, h⟩
  · exact hr s e h
  · exact hf a s' e h

theorem throws_guard {c : Prop} [Decidable c] {e : DecodeError} {f : α → Reader β} {r : Reader β}
    {E : DecodeError → Prop} (he : E e) (h : Throws r E) :
    Throws (if c then throw e >>= f else r) E := by
  intro s e' hs
  by_cases hc : c
  · rw [if_pos hc] at hs
    cases hs
    exact he
  · rw [if_neg hc] at hs
    exact h s e' hs

theorem Throws.imp {r : Reader α} {E F : DecodeError → Prop} (hr : Throws r E)
    (h : ∀ e, E e → F e) : Throws r F :=
  fun s e hs => h e (hr s e hs)

theorem throws_offset (E : DecodeError → Prop) : Throws offset E := by
  intro s e h
  cases h

theorem throws_lift (x : Fresh α) (E : DecodeError → Prop) : Throws (lift x) E := by
  intro s e h
  cases h

theorem throws_byte : Throws byte DecodeError.IsLocal := by
  intro s e h
  obtain ⟨rest, offset, next⟩ := s
  cases rest with
  | nil =>
    cases h
    trivial
  | cons b bs => cases h

theorem throws_bytes (n : Nat) : Throws (bytes n) DecodeError.IsLocal := by
  intro s e h
  rw [bytes_apply] at h
  split at h
  · cases h
    trivial
  · cases h

theorem throws_varintFrom (start digits scale value : Nat) :
    Throws (varintFrom start digits scale value) DecodeError.IsLocal := by
  induction digits generalizing scale value with
  | zero => exact throws_throw (by trivial)
  | succ digits ih =>
    rw [varintFrom]
    refine throws_byte.bind fun b => throws_guard (by trivial) ?_
    dsimp only
    split
    · exact ih _ _
    · split
      · exact throws_throw (by trivial)
      · exact throws_pure _ _

theorem throws_varint : Throws varint DecodeError.IsLocal := by
  rw [varint]
  exact (throws_offset _).bind fun start => throws_varintFrom start _ 1 0

theorem throws_flag : Throws flag DecodeError.IsLocal := by
  rw [flag]
  refine (throws_offset _).bind fun start => throws_byte.bind fun b => ?_
  split
  · exact throws_pure _ _
  · exact throws_pure _ _
  · exact throws_throw (by trivial)

theorem throws_key (previous : Option UInt8) : Throws (key previous) DecodeError.IsLocal := by
  rw [key]
  refine (throws_offset _).bind fun start => throws_varint.bind fun size => ?_
  refine throws_guard (by trivial) (throws_byte.bind fun b => ?_)
  refine (throws_bytes _).bind fun k => throws_guard (by trivial) (throws_pure _ _)

theorem throws_edges {child : Reader Trie} {E : DecodeError → Prop} (hchild : Throws child E)
    (hE : ∀ e, e.IsLocal → E e) (n : Nat) (previous : Option UInt8) :
    Throws (edges child n previous) E := by
  induction n generalizing previous with
  | zero => exact throws_pure _ _
  | succ n ih =>
    rw [edges]
    refine ((throws_key previous).imp hE).bind fun r => ?_
    exact hchild.bind fun c => (ih _).bind fun es => throws_pure _ _

/-- Only a whole input has bytes behind its root. -/
theorem throws_node (limit levels : Nat) (isRoot : Bool) :
    Throws (node limit levels isRoot) fun e => ∀ o m, e ≠ .trailingBytes o m := by
  induction levels generalizing isRoot with
  | zero => exact throws_throw (by simp)
  | succ levels ih =>
    rw [node]
    have hlocal : ∀ e : DecodeError, e.IsLocal → ∀ o m, e ≠ .trailingBytes o m :=
      fun e he => he.ne_trailingBytes
    refine (throws_offset _).bind fun start => (throws_flag.imp hlocal).bind fun t => ?_
    refine (throws_varint.imp hlocal).bind fun n => ?_
    refine throws_guard (by simp) (throws_guard (by simp) ?_)
    exact (throws_edges (ih false) hlocal n none).bind fun es => throws_lift _ _

/-! ## More bytes behind the input -/

structure Delimits (r : Reader α) : Prop where
  stop_eq : ∀ s a s', r s = .ok (a, s') → s'.stop = s.stop
  value : ∀ s a s' more, r s = .ok (a, s') → r (s.append more) = .ok (a, s'.append more)
  fault : ∀ s e more, r s = .error e → (∀ o, e ≠ .unexpectedEnd o) →
    r (s.append more) = .error e
  ended : ∀ s o, r s = .error (.unexpectedEnd o) → o = s.stop

theorem delimits_pure (a : α) : Delimits (pure a) where
  stop_eq s a' s' h := by cases h; rfl
  value s a' s' more h := by cases h; rfl
  fault s e more h _ := by cases h
  ended s o h := by cases h

theorem delimits_throw {e : DecodeError} (he : ∀ o, e ≠ .unexpectedEnd o) :
    Delimits (throw e : Reader α) where
  stop_eq s a s' h := by cases h
  value s a s' more h := by cases h
  fault s e' more h _ := by cases h; rfl
  ended s o h := by
    cases h
    exact absurd rfl (he o)

/-- A step that ends where it ended before hands the same rest to the next one. -/
theorem Delimits.bind {r : Reader α} {f : α → Reader β} (hr : Delimits r)
    (hf : ∀ a, Delimits (f a)) : Delimits (r >>= f) where
  stop_eq s b s'' h := by
    obtain ⟨a, s', ha, hb⟩ := bind_eq_ok_iff.mp h
    exact ((hf a).stop_eq s' b s'' hb).trans (hr.stop_eq s a s' ha)
  value s b s'' more h := by
    obtain ⟨a, s', ha, hb⟩ := bind_eq_ok_iff.mp h
    exact bind_eq_ok_iff.mpr ⟨a, s'.append more, hr.value s a s' more ha,
      (hf a).value s' b s'' more hb⟩
  fault s e more h he := by
    rcases bind_eq_error_iff.mp h with h | ⟨a, s', ha, hb⟩
    · exact bind_eq_error_iff.mpr (Or.inl (hr.fault s e more h he))
    · exact bind_eq_error_iff.mpr (Or.inr ⟨a, s'.append more, hr.value s a s' more ha,
        (hf a).fault s' e more hb he⟩)
  ended s o h := by
    rcases bind_eq_error_iff.mp h with h | ⟨a, s', ha, hb⟩
    · exact hr.ended s o h
    · rw [(hf a).ended s' o hb, hr.stop_eq s a s' ha]

theorem delimits_guard {c : Prop} [Decidable c] {e : DecodeError} {f : α → Reader β}
    {r : Reader β} (he : ∀ o, e ≠ .unexpectedEnd o) (h : Delimits r) :
    Delimits (if c then throw e >>= f else r) := by
  by_cases hc : c
  · rw [if_pos hc]
    exact delimits_throw he
  · rw [if_neg hc]
    exact h

theorem delimits_offset : Delimits offset where
  stop_eq s a s' h := by cases h; rfl
  value s a s' more h := by cases h; rfl
  fault s e more h _ := by cases h
  ended s o h := by cases h

theorem delimits_lift (x : Fresh α) : Delimits (lift x) where
  stop_eq s a s' h := by cases h; rfl
  value s a s' more h := by cases h; rfl
  fault s e more h _ := by cases h
  ended s o h := by cases h

theorem delimits_byte : Delimits byte where
  stop_eq s a s' h := by
    obtain ⟨rest, offset, next⟩ := s
    cases rest with
    | nil => cases h
    | cons b bs =>
      cases h
      simp only [Input.stop, List.length_cons]
      omega
  value s a s' more h := by
    obtain ⟨rest, offset, next⟩ := s
    cases rest with
    | nil => cases h
    | cons b bs => cases h; rfl
  fault s e more h he := by
    obtain ⟨rest, offset, next⟩ := s
    cases rest with
    | nil =>
      cases h
      exact absurd rfl (he _)
    | cons b bs => cases h
  ended s o h := by
    obtain ⟨rest, offset, next⟩ := s
    cases rest with
    | nil => cases h; rfl
    | cons b bs => cases h

theorem bytes_of_lt {n : Nat} {s : Input} (hn : s.rest.length < n) :
    bytes n s = .error (.unexpectedEnd s.stop) := by
  rw [bytes_apply, List.splitAt_eq, List.length_take, Nat.min_eq_right hn.le, if_pos hn]
  rfl

theorem bytes_of_le {n : Nat} {s : Input} (hn : n ≤ s.rest.length) : bytes n s =
    .ok (s.rest.take n, { s with rest := s.rest.drop n, offset := s.offset + n }) := by
  rw [bytes_apply, List.splitAt_eq, List.length_take, Nat.min_eq_left hn,
    if_neg (Nat.lt_irrefl n)]

/-- Bytes are taken from the front, so what stands behind them only moves on. -/
theorem delimits_bytes (n : Nat) : Delimits (bytes n) where
  stop_eq s k s' h := by
    rcases Nat.lt_or_ge s.rest.length n with hn | hn
    · rw [bytes_of_lt hn] at h
      cases h
    · rw [bytes_of_le hn] at h
      cases h
      simp only [Input.stop, List.length_drop]
      omega
  value s k s' more h := by
    rcases Nat.lt_or_ge s.rest.length n with hn | hn
    · rw [bytes_of_lt hn] at h
      cases h
    · rw [bytes_of_le hn] at h
      cases h
      have hlong : n ≤ (s.append more).rest.length :=
        hn.trans (List.prefix_append s.rest more).length_le
      have htake : (s.append more).rest.take n = s.rest.take n := List.take_append_of_le_length hn
      have hdrop : (s.append more).rest.drop n = s.rest.drop n ++ more :=
        List.drop_append_of_le_length hn
      rw [bytes_of_le hlong, htake, hdrop]
      rfl
  fault s e more h he := by
    rcases Nat.lt_or_ge s.rest.length n with hn | hn
    · rw [bytes_of_lt hn] at h
      cases h
      exact absurd rfl (he _)
    · rw [bytes_of_le hn] at h
      cases h
  ended s o h := by
    rcases Nat.lt_or_ge s.rest.length n with hn | hn
    · rw [bytes_of_lt hn] at h
      cases h
      rfl
    · rw [bytes_of_le hn] at h
      cases h

theorem delimits_varintFrom (start digits scale value : Nat) :
    Delimits (varintFrom start digits scale value) := by
  induction digits generalizing scale value with
  | zero => exact delimits_throw (by simp)
  | succ digits ih =>
    rw [varintFrom]
    refine delimits_byte.bind fun b => delimits_guard (by simp) ?_
    dsimp only
    split
    · exact ih _ _
    · split
      · exact delimits_throw (by simp)
      · exact delimits_pure _

theorem delimits_varint : Delimits varint := by
  rw [varint]
  exact delimits_offset.bind fun start => delimits_varintFrom start _ 1 0

theorem delimits_flag : Delimits flag := by
  rw [flag]
  refine delimits_offset.bind fun start => delimits_byte.bind fun b => ?_
  split
  · exact delimits_pure _
  · exact delimits_pure _
  · exact delimits_throw (by simp)

theorem delimits_key (previous : Option UInt8) : Delimits (key previous) := by
  rw [key]
  refine delimits_offset.bind fun start => delimits_varint.bind fun size => ?_
  refine delimits_guard (by simp) (delimits_byte.bind fun b => ?_)
  exact (delimits_bytes _).bind fun k => delimits_guard (by simp) (delimits_pure _)

theorem delimits_edges {child : Reader Trie} (hchild : Delimits child) (n : Nat)
    (previous : Option UInt8) : Delimits (edges child n previous) := by
  induction n generalizing previous with
  | zero => exact delimits_pure _
  | succ n ih =>
    rw [edges]
    refine (delimits_key previous).bind fun r => ?_
    exact hchild.bind fun c => (ih _).bind fun es => delimits_pure _

theorem delimits_node (limit levels : Nat) (isRoot : Bool) :
    Delimits (node limit levels isRoot) := by
  induction levels generalizing isRoot with
  | zero => exact delimits_throw (by simp)
  | succ levels ih =>
    rw [node]
    refine delimits_offset.bind fun start => delimits_flag.bind fun t => ?_
    refine delimits_varint.bind fun n => delimits_guard (by simp) (delimits_guard (by simp) ?_)
    exact (delimits_edges (ih false) n none).bind fun es => delimits_lift _

/-! ## Whole inputs -/

theorem run_eq_ok_iff {r : Reader α} {src : List UInt8} {n : Nat} {a : α} :
    (r.run src n).1 = .ok a ↔ ∃ s, r ⟨src, 0, n⟩ = .ok (a, s) ∧ s.rest = [] := by
  unfold run
  cases r ⟨src, 0, n⟩ with
  | error e => simp
  | ok x =>
    obtain ⟨a', s⟩ := x
    cases hs : s.rest with
    | nil => simp [hs]
    | cons b bs => simp [hs]

/-- A whole input is refused where its reader stops, or for what stands behind. -/
theorem run_eq_error_iff {r : Reader α} {src : List UInt8} {n : Nat} {e : DecodeError} :
    (r.run src n).1 = .error e ↔ r ⟨src, 0, n⟩ = .error e ∨
      ∃ a s, r ⟨src, 0, n⟩ = .ok (a, s) ∧ s.rest ≠ [] ∧
        e = .trailingBytes s.offset s.rest.length := by
  unfold run
  cases r ⟨src, 0, n⟩ with
  | error e' => simp
  | ok x =>
    obtain ⟨a, s⟩ := x
    cases hs : s.rest with
    | nil => simp [hs]
    | cons b bs => simp [hs, eq_comm]

namespace Delimits

variable {r : Reader α} {src more : List UInt8} {n : Nat}

theorem run_of_ok (h : Delimits r) {a : α} (hr : (r.run src n).1 = .ok a) (hm : more ≠ []) :
    (r.run (src ++ more) n).1 = .error (.trailingBytes src.length more.length) := by
  obtain ⟨s, hs, hrest⟩ := run_eq_ok_iff.mp hr
  have hstop := h.stop_eq _ _ _ hs
  simp only [Input.stop, hrest, List.length_nil, Nat.add_zero, Nat.zero_add] at hstop
  refine run_eq_error_iff.mpr (Or.inr ⟨a, s.append more, h.value _ _ _ more hs, ?_⟩)
  simpa [Input.append, hrest, hstop] using hm

theorem run_of_trailing (h : Delimits r) (ht : Throws r fun e => ∀ o m, e ≠ .trailingBytes o m)
    {o m : Nat} (hr : (r.run src n).1 = .error (.trailingBytes o m)) :
    (r.run (src ++ more) n).1 = .error (.trailingBytes o (m + more.length)) := by
  rcases run_eq_error_iff.mp hr with hr | ⟨a, s, hs, hrest, heq⟩
  · exact absurd rfl (ht _ _ hr o m)
  · cases heq
    refine run_eq_error_iff.mpr (Or.inr ⟨a, s.append more, h.value _ _ _ more hs, ?_⟩)
    simp [Input.append, hrest]

theorem run_of_fault (h : Delimits r) {e : DecodeError} (hr : (r.run src n).1 = .error e)
    (he : ∀ o, e ≠ .unexpectedEnd o) (he' : ∀ o m, e ≠ .trailingBytes o m) :
    (r.run (src ++ more) n).1 = .error e := by
  rcases run_eq_error_iff.mp hr with hr | ⟨a, s, -, -, heq⟩
  · exact run_eq_error_iff.mpr (Or.inl (h.fault _ e more hr he))
  · exact absurd heq (he' _ _)

theorem run_of_ended (h : Delimits r) {o : Nat}
    (hr : (r.run src n).1 = .error (.unexpectedEnd o)) : o = src.length := by
  rcases run_eq_error_iff.mp hr with hr | ⟨a, s, -, -, heq⟩
  · exact (h.ended _ o hr).trans (Nat.zero_add _)
  · cases heq

/-- The beginning of what is accepted ends too early. -/
theorem run_of_append_ok (h : Delimits r)
    (ht : Throws r fun e => ∀ o m, e ≠ .trailingBytes o m) {a : α}
    (hr : (r.run (src ++ more) n).1 = .ok a) (hm : more ≠ []) :
    (r.run src n).1 = .error (.unexpectedEnd src.length) := by
  cases hsrc : (r.run src n).1 with
  | ok b =>
    have hlong := h.run_of_ok hsrc hm
    rw [hr] at hlong
    cases hlong
  | error e =>
    by_cases hend : ∃ o, e = .unexpectedEnd o
    · obtain ⟨o, rfl⟩ := hend
      rw [h.run_of_ended hsrc]
    · by_cases hback : ∃ o m, e = .trailingBytes o m
      · obtain ⟨o, m, rfl⟩ := hback
        have hlong : (r.run (src ++ more) n).1 = _ := h.run_of_trailing ht hsrc
        rw [hr] at hlong
        cases hlong
      · have hlong : (r.run (src ++ more) n).1 = _ :=
          h.run_of_fault hsrc (fun o ho => hend ⟨o, ho⟩) fun o m ho => hback ⟨o, m, ho⟩
        rw [hr] at hlong
        cases hlong

end Delimits

end Reader

namespace Trie

/-- The bytes that are read as a trie, the next unused id being `n`. -/
def IsValid (n : Nat) (src : List UInt8) : Prop := ∃ t, (decode src n).1 = .ok t

theorem isValid_encode {t : Trie} (hc : t.Canonical) (hlen : ∀ p ∈ t, p.length < UInt64.size)
    (n : Nat) : IsValid n t.encode := by
  obtain ⟨u, hu, -⟩ := exists_decode_encode hc hlen n
  exact ⟨u, hu⟩

/-- What is answered for `src` tells what is answered with more bytes behind it, except where `src`
ends too early, as each proper beginning of a valid encoding does. -/
theorem decode_append (src more : List UInt8) (n : Nat) :
    (∀ t, (decode src n).1 = .ok t → more ≠ [] →
      (decode (src ++ more) n).1 = .error (.trailingBytes src.length more.length)) ∧
    (∀ o m, (decode src n).1 = .error (.trailingBytes o m) →
      (decode (src ++ more) n).1 = .error (.trailingBytes o (m + more.length))) ∧
    (∀ e, (decode src n).1 = .error e → (∀ o, e ≠ .unexpectedEnd o) →
      (∀ o m, e ≠ .trailingBytes o m) → (decode (src ++ more) n).1 = .error e) ∧
    (∀ o, (decode src n).1 = .error (.unexpectedEnd o) → o = src.length) ∧
    (IsValid n (src ++ more) → more ≠ [] →
      (decode src n).1 = .error (.unexpectedEnd src.length)) ∧
    (IsValid n src → IsValid n (src ++ more) → more = []) ∧
    ∀ t : Trie, t.Canonical → (∀ p ∈ t, p.length < UInt64.size) → IsValid n t.encode := by
  have hd := Reader.delimits_node unlimitedDepth (unlimitedDepth + 1) true
  have ht := Reader.throws_node unlimitedDepth (unlimitedDepth + 1) true
  have hbeginning : IsValid n (src ++ more) → more ≠ [] →
      (decode src n).1 = .error (.unexpectedEnd src.length) := by
    rintro ⟨t, hlong⟩ hm
    exact hd.run_of_append_ok ht hlong hm
  refine ⟨fun t h hm => hd.run_of_ok h hm, fun o m h => hd.run_of_trailing ht h,
    fun e h he he' => hd.run_of_fault h he he', fun o h => hd.run_of_ended h, hbeginning, ?_,
    fun t hc hlen => isValid_encode hc hlen n⟩
  rintro ⟨t, hshort⟩ hlong
  by_contra hm
  rw [hbeginning hlong hm] at hshort
  cases hshort

/-- The encoding of the set of the path 1 2 with bytes behind it and without its last ones, and a key
without bytes. -/
theorem decode_append_firstSet :
    (decode ([0, 1, 2, 1, 2, 1, 0] ++ [9, 9]) firstId).1 = .error (.trailingBytes 7 2) ∧
      (decode ([0, 1, 2, 1, 2, 1, 0, 9] ++ [9]) firstId).1 = .error (.trailingBytes 7 2) ∧
      (decode ([0, 1, 0] ++ [9]) firstId).1 = .error (.emptyEdge 2) ∧
      (decode [0, 1, 2, 1] firstId).1 = .error (.unexpectedEnd 4) := by
  have hvalid : IsValid firstId ([0, 1, 2, 1] ++ [2, 1, 0]) := ⟨_, rfl⟩
  refine ⟨?_, ?_, ?_, ?_⟩
  · exact (decode_append [0, 1, 2, 1, 2, 1, 0] [9, 9] firstId).1 _ rfl (by decide)
  · exact (decode_append [0, 1, 2, 1, 2, 1, 0, 9] [9] firstId).2.1 7 1 rfl
  · exact (decode_append [0, 1, 0] [9] firstId).2.2.1 _ rfl (by simp) (by simp)
  · exact (decode_append [0, 1, 2, 1] [2, 1, 0] firstId).2.2.2.2.1 hvalid (by decide)

end Trie

end ByteTrie
