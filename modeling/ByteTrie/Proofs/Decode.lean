import ByteTrie.Codec.PathList
import ByteTrie.Codec.Tree
import ByteTrie.Proofs.Build
import Mathlib

/-!
# What a reader accepts is a set

A reader makes nodes between the bytes it takes, so it is followed through the pool like any other
computation; where it stops at a fault nothing is claimed.  The checks that it makes are what the
canonical form asks for: bytes in order, and no node below the root that could be left out.

    P.Reads r post   iff  wherever r, run on the nodes of P, gives a value a, it leaves a pool Q that
                          has all nodes of P, and post Q a
-/

namespace ByteTrie

open Trie Pool

namespace Reader

/-! ## One step -/

theorem bind_apply {α β : Type} (r : Reader α) (f : α → Reader β) (s : Input) :
    (r >>= f) s = (r s).bind fun x => f x.1 x.2 :=
  rfl

theorem bind_eq_ok_iff {α β : Type} {r : Reader α} {f : α → Reader β} {s s'' : Input} {b : β} :
    (r >>= f) s = .ok (b, s'') ↔ ∃ a s', r s = .ok (a, s') ∧ f a s' = .ok (b, s'') := by
  rw [bind_apply]
  cases r s with
  | error e => simp [Except.bind]
  | ok x =>
    obtain ⟨a, s'⟩ := x
    simp [Except.bind]

/-- A reader fails in its first step or behind it. -/
theorem bind_eq_error_iff {α β : Type} {r : Reader α} {f : α → Reader β} {s : Input}
    {e : DecodeError} : (r >>= f) s = .error e ↔
      r s = .error e ∨ ∃ a s', r s = .ok (a, s') ∧ f a s' = .error e := by
  rw [bind_apply]
  cases r s with
  | error e' => simp [Except.bind]
  | ok x =>
    obtain ⟨a, s'⟩ := x
    simp [Except.bind]

theorem bytes_apply (n : Nat) (s : Input) :
    bytes n s = if (s.rest.splitAt n).1.length < n
      then .error (.unexpectedEnd (s.offset + (s.rest.splitAt n).1.length))
      else .ok ((s.rest.splitAt n).1,
        { s with rest := (s.rest.splitAt n).2, offset := s.offset + n }) := by
  by_cases hn : (s.rest.splitAt n).1.length < n
  · simp only [bytes, bind, StateT.bind, get, getThe, MonadStateOf.get, StateT.get, pure,
      Except.pure, Except.bind, hn, if_true]
    rfl
  · simp only [bytes, bind, StateT.bind, get, getThe, MonadStateOf.get, StateT.get, pure,
      Except.pure, Except.bind, hn, if_false]
    rfl

end Reader

namespace Pool

/-- What a reader gives when it is run on the nodes of `P`. -/
def Reads {α : Type} (P : Pool) (r : Reader α) (post : Pool → α → Prop) : Prop :=
  ∀ s a s', s.nextId = P.next → r s = .ok (a, s') →
    ∃ Q, P ≤ Q ∧ s'.nextId = Q.next ∧ post Q a

variable {P Q : Pool} {α β : Type}

theorem reads_pure {a : α} {post : Pool → α → Prop} (h : post P a) : P.Reads (pure a) post := by
  intro s a' s' hs hr
  cases hr
  exact ⟨P, le_refl P, hs, h⟩

theorem reads_throw (e : DecodeError) (post : Pool → α → Prop) : P.Reads (throw e) post := by
  intro s a s' _ hr
  cases hr

theorem Reads.bind {r : Reader α} {f : α → Reader β} {mid : Pool → α → Prop}
    {post : Pool → β → Prop} (hr : P.Reads r mid)
    (hf : ∀ Q a, P ≤ Q → mid Q a → Q.Reads (f a) post) : P.Reads (r >>= f) post := by
  intro s b s' hs hb
  rw [Reader.bind_apply] at hb
  cases ha : r s with
  | error e =>
    rw [ha] at hb
    cases hb
  | ok x =>
    rw [ha] at hb
    obtain ⟨Q, hPQ, hn, hmid⟩ := hr s x.1 x.2 hs ha
    obtain ⟨R, hQR, hn', hpost⟩ := hf Q x.1 hPQ hmid x.2 b s' hn hb
    exact ⟨R, le_trans hPQ hQR, hn', hpost⟩

theorem Reads.imp {r : Reader α} {mid post : Pool → α → Prop} (hr : P.Reads r mid)
    (h : ∀ Q a, P ≤ Q → mid Q a → post Q a) : P.Reads r post := by
  intro s a s' hs ha
  obtain ⟨Q, hPQ, hn, hmid⟩ := hr s a s' hs ha
  exact ⟨Q, hPQ, hn, h Q a hPQ hmid⟩

/-- A reader that only takes bytes. -/
theorem reads_of_nextId_eq {r : Reader α} (h : ∀ s a s', r s = .ok (a, s') → s'.nextId = s.nextId) :
    P.Reads r fun _ _ => True :=
  fun s a s' hs hr => ⟨P, le_refl P, (h s a s' hr).trans hs, trivial⟩

/-- A check in front of what follows: it goes on only where the check is passed. -/
theorem reads_guard {c : Prop} [Decidable c] {e : DecodeError} {f : α → Reader β} {r : Reader β}
    {post : Pool → β → Prop} (h : ¬ c → P.Reads r post) :
    P.Reads (if c then throw e >>= f else r) post := by
  split
  · exact (reads_throw e fun _ _ => False).bind fun _ _ _ hf => absurd hf not_false
  · next hc => exact h hc

theorem Makes.lift {x : Fresh α} {post : Pool → α → Prop} (h : P.Makes x post) :
    P.Reads (Reader.lift x) post := by
  intro s a s' hs hr
  cases hr
  obtain ⟨Q, hPQ, hn, ha⟩ := h
  exact ⟨Q, hPQ, by rw [hs]; exact hn, by rw [hs]; exact ha⟩

end Pool

namespace Reader

variable {P : Pool}

/-! ## Bytes and numbers -/

theorem reads_offset : P.Reads offset fun _ _ => True :=
  reads_of_nextId_eq fun s a s' h => by cases h; rfl

theorem reads_byte : P.Reads byte fun _ _ => True := by
  refine reads_of_nextId_eq fun s a s' h => ?_
  obtain ⟨rest, offset, next⟩ := s
  cases rest with
  | nil => cases h
  | cons b bs => cases h; rfl

theorem reads_bytes (n : Nat) : P.Reads (bytes n) fun _ _ => True := by
  refine reads_of_nextId_eq fun s a s' h => ?_
  rw [bytes_apply] at h
  split at h
  · cases h
  · cases h
    rfl

theorem reads_varintFrom (P : Pool) (start digits scale value : Nat) :
    P.Reads (varintFrom start digits scale value) fun _ _ => True := by
  induction digits generalizing P scale value with
  | zero => exact reads_throw _ _
  | succ digits ih =>
    rw [varintFrom]
    refine reads_byte.bind fun Q b _ _ => reads_guard fun _ => ?_
    dsimp only
    split
    · exact ih Q _ _
    · split
      · exact reads_throw _ _
      · exact reads_pure trivial

theorem reads_varint : P.Reads varint fun _ _ => True := by
  rw [varint]
  exact reads_offset.bind fun Q start _ _ => reads_varintFrom Q start _ 1 0

/-! ## Nodes -/

theorem reads_flag : P.Reads flag fun _ _ => True := by
  rw [flag]
  refine reads_offset.bind fun Q start _ _ => reads_byte.bind fun R b _ _ => ?_
  split
  · exact reads_pure trivial
  · exact reads_pure trivial
  · exact reads_throw _ _

/-- The first byte of a key comes after that of the edge before. -/
theorem reads_key (previous : Option UInt8) :
    P.Reads (key previous) fun _ r => ∀ a, previous = some a → a < r.1 := by
  rw [key]
  refine reads_offset.bind fun P₁ start _ _ => reads_varint.bind fun P₂ size _ _ => ?_
  refine reads_guard fun _ => reads_byte.bind fun P₃ b _ _ => ?_
  refine (reads_bytes (size - 1)).bind fun P₄ k _ _ => reads_guard fun hb => ?_
  refine reads_pure fun a ha => ?_
  subst ha
  simpa using hb

theorem reads_edges {child : Reader Trie}
    (hchild : ∀ P : Pool, P.Reads child fun Q c => c ∈ Q ∧ c.IsInner) (n : Nat)
    (previous : Option UInt8) (P : Pool) :
    P.Reads (edges child n previous) fun Q es =>
      Q.Edges es ∧ es.length = n ∧ ∀ a, previous = some a → ∀ e ∈ es, a < e.first := by
  induction n generalizing previous P with
  | zero => exact reads_pure ⟨edges_nil P, rfl, fun _ _ _ h => absurd h List.not_mem_nil⟩
  | succ n ih =>
    rw [edges]
    refine (reads_key previous).bind fun P₁ r _ hkey => ?_
    obtain ⟨b, k⟩ := r
    refine (hchild P₁).bind fun P₂ c _ hc => (ih (some b) P₂).bind fun Q es hQ hes => ?_
    refine reads_pure ⟨Edges.cons (hQ.2 c hc.1) hc.2 (hes.2.2 b rfl) hes.1, ?_, ?_⟩
    · rw [List.length_cons, hes.2.1]
    · intro a ha e he
      rcases List.mem_cons.mp he with rfl | he
      · exact hkey a ha
      · exact UInt8.lt_trans (hkey a ha) (hes.2.2 b rfl e he)

theorem reads_node (limit levels : Nat) (isRoot : Bool) (P : Pool) :
    P.Reads (node limit levels isRoot) fun Q t => t ∈ Q ∧ (isRoot = false → t.IsInner) := by
  induction levels generalizing isRoot P with
  | zero => exact reads_throw _ _
  | succ levels ih =>
    rw [node]
    refine reads_offset.bind fun P₁ start _ _ => reads_flag.bind fun P₂ terminal _ _ => ?_
    refine reads_varint.bind fun P₃ n _ _ => reads_guard fun _ => reads_guard fun hn => ?_
    have hchild : ∀ P : Pool, P.Reads (node limit levels false) fun Q c => c ∈ Q ∧ c.IsInner :=
      fun P => (ih false P).imp fun Q c _ hc => ⟨hc.1, hc.2 rfl⟩
    refine (reads_edges hchild n none P₃).bind fun P₄ es _ hes => ?_
    refine (makes_make hes.1 terminal).lift.imp fun Q t _ ht => ⟨ht.1, fun hroot => ?_⟩
    rw [IsInner, ht.2.1, ht.2.2, hes.2.1]
    subst hroot
    cases terminal with
    | true => exact Or.inl rfl
    | false => exact Or.inr (Nat.succ_le_of_lt (by simpa using hn))

theorem makes_run {α : Type} {r : Reader α} {post : Pool → α → Prop} (h : P.Reads r post)
    (src : List UInt8) : P.Makes (r.run src) fun Q res => ∀ a, res = .ok a → post Q a := by
  unfold Makes run
  cases hr : r ⟨src, 0, P.next⟩ with
  | error e =>
    exact ⟨P, le_refl P, rfl, fun a ha => by cases ha⟩
  | ok x =>
    obtain ⟨a, s⟩ := x
    obtain ⟨Q, hPQ, hn, ha⟩ := h _ a s rfl hr
    dsimp only
    split
    · refine ⟨Q, hPQ, hn, fun a' ha' => ?_⟩
      cases ha'
      exact ha
    · exact ⟨P, le_refl P, rfl, fun a' ha' => by cases ha'⟩

end Reader

namespace Trie

theorem makes_decodeWithin (P : Pool) (limit : Nat) (src : List UInt8) :
    P.Makes (decodeWithin limit src) fun Q res => ∀ t, res = .ok t → t ∈ Q :=
  (Reader.makes_run (Reader.reads_node limit (limit + 1) true P) src).imp
    fun _ _ _ h t ht => (h t ht).1

theorem makes_decode (P : Pool) (src : List UInt8) :
    P.Makes (decode src) fun Q res => ∀ t, res = .ok t → t ∈ Q :=
  makes_decodeWithin P unlimitedDepth src

end Trie

theorem PathList.makes_read (P : Pool) (keep : Nat → Path → Bool) (src : List UInt8) :
    P.Makes (PathList.read keep src) fun Q res => ∀ t stats, res = .ok (t, stats) → t ∈ Q := by
  have h : P.Makes (PathList.readAsking keep src) fun Q r =>
      ∀ t stats, r.result = .ok (t, stats) → t ∈ Q := by
    unfold PathList.readAsking
    dsimp only
    split
    · exact makes_pure fun t stats h => by cases h
    · refine (makes_ofPaths P _).bind_pure fun Q t _ ht u stats hu => ?_
      cases hu
      exact ht.1
  exact h.bind_pure fun _ _ _ hr => hr

end ByteTrie
