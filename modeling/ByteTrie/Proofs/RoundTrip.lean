import ByteTrie.Proofs.Equality
import Mathlib

/-!
# Reading what was written

Each reader is followed in both directions.  What it takes from the front of its input, when it
gives a value, is the encoding of that value; and it takes the encoding of a value from every input
that starts with it.

    Takes r post       where r gives a, it took x from the front of its input, and post x a
    Accepts r x post   r takes x from every input that starts with x, and post a for what it gives

A number is taken whole because its form is the shortest one, a key because its length comes first,
and a node because the number of its edges does.
-/

namespace ByteTrie

open Trie Pool

namespace Reader

variable {α β : Type}

/-- What `r` takes of its input, and the value that it gives for it. -/
def Takes (r : Reader α) (post : List UInt8 → α → Prop) : Prop :=
  ∀ s a s', r s = .ok (a, s') → ∃ x, s.rest = x ++ s'.rest ∧ post x a

/-- `r` takes `x` where the input starts with it, and gives a value for it. -/
def Accepts (r : Reader α) (x : List UInt8) (post : α → Prop) : Prop :=
  ∀ s rest, s.rest = x ++ rest → ∃ a s', r s = .ok (a, s') ∧ s'.rest = rest ∧ post a

/-! ## Steps of a reader -/

theorem takes_pure {a : α} {post : List UInt8 → α → Prop} (h : post [] a) :
    Takes (pure a) post := by
  intro s a' s' hr
  cases hr
  exact ⟨[], rfl, h⟩

theorem takes_throw (e : DecodeError) (post : List UInt8 → α → Prop) : Takes (throw e) post := by
  intro s a s' hr
  cases hr

theorem Takes.bind {r : Reader α} {f : α → Reader β} {mid : List UInt8 → α → Prop}
    {post : List UInt8 → β → Prop} (hr : Takes r mid)
    (hf : ∀ x a, mid x a → Takes (f a) fun y b => post (x ++ y) b) : Takes (r >>= f) post := by
  intro s b s'' hb
  rw [bind_apply] at hb
  cases ha : r s with
  | error e =>
    rw [ha] at hb
    cases hb
  | ok u =>
    obtain ⟨a, s'⟩ := u
    rw [ha] at hb
    obtain ⟨x, hx, hmid⟩ := hr s a s' ha
    obtain ⟨y, hy, hpost⟩ := hf x a hmid s' b s'' hb
    exact ⟨x ++ y, by rw [hx, hy, List.append_assoc], hpost⟩

theorem Takes.imp {r : Reader α} {mid post : List UInt8 → α → Prop} (hr : Takes r mid)
    (h : ∀ x a, mid x a → post x a) : Takes r post := by
  intro s a s' hs
  obtain ⟨x, hx, hmid⟩ := hr s a s' hs
  exact ⟨x, hx, h x a hmid⟩

theorem takes_guard {c : Prop} [Decidable c] {e : DecodeError} {f : α → Reader β} {r : Reader β}
    {post : List UInt8 → β → Prop} (h : ¬ c → Takes r post) :
    Takes (if c then throw e >>= f else r) post := by
  split
  · exact (takes_throw e fun _ _ => False).bind fun _ _ hf => absurd hf not_false
  · next hc => exact h hc

theorem accepts_pure {a : α} {post : α → Prop} (h : post a) : Accepts (pure a) [] post :=
  fun s _ hs => ⟨a, s, rfl, hs, h⟩

theorem Accepts.bind {r : Reader α} {f : α → Reader β} {x y : List UInt8} {mid : α → Prop}
    {post : β → Prop} (hr : Accepts r x mid) (hf : ∀ a, mid a → Accepts (f a) y post) :
    Accepts (r >>= f) (x ++ y) post := by
  intro s rest hs
  obtain ⟨a, s', ha, hs', hmid⟩ := hr s (y ++ rest) (by rw [hs, List.append_assoc])
  obtain ⟨b, s'', hb, hs'', hpost⟩ := hf a hmid s' rest hs'
  refine ⟨b, s'', ?_, hs'', hpost⟩
  rw [bind_apply, ha]
  exact hb

/-- A last step that takes nothing. -/
theorem Accepts.bind_nil {r : Reader α} {f : α → Reader β} {x : List UInt8} {mid : α → Prop}
    {post : β → Prop} (hr : Accepts r x mid) (hf : ∀ a, mid a → Accepts (f a) [] post) :
    Accepts (r >>= f) x post := by
  rw [← List.append_nil x]
  exact hr.bind hf

theorem Accepts.imp {r : Reader α} {x : List UInt8} {mid post : α → Prop} (hr : Accepts r x mid)
    (h : ∀ a, mid a → post a) : Accepts r x post := by
  intro s rest hs
  obtain ⟨a, s', ha, hs', hmid⟩ := hr s rest hs
  exact ⟨a, s', ha, hs', h a hmid⟩

theorem accepts_guard {c : Prop} [Decidable c] {e : DecodeError} {f : α → Reader β} {r : Reader β}
    {x : List UInt8} {post : β → Prop} (hc : ¬ c) (h : Accepts r x post) :
    Accepts (if c then throw e >>= f else r) x post := by
  rwa [if_neg hc]

/-! ## Bytes -/

theorem takes_offset : Takes offset fun x _ => x = [] := by
  intro s a s' h
  cases h
  exact ⟨[], rfl, rfl⟩

theorem accepts_offset : Accepts offset [] fun _ => True :=
  fun s _ hs => ⟨s.offset, s, rfl, hs, trivial⟩

theorem takes_byte : Takes byte fun x b => x = [b] := by
  intro s a s' h
  obtain ⟨rest, offset, next⟩ := s
  cases rest with
  | nil => cases h
  | cons b bs =>
    cases h
    exact ⟨[_], rfl, rfl⟩

theorem accepts_byte (b : UInt8) : Accepts byte [b] fun a => a = b := by
  intro s rest hs
  obtain ⟨bs, offset, next⟩ := s
  obtain rfl : bs = b :: rest := hs
  exact ⟨b, _, rfl, rfl, rfl⟩

theorem takes_bytes (n : Nat) : Takes (bytes n) fun x k => x = k ∧ k.length = n := by
  intro s k s' h
  rw [bytes_apply, List.splitAt_eq] at h
  split at h
  · cases h
  · next hn =>
    cases h
    refine ⟨s.rest.take n, (List.take_append_drop n s.rest).symm, rfl, ?_⟩
    rw [List.length_take] at hn ⊢
    omega

theorem accepts_bytes (k : Path) : Accepts (bytes k.length) k fun l => l = k := by
  intro s rest hs
  refine ⟨k, { s with rest := rest, offset := s.offset + k.length }, ?_, rfl, rfl⟩
  rw [bytes_apply, List.splitAt_eq, hs, List.take_left, List.drop_left, if_neg (Nat.lt_irrefl _)]

/-! ## Numbers -/

theorem digit_eq {b : UInt8} (h : b.toNat < 128) : Varint.encode b.toNat = [b] := by
  rw [Varint.encode, if_pos h, UInt8.ofNat_toNat]

/-- A digit with its top bit set, and the digits of what stands above it. -/
theorem digit_cons_eq {b : UInt8} {m : Nat} (hb : 128 ≤ b.toNat) (hm : m ≠ 0) :
    Varint.encode (b.toNat % 128 + m * 128) = b :: Varint.encode m := by
  have hlt := b.toNat_lt
  have hlow : (b.toNat % 128 + m * 128) % 128 + 128 = b.toNat := by omega
  have hhigh : (b.toNat % 128 + m * 128) / 128 = m := by omega
  rw [Varint.encode, if_neg (by omega), hlow, hhigh, UInt8.ofNat_toNat]

/-- The digits that are read are the form of the number that they add, `scale` being what the first
of them counts. -/
theorem takes_varintFrom (start digits scale value : Nat) (hs : 0 < scale) :
    Takes (varintFrom start digits scale value) fun x n =>
      ∃ m, n = value + m * scale ∧ x = Varint.encode m ∧ (1 < scale → m ≠ 0) := by
  induction digits generalizing scale value with
  | zero => exact takes_throw _ _
  | succ digits ih =>
    rw [varintFrom]
    refine takes_byte.bind fun x b hx => takes_guard fun _ => ?_
    subst hx
    dsimp only
    split
    · next hb =>
      refine (ih (scale * 128) (value + b.toNat % 128 * scale) (by omega)).imp ?_
      rintro y n ⟨m, rfl, rfl, hm⟩
      have hm' : m ≠ 0 := hm (by omega)
      refine ⟨b.toNat % 128 + m * 128, by ring, ?_, fun _ => by omega⟩
      rw [List.singleton_append, digit_cons_eq (UInt8.le_iff_toNat_le.mp hb) hm']
    · next hb =>
      have hlt : b.toNat < 128 := by
        rw [UInt8.le_iff_toNat_le] at hb
        exact Nat.lt_of_not_le hb
      split
      · exact takes_throw _ _
      · next hz =>
        refine takes_pure ⟨b.toNat, ?_, ?_, fun h1 h0 => hz ⟨?_, h1⟩⟩
        · rw [Nat.mod_eq_of_lt hlt]
        · rw [List.append_nil, digit_eq hlt]
        · exact UInt8.toNat_inj.mp h0

theorem takes_varint : Takes varint fun x n => x = Varint.encode n := by
  rw [varint]
  refine takes_offset.bind fun x start hx => ?_
  subst hx
  refine (takes_varintFrom start _ 1 0 Nat.one_pos).imp ?_
  rintro y n ⟨m, rfl, rfl, -⟩
  rw [List.nil_append, Nat.zero_add, Nat.mul_one]

/-- A digit that ends a number. -/
theorem accepts_lastDigit {start digits scale value : Nat} {b : UInt8} (hb : b.toNat < 128)
    (hlast : digits = 0 → b.toNat ≤ 1) (h0 : 1 < scale → b.toNat ≠ 0) :
    Accepts (varintFrom start (digits + 1) scale value) [b]
      fun n => n = value + b.toNat * scale := by
  rw [varintFrom]
  refine (accepts_byte b).bind_nil ?_
  rintro _ rfl
  refine accepts_guard ?_ ?_
  · rintro ⟨hd, h1⟩
    exact absurd (hlast hd) (Nat.not_le_of_lt (UInt8.lt_iff_toNat_lt.mp h1))
  · dsimp only
    rw [if_neg, if_neg]
    · exact accepts_pure (by rw [Nat.mod_eq_of_lt hb])
    · rintro ⟨rfl, h1⟩
      exact h0 h1 rfl
    · exact fun h128 => absurd (UInt8.le_iff_toNat_le.mp h128) (Nat.not_le_of_lt hb)

/-- A digit that others follow. -/
theorem accepts_digit {start digits scale value : Nat} {b : UInt8} {x : List UInt8}
    {post : Nat → Prop} (hb : 128 ≤ b.toNat) (hd : digits ≠ 0)
    (h : Accepts (varintFrom start digits (scale * 128) (value + b.toNat % 128 * scale)) x post) :
    Accepts (varintFrom start (digits + 1) scale value) (b :: x) post := by
  rw [varintFrom, ← List.singleton_append]
  refine (accepts_byte b).bind ?_
  rintro _ rfl
  refine accepts_guard (fun hc => hd hc.1) ?_
  dsimp only
  rwa [if_pos ((UInt8.le_iff_toNat_le (a := 128)).mpr hb)]

/-- A number that is not too great for the digits that are allowed is read from its form. -/
theorem accepts_varintFrom (start digits scale value m : Nat)
    (hm : m < 2 * Nat.pow 128 digits) (h0 : 1 < scale → m ≠ 0) (hs : 0 < scale) :
    Accepts (varintFrom start (digits + 1) scale value) (Varint.encode m)
      fun n => n = value + m * scale := by
  induction digits generalizing scale value m with
  | zero =>
    have hm2 : m < 2 := hm
    have hb : (UInt8.ofNat m).toNat = m := UInt8.toNat_ofNat_of_lt' (Nat.lt_trans hm2 (by decide))
    rw [Varint.encode, if_pos (by omega)]
    have h : Accepts (varintFrom start (0 + 1) scale value) [UInt8.ofNat m]
        fun n => n = value + (UInt8.ofNat m).toNat * scale :=
      accepts_lastDigit (by omega) (fun _ => by omega) (by rwa [hb])
    rwa [hb] at h
  | succ digits ih =>
    rw [Varint.encode]
    split
    · next hlt =>
      have hb : (UInt8.ofNat m).toNat = m :=
        UInt8.toNat_ofNat_of_lt' (Nat.lt_trans hlt (by decide))
      have h : Accepts (varintFrom start (digits + 1 + 1) scale value) [UInt8.ofNat m]
          fun n => n = value + (UInt8.ofNat m).toNat * scale :=
        accepts_lastDigit (by omega) (fun hd => by omega) (by rwa [hb])
      rwa [hb] at h
    · next hge =>
      have hb : (UInt8.ofNat (m % 128 + 128)).toNat = m % 128 + 128 :=
        UInt8.toNat_ofNat_of_lt' (show m % 128 + 128 < 256 by omega)
      refine accepts_digit (by omega) (Nat.succ_ne_zero digits) ?_
      have hpow : Nat.pow 128 (digits + 1) = Nat.pow 128 digits * 128 := rfl
      refine (ih (scale * 128) _ (m / 128) (by omega) (fun _ => by omega) (by omega)).imp ?_
      rintro n rfl
      have hlow : (m % 128 + 128) % 128 = m % 128 := by omega
      rw [hb, hlow, Nat.add_assoc, ← Nat.mul_assoc, Nat.mul_right_comm, ← Nat.add_mul,
        Nat.add_comm (m % 128), Nat.div_add_mod']

theorem accepts_varint {n : Nat} (hn : n < UInt64.size) :
    Accepts varint (Varint.encode n) fun m => m = n := by
  rw [varint]
  refine accepts_offset.bind fun start _ => ?_
  refine (accepts_varintFrom start 9 1 0 n hn (by omega) Nat.one_pos).imp ?_
  rintro m rfl
  omega

end Reader

/-! ## Encodings -/

namespace Trie

theorem encodeEdgesOnto_eq_append {es : List (Edge Trie)}
    (h : ∀ e ∈ es, ∀ out, e.child.encodeOnto out = e.child.encode ++ out) (out : List UInt8) :
    encodeEdgesOnto es out = encodeEdgesOnto es [] ++ out := by
  induction es with
  | nil => rfl
  | cons e es ih =>
    obtain ⟨b, k, c⟩ := e
    have hc : ∀ out, c.encodeOnto out = c.encode ++ out := h _ List.mem_cons_self
    rw [encodeEdgesOnto, encodeEdgesOnto, hc (encodeEdgesOnto es out),
      hc (encodeEdgesOnto es []), ih fun e he => h e (List.mem_cons_of_mem _ he)]
    simp only [List.append_assoc, List.cons_append]

theorem encodeOnto_eq_append (t : Trie) (out : List UInt8) :
    t.encodeOnto out = t.encode ++ out := by
  induction t using nodeInduction generalizing out with
  | node t ih =>
    match t, ih with
    | .node i b n m es, ih =>
      have hes : encodeEdgesOnto es out = encodeEdgesOnto es [] ++ out :=
        encodeEdgesOnto_eq_append ih out
      rw [encode, encodeOnto, encodeOnto, hes, List.cons_append, List.append_assoc]

/-- The encodings of the edges of a node. -/
def encodeEdges (es : List (Edge Trie)) : List UInt8 := encodeEdgesOnto es []

theorem encodeEdges_cons (b : UInt8) (k : Path) (c : Trie) (es : List (Edge Trie)) :
    encodeEdges (⟨b, k, c⟩ :: es) =
      Varint.encode (k.length + 1) ++ b :: k ++ (c.encode ++ encodeEdges es) := by
  rw [encodeEdges, encodeEdgesOnto, encodeOnto_eq_append, encodeEdges, List.append_assoc]

theorem encode_eq (t : Trie) :
    t.encode = (if t.terminal then 1 else 0) ::
      (Varint.encode t.edges.length ++ encodeEdges t.edges) := by
  cases t with
  | node i b n m es => rw [encode, encodeOnto]; rfl

end Trie

/-! ## Nodes -/

namespace Reader

theorem takes_lift {α : Type} (x : Fresh α) :
    Takes (lift x) fun y a => y = [] ∧ ∃ n, a = (x n).1 := by
  intro s a s' h
  cases h
  exact ⟨[], rfl, rfl, s.nextId, rfl⟩

theorem accepts_lift {α : Type} (x : Fresh α) : Accepts (lift x) [] fun a => ∃ n, a = (x n).1 :=
  fun s _ hs => ⟨_, _, rfl, hs, s.nextId, rfl⟩

theorem takes_flag : Takes flag fun x t => x = [if t then 1 else 0] := by
  rw [flag]
  refine takes_offset.bind fun x start hx => takes_byte.bind fun y b hy => ?_
  subst hx hy
  split
  · exact takes_pure rfl
  · exact takes_pure rfl
  · exact takes_throw _ _

theorem accepts_flag (t : Bool) : Accepts flag [if t then 1 else 0] fun u => u = t := by
  rw [flag]
  refine accepts_offset.bind fun start _ => (accepts_byte _).bind_nil ?_
  rintro _ rfl
  cases t with
  | false => exact accepts_pure rfl
  | true => exact accepts_pure rfl

theorem takes_key (previous : Option UInt8) :
    Takes (key previous) fun x r => x = Varint.encode (r.2.length + 1) ++ r.1 :: r.2 := by
  rw [key]
  refine takes_offset.bind fun x start hx => takes_varint.bind fun y size hy => ?_
  refine takes_guard fun h0 => takes_byte.bind fun z b hz => ?_
  refine (takes_bytes (size - 1)).bind fun w k hw => takes_guard fun _ => takes_pure ?_
  obtain ⟨rfl, hlen⟩ := hw
  subst hx hy hz
  have hsize : w.length + 1 = size := by omega
  rw [hsize]
  simp only [List.nil_append, List.append_nil, List.singleton_append]

theorem accepts_key {previous : Option UInt8} {b : UInt8} {k : Path}
    (hk : k.length + 1 < UInt64.size) (hb : ∀ a, previous = some a → a < b) :
    Accepts (key previous) (Varint.encode (k.length + 1) ++ b :: k) fun r => r = (b, k) := by
  rw [key]
  refine accepts_offset.bind fun start _ => (accepts_varint hk).bind ?_
  rintro _ rfl
  refine accepts_guard (Nat.succ_ne_zero _) ?_
  rw [← List.singleton_append, Nat.add_sub_cancel]
  refine (accepts_byte b).bind ?_
  rintro _ rfl
  refine (accepts_bytes k).bind_nil ?_
  rintro _ rfl
  refine accepts_guard ?_ (accepts_pure rfl)
  cases previous with
  | none => exact Bool.false_ne_true
  | some a => simpa using hb a rfl

theorem takes_edges {child : Reader Trie} (hchild : Takes child fun x c => x = c.encode) (n : Nat)
    (previous : Option UInt8) :
    Takes (edges child n previous) fun x es => es.length = n ∧ x = encodeEdges es := by
  induction n generalizing previous with
  | zero => exact takes_pure ⟨rfl, rfl⟩
  | succ n ih =>
    rw [edges]
    refine (takes_key previous).bind fun x r hx => ?_
    obtain ⟨b, k⟩ := r
    refine hchild.bind fun y c hy => (ih (some b)).bind fun z es hz => takes_pure ?_
    obtain ⟨hlen, rfl⟩ := hz
    subst hx hy
    refine ⟨by rw [List.length_cons, hlen], ?_⟩
    rw [encodeEdges_cons]
    simp only [List.append_nil, List.append_assoc]

/-- Edges are read from their encodings if their nodes are, and the bytes that start them ascend. -/
theorem accepts_edges {child : Reader Trie} {es : List (Edge Trie)} {previous : Option UInt8}
    (hchild : ∀ e ∈ es, Accepts child e.child.encode fun c => c.shape = e.child.shape)
    (hkey : ∀ e ∈ es, e.key.length < UInt64.size)
    (hasc : es.Pairwise fun e f => e.first < f.first)
    (hprev : ∀ a, previous = some a → ∀ e ∈ es, a < e.first) :
    Accepts (edges child es.length previous) (encodeEdges es)
      fun fs => edgeShapes fs = edgeShapes es := by
  induction es generalizing previous with
  | nil => exact accepts_pure rfl
  | cons e es ih =>
    obtain ⟨b, k, c⟩ := e
    obtain ⟨hlt, hasc⟩ := List.pairwise_cons.mp hasc
    rw [List.length_cons, edges, encodeEdges_cons]
    refine (accepts_key (hkey _ List.mem_cons_self) fun a ha => hprev a ha _ List.mem_cons_self).bind
      ?_
    rintro _ rfl
    refine (hchild _ List.mem_cons_self).bind fun d hd => ?_
    refine (ih (fun e he => hchild e (List.mem_cons_of_mem _ he))
      (fun e he => hkey e (List.mem_cons_of_mem _ he)) hasc ?_).bind_nil
      fun fs hfs => accepts_pure ?_
    · intro a ha e he
      exact Option.some.inj ha ▸ hlt e he
    · rw [edgeShapes, edgeShapes, hd, hfs]

theorem takes_node (limit levels : Nat) (isRoot : Bool) :
    Takes (node limit levels isRoot) fun x t => x = t.encode := by
  induction levels generalizing isRoot with
  | zero => exact takes_throw _ _
  | succ levels ih =>
    rw [node]
    refine takes_offset.bind fun x start hx => takes_flag.bind fun y terminal hy => ?_
    refine takes_varint.bind fun z n hz => takes_guard fun _ => takes_guard fun _ => ?_
    refine (takes_edges (ih false) n none).bind fun w es hw => (takes_lift _).imp ?_
    rintro v t ⟨rfl, next, rfl⟩
    obtain ⟨rfl, rfl⟩ := hw
    subst hx hy hz
    rw [encode_eq, terminal_make, edges_make]
    simp only [List.nil_append, List.append_nil, List.singleton_append]

end Reader

namespace Trie

/-- No node is more than so many edges below the root. -/
def NestedWithin : Nat → Trie → Prop
  | 0, t => t.edges = []
  | n + 1, t => ∀ e ∈ t.edges, NestedWithin n e.child

/-- There are no more first bytes than bytes. -/
theorem length_le_of_ascending {es : List (Edge Trie)}
    (h : es.Pairwise fun e f => e.first < f.first) : es.length ≤ 256 := by
  have nodup : (es.map fun e => e.first.toNat).Nodup := by
    refine List.pairwise_map.mpr (h.imp fun hlt => ?_)
    exact Nat.ne_of_lt (UInt8.lt_iff_toNat_lt.mp hlt)
  have sub : (es.map fun e => e.first.toNat) ⊆ List.range 256 := by
    intro n hn
    obtain ⟨e, -, rfl⟩ := List.mem_map.mp hn
    exact List.mem_range.mpr e.first.toNat_lt
  simpa using (nodup.subperm sub).length_le

end Trie

namespace Reader

/-- A canonical trie is read from its encoding, if it is not nested too deep. -/
theorem accepts_node (limit levels : Nat) (isRoot : Bool) {t : Trie} (hc : t.Canonical)
    (hroot : isRoot = true ∨ t.IsInner) (hn : NestedWithin levels t) (hk : t.HasShortKeys) :
    Accepts (node limit (levels + 1) isRoot) t.encode fun u => u.shape = t.shape := by
  induction t using nodeInduction generalizing levels isRoot with
  | node t ih =>
    have hchild : ∀ e ∈ t.edges, Accepts (node limit levels false) e.child.encode
        fun u => u.shape = e.child.shape := by
      intro e he
      cases levels with
      | zero =>
        rw [NestedWithin] at hn
        rw [hn] at he
        exact absurd he List.not_mem_nil
      | succ levels =>
        exact ih e he levels false (hc.child he) (Or.inr (hc.tidy.inner e he)) (hn e he)
          (hk.child he)
    have hlen := length_le_of_ascending hc.tidy.ascending
    have hcount : t.edges.length < UInt64.size := Nat.lt_of_le_of_lt hlen (by decide)
    rw [node, encode_eq, ← List.singleton_append]
    refine accepts_offset.bind fun start _ => (accepts_flag t.terminal).bind ?_
    rintro _ rfl
    refine (accepts_varint hcount).bind ?_
    rintro _ rfl
    refine accepts_guard (Nat.not_lt_of_le hlen) (accepts_guard ?_ ?_)
    · rcases hroot with rfl | hter | htwo
      · exact Bool.false_ne_true
      · simp [hter]
      · simp [Nat.not_lt_of_le htwo]
    · refine (accepts_edges hchild (hk t .root) hc.tidy.ascending fun a ha => by cases ha).bind_nil
        fun es hes => (accepts_lift _).imp ?_
      rintro _ ⟨n, rfl⟩
      rw [shape_eq_iff, terminal_make, edges_make]
      exact ⟨rfl, hes⟩

end Reader

namespace Trie

/-! ## Whole inputs -/

theorem eq_encode_of_decodeWithin {limit n : Nat} {src : List UInt8} {t : Trie}
    (h : (decodeWithin limit src n).1 = .ok t) : src = t.encode := by
  unfold decodeWithin Reader.run at h
  cases hr : Reader.node limit (limit + 1) true ⟨src, 0, n⟩ with
  | error e =>
    rw [hr] at h
    cases h
  | ok x =>
    obtain ⟨u, s⟩ := x
    obtain ⟨y, hy, rfl⟩ := Reader.takes_node limit (limit + 1) true _ _ _ hr
    rw [hr] at h
    dsimp only at h hy
    split at h
    · next hs =>
      cases h
      rw [hy, hs, List.append_nil]
    · cases h

theorem exists_decodeWithin_encode {limit : Nat} {t : Trie} (hc : t.Canonical)
    (hn : NestedWithin limit t) (hk : t.HasShortKeys) (n : Nat) :
    ∃ u, (decodeWithin limit t.encode n).1 = .ok u ∧ u.shape = t.shape := by
  obtain ⟨u, s, hr, hs, hu⟩ := Reader.accepts_node limit limit true hc (Or.inl rfl) hn hk
    ⟨t.encode, 0, n⟩ [] (List.append_nil _).symm
  refine ⟨u, ?_, hu⟩
  unfold decodeWithin Reader.run
  rw [hr]
  dsimp only
  rw [hs]

/-! ## Nesting and members -/

/-- A node stands behind at least one byte of a path for each edge above it. -/
theorem nestedWithin_of_length_le {t : Trie} (hc : t.Canonical) {n : Nat}
    (h : ∀ p ∈ t, p.length ≤ n) : NestedWithin n t := by
  induction n generalizing t with
  | zero =>
    apply List.eq_nil_iff_forall_not_mem.mpr
    intro e he
    obtain ⟨q, hq⟩ := hc.inhabited t .root e he
    exact absurd (h _ (.along he hq)) (by simp [Edge.key])
  | succ n ih =>
    intro e he
    refine ih (hc.child he) fun q hq => ?_
    have hlen := h _ (.along he hq)
    rw [List.length_append, Edge.key, List.length_cons] at hlen
    omega

/-- Every key is part of a path. -/
theorem hasShortKeys_of_length_lt {t : Trie} (hc : t.Canonical)
    (h : ∀ p ∈ t, p.length < UInt64.size) : t.HasShortKeys := by
  intro u hu
  induction hu with
  | root =>
    intro e he
    obtain ⟨q, hq⟩ := hc.inhabited u .root e he
    have hlen := h _ (.along he hq)
    rw [List.length_append] at hlen
    omega
  | @inside t f hf _ ih =>
    refine ih (hc.child hf) fun q hq => ?_
    have hlen := h _ (.along hf hq)
    rw [List.length_append] at hlen
    omega

theorem exists_decode_encode {t : Trie} (hc : t.Canonical)
    (h : ∀ p ∈ t, p.length < UInt64.size) (n : Nat) :
    ∃ u, (decode t.encode n).1 = .ok u ∧ u.shape = t.shape := by
  have hdepth : ∀ p ∈ t, p.length ≤ unlimitedDepth := fun p hp => by
    have := h p hp
    rw [unlimitedDepth]
    omega
  rw [decode]
  generalize unlimitedDepth = limit at hdepth
  exact exists_decodeWithin_encode hc (nestedWithin_of_length_le hc hdepth)
    (hasShortKeys_of_length_lt hc h) n

end Trie

namespace Session

/-- Reading gives a set back from its encoding and from no other bytes, and whatever it accepts is
the encoding of what it gives.  The length of a path is a number of 64 bits, as its form has no more;
how deep the nodes are nested does not matter. -/
theorem decode_iff_eq_encode {hash : HashFunction} {σ : Session} (h : Reachable hash σ)
    (hc : CollisionFree hash σ.interned) (src : List UInt8) :
    (∀ s ∈ σ.sets, (∀ p, s.contains p = true → p.length < UInt64.size) →
      ((∃ t, (Trie.decode src σ.next).1 = .ok t ∧ (t == s) = true) ↔ src = s.encode)) ∧
    ∀ t, (Trie.decode src σ.next).1 = .ok t → t.Canonical ∧ src = t.encode := by
  obtain ⟨P, hP⟩ := h.exists_pool hc
  obtain ⟨Q, hPQ, -, hread⟩ := makes_decode P src
  rw [← hP.next_eq] at hread
  refine ⟨fun s hs hlen => ?_, fun t ht => ⟨canonical (hread t ht), eq_encode_of_decodeWithin ht⟩⟩
  have hsP := hP.sets s hs
  constructor
  · rintro ⟨t, ht, hts⟩
    rw [beq_iff_shape_eq (hread t ht) (hPQ.2 s hsP), ← encode_eq_iff] at hts
    exact (eq_encode_of_decodeWithin ht).trans hts
  · rintro rfl
    have hcan : s.Canonical := canonical hsP
    obtain ⟨t, ht, hts⟩ := exists_decode_encode hcan
      (fun p hp => hlen p ((hcan.contains_iff p).mpr hp)) σ.next
    exact ⟨t, ht, (beq_iff_shape_eq (hread t ht) (hPQ.2 s hsP)).mpr hts⟩

theorem length_of_contains_firstSet {p : Path} (h : firstSet.contains p = true) : p.length = 2 := by
  obtain ⟨Q, -, -, hmem, hmembers⟩ := makes_singleton Pool.start [1, 2]
  have hp : p ∈ firstSet.members := ((canonical hmem).contains_iff p).mp h
  rw [show firstSet.members = {[1, 2]} from hmembers, Set.mem_singleton_iff] at hp
  rw [hp]
  rfl

/-- The set of the path 1 2 is read from its encoding, and not from bytes in which its edge is in two
parts. -/
theorem sample_decode_iff :
    (∃ t, (Trie.decode [0, 1, 2, 1, 2, 1, 0] sample.next).1 = .ok t ∧ (t == firstSet) = true) ∧
      ¬ ∃ t, (Trie.decode [0, 1, 1, 1, 0, 1, 1, 2, 1, 0] sample.next).1 = .ok t ∧
        (t == firstSet) = true := by
  have hx : firstSet ∈ sample.sets :=
    List.mem_cons_of_mem _ (List.mem_cons_of_mem _ List.mem_cons_self)
  have hlen : ∀ p, firstSet.contains p = true → p.length < UInt64.size := fun p hp => by
    rw [length_of_contains_firstSet hp]
    decide
  have hdecode := fun src =>
    (decode_iff_eq_encode sample_reachable sample_collisionFree src).1 firstSet hx hlen
  rw [hdecode, hdecode]
  decide +kernel

end Session

end ByteTrie
