import ByteTrie.Codec.Tree
import ByteTrie.Proofs.Session
import Mathlib

/-!
# Equality and encodings

Comparing two nodes looks at their flags, counts and masks and at their edges in pairs, and not into
subtries that are one node; encoding looks at flags, edges and keys.  Both determine the shape, and
are determined by it.

    (s == t) = true          iff  s.shape = t.shape     for s, t of one pool
    s.encode = t.encode      iff  s.shape = t.shape

For the sets of a session both are the same as having the same members.
-/

namespace ByteTrie

open Trie Pool

/-! ## Encodings -/

namespace Varint

/-- No number's form is the beginning of another number's. -/
theorem encode_append_inj {n m : Nat} {a b : List UInt8}
    (h : encode n ++ a = encode m ++ b) : n = m ∧ a = b := by
  induction n using Nat.strongRecOn generalizing m with
  | ind n ih =>
    rw [encode.eq_def n, encode.eq_def m] at h
    by_cases hn : n < 128
    · by_cases hm : m < 128
      · rw [if_pos hn, if_pos hm, List.singleton_append, List.singleton_append,
          List.cons.injEq] at h
        exact ⟨digit_inj (by omega) (by omega) h.1, h.2⟩
      · rw [if_pos hn, if_neg hm, List.singleton_append, List.cons_append, List.cons.injEq] at h
        have hdigit := digit_inj (by omega) (by omega) h.1
        omega
    · by_cases hm : m < 128
      · rw [if_neg hn, if_pos hm, List.singleton_append, List.cons_append, List.cons.injEq] at h
        have hdigit := digit_inj (by omega) (by omega) h.1
        omega
      · rw [if_neg hn, if_neg hm, List.cons_append, List.cons_append, List.cons.injEq] at h
        have hdigit := digit_inj (by omega) (by omega) h.1
        obtain ⟨hdiv, hab⟩ := ih (n / 128) (by omega) h.2
        exact ⟨by omega, hab⟩

end Varint

namespace Trie

/-- The encodings of edges, when the encodings of their children are known to be told apart. -/
theorem encodeEdgesOnto_inj {es fs : List (Edge Trie)} {a b : List UInt8}
    (ih : ∀ e ∈ es, ∀ (u : Trie) (a b : List UInt8), e.child.encodeOnto a = u.encodeOnto b →
      e.child.shape = u.shape ∧ a = b)
    (hlen : es.length = fs.length) (h : encodeEdgesOnto es a = encodeEdgesOnto fs b) :
    edgeShapes es = edgeShapes fs ∧ a = b := by
  induction es generalizing fs with
  | nil =>
    obtain rfl := List.eq_nil_of_length_eq_zero hlen.symm
    exact ⟨rfl, h⟩
  | cons e es ihes =>
    obtain ⟨f, fs, rfl⟩ := List.exists_cons_of_length_eq_add_one hlen.symm
    obtain ⟨d, k, s⟩ := e
    obtain ⟨c, l, t⟩ := f
    rw [encodeEdgesOnto, encodeEdgesOnto] at h
    obtain ⟨hkl, h⟩ := Varint.encode_append_inj h
    simp only [List.cons_append, List.cons.injEq] at h
    obtain ⟨hdc, h⟩ := h
    obtain ⟨hk, h⟩ := List.append_inj h (Nat.succ.inj hkl)
    obtain ⟨hst, h⟩ := ih _ List.mem_cons_self t _ _ h
    obtain ⟨hes, hab⟩ := ihes (fun e he => ih e (List.mem_cons_of_mem _ he))
      (Nat.succ.inj hlen) h
    rw [edgeShapes, edgeShapes, hdc, hk, hst, hes]
    exact ⟨rfl, hab⟩

/-- No trie's encoding is the beginning of another trie's. -/
theorem encodeOnto_inj {s t : Trie} {a b : List UInt8} (h : s.encodeOnto a = t.encodeOnto b) :
    s.shape = t.shape ∧ a = b := by
  induction s using nodeInduction generalizing t a b with
  | node s ih =>
    match s, t, ih, h with
    | node i x n m es, node j y k l fs, ih, h =>
      rw [encodeOnto, encodeOnto, List.cons.injEq] at h
      obtain ⟨hxy, h⟩ := h
      obtain ⟨hlen, h⟩ := Varint.encode_append_inj h
      obtain ⟨hes, hab⟩ := encodeEdgesOnto_inj (fun e he u a b h => ih e he h) hlen h
      refine ⟨(shape_eq_iff _ _).mpr ⟨?_, hes⟩, hab⟩
      revert hxy
      cases x <;> cases y <;> simp [terminal]

theorem encodeEdgesOnto_eq {es fs : List (Edge Trie)}
    (h : List.Forall₂ (Related fun s t => s.encodeOnto = t.encodeOnto) es fs) :
    encodeEdgesOnto es = encodeEdgesOnto fs := by
  induction h with
  | nil => rfl
  | @cons e f es fs hef _ ih =>
    obtain ⟨d, k, s⟩ := e
    obtain ⟨c, l, t⟩ := f
    obtain ⟨rfl, rfl, hst⟩ := hef
    funext out
    rw [encodeEdgesOnto, encodeEdgesOnto, show s.encodeOnto = t.encodeOnto from hst, ih]

theorem encodeOnto_eq {s t : Trie} (h : s.shape = t.shape) : s.encodeOnto = t.encodeOnto := by
  induction s using nodeInduction generalizing t with
  | node s ih =>
    obtain ⟨hter, hes⟩ := (shape_eq_iff s t).mp h
    have hlen := length_eq_of_edgeShapes_eq hes
    have hedges : encodeEdgesOnto s.edges = encodeEdgesOnto t.edges := by
      refine encodeEdgesOnto_eq (related_of_children ?_ (edgeShapes_eq_iff.mp hes))
      exact fun e he f _ hef => ih e he hef
    match s, t, hter, hlen, hedges with
    | node i x n m es, node j y k l fs, hter, hlen, hedges =>
      obtain rfl : x = y := hter
      obtain hlen : es.length = fs.length := hlen
      obtain hedges : encodeEdgesOnto es = encodeEdgesOnto fs := hedges
      funext out
      rw [encodeOnto, encodeOnto, hedges, hlen]

theorem encode_eq_iff (s t : Trie) : s.encode = t.encode ↔ s.shape = t.shape :=
  ⟨fun h => (encodeOnto_inj h).1, fun h => congrFun (encodeOnto_eq h) []⟩

/-! ## Comparison -/

theorem terminals_eq_of_shape_eq {s t : Trie} (h : s.shape = t.shape) :
    s.terminals = t.terminals := by
  induction s using nodeInduction generalizing t with
  | node s ih =>
    obtain ⟨hter, hes⟩ := (shape_eq_iff s t).mp h
    have hmap : (s.edges.map fun e => e.child.terminals) =
        t.edges.map fun f => f.child.terminals := by
      rw [← List.forall₂_eq_eq_eq, List.forall₂_map_left_iff, List.forall₂_map_right_iff]
      have hedges : List.Forall₂ (Related fun u v => u.terminals = v.terminals) s.edges t.edges :=
        related_of_children (fun e he f _ hef => ih e he hef) (edgeShapes_eq_iff.mp hes)
      exact hedges.imp fun _ _ hef => hef.2.2
    rw [terminals_eq, terminals_eq, hter, hmap]

/-- Edges are compared in pairs, as far as both lists go. -/
theorem edgesBeq_iff {es fs : List (Edge Trie)} (hlen : es.length = fs.length) :
    edgesBeq es fs = true ↔ List.Forall₂ (Related fun s t => s.beq t = true) es fs := by
  induction es generalizing fs with
  | nil =>
    obtain rfl := List.eq_nil_of_length_eq_zero hlen.symm
    simp [edgesBeq]
  | cons e es ih =>
    obtain ⟨f, fs, rfl⟩ := List.exists_cons_of_length_eq_add_one hlen.symm
    obtain ⟨d, k, s⟩ := e
    obtain ⟨c, l, t⟩ := f
    rw [edgesBeq, List.forall₂_cons, ← ih (Nat.succ.inj hlen), Related]
    simp only [Bool.and_eq_true, beq_iff_eq, and_assoc]

theorem beq_of_shape_eq {s t : Trie} (hs : s.Canonical) (ht : t.Canonical)
    (h : s.shape = t.shape) : s.beq t = true := by
  induction s using nodeInduction generalizing t with
  | node s ih =>
    obtain ⟨hter, hes⟩ := (shape_eq_iff s t).mp h
    have hcount : s.count = t.count := by
      rw [hs.count_eq s .root, ht.count_eq t .root, terminals_eq_of_shape_eq h]
    have hmask : s.mask = t.mask := by
      rw [hs.tidy.mask_eq, ht.tidy.mask_eq, firsts_eq_of_edgeShapes_eq hes]
    have hedges : edgesBeq s.edges t.edges = true := by
      rw [edgesBeq_iff (length_eq_of_edgeShapes_eq hes)]
      exact related_of_children (fun e he f hf => ih e he (hs.child he) (ht.child hf))
        (edgeShapes_eq_iff.mp hes)
    match s, t, hter, hcount, hmask, hedges with
    | node i x n m es, node j y k l fs, hter, hcount, hmask, hedges =>
      obtain rfl : x = y := hter
      obtain rfl : n = k := hcount
      obtain rfl : m = l := hmask
      have hes' : edgesBeq es fs = true := hedges
      rw [beq, hes']
      simp

variable {P : Pool}

/-- Equal masks leave no edge without a partner. -/
theorem length_eq_of_mask_eq {s t : Trie} (hs : s ∈ P) (ht : t ∈ P) (h : s.mask = t.mask) :
    s.edges.length = t.edges.length := by
  have one : ∀ {u v : Trie}, u ∈ P → v ∈ P → u.mask = v.mask →
      u.edges.length ≤ v.edges.length := by
    intro u v hu hv huv
    have hsub := (edges_of_mem hu).firsts_sublist (edges_of_mem hv) fun e he => by
      rw [← mask_contains_iff (P.tidy v hv), ← huv, mask_contains_iff (P.tidy u hu)]
      exact ⟨e, he, rfl⟩
    simpa using hsub.length_le
  exact Nat.le_antisymm (one hs ht h) (one ht hs h.symm)

/-- Subtries that are one node have one shape, so they need no look into them. -/
theorem shape_eq_of_beq {s t : Trie} (hs : s ∈ P) (ht : t ∈ P) (h : s.beq t = true) :
    s.shape = t.shape := by
  induction s using nodeInduction generalizing t with
  | node s ih =>
    by_cases hid : s.id = t.id
    · rw [P.eq_of_id_eq s hs t ht hid]
    · have hfields : s.terminal = t.terminal ∧ s.mask = t.mask ∧
          edgesBeq s.edges t.edges = true := by
        match s, t, hid, h with
        | node i x n m es, node j y k l fs, hid, h =>
          rw [beq] at h
          simp only [Bool.or_eq_true, beq_iff_eq, Bool.and_eq_true] at h
          rcases h with h | h
          · exact absurd h hid
          · exact ⟨h.1.1.1, h.1.2, h.2⟩
      obtain ⟨hter, hmask, hedges⟩ := hfields
      rw [edgesBeq_iff (length_eq_of_mask_eq hs ht hmask)] at hedges
      refine (shape_eq_iff s t).mpr ⟨hter, edgeShapes_eq_iff.mpr ?_⟩
      refine related_of_children (fun e he f hf hbeq => ?_) hedges
      exact ih e he (P.child_mem s hs e he) (P.child_mem t ht f hf) hbeq

theorem beq_iff_shape_eq {s t : Trie} (hs : s ∈ P) (ht : t ∈ P) :
    (s == t) = true ↔ s.shape = t.shape :=
  ⟨shape_eq_of_beq hs ht, beq_of_shape_eq (canonical hs) (canonical ht)⟩

/-- Sets are told apart by their members. -/
theorem members_eq_iff {s t : Trie} (hs : s ∈ P) (ht : t ∈ P) :
    s.members = t.members ↔ ∀ p, s.contains p = t.contains p := by
  rw [Set.ext_iff]
  refine forall_congr' fun p => ?_
  rw [Bool.eq_iff_iff, (canonical hs).contains_iff, (canonical ht).contains_iff, mem_members,
    mem_members]

end Trie

namespace Session

/-- Two sets of a session are equal, have the same members and have the same encoding, or none of
these, however they were made and whatever nodes they share. -/
theorem tfae_beq_contains_encode {hash : HashFunction} {σ : Session} (h : Reachable hash σ)
    (hc : CollisionFree hash σ.interned) {x y : Trie} (hx : x ∈ σ.sets) (hy : y ∈ σ.sets) :
    List.TFAE [(x == y) = true, ∀ p, x.contains p = y.contains p, x.encode = y.encode] := by
  obtain ⟨P, hP⟩ := h.exists_pool hc
  have hxP := hP.sets x hx
  have hyP := hP.sets y hy
  tfae_have 1 ↔ 3 := by
    rw [beq_iff_shape_eq hxP hyP, encode_eq_iff]
  tfae_have 2 ↔ 3 := by
    rw [← members_eq_iff hxP hyP, encode_eq_iff,
      shape_eq_iff_members_eq (canonical hxP) (canonical hyP)]
  tfae_finish

theorem sample_tfae :
    ∃ x ∈ sample.sets, ∃ y ∈ sample.sets, x.encode = [0, 1, 2, 1, 2, 1, 0] ∧
      y.encode = [0, 1, 1, 1, 1, 0] ∧
      List.TFAE [(x == y) = true, ∀ p, x.contains p = y.contains p, x.encode = y.encode] := by
  have hx : firstSet ∈ sample.sets :=
    List.mem_cons_of_mem _ (List.mem_cons_of_mem _ List.mem_cons_self)
  have hy : sample.sets.head (by decide) ∈ sample.sets := List.head_mem _
  exact ⟨_, hx, _, hy, by decide +kernel, by decide +kernel,
    tfae_beq_contains_encode sample_reachable sample_collisionFree hx hy⟩

end Session

end ByteTrie
