import ByteTrie.Proofs.Equality
import ByteTrie.Proofs.Sharing
import ByteTrie.Proofs.Table
import Mathlib

/-!
# Digests tell sets apart

The digest that interning gives for a set is the digest of its members: it does not depend on how
the set was built, which nodes it shares, what the interner has, and which ids are unused.  Sets
with different members have different digests unless the hash function gives one digest to two of
the messages of their nodes.  Nothing is assumed of the hash function.

    x.members = y.members              then the digests are equal, x and y being canonical
    x.members ≠ y.members, but equal   then H collides on the messages of x and y

That sets are canonical is needed for the first part alone.  Those of a session are, unless its own hash
function collided on what was hashed before: then an interner may have put a subtrie with other members in
the place of one, and the set that came back need not be canonical.
-/

namespace ByteTrie

open Trie Pool Interner

variable {H : HashFunction} {x y : Trie} {ts : List Trie} {next : Nat}

theorem Stored.isHeap (h : Stored next ts) : IsHeap {u | u.IsNodeOf ts} where
  child_mem := fun _ hu _ he => hu.child he
  eq_of_id_eq := fun u hu v hv => h.eq_of_id_eq u v hu hv

/-- Interning finds the digest that a set has by itself. -/
theorem Stored.digest_intern (h : Stored next ts) {t : Trie} (ht : t ∈ ts) (H : HashFunction)
    (m : Interner) (n : Nat) : (m.intern H t n).1.1.digest = t.digest H :=
  (entered_intern h.isHeap m H ⟨t, ht, .root⟩ n).1

theorem digest_eq_of_members_eq (hx : x.Canonical) (hy : y.Canonical) (h : x.members = y.members) :
    x.digest H = y.digest H :=
  digest_eq_of_shape_eq (shape_eq_of_members_eq hx hy h)

/-- Where no two messages collide, one digest means one shape, and so the same members. -/
theorem collides_of_digest_eq (hx : x.HasShortKeys) (hy : y.HasShortKeys)
    (hne : x.members ≠ y.members) (h : x.digest H = y.digest H) : Collides H [x, y] := by
  have hshort : ∀ t ∈ [x, y], t.HasShortKeys := by simp [hx, hy]
  refine (collides_or_collisionFree H hshort).resolve_right fun hfree => ?_
  have hshape : x.shape = y.shape :=
    shape_eq_of_digest_eq hfree ⟨x, List.mem_cons_self, .root⟩
      ⟨y, List.mem_cons_of_mem x List.mem_cons_self, .root⟩ h
  exact hne (members_eq_of_shape_eq hshape)

/-- What the digests of two sets in memory tell. -/
theorem Stored.digests_tell (h : Stored next [x, y]) (m m' : Interner) (n n' : Nat) :
    (x.Canonical → y.Canonical → x.members = y.members →
      (m.intern H x n).1.1.digest = (m'.intern H y n').1.1.digest) ∧
    (x.HasShortKeys → y.HasShortKeys → x.members ≠ y.members →
      (m.intern H x n).1.1.digest = (m'.intern H y n').1.1.digest → Collides H [x, y]) := by
  rw [h.digest_intern List.mem_cons_self, h.digest_intern (List.mem_cons_of_mem x List.mem_cons_self)]
  exact ⟨digest_eq_of_members_eq, collides_of_digest_eq⟩

/-- The digests of two sets as they lie in memory, found by any interners: equal for canonical sets
with the same members; and if they are equal for sets with different members, the hash function
collides on what is hashed for the two.  So it is for the sets of a session, unless its hash function
collided on what was hashed before. -/
theorem digests_tell_apart :
    (∀ (H : HashFunction) (x y : Trie) (next : Nat), Stored next [x, y] →
      ∀ (m m' : Interner) (n n' : Nat),
        (x.Canonical → y.Canonical → x.members = y.members →
          (m.intern H x n).1.1.digest = (m'.intern H y n').1.1.digest) ∧
        (x.HasShortKeys → y.HasShortKeys → x.members ≠ y.members →
          (m.intern H x n).1.1.digest = (m'.intern H y n').1.1.digest → Collides H [x, y])) ∧
    ∀ (hash : HashFunction) (σ : Session), σ.Reachable hash →
      (∀ t ∈ σ.interned, t.HasShortKeys) → Collides hash σ.interned ∨
      ∀ x ∈ σ.sets, ∀ y ∈ σ.sets, ∀ (H : HashFunction) (m m' : Interner) (n n' : Nat),
        ((∀ p, x.contains p = y.contains p) →
          (m.intern H x n).1.1.digest = (m'.intern H y n').1.1.digest) ∧
        (x.HasShortKeys → y.HasShortKeys → (∃ p, x.contains p ≠ y.contains p) →
          (m.intern H x n).1.1.digest = (m'.intern H y n').1.1.digest → Collides H [x, y]) := by
  refine ⟨fun H x y next h => h.digests_tell, fun hash σ hσ hshort => ?_⟩
  refine (collides_or_collisionFree hash hshort).imp_right fun hfree x hx y hy H m m' n n' => ?_
  obtain ⟨P, hP⟩ := hσ.exists_pool hfree
  have hxP := hP.sets x hx
  have hyP := hP.sets y hy
  have hstored : Stored P.next [x, y] := P.stored (by simp [hxP, hyP])
  obtain ⟨hsame, hother⟩ := hstored.digests_tell (H := H) m m' n n'
  have hmembers := members_eq_iff hxP hyP
  refine ⟨fun h => hsame (canonical hxP) (canonical hyP) (hmembers.mpr h), fun hx hy h => ?_⟩
  obtain ⟨p, hp⟩ := h
  exact hother hx hy fun heq => hp (hmembers.mp heq p)

/-- The hash function with one digest for all messages. -/
def oneDigest : HashFunction := fun _ => ⟨Vector.replicate 32 0⟩

namespace Session

/-- Two equal sets that were made one after the other, and two sets that a function with one digest for
all messages does not tell apart. -/
theorem digests_tell_apart_oneDigest :
    (∀ H : HashFunction, (Interner.empty.intern H doubledTwin 0).1.1.digest =
      (Interner.empty.intern H doubledSet 0).1.1.digest) ∧
    ∃ x ∈ sample.sets, ∃ y ∈ sample.sets, x.contains [1, 2] = true ∧ y.contains [1, 2] = false ∧
      Collides oneDigest [x, y] := by
  constructor
  · intro H
    have hfree : CollisionFree Blake3.hash doubled.interned :=
      doubled_interned ▸ collisionFree_nil Blake3.hash
    obtain ⟨P, hP⟩ := (doubled_reachable Blake3.hash).exists_pool hfree
    have htwin := hP.sets _ doubledTwin_mem
    have hset := hP.sets _ doubledSet_mem
    have hshape : doubledTwin.shape = doubledSet.shape :=
      (beq_iff_shape_eq htwin hset).mp doubled_beq
    have hstored : Stored P.next [doubledTwin, doubledSet] := P.stored (by simp [htwin, hset])
    exact (digests_tell_apart.1 H _ _ _ hstored Interner.empty Interner.empty 0 0).1
      (canonical htwin) (canonical hset) (members_eq_of_shape_eq hshape)
  · have hx : firstSet ∈ sample.sets :=
      List.mem_cons_of_mem _ (List.mem_cons_of_mem _ List.mem_cons_self)
    have hy : sample.sets.head (by decide) ∈ sample.sets := List.head_mem _
    have hfree := sample_collisionFree
    have htell := (digests_tell_apart.2 Blake3.hash sample sample_reachable hfree.size_lt).resolve_left
      hfree.not_collides _ hx _ hy oneDigest Interner.empty Interner.empty 0 0
    obtain ⟨P, hP⟩ := sample_reachable.exists_pool hfree
    have hdigest : (Interner.empty.intern oneDigest firstSet 0).1.1.digest =
        (Interner.empty.intern oneDigest (sample.sets.head (by decide)) 0).1.1.digest := by
      rw [(entered_intern P.isHeap _ _ (hP.sets _ hx) 0).1,
        (entered_intern P.isHeap _ _ (hP.sets _ hy) 0).1, digest_eq, digest_eq]
      rfl
    exact ⟨_, hx, _, hy, by decide +kernel, by decide +kernel,
      htell.2 (hfree.size_lt _ List.mem_cons_self) (by decide +kernel) ⟨[1, 2], by decide +kernel⟩
        hdigest⟩

end Session

end ByteTrie
