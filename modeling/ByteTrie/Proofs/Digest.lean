import ByteTrie.Digest.Intern
import ByteTrie.Proofs.Shape
import Mathlib

/-!
# Digests of tries

The digest that interning computes for a trie, by recursion over the trie.  The message of a node
can be taken apart: the sizes tell where the keys end, and digests have one size.  So where the hash
function does not collide on the messages of some tries, nodes of these with one digest have one
shape.

    t.digest hash = hash (t.message hash)
    hashed hash ts                            the messages of all nodes of the tries in ts
    Collides hash ts                          two of these messages have one digest
-/

namespace ByteTrie

open Trie Interner

namespace Trie

mutual

def digest (hash : HashFunction) : Trie → Digest
  | node _ t _ _ es => hash (Interner.message t (digestedEdges hash es))

/-- The edges with the digests of their children. -/
def digestedEdges (hash : HashFunction) : List (Edge Trie) → List DigestedEdge
  | [] => []
  | ⟨b, k, t⟩ :: es => (⟨b, k, t⟩, digest hash t) :: digestedEdges hash es

end

/-- What is hashed for a node. -/
def message (hash : HashFunction) (t : Trie) : List UInt8 :=
  Interner.message t.terminal (digestedEdges hash t.edges)

theorem digest_eq (hash : HashFunction) (t : Trie) : t.digest hash = hash (t.message hash) := by
  cases t with
  | node i b n m es => rw [digest]; rfl

/-- A node of one of the tries. -/
def IsNodeOf (u : Trie) (ts : List Trie) : Prop := ∃ t ∈ ts, IsNode u t

theorem IsNodeOf.child {u : Trie} {ts : List Trie} (h : u.IsNodeOf ts) {e : Edge Trie}
    (he : e ∈ u.edges) : e.child.IsNodeOf ts := by
  obtain ⟨t, ht, hu⟩ := h
  exact ⟨t, ht, (IsNode.child he).trans hu⟩

/-- The nodes of some tries, one for each place. -/
def nodesOf (ts : List Trie) : List Trie := ts.flatMap fun t => (t.visits 0).map fun v => v.1

theorem mem_nodesOf_iff {u : Trie} {ts : List Trie} : u ∈ nodesOf ts ↔ u.IsNodeOf ts := by
  simp only [nodesOf, List.mem_flatMap, List.mem_map, exists_mem_visits_iff]
  exact Iff.rfl

/-- The length of every key is a number of 64 bits. -/
def HasShortKeys (t : Trie) : Prop :=
  ∀ u, IsNode u t → ∀ e ∈ u.edges, e.key.length < UInt64.size

theorem hasShortKeys_iff (t : Trie) : t.HasShortKeys ↔
    ∀ u ∈ nodesOf [t], ∀ e ∈ u.edges, e.key.length < UInt64.size := by
  simp [HasShortKeys, mem_nodesOf_iff, IsNodeOf]

instance (t : Trie) : Decidable t.HasShortKeys := decidable_of_iff _ (hasShortKeys_iff t).symm

theorem HasShortKeys.child {t : Trie} (h : t.HasShortKeys) {e : Edge Trie} (he : e ∈ t.edges) :
    e.child.HasShortKeys :=
  fun u hu => h u (.inside he hu)

end Trie

/-- The messages of all nodes of some tries. -/
def hashed (hash : HashFunction) (ts : List Trie) : Set (List UInt8) :=
  {m | ∃ t ∈ ts, ∃ u, IsNode u t ∧ m = u.message hash}

/-- What interning some tries asks of the hash function: that it does not collide on the messages
of their nodes.  The size of a key is a number of 64 bits. -/
structure CollisionFree (hash : HashFunction) (ts : List Trie) : Prop where
  injOn : Set.InjOn hash (hashed hash ts)
  size_lt : ∀ t ∈ ts, ∀ u, IsNode u t → ∀ e ∈ u.edges, e.key.length < UInt64.size

theorem CollisionFree.mono {hash : HashFunction} {ts us : List Trie} (h : CollisionFree hash us)
    (hts : ∀ t ∈ ts, t ∈ us) : CollisionFree hash ts where
  injOn := by
    refine Set.InjOn.mono ?_ h.injOn
    rintro m ⟨t, ht, u, hu, rfl⟩
    exact ⟨t, hts t ht, u, hu, rfl⟩
  size_lt := fun t ht => h.size_lt t (hts t ht)

/-- Two of the messages of the nodes of some tries have one digest. -/
def Collides (hash : HashFunction) (ts : List Trie) : Prop :=
  ∃ a ∈ hashed hash ts, ∃ b ∈ hashed hash ts, a ≠ b ∧ hash a = hash b

theorem collides_or_collisionFree (hash : HashFunction) {ts : List Trie}
    (hts : ∀ t ∈ ts, t.HasShortKeys) : Collides hash ts ∨ CollisionFree hash ts := by
  by_cases hinj : Set.InjOn hash (hashed hash ts)
  · exact Or.inr ⟨hinj, hts⟩
  · left
    simp only [Set.InjOn, not_forall] at hinj
    obtain ⟨a, ha, b, hb, heq, hne⟩ := hinj
    exact ⟨a, ha, b, hb, hne, heq⟩

theorem CollisionFree.not_collides {hash : HashFunction} {ts : List Trie}
    (h : CollisionFree hash ts) : ¬ Collides hash ts := by
  rintro ⟨a, ha, b, hb, hne, heq⟩
  exact hne (h.injOn ha hb heq)

theorem collisionFree_nil (hash : HashFunction) : CollisionFree hash [] where
  injOn := by
    rintro _ ⟨t, ht, -⟩
    exact absurd ht List.not_mem_nil
  size_lt t ht := absurd ht List.not_mem_nil

theorem collisionFree_iff (hash : HashFunction) (ts : List Trie) :
    CollisionFree hash ts ↔
      (∀ u ∈ nodesOf ts, ∀ v ∈ nodesOf ts, u.digest hash = v.digest hash →
        u.message hash = v.message hash) ∧ ∀ t ∈ ts, t.HasShortKeys := by
  simp only [mem_nodesOf_iff, digest_eq]
  constructor
  · intro h
    refine ⟨?_, h.size_lt⟩
    rintro u ⟨t, ht, hu⟩ v ⟨s, hs, hv⟩ heq
    exact h.injOn ⟨t, ht, u, hu, rfl⟩ ⟨s, hs, v, hv, rfl⟩ heq
  · rintro ⟨hinj, hsize⟩
    refine ⟨?_, hsize⟩
    rintro _ ⟨t, ht, u, hu, rfl⟩ _ ⟨s, hs, v, hv, rfl⟩ heq
    exact hinj u ⟨t, ht, hu⟩ v ⟨s, hs, hv⟩ heq

instance (hash : HashFunction) (ts : List Trie) : Decidable (CollisionFree hash ts) :=
  decidable_of_iff _ (collisionFree_iff hash ts).symm

namespace Interner

/-! ## Messages -/

/-- What the message of an edge is made of. -/
def content (e : DigestedEdge) : Path × Digest := (e.1.key, e.2)

theorem edgeMessage_eq_of_content_eq {e f : DigestedEdge} (h : content e = content f) :
    edgeMessage e = edgeMessage f := by
  obtain ⟨hkey, hdigest⟩ := Prod.mk.inj h
  rw [edgeMessage, edgeMessage, hkey, hdigest]

theorem message_eq_of_content_eq (b : Bool) {es fs : List DigestedEdge}
    (h : es.map content = fs.map content) : message b es = message b fs := by
  rw [message, message]
  congr 1
  induction es generalizing fs with
  | nil =>
    obtain rfl := List.map_eq_nil_iff.mp h.symm
    rfl
  | cons e es ih =>
    cases fs with
    | nil => cases h
    | cons f fs =>
      simp only [List.map_cons, List.cons.injEq] at h
      rw [List.flatMap_cons, List.flatMap_cons, edgeMessage_eq_of_content_eq h.1, ih h.2]

theorem digest_toList_inj {c d : Digest} (h : c.toList = d.toList) : c = d := by
  obtain ⟨c⟩ := c
  obtain ⟨d⟩ := d
  exact congrArg Digest.mk (Vector.toList_inj.mp h)

theorem length_digest (d : Digest) : d.toList.length = 32 := by
  rw [Digest.toList, Vector.length_toList]

theorem edgeMessage_append_inj {e f : DigestedEdge} {a b : List UInt8}
    (he : e.1.key.length < UInt64.size) (hf : f.1.key.length < UInt64.size)
    (h : edgeMessage e ++ a = edgeMessage f ++ b) : content e = content f ∧ a = b := by
  simp only [edgeMessage, List.append_assoc] at h
  obtain ⟨hsize, h⟩ := List.append_inj h (by rw [length_littleEndian, length_littleEndian])
  have hwidth : UInt64.size = Nat.pow 256 sizeWidth := rfl
  rw [hwidth] at he hf
  have hlen : e.1.key.length = f.1.key.length := littleEndian_inj he hf hsize
  obtain ⟨hkey, h⟩ := List.append_inj h hlen
  obtain ⟨hdigest, h⟩ := List.append_inj h (by rw [length_digest, length_digest])
  exact ⟨Prod.ext hkey (digest_toList_inj hdigest), h⟩

theorem edgeMessage_ne_nil (e : DigestedEdge) : edgeMessage e ≠ [] := by
  intro h
  have := congrArg List.length h
  simp only [edgeMessage, List.length_append, length_littleEndian, sizeWidth] at this
  simp at this

theorem content_eq_of_message_eq {b c : Bool} {es fs : List DigestedEdge}
    (he : ∀ e ∈ es, e.1.key.length < UInt64.size) (hf : ∀ f ∈ fs, f.1.key.length < UInt64.size)
    (h : message b es = message c fs) : b = c ∧ es.map content = fs.map content := by
  rw [message, message, List.cons.injEq] at h
  obtain ⟨hbc, h⟩ := h
  refine ⟨by revert hbc; cases b <;> cases c <;> simp, ?_⟩
  induction es generalizing fs with
  | nil =>
    cases fs with
    | nil => rfl
    | cons f fs =>
      rw [List.flatMap_cons, List.flatMap_nil] at h
      exact absurd (List.append_eq_nil_iff.mp h.symm).1 (edgeMessage_ne_nil f)
  | cons e es ih =>
    cases fs with
    | nil =>
      rw [List.flatMap_cons, List.flatMap_nil] at h
      exact absurd (List.append_eq_nil_iff.mp h).1 (edgeMessage_ne_nil e)
    | cons f fs =>
      rw [List.flatMap_cons, List.flatMap_cons] at h
      obtain ⟨hef, h⟩ := edgeMessage_append_inj (he e List.mem_cons_self)
        (hf f List.mem_cons_self) h
      rw [List.map_cons, List.map_cons, hef,
        ih (fun g hg => he g (List.mem_cons_of_mem e hg))
          (fun g hg => hf g (List.mem_cons_of_mem f hg)) h]

end Interner

/-! ## Nodes with one digest -/

namespace Trie

variable {hash : HashFunction} {ts : List Trie}

theorem digestedEdges_eq_map (hash : HashFunction) (es : List (Edge Trie)) :
    digestedEdges hash es = es.map fun e => (e, e.child.digest hash) := by
  induction es with
  | nil => rfl
  | cons e es ih => rw [digestedEdges, ih, List.map_cons]

theorem mem_of_mem_digestedEdges {es : List (Edge Trie)} {e : DigestedEdge}
    (h : e ∈ digestedEdges hash es) : e.1 ∈ es := by
  rw [digestedEdges_eq_map] at h
  obtain ⟨f, hf, rfl⟩ := List.mem_map.mp h
  exact hf

theorem content_eq_iff {es fs : List (Edge Trie)} :
    (digestedEdges hash es).map content = (digestedEdges hash fs).map content ↔
      List.Forall₂ (Related fun s t => s.digest hash = t.digest hash) es fs := by
  rw [digestedEdges_eq_map, digestedEdges_eq_map, List.map_map, List.map_map,
    ← List.forall₂_eq_eq_eq, List.forall₂_map_left_iff, List.forall₂_map_right_iff]
  simp only [Function.comp_apply, content, Edge.key, Prod.mk.injEq, List.cons.injEq, and_assoc]
  exact Iff.rfl

theorem shape_eq_of_digest_eq (hc : CollisionFree hash ts) {u v : Trie} (hu : u.IsNodeOf ts)
    (hv : v.IsNodeOf ts) (h : u.digest hash = v.digest hash) : u.shape = v.shape := by
  induction u using nodeInduction generalizing v with
  | node u ih =>
    obtain ⟨t, ht, hut⟩ := hu
    obtain ⟨t', ht', hvt⟩ := hv
    rw [digest_eq, digest_eq] at h
    have hmessage := hc.injOn ⟨t, ht, u, hut, rfl⟩ ⟨t', ht', v, hvt, rfl⟩ h
    obtain ⟨hter, hcontent⟩ := content_eq_of_message_eq
      (fun e he => hc.size_lt t ht u hut e.1 (mem_of_mem_digestedEdges he))
      (fun e he => hc.size_lt t' ht' v hvt e.1 (mem_of_mem_digestedEdges he)) hmessage
    refine (shape_eq_iff u v).mpr ⟨hter, edgeShapes_eq_iff.mpr ?_⟩
    refine related_of_children (fun e he f hf => ?_) (content_eq_iff.mp hcontent)
    exact ih e he (.child ⟨t, ht, hut⟩ he) (.child ⟨t', ht', hvt⟩ hf)

/-- Digests look at nothing but the shape. -/
theorem digest_eq_of_shape_eq {s t : Trie} (h : s.shape = t.shape) :
    s.digest hash = t.digest hash := by
  induction s using nodeInduction generalizing t with
  | node s ih =>
    obtain ⟨hter, hes⟩ := (shape_eq_iff s t).mp h
    have hcontent : (digestedEdges hash s.edges).map content =
        (digestedEdges hash t.edges).map content := by
      refine content_eq_iff.mpr (related_of_children ?_ (edgeShapes_eq_iff.mp hes))
      exact fun e he f _ hef => ih e he hef
    rw [digest_eq, digest_eq, message, message, hter, message_eq_of_content_eq _ hcontent]

end Trie

end ByteTrie
