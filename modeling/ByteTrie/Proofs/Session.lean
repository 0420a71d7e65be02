import ByteTrie.Digest.Blake3
import ByteTrie.Proofs.Build
import ByteTrie.Proofs.Cursor
import ByteTrie.Proofs.Decode
import ByteTrie.Proofs.Intern
import ByteTrie.Proofs.Product
import ByteTrie.Proofs.Range
import ByteTrie.Proofs.Slice
import ByteTrie.Transform
import Mathlib

/-!
# Sessions

A session is all that there is while a program uses the library: the sets, cursors and interners made
so far, none of which is ever changed, and the next unused id.  A step makes one more of them from
those that there are.

    Step hash σ σ'       one call leads from σ to σ'
    Reachable hash σ     some row of calls leads to σ
    σ.In hash P          all that σ holds are nodes of the pool P

Every step of a session adds nodes to its pool and takes none away, so whatever the order of the
calls, all sets of a session are nodes of one pool.
-/

namespace ByteTrie

open Trie Pool Interner

/-- What a program holds: `interned` are the sets that were given to an interner so far. -/
structure Session where
  next : Nat
  sets : List Trie
  cursors : List Cursor
  interners : List Interner
  interned : List Trie

namespace Session

def start : Session := ⟨firstId, [], [], [], []⟩

/-- After a call that gives a set. -/
def gain (σ : Session) (x : Fresh Trie) : Session :=
  { σ with next := (x σ.next).2, sets := (x σ.next).1 :: σ.sets }

/-- After a call that may fail, and else gives a set. -/
def gainOk {ε α : Type} (σ : Session) (x : Fresh (Except ε α)) (set : α → Trie) : Session :=
  { σ with
    next := (x σ.next).2
    sets := (x σ.next).1.toOption.toList.map set ++ σ.sets }

def gainCursor (σ : Session) (x : Fresh Cursor) : Session :=
  { σ with next := (x σ.next).2, cursors := (x σ.next).1 :: σ.cursors }

/-- After a set `t` was interned by `m`. -/
def intern (σ : Session) (hash : HashFunction) (m : Interner) (t : Trie) : Session :=
  let r := m.intern hash t σ.next
  { σ with
    next := r.2
    sets := r.1.1.trie :: σ.sets
    interners := r.1.2 :: σ.interners
    interned := t :: σ.interned }

variable {hash : HashFunction} {σ σ' : Session} {P Q : Pool}

/-- One call, with arguments that the session holds. -/
inductive Step (hash : HashFunction) (σ : Session) : Session → Prop
  | empty : Step hash σ (σ.gain (pure Trie.empty))
  | singleton (p : Path) : Step hash σ (σ.gain (Trie.singleton p))
  | ofPaths (ps : List Path) : Step hash σ (σ.gain (Trie.ofPaths ps))
  | range (r : IntType) (order : ByteOrder) (p : Progression) :
      Step hash σ (σ.gainOk (Trie.range r order p) id)
  | decode (src : List UInt8) : Step hash σ (σ.gainOk (Trie.decode src) id)
  | decodeWithin (limit : Nat) (src : List UInt8) :
      Step hash σ (σ.gainOk (Trie.decodeWithin limit src) id)
  | readPaths (keep : Nat → Path → Bool) (src : List UInt8) :
      Step hash σ (σ.gainOk (PathList.read keep src) Prod.fst)
  | union {s t : Trie} (hs : s ∈ σ.sets) (ht : t ∈ σ.sets) : Step hash σ (σ.gain (s.union t))
  | inter {s t : Trie} (hs : s ∈ σ.sets) (ht : t ∈ σ.sets) : Step hash σ (σ.gain (s.inter t))
  | diff {s t : Trie} (hs : s ∈ σ.sets) (ht : t ∈ σ.sets) : Step hash σ (σ.gain (s.diff t))
  | restrict {s t : Trie} (hs : s ∈ σ.sets) (ht : t ∈ σ.sets) :
      Step hash σ (σ.gain (s.restrict t))
  | raffinate {s t : Trie} (hs : s ∈ σ.sets) (ht : t ∈ σ.sets) :
      Step hash σ (σ.gain (s.raffinate t))
  | insert {t : Trie} (ht : t ∈ σ.sets) (p : Path) : Step hash σ (σ.gain (t.insert p))
  | erase {t : Trie} (ht : t ∈ σ.sets) (p : Path) : Step hash σ (σ.gain (t.erase p))
  | joinAll {ts : List Trie} (hts : ∀ t ∈ ts, t ∈ σ.sets) : Step hash σ (σ.gain (Trie.joinAll ts))
  | product {s t : Trie} (hs : s ∈ σ.sets) (ht : t ∈ σ.sets) : Step hash σ (σ.gain (s.product t))
  | wrap {t : Trie} (ht : t ∈ σ.sets) (p : Path) : Step hash σ (σ.gain (t.wrap p))
  | heads {t : Trie} (ht : t ∈ σ.sets) (n : Nat) : Step hash σ (σ.gain (t.heads n))
  | tails {t : Trie} (ht : t ∈ σ.sets) (n : Nat) : Step hash σ (σ.gain (t.tails n))
  | transform {t : Trie} (ht : t ∈ σ.sets) (f : Rewriter) : Step hash σ (σ.gain (t.transform f))
  | cursor {t : Trie} (ht : t ∈ σ.sets) : Step hash σ (σ.gainCursor (pure (Cursor.ofTrie t)))
  | move {c : Cursor} (hc : c ∈ σ.cursors) (m : Cursor.Move) :
      Step hash σ (σ.gainCursor (pure (c.move m).2))
  | fork {c : Cursor} (hc : c ∈ σ.cursors) : Step hash σ (σ.gainCursor c.fork)
  | subtrie {c : Cursor} (hc : c ∈ σ.cursors) : Step hash σ (σ.gain c.subtrie)
  | interner : Step hash σ { σ with interners := Interner.empty :: σ.interners }
  | intern {m : Interner} {t : Trie} (hm : m ∈ σ.interners) (ht : t ∈ σ.sets) :
      Step hash σ (σ.intern hash m t)

/-- What a row of calls leads to. -/
inductive Reachable (hash : HashFunction) : Session → Prop
  | start : Reachable hash start
  | step {σ σ' : Session} (h : Reachable hash σ) (hs : Step hash σ σ') : Reachable hash σ'

/-- All that a session holds are nodes of a pool. -/
structure In (σ : Session) (hash : HashFunction) (P : Pool) : Prop where
  next_eq : σ.next = P.next
  sets : ∀ t ∈ σ.sets, t ∈ P
  cursors : ∀ c ∈ σ.cursors, c.In P
  interners : ∀ m ∈ σ.interners, TableIn P hash σ.interned m.table

/-! ## One call -/

theorem in_start (hash : HashFunction) : start.In hash Pool.start where
  next_eq := rfl
  sets := fun _ h => absurd h List.not_mem_nil
  cursors := fun _ h => absurd h List.not_mem_nil
  interners := fun _ h => absurd h List.not_mem_nil

/-- After a call that gives sets of the pool. -/
theorem In.add (h : σ.In hash P) {α : Type} {x : Fresh α} (ts : α → List Trie)
    (hx : P.Makes x fun Q a => ∀ t ∈ ts a, t ∈ Q) :
    ∃ Q, P ≤ Q ∧ In { σ with next := (x σ.next).2, sets := ts (x σ.next).1 ++ σ.sets } hash Q := by
  obtain ⟨Q, hPQ, hn, ht⟩ := hx
  rw [← h.next_eq] at hn ht
  refine ⟨Q, hPQ, hn, fun u hu => ?_, fun c hc => (h.cursors c hc).mono hPQ,
    fun m hm => (h.interners m hm).mono hPQ fun _ ht => ht⟩
  rcases List.mem_append.mp hu with hu | hu
  · exact ht u hu
  · exact hPQ.2 u (h.sets u hu)

theorem In.gain (h : σ.In hash P) {x : Fresh Trie} (hx : P.Makes x fun Q t => t ∈ Q) :
    ∃ Q, P ≤ Q ∧ (σ.gain x).In hash Q := by
  refine h.add (fun t => [t]) (hx.imp fun Q t _ ht u hu => ?_)
  exact List.mem_singleton.mp hu ▸ ht

theorem In.gainOk (h : σ.In hash P) {ε α : Type} {x : Fresh (Except ε α)} {set : α → Trie}
    (hx : P.Makes x fun Q r => ∀ a, r = .ok a → set a ∈ Q) :
    ∃ Q, P ≤ Q ∧ (σ.gainOk x set).In hash Q := by
  refine h.add (fun r => r.toOption.toList.map set) (hx.imp fun Q r _ hr t ht => ?_)
  obtain ⟨a, ha, rfl⟩ := List.mem_map.mp ht
  cases r with
  | error e => cases ha
  | ok b =>
    obtain rfl := List.mem_singleton.mp ha
    exact hr _ rfl

theorem In.gainCursor (h : σ.In hash P) {x : Fresh Cursor} (hx : P.Makes x fun Q c => c.In Q) :
    ∃ Q, P ≤ Q ∧ (σ.gainCursor x).In hash Q := by
  obtain ⟨Q, hPQ, hn, hc⟩ := hx
  rw [← h.next_eq] at hn hc
  refine ⟨Q, hPQ, hn, fun u hu => hPQ.2 u (h.sets u hu), fun d hd => ?_,
    fun m hm => (h.interners m hm).mono hPQ fun _ ht => ht⟩
  rcases List.mem_cons.mp hd with rfl | hd
  · exact hc
  · exact (h.cursors d hd).mono hPQ

theorem In.intern (h : σ.In hash P) {m : Interner} {t : Trie} (hm : m ∈ σ.interners)
    (ht : t ∈ σ.sets) (hc : CollisionFree hash (t :: σ.interned)) :
    ∃ Q, P ≤ Q ∧ (σ.intern hash m t).In hash Q := by
  have longer : ∀ u ∈ σ.interned, u ∈ t :: σ.interned := fun u hu => List.mem_cons_of_mem t hu
  have htable : TableIn P hash (t :: σ.interned) m.table :=
    (h.interners m hm).mono (Pool.le_refl P) longer
  obtain ⟨Q, hPQ, hn, hkept, -, hnew⟩ :=
    makes_intern hc (h.sets t ht) List.mem_cons_self htable
  rw [← h.next_eq] at hn hkept hnew
  refine ⟨Q, hPQ, hn, fun u hu => ?_, fun c hc => (h.cursors c hc).mono hPQ, fun k hk => ?_⟩
  · rcases List.mem_cons.mp hu with rfl | hu
    · exact hkept.mem
    · exact hPQ.2 u (h.sets u hu)
  · rcases List.mem_cons.mp hk with rfl | hk
    · exact hnew
    · exact (h.interners k hk).mono hPQ longer

/-- Every call only adds nodes to the pool of a session. -/
theorem Step.holds (h : Step hash σ σ') (hc : CollisionFree hash σ'.interned) (hσ : σ.In hash P) :
    ∃ Q, P ≤ Q ∧ σ'.In hash Q := by
  cases h with
  | empty => exact hσ.gain (makes_pure P.empty_mem)
  | singleton p => exact hσ.gain ((makes_singleton P p).imp fun Q t _ ht => ht.1)
  | ofPaths ps => exact hσ.gain ((makes_ofPaths P ps).imp fun Q t _ ht => ht.1)
  | range r order p => exact hσ.gainOk (makes_range P r order p)
  | decode src => exact hσ.gainOk (makes_decode P src)
  | decodeWithin limit src => exact hσ.gainOk (makes_decodeWithin P limit src)
  | readPaths keep src =>
    exact hσ.gainOk ((PathList.makes_read P keep src).imp fun Q r _ hr a ha => hr a.1 a.2 ha)
  | union hs ht =>
    exact hσ.gain ((makes_union (hσ.sets _ hs) (hσ.sets _ ht)).imp fun Q u _ hu => hu.mem)
  | inter hs ht =>
    exact hσ.gain ((makes_inter (hσ.sets _ hs) (hσ.sets _ ht)).imp fun Q u _ hu => hu.mem)
  | diff hs ht =>
    exact hσ.gain ((makes_diff (hσ.sets _ hs) (hσ.sets _ ht)).imp fun Q u _ hu => hu.mem)
  | restrict hs ht =>
    exact hσ.gain ((makes_restrict (hσ.sets _ hs) (hσ.sets _ ht)).imp fun Q u _ hu => hu.mem)
  | raffinate hs ht =>
    exact hσ.gain ((makes_raffinate (hσ.sets _ hs) (hσ.sets _ ht)).imp fun Q u _ hu => hu.mem)
  | insert ht p => exact hσ.gain ((makes_insert (hσ.sets _ ht) p).imp fun Q u _ hu => hu.1)
  | erase ht p => exact hσ.gain ((makes_erase (hσ.sets _ ht) p).imp fun Q u _ hu => hu.1)
  | joinAll hts =>
    exact hσ.gain ((makes_joinAll _ fun t ht => hσ.sets t (hts t ht)).imp fun Q u _ hu => hu.1)
  | product hs ht =>
    exact hσ.gain ((makes_product (hσ.sets _ hs) (hσ.sets _ ht)).imp fun Q u _ hu => hu.1)
  | wrap ht p => exact hσ.gain ((makes_wrap (hσ.sets _ ht) p).imp fun Q u _ hu => hu.1)
  | heads ht n => exact hσ.gain ((makes_heads (hσ.sets _ ht) n).imp fun Q u _ hu => hu.1)
  | tails ht n => exact hσ.gain ((makes_tails (hσ.sets _ ht) n).imp fun Q u _ hu => hu.1)
  | transform ht f => exact hσ.gain ((makes_ofPaths P _).imp fun Q u _ hu => hu.1)
  | cursor ht => exact hσ.gainCursor (makes_pure (Cursor.in_ofTrie (hσ.sets _ ht)))
  | move hm m => exact hσ.gainCursor (makes_pure ((hσ.cursors _ hm).move m))
  | fork hf => exact hσ.gainCursor (Cursor.makes_fork (hσ.cursors _ hf))
  | subtrie hs => exact hσ.gain ((Cursor.makes_subtrie (hσ.cursors _ hs)).imp fun Q u _ hu => hu.1)
  | interner =>
    refine ⟨P, Pool.le_refl P, hσ.next_eq, hσ.sets, hσ.cursors, fun m hm => ?_⟩
    rcases List.mem_cons.mp hm with rfl | hm
    · exact fun d kept hd => by simp [Interner.empty] at hd
    · exact hσ.interners m hm
  | intern hm ht => exact hσ.intern hm ht hc

/-! ## Rows of calls -/

theorem Step.interned_subset (h : Step hash σ σ') : ∀ t ∈ σ.interned, t ∈ σ'.interned := by
  cases h with
  | intern hm ht => exact fun t ht => List.mem_cons_of_mem _ ht
  | _ => exact fun t ht => ht

theorem Step.sets_subset (h : Step hash σ σ') : ∀ t ∈ σ.sets, t ∈ σ'.sets := by
  intro t ht
  cases h with
  | range | decode | decodeWithin | readPaths => exact List.mem_append_right _ ht
  | cursor | move | fork | interner => exact ht
  | _ => exact List.mem_cons_of_mem _ ht

theorem Step.interners_subset (h : Step hash σ σ') : ∀ m ∈ σ.interners, m ∈ σ'.interners := by
  intro m hm
  cases h with
  | interner | intern => exact List.mem_cons_of_mem _ hm
  | _ => exact hm

/-- All that a session holds are nodes of one pool. -/
theorem Reachable.exists_pool (h : Reachable hash σ) (hc : CollisionFree hash σ.interned) :
    ∃ P, σ.In hash P := by
  induction h with
  | start => exact ⟨Pool.start, in_start hash⟩
  | step _ hs ih =>
    obtain ⟨P, hP⟩ := ih (hc.mono hs.interned_subset)
    obtain ⟨Q, -, hQ⟩ := hs.holds hc hP
    exact ⟨Q, hQ⟩

theorem Reachable.canonical (h : Reachable hash σ) (hc : CollisionFree hash σ.interned) {t : Trie}
    (ht : t ∈ σ.sets) : t.Canonical := by
  obtain ⟨P, hP⟩ := h.exists_pool hc
  exact Pool.canonical (hP.sets t ht)

/-- Every set that any row of calls leads to is in canonical form. -/
theorem reachable_canonical (h : Reachable hash σ) (hc : CollisionFree hash σ.interned) :
    ∀ t ∈ σ.sets, t.Canonical := by
  intro t ht
  exact h.canonical hc ht

/-! ## A session -/

/-- The set of the path 1 2, made first. -/
def firstSet : Trie := (Trie.singleton [1, 2] firstId).1

/-- The session after this set was made. -/
def afterFirst : Session := start.gain (Trie.singleton [1, 2])

/-- It is interned, and the set of the path 1 is made. -/
def sample : Session :=
  (({ afterFirst with interners := [Interner.empty] } : Session).intern Blake3.hash Interner.empty
    firstSet).gain (Trie.singleton [1])

theorem sample_reachable : Reachable Blake3.hash sample := by
  have h₁ : Reachable Blake3.hash afterFirst := .step .start (.singleton [1, 2])
  have h₂ : Reachable Blake3.hash { afterFirst with interners := [Interner.empty] } :=
    .step h₁ .interner
  have h₃ := h₂.step (.intern (m := Interner.empty) (t := firstSet) List.mem_cons_self
    List.mem_cons_self)
  exact h₃.step (.singleton [1])

theorem sample_collisionFree : CollisionFree Blake3.hash sample.interned := by decide +kernel

theorem sample_canonical : sample.sets.length = 3 ∧ ∀ t ∈ sample.sets, t.Canonical :=
  ⟨rfl, reachable_canonical sample_reachable sample_collisionFree⟩

/-! ## A set with one subtrie in two places -/

/-- The set of 1, 1 3, 2 and 2 3: what is behind 1 and what is behind 2 are equal. -/
def doubledBytes : List UInt8 := [0, 2, 1, 1, 1, 1, 1, 3, 1, 0, 1, 2, 1, 1, 1, 3, 1, 0]

-- irreducible, so that a proof about the session does not run the reader
/-- The session in which it was made twice. -/
@[irreducible]
def doubled : Session :=
  (start.gainOk (Trie.decodeWithin 3 doubledBytes) id).gainOk (Trie.decodeWithin 3 doubledBytes) id

@[irreducible]
def doubledSet : Trie := doubled.sets.getLastD Trie.empty

/-- The set made second. -/
@[irreducible]
def doubledTwin : Trie := doubled.sets.headD Trie.empty

theorem doubled_reachable (hash : HashFunction) : Reachable hash doubled := by
  rw [doubled]
  exact .step (.step .start (.decodeWithin 3 _)) (.decodeWithin 3 _)

theorem doubled_interned : doubled.interned = [] := by
  rw [doubled]
  rfl

theorem doubled_sets : doubled.sets = [doubledTwin, doubledSet] := by
  have h : doubled.sets.length = 2 := by decide +kernel
  obtain ⟨s, t, hst⟩ := List.length_eq_two.mp h
  rw [doubledTwin, doubledSet, hst]
  rfl

theorem doubledSet_mem : doubledSet ∈ doubled.sets :=
  doubled_sets ▸ List.mem_cons_of_mem _ List.mem_cons_self

theorem doubledTwin_mem : doubledTwin ∈ doubled.sets := doubled_sets ▸ List.mem_cons_self

/-- The sets are two nodes, and so are two equal subtries of the first one. -/
theorem doubled_nodes : doubledTwin.sameNode doubledSet = false ∧
    ∃ e ∈ doubledSet.edges, ∃ f ∈ doubledSet.edges,
      e.child.sameNode f.child = false ∧ (e.child == f.child) = true := by
  decide +kernel

theorem doubled_beq : (doubledTwin == doubledSet) = true := by decide +kernel

theorem doubled_collisionFree : CollisionFree Blake3.hash [doubledTwin, doubledSet] := by
  decide +kernel

end Session

end ByteTrie
