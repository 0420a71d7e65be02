import ByteTrie.Proofs.Canonical
import Mathlib

/-!
# Loops with a stack of their own

A loop that keeps a stack is a machine.  A step takes a state and the next unused id, and gives a result
or the state to go on with; it is stopped where an index is out of bounds or a check fails.

    step.Reaches x y      some steps lead from x to y
    step.Keeps inv        where inv holds a step is not stopped, and inv holds where it leads
    step.Safe inv x r     from x the machine is never stopped, inv holds all the way, and it gives r
-/

namespace ByteTrie

/-- A step from a state and the next unused id. -/
abbrev Machine (σ α : Type) := σ → Nat → Option ((α ⊕ σ) × Nat)

namespace Machine

variable {σ α : Type} {step : Machine σ α} {inv : σ → Prop} {x y : σ × Nat}

/-- One step. -/
def Leads (step : Machine σ α) (x y : σ × Nat) : Prop := step x.1 x.2 = some (.inr y.1, y.2)

def Reaches (step : Machine σ α) : σ × Nat → σ × Nat → Prop := Relation.ReflTransGen step.Leads

def Keeps (step : Machine σ α) (inv : σ → Prop) : Prop :=
  ∀ s i, inv s → ∃ r, step s i = some r ∧ ∀ s', r.1 = .inr s' → inv s'

/-- A whole run from `x`, to the result and the next unused id `r`. -/
structure Safe (step : Machine σ α) (inv : σ → Prop) (x : σ × Nat) (r : α × Nat) : Prop where
  sound : ∀ y, step.Reaches x y → inv y.1
  runs : ∀ y, step.Reaches x y → (step y.1 y.2).isSome = true
  gives : ∃ y, step.Reaches x y ∧ step y.1 y.2 = some (.inl r.1, r.2)

theorem Keeps.reaches (h : step.Keeps inv) (hx : inv x.1) (hxy : step.Reaches x y) : inv y.1 := by
  induction hxy with
  | refl => exact hx
  | @tail y z _ hyz ih =>
    obtain ⟨r, hr, hinv⟩ := h y.1 y.2 ih
    have heq : r = (.inr z.1, z.2) := Option.some.inj (hr.symm.trans hyz)
    exact hinv z.1 (by rw [heq])

theorem Keeps.safe (h : step.Keeps inv) (hx : inv x.1) {r : α × Nat}
    (hr : ∃ y, step.Reaches x y ∧ step y.1 y.2 = some (.inl r.1, r.2)) : step.Safe inv x r := by
  refine ⟨fun y => h.reaches hx, fun y hy => ?_, hr⟩
  obtain ⟨r', hr', -⟩ := h y.1 y.2 (h.reaches hx hy)
  rw [hr']
  rfl

theorem Reaches.refl (x : σ × Nat) : step.Reaches x x := Relation.ReflTransGen.refl

theorem Reaches.trans {z : σ × Nat} (hxy : step.Reaches x y) (hyz : step.Reaches y z) :
    step.Reaches x z :=
  Relation.ReflTransGen.trans hxy hyz

theorem Leads.reaches (h : step.Leads x y) : step.Reaches x y := Relation.ReflTransGen.single h

end Machine

/-! ## Checked operations -/

/-- The bytes from index `i` to `j`, if these are bounds. -/
def Path.slice? (p : Path) (i j : Nat) : Option Path :=
  if i ≤ j ∧ j ≤ p.length then some ((p.take j).drop i) else none

theorem Path.slice?_eq {p : Path} {i j : Nat} (hij : i ≤ j) (hj : j ≤ p.length) :
    p.slice? i j = some ((p.take j).drop i) :=
  if_pos ⟨hij, hj⟩

theorem Path.slice?_to_end {p : Path} {i : Nat} (hi : i ≤ p.length) :
    p.slice? i p.length = some (p.drop i) := by
  rw [slice?_eq hi (Nat.le_refl _), List.take_length]

namespace Trie

/-- What a node is asked for when it is made: its edges ascend, and each leads to a set that is not
empty. -/
def Buildable (es : List (Edge Trie)) : Prop :=
  es.Pairwise (fun e f => e.first < f.first) ∧ ∀ e ∈ es, e.child.isEmpty = false

instance (es : List (Edge Trie)) : Decidable (Buildable es) :=
  inferInstanceAs (Decidable (_ ∧ _))

def make? (terminal : Bool) (es : List (Edge Trie)) (i : Nat) : Option (Trie × Nat) :=
  if Buildable es then some (make terminal es i) else none

theorem make?_eq {es : List (Edge Trie)} (h : Buildable es) (b : Bool) (i : Nat) :
    make? b es i = some (make b es i) :=
  if_pos h

/-- A node is not empty if it is terminal or has edges, none of which leads to an empty set. -/
theorem isEmpty_make {b : Bool} {es : List (Edge Trie)} (h : Buildable es)
    (hne : b = true ∨ es ≠ []) (i : Nat) : (make b es i).1.isEmpty = false := by
  cases es with
  | nil =>
    obtain rfl : b = true := by simpa using hne
    rfl
  | cons e es =>
    have he := h.2 e List.mem_cons_self
    simp only [isEmpty, beq_eq_false_iff_ne] at he ⊢
    show b.toNat + (e.child.count + total (es.map fun e => e.child.count)) ≠ 0
    omega

end Trie

end ByteTrie
