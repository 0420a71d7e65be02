import ByteTrie.Proofs.Range
import ByteTrie.Proofs.Restriction
import Mathlib

/-!
# Blocks made in words

The builder computes in words of 128 bits, takes a whole block from its memory where it can, and jumps
from each member to the first one of a later sub-block.  Here it is watched: an operation whose result is
not a word stops it, so does a round of the loop after as many as there are bytes, and every call is
written down with the node it returns and what is remembered then.  It is never stopped, and gives what
`blocks` gives, with the same ids; and what was written down says what each call and the memory hold.

    rounds? sub? step base size limit   the loop over the sub-blocks, by jumps
    block? step hi n base first         the block with n bytes to come, watched
    Mirrors x y ℓ i post                x is not stopped, and gives what y gives
-/

namespace ByteTrie

open Trie Pool

namespace Range

/-! ## Words -/

namespace Checked

/-- The least number that is not a word. -/
def overflow : Nat := 2 ^ 128

def fit? (n : Nat) : Option Nat := if n < overflow then some n else none

def add? (m n : Nat) : Option Nat := fit? (m + n)

def mul? (m n : Nat) : Option Nat := fit? (m * n)

def sub? (m n : Nat) : Option Nat := if n ≤ m then some (m - n) else none

def div? (m n : Nat) : Option Nat := if n = 0 then none else some (m / n)

/-- Division that rounds up. -/
def ceilDiv? (m n : Nat) : Option Nat := do
  let q ← div? m n
  if 0 < m % n then add? q 1 else return q

/-- By less than the width of a word; bits that go over its end are lost. -/
def shiftLeft? (m n : Nat) : Option Nat := if n < 128 then some (m * 2 ^ n % overflow) else none

/-- A byte, if nothing is lost. -/
def byte? (n : Nat) : Option UInt8 := if n < 256 then some (UInt8.ofNat n) else none

variable {m n : Nat}

theorem add?_eq (h : m + n < overflow) : add? m n = some (m + n) := if_pos h

example : add? (overflow - 1) 1 = none := by decide

theorem mul?_eq (h : m * n < overflow) : mul? m n = some (m * n) := if_pos h

theorem sub?_eq (h : n ≤ m) : sub? m n = some (m - n) := if_pos h

theorem div?_eq (h : 0 < n) : div? m n = some (m / n) := if_neg (Nat.ne_of_gt h)

theorem byte?_eq (h : n < 256) : byte? n = some (UInt8.ofNat n) := if_pos h

theorem ceilDiv?_eq (hn : 0 < n) (hm : m < overflow) : ceilDiv? m n = some ((m + n - 1) / n) := by
  have hdiv := Nat.div_add_mod m n
  have hmod := Nat.mod_lt m hn
  rw [ceilDiv?, div?_eq hn]
  show (if 0 < m % n then add? (m / n) 1 else some (m / n)) = _
  by_cases hrest : 0 < m % n
  · -- with something left over the divisor is at least 2
    have htwo : 2 * (m / n) ≤ n * (m / n) := Nat.mul_le_mul_right _ (by omega)
    rw [if_pos hrest, add?_eq (by omega)]
    congr 1
    symm
    refine Nat.div_eq_of_lt_le ?_ ?_
    · rw [Nat.succ_mul, Nat.mul_comm]
      omega
    · rw [Nat.succ_mul, Nat.succ_mul, Nat.mul_comm]
      omega
  · rw [if_neg hrest]
    congr 1
    symm
    refine Nat.div_eq_of_lt_le ?_ ?_
    · rw [Nat.mul_comm]
      omega
    · rw [Nat.succ_mul, Nat.mul_comm]
      omega

/-- The number of members of a block of `n` bytes. -/
theorem shiftLeft?_one (h : 256 ^ n < overflow) : shiftLeft? 1 (8 * n) = some (256 ^ n) := by
  have hpow : 2 ^ (8 * n) = 256 ^ n := Nat.pow_mul 2 8 n
  have hlt : 8 * n < 128 := by
    rw [← hpow, overflow] at h
    exact (Nat.pow_lt_pow_iff_right (by decide)).mp h
  rw [shiftLeft?, if_pos hlt, Nat.one_mul, hpow, Nat.mod_eq_of_lt h]

end Checked

open Checked

/-! ## The watched builder -/

/-- A call for the block at `base` with `rest` bytes to come, at the depth that is missing to the width;
the node that it returned, and what was remembered then. -/
structure Call where
  rest : Nat
  base : Nat
  first : Nat
  node : Trie
  known : Known

namespace Call

/-- The block ends inside the range. -/
def IsWhole (c : Call) (hi : Nat) : Prop := c.base + 256 ^ c.rest ≤ hi

def phase (c : Call) : Nat := c.first - c.base

end Call

/-- What is remembered, and the calls so far, the last one first. -/
structure Ledger where
  known : Known
  calls : List Call

/-- A computation that may be stopped. -/
abbrev Watched := StateT Ledger (StateT Nat Option)

namespace Watched

variable {α : Type}

def check (o : Option α) : Watched α := fun ℓ i => o.map fun a => ((a, ℓ), i)

def run (x : Fresh α) : Watched α := fun ℓ i => some (((x i).1, ℓ), (x i).2)

end Watched

open Watched

/-- `x`, written down as a call. -/
def noted (rest base first : Nat) (x : Watched Trie) : Watched Trie := do
  let t ← x
  modify fun ℓ => { ℓ with calls := ⟨rest, base, first, t, ℓ.known⟩ :: ℓ.calls }
  return t

/-- So many rounds at most, from `member` on. -/
def rounds? (sub? : Nat → Nat → Watched Trie) (step base size limit : Nat) :
    Nat → Nat → Watched (List (Edge Trie))
  | 0, member => if member < limit then check none else return []
  | fuel + 1, member =>
    if member < limit then do
      let byte ← check (div? (← check (Checked.sub? member base)) size)
      let childBase ← check (add? base (← check (mul? byte size)))
      let t ← sub? childBase member
      let b ← check (byte? byte)
      let next ← check (add? childBase size)
      if next < limit then do
        let steps ← check (ceilDiv? (← check (Checked.sub? next member)) step)
        let later ← check (add? member (← check (mul? steps step)))
        let es ← rounds? sub? step base size limit fuel later
        return (Edge.over b [] t).toList ++ es
      else return (Edge.over b [] t).toList
    else return []

def block? (step hi : Nat) : Nat → Nat → Nat → Watched Trie
  | 0, base, first => noted 0 base first (return Trie.leaf)
  | n + 1, base, first => noted (n + 1) base first do
    let size ← check (shiftLeft? 1 (8 * (n + 1)))
    let stop ← check (add? base size)
    let phase ← check (Checked.sub? first base)
    let isWhole := decide (stop ≤ hi)
    match isWhole, (← get).known[(n + 1, phase)]? with
    | true, some t => return t
    | _, _ =>
      let es ← rounds? (block? step hi n) step base (size >>> 8) (min stop hi) 256 first
      let t ← run (Trie.make false es)
      if isWhole then modify fun ℓ => { ℓ with known := ℓ.known.insert (n + 1, phase) t }
      return t

def blocks? (step width lo hi : Nat) : Watched Trie :=
  if lo < hi then block? step hi width 0 lo else return Trie.empty

/-! ## Two runs -/

variable {step width hi n base first limit i j : Nat} {ℓ ℓ' : Ledger} {P Q : Pool} {α β : Type}

/-- From the ledger `ℓ` and the next unused id `i`, `x` is not stopped and does what `y` does. -/
def Mirrors (x : Watched α) (y : Blocks α) (ℓ : Ledger) (i : Nat)
    (post : α → Ledger → Nat → Prop) : Prop :=
  ∃ a ℓ' j, x ℓ i = some ((a, ℓ'), j) ∧ y.run ℓ.known i = ((a, ℓ'.known), j) ∧ post a ℓ' j

theorem mirrors_pure {a : α} {post : α → Ledger → Nat → Prop} (h : post a ℓ i) :
    Mirrors (pure a) (pure a) ℓ i post :=
  ⟨a, ℓ, i, rfl, rfl, h⟩

theorem bind_of_eq {x : Watched α} {f : α → Watched β} {a : α}
    (hx : x ℓ i = some ((a, ℓ'), j)) : (x >>= f) ℓ i = f a ℓ' j := by
  show (x ℓ i).bind _ = _
  rw [hx]
  rfl

theorem Mirrors.bind {x : Watched α} {y : Blocks α} {f : α → Watched β} {g : α → Blocks β}
    {mid : α → Ledger → Nat → Prop} {post : β → Ledger → Nat → Prop} (hx : Mirrors x y ℓ i mid)
    (hf : ∀ a ℓ' j, mid a ℓ' j → Mirrors (f a) (g a) ℓ' j post) :
    Mirrors (x >>= f) (y >>= g) ℓ i post := by
  obtain ⟨a, ℓ', j, hx, hy, ha⟩ := hx
  obtain ⟨b, ℓ'', k, hfx, hgy, hb⟩ := hf a ℓ' j ha
  refine ⟨b, ℓ'', k, (bind_of_eq hx).trans hfx, ?_, hb⟩
  have hbind : (y >>= g).run ℓ.known i =
      (g (y.run ℓ.known i).1.1).run (y.run ℓ.known i).1.2 (y.run ℓ.known i).2 := rfl
  rw [hbind, hy]
  exact hgy

theorem Mirrors.imp {x : Watched α} {y : Blocks α} {mid post : α → Ledger → Nat → Prop}
    (hx : Mirrors x y ℓ i mid) (h : ∀ a ℓ' j, mid a ℓ' j → post a ℓ' j) : Mirrors x y ℓ i post := by
  obtain ⟨a, ℓ', j, hx, hy, ha⟩ := hx
  exact ⟨a, ℓ', j, hx, hy, h a ℓ' j ha⟩

/-- A check that is passed. -/
theorem Mirrors.check {o : Option α} {a : α} {f : α → Watched β} {y : Blocks β}
    {post : β → Ledger → Nat → Prop} (ho : o = some a) (hf : Mirrors (f a) y ℓ i post) :
    Mirrors (Watched.check o >>= f) y ℓ i post := by
  subst ho
  exact hf

theorem Mirrors.run_bind {x : Fresh α} {f : α → Watched β} {g : α → Blocks β}
    {post : β → Ledger → Nat → Prop} (h : Mirrors (f (x i).1) (g (x i).1) ℓ (x i).2 post) :
    Mirrors (run x >>= f) ((liftM x : Blocks α) >>= g) ℓ i post := h

theorem Mirrors.get_bind {f : Ledger → Watched β} {g : Known → Blocks β}
    {post : β → Ledger → Nat → Prop} (h : Mirrors (f ℓ) (g ℓ.known) ℓ i post) :
    Mirrors (get >>= f) (get >>= g) ℓ i post := h

/-- Every call is written down. -/
theorem Mirrors.noted {x : Watched Trie} {y : Blocks Trie} {post : Trie → Ledger → Nat → Prop}
    (h : Mirrors x y ℓ i fun t ℓ' j =>
      post t { ℓ' with calls := ⟨n, base, first, t, ℓ'.known⟩ :: ℓ'.calls } j) :
    Mirrors (noted n base first x) y ℓ i post := by
  obtain ⟨t, ℓ', j, hx, hy, ht⟩ := h
  exact ⟨t, _, j, bind_of_eq hx, hy, ht⟩

/-- With what is known of the plain run. -/
theorem Mirrors.and_makes {x : Watched α} {y : Blocks α} {post : α → Ledger → Nat → Prop}
    {mid : Pool → α × Known → Prop} (hx : Mirrors x y ℓ P.next post)
    (hy : P.Makes (y.run ℓ.known) mid) :
    Mirrors x y ℓ P.next fun a ℓ' j => post a ℓ' j ∧ ∃ Q : Pool, Q.next = j ∧ mid Q (a, ℓ'.known) := by
  obtain ⟨a, ℓ', j, hx, hrun, ha⟩ := hx
  obtain ⟨Q, -, hnext, hmid⟩ := hy
  rw [hrun] at hnext hmid
  exact ⟨a, ℓ', j, hx, hrun, ha, Q, hnext.symm, hmid⟩

/-! ## What was written down -/

/-- The members of `t` are the last `n` digits of `first`, `first + step`, … below `stop`. -/
structure Numbers (t : Trie) (step n first stop : Nat) : Prop where
  canonical : t.Canonical
  contains_iff : ∀ q, t.contains q = true ↔
    ∃ i : Nat, first + i * step < stop ∧ q = bigEndian n (first + i * step)

/-- What `n` and `phase` may be to remember a block by. -/
structure IsKey (width n phase : Nat) : Prop where
  pos : 0 < n
  le_width : n ≤ width
  phase_lt : phase < 256 ^ n

/-- What a call is for, what it returns, and what is remembered then. -/
structure Call.Sound (step width hi : Nat) (c : Call) : Prop where
  rest_le : c.rest ≤ width
  dvd_base : 256 ^ c.rest ∣ c.base
  base_le : c.base ≤ c.first
  first_lt : c.first < min (c.base + 256 ^ c.rest) hi
  node : Numbers c.node step c.rest c.first (min (c.base + 256 ^ c.rest) hi)
  known : ∀ n phase t, c.known[(n, phase)]? = some t →
    IsKey width n phase ∧ Numbers t step n phase (256 ^ n)

/-- Every call is sound, and what whole blocks returned is remembered. -/
structure Ledger.Sound (step width hi : Nat) (ℓ : Ledger) : Prop where
  isKey : ∀ n phase t, ℓ.known[(n, phase)]? = some t → IsKey width n phase
  calls : ∀ c ∈ ℓ.calls, c.Sound step width hi
  leaf : ∀ c ∈ ℓ.calls, c.rest = 0 → c.node = Trie.leaf
  remembered : ∀ c ∈ ℓ.calls, 0 < c.rest → c.IsWhole hi →
    ℓ.known[(c.rest, c.phase)]? = some c.node

/-- What is left of `ℓ` by calls for blocks of `n` bytes: a sound ledger, in which larger blocks are
remembered as before. -/
structure Carries (step width hi n : Nat) (ℓ ℓ' : Ledger) (j : Nat) : Prop where
  sound : ℓ'.Sound step width hi
  above : ∀ m phase : Nat, n < m → ℓ'.known[(m, phase)]? = ℓ.known[(m, phase)]?
  pool : ∃ Q : Pool, Q.next = j ∧ ℓ'.known.Holds step Q

/-- Digits in front of the last ones do not matter. -/
theorem bigEndian_sub {m : Nat} (h : 256 ^ n ∣ base) (hle : base ≤ m) :
    bigEndian n (m - base) = bigEndian n m := by
  obtain ⟨k, rfl⟩ := h
  obtain ⟨d, rfl⟩ := Nat.exists_eq_add_of_le hle
  rw [Nat.add_sub_cancel_left, bigEndian, bigEndian, Nat.add_comm, Nat.mul_comm,
    littleEndian_add_mul]

theorem numbers_of_members {t : Trie} {stop : Nat} (ht : t ∈ P) (hdvd : 256 ^ n ∣ base)
    (hfirst : base ≤ first) (hm : t.members = blockPaths step n base first stop) :
    Numbers t step n first stop where
  canonical := canonical ht
  contains_iff q := by
    rw [(canonical ht).contains_iff, ← mem_members, hm]
    refine exists_congr fun i => and_congr_right fun _ => ?_
    rw [bigEndian_sub hdvd (Nat.le_add_right_of_le hfirst)]

theorem Known.Holds.numbers {known : Known} (h : known.Holds step Q) {phase : Nat} {t : Trie}
    (ht : known[(n, phase)]? = some t) : Numbers t step n phase (256 ^ n) := by
  obtain ⟨hmem, hm⟩ := h n phase t ht
  exact numbers_of_members hmem (Nat.dvd_zero _) (Nat.zero_le phase) hm

theorem Ledger.Sound.note {c : Call} (h : ℓ.Sound step width hi) (hc : c.Sound step width hi)
    (hleaf : c.rest = 0 → c.node = Trie.leaf)
    (hknown : 0 < c.rest → c.IsWhole hi → ℓ.known[(c.rest, c.phase)]? = some c.node) :
    Ledger.Sound step width hi { ℓ with calls := c :: ℓ.calls } where
  isKey := h.isKey
  calls := List.forall_mem_cons.mpr ⟨hc, h.calls⟩
  leaf := List.forall_mem_cons.mpr ⟨hleaf, h.leaf⟩
  remembered := List.forall_mem_cons.mpr ⟨hknown, h.remembered⟩

/-- What was not remembered before is not what any call for a whole block returned. -/
theorem Ledger.Sound.insert (h : ℓ.Sound step width hi) {phase : Nat}
    (hkey : IsKey width n phase) (hnone : ℓ.known[(n, phase)]? = none) (t : Trie) :
    Ledger.Sound step width hi { ℓ with known := ℓ.known.insert (n, phase) t } where
  isKey m later u hu := by
    have hu : (ℓ.known.insert (n, phase) t)[(m, later)]? = some u := hu
    rw [Std.HashMap.getElem?_insert] at hu
    split at hu
    · next heq =>
      cases beq_iff_eq.mp heq
      exact hkey
    · exact h.isKey m later u hu
  calls := h.calls
  leaf := h.leaf
  remembered c hc hrest hwhole := by
    have hold := h.remembered c hc hrest hwhole
    show (ℓ.known.insert (n, phase) t)[(c.rest, c.phase)]? = _
    rw [Std.HashMap.getElem?_insert, if_neg ?_, hold]
    rw [beq_iff_eq]
    intro heq
    rw [← heq, hnone] at hold
    cases hold

theorem Carries.refl (h : ℓ.Sound step width hi) (hP : ℓ.known.Holds step P) (n : Nat) :
    Carries step width hi n ℓ ℓ P.next :=
  ⟨h, fun _ _ _ => rfl, P, rfl, hP⟩

theorem Carries.trans {ℓ'' : Ledger} {k : Nat} (h : Carries step width hi n ℓ ℓ' j)
    (h' : Carries step width hi n ℓ' ℓ'' k) : Carries step width hi n ℓ ℓ'' k :=
  ⟨h'.sound, fun m phase hm => (h'.above m phase hm).trans (h.above m phase hm), h'.pool⟩

/-! ## The loop -/

/-- What a call is made with: the bytes that are still to come are zero at `base`, there is room for one
more step behind the block, and `first` is in the block and in the range. -/
structure IsCall (step hi n base first : Nat) : Prop where
  dvd_base : 256 ^ n ∣ base
  room : base + 256 ^ n + step < overflow
  base_le : base ≤ first
  first_lt : first < base + 256 ^ n
  lt_hi : first < hi

/-- What the loop asks of the calls that it makes. -/
def Calls (step width hi n : Nat) (sub? : Nat → Nat → Watched Trie) (sub : Nat → Nat → Blocks Trie) :
    Prop :=
  ∀ (ℓ : Ledger) (P : Pool) (base first : Nat), IsCall step hi n base first →
    ℓ.Sound step width hi → ℓ.known.Holds step P →
      Mirrors (sub? base first) (sub base first) ℓ P.next fun _ ℓ' j => Carries step width hi n ℓ ℓ' j

/-- The byte of a member is told by division. -/
theorem sub_div_eq {size k : Nat} (hle : base + k * size ≤ first)
    (hlt : first < base + k * size + size) : (first - base) / size = k := by
  refine Nat.div_eq_of_lt_le (by omega) ?_
  rw [Nat.succ_mul]
  omega

theorem rounds?_of_le (sub? : Nat → Nat → Watched Trie) (h : limit ≤ first) (size fuel : Nat) :
    rounds? sub? step base size limit fuel first = return [] := by
  cases fuel with
  | zero => rw [rounds?, if_neg (Nat.not_lt.mpr h)]
  | succ fuel => rw [rounds?, if_neg (Nat.not_lt.mpr h)]

/-- A round is for one byte, and those that are jumped over have no members.  So bytes that are left are
enough for the rounds that are left; the induction is on them. -/
theorem mirrors_rounds {sub? : Nat → Nat → Watched Trie} {sub : Nat → Nat → Blocks Trie}
    (hstep : 0 < step) (hsub : Calls step width hi n sub? sub) (hdvd : 256 ^ (n + 1) ∣ base)
    (hroom : base + 256 ^ (n + 1) + step < overflow) (hlimit : limit = min (base + 256 ^ (n + 1)) hi)
    {bs : List UInt8} {k fuel : Nat} (hbs : bs.map UInt8.toNat = List.range' k bs.length)
    (hk : k + bs.length = 256) (hfuel : bs.length ≤ fuel) (hfirst : base + k * 256 ^ n ≤ first)
    (hℓ : ℓ.Sound step width hi) (hP : ℓ.known.Holds step P) :
    Mirrors (rounds? sub? step base (256 ^ n) limit fuel first)
      (subblocks sub step (256 ^ n) limit bs (base + k * 256 ^ n) first) ℓ P.next fun _ ℓ' j =>
        Carries step width hi n ℓ ℓ' j := by
  have hpow : 256 ^ (n + 1) = 256 * 256 ^ n := Nat.pow_succ'
  have hpos : 0 < 256 ^ n := Nat.pow_pos (by decide)
  induction bs generalizing k fuel first ℓ P with
  | nil =>
    have hk : k = 256 := hk
    have hle : limit ≤ first := by
      rw [hk] at hfirst
      omega
    rw [rounds?_of_le sub? hle, subblocks]
    exact mirrors_pure (Carries.refl hℓ hP n)
  | cons b bs ih =>
    rw [List.map_cons, List.length_cons, List.range'_succ] at hbs
    obtain ⟨hb, hbs⟩ := List.cons.inj hbs
    rw [List.length_cons] at hk hfuel
    have hk' : k + 1 + bs.length = 256 := by omega
    have hnext : base + k * 256 ^ n + 256 ^ n = base + (k + 1) * 256 ^ n := by
      rw [Nat.succ_mul, Nat.add_assoc]
    by_cases hlt : first < limit
    · by_cases hin : first < base + k * 256 ^ n + 256 ^ n
      · -- a round: the quotient is `k`, and no number goes over the end of the block by a whole step
        obtain ⟨fuel, rfl⟩ : ∃ f, fuel = f + 1 := Nat.exists_eq_add_one.mpr (by omega)
        have hend : (k + 1) * 256 ^ n ≤ 256 * 256 ^ n := Nat.mul_le_mul_right _ (by omega)
        have hbyte : UInt8.ofNat k = b := by rw [← hb, UInt8.ofNat_toNat]
        have hcall : IsCall step hi n (base + k * 256 ^ n) first := by
          refine ⟨Nat.dvd_add ?_ (Nat.dvd_mul_left _ _), by omega, hfirst, hin, by omega⟩
          exact (Nat.pow_dvd_pow 256 (Nat.le_succ n)).trans hdvd
        rw [rounds?, subblocks, if_pos hlt, if_pos ⟨hin, hlt⟩]
        refine .check (Checked.sub?_eq (by omega)) (.check (div?_eq hpos) ?_)
        rw [sub_div_eq hfirst hin]
        refine .check (mul?_eq (by omega)) (.check (add?_eq (by omega)) ?_)
        refine (hsub ℓ P _ first hcall hℓ hP).bind fun t ℓ' j hℓ' => ?_
        refine .check (byte?_eq (by omega)) (.check (add?_eq (by omega)) ?_)
        obtain ⟨Q, rfl, hQ⟩ := hℓ'.pool
        have hle := le_add_stepsTo hstep first (base + k * 256 ^ n + 256 ^ n)
        rw [hbyte]
        by_cases hmore : base + k * 256 ^ n + 256 ^ n < limit
        · have hjump := Nat.div_mul_le_self
            (base + k * 256 ^ n + 256 ^ n - first + step - 1) step
          rw [if_pos hmore]
          refine .check (Checked.sub?_eq (by omega)) (.check (ceilDiv?_eq hstep (by omega)) ?_)
          refine .check (mul?_eq (by omega)) (.check (add?_eq (by omega)) ?_)
          rw [hnext] at hle ⊢
          refine (ih hbs hk' (by omega) hle hℓ'.sound hQ).bind fun es ℓ'' k hℓ'' => ?_
          exact mirrors_pure (hℓ'.trans hℓ'')
        · rw [if_neg hmore, subblocks_of_le sub step _ (by omega), pure_bind, List.append_nil]
          exact mirrors_pure hℓ'
      · -- jumped over, which the rounds do not see
        rw [subblocks, if_neg (fun h => hin h.1), hnext]
        exact ih hbs hk' (by omega) (by omega) hℓ hP
    · rw [rounds?_of_le sub? (Nat.le_of_not_lt hlt), subblocks_of_le sub step _ (Nat.le_of_not_lt hlt)]
      exact mirrors_pure (Carries.refl hℓ hP n)

/-! ## Calls -/

/-- What the work of a call comes to, before the call is written down. -/
structure Worked (step width hi n base first : Nat) (ℓ : Ledger) (t : Trie) (ℓ' : Ledger) : Prop where
  sound : ℓ'.Sound step width hi
  above : ∀ m phase : Nat, n < m → ℓ'.known[(m, phase)]? = ℓ.known[(m, phase)]?
  leaf : n = 0 → t = Trie.leaf
  remembered : 0 < n → base + 256 ^ n ≤ hi → ℓ'.known[(n, first - base)]? = some t

/-- A call is sound if its work is: from the plain run it is known what it returns and remembers. -/
theorem mirrors_noted (hstep : 0 < step) (hn : n ≤ width) (hcall : IsCall step hi n base first)
    (hP : ℓ.known.Holds step P) {x : Watched Trie}
    (hx : Mirrors x (block step hi n base first) ℓ P.next fun t ℓ' _ =>
      Worked step width hi n base first ℓ t ℓ') :
    Mirrors (noted n base first x) (block step hi n base first) ℓ P.next fun t ℓ' j =>
      Carries step width hi n ℓ ℓ' j ∧ ⟨n, base, first, t, ℓ'.known⟩ ∈ ℓ'.calls := by
  have hplain := makes_block hstep n base first P ℓ.known hP hcall.base_le hcall.first_lt hcall.lt_hi
  refine Mirrors.noted ((hx.and_makes hplain).imp ?_)
  rintro t ℓ' j ⟨hworked, Q, hQ, hfilled⟩
  have hsound : Call.Sound step width hi ⟨n, base, first, t, ℓ'.known⟩ := {
    rest_le := hn
    dvd_base := hcall.dvd_base
    base_le := hcall.base_le
    first_lt := lt_min hcall.first_lt hcall.lt_hi
    node := numbers_of_members hfilled.mem hcall.dvd_base hcall.base_le hfilled.members
    known := fun m phase u hu => ⟨hworked.sound.isKey m phase u hu, hfilled.known.numbers hu⟩ }
  refine ⟨⟨?_, hworked.above, Q, hQ, hfilled.known⟩, List.mem_cons_self⟩
  exact hworked.sound.note hsound hworked.leaf hworked.remembered

/-- A block that is not found is made, and remembered if it is whole. -/
theorem mirrors_made {sub? : Nat → Nat → Watched Trie} {sub : Nat → Nat → Blocks Trie}
    (hstep : 0 < step) (hn : n + 1 ≤ width) (hsub : Calls step width hi n sub? sub)
    (hcall : IsCall step hi (n + 1) base first) (hℓ : ℓ.Sound step width hi)
    (hP : ℓ.known.Holds step P) (isWhole : Bool)
    (hwhole : base + 256 ^ (n + 1) ≤ hi → isWhole = true)
    (hnone : isWhole = true → ℓ.known[(n + 1, first - base)]? = none) :
    Mirrors
      (do
        let es ← rounds? sub? step base (256 ^ (n + 1) >>> 8) (min (base + 256 ^ (n + 1)) hi) 256 first
        let t ← run (Trie.make false es)
        if isWhole then modify fun ℓ => { ℓ with known := ℓ.known.insert (n + 1, first - base) t }
        return t)
      (do
        let es ← subblocks sub step (256 ^ n) (min (base + 256 ^ (n + 1)) hi) allBytes base first
        let t ← (Trie.make false es : Fresh Trie)
        if isWhole then modify fun known => known.insert (n + 1, first - base) t
        return t)
      ℓ P.next fun t ℓ' _ => Worked step width hi (n + 1) base first ℓ t ℓ' := by
  have hpart : 256 ^ (n + 1) >>> 8 = 256 ^ n := by
    rw [Nat.shiftRight_eq_div_pow, Nat.pow_succ, Nat.mul_div_cancel _ (by decide)]
  have hkey : IsKey width (n + 1) (first - base) :=
    ⟨Nat.succ_pos n, hn, Nat.sub_lt_left_of_lt_add hcall.base_le hcall.first_lt⟩
  have hzero : base + 0 * 256 ^ n ≤ first := by
    rw [Nat.zero_mul]
    exact hcall.base_le
  have hloop := mirrors_rounds hstep hsub hcall.dvd_base hcall.room rfl map_toNat_allBytes
    (by rw [Nat.zero_add, length_allBytes]) (Nat.le_of_eq length_allBytes) hzero hℓ hP
  rw [Nat.zero_mul, Nat.add_zero] at hloop
  rw [hpart]
  refine hloop.bind fun es ℓ' j hℓ' => .run_bind ?_
  generalize Trie.make false es j = made
  cases isWhole with
  | false =>
    refine mirrors_pure ⟨hℓ'.sound, fun m phase hm => hℓ'.above m phase (by omega), ?_, ?_⟩
    · exact fun h => absurd h (Nat.succ_ne_zero n)
    · exact fun _ h => Bool.noConfusion (hwhole h)
  | true =>
    have hnone' := (hℓ'.above (n + 1) (first - base) (Nat.lt_succ_self n)).trans (hnone rfl)
    refine ⟨made.1, { ℓ' with known := ℓ'.known.insert (n + 1, first - base) made.1 }, made.2,
      rfl, rfl, hℓ'.sound.insert hkey hnone' made.1, fun m phase hm => ?_, ?_, fun _ _ => ?_⟩
    · rw [← hℓ'.above m phase (by omega), Std.HashMap.getElem?_insert, if_neg ?_]
      rw [beq_iff_eq]
      intro heq
      cases heq
      exact absurd hm (Nat.lt_irrefl _)
    · exact fun h => absurd h (Nat.succ_ne_zero n)
    · exact Std.HashMap.getElem?_insert_self

/-- A whole block is found or remembered, one that is cut off by the end of the range is not. -/
theorem mirrors_block (hstep : 0 < step) (hn : n ≤ width) (hcall : IsCall step hi n base first)
    (hℓ : ℓ.Sound step width hi) (hP : ℓ.known.Holds step P) :
    Mirrors (block? step hi n base first) (block step hi n base first) ℓ P.next fun t ℓ' j =>
      Carries step width hi n ℓ ℓ' j ∧ ⟨n, base, first, t, ℓ'.known⟩ ∈ ℓ'.calls := by
  induction n generalizing base first ℓ P with
  | zero =>
    rw [block?]
    refine mirrors_noted hstep hn hcall hP ?_
    rw [block]
    exact mirrors_pure ⟨hℓ, fun _ _ _ => rfl, fun _ => rfl, fun h => absurd h (Nat.lt_irrefl 0)⟩
  | succ n ih =>
    have hsize : 256 * Nat.pow 256 n = 256 ^ (n + 1) := Nat.pow_succ'.symm
    have hroom := hcall.room
    have hcalls : Calls step width hi n (block? step hi n) (block step hi n) := by
      intro ℓ P base first hcall hℓ hP
      exact (ih (Nat.le_of_succ_le hn) hcall hℓ hP).imp fun _ _ _ h => h.1
    rw [block?]
    refine mirrors_noted hstep hn hcall hP ?_
    rw [block]
    refine .check (shiftLeft?_one (by omega)) (.check (add?_eq (by omega)) ?_)
    refine .check (Checked.sub?_eq hcall.base_le) (.get_bind ?_)
    dsimp only
    rw [hsize]
    have hmade := mirrors_made hstep hn hcalls hcall hℓ hP
    cases hwhole : decide (base + 256 ^ (n + 1) ≤ hi) with
    | false => exact hmade false (fun h => absurd h (of_decide_eq_false hwhole)) Bool.noConfusion
    | true =>
      cases hknown : ℓ.known[(n + 1, first - base)]? with
      | none => exact hmade true (fun _ => rfl) fun _ => hknown
      | some t =>
        refine mirrors_pure ⟨hℓ, fun _ _ _ => rfl, fun h => absurd h (Nat.succ_ne_zero n), ?_⟩
        exact fun _ _ => hknown

/-! ## A range -/

/-- What was written down for a range: the call for all of it and those that it made.  All are sound, and
whole blocks of one size with one phase are one node. -/
structure Ledger.Accounts (step width lo hi : Nat) (t : Trie) (ℓ : Ledger) : Prop where
  root : ⟨width, 0, lo, t, ℓ.known⟩ ∈ ℓ.calls
  calls : ∀ c ∈ ℓ.calls, c.Sound step width hi
  shared : ∀ c ∈ ℓ.calls, ∀ d ∈ ℓ.calls, c.rest = d.rest → c.phase = d.phase →
    c.IsWhole hi → d.IsWhole hi → c.node = d.node

theorem Ledger.Sound.shared (h : ℓ.Sound step width hi) {c d : Call} (hc : c ∈ ℓ.calls)
    (hd : d ∈ ℓ.calls) (hrest : c.rest = d.rest) (hphase : c.phase = d.phase)
    (hcwhole : c.IsWhole hi) (hdwhole : d.IsWhole hi) : c.node = d.node := by
  by_cases hzero : c.rest = 0
  · rw [h.leaf c hc hzero, h.leaf d hd (hrest ▸ hzero)]
  · have hcnode := h.remembered c hc (Nat.pos_of_ne_zero hzero) hcwhole
    have hdnode := h.remembered d hd (Nat.pos_of_ne_zero (hrest ▸ hzero)) hdwhole
    rw [hrest, hphase, hdnode] at hcnode
    exact (Option.some.inj hcnode).symm

end Range

end ByteTrie
