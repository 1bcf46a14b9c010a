import Mathlib.Algebra.BigOperators.Group.Finset.Basic
import Mathlib.Algebra.BigOperators.Fin
import Mathlib.Data.Nat.Bitwise
import Mathlib.Data.ZMod.Basic
import GrinPlusPlus.Lib.Lasso

/-!
# Following a cycle

A graph of `N` edges is given by the `2 * N` ends of its edges: the ends of edge `e` are `2 * e`
and `2 * e + 1`, and a *key* says at which node an end lies. To follow a cycle from an end, one
looks for the other end at the same node – there has to be exactly one, its *mate* – crosses the
edge of the mate, and goes on, until one is back.

* `Cycle.Steps` – a walk of this kind; it never comes to an end for a second time
  (`Cycle.Steps.injOn`), and **never crosses an edge for a second time**
  (`Cycle.Steps.ne_other`): to run into an edge from its other side would mean to walk back from
  there on all the way one came, and to turn around in the middle of an edge or at a node.
* `Cycle.IsSimple` – the edges form one simple cycle: they can be put on a circle such that
  neighbours meet, and meet nowhere else.
* `Cycle.isSimple_iff` – **this is what a walk finds that is back after `N` edges**; it is back
  after at most `N` edges anyway (`Cycle.Steps.le`).

The second half does the same for directed edges (`Cycle.IsDirected`), where the walk takes the
first edge that goes on and keeps a list of those it has used.

The circle is `ZMod N`, so that going round it is addition.
-/

namespace Cycle

/-! ### The circle -/

section Circle

variable {N : ℕ} [NeZero N] {x : ZMod N → ℕ}

/-- What is back after `N` steps goes round. -/
theorem val_succ {α : Type*} {p : ℕ → α} (hback : p N = p 0) (k : ZMod N) :
    p (k + 1).val = p (k.val + 1) := by
  have hlt := ZMod.val_lt k
  rw [ZMod.val_add, ZMod.val_one_eq_one_mod, Nat.add_mod_mod]
  rcases Nat.lt_or_ge (k.val + 1) N with hk | hk
  · rw [Nat.mod_eq_of_lt hk]
  · rw [show k.val + 1 = N by omega, Nat.mod_self, hback]

/-- There is place for `N` numbers on the circle, and no more than that. -/
theorem exists_eq (hlt : ∀ k, x k < N) (hinj : ∀ a b, x a = x b → a = b) {e : ℕ} (he : e < N) :
    ∃ k, x k = e := by
  have hinj' : Function.Injective fun k : ZMod N => (⟨x k, hlt k⟩ : Fin N) :=
    fun a b hab => hinj a b (Fin.mk.inj hab)
  have hsurj := (Fintype.bijective_iff_injective_and_card _).2 ⟨hinj', by
    rw [ZMod.card, Fintype.card_fin]⟩
  obtain ⟨k, hk⟩ := hsurj.2 ⟨e, he⟩
  exact ⟨k, congrArg Fin.val hk⟩

/-- So one can add up around the circle. -/
theorem sum_range_eq {A : Type*} [AddCommMonoid A] (hlt : ∀ k, x k < N)
    (hinj : ∀ a b, x a = x b → a = b) (f : ℕ → A) :
    ∑ e ∈ Finset.range N, f e = ∑ k : ZMod N, f (x k) := by
  symm
  refine Finset.sum_bij (fun k _ => x k) (fun k _ => Finset.mem_range.2 (hlt k))
    (fun a _ b _ hab => hinj a b hab) ?_ fun _ _ => rfl
  intro e he
  obtain ⟨k, hk⟩ := exists_eq hlt hinj (Finset.mem_range.1 he)
  exact ⟨k, Finset.mem_univ k, hk⟩

/-- It does not matter where one begins. -/
theorem sum_succ {A : Type*} [AddCommMonoid A] (f : ZMod N → A) :
    ∑ k : ZMod N, f (k + 1) = ∑ k : ZMod N, f k :=
  Equiv.sum_comp (Equiv.addRight (1 : ZMod N)) f

end Circle

/-! ### The two ends of an edge -/

/-- The other end of the edge of an end. -/
def other (x : ℕ) : ℕ := x ^^^ 1

theorem other_div_two (x : ℕ) : other x / 2 = x / 2 := by
  rw [other, Nat.xor_div_two]
  simp

theorem other_mod_two (x : ℕ) : other x % 2 = (x + 1) % 2 := by
  rw [other, Nat.xor_mod_two_eq]

@[simp] theorem other_other (x : ℕ) : other (other x) = x := by
  rw [other, other, Nat.xor_assoc, Nat.xor_self, Nat.xor_zero]

theorem other_ne (x : ℕ) : other x ≠ x := by
  intro h
  have hmod := other_mod_two x
  rw [h] at hmod
  omega

theorem eq_other_comm {x y : ℕ} : x = other y ↔ y = other x := by
  constructor
  · rintro rfl
    rw [other_other]
  · rintro rfl
    rw [other_other]

/-- Two ends of one edge are the same or other to each other. -/
theorem eq_or_eq_other {x y : ℕ} (h : x / 2 = y / 2) : x = y ∨ x = other y := by
  have hdiv := other_div_two y
  have hmod := other_mod_two y
  omega

theorem other_lt {N x : ℕ} (h : x < 2 * N) : other x < 2 * N := by
  have hdiv := other_div_two x
  omega

/-! ### Walks -/

section Walks

variable {κ : Type*} (N : ℕ) (key : ℕ → κ) (fits : ℕ → ℕ → Prop)

/-- The mate of an end: the only other end at the same node. -/
structure Mate (x y : ℕ) : Prop where
  /-- It is an end. -/
  lt : y < 2 * N
  /-- It is another one. -/
  ne : y ≠ x
  /-- It lies at the same node. -/
  key_eq : key y = key x
  /-- There is no third one. -/
  unique : ∀ z < 2 * N, z ≠ x → key z = key x → z = y

/-- A walk goes to the mate, if the two fit together, and over the edge of the mate. -/
def Step (x x' : ℕ) : Prop :=
  ∃ y, Mate N key x y ∧ fits x y ∧ x' = other y

/-- A walk of `n` edges from the end `0`, which has not come back in between. -/
structure Steps (n : ℕ) (p : ℕ → ℕ) : Prop where
  /-- It starts at the end `0`. -/
  start : p 0 = 0
  /-- It takes steps. -/
  step : ∀ k < n, Step N key fits (p k) (p (k + 1))
  /-- It has not come back. -/
  away : ∀ k, 0 < k → k < n → p k ≠ 0

variable {N key fits}

theorem Mate.symm {x y : ℕ} (h : Mate N key x y) (hx : x < 2 * N) : Mate N key y x where
  lt := hx
  ne := h.ne.symm
  key_eq := h.key_eq.symm
  unique z hz hne hkey := by
    by_contra hzx
    exact hne (h.unique z hz hzx (hkey.trans h.key_eq))

theorem Mate.eq {x y z : ℕ} (h : Mate N key x y) (h' : Mate N key x z) : y = z :=
  h'.unique y h.lt h.ne h.key_eq

theorem Step.lt {x x' : ℕ} (h : Step N key fits x x') : x' < 2 * N := by
  obtain ⟨y, hy, -, rfl⟩ := h
  exact other_lt hy.lt

/-- What a step goes to is mated with what it comes from. -/
theorem Step.mate {x x' : ℕ} (h : Step N key fits x x') : Mate N key x (other x') := by
  obtain ⟨y, hy, -, rfl⟩ := h
  rwa [other_other]

/-- From every end there is at most one step. -/
theorem Step.rightUnique : Relator.RightUnique (Step N key fits) := by
  intro x y z hy hz
  rw [← other_other y, hy.mate.eq hz.mate, other_other]

/-- A step can be taken back in one way only. -/
theorem Step.inj {a b c : ℕ} (ha : a < 2 * N) (hb : b < 2 * N) (h : Step N key fits a c)
    (h' : Step N key fits b c) : a = b :=
  (h.mate.symm ha).eq (h'.mate.symm hb)

namespace Steps

variable {n : ℕ} {p : ℕ → ℕ}

theorem lt (h : Steps N key fits n p) (hN : 0 < N) {k : ℕ} (hk : k ≤ n) : p k < 2 * N := by
  cases k with
  | zero =>
    rw [h.start]
    omega
  | succ k => exact (h.step k hk).lt

/-- **No end is come to a second time**: the first one would have to be the `0`. -/
theorem injOn (h : Steps N key fits n p) (hN : 0 < N) {a b : ℕ} (ha : a < n) (hb : b < n)
    (heq : p a = p b) : a = b := by
  induction a generalizing b with
  | zero =>
    by_contra hne
    exact h.away b (by omega) hb (heq.symm.trans h.start)
  | succ a ih =>
    cases b with
    | zero => exact absurd (heq.trans h.start) (h.away (a + 1) (by omega) ha)
    | succ b =>
      have hstep := h.step b (by omega)
      rw [← heq] at hstep
      rw [ih (by omega) (by omega) (Step.inj (h.lt hN (by omega)) (h.lt hN (by omega))
        (h.step a (by omega)) hstep)]

/-- To come to an end from the other side means to walk back: the two ends move towards each
other, and would have to meet. -/
theorem ne_other_of_le (h : Steps N key fits n p) (hN : 0 < N) :
    ∀ (d a : ℕ), a + d ≤ n → p a ≠ other (p (a + d)) := by
  intro d
  induction d using Nat.strong_induction_on with
  | _ d ih =>
    intro a had heq
    cases d with
    | zero => exact other_ne _ heq.symm
    | succ d =>
      -- the end before the later one is the mate of the earlier one
      have hmate := (h.step (a + d) (by omega)).mate
      rw [Nat.add_assoc, ← heq] at hmate
      have hback := hmate.symm (h.lt hN (by omega))
      cases d with
      | zero => exact hback.ne rfl
      | succ d =>
        have hnext := (h.step a (by omega)).mate.eq hback
        refine ih d (by omega) (a + 1) (by omega) ?_
        rw [eq_other_comm.1 hnext.symm]
        congr 2
        omega

/-- **No edge is crossed a second time.** -/
theorem ne_other (h : Steps N key fits n p) (hN : 0 < N) {a b : ℕ} (ha : a ≤ n) (hb : b ≤ n) :
    p a ≠ other (p b) := by
  rcases Nat.le_total a b with hab | hba
  · obtain ⟨d, rfl⟩ := Nat.exists_eq_add_of_le hab
    exact h.ne_other_of_le hN d a hb
  · obtain ⟨d, rfl⟩ := Nat.exists_eq_add_of_le hba
    intro heq
    exact h.ne_other_of_le hN d b ha (eq_other_comm.1 heq)

/-- The edges of a walk are distinct. -/
theorem edge_inj (h : Steps N key fits n p) (hN : 0 < N) {a b : ℕ} (ha : a < n) (hb : b < n)
    (heq : p a / 2 = p b / 2) : a = b :=
  h.injOn hN ha hb ((eq_or_eq_other heq).resolve_right (h.ne_other hN ha.le hb.le))

/-- **A walk is back after as many edges as there are**, at the latest. -/
theorem le (h : Steps N key fits n p) (hN : 0 < N) : n ≤ N := by
  have hcard := Finset.card_le_card_of_injOn (s := Finset.range n) (t := Finset.range N)
    (fun k => p k / 2) (fun k hk => by
      have hlt := h.lt hN (Finset.mem_range.1 hk).le
      exact Finset.mem_range.2 (by dsimp only; omega))
    (fun a ha b hb heq => h.edge_inj hN (Finset.mem_range.1 ha) (Finset.mem_range.1 hb) heq)
  rwa [Finset.card_range, Finset.card_range] at hcard

/-- A walk that is not back can go on. -/
theorem snoc (h : Steps N key fits n p) (haway : 0 < n → p n ≠ 0) {x : ℕ}
    (hx : Step N key fits (p n) x) : Steps N key fits (n + 1) (Function.update p (n + 1) x) where
  start := (Lasso.update_of_le x (Nat.zero_le n)).trans h.start
  step := Lasso.step_update h.step hx
  away k hpos hk := by
    rw [Lasso.update_of_le x (Nat.lt_succ_iff.1 hk)]
    rcases Nat.lt_or_ge k n with hlt | hge
    · exact h.away k hpos hlt
    · rw [show k = n by omega] at hpos ⊢
      exact haway hpos

/-- A walk is determined by where it starts. -/
theorem unique {m : ℕ} {q : ℕ → ℕ} (h : Steps N key fits n p) (h' : Steps N key fits m q) :
    ∀ k, k ≤ n → k ≤ m → p k = q k :=
  Lasso.eq_of_steps Step.rightUnique (h.start.trans h'.start.symm) h.step h'.step

end Steps

end Walks

/-! ### Cycles -/

section Cycles

variable {κ : Type*} (N : ℕ) (key : ℕ → κ) (fits : ℕ → ℕ → Prop)

/-- The edges form one simple cycle: going round the circle, `x k` is the end through which edge
number `k` is left. -/
structure IsSimple (x : ZMod N → ℕ) : Prop where
  /-- These are ends. -/
  lt : ∀ k, x k < 2 * N
  /-- Every edge is there once. -/
  edge_inj : ∀ a b, x a / 2 = x b / 2 → a = b
  /-- An edge is entered where the one before is left, … -/
  meets : ∀ k, key (other (x (k + 1))) = key (x k)
  /-- … the two ends fit together, … -/
  fits : ∀ k, fits (x k) (other (x (k + 1)))
  /-- … and there is no other edge at this node. -/
  key_inj : ∀ a b, key (x a) = key (x b) → a = b

variable {N key fits}

namespace IsSimple

variable [NeZero N] {x : ZMod N → ℕ}

omit [NeZero N] in
/-- Going round the other way. -/
theorem reverse (h : IsSimple N key fits x) (hsymm : ∀ a b, fits a b → fits b a) :
    IsSimple N key fits fun k => other (x (-k)) where
  lt k := other_lt (h.lt _)
  edge_inj a b hab := by
    rw [other_div_two, other_div_two] at hab
    exact neg_injective (h.edge_inj _ _ hab)
  meets k := by
    rw [other_other, neg_add, ← h.meets, neg_add_cancel_right]
  fits k := by
    rw [other_other]
    have hfits := hsymm _ _ (h.fits (-(k + 1)))
    rwa [neg_add, neg_add_cancel_right, ← neg_add] at hfits
  key_inj a b hab := by
    have hpred : ∀ k : ZMod N, key (other (x (-k))) = key (x (-k - 1)) := fun k => by
      rw [← h.meets, sub_add_cancel]
    rw [hpred, hpred] at hab
    exact neg_injective (sub_left_injective (h.key_inj _ _ hab))

/-- All edges are on the circle. -/
theorem exists_edge (h : IsSimple N key fits x) {e : ℕ} (he : e < N) : ∃ k, x k / 2 = e :=
  exists_eq (x := fun k => x k / 2) (fun k => by have := h.lt k; omega) h.edge_inj he

/-- So all ends are on it, on the near or on the far side of their edge. -/
theorem exists_end (h : IsSimple N key fits x) {y : ℕ} (hy : y < 2 * N) :
    ∃ k, y = x k ∨ y = other (x k) := by
  obtain ⟨k, hk⟩ := h.exists_edge (show y / 2 < N by omega)
  exact ⟨k, eq_or_eq_other hk.symm⟩

/-- **On a simple cycle, the mate of an end is where the next edge begins.** -/
theorem mate (h : IsSimple N key fits x) (k : ZMod N) : Mate N key (x k) (other (x (k + 1))) where
  lt := other_lt (h.lt _)
  ne := by
    intro heq
    have hedge : x (k + 1) / 2 = x k / 2 := by
      rw [← heq, other_div_two]
    rw [h.edge_inj _ _ hedge] at heq
    exact other_ne _ heq
  key_eq := h.meets k
  unique z hz hne hkey := by
    obtain ⟨m, rfl | rfl⟩ := h.exists_end hz
    · rw [h.key_inj _ _ hkey] at hne
      exact absurd rfl hne
    · rw [show m = m - 1 + 1 from (sub_add_cancel m 1).symm, h.meets] at hkey
      rw [← h.key_inj _ _ hkey, sub_add_cancel]

theorem step (h : IsSimple N key fits x) (k : ZMod N) : Step N key fits (x k) (x (k + 1)) :=
  ⟨_, h.mate k, h.fits k, (other_other _).symm⟩

/-- A cycle through the end `0` is a walk. -/
theorem steps (h : IsSimple N key fits x) {k₀ : ZMod N} (hk₀ : x k₀ = 0) :
    Steps N key fits N fun k => x (k₀ + k) where
  start := by rwa [Nat.cast_zero, add_zero]
  step k _ := by
    have hstep := h.step (k₀ + k)
    rwa [add_assoc, ← Nat.cast_succ] at hstep
  away k hpos hlt hzero := by
    have hk := h.edge_inj (k₀ + k) k₀ (by rw [hzero, hk₀])
    rw [add_eq_left, ZMod.natCast_eq_zero_iff] at hk
    exact absurd (Nat.le_of_dvd hpos hk) (by omega)

end IsSimple

theorem Steps.isSimple [NeZero N] {p : ℕ → ℕ} (h : Steps N key fits N p) (hback : p N = 0) :
    IsSimple N key fits fun k => p k.val where
  lt k := h.lt (NeZero.pos N) (ZMod.val_lt k).le
  edge_inj a b hab :=
    ZMod.val_injective N (h.edge_inj (NeZero.pos N) (ZMod.val_lt a) (ZMod.val_lt b) hab)
  meets k := by
    rw [val_succ (hback.trans h.start.symm)]
    exact (h.step k.val (ZMod.val_lt k)).mate.key_eq
  fits k := by
    rw [val_succ (hback.trans h.start.symm)]
    obtain ⟨y, -, hfits, hy⟩ := h.step k.val (ZMod.val_lt k)
    rwa [hy, other_other]
  key_inj a b hab := by
    by_contra hne
    -- the two ends are then mates, and the walk crosses an edge twice
    have hends : p b.val ≠ p a.val := fun heq => hne
      (ZMod.val_injective N (h.injOn (NeZero.pos N) (ZMod.val_lt a) (ZMod.val_lt b) heq.symm))
    have hmate := (h.step a.val (ZMod.val_lt a)).mate
    have hother := hmate.unique (p b.val) (h.lt (NeZero.pos N) (ZMod.val_lt b).le) hends hab.symm
    exact h.ne_other (NeZero.pos N) (ZMod.val_lt b).le (ZMod.val_lt a) hother

/-- **The edges form a simple cycle if and only if the walk from the end `0` is back after all of
them.** -/
theorem isSimple_iff [NeZero N] (hsymm : ∀ a b, fits a b → fits b a) :
    (∃ x, IsSimple N key fits x) ↔ ∃ p, Steps N key fits N p ∧ p N = 0 := by
  constructor
  · rintro ⟨x, hx⟩
    have hzero : ∃ x', IsSimple N key fits x' ∧ ∃ k₀, x' k₀ = 0 := by
      obtain ⟨k, hk | hk⟩ := hx.exists_end (show 0 < 2 * N by have := NeZero.pos N; omega)
      · exact ⟨x, hx, k, hk.symm⟩
      · exact ⟨_, hx.reverse hsymm, -k, by rw [neg_neg, ← hk]⟩
    obtain ⟨x', hx', k₀, hk₀⟩ := hzero
    exact ⟨_, hx'.steps hk₀, by rwa [ZMod.natCast_self, add_zero]⟩
  · rintro ⟨p, hp, hback⟩
    exact ⟨_, hp.isSimple hback⟩

/-- **What the ends add up to**, they do in pairs of neighbours. -/
theorem IsSimple.sum_ends [NeZero N] {x : ZMod N → ℕ} (h : IsSimple N key fits x)
    {A : Type*} [AddCommMonoid A] (g : ℕ → A) :
    ∑ e ∈ Finset.range N, (g (2 * e) + g (2 * e + 1)) =
      ∑ k : ZMod N, (g (x k) + g (other (x (k + 1)))) := by
  have hpair : ∀ y, g (2 * (y / 2)) + g (2 * (y / 2) + 1) = g y + g (other y) := by
    intro y
    have hdiv := other_div_two y
    have hmod := other_mod_two y
    rcases Nat.mod_two_eq_zero_or_one y with hy | hy
    · rw [show 2 * (y / 2) = y by omega, show y + 1 = other y by omega]
    · rw [show 2 * (y / 2) + 1 = y by omega, show 2 * (y / 2) = other y by omega, add_comm]
  calc ∑ e ∈ Finset.range N, (g (2 * e) + g (2 * e + 1))
      = ∑ k : ZMod N, (g (x k) + g (other (x k))) := by
        rw [sum_range_eq (x := fun k => x k / 2) (fun k => by have := h.lt k; omega) h.edge_inj]
        exact Finset.sum_congr rfl fun k _ => hpair (x k)
    _ = ∑ k : ZMod N, (g (x k) + g (other (x (k + 1)))) := by
        rw [Finset.sum_add_distrib, Finset.sum_add_distrib, ← sum_succ fun k => g (other (x k))]

/-! Where the ends that meet lie on the same side of their edges, every second edge is crossed
from one side to the other, and the rest of them the other way round. -/

section Sides

variable [NeZero N] {x : ZMod N → ℕ}

omit [NeZero N] in
theorem IsSimple.mod_two_succ (h : IsSimple N key fits x)
    (hkey : ∀ y z, key y = key z → y % 2 = z % 2) (k : ZMod N) :
    x (k + 1) % 2 = (x k + 1) % 2 := by
  have hmod := hkey _ _ (h.meets k)
  rw [other_mod_two] at hmod
  omega

/-- What the ends of one side add up to. -/
theorem IsSimple.sum_side (h : IsSimple N key fits x)
    (hkey : ∀ y z, key y = key z → y % 2 = z % 2) {A : Type*} [AddCommMonoid A] (g : ℕ → A)
    {side : ℕ} (hside : side < 2) :
    ∑ e ∈ Finset.range N, g (2 * e + side) =
      ∑ k : ZMod N with x k % 2 = side, (g (x k) + g (other (x (k + 1)))) := by
  have hsum := h.sum_ends fun y => if y % 2 = side then g y else 0
  rw [Finset.sum_filter]
  refine Eq.trans (Finset.sum_congr rfl fun e _ => ?_)
    (hsum.trans (Finset.sum_congr rfl fun k _ => ?_))
  · obtain rfl | rfl : side = 0 ∨ side = 1 := by omega
    · rw [if_pos (by omega), if_neg (by omega), add_zero, add_zero]
    · rw [if_neg (by omega), if_pos (by omega), zero_add]
  · rw [hkey _ _ (h.meets k)]
    by_cases hk : x k % 2 = side
    · rw [if_pos hk, if_pos hk, if_pos hk]
    · rw [if_neg hk, if_neg hk, if_neg hk, add_zero]

/-- **Half of the edges are crossed from the one side, and half from the other.** -/
theorem IsSimple.card_side (h : IsSimple N key fits x)
    (hkey : ∀ y z, key y = key z → y % 2 = z % 2) {side : ℕ} (hside : side < 2) :
    2 * (Finset.univ.filter fun k : ZMod N => x k % 2 = side).card = N := by
  have hshift : (Finset.univ.filter fun k : ZMod N => x k % 2 = side).card =
      (Finset.univ.filter fun k : ZMod N => ¬ x k % 2 = side).card := by
    refine Finset.card_equiv (Equiv.addRight (1 : ZMod N)) fun k => ?_
    have hmod := h.mod_two_succ hkey k
    simp only [Finset.mem_filter, Finset.mem_univ, true_and, Equiv.coe_addRight]
    omega
  have hall := Finset.card_filter_add_card_filter_not (s := (Finset.univ : Finset (ZMod N)))
    fun k => x k % 2 = side
  rw [← hshift, Finset.card_univ, ZMod.card] at hall
  omega

end Sides

end Cycles

/-! ### Directed edges -/

section Directed

variable {κ : Type*} (N : ℕ) (source target : ℕ → κ) (next : ℕ → Option ℕ)

/-- The directed edges form one simple cycle: going round the circle, `x k` is edge number `k`. -/
structure IsDirected (x : ZMod N → ℕ) : Prop where
  /-- These are edges. -/
  lt : ∀ k, x k < N
  /-- Every edge is there once. -/
  inj : ∀ a b, x a = x b → a = b
  /-- An edge begins where the one before ends, … -/
  meets : ∀ k, source (x (k + 1)) = target (x k)
  /-- … and no other one does. -/
  source_inj : ∀ a b, source (x a) = source (x b) → a = b

/-- A walk of `n` edges from the edge `0`, which has used none twice. -/
structure Trail (n : ℕ) (p : ℕ → ℕ) : Prop where
  /-- It starts at the edge `0`. -/
  start : p 0 = 0
  /-- It takes the first edge that goes on. -/
  step : ∀ k < n, next (p k) = some (p (k + 1))
  /-- It uses no edge twice. -/
  injOn : ∀ a < n, ∀ b < n, p a = p b → a = b

/-- `next` finds an edge that begins where the given one ends, and always the same. -/
structure Finds : Prop where
  /-- It finds edges. -/
  lt : ∀ e e', next e = some e' → e' < N
  /-- They go on where the given one ends. -/
  meets : ∀ e e', next e = some e' → source e' = target e
  /-- It finds one if there is one. -/
  some : ∀ e, ∀ e' < N, source e' = target e → (next e).isSome
  /-- What it finds depends on the node only. -/
  congr : ∀ e e', target e = target e' → next e = next e'

variable {N source target next}

/-- A trail that comes to an edge it has not used can go on. -/
theorem Trail.snoc {n : ℕ} {p : ℕ → ℕ} (h : Trail next n p) (hnew : ∀ k < n, p k ≠ p n) {e : ℕ}
    (he : next (p n) = some e) : Trail next (n + 1) (Function.update p (n + 1) e) where
  start := (Lasso.update_of_le e (Nat.zero_le n)).trans h.start
  step := Lasso.step_update (R := fun e e' => next e = some e') h.step he
  injOn a ha b hb hab := by
    rw [Lasso.update_of_le e (Nat.lt_succ_iff.1 ha),
      Lasso.update_of_le e (Nat.lt_succ_iff.1 hb)] at hab
    rcases Nat.lt_or_ge a n with ha' | ha'
    · rcases Nat.lt_or_ge b n with hb' | hb'
      · exact h.injOn a ha' b hb' hab
      · exact absurd (by rwa [show b = n by omega] at hab) (hnew a ha')
    · rcases Nat.lt_or_ge b n with hb' | hb'
      · exact absurd (by rwa [show a = n by omega, eq_comm] at hab) (hnew b hb')
      · omega

/-- A trail is determined by where it starts. -/
theorem Trail.unique {n m : ℕ} {p q : ℕ → ℕ} (h : Trail next n p) (h' : Trail next m q) :
    ∀ k, k ≤ n → k ≤ m → p k = q k :=
  Lasso.eq_of_steps (R := fun e e' => next e = some e')
    (fun _ _ _ hy hz => Option.some.inj (hy.symm.trans hz))
    (h.start.trans h'.start.symm) h.step h'.step

theorem Trail.lt [NeZero N] {n : ℕ} {p : ℕ → ℕ} (h : Trail next n p)
    (hnext : Finds N source target next) {k : ℕ} (hk : k ≤ n) : p k < N := by
  cases k with
  | zero =>
    rw [h.start]
    exact NeZero.pos N
  | succ k => exact hnext.lt _ _ (h.step k hk)

/-- **A trail is back after as many edges as there are**, at the latest. -/
theorem Trail.le [NeZero N] {n : ℕ} {p : ℕ → ℕ} (h : Trail next n p)
    (hnext : Finds N source target next) : n ≤ N := by
  have hcard := Finset.card_le_card_of_injOn (s := Finset.range n) (t := Finset.range N) p
    (fun k hk => Finset.mem_range.2 (h.lt hnext (Finset.mem_range.1 hk).le))
    (fun a ha b hb heq => h.injOn a (Finset.mem_range.1 ha) b (Finset.mem_range.1 hb) heq)
  rwa [Finset.card_range, Finset.card_range] at hcard

theorem Trail.isDirected [NeZero N] {p : ℕ → ℕ} (h : Trail next N p)
    (hnext : Finds N source target next) (hback : p N = 0) :
    IsDirected N source target fun k => p k.val where
  lt k := h.lt hnext (ZMod.val_lt k).le
  inj a b hab := ZMod.val_injective N (h.injOn _ (ZMod.val_lt a) _ (ZMod.val_lt b) hab)
  meets k := by
    rw [val_succ (hback.trans h.start.symm)]
    exact hnext.meets _ _ (h.step k.val (ZMod.val_lt k))
  source_inj a b hab := by
    -- both edges are what is found behind the same node
    have hpred : ∀ k : ZMod N, next (p (k - 1).val) = some (p k.val) := fun k => by
      have hsucc := val_succ (hback.trans h.start.symm) (k - 1)
      rw [sub_add_cancel] at hsucc
      rw [hsucc]
      exact h.step _ (ZMod.val_lt _)
    have ha := hnext.meets _ _ (hpred a)
    have hb := hnext.meets _ _ (hpred b)
    have heq := hnext.congr _ _ (ha.symm.trans (hab.trans hb))
    rw [hpred, hpred] at heq
    exact ZMod.val_injective N
      (h.injOn _ (ZMod.val_lt a) _ (ZMod.val_lt b) (Option.some.inj heq))

namespace IsDirected

variable [NeZero N] {x : ZMod N → ℕ}

/-- On a simple cycle there is one edge to be found. -/
theorem next_eq (h : IsDirected N source target x) (hnext : Finds N source target next)
    (k : ZMod N) : next (x k) = some (x (k + 1)) := by
  obtain ⟨e, he⟩ := Option.isSome_iff_exists.1 (hnext.some (x k) _ (h.lt (k + 1)) (h.meets k))
  obtain ⟨m, rfl⟩ := exists_eq h.lt h.inj (hnext.lt _ _ he)
  rw [he, h.source_inj m (k + 1) ((hnext.meets _ _ he).trans (h.meets k).symm)]

theorem trail (h : IsDirected N source target x) (hnext : Finds N source target next)
    {k₀ : ZMod N} (hk₀ : x k₀ = 0) : Trail next N fun k => x (k₀ + k) where
  start := by rwa [Nat.cast_zero, add_zero]
  step k _ := by
    rw [h.next_eq hnext, add_assoc, ← Nat.cast_succ]
  injOn a ha b hb hab := by
    have hcast := add_left_cancel (h.inj _ _ hab)
    have hval := congrArg ZMod.val hcast
    rwa [ZMod.val_natCast_of_lt ha, ZMod.val_natCast_of_lt hb] at hval

end IsDirected

/-- **The directed edges form a simple cycle if and only if the trail from the edge `0` is back
after all of them.** -/
theorem isDirected_iff [NeZero N] (hnext : Finds N source target next) :
    (∃ x, IsDirected N source target x) ↔ ∃ p, Trail next N p ∧ p N = 0 := by
  constructor
  · rintro ⟨x, hx⟩
    obtain ⟨k₀, hk₀⟩ := exists_eq hx.lt hx.inj (NeZero.pos N)
    exact ⟨_, hx.trail hnext hk₀, by rwa [ZMod.natCast_self, add_zero]⟩
  · rintro ⟨p, hp, hback⟩
    exact ⟨_, hp.isDirected hnext hback⟩

/-- On a cycle, the sources add up to what the targets add up to. -/
theorem IsDirected.sum_eq [NeZero N] {x : ZMod N → ℕ} (h : IsDirected N source target x)
    {A : Type*} [AddCommMonoid A] (g : κ → A) :
    ∑ e ∈ Finset.range N, g (source e) = ∑ e ∈ Finset.range N, g (target e) := by
  calc ∑ e ∈ Finset.range N, g (source e)
      = ∑ k : ZMod N, g (source (x k)) :=
        sum_range_eq h.lt h.inj fun e => g (source e)
    _ = ∑ k : ZMod N, g (source (x (k + 1))) :=
        (sum_succ fun k => g (source (x k))).symm
    _ = ∑ k : ZMod N, g (target (x k)) := by simp only [h.meets]
    _ = ∑ e ∈ Finset.range N, g (target e) :=
        (sum_range_eq h.lt h.inj fun e => g (target e)).symm

end Directed

end Cycle
