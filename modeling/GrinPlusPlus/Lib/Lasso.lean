import Mathlib.Combinatorics.Pigeonhole
import Mathlib.Logic.Relator

/-!
# Walks that get caught

From every place at most one step leads on, but two of them may lead to the same place. So a walk
that only ever looks for the place `a` it started from need not come back there: it may run into a
ring on which `a` does not lie – it has then drawn a *lasso* – and goes round for ever.

* `Lasso.Walk` – a walk of `n` steps that has not come back in between.
* `Lasso.Caught` – a walk that comes to a place it has been to, other than the start.
* `Lasso.Walk.injOn_of_back` – a walk that does come back has been to no place twice, and so is
  not caught (`Lasso.Walk.not_caught`).
* `Lasso.Walk.lt_card` – **if no walk is caught, there are fewer steps than places.**

What is said of steps alone comes first; it is of use wherever one follows something.
-/

namespace Lasso

/-! ### Taking steps -/

section Steps

variable {α : Type*} {R : α → α → Prop} {n m : ℕ} {p q : ℕ → α}

/-- Going on does not change where one has been. -/
theorem update_of_le (x : α) {k : ℕ} (hk : k ≤ n) : Function.update p (n + 1) x k = p k :=
  Function.update_of_ne (by omega) _ _

/-- One more step. -/
theorem step_update (hp : ∀ k < n, R (p k) (p (k + 1))) {x : α} (hx : R (p n) x) :
    ∀ k < n + 1, R (Function.update p (n + 1) x k) (Function.update p (n + 1) x (k + 1)) := by
  intro k hk
  rw [update_of_le x (Nat.lt_succ_iff.1 hk)]
  rcases Nat.lt_or_ge k n with hlt | hge
  · rw [update_of_le x hlt]
    exact hp k hlt
  · rw [show k = n by omega, Function.update_self]
    exact hx

/-- Where one is depends on where one started, if at most one step leads on from every place. -/
theorem eq_of_steps (hR : Relator.RightUnique R) (hstart : p 0 = q 0)
    (hp : ∀ k < n, R (p k) (p (k + 1))) (hq : ∀ k < m, R (q k) (q (k + 1))) :
    ∀ k, k ≤ n → k ≤ m → p k = q k := by
  intro k
  induction k with
  | zero => exact fun _ _ => hstart
  | succ k ih =>
    intro hn hm
    have hstep := hq k hm
    rw [← ih (by omega) (by omega)] at hstep
    exact hR (hp k hn) hstep

end Steps

/-! ### Walks -/

variable {α : Type*} (R : α → α → Prop) (a : α)

/-- A walk of `n` steps from `a`, which has not come back in between. -/
structure Walk (n : ℕ) (p : ℕ → α) : Prop where
  /-- It starts at `a`. -/
  start : p 0 = a
  /-- It takes steps. -/
  step : ∀ k < n, R (p k) (p (k + 1))
  /-- It has not come back. -/
  away : ∀ k, 0 < k → k < n → p k ≠ a

/-- The walk from `a` runs into a ring that leaves `a` out. -/
def Caught : Prop :=
  ∃ p m n, Walk R a n p ∧ m < n ∧ p m = p n ∧ p n ≠ a

variable {R a} {n : ℕ} {p : ℕ → α}

/-- No step has been taken yet. -/
theorem Walk.zero : Walk R a 0 fun _ => a where
  start := rfl
  step k hk := absurd hk (Nat.not_lt_zero k)
  away k _ hk := absurd hk (Nat.not_lt_zero k)

/-- The first steps of a walk. -/
theorem Walk.take (h : Walk R a n p) {m : ℕ} (hm : m ≤ n) : Walk R a m p where
  start := h.start
  step k hk := h.step k (by omega)
  away k hpos hk := h.away k hpos (by omega)

/-- A walk that is not back can go on. -/
theorem Walk.snoc (h : Walk R a n p) (haway : 0 < n → p n ≠ a) {x : α} (hx : R (p n) x) :
    Walk R a (n + 1) (Function.update p (n + 1) x) where
  start := (update_of_le x (Nat.zero_le n)).trans h.start
  step := step_update h.step hx
  away k hpos hk := by
    rw [update_of_le x (Nat.lt_succ_iff.1 hk)]
    rcases Nat.lt_or_ge k n with hlt | hge
    · exact h.away k hpos hlt
    · rw [show k = n by omega] at hpos ⊢
      exact haway hpos

/-- Whatever holds of the start and is kept by a step holds all along a walk. -/
theorem Walk.all (h : Walk R a n p) {P : α → Prop} (ha : P a) (hstep : ∀ x y, R x y → P y) :
    ∀ k ≤ n, P (p k) := by
  intro k hk
  cases k with
  | zero =>
    rw [h.start]
    exact ha
  | succ k => exact hstep _ _ (h.step k hk)

/-- A walk is determined by where it starts. -/
theorem Walk.unique (hR : Relator.RightUnique R) {m : ℕ} {q : ℕ → α} (h : Walk R a n p)
    (h' : Walk R a m q) : ∀ k, k ≤ n → k ≤ m → p k = q k :=
  eq_of_steps hR (h.start.trans h'.start.symm) h.step h'.step

/-- **A walk that comes back has been to no place twice**: from the same place on it would have
taken the same steps, and would have been back before. -/
theorem Walk.injOn_of_back (hR : Relator.RightUnique R) (h : Walk R a n p) (hback : p n = a) :
    ∀ i j, i < n → j < n → p i = p j → i = j := by
  have hlt : ∀ i j, i < j → j < n → p i ≠ p j := by
    intro i j hij hj heq
    have hsame : ∀ t, j + t ≤ n → p (i + t) = p (j + t) := by
      intro t
      induction t with
      | zero => exact fun _ => heq
      | succ t ih =>
        intro ht
        have hi := h.step (i + t) (by omega)
        rw [ih (by omega)] at hi
        exact hR hi (h.step (j + t) (by omega))
    have hearly := hsame (n - j) (by omega)
    rw [Nat.add_sub_cancel' hj.le, hback] at hearly
    exact h.away (i + (n - j)) (by omega) (by omega) hearly
  intro i j hi hj heq
  rcases Nat.lt_trichotomy i j with hij | hij | hij
  · exact absurd heq (hlt i j hij hj)
  · exact hij
  · exact absurd heq.symm (hlt j i hij hi)

/-- **If no walk is caught, a walk that is not back has taken fewer steps than there are places.**
By the pigeonhole principle, a longer one has been to some place twice. -/
theorem Walk.lt_card (h : Walk R a n p) (hfree : ¬ Caught R a) (haway : 0 < n → p n ≠ a)
    (places : Finset α) (hmem : ∀ k ≤ n, p k ∈ places) : n < places.card := by
  by_contra hle
  have hlen : places.card < (Finset.range (n + 1)).card := by
    rw [Finset.card_range]
    omega
  obtain ⟨i, hi, j, hj, hne, heq⟩ := Finset.exists_ne_map_eq_of_card_lt_of_maps_to hlen
    fun k hk => hmem k (Nat.lt_succ_iff.1 (Finset.mem_range.1 hk))
  -- the later one of the two is not the start
  have hcaught : ∀ i j, i < j → j < n + 1 → p i = p j → Caught R a := by
    intro i j hij hj heq
    refine ⟨p, i, j, h.take (by omega), hij, heq, ?_⟩
    rcases Nat.lt_or_ge j n with hlt | hge
    · exact h.away j (by omega) hlt
    · rw [show j = n by omega]
      exact haway (by omega)
  rcases Nat.lt_or_gt_of_ne hne with hij | hij
  · exact hfree (hcaught i j hij (Finset.mem_range.1 hj) heq)
  · exact hfree (hcaught j i hij (Finset.mem_range.1 hi) heq.symm)

/-- A walk that comes back is not caught. -/
theorem Walk.not_caught (hR : Relator.RightUnique R) (h : Walk R a n p) (hpos : 0 < n)
    (hback : p n = a) : ¬ Caught R a := by
  rintro ⟨q, i, j, hq, hij, heq, hne⟩
  have hsame := h.unique hR hq
  rcases Nat.lt_trichotomy n j with hlt | rfl | hlt
  · exact hq.away n hpos hlt ((hsame n le_rfl hlt.le).symm.trans hback)
  · exact hne ((hsame n le_rfl le_rfl).symm.trans hback)
  · rw [← hsame i (by omega) hij.le, ← hsame j hlt.le le_rfl] at heq
    have hinj := h.injOn_of_back hR hback i j (by omega) hlt heq
    omega

end Lasso
