import Mathlib.Algebra.Order.Ring.Nat
import Mathlib.Tactic.Ring

/-!
# Retargeting a difficulty

The difficulty of the next block is a quotient that is rounded down, with a floor under it. What
it is a quotient of is a matter of taste; two rules are in use, and both are here over the natural
numbers, where no product wraps:

* the **weighted exponential moving average** (`Retarget.wtema`), which looks at the last block
  only: with the goal `b` and the half-life `h`, the difficulty is multiplied by
  `h / (h - b + t)` when the block took the time `t`. It has the right sign
  (`Retarget.wtema_goal`, `Retarget.le_wtema_of_le`, `Retarget.lt_wtema_of_lt`,
  `Retarget.wtema_of_lt`) and is monotone (`Retarget.wtema_mono`), although the quotient is
  rounded;
* the **moving average over a window**, which divides the sum of the difficulties by the time the
  window took, after that time was damped and clamped (`Retarget.damp`, `Retarget.clamp`). The
  clamp alone bounds the result (`Retarget.le_atLeast_clamp`, `Retarget.atLeast_clamp_le`).
-/

namespace Retarget

variable {m n n' q q' : ℕ}

/-! ### A quotient with a floor -/

/-- The quotient, rounded down, and at least `m`. -/
def atLeast (m n q : ℕ) : ℕ :=
  max m (n / q)

theorem le_atLeast : m ≤ atLeast m n q :=
  le_max_left _ _

theorem quotient_le_atLeast : n / q ≤ atLeast m n q :=
  le_max_right _ _

/-- More to divide and less to divide by give no less. -/
theorem atLeast_mono (hpos : 0 < q') (hn : n ≤ n') (hq : q' ≤ q) :
    atLeast m n q ≤ atLeast m n' q' :=
  max_le_max le_rfl ((Nat.div_le_div_right hn).trans (Nat.div_le_div_left hq hpos))

/-! ### The weighted exponential moving average -/

section Wtema

variable {h b d e s t : ℕ}

/-- The next difficulty, when the last one was `d` and its block took the time `t`. -/
def wtema (h b m d t : ℕ) : ℕ :=
  atLeast m (d * h) (h - b + t)

/-- A block that came right on time leaves the difficulty as it is. -/
theorem wtema_goal (hb : b ≤ h) (hpos : 0 < h) (hm : m ≤ d) : wtema h b m d b = d := by
  rw [wtema, atLeast, Nat.sub_add_cancel hb, Nat.mul_div_cancel d hpos]
  exact max_eq_right hm

/-- **The rule is monotone**: in the difficulty, and against the time of the block. -/
theorem wtema_mono (hpos : 0 < h - b + t) (hd : d ≤ e) (ht : t ≤ s) :
    wtema h b m d s ≤ wtema h b m e t :=
  atLeast_mono hpos (Nat.mul_le_mul_right h hd) (Nat.add_le_add_left ht _)

/-- A block that did not come late does not lower the difficulty. -/
theorem le_wtema_of_le (hb : b ≤ h) (hpos : 0 < h - b + t) (ht : t ≤ b) :
    d ≤ wtema h b m d t := by
  have hq : h - b + t ≤ h := by omega
  have hd : d ≤ d * h / (h - b + t) :=
    (Nat.le_div_iff_mul_le hpos).2 (Nat.mul_le_mul_left d hq)
  exact hd.trans quotient_le_atLeast

/-- A block that came early raises the difficulty, unless it is so low that the raise is rounded
away. -/
theorem lt_wtema_of_lt (hb : b ≤ h) (hpos : 0 < h - b + t) (ht : t < b) (hd : h ≤ d) :
    d < wtema h b m d t := by
  obtain ⟨r, rfl⟩ := Nat.exists_eq_add_of_lt ht
  have hq : h = h - (t + r + 1) + t + (r + 1) := by omega
  -- what the quotient exceeds `d` by is `d * (r + 1) / q`, and `q ≤ d`
  have hstep : (d + 1) * (h - (t + r + 1) + t) ≤ d * h :=
    calc (d + 1) * (h - (t + r + 1) + t)
        = d * (h - (t + r + 1) + t) + (h - (t + r + 1) + t) := by ring
      _ ≤ d * (h - (t + r + 1) + t) + d * (r + 1) := by
          refine Nat.add_le_add_left ?_ _
          calc h - (t + r + 1) + t ≤ d := by omega
            _ ≤ d * (r + 1) := Nat.le_mul_of_pos_right d (Nat.succ_pos r)
      _ = d * (h - (t + r + 1) + t + (r + 1)) := by ring
      _ = d * h := by rw [← hq]
  have hlt : d + 1 ≤ d * h / (h - (t + r + 1) + t) := (Nat.le_div_iff_mul_le hpos).2 hstep
  exact lt_of_lt_of_le (Nat.lt_succ_self d) (hlt.trans quotient_le_atLeast)

/-- A block that came late lowers the difficulty, down to the floor. -/
theorem wtema_of_lt (hb : b ≤ h) (ht : b < t) :
    wtema h b m d t < d ∨ wtema h b m d t = m := by
  rcases Nat.eq_zero_or_pos d with rfl | hd
  · right
    simp [wtema, atLeast]
  · have hq : h < h - b + t := by omega
    have hlt : d * h / (h - b + t) < d :=
      (Nat.div_lt_iff_lt_mul (by omega)).2 (Nat.mul_lt_mul_of_pos_left hq hd)
    rw [wtema, atLeast]
    rcases Nat.le_total (d * h / (h - b + t)) m with hm | hm
    · exact Or.inr (max_eq_left hm)
    · exact Or.inl (lt_of_le_of_lt (max_eq_right hm).le hlt)

end Wtema

/-! ### The moving average over a window -/

section Window

variable {x goal k : ℕ}

/-- A value drawn towards the goal: one part of it, `k - 1` parts of the goal. -/
def damp (x goal k : ℕ) : ℕ :=
  (x + (k - 1) * goal) / k

/-- A value kept within a factor of the goal. -/
def clamp (x goal k : ℕ) : ℕ :=
  max (goal / k) (min x (goal * k))

theorem le_clamp : goal / k ≤ clamp x goal k :=
  le_max_left _ _

theorem clamp_le (hk : 0 < k) : clamp x goal k ≤ goal * k :=
  max_le ((Nat.div_le_self goal k).trans (Nat.le_mul_of_pos_right goal hk)) (min_le_right _ _)

/-- The least a clamped average can be. -/
theorem le_atLeast_clamp (hk : 0 < k) (hpos : 0 < goal / k) :
    atLeast m n (goal * k) ≤ atLeast m n (clamp x goal k) :=
  atLeast_mono (lt_of_lt_of_le hpos le_clamp) le_rfl (clamp_le hk)

/-- The most a clamped average can be. -/
theorem atLeast_clamp_le (hpos : 0 < goal / k) :
    atLeast m n (clamp x goal k) ≤ atLeast m n (goal / k) :=
  atLeast_mono hpos le_rfl le_clamp

end Window

end Retarget
