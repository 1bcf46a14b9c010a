import GrinPlusPlus.Lib.Nodes
import Mathlib.Data.Set.Insert

/-!
# Complete subtrees over a set of leaves

Which nodes have all of their leaves in a set, and which of these are maximal. A node is
addressed by its height and its block (`PostOrder.nodePos`).

What the theory is for is a set that grows by one leaf. Only nodes above the new leaf can
become full, and they do so from the leaf upwards as long as **the sibling is full**:
`PostOrder.full_insert_iff` says it for the nodes, `PostOrder.Climb.maxFull_iff` for the
maximal ones. The climb may start at a leaf that is in the set already; then it ends at the
maximal node that was there.
-/

namespace PostOrder

variable {S : Set ℕ} {l h j t : ℕ}

/-! ### Siblings -/

/-- The other child of the parent. -/
def sibling (j : ℕ) : ℕ :=
  if j % 2 = 0 then j + 1 else j - 1

theorem sibling_div_two (j : ℕ) : sibling j / 2 = j / 2 := by
  rw [sibling]
  split <;> omega

theorem sibling_ne (j : ℕ) : sibling j ≠ j := by
  rw [sibling]
  split <;> omega

/-- A node is one child of its parent or the other. -/
theorem eq_or_eq_sibling {i j : ℕ} (h : i / 2 = j / 2) : i = j ∨ i = sibling j := by
  rw [sibling]
  split <;> omega

/-! ### Full nodes -/

/-- All leaves of a node are in the set. -/
def Full (S : Set ℕ) (h j : ℕ) : Prop :=
  ∀ m, m / 2 ^ h = j → m ∈ S

/-- A full node is maximal when its parent is not full. -/
def MaxFull (S : Set ℕ) (h j : ℕ) : Prop :=
  Full S h j ∧ ¬Full S (h + 1) (j / 2)

@[simp] theorem full_zero : Full S 0 j ↔ j ∈ S := by
  simp [Full]

theorem div_two_pow_succ (m h : ℕ) : m / 2 ^ (h + 1) = m / 2 ^ h / 2 := by
  rw [pow_succ, Nat.div_div_eq_div_mul]

/-- **A parent is full when both children are.** -/
theorem full_parent_iff : Full S (h + 1) (j / 2) ↔ Full S h j ∧ Full S h (sibling j) := by
  constructor
  · intro hfull
    constructor
    · rintro m rfl
      exact hfull m (div_two_pow_succ m h)
    · intro m hm
      refine hfull m ?_
      rw [div_two_pow_succ, hm, sibling_div_two]
  · rintro ⟨hj, hsibling⟩ m hm
    rw [div_two_pow_succ] at hm
    rcases eq_or_eq_sibling hm with heq | heq
    · exact hj m heq
    · exact hsibling m heq

/-- A node without the new leaf stays what it was. -/
theorem full_insert_of_ne (hne : j ≠ l / 2 ^ h) : Full (insert l S) h j ↔ Full S h j := by
  refine forall_congr' fun m => imp_congr_right fun hm => ?_
  have hml : m ≠ l := by
    rintro rfl
    exact hne hm.symm
  simp [hml]

/-- **A new leaf fills the nodes above it** as far as their siblings are full. -/
theorem full_insert_iff :
    Full (insert l S) h (l / 2 ^ h) ↔
      Full S h (l / 2 ^ h) ∨ ∀ i < h, Full S i (sibling (l / 2 ^ i)) := by
  induction h with
  | zero => simp
  | succ h ih =>
    have hsibling := full_insert_of_ne (S := S) (sibling_ne (l / 2 ^ h))
    rw [div_two_pow_succ, full_parent_iff, full_parent_iff, ih, hsibling,
      Nat.forall_lt_succ_right, or_and_right]

/-- The climb from a new leaf: below height `t` the siblings are full, at height `t` the
sibling is not. -/
structure Climb (S : Set ℕ) (l t : ℕ) : Prop where
  /-- The siblings on the way are full. -/
  below : ∀ i < t, Full S i (sibling (l / 2 ^ i))
  /-- The climb ends. -/
  ends : ¬Full S t (sibling (l / 2 ^ t))

namespace Climb

variable (c : Climb S l t)
include c

theorem full_iff : Full (insert l S) h j ↔ Full S h j ∨ h ≤ t ∧ j = l / 2 ^ h := by
  by_cases hj : j = l / 2 ^ h
  · subst hj
    rw [full_insert_iff]
    refine or_congr_right ⟨fun hbelow => ⟨?_, rfl⟩, fun hle i hi => c.below i (by omega)⟩
    by_contra hlt
    exact c.ends (hbelow t (by omega))
  · rw [full_insert_of_ne hj]
    simp [hj]

/-- **The maximal nodes after a new leaf**: the node where the climb ends, and those that were
maximal, without the siblings on the way. -/
theorem maxFull_iff : MaxFull (insert l S) h j ↔
    h = t ∧ j = l / 2 ^ t ∨ MaxFull S h j ∧ ¬(h < t ∧ j = sibling (l / 2 ^ h)) := by
  constructor
  · rintro ⟨hfull, hparent⟩
    rw [c.full_iff, not_or] at hparent
    obtain ⟨hnot, habove⟩ := hparent
    rcases c.full_iff.1 hfull with hold | ⟨hle, rfl⟩
    · refine .inr ⟨⟨hold, hnot⟩, ?_⟩
      rintro ⟨hlt, rfl⟩
      exact habove ⟨hlt, by rw [sibling_div_two, div_two_pow_succ]⟩
    · rcases Nat.lt_or_ge h t with hlt | hge
      · exact absurd ⟨hlt, (div_two_pow_succ l h).symm⟩ habove
      · obtain rfl : h = t := by omega
        exact .inl ⟨rfl, rfl⟩
  · rintro (⟨rfl, rfl⟩ | ⟨⟨hfull, hparent⟩, hkept⟩)
    · refine ⟨c.full_iff.2 (.inr ⟨le_rfl, rfl⟩), fun hnext => ?_⟩
      rcases c.full_iff.1 hnext with hold | ⟨hle, -⟩
      · exact c.ends (full_parent_iff.1 hold).2
      · omega
    · refine ⟨c.full_iff.2 (.inl hfull), fun hnext => ?_⟩
      rcases c.full_iff.1 hnext with hold | ⟨hle, heq⟩
      · exact hparent hold
      · rw [div_two_pow_succ] at heq
        rcases eq_or_eq_sibling heq with rfl | rfl
        · -- both children were full, so the parent was
          exact hparent (full_parent_iff.2 ⟨hfull, c.below h hle⟩)
        · exact hkept ⟨hle, rfl⟩

end Climb

/-! ### Maximal nodes -/

/-- A full node has its leaves below every bound of the set. -/
theorem Full.le_of_bound {n : ℕ} (hfull : Full S h j) (hbound : ∀ m ∈ S, m < n) :
    2 ^ h * (j + 1) ≤ n := by
  have hpos : 0 < 2 ^ h := Nat.two_pow_pos h
  have hlast : 2 ^ h * (j + 1) - 1 < n := by
    refine hbound _ (hfull _ ?_)
    rw [show 2 ^ h * (j + 1) - 1 = 2 ^ h * j + (2 ^ h - 1) by rw [Nat.mul_succ]; omega,
      Nat.mul_add_div hpos, Nat.div_eq_of_lt (by omega), Nat.add_zero]
  omega

/-- The nodes under a full node are full. -/
theorem Full.below {k : ℕ} (hfull : Full S k t) (hle : h ≤ k) (hdiv : j / 2 ^ (k - h) = t) :
    Full S h j := by
  rintro m rfl
  refine hfull m ?_
  rw [← hdiv, Nat.div_div_eq_div_mul, ← pow_add, Nat.add_sub_cancel' hle]

/-- **Every full node is under a maximal one**, when there is a bound. -/
theorem Full.exists_maxFull {n : ℕ} (hfull : Full S h j) (hbound : ∀ m ∈ S, m < n) :
    ∃ k, h ≤ k ∧ MaxFull S k (j / 2 ^ (k - h)) := by
  -- heights stay below the bound, so the way up ends
  have hh : h < n := by
    have hle := hfull.le_of_bound hbound
    have hlt : h < 2 ^ h := Nat.lt_two_pow_self
    have : 2 ^ h * 1 ≤ 2 ^ h * (j + 1) := Nat.mul_le_mul_left _ (by omega)
    omega
  induction hd : n - h generalizing h j with
  | zero => omega
  | succ d ih =>
    by_cases hparent : Full S (h + 1) (j / 2)
    · have hh' : h + 1 < n := by
        have hle := hparent.le_of_bound hbound
        have hlt : h + 1 < 2 ^ (h + 1) := Nat.lt_two_pow_self
        have : 2 ^ (h + 1) * 1 ≤ 2 ^ (h + 1) * (j / 2 + 1) := Nat.mul_le_mul_left _ (by omega)
        omega
      obtain ⟨k, hk, htop⟩ := ih hparent hh' (by omega)
      refine ⟨k, by omega, ?_⟩
      rwa [Nat.div_div_eq_div_mul, ← pow_succ', show k - (h + 1) + 1 = k - h by omega] at htop
    · refine ⟨h, le_rfl, ?_⟩
      rw [Nat.sub_self, pow_zero, Nat.div_one]
      exact ⟨hfull, hparent⟩

/-! ### Positions -/

/-- The complete subtree under a position has all of its leaves in the set. -/
def Complete (S : Set ℕ) (r : ℕ) : Prop :=
  ∀ n, Below (leafPos n) r → n ∈ S

/-- The root of a maximal one. -/
def MaximalComplete (S : Set ℕ) (r : ℕ) : Prop :=
  Complete S r ∧ ∀ r', Complete S r' → Below r r' → r' = r

/-- Subtrees in addresses. -/
theorem below_nodePos {k m : ℕ} :
    Below (nodePos h j) (nodePos k m) ↔ h ≤ k ∧ j / 2 ^ (k - h) = m :=
  below_nodePos_iff.trans below_iff

theorem complete_nodePos_iff : Complete S (nodePos h j) ↔ Full S h j := by
  refine forall_congr' fun m => imp_congr_left ?_
  rw [← nodePos_zero, below_nodePos]
  simp

theorem maximalComplete_nodePos_iff : MaximalComplete S (nodePos h j) ↔ MaxFull S h j := by
  rw [MaximalComplete, MaxFull, complete_nodePos_iff]
  refine and_congr_right fun hfull => ⟨fun hmax hparent => ?_, fun hparent r' hr' hbelow => ?_⟩
  · have hbelow : Below (nodePos h j) (nodePos (h + 1) (j / 2)) :=
      below_nodePos.2 ⟨Nat.le_succ h, by rw [Nat.add_sub_cancel_left, pow_one]⟩
    have heq := hmax _ (complete_nodePos_iff.2 hparent) hbelow
    exact absurd (nodePos_inj heq).1 (Nat.succ_ne_self h)
  · obtain ⟨m, hm⟩ := exists_nodePos r'
    rw [hm] at hr' hbelow ⊢
    obtain ⟨hle, hdiv⟩ := below_nodePos.1 hbelow
    rcases hle.eq_or_lt with heq | hlt
    · rw [← heq] at hdiv ⊢
      rw [Nat.sub_self, pow_zero, Nat.div_one] at hdiv
      rw [hdiv]
    · -- the parent is under that node too
      refine absurd ((complete_nodePos_iff.1 hr').below hlt ?_) hparent
      rw [Nat.div_div_eq_div_mul, ← pow_succ', ← hdiv]
      congr 2
      omega

/-- **The subtrees of the maximal nodes** hold the full nodes. -/
theorem complete_iff_exists_maximal {n : ℕ} (hbound : ∀ m ∈ S, m < n) (r : ℕ) :
    Complete S r ↔ ∃ r', MaximalComplete S r' ∧ Below r r' := by
  obtain ⟨j, hj⟩ := exists_nodePos r
  rw [hj]
  constructor
  · intro hcomplete
    obtain ⟨k, hle, htop⟩ := (complete_nodePos_iff.1 hcomplete).exists_maxFull hbound
    exact ⟨nodePos k (j / 2 ^ (k - height r)), maximalComplete_nodePos_iff.2 htop,
      below_nodePos.2 ⟨hle, rfl⟩⟩
  · rintro ⟨r', ⟨hcomplete, -⟩, hbelow⟩
    obtain ⟨m, hm⟩ := exists_nodePos r'
    rw [hm] at hcomplete hbelow
    obtain ⟨hle, hdiv⟩ := below_nodePos.1 hbelow
    exact complete_nodePos_iff.2 ((complete_nodePos_iff.1 hcomplete).below hle hdiv)

end PostOrder
