import GrinPlusPlus.Lib.PostOrder
import Mathlib.Algebra.Ring.Parity
import Mathlib.Tactic.Ring

/-!
# The nodes of a mountain range

The positions of `GrinPlusPlus.Lib.PostOrder`, addressed by what stands below them:
`PostOrder.nodePos h j` is the root of the complete tree of height `h` over the leaves
`2 ^ h * j, …, 2 ^ h * (j + 1) - 1`. In this address the family of a node is arithmetic –
its children are `2 * j` and `2 * j + 1` one level down, its parent is `j / 2` one level up –
and so is whether it belongs to a range of `n` leaves
(`PostOrder.nodePos_lt_leafPos_iff`).

The peaks of a range of `n` leaves are one node for each binary digit of `n`
(`PostOrder.peaksFrom_eq`): over the leaves that are left when the lower digits are cleared.
-/

namespace PostOrder

/-! ### Digits -/

theorem ones_two_mul (j : ℕ) : ones (2 * j) = ones j := by
  have h := lt_two_pow_bitLength j
  rw [ones_eq (k := bitLength j + 1) (by rw [pow_succ]; omega), onesUpTo,
    ones_eq h, show 2 * j % 2 = 0 by omega, show 2 * j / 2 = j by omega, Nat.zero_add]

theorem ones_two_mul_add_one (j : ℕ) : ones (2 * j + 1) = ones j + 1 := by
  have h := lt_two_pow_bitLength j
  rw [ones_eq (k := bitLength j + 1) (by rw [pow_succ]; omega), onesUpTo,
    ones_eq h, show (2 * j + 1) % 2 = 1 by omega, show (2 * j + 1) / 2 = j by omega, Nat.add_comm]

/-- The lowest digit, and the others. -/
theorem ones_div_two (n : ℕ) : ones n = n % 2 + ones (n / 2) := by
  rcases Nat.even_or_odd' n with ⟨j, rfl | rfl⟩
  · rw [ones_two_mul, show 2 * j % 2 = 0 by omega, show 2 * j / 2 = j by omega, Nat.zero_add]
  · rw [ones_two_mul_add_one, show (2 * j + 1) % 2 = 1 by omega,
      show (2 * j + 1) / 2 = j by omega, Nat.add_comm]

theorem ones_two_pow_mul (h j : ℕ) : ones (2 ^ h * j) = ones j := by
  induction h with
  | zero => rw [pow_zero, Nat.one_mul]
  | succ h ih => rw [pow_succ, Nat.mul_comm _ 2, Nat.mul_assoc, ones_two_mul, ih]

/-- All ones below a number. -/
theorem ones_two_pow_mul_add (h j : ℕ) : ones (2 ^ h * j + (2 ^ h - 1)) = ones j + h := by
  induction h with
  | zero => simp
  | succ h ih =>
    have hpos : 0 < 2 ^ h := Nat.two_pow_pos h
    have heq : 2 ^ (h + 1) * j + (2 ^ (h + 1) - 1) = 2 * (2 ^ h * j + (2 ^ h - 1)) + 1 := by
      rw [pow_succ, Nat.mul_comm _ 2, Nat.mul_assoc]
      omega
    rw [heq, ones_two_mul_add_one, ih]
    omega

/-! ### Addresses -/

/-- The root of the complete tree of height `h` over the block `j` of leaves. -/
def nodePos (h j : ℕ) : ℕ :=
  2 ^ (h + 1) * (j + 1) - 2 - ones j

theorem two_pow_succ_mul (h m : ℕ) : 2 ^ (h + 1) * m = 2 * (2 ^ h * m) := by
  rw [pow_succ, Nat.mul_comm _ 2, Nat.mul_assoc]

/-- There is room for the subtractions. -/
theorem ones_add_two_le (h j : ℕ) : ones j + 2 ≤ 2 ^ (h + 1) * (j + 1) := by
  have h1 := ones_le j
  have h2 : 1 * (j + 1) ≤ 2 ^ h * (j + 1) := Nat.mul_le_mul_right _ (Nat.two_pow_pos h)
  rw [two_pow_succ_mul]
  omega

@[simp] theorem nodePos_zero (j : ℕ) : nodePos 0 j = leafPos j := by
  rw [nodePos, leafPos]
  omega

theorem nodePos_left (h j : ℕ) : nodePos h (2 * j) + 2 ^ (h + 1) = nodePos (h + 1) j := by
  have h1 := ones_add_two_le h (2 * j)
  have h2 : 2 ^ (h + 1) * (2 * j + 1) + 2 ^ (h + 1) = 2 ^ (h + 1 + 1) * (j + 1) := by
    rw [pow_succ 2 (h + 1)]
    ring
  rw [ones_two_mul] at h1
  have h3 : 0 < 2 ^ (h + 1) := Nat.two_pow_pos _
  rw [nodePos, nodePos, ones_two_mul, ← h2]
  omega

theorem nodePos_right (h j : ℕ) : nodePos h (2 * j + 1) + 1 = nodePos (h + 1) j := by
  have h1 := ones_add_two_le h (2 * j + 1)
  have h2 : 2 ^ (h + 1) * (2 * j + 1 + 1) = 2 ^ (h + 1 + 1) * (j + 1) := by
    rw [pow_succ 2 (h + 1)]
    ring
  rw [ones_two_mul_add_one] at h1
  rw [nodePos, nodePos, ones_two_mul_add_one]
  omega

/-- The first leaf below a node. -/
theorem leafPos_two_pow_mul (h j : ℕ) : leafPos (2 ^ h * j) + ones j = 2 ^ (h + 1) * j := by
  have h1 := ones_le j
  have h2 : 1 * j ≤ 2 ^ h * j := Nat.mul_le_mul_right _ (Nat.two_pow_pos h)
  rw [leafPos, ones_two_pow_mul, two_pow_succ_mul]
  omega

/-- A node stands behind the other nodes of its tree. -/
theorem nodePos_eq_leafPos_add (h j : ℕ) :
    nodePos h j = leafPos (2 ^ h * j) + (2 ^ (h + 1) - 2) := by
  have h1 := leafPos_two_pow_mul h j
  have h2 : 2 ^ (h + 1) * (j + 1) = 2 ^ (h + 1) * j + 2 ^ (h + 1) := by ring
  have h3 : 2 ^ (h + 1) = 2 * 2 ^ h := by rw [pow_succ, Nat.mul_comm]
  have h4 : 0 < 2 ^ h := Nat.two_pow_pos h
  rw [nodePos]
  omega

/-- A node stands right behind its last leaf and the nodes between them. -/
theorem nodePos_eq_last_leafPos_add (h j : ℕ) :
    nodePos h j = leafPos (2 ^ h * (j + 1) - 1) + h := by
  have hpos : 0 < 2 ^ h := Nat.two_pow_pos h
  have heq : 2 ^ h * (j + 1) - 1 = 2 ^ h * j + (2 ^ h - 1) := by
    rw [Nat.mul_succ]
    omega
  have h1 := ones_two_pow_mul_add h j
  have h2 := ones_le (2 ^ h * j + (2 ^ h - 1))
  rw [heq, leafPos, h1, nodePos, two_pow_succ_mul, Nat.mul_succ]
  omega

theorem height_nodePos (h j : ℕ) : height (nodePos h j) = h := by
  have hpos : 0 < 2 ^ h * (j + 1) := Nat.mul_pos (Nat.two_pow_pos h) (Nat.succ_pos j)
  have hlast := nodePos_eq_last_leafPos_add h j
  have hnext : nodePos h j < leafPos (2 ^ h * (j + 1) - 1 + 1) := by
    have h1 := ones_succ_le j
    have h2 := leafPos_two_pow_mul h (j + 1)
    have h3 := ones_add_two_le h j
    rw [Nat.sub_add_cancel hpos, nodePos]
    omega
  rw [height_between (by omega) hnext]
  omega

/-- **When a node belongs to a range**: when all of its leaves do. -/
theorem nodePos_lt_leafPos_iff {h j n : ℕ} : nodePos h j < leafPos n ↔ 2 ^ h * (j + 1) ≤ n := by
  have hpos : 0 < 2 ^ h * (j + 1) := Nat.mul_pos (Nat.two_pow_pos h) (Nat.succ_pos j)
  have hlast := nodePos_eq_last_leafPos_add h j
  constructor
  · intro hlt
    have : leafPos (2 ^ h * (j + 1) - 1) < leafPos n := by omega
    have := leafPos_strictMono.lt_iff_lt.mp this
    omega
  · intro hle
    have h1 := ones_succ_le j
    have h2 := leafPos_two_pow_mul h (j + 1)
    have h3 := ones_add_two_le h j
    have h4 := leafPos_strictMono.monotone hle
    rw [nodePos]
    omega

/-- Behind a right child stands its parent. -/
theorem height_nodePos_succ_odd (h j : ℕ) : height (nodePos h (2 * j + 1) + 1) = h + 1 := by
  rw [nodePos_right, height_nodePos]

/-- Behind a left child stands a leaf. -/
theorem nodePos_succ_even (h j : ℕ) :
    nodePos h (2 * j) + 1 = leafPos (2 ^ h * (2 * j + 1)) := by
  have h1 := leafPos_two_pow_mul h (2 * j + 1)
  have h2 := ones_add_two_le h (2 * j)
  rw [ones_two_mul_add_one] at h1
  rw [ones_two_mul] at h2
  rw [nodePos, ones_two_mul]
  omega

theorem height_nodePos_succ_even (h j : ℕ) : height (nodePos h (2 * j) + 1) = 0 := by
  rw [nodePos_succ_even, height_leafPos]

/-- A parent stands behind its children. -/
theorem nodePos_lt_parent (h j : ℕ) : nodePos h j < nodePos (h + 1) (j / 2) := by
  rcases Nat.even_or_odd' j with ⟨i, rfl | rfl⟩
  · have := nodePos_left h i
    have : 0 < 2 ^ (h + 1) := Nat.two_pow_pos _
    rw [show 2 * i / 2 = i by omega]
    omega
  · have := nodePos_right h i
    rw [show (2 * i + 1) / 2 = i by omega]
    omega

theorem nodePos_strictMono (h : ℕ) : StrictMono (nodePos h) := by
  refine strictMono_nat_of_lt_succ fun j => ?_
  have h1 := ones_succ_le j
  have h2 := ones_add_two_le h j
  have h3 : 2 ^ (h + 1) * (j + 1 + 1) = 2 ^ (h + 1) * (j + 1) + 2 ^ (h + 1) := by ring
  have h4 : 2 ^ (h + 1) = 2 * 2 ^ h := by rw [pow_succ, Nat.mul_comm]
  have h5 : 0 < 2 ^ h := Nat.two_pow_pos h
  rw [nodePos, nodePos]
  omega

theorem nodePos_inj {h h' j j' : ℕ} (heq : nodePos h j = nodePos h' j') : h = h' ∧ j = j' := by
  have hheight := congrArg height heq
  rw [height_nodePos, height_nodePos] at hheight
  subst hheight
  exact ⟨rfl, (nodePos_strictMono h).injective heq⟩

/-- Every position is a node. -/
theorem exists_nodePos (p : ℕ) : ∃ j, p = nodePos (height p) j := by
  obtain ⟨m, -, h1, h2⟩ := exists_leafPos_le (n := p + 1)
    (lt_of_lt_of_le (Nat.lt_succ_self p) (le_leafPos (p + 1)))
  have hheight := height_between h1 h2
  -- Behind leaf `m` stand as many nodes as `m` has ones at its end.
  have hnodes : ∀ d, leafPos m + d < leafPos (m + 1) → ∃ j, leafPos m + d = nodePos d j ∧
      m + 1 = 2 ^ d * (j + 1) := by
    intro d hd
    induction d with
    | zero => exact ⟨m, by simp, by simp⟩
    | succ d ih =>
      obtain ⟨j, hj, hm⟩ := ih (by omega)
      rcases Nat.even_or_odd' j with ⟨i, rfl | rfl⟩
      · -- A left child is the last node in front of a leaf.
        have h1 := nodePos_succ_even d i
        rw [← hj, ← hm] at h1
        omega
      · refine ⟨i, ?_, ?_⟩
        · rw [← nodePos_right, ← hj]
          omega
        · rw [hm, pow_succ]
          ring
  obtain ⟨j, hj, -⟩ := hnodes (p - leafPos m) (by omega)
  refine ⟨j, ?_⟩
  rw [hheight, ← hj]
  omega

/-! ### Subtrees -/

/-- The nodes of the complete tree under position `q`: its root, and the nodes under the two
children of the root. -/
inductive Below (r : ℕ) : ℕ → Prop
  | root : Below r r
  | left {q k : ℕ} (hq : height q = k + 1) (h : Below r (q - 2 ^ (k + 1))) : Below r q
  | right {q k : ℕ} (hq : height q = k + 1) (h : Below r (q - 1)) : Below r q

/-- **A subtree is an interval** that ends with its root. -/
theorem below_iff_under {r q : ℕ} : Below r q ↔ Under r q := by
  constructor
  · intro h
    induction h with
    | root =>
      have : 2 ≤ 2 ^ (height r + 1) := Nat.le_self_pow (Nat.succ_ne_zero _) 2
      exact ⟨by omega, le_rfl⟩
    | @left q k hq h ih =>
      obtain ⟨hle, -, hheight⟩ := height_children hq
      obtain ⟨h1, h2⟩ := ih
      have hk := two_pow_add_two k
      have hk' : 2 ^ (k + 1) = 2 * 2 ^ k := pow_succ' 2 k
      rw [hheight] at h1
      rw [Under, hq]
      omega
    | @right q k hq h ih =>
      obtain ⟨hle, hheight, -⟩ := height_children hq
      obtain ⟨h1, h2⟩ := ih
      have hk := two_pow_add_two k
      have hk' : 2 ^ (k + 1) = 2 * 2 ^ k := pow_succ' 2 k
      rw [hheight] at h1
      rw [Under, hq]
      omega
  · rintro ⟨h1, h2⟩
    -- down from the root, level by level
    obtain ⟨k, hk⟩ : ∃ k, height q = k := ⟨_, rfl⟩
    induction k generalizing q with
    | zero =>
      rw [hk] at h1
      obtain rfl : r = q := by omega
      exact .root
    | succ k ih =>
      obtain ⟨hle, hright, hleft⟩ := height_children hk
      have hdouble := two_pow_add_two k
      have hdouble' : 2 ^ (k + 1) = 2 * 2 ^ k := pow_succ' 2 k
      rw [hk] at h1
      by_cases hroot : r = q
      · exact hroot ▸ .root
      · rcases Nat.lt_or_ge (q - 2 ^ (k + 1)) r with hlt | hge
        · exact .right hk (ih (by rw [hright]; omega) (by omega) hright)
        · exact .left hk (ih (by rw [hleft]; omega) hge hleft)

/-- The nodes over a block of leaves. -/
theorem below_nodePos_iff {h j p : ℕ} :
    Below p (nodePos h j) ↔ leafPos (2 ^ h * j) ≤ p ∧ p ≤ nodePos h j := by
  have hroot := nodePos_eq_leafPos_add h j
  have hpos : 0 < 2 ^ h := Nat.two_pow_pos h
  have hdouble : 2 ^ (h + 1) = 2 * 2 ^ h := pow_succ' 2 h
  rw [below_iff_under, Under, height_nodePos]
  omega

/-- The leaves of a block. -/
theorem leafPos_le_nodePos_iff {h j m : ℕ} :
    leafPos m ≤ nodePos h j ↔ m < 2 ^ h * (j + 1) := by
  have hpos : 0 < 2 ^ h * (j + 1) := Nat.mul_pos (Nat.two_pow_pos h) (Nat.succ_pos j)
  have hlast := nodePos_eq_last_leafPos_add h j
  constructor
  · intro hle
    exact leafPos_strictMono.lt_iff_lt.1
      (Nat.lt_of_le_of_lt hle (nodePos_lt_leafPos_iff.2 le_rfl))
  · intro hlt
    have hmono := leafPos_strictMono.monotone (show m ≤ 2 ^ h * (j + 1) - 1 by omega)
    omega

/-! ### Peaks -/

/-- The addresses of the peaks over `n` leaves, digit by digit. -/
def peaks (k n : ℕ) : List (ℕ × ℕ) :=
  ((List.range k).reverse.filter fun h => n.testBit h).map fun h => (h, n / 2 ^ h - 1)

/-- Blocks that follow each other: from leaf `a` on, up to leaf `b`. -/
def Consecutive (a b : ℕ) : List (ℕ × ℕ) → Prop
  | [] => a = b
  | q :: qs => a = 2 ^ q.1 * q.2 ∧ Consecutive (2 ^ q.1 * (q.2 + 1)) b qs

theorem Consecutive.append {a b : ℕ} {qs qs' : List (ℕ × ℕ)} :
    Consecutive a b (qs ++ qs') ↔ ∃ m, Consecutive a m qs ∧ Consecutive m b qs' := by
  induction qs generalizing a with
  | nil =>
    constructor
    · exact fun h => ⟨a, rfl, h⟩
    · rintro ⟨m, rfl, h⟩
      exact h
  | cons q qs ih =>
    rw [List.cons_append, Consecutive, ih]
    constructor
    · rintro ⟨ha, m, h, h'⟩
      exact ⟨m, ⟨ha, h⟩, h'⟩
    · rintro ⟨m, ⟨ha, h⟩, h'⟩
      exact ⟨ha, m, h, h'⟩

/-- A run of blocks does not go back. -/
theorem Consecutive.le {a b : ℕ} {qs : List (ℕ × ℕ)} (h : Consecutive a b qs) : a ≤ b := by
  induction qs generalizing a with
  | nil => exact Nat.le_of_eq h
  | cons q qs ih =>
    have h1 := ih h.2
    have h2 : 0 < 2 ^ q.1 := Nat.two_pow_pos _
    have h3 := h.1
    rw [Nat.mul_succ] at h1
    omega

/-- The blocks of a run lie between its ends. -/
theorem Consecutive.mem {a b : ℕ} {qs : List (ℕ × ℕ)} (h : Consecutive a b qs) {q : ℕ × ℕ}
    (hq : q ∈ qs) :
    a ≤ 2 ^ q.1 * q.2 ∧ 2 ^ q.1 * (q.2 + 1) ≤ b := by
  obtain ⟨front, back, rfl⟩ := List.append_of_mem hq
  obtain ⟨m, h1, h2⟩ := Consecutive.append.mp h
  have := h1.le
  have := h2.2.le
  have := h2.1
  exact ⟨by omega, by omega⟩

/-- **The peaks follow each other**, up to the last leaf. -/
theorem consecutive_peaks (k n : ℕ) : Consecutive (2 ^ k * (n / 2 ^ k)) n (peaks k n) := by
  induction k with
  | zero =>
    rw [peaks, pow_zero, Nat.one_mul, Nat.div_one]
    exact rfl
  | succ k ih =>
    have hhalf : n / 2 ^ (k + 1) = n / 2 ^ k / 2 := by
      rw [pow_succ, Nat.div_div_eq_div_mul]
    have hbit : n.testBit k = decide (n / 2 ^ k % 2 = 1) := Nat.testBit_eq_decide_div_mod_eq
    rw [peaks, List.range_succ, List.reverse_append, List.reverse_singleton,
      List.singleton_append]
    by_cases h : n / 2 ^ k % 2 = 1
    · rw [List.filter_cons_of_pos (by rw [hbit]; exact decide_eq_true h), List.map_cons]
      have hdouble : 2 * (n / 2 ^ k / 2) = n / 2 ^ k - 1 := by omega
      refine ⟨?_, ?_⟩
      · rw [hhalf, pow_succ, Nat.mul_assoc, hdouble]
      · rw [show n / 2 ^ k - 1 + 1 = n / 2 ^ k by omega]
        exact ih
    · rw [List.filter_cons_of_neg (by rw [hbit]; simpa using h)]
      have hdouble : 2 * (n / 2 ^ k / 2) = n / 2 ^ k := by omega
      rw [hhalf, pow_succ, Nat.mul_assoc, hdouble]
      exact ih

theorem mem_peaks {k n h j : ℕ} :
    (h, j) ∈ peaks k n ↔ h < k ∧ n.testBit h = true ∧ j = n / 2 ^ h - 1 := by
  simp only [peaks, List.mem_map, List.mem_filter, List.mem_reverse, List.mem_range, Prod.mk.injEq]
  constructor
  · rintro ⟨h', ⟨h1, h2⟩, rfl, rfl⟩
    exact ⟨h1, h2, rfl⟩
  · rintro ⟨h1, h2, rfl⟩
    exact ⟨h, ⟨h1, h2⟩, rfl, rfl⟩

/-- The heights of the peaks are the digits, the highest one first. -/
theorem map_fst_peaks (k n : ℕ) :
    (peaks k n).map Prod.fst = (List.range k).reverse.filter fun h => n.testBit h := by
  rw [peaks, List.map_map]
  exact List.map_id _

/-- The peaks are left children: their siblings are not in the range. -/
theorem even_of_mem_peaks {k n : ℕ} {q : ℕ × ℕ} (hq : q ∈ peaks k n) : q.2 % 2 = 0 := by
  obtain ⟨h, j⟩ := q
  obtain ⟨-, hbit, rfl⟩ := mem_peaks.mp hq
  rw [Nat.testBit_eq_decide_div_mod_eq, decide_eq_true_eq] at hbit
  dsimp only
  omega

/-- The lower digits are the last peaks. -/
theorem exists_peaks_eq_append {h k : ℕ} (hle : h ≤ k) (n : ℕ) :
    ∃ front, peaks k n = front ++ peaks h n := by
  induction k, hle using Nat.le_induction with
  | base => exact ⟨[], rfl⟩
  | succ k hle ih =>
    obtain ⟨front, ih⟩ := ih
    rw [peaks, List.range_succ, List.reverse_append, List.reverse_singleton,
      List.singleton_append]
    by_cases hbit : n.testBit k = true
    · rw [List.filter_cons_of_pos hbit, List.map_cons]
      exact ⟨_ :: front, congrArg _ ih⟩
    · rw [List.filter_cons_of_neg hbit]
      exact ⟨front, ih⟩

/-- Digits in front of the number are zero. -/
theorem peaks_eq_of_le {k h n : ℕ} (hle : k ≤ h) (hn : n < 2 ^ k) : peaks h n = peaks k n := by
  induction h, hle using Nat.le_induction with
  | base => rfl
  | succ h hle ih =>
    have hbit : n.testBit h = false :=
      Nat.testBit_lt_two_pow (lt_of_lt_of_le hn (Nat.pow_le_pow_right (by decide) hle))
    rw [peaks, List.range_succ, List.reverse_append, List.reverse_singleton,
      List.singleton_append, List.filter_cons_of_neg (by rw [hbit]; decide)]
    exact ih

/-- The nodes above a leaf stand one behind the other. -/
theorem nodePos_above_strictMono (j : ℕ) : StrictMono fun h => nodePos h (j / 2 ^ h) := by
  refine strictMono_nat_of_lt_succ fun h => ?_
  have hhalf : j / 2 ^ (h + 1) = j / 2 ^ h / 2 := by rw [pow_succ, Nat.div_div_eq_div_mul]
  rw [hhalf]
  exact nodePos_lt_parent h _

/-- Nodes of one height or less below a node. -/
theorem nodePos_le_of_div_eq {h k j m : ℕ} (hle : h ≤ k) (hdiv : j / 2 ^ (k - h) = m) :
    nodePos h j ≤ nodePos k m := by
  have hpos : 0 < 2 ^ h := Nat.two_pow_pos h
  have hmono := (nodePos_above_strictMono (2 ^ h * j)).monotone hle
  have hsplit : 2 ^ k = 2 ^ h * 2 ^ (k - h) := by rw [← pow_add, Nat.add_sub_cancel' hle]
  rwa [Nat.mul_div_cancel_left j hpos, hsplit, Nat.mul_div_mul_left _ _ hpos, hdiv] at hmono

/-- **The nodes of a tree** are the positions from its first leaf to its root. -/
theorem below_iff {h j k m : ℕ} :
    leafPos (2 ^ k * m) ≤ nodePos h j ∧ nodePos h j ≤ nodePos k m ↔
      h ≤ k ∧ j / 2 ^ (k - h) = m := by
  have hh : 0 < 2 ^ h := Nat.two_pow_pos h
  constructor
  · rintro ⟨hfirst, hlast⟩
    -- The block of the node lies in the block of the root.
    have hroot : nodePos k m < leafPos (2 ^ k * (m + 1)) := nodePos_lt_leafPos_iff.mpr le_rfl
    have hin : 2 ^ h * (j + 1) ≤ 2 ^ k * (m + 1) :=
      nodePos_lt_leafPos_iff.mp (lt_of_le_of_lt hlast hroot)
    have hout : 2 ^ k * m < 2 ^ h * (j + 1) := by
      by_contra hge
      have := nodePos_lt_leafPos_iff.mpr (Nat.le_of_not_lt hge)
      omega
    rcases Nat.lt_or_ge k h with hlt | hle
    · -- A higher node with its last leaf in the block stands behind the root.
      exfalso
      have hsplit : 2 ^ h = 2 ^ k * 2 ^ (h - k) := by rw [← pow_add, Nat.add_sub_cancel' hlt.le]
      have hk : 0 < 2 ^ k := Nat.two_pow_pos k
      rw [hsplit, Nat.mul_assoc] at hin hout
      have h1 := Nat.le_of_mul_le_mul_left hin hk
      have h2 := Nat.lt_of_mul_lt_mul_left hout
      have heq : 2 ^ h * (j + 1) = 2 ^ k * (m + 1) := by
        rw [hsplit, Nat.mul_assoc, show 2 ^ (h - k) * (j + 1) = m + 1 by omega]
      have h3 := nodePos_eq_last_leafPos_add h j
      have h4 := nodePos_eq_last_leafPos_add k m
      rw [heq] at h3
      omega
    · refine ⟨hle, ?_⟩
      have hsplit : 2 ^ k = 2 ^ h * 2 ^ (k - h) := by rw [← pow_add, Nat.add_sub_cancel' hle]
      rw [hsplit, Nat.mul_assoc] at hin hout
      have h1 := Nat.le_of_mul_le_mul_left hin hh
      have h2 := Nat.lt_of_mul_lt_mul_left hout
      refine Nat.div_eq_of_lt_le ?_ ?_
      · rw [Nat.mul_comm]
        omega
      · rw [Nat.mul_comm]
        omega
  · rintro ⟨hle, hdiv⟩
    refine ⟨?_, nodePos_le_of_div_eq hle hdiv⟩
    have hsplit : 2 ^ k = 2 ^ h * 2 ^ (k - h) := by rw [← pow_add, Nat.add_sub_cancel' hle]
    have hblock : 2 ^ k * m ≤ 2 ^ h * j := by
      rw [hsplit, Nat.mul_assoc, ← hdiv]
      exact Nat.mul_le_mul_left _ (Nat.mul_div_le j _)
    have h1 := leafPos_strictMono.monotone hblock
    have h2 := nodePos_eq_leafPos_add h j
    omega

/-- A complete tree in front shifts the addresses. -/
theorem nodePos_add {k h j : ℕ} (hj : 2 ^ h * (j + 1) ≤ 2 ^ k) :
    nodePos h (2 ^ (k - h) + j) = 2 ^ (k + 1) - 1 + nodePos h j := by
  have hpos : 0 < 2 ^ h := Nat.two_pow_pos h
  have hle : h ≤ k := by
    by_contra hlt
    have h1 : 2 ^ k < 2 ^ h := Nat.pow_lt_pow_right (by decide) (by omega)
    have h2 : 2 ^ h * 1 ≤ 2 ^ h * (j + 1) := Nat.mul_le_mul_left _ (by omega)
    omega
  have hsplit : 2 ^ k = 2 ^ h * 2 ^ (k - h) := by rw [← pow_add, Nat.add_sub_cancel' hle]
  have hj' : j < 2 ^ (k - h) := by
    have : 2 ^ h * (j + 1) ≤ 2 ^ h * 2 ^ (k - h) := hsplit ▸ hj
    exact Nat.le_of_mul_le_mul_left this hpos
  have h1 : 2 ^ (h + 1) * (2 ^ (k - h) + j + 1) = 2 ^ (k + 1) + 2 ^ (h + 1) * (j + 1) := by
    rw [pow_succ 2 k, hsplit, pow_succ]
    ring
  have h2 := ones_add_two_le h j
  have h3 : 0 < 2 ^ (k + 1) := Nat.two_pow_pos _
  rw [nodePos, nodePos, ones_two_pow_add hj', h1]
  omega

/-- **The peaks of a range** are one node for each digit. -/
theorem peaksFrom_eq {k n : ℕ} (hn : n < 2 ^ k) :
    peaksFrom k 0 (leafPos n) = (peaks k n).map fun q => nodePos q.1 q.2 := by
  induction k generalizing n with
  | zero => rfl
  | succ k ih =>
    have hpos : 0 < 2 ^ k := Nat.two_pow_pos k
    by_cases hlow : n < 2 ^ k
    · rw [peaksFrom_succ (leafPos_lt_of_lt hlow), ih hlow, peaks, peaks, List.range_succ,
        List.reverse_append, List.reverse_singleton, List.singleton_append,
        List.filter_cons_of_neg]
      rw [Nat.testBit_lt_two_pow hlow]
      decide
    · obtain ⟨m, rfl⟩ := Nat.exists_eq_add_of_le (Nat.le_of_not_lt hlow)
      have hm : m < 2 ^ k := by omega
      have hbit : (2 ^ k + m).testBit k = true := by
        rw [Nat.testBit_two_pow_add_eq, Nat.testBit_lt_two_pow hm]
        rfl
      have hroot : nodePos k ((2 ^ k + m) / 2 ^ k - 1) = 2 ^ (k + 1) - 2 := by
        rw [Nat.add_div_left m hpos, Nat.div_eq_of_lt hm, Nat.sub_self, nodePos, ones_zero]
        omega
      rw [leafPos_two_pow_add hm, peaksFrom, if_pos (by omega), Nat.add_sub_cancel_left,
        Nat.zero_add, peaks, List.range_succ, List.reverse_append, List.reverse_singleton,
        List.singleton_append, List.filter_cons_of_pos hbit, List.map_cons, List.map_cons, hroot]
      congr 1
      have hadd := peaksFrom_add k (2 ^ (k + 1) - 1) 0 (leafPos m)
      rw [Nat.add_zero] at hadd
      rw [hadd, ih hm, peaks, List.map_map, List.map_map, List.map_map]
      have hfilter : (List.range k).reverse.filter (fun h => (2 ^ k + m).testBit h) =
          (List.range k).reverse.filter fun h => m.testBit h := by
        refine List.filter_congr fun h hh => ?_
        have hlt : h < k := List.mem_range.mp (List.mem_reverse.mp hh)
        rw [Nat.testBit_two_pow_add_gt hlt]
      rw [hfilter]
      refine List.map_congr_left fun h hh => ?_
      rw [List.mem_filter, List.mem_reverse, List.mem_range] at hh
      obtain ⟨hlt, hbit'⟩ := hh
      simp only [Function.comp_apply]
      have hge : 2 ^ h ≤ m := Nat.ge_two_pow_of_testBit hbit'
      have hpos' : 0 < 2 ^ h := Nat.two_pow_pos h
      have hsplit : 2 ^ k = 2 ^ h * 2 ^ (k - h) := by
        rw [← pow_add, Nat.add_sub_cancel' hlt.le]
      have hdiv : (2 ^ k + m) / 2 ^ h = 2 ^ (k - h) + m / 2 ^ h := by
        rw [hsplit, Nat.mul_add_div hpos']
      have hone : 1 ≤ m / 2 ^ h := (Nat.one_le_div_iff hpos').mpr hge
      have hle : 2 ^ h * (m / 2 ^ h - 1 + 1) ≤ 2 ^ k := by
        rw [Nat.sub_add_cancel hone]
        exact (Nat.mul_div_le m (2 ^ h)).trans hm.le
      rw [hdiv, Nat.add_sub_assoc hone, nodePos_add hle]

end PostOrder
