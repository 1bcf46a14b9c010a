import Mathlib.Data.List.Basic
import Mathlib.Order.Monotone.Basic
import Mathlib.Algebra.Order.Group.Nat
import Mathlib.Tactic.Common

/-!
# The post-order numbering of a mountain range

Complete binary trees are written down one after the other, each in post-order: the
left subtree, the right subtree, the root. Leaf `n` of the infinite sequence so
obtained stands at position `PostOrder.leafPos n`, and the number of nodes of a
sequence of `n` leaves whose complete subtrees are all closed is `leafPos n` again.

* `PostOrder.ones` – the number of bits of a number, as a loop over them;
* `PostOrder.leafPos` – the position of a leaf, `2 n - ones n`, with its recursion on
  the highest bit (`PostOrder.leafPos_two_pow_add`);
* `PostOrder.heightIn` – the **height of a position** inside a complete tree, by the
  recursion of the tree, and `PostOrder.sub`, the greedy subtraction of tree sizes that
  computes it without the tree (`PostOrder.sub_eq_heightIn`);
* `PostOrder.heightIn_children` – the two children of a node of positive height;
* `PostOrder.heightIn_between` – the positions between two leaves are the roots that
  the second leaf closes, in order of their heights.
-/

namespace PostOrder

/-! ### Counting bits -/

theorem two_pow_add_two (k : ℕ) : 2 ^ (k + 2) = 4 * 2 ^ k := by
  rw [pow_succ, pow_succ]
  omega

/-- The number of bits of `n` among the lowest `k`. -/
def onesUpTo : ℕ → ℕ → ℕ
  | 0, _ => 0
  | k + 1, n => n % 2 + onesUpTo k (n / 2)

/-- The number of binary digits. -/
def bitLength (n : ℕ) : ℕ :=
  if n = 0 then 0 else n.log2 + 1

/-- The number of bits. -/
def ones (n : ℕ) : ℕ :=
  onesUpTo (bitLength n) n

theorem lt_two_pow_bitLength (n : ℕ) : n < 2 ^ bitLength n := by
  rw [bitLength]
  split
  · omega
  · exact Nat.lt_log2_self

theorem two_pow_le_of_bitLength {n k : ℕ} (h : bitLength n = k + 1) : 2 ^ k ≤ n := by
  rw [bitLength] at h
  split at h
  · omega
  · next hn =>
    have hk : n.log2 = k := by omega
    rw [← hk]
    exact Nat.log2_self_le hn

theorem bitLength_le_of_lt {n k : ℕ} (h : n < 2 ^ k) : bitLength n ≤ k := by
  by_contra hlt
  obtain ⟨j, hj⟩ : ∃ j, bitLength n = j + 1 := ⟨bitLength n - 1, by omega⟩
  have hle : 2 ^ j ≤ n := two_pow_le_of_bitLength hj
  have hpow : 2 ^ k ≤ 2 ^ j := Nat.pow_le_pow_right (by decide) (by omega)
  omega

theorem onesUpTo_zero (k : ℕ) : onesUpTo k 0 = 0 := by
  induction k with
  | zero => rfl
  | succ k ih => simp [onesUpTo, ih]

/-- Bits beyond the highest one do not count. -/
theorem onesUpTo_eq {k j n : ℕ} (hk : n < 2 ^ k) (hj : n < 2 ^ j) :
    onesUpTo k n = onesUpTo j n := by
  induction k generalizing j n with
  | zero =>
    obtain rfl : n = 0 := by omega
    rw [onesUpTo_zero, onesUpTo_zero]
  | succ k ih =>
    cases j with
    | zero =>
      obtain rfl : n = 0 := by omega
      rw [onesUpTo_zero, onesUpTo_zero]
    | succ j =>
      rw [pow_succ] at hk hj
      rw [onesUpTo, onesUpTo, ih (j := j) (by omega) (by omega)]

theorem ones_eq {k n : ℕ} (h : n < 2 ^ k) : ones n = onesUpTo k n :=
  onesUpTo_eq (lt_two_pow_bitLength n) h

@[simp] theorem ones_zero : ones 0 = 0 := rfl

theorem onesUpTo_two_pow_add {k m : ℕ} (h : m < 2 ^ k) :
    onesUpTo (k + 1) (2 ^ k + m) = onesUpTo (k + 1) m + 1 := by
  induction k generalizing m with
  | zero =>
    obtain rfl : m = 0 := by omega
    rfl
  | succ k ih =>
    rw [pow_succ] at h ⊢
    have hmod : (2 ^ k * 2 + m) % 2 = m % 2 := by omega
    have hdiv : (2 ^ k * 2 + m) / 2 = 2 ^ k + m / 2 := by omega
    rw [onesUpTo, hmod, hdiv, ih (by omega)]
    exact (Nat.add_assoc _ _ _).symm

/-- A new highest bit counts one more. -/
theorem ones_two_pow_add {k m : ℕ} (h : m < 2 ^ k) : ones (2 ^ k + m) = ones m + 1 := by
  have hk : 2 ^ (k + 1) = 2 ^ k + 2 ^ k := by rw [pow_succ]; omega
  rw [ones_eq (k := k + 1) (by omega), ones_eq (k := k + 1) (by omega), onesUpTo_two_pow_add h]

theorem onesUpTo_le (k n : ℕ) : onesUpTo k n ≤ n := by
  induction k generalizing n with
  | zero => exact Nat.zero_le n
  | succ k ih =>
    have h := ih (n / 2)
    rw [onesUpTo]
    omega

theorem ones_le (n : ℕ) : ones n ≤ n :=
  onesUpTo_le _ n

/-- A number has at most its digits. -/
theorem ones_le_of_lt {k n : ℕ} (h : n < 2 ^ k) : ones n ≤ k := by
  rw [ones_eq h]
  clear h
  induction k generalizing n with
  | zero => exact le_rfl
  | succ k ih =>
    have hmod := Nat.mod_lt n (show 0 < 2 by decide)
    have := ih (n := n / 2)
    rw [onesUpTo]
    omega

/-- A number with a bit has one. -/
theorem ones_pos {n : ℕ} (h : 0 < n) : 0 < ones n := by
  obtain ⟨k, hk⟩ : ∃ k, bitLength n = k + 1 := by
    refine ⟨bitLength n - 1, ?_⟩
    have : bitLength n ≠ 0 := fun h0 => by
      have := lt_two_pow_bitLength n
      rw [h0] at this
      omega
    omega
  have hle : 2 ^ k ≤ n := two_pow_le_of_bitLength hk
  have hlt : n < 2 ^ (k + 1) := hk ▸ lt_two_pow_bitLength n
  obtain ⟨m, rfl⟩ := Nat.exists_eq_add_of_le hle
  rw [pow_succ] at hlt
  rw [ones_two_pow_add (by omega)]
  omega

/-- Counting on adds at most one bit. -/
theorem onesUpTo_succ_le (k n : ℕ) : onesUpTo k (n + 1) ≤ onesUpTo k n + 1 := by
  induction k generalizing n with
  | zero => exact Nat.zero_le _
  | succ k ih =>
    rw [onesUpTo, onesUpTo]
    rcases Nat.mod_two_eq_zero_or_one n with h | h
    · rw [show (n + 1) / 2 = n / 2 by omega]
      omega
    · rw [show (n + 1) / 2 = n / 2 + 1 by omega]
      have := ih (n / 2)
      omega

theorem ones_succ_le (n : ℕ) : ones (n + 1) ≤ ones n + 1 := by
  have h : n + 1 < 2 ^ (n + 1) := Nat.lt_two_pow_self
  rw [ones_eq h, ones_eq (k := n + 1) (by omega)]
  exact onesUpTo_succ_le _ n

/-! ### The position of a leaf -/

/-- The position of leaf `n`; also the number of nodes over the first `n` leaves. -/
def leafPos (n : ℕ) : ℕ :=
  2 * n - ones n

@[simp] theorem leafPos_zero : leafPos 0 = 0 := rfl

/-- **The recursion on the highest bit**: a complete tree of `2 ^ k` leaves stands in
front of the rest. -/
theorem leafPos_two_pow_add {k m : ℕ} (h : m < 2 ^ k) :
    leafPos (2 ^ k + m) = (2 ^ (k + 1) - 1) + leafPos m := by
  have h1 := ones_le m
  have hk : 2 ^ (k + 1) = 2 ^ k + 2 ^ k := by rw [pow_succ]; omega
  have hpos : 0 < 2 ^ k := Nat.two_pow_pos k
  rw [leafPos, leafPos, ones_two_pow_add h]
  omega

theorem leafPos_two_pow (k : ℕ) : leafPos (2 ^ k) = 2 ^ (k + 1) - 1 := by
  simpa using leafPos_two_pow_add (m := 0) (Nat.two_pow_pos k)

/-- The leaves below `2 ^ k` and their parents fit into a complete tree. -/
theorem leafPos_lt_of_lt {k n : ℕ} (h : n < 2 ^ k) : leafPos n < 2 ^ (k + 1) - 1 := by
  have hk : 2 ^ (k + 1) = 2 ^ k + 2 ^ k := by rw [pow_succ]; omega
  have hpos : 0 < 2 ^ k := Nat.two_pow_pos k
  rw [leafPos]
  rcases Nat.eq_zero_or_pos n with rfl | hn
  · simp only [Nat.mul_zero, ones_zero]
    omega
  · have := ones_pos hn
    omega

theorem leafPos_lt_succ (n : ℕ) : leafPos n < leafPos (n + 1) := by
  have h1 := ones_succ_le n
  have h2 := ones_le n
  rw [leafPos, leafPos]
  omega

theorem leafPos_strictMono : StrictMono leafPos :=
  strictMono_nat_of_lt_succ leafPos_lt_succ

/-- `n` or more nodes stand over `n` leaves. -/
theorem le_leafPos (n : ℕ) : n ≤ leafPos n := by
  have := ones_le n
  rw [leafPos]
  omega

/-! ### Heights -/

/-- The height of position `p` in the complete tree of height `k`. -/
def heightIn : ℕ → ℕ → ℕ
  | 0, _ => 0
  | k + 1, p =>
    if p + 2 = 2 ^ (k + 2) then k + 1
    else if p + 1 < 2 ^ (k + 1) then heightIn k p
    else heightIn k (p + 1 - 2 ^ (k + 1))

/-- The greedy subtraction: the sizes `2 ^ k - 1`, `2 ^ (k - 1) - 1`, …, `1` are
subtracted in turn, each when it fits. -/
def sub : ℕ → ℕ → ℕ
  | 0, p => p
  | k + 1, p => sub k (if 2 ^ (k + 1) - 1 ≤ p then p - (2 ^ (k + 1) - 1) else p)

/-- The root of a complete tree in the subtraction: from the size on, every tree fits
and every step leaves one more. -/
theorem sub_two_pow_add (k m : ℕ) : sub k (2 ^ (k + 1) + m) = m + k + 2 := by
  induction k generalizing m with
  | zero => simp only [sub]; omega
  | succ k ih =>
    have hk := two_pow_add_two k
    have hpos : 0 < 2 ^ (k + 1) := Nat.two_pow_pos _
    rw [sub, if_pos (by omega),
      show 2 ^ (k + 1 + 1) + m - (2 ^ (k + 1) - 1) = 2 ^ (k + 1) + (m + 1) by omega, ih]
    omega

/-- **The subtraction computes heights**: it needs no tree, only the position. -/
theorem sub_eq_heightIn {k p : ℕ} (h : p + 1 < 2 ^ (k + 1)) : sub k p = heightIn k p := by
  induction k generalizing p with
  | zero =>
    simp only [sub, heightIn]
    omega
  | succ k ih =>
    have hk := two_pow_add_two k
    have hpos : 0 < 2 ^ (k + 1) := Nat.two_pow_pos _
    rw [sub, heightIn]
    by_cases hroot : p + 2 = 2 ^ (k + 2)
    · rw [if_pos hroot, if_pos (by omega),
        show p - (2 ^ (k + 1) - 1) = 2 ^ (k + 1) - 1 by omega]
      -- The root: what is left is the size of the next tree, which fits once more.
      cases k with
      | zero => rfl
      | succ k =>
        have hk' := two_pow_add_two k
        have hpos' : 0 < 2 ^ (k + 1) := Nat.two_pow_pos _
        rw [sub, if_pos (by omega),
          show 2 ^ (k + 1 + 1) - 1 - (2 ^ (k + 1) - 1) = 2 ^ (k + 1) + 0 by omega,
          sub_two_pow_add]
        omega
    · rw [if_neg hroot]
      by_cases hleft : p + 1 < 2 ^ (k + 1)
      · rw [if_pos hleft, if_neg (by omega), ih hleft]
      · rw [if_neg hleft, if_pos (by omega),
          show p - (2 ^ (k + 1) - 1) = p + 1 - 2 ^ (k + 1) by omega, ih (by omega)]

/-- A larger tree gives a position the same height. -/
theorem heightIn_succ {k p : ℕ} (h : p + 1 < 2 ^ (k + 1)) :
    heightIn (k + 1) p = heightIn k p := by
  have hk := two_pow_add_two k
  rw [heightIn, if_neg (by omega), if_pos h]

theorem heightIn_eq {k j p : ℕ} (hk : p + 1 < 2 ^ (k + 1)) (hj : p + 1 < 2 ^ (j + 1)) :
    heightIn k p = heightIn j p := by
  rcases Nat.le_total k j with hkj | hkj
  · induction j, hkj using Nat.le_induction with
    | base => rfl
    | succ j hkj ih =>
      have hlt : p + 1 < 2 ^ (j + 1) :=
        lt_of_lt_of_le hk (Nat.pow_le_pow_right (by decide) (by omega))
      rw [heightIn_succ hlt, ← ih hlt]
  · induction k, hkj using Nat.le_induction with
    | base => rfl
    | succ k hkj ih =>
      have hlt : p + 1 < 2 ^ (k + 1) :=
        lt_of_lt_of_le hj (Nat.pow_le_pow_right (by decide) (by omega))
      rw [heightIn_succ hlt, ih hlt]

/-- The height of a position. -/
def height (p : ℕ) : ℕ :=
  sub (bitLength p) p

theorem height_eq {k p : ℕ} (h : p + 1 < 2 ^ (k + 1)) : height p = heightIn k p := by
  have hb : p + 1 < 2 ^ (bitLength p + 1) := by
    have h1 := lt_two_pow_bitLength p
    have h2 : 2 ^ (bitLength p + 1) = 2 ^ bitLength p + 2 ^ bitLength p := by
      rw [pow_succ]; omega
    have h3 : 0 < 2 ^ bitLength p := Nat.two_pow_pos _
    rcases Nat.eq_zero_or_pos p with rfl | hp
    · simp only [bitLength, if_true] at h ⊢
      omega
    · omega
  rw [height, sub_eq_heightIn hb, heightIn_eq hb h]

/-- **The children of a node**: a node of height `h + 1` has its right child just before
it and its left child a complete tree earlier; both have height `h`. -/
theorem heightIn_children {k p h : ℕ} (hp : p + 1 < 2 ^ (k + 1)) (hh : heightIn k p = h + 1) :
    2 ^ (h + 2) ≤ p + 2 ∧ heightIn k (p - 1) = h ∧ heightIn k (p - 2 ^ (h + 1)) = h := by
  induction k generalizing p with
  | zero => cases hh
  | succ k ih =>
    have hk := two_pow_add_two k
    have hpos : 0 < 2 ^ k := Nat.two_pow_pos _
    have hpos' : 0 < 2 ^ h := Nat.two_pow_pos _
    rw [heightIn] at hh
    by_cases hroot : p + 2 = 2 ^ (k + 2)
    · rw [if_pos hroot] at hh
      obtain rfl : k = h := by omega
      refine ⟨by omega, ?_, ?_⟩
      · rw [heightIn, if_neg (by omega), if_neg (by omega)]
        cases k with
        | zero => rfl
        | succ k =>
          have hk' := two_pow_add_two k
          rw [heightIn, if_pos (by omega)]
      · rw [heightIn, if_neg (by omega), if_pos (by omega)]
        cases k with
        | zero => rfl
        | succ k =>
          have hk' := two_pow_add_two k
          rw [heightIn, if_pos (by omega)]
    · rw [if_neg hroot] at hh
      by_cases hleft : p + 1 < 2 ^ (k + 1)
      · rw [if_pos hleft] at hh
        obtain ⟨h1, h2, h3⟩ := ih hleft hh
        exact ⟨h1, by rw [heightIn_succ (by omega), h2], by rw [heightIn_succ (by omega), h3]⟩
      · rw [if_neg hleft] at hh
        obtain ⟨h1, h2, h3⟩ := ih (p := p + 1 - 2 ^ (k + 1)) (by omega) hh
        have hh1 := two_pow_add_two h
        refine ⟨by omega, ?_, ?_⟩
        · rw [heightIn, if_neg (by omega), if_neg (by omega),
            show p - 1 + 1 - 2 ^ (k + 1) = p + 1 - 2 ^ (k + 1) - 1 by omega, h2]
        · rw [heightIn, if_neg (by omega), if_neg (by omega),
            show p - 2 ^ (h + 1) + 1 - 2 ^ (k + 1) = p + 1 - 2 ^ (k + 1) - 2 ^ (h + 1) by omega,
            h3]

theorem height_children {p h : ℕ} (hh : height p = h + 1) :
    2 ^ (h + 2) ≤ p + 2 ∧ height (p - 1) = h ∧ height (p - 2 ^ (h + 1)) = h := by
  have hp : p + 1 < 2 ^ (p + 1 + 1) := by
    have := Nat.lt_two_pow_self (n := p + 1 + 1)
    omega
  have hpos : 0 < 2 ^ h := Nat.two_pow_pos _
  rw [height_eq hp] at hh
  rw [height_eq (k := p + 1) (p := p - 1) (by omega),
    height_eq (k := p + 1) (p := p - 2 ^ (h + 1)) (by omega)]
  exact heightIn_children hp hh

/-! ### From one leaf to the next -/

/-- Below a power of two, the leaf after `2 ^ k + m` stands a complete tree behind the
leaf after `m` – except for the last one, which closes the whole tree. -/
theorem leafPos_succ_two_pow_add {k m : ℕ} (h : m + 1 < 2 ^ k) :
    leafPos (2 ^ k + m + 1) = (2 ^ (k + 1) - 1) + leafPos (m + 1) := by
  rw [Nat.add_assoc, leafPos_two_pow_add h]

/-- The last leaf of a complete tree has one root to close for each level. -/
theorem leafPos_pred_two_pow (k : ℕ) : leafPos (2 ^ k - 1) + k + 1 = 2 ^ (k + 1) - 1 := by
  induction k with
  | zero => rfl
  | succ k ih =>
    have hk := two_pow_add_two k
    have hpos : 0 < 2 ^ k := Nat.two_pow_pos _
    rw [show 2 ^ (k + 1) - 1 = 2 ^ k + (2 ^ k - 1) by omega, leafPos_two_pow_add (by omega)]
    omega

/-- The leaf itself, and the roots it closes: their heights are `0, 1, 2, …`. -/
theorem heightIn_between {k n p : ℕ} (hn : n < 2 ^ k) (h1 : leafPos n ≤ p)
    (h2 : p < leafPos (n + 1)) : heightIn k p = p - leafPos n := by
  induction k generalizing n p with
  | zero =>
    obtain rfl : n = 0 := by omega
    have h3 : leafPos 1 = 1 := rfl
    rw [Nat.zero_add, h3] at h2
    simp only [heightIn, leafPos_zero]
    omega
  | succ k ih =>
    have hk := two_pow_add_two k
    have hpos : 0 < 2 ^ k := Nat.two_pow_pos _
    by_cases hright : n < 2 ^ k
    · -- The leaf is in the left subtree, and the next one at most opens the right one.
      have hle : leafPos (n + 1) ≤ 2 ^ (k + 1) - 1 := by
        rcases Nat.lt_or_ge (n + 1) (2 ^ k) with h3 | h3
        · exact (leafPos_lt_of_lt h3).le
        · rw [show n + 1 = 2 ^ k by omega, leafPos_two_pow]
      rw [heightIn, if_neg (by omega), if_pos (by omega), ih hright h1 h2]
    · obtain ⟨m, rfl⟩ := Nat.exists_eq_add_of_le (Nat.le_of_not_lt hright)
      have hm : m < 2 ^ k := by omega
      have hpm := leafPos_two_pow_add hm
      have hlt := leafPos_lt_of_lt hm
      by_cases hlast : m + 1 < 2 ^ k
      · rw [leafPos_succ_two_pow_add hlast] at h2
        have hlt' := leafPos_lt_of_lt hlast
        rw [heightIn, if_neg (by omega), if_neg (by omega),
          ih (n := m) hm (by omega) (by omega)]
        omega
      · -- The last leaf: after the roots of the right subtree comes the root of the tree.
        have hm1 : m + 1 = 2 ^ k := by omega
        have hclose : leafPos (m + 1) = 2 ^ (k + 1) - 1 := by rw [hm1, leafPos_two_pow]
        have hn1 : leafPos (2 ^ k + m + 1) = 2 ^ (k + 2) - 1 := by
          rw [show 2 ^ k + m + 1 = 2 ^ (k + 1) by omega, leafPos_two_pow]
        have hones : leafPos m + k + 1 = 2 ^ (k + 1) - 1 := by
          have := leafPos_pred_two_pow k
          rw [← hm1] at this
          simpa using this
        rw [hn1] at h2
        by_cases hroot : p + 2 = 2 ^ (k + 2)
        · rw [heightIn, if_pos hroot]
          omega
        · rw [heightIn, if_neg hroot, if_neg (by omega),
            ih (n := m) hm (by omega) (by omega)]
          omega
theorem height_between {n p : ℕ} (h1 : leafPos n ≤ p) (h2 : p < leafPos (n + 1)) :
    height p = p - leafPos n := by
  have hn : n < 2 ^ (p + 1) := lt_of_le_of_lt (le_leafPos n |>.trans h1)
    (Nat.lt_two_pow_self.trans (Nat.pow_lt_pow_right (by decide) (by omega)))
  have hp : p + 1 < 2 ^ (p + 1 + 1) := by
    have := Nat.lt_two_pow_self (n := p + 1 + 1)
    omega
  rw [height_eq hp, heightIn_between hn h1 h2]

/-- A leaf has height zero. -/
theorem height_leafPos (n : ℕ) : height (leafPos n) = 0 := by
  rw [height_between le_rfl (leafPos_lt_succ n), Nat.sub_self]

/-- What comes before a leaf that is not the leaf before it is the root of a tree. -/
theorem height_pos_of_between {n p : ℕ} (h1 : leafPos n < p) (h2 : p < leafPos (n + 1)) :
    0 < height p := by
  rw [height_between h1.le h2]
  omega

/-- The positions in front of a leaf are the earlier leaves and the nodes between them. -/
theorem exists_leafPos_le {n p : ℕ} (h : p < leafPos n) :
    ∃ m < n, leafPos m ≤ p ∧ p < leafPos (m + 1) := by
  induction n with
  | zero => cases h
  | succ n ih =>
    rcases Nat.lt_or_ge p (leafPos n) with hlt | hge
    · obtain ⟨m, hm, h1, h2⟩ := ih hlt
      exact ⟨m, by omega, h1, h2⟩
    · exact ⟨n, by omega, hge, h⟩

/-! ### Peaks -/

/-- The number of leaves in front of a position, by the greedy subtraction. -/
def leafCount : ℕ → ℕ → ℕ
  | 0, _ => 0
  | k + 1, p =>
    if 2 ^ (k + 1) - 1 ≤ p then 2 ^ k + leafCount k (p - (2 ^ (k + 1) - 1)) else leafCount k p

/-- Smaller trees than the first one have fewer leaves together. -/
theorem leafCount_lt (k p : ℕ) : leafCount k p < 2 ^ k := by
  induction k generalizing p with
  | zero => exact Nat.one_pos
  | succ k ih =>
    have h1 := ih p
    have h2 := ih (p - (2 ^ (k + 1) - 1))
    have hdouble : 2 ^ (k + 1) = 2 * 2 ^ k := pow_succ' 2 k
    rw [leafCount]
    split <;> omega

/-- The roots of the trees that the greedy subtraction takes off, the first tree starting
at position `start`. -/
def peaksFrom : ℕ → ℕ → ℕ → List ℕ
  | 0, _, _ => []
  | k + 1, start, p =>
    if 2 ^ (k + 1) - 1 ≤ p then
      (start + (2 ^ (k + 1) - 1) - 1) ::
        peaksFrom k (start + (2 ^ (k + 1) - 1)) (p - (2 ^ (k + 1) - 1))
    else peaksFrom k start p

/-- **The greedy subtraction of a size**: over the first `n` leaves nothing is left, and the
leaves are counted. -/
theorem sub_leafPos {k n : ℕ} (h : n < 2 ^ k) :
    sub k (leafPos n) = 0 ∧ leafCount k (leafPos n) = n := by
  induction k generalizing n with
  | zero =>
    obtain rfl : n = 0 := by omega
    exact ⟨rfl, rfl⟩
  | succ k ih =>
    have hpos : 0 < 2 ^ k := Nat.two_pow_pos _
    by_cases hn : n < 2 ^ k
    · have hlt := leafPos_lt_of_lt hn
      rw [sub, if_neg (by omega), leafCount, if_neg (by omega)]
      exact ih hn
    · obtain ⟨m, rfl⟩ := Nat.exists_eq_add_of_le (Nat.le_of_not_lt hn)
      have hm : m < 2 ^ k := by omega
      obtain ⟨h1, h2⟩ := ih hm
      rw [leafPos_two_pow_add hm, sub, if_pos (by omega), leafCount, if_pos (by omega),
        Nat.add_sub_cancel_left, h1, h2]
      exact ⟨rfl, rfl⟩

/-- The greedy subtraction of any number: the leaves of the last size that fits are counted,
and what lies behind it is left. -/
theorem sub_between {k n p : ℕ} (h : n < 2 ^ k) (h1 : leafPos n ≤ p)
    (h2 : n + 1 < 2 ^ k → p < leafPos (n + 1)) : sub k p = p - leafPos n ∧ leafCount k p = n := by
  induction k generalizing n p with
  | zero =>
    obtain rfl : n = 0 := by omega
    exact ⟨rfl, rfl⟩
  | succ k ih =>
    have hpos : 0 < 2 ^ k := Nat.two_pow_pos _
    have hdouble : 2 ^ (k + 1) = 2 * 2 ^ k := by rw [pow_succ, Nat.mul_comm]
    by_cases hn : n < 2 ^ k
    · have hlt := h2 (by omega)
      have hle : leafPos (n + 1) ≤ 2 ^ (k + 1) - 1 := by
        rw [← leafPos_two_pow]
        exact leafPos_strictMono.monotone hn
      rw [sub, if_neg (by omega), leafCount, if_neg (by omega)]
      exact ih hn h1 fun _ => hlt
    · obtain ⟨m, rfl⟩ := Nat.exists_eq_add_of_le (Nat.le_of_not_lt hn)
      have hm : m < 2 ^ k := by omega
      rw [leafPos_two_pow_add hm] at h1
      have hrest : m + 1 < 2 ^ k → p - (2 ^ (k + 1) - 1) < leafPos (m + 1) := by
        intro hm1
        have hlt := h2 (by omega)
        rw [Nat.add_assoc, leafPos_two_pow_add hm1] at hlt
        omega
      obtain ⟨hsub, hcount⟩ := ih hm (by omega) hrest
      rw [sub, if_pos (by omega), leafCount, if_pos (by omega), hsub, hcount,
        leafPos_two_pow_add hm]
      exact ⟨by omega, rfl⟩

theorem peaksFrom_add (k a start p : ℕ) :
    peaksFrom k (a + start) p = (peaksFrom k start p).map (a + ·) := by
  induction k generalizing start p with
  | zero => rfl
  | succ k ih =>
    have hpos : 0 < 2 ^ k := Nat.two_pow_pos _
    rw [peaksFrom, peaksFrom]
    split
    · rw [List.map_cons, ← ih, Nat.add_assoc]
      congr 1
      omega
    · exact ih start p

/-- Trees that do not fit give no peak. -/
theorem peaksFrom_succ {k start p : ℕ} (h : p < 2 ^ (k + 1) - 1) :
    peaksFrom (k + 1) start p = peaksFrom k start p := by
  rw [peaksFrom, if_neg (by omega)]

/-- The peaks stand where the trees do, in order. -/
theorem peaksFrom_bounds {k start p q : ℕ} (h : q ∈ peaksFrom k start p) :
    start ≤ q ∧ q < start + p := by
  induction k generalizing start p with
  | zero => cases h
  | succ k ih =>
    have hpos : 0 < 2 ^ k := Nat.two_pow_pos _
    rw [peaksFrom] at h
    split at h
    · rcases List.mem_cons.mp h with rfl | h
      · omega
      · have := ih h
        omega
    · exact ih h

/-- The peaks are listed in order. -/
theorem peaksFrom_pairwise (k start p : ℕ) : (peaksFrom k start p).Pairwise (· < ·) := by
  induction k generalizing start p with
  | zero => exact List.Pairwise.nil
  | succ k ih =>
    have hpos : 0 < 2 ^ k := Nat.two_pow_pos _
    rw [peaksFrom]
    split
    · refine List.pairwise_cons.mpr ⟨fun q h => ?_, ih _ _⟩
      have := (peaksFrom_bounds h).1
      omega
    · exact ih start p

theorem peaksFrom_nodup (k start p : ℕ) : (peaksFrom k start p).Nodup :=
  (peaksFrom_pairwise k start p).imp fun h => h.ne

/-- Position `r` stands in the tree under position `q`. -/
def Under (r q : ℕ) : Prop :=
  q + 2 ≤ r + 2 ^ (height q + 1) ∧ r ≤ q

/-- A tree behind a complete tree that is at least as large keeps its heights. -/
theorem height_add {k p : ℕ} (h : p + 1 < 2 ^ (k + 1)) :
    height (2 ^ (k + 1) - 1 + p) = height p := by
  have hk := two_pow_add_two k
  have hpos : 0 < 2 ^ k := Nat.two_pow_pos _
  rw [height_eq (k := k + 1) (by omega), height_eq h, heightIn, if_neg (by omega),
    if_neg (by omega), show 2 ^ (k + 1) - 1 + p + 1 - 2 ^ (k + 1) = p by omega]

theorem height_root (k : ℕ) : height (2 ^ (k + 1) - 2) = k := by
  have hpos : 0 < 2 ^ k := Nat.two_pow_pos _
  rw [height_eq (k := k) (by omega)]
  cases k with
  | zero => rfl
  | succ k =>
    have hk := two_pow_add_two k
    rw [heightIn, if_pos (by omega)]

/-- **The peaks cover the range**: every position over the first `n` leaves stands under
a peak. -/
theorem exists_peak {k n r : ℕ} (hn : n < 2 ^ k) (hr : r < leafPos n) :
    ∃ q ∈ peaksFrom k 0 (leafPos n), q < leafPos n ∧ Under r q := by
  induction k generalizing n r with
  | zero =>
    obtain rfl : n = 0 := by omega
    cases hr
  | succ k ih =>
    have hpos : 0 < 2 ^ k := Nat.two_pow_pos _
    by_cases hlow : n < 2 ^ k
    · rw [peaksFrom_succ (leafPos_lt_of_lt hlow)]
      exact ih hlow hr
    · obtain ⟨m, rfl⟩ := Nat.exists_eq_add_of_le (Nat.le_of_not_lt hlow)
      have hm : m < 2 ^ k := by omega
      have hlt := leafPos_lt_of_lt hm
      rw [leafPos_two_pow_add hm] at hr ⊢
      rw [peaksFrom, if_pos (by omega), Nat.add_sub_cancel_left, Nat.zero_add]
      by_cases htree : r < 2 ^ (k + 1) - 1
      · refine ⟨2 ^ (k + 1) - 1 - 1, List.mem_cons_self .., by omega, ?_⟩
        rw [show 2 ^ (k + 1) - 1 - 1 = 2 ^ (k + 1) - 2 by omega, Under, height_root]
        omega
      · -- The rest is the range of the remaining leaves, a complete tree further on.
        obtain ⟨q, hq, hqlt, hu1, hu2⟩ := ih hm (r := r - (2 ^ (k + 1) - 1)) (by omega)
        refine ⟨2 ^ (k + 1) - 1 + q, List.mem_cons_of_mem _ ?_, by omega, ?_⟩
        · have := peaksFrom_add k (2 ^ (k + 1) - 1) 0 (leafPos m)
          rw [Nat.add_zero] at this
          rw [this]
          exact List.mem_map_of_mem hq
        · rw [Under, height_add (by omega)]
          omega

/-! ### Trees within trees -/

/-- A tree begins at a position that exists. -/
theorem two_pow_height_le (p : ℕ) : 2 ^ (height p + 1) ≤ p + 2 := by
  cases h : height p with
  | zero =>
    rw [Nat.zero_add, pow_one]
    omega
  | succ k => exact (height_children h).1

/-- **Trees are nested or apart**: the tree under a position of a tree begins within. -/
theorem Under.start_le {p q : ℕ} (h : Under p q) :
    q + 2 ^ (height p + 1) ≤ p + 2 ^ (height q + 1) := by
  have key : ∀ k p q : ℕ, p + 1 < 2 ^ (k + 1) → q + 1 < 2 ^ (k + 1) → Under p q →
      q + 2 ^ (height p + 1) ≤ p + 2 ^ (height q + 1) := by
    intro k
    induction k with
    | zero =>
      intro p q hp hq _
      obtain rfl : p = 0 := by omega
      obtain rfl : q = 0 := by omega
      exact le_rfl
    | succ k ih =>
      intro p q hp hq hu
      have hk := two_pow_add_two k
      have hk' : 2 ^ (k + 1) = 2 * 2 ^ k := pow_succ' 2 k
      have hpos : 0 < 2 ^ k := Nat.two_pow_pos _
      by_cases hroot : q = 2 ^ (k + 2) - 2
      · -- all is under the root
        have hheight := two_pow_height_le p
        rw [hroot, height_root (k + 1), show k + 1 + 1 = k + 2 from rfl]
        omega
      · by_cases hleft : q + 1 < 2 ^ (k + 1)
        · exact ih p q (by have := hu.2; omega) hleft hu
        · -- the right half is a tree of its own
          obtain ⟨q', rfl⟩ := Nat.exists_eq_add_of_le
            (show 2 ^ (k + 1) - 1 ≤ q by omega)
          have hq' : q' + 1 < 2 ^ (k + 1) := by omega
          have hheight := two_pow_height_le q'
          obtain ⟨h1, h2⟩ := hu
          rw [height_add hq'] at h1 ⊢
          obtain ⟨p', rfl⟩ := Nat.exists_eq_add_of_le
            (show 2 ^ (k + 1) - 1 ≤ p by omega)
          rw [height_add (by omega)]
          have hsub := ih p' q' (by omega) hq' ⟨by omega, by omega⟩
          omega
  have hlt := Nat.lt_two_pow_self (n := q + 1 + 1)
  exact key (q + 1) p q (by have := h.2; omega) (by omega) h

/-- The tree under a left child is under no position before the parent but the child. -/
theorem Under.eq_of_left_child {p r k : ℕ} (hp : height p = k + 1) (hr : r < p)
    (h : Under (p - 2 ^ (k + 1)) r) : r = p - 2 ^ (k + 1) := by
  obtain ⟨hle, -, hheight⟩ := height_children hp
  have hk := two_pow_add_two k
  have hk' : 2 ^ (k + 1) = 2 * 2 ^ k := pow_succ' 2 k
  have hpos : 0 < 2 ^ k := Nat.two_pow_pos _
  have hstart := h.start_le
  rw [hheight] at hstart
  obtain ⟨-, hle'⟩ := h
  -- it begins where the tree of the parent begins, so its height is in between
  have hunder : Under r p := ⟨by rw [hp, show k + 1 + 1 = k + 2 from rfl]; omega, hr.le⟩
  have hstart' := hunder.start_le
  rw [hp, show k + 1 + 1 = k + 2 from rfl] at hstart'
  have heq : r + 2 ^ (k + 1) = p - 2 ^ (k + 1) + 2 ^ (height r + 1) := by omega
  rcases Nat.lt_or_ge (height r) (k + 1) with hlt | hge
  · rcases Nat.lt_or_ge (height r) k with hlt' | hge'
    · have := Nat.pow_le_pow_right (n := 2) (by decide) (show height r + 1 ≤ k by omega)
      omega
    · rw [show height r = k by omega] at heq
      omega
  · have := Nat.pow_le_pow_right (n := 2) (by decide) (show k + 2 ≤ height r + 1 by omega)
    omega

/-- No peak is under another one. -/
theorem eq_of_under_of_mem_peaksFrom {k n q r : ℕ} (hn : n < 2 ^ k)
    (hq : q ∈ peaksFrom k 0 (leafPos n)) (hr : r ∈ peaksFrom k 0 (leafPos n)) (h : Under q r) :
    q = r := by
  induction k generalizing n q r with
  | zero =>
    obtain rfl : n = 0 := by omega
    cases hq
  | succ k ih =>
    by_cases hlow : n < 2 ^ k
    · rw [peaksFrom_succ (leafPos_lt_of_lt hlow)] at hq hr
      exact ih hlow hq hr h
    · obtain ⟨m, rfl⟩ := Nat.exists_eq_add_of_le (Nat.le_of_not_lt hlow)
      have hm : m < 2 ^ k := by omega
      have hlt := leafPos_lt_of_lt hm
      have hpos : 0 < 2 ^ k := Nat.two_pow_pos _
      have hk' : 2 ^ (k + 1) = 2 * 2 ^ k := pow_succ' 2 k
      rw [leafPos_two_pow_add hm, peaksFrom, if_pos (by omega), Nat.add_sub_cancel_left,
        Nat.zero_add] at hq hr
      have hshift := peaksFrom_add k (2 ^ (k + 1) - 1) 0 (leafPos m)
      rw [Nat.add_zero] at hshift
      rw [hshift] at hq hr
      have hback : ∀ {p : ℕ}, p ∈ (peaksFrom k 0 (leafPos m)).map (2 ^ (k + 1) - 1 + ·) →
          ∃ p', p = 2 ^ (k + 1) - 1 + p' ∧ p' ∈ peaksFrom k 0 (leafPos m) ∧
            p' + 1 < 2 ^ (k + 1) := by
        intro p hp
        obtain ⟨p', hp', rfl⟩ := List.mem_map.1 hp
        have := (peaksFrom_bounds hp').2
        exact ⟨p', rfl, hp', by omega⟩
      obtain ⟨h1, h2⟩ := h
      rcases List.mem_cons.1 hq with rfl | hq
      · rcases List.mem_cons.1 hr with rfl | hr
        · rfl
        · obtain ⟨r', rfl, hr', hlt'⟩ := hback hr
          rw [height_add hlt'] at h1
          have := two_pow_height_le r'
          omega
      · obtain ⟨q', rfl, hq', hltq⟩ := hback hq
        rcases List.mem_cons.1 hr with rfl | hr
        · omega
        · obtain ⟨r', rfl, hr', hltr⟩ := hback hr
          rw [height_add hltr] at h1
          rw [ih hm hq' hr' ⟨by omega, by omega⟩]

/-- **The trees of the peaks are apart.** -/
theorem eq_of_under_peaks {k n q q' r : ℕ} (hn : n < 2 ^ k) (hq : q ∈ peaksFrom k 0 (leafPos n))
    (hq' : q' ∈ peaksFrom k 0 (leafPos n)) (h : Under r q) (h' : Under r q') : q = q' := by
  obtain ⟨h1, h2⟩ := h
  obtain ⟨h1', h2'⟩ := h'
  rcases Nat.le_total q q' with hle | hle
  · exact eq_of_under_of_mem_peaksFrom hn hq hq' ⟨by omega, hle⟩
  · exact (eq_of_under_of_mem_peaksFrom hn hq' hq ⟨by omega, hle⟩).symm

/-- **A peak is under nothing but itself.** -/
theorem eq_of_under_peak {k n q r : ℕ} (hn : n < 2 ^ k) (hq : q ∈ peaksFrom k 0 (leafPos n))
    (hr : r < leafPos n) (h : Under q r) : r = q := by
  obtain ⟨peak, hpeak, -, hunder⟩ := exists_peak hn hr
  have hstart := hunder.start_le
  obtain ⟨h1, h2⟩ := h
  have htop : Under q peak := ⟨by omega, h2.trans hunder.2⟩
  have heq := eq_of_under_of_mem_peaksFrom hn hq hpeak htop
  have := hunder.2
  omega

end PostOrder
