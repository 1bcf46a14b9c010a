import GrinPlusPlus.Lib.Mountain
import Mathlib.Data.List.Forall2
import Mathlib.Data.Nat.Digits.Defs
import Mathlib.Tactic.Ring

/-!
# The recursive definition of a mountain range

A mountain range over some leaves is, by definition, a row of complete trees, the larger ones in
front, one for each bit of the number of leaves. Nothing of this appears in the local conditions of
`Mountain.IsRange`, which is how a file that grows leaf by leaf is described. This module is the
bridge:

* `Mountain.treeRoot` and `Mountain.peakRoots` – the hash of a complete tree by **recursion on its
  height**, and the hashes of the trees of a range by recursion on the bits;
* `Mountain.IsRange.tree` and `Mountain.IsRange.peaks` – a closed range has these hashes where the
  greedy subtraction looks for them;
* `Mountain.bagPeaks` – the root from the last peak to the first, without a case for empty hashes,
  and `Mountain.bag_eq_bagPeaks`: when no hash is empty, that case makes no difference.

What the bridge rests on is where a complete tree stands: behind a multiple of its number of
leaves (`PostOrder.leafPos_mul_add`).
-/

namespace PostOrder

/-! ### Multiples of powers of two -/

/-- The bits are the binary digits that are not zero. -/
theorem ones_eq_sum_digits (n : ℕ) : ones n = (Nat.digits 2 n).sum := by
  have h : ∀ k n, n < 2 ^ k → onesUpTo k n = (Nat.digits 2 n).sum := by
    intro k
    induction k with
    | zero =>
      intro n hn
      obtain rfl : n = 0 := by omega
      simp [onesUpTo]
    | succ k ih =>
      intro n hn
      rcases Nat.eq_zero_or_pos n with rfl | hpos
      · rw [onesUpTo_zero]
        simp
      · rw [pow_succ] at hn
        rw [onesUpTo, ih _ (by omega), Nat.digits_def' (by decide) hpos, List.sum_cons]
  exact h _ n (lt_two_pow_bitLength n)

/-- The bits of a multiple of `2 ^ k` stand above those of what is added to it. -/
theorem ones_mul_add (k a : ℕ) {j : ℕ} (hj : j < 2 ^ k) :
    ones (2 ^ k * a + j) = ones a + ones j := by
  induction a using Nat.strong_induction_on with
  | _ a ih =>
    rcases Nat.eq_zero_or_pos a with rfl | hpos
    · simp
    · -- the highest bit of `a` is the highest bit of the sum
      obtain ⟨e, he⟩ : ∃ e, bitLength a = e + 1 := by
        refine ⟨bitLength a - 1, ?_⟩
        have hne : bitLength a ≠ 0 := fun h0 => by
          have := lt_two_pow_bitLength a
          rw [h0] at this
          omega
        omega
      have hle : 2 ^ e ≤ a := two_pow_le_of_bitLength he
      have hlt : a < 2 ^ (e + 1) := he ▸ lt_two_pow_bitLength a
      obtain ⟨b, rfl⟩ := Nat.exists_eq_add_of_le hle
      have hb : b < 2 ^ e := by
        rw [pow_succ] at hlt
        omega
      have hsum : 2 ^ k * b + j < 2 ^ (k + e) :=
        calc 2 ^ k * b + j < 2 ^ k * b + 2 ^ k := Nat.add_lt_add_left hj _
          _ = 2 ^ k * (b + 1) := by ring
          _ ≤ 2 ^ k * 2 ^ e := Nat.mul_le_mul_left _ hb
          _ = 2 ^ (k + e) := (pow_add 2 k e).symm
      have hpow : 2 ^ k * (2 ^ e + b) + j = 2 ^ (k + e) + (2 ^ k * b + j) := by
        rw [pow_add]
        ring
      have hpos' := Nat.two_pow_pos e
      rw [hpow, ones_two_pow_add hsum, ones_two_pow_add hb, ih b (by omega)]
      omega

/-- **Behind a multiple of `2 ^ k`, fewer leaves than that stand as they do at the front.** -/
theorem leafPos_mul_add (k a : ℕ) {j : ℕ} (hj : j < 2 ^ k) :
    leafPos (2 ^ k * a + j) = leafPos (2 ^ k * a) + leafPos j := by
  have hzero := ones_mul_add k a (Nat.two_pow_pos k)
  have hone := ones_mul_add k a hj
  rw [Nat.add_zero, ones_zero, Nat.add_zero] at hzero
  have hle : ones a ≤ 2 ^ k * a :=
    (ones_le a).trans (Nat.le_mul_of_pos_left a (Nat.two_pow_pos k))
  have hle' := ones_le j
  rw [leafPos, leafPos, leafPos, hone, hzero]
  omega

/-- The two halves of a complete tree. -/
theorem leafPos_half (k a : ℕ) :
    leafPos (2 ^ k * (2 * a + 1)) = leafPos (2 ^ (k + 1) * a) + (2 ^ (k + 1) - 1) := by
  have hj : 2 ^ k < 2 ^ (k + 1) := Nat.pow_lt_pow_right (by decide) (Nat.lt_succ_self k)
  rw [← leafPos_two_pow, ← leafPos_mul_add (k + 1) a hj]
  congr 1
  ring

/-- There is room for a complete tree in front of the next multiple. -/
theorem leafPos_add_le (k a : ℕ) :
    leafPos (2 ^ k * a) + (2 ^ (k + 1) - 1) ≤ leafPos (2 ^ k * (a + 1)) := by
  have hpos := Nat.two_pow_pos k
  have htwo : 2 ^ (k + 1) = 2 * 2 ^ k := by rw [pow_succ, Nat.mul_comm]
  have hzero := ones_mul_add k a hpos
  have hzero' := ones_mul_add k (a + 1) hpos
  have hsucc := ones_succ_le a
  rw [Nat.add_zero, ones_zero, Nat.add_zero] at hzero hzero'
  have hle : ones a ≤ 2 ^ k * a := (ones_le a).trans (Nat.le_mul_of_pos_left a hpos)
  have hmul : 2 ^ k * (a + 1) = 2 ^ k * a + 2 ^ k := by ring
  rw [leafPos, leafPos, hzero, hzero']
  omega

/-- **Where the root of a complete tree stands.** -/
theorem height_treeRoot (k a : ℕ) : height (leafPos (2 ^ k * a) + (2 ^ (k + 1) - 2)) = k := by
  have hpos := Nat.two_pow_pos k
  have htwo : 2 ^ (k + 1) = 2 * 2 ^ k := by rw [pow_succ, Nat.mul_comm]
  have hlast : leafPos (2 ^ k * a + (2 ^ k - 1)) = leafPos (2 ^ k * a) + leafPos (2 ^ k - 1) :=
    leafPos_mul_add k a (by omega)
  have hpred := leafPos_pred_two_pow k
  have hnext := leafPos_add_le k a
  rw [show 2 ^ k * (a + 1) = 2 ^ k * a + (2 ^ k - 1) + 1 by rw [Nat.mul_succ]; omega] at hnext
  rw [height_between (n := 2 ^ k * a + (2 ^ k - 1)) (by omega) (by omega)]
  omega

end PostOrder

namespace Mountain

open PostOrder

variable {L H : Type}

/-! ### Complete trees and the peaks -/

section Recursion

variable (hash : ℕ → Payload L H → H)

/-- The hash of a complete tree of height `k` whose nodes begin at position `start`. -/
def treeRoot : ℕ → ℕ → List L → Option H
  | 0, start, ls => ls.head?.map fun l => hash start (.inl l)
  | k + 1, start, ls => do
    let left ← treeRoot k start (ls.take (2 ^ k))
    let right ← treeRoot k (start + (2 ^ (k + 1) - 1)) (ls.drop (2 ^ k))
    some (hash (start + (2 ^ (k + 2) - 2)) (.inr (left, right)))

/-- The hashes of the trees of a range with fewer than `2 ^ k` leaves, the larger ones in front. -/
def peakRoots : ℕ → ℕ → List L → Option (List H)
  | 0, _, _ => some []
  | k + 1, start, ls =>
    if 2 ^ k ≤ ls.length then do
      let peak ← treeRoot hash k start (ls.take (2 ^ k))
      let peaks ← peakRoots k (start + (2 ^ (k + 1) - 1)) (ls.drop (2 ^ k))
      some (peak :: peaks)
    else peakRoots k start ls

/-- The root over the peaks, from the last to the first. -/
def bagPeaks (zero : H) (size : ℕ) : List H → H
  | [] => zero
  | [peak] => peak
  | peak :: next :: peaks => hash size (.inr (peak, bagPeaks zero size (next :: peaks)))

/-- **The root of a range, by definition.** -/
def rangeRoot (zero : H) (ls : List L) : Option H :=
  (peakRoots hash (bitLength ls.length) 0 ls).map (bagPeaks hash zero (leafPos ls.length))

end Recursion

variable {hash : ℕ → Payload L H → H} {file : List H} {ls : List L}

/-- **A complete tree of a range**: its hash stands in the file, at its root. -/
theorem IsRange.tree (h : IsRange hash file ls) {k a : ℕ}
    (hle : 2 ^ k * a + 2 ^ k ≤ ls.length) :
    ∃ r, treeRoot hash k (leafPos (2 ^ k * a)) ((ls.drop (2 ^ k * a)).take (2 ^ k)) = some r ∧
      file[leafPos (2 ^ k * a) + (2 ^ (k + 1) - 2)]? = some r := by
  induction k generalizing a with
  | zero =>
    have hlt : 2 ^ 0 * a < ls.length := by omega
    have hleaf := h.leaf _ _ (List.getElem?_eq_getElem hlt)
    have hhead : ((ls.drop (2 ^ 0 * a)).take (2 ^ 0)).head? = some (ls[2 ^ 0 * a]) := by
      rw [List.head?_take, if_neg (by decide), List.head?_drop, List.getElem?_eq_getElem hlt]
    refine ⟨_, ?_, hleaf⟩
    rw [treeRoot, hhead, Option.map_some]
  | succ k ih =>
    have hpos := Nat.two_pow_pos k
    have htwo : 2 ^ (k + 1) = 2 * 2 ^ k := by rw [pow_succ, Nat.mul_comm]
    have hfour : 2 ^ (k + 1 + 1) = 4 * 2 ^ k := two_pow_add_two k
    have hleft : 2 ^ k * (2 * a) = 2 ^ (k + 1) * a := by ring
    have hright : 2 ^ k * (2 * a + 1) = 2 ^ (k + 1) * a + 2 ^ k := by ring
    obtain ⟨left, hl, hlfile⟩ := ih (a := 2 * a) (by omega)
    obtain ⟨right, hr, hrfile⟩ := ih (a := 2 * a + 1) (by omega)
    rw [hleft] at hl hlfile
    rw [leafPos_half] at hr hrfile
    rw [hright] at hr
    refine ⟨hash (leafPos (2 ^ (k + 1) * a) + (2 ^ (k + 1 + 1) - 2)) (.inr (left, right)), ?_, ?_⟩
    · rw [treeRoot, List.take_take, Nat.min_eq_left (by omega), hl, List.drop_take,
        List.drop_drop, show 2 ^ (k + 1) - 2 ^ k = 2 ^ k by omega, hr]
      rfl
    · have hheight := height_treeRoot (k + 1) a
      have hroom := leafPos_add_le (k + 1) a
      have hend : leafPos (2 ^ (k + 1) * (a + 1)) ≤ file.length := by
        rw [h.length_eq, Nat.mul_succ]
        exact leafPos_strictMono.monotone hle
      have hlt : leafPos (2 ^ (k + 1) * a) + (2 ^ (k + 1 + 1) - 2) < file.length := by omega
      refine h.parent _ k hlt hheight left right ?_ ?_
      · rw [← hlfile]
        congr 1
        omega
      · rw [← hrfile]
        congr 1
        omega

/-- **The peaks of a range**: where the greedy subtraction looks for them, the file has the hashes
of the trees. -/
theorem IsRange.peaks (h : IsRange hash file ls) {k a n : ℕ} (hn : n < 2 ^ k)
    (hlength : ls.length = 2 ^ k * a + n) :
    ∃ rs, peakRoots hash k (leafPos (2 ^ k * a)) (ls.drop (2 ^ k * a)) = some rs ∧
      List.Forall₂ (fun p r => file[p]? = some r)
        (peaksFrom k (leafPos (2 ^ k * a)) (leafPos n)) rs := by
  induction k generalizing a n with
  | zero => exact ⟨[], rfl, List.Forall₂.nil⟩
  | succ k ih =>
    have hpos := Nat.two_pow_pos k
    have htwo : 2 ^ (k + 1) = 2 * 2 ^ k := by rw [pow_succ, Nat.mul_comm]
    have hleft : 2 ^ k * (2 * a) = 2 ^ (k + 1) * a := by ring
    have hright : 2 ^ k * (2 * a + 1) = 2 ^ (k + 1) * a + 2 ^ k := by ring
    have hrest : (ls.drop (2 ^ (k + 1) * a)).length = n := by
      rw [List.length_drop]
      omega
    by_cases hsmall : n < 2 ^ k
    · -- no tree of this height
      have hpeaks := ih (a := 2 * a) hsmall (by omega)
      rw [hleft] at hpeaks
      rwa [peakRoots, if_neg (by omega), peaksFrom_succ (leafPos_lt_of_lt hsmall)]
    · obtain ⟨m, rfl⟩ := Nat.exists_eq_add_of_le (Nat.le_of_not_lt hsmall)
      have hm : m < 2 ^ k := by omega
      obtain ⟨r, htree, hfile⟩ := h.tree (k := k) (a := 2 * a) (by omega)
      obtain ⟨rs, hpeaks, hall⟩ := ih (a := 2 * a + 1) hm (by omega)
      rw [hleft] at htree hfile
      rw [leafPos_half, hright] at hpeaks
      rw [leafPos_half] at hall
      refine ⟨r :: rs, ?_, ?_⟩
      · rw [peakRoots, if_pos (by omega), htree, List.drop_drop, hpeaks]
        rfl
      · rw [leafPos_two_pow_add hm, peaksFrom, if_pos (by omega), Nat.add_sub_cancel_left]
        refine List.Forall₂.cons ?_ hall
        rw [← hfile]
        congr 1
        omega

/-- More bits than there are make no difference. -/
theorem peakRoots_eq {k j start : ℕ} (hk : ls.length < 2 ^ k) (hkj : k ≤ j) :
    peakRoots hash j start ls = peakRoots hash k start ls := by
  induction j, hkj using Nat.le_induction with
  | base => rfl
  | succ j hkj ih =>
    have hlt : ls.length < 2 ^ j := lt_of_lt_of_le hk (Nat.pow_le_pow_right (by decide) hkj)
    rw [peakRoots, if_neg (by omega), ih]

/-! ### The root -/

section Root

variable [DecidableEq H] {zero : H} {size : ℕ}

/-- When no hash is empty, the case for empty hashes makes no difference. -/
theorem bag_eq_bagPeaks (hzero : ∀ x y, hash size (.inr (x, y)) ≠ zero) {as : List H}
    (has : ∀ a ∈ as, a ≠ zero) : bag hash zero size as = bagPeaks hash zero size as := by
  have hne : ∀ bs : List H, (∀ b ∈ bs, b ≠ zero) → bs ≠ [] → bag hash zero size bs ≠ zero := by
    intro bs hbs hbs'
    cases bs with
    | nil => exact absurd rfl hbs'
    | cons b bs =>
      rw [bag, if_neg (hbs b List.mem_cons_self)]
      split_ifs
      · exact hbs b List.mem_cons_self
      · exact hzero _ _
  induction as with
  | nil => rfl
  | cons a as ih =>
    obtain ⟨ha, has⟩ := List.forall_mem_cons.1 has
    rw [bag, if_neg ha, ih has]
    cases as with
    | nil => rw [bagPeaks, if_pos rfl, bagPeaks]
    | cons b bs =>
      have hrest := hne _ has (List.cons_ne_nil b bs)
      rw [ih has] at hrest
      rw [if_neg hrest, bagPeaks]

/-- **The root over the peaks of a closed range is the root by definition.** -/
theorem IsRange.root (h : IsRange hash file ls) (hzero : ∀ p x, hash p x ≠ zero) {k : ℕ}
    (hk : ls.length < 2 ^ k) {peaks : List H}
    (hpeaks : List.Forall₂ (fun p r => file[p]? = some r) (peaksFrom k 0 (leafPos ls.length))
      peaks) :
    rangeRoot hash zero ls = some (bag hash zero (leafPos ls.length) peaks) := by
  have hbits : peakRoots hash (bitLength ls.length) 0 ls = peakRoots hash k 0 ls := by
    rcases Nat.le_total (bitLength ls.length) k with hle | hle
    · exact (peakRoots_eq (lt_two_pow_bitLength _) hle).symm
    · exact peakRoots_eq hk hle
  have hroots := h.peaks (a := 0) hk (by omega)
  rw [Nat.mul_zero, leafPos_zero, List.drop_zero] at hroots
  obtain ⟨rs, hrs, hall⟩ := hroots
  have hunique : Relator.RightUnique fun (p : ℕ) (r : H) => file[p]? = some r :=
    fun _ _ _ hb hc => Option.some.inj (hb.symm.trans hc)
  obtain rfl : rs = peaks := List.right_unique_forall₂' hunique hall hpeaks
  have hnonzero : ∀ r ∈ rs, r ≠ zero := by
    intro r hr
    obtain ⟨i, hi, rfl⟩ := List.getElem_of_mem hr
    obtain ⟨x, hx⟩ := h.tagged (List.Forall₂.get hall (by rw [hall.length_eq]; exact hi) hi)
    rw [List.get_eq_getElem] at hx
    rw [hx]
    exact hzero _ _
  rw [rangeRoot, hbits, hrs, Option.map_some, bag_eq_bagPeaks (fun x y => hzero _ _) hnonzero]

end Root

end Mountain
