import Mathlib.Algebra.Order.Ring.Nat
import Mathlib.Data.List.DropRight
import Mathlib.Data.Nat.Digits.Lemmas
import Mathlib.Tactic.Ring

/-!
# Changing the base of a number, digit by digit

A number comes in digit by digit, the most significant one first, and is kept in another base in
a buffer of a fixed size: each digit that comes in multiplies the buffer by the one base and is
added to it, carrying in the other. Only the digits that were written so far, and those the carry
reaches, are touched.

* `Digits.Holds` – what the buffer holds between two digits; `Digits.holds_push` – it is kept, as
  long as the number fits;
* `Digits.significant_of_holds` – the digits of the buffer without the zeros in front of them are
  the digits of the number in the sense of `Nat.digits`;
* `Digits.reverse_digits_ofDigits` – what there was, read in its own base, **without its leading
  zeros**: this is all that changing the base and changing it back keeps.
-/

namespace Digits

section Buffer

variable (B m : ℕ)

/-- The buffer, its least significant digit first, times `m` plus a carry: the digits after it,
and how many of them were touched. The pass goes on while there is a carry or a digit that was
written before. -/
def mulAdd : ℕ → ℕ → List ℕ → List ℕ × ℕ
  | _, _, [] => ([], 0)
  | carry, length, d :: ds =>
    if carry ≠ 0 ∨ 0 < length then
      let rest := mulAdd ((carry + m * d) / B) (length - 1) ds
      ((carry + m * d) % B :: rest.1, rest.2 + 1)
    else (d :: ds, 0)

/-- A digit comes in. -/
def push (buffer : List ℕ × ℕ) (c : ℕ) : List ℕ × ℕ :=
  mulAdd B m c buffer.2 buffer.1

/-- All digits come in, the most significant one first. -/
def convert (size : ℕ) (cs : List ℕ) : List ℕ × ℕ :=
  cs.foldl (push B m) (List.replicate size 0, 0)

end Buffer

/-- The digits of a buffer, the most significant one first and without zeros in front. -/
def significant (buffer : List ℕ × ℕ) : List ℕ :=
  (buffer.1.reverse.drop (buffer.1.length - buffer.2)).dropWhile (· = 0)

/-- **What a buffer holds**: a number, in digits of the base, with zeros behind what was
written. -/
structure Holds (B size n : ℕ) (buffer : List ℕ × ℕ) : Prop where
  /-- The buffer keeps its size. -/
  length_eq : buffer.1.length = size
  /-- Its entries are digits. -/
  digit_lt : ∀ d ∈ buffer.1, d < B
  /-- What was not written is zero. -/
  unwritten : ∀ d ∈ buffer.1.drop buffer.2, d = 0
  /-- The number. -/
  value : Nat.ofDigits B buffer.1 = n

variable {B m : ℕ}

/-! ### One pass -/

theorem length_mulAdd (carry length : ℕ) (ds : List ℕ) :
    (mulAdd B m carry length ds).1.length = ds.length := by
  induction ds generalizing carry length with
  | nil => rfl
  | cons d ds ih =>
    rw [mulAdd]
    split
    · simp [ih]
    · rfl

theorem mulAdd_digit_lt (hB : 0 < B) {ds : List ℕ} (hds : ∀ d ∈ ds, d < B) (carry length : ℕ) :
    ∀ d ∈ (mulAdd B m carry length ds).1, d < B := by
  induction ds generalizing carry length with
  | nil => simp [mulAdd]
  | cons d ds ih =>
    rw [mulAdd]
    split
    · intro x hx
      rcases List.mem_cons.mp hx with rfl | hx
      · exact Nat.mod_lt _ hB
      · exact ih (fun y hy => hds y (List.mem_cons_of_mem d hy)) _ _ x hx
    · exact hds

theorem mulAdd_unwritten {ds : List ℕ} (carry length : ℕ)
    (hds : ∀ d ∈ ds.drop length, d = 0) :
    ∀ d ∈ (mulAdd B m carry length ds).1.drop (mulAdd B m carry length ds).2, d = 0 := by
  induction ds generalizing carry length with
  | nil => simp [mulAdd]
  | cons d ds ih =>
    rw [mulAdd]
    split
    · refine ih _ _ fun x hx => hds x ?_
      cases length with
      | zero => exact List.mem_cons_of_mem d hx
      | succ length => exact hx
    · next h =>
      have hlength : length = 0 := by omega
      rw [hlength] at hds
      exact hds

/-- A pass leaves the buffer with its number times `m` plus the carry. That the result fits is
what the induction needs at the end of the buffer, where nothing takes up a carry any more. -/
theorem ofDigits_mulAdd (hB : 0 < B) {ds : List ℕ} (carry length : ℕ)
    (hds : ∀ d ∈ ds.drop length, d = 0)
    (hfits : carry + m * Nat.ofDigits B ds < B ^ ds.length) :
    Nat.ofDigits B (mulAdd B m carry length ds).1 = carry + m * Nat.ofDigits B ds := by
  induction ds generalizing carry length with
  | nil =>
    have hcarry : carry = 0 := by simpa [Nat.ofDigits] using hfits
    simp [mulAdd, hcarry, Nat.ofDigits]
  | cons d ds ih =>
    rw [mulAdd]
    split
    · have hvalue : carry + m * Nat.ofDigits B (d :: ds)
          = (carry + m * d) + B * (m * Nat.ofDigits B ds) := by
        rw [Nat.ofDigits_cons]
        ring
      have hrest : ∀ x ∈ ds.drop (length - 1), x = 0 := by
        intro x hx
        cases length with
        | zero => exact hds x (List.mem_cons_of_mem d hx)
        | succ length => exact hds x hx
      have hcarry : (carry + m * d) / B + m * Nat.ofDigits B ds < B ^ ds.length := by
        rw [hvalue, List.length_cons, pow_succ'] at hfits
        rw [← Nat.add_mul_div_left _ _ hB]
        exact Nat.div_lt_of_lt_mul hfits
      rw [Nat.ofDigits_cons, ih _ _ hrest hcarry, hvalue, Nat.mul_add, ← Nat.add_assoc,
        Nat.mod_add_div]
    · next h =>
      have hlength : length = 0 := by omega
      have hzero : Nat.ofDigits B (d :: ds) = 0 := by
        rw [hlength, List.drop_zero] at hds
        rw [List.eq_replicate_of_mem hds]
        exact Nat.ofDigits_replicate_zero
      have hcarry : carry = 0 := by omega
      rw [hzero, hcarry]
      rfl

/-! ### The whole number -/

theorem holds_empty (hB : 0 < B) (size : ℕ) : Holds B size 0 (List.replicate size 0, 0) where
  length_eq := List.length_replicate
  digit_lt _ hd := (List.eq_of_mem_replicate hd).symm ▸ hB
  unwritten _ hd := List.eq_of_mem_replicate (List.mem_of_mem_drop hd)
  value := Nat.ofDigits_replicate_zero

/-- **A digit that comes in** is added to the number times the base it came in. -/
theorem holds_push (hB : 0 < B) {size n : ℕ} {buffer : List ℕ × ℕ} (h : Holds B size n buffer)
    {c : ℕ} (hfits : c + m * n < B ^ size) : Holds B size (c + m * n) (push B m buffer c) where
  length_eq := (length_mulAdd _ _ _).trans h.length_eq
  digit_lt := mulAdd_digit_lt hB h.digit_lt _ _
  unwritten := mulAdd_unwritten _ _ h.unwritten
  value := by
    have hvalue := ofDigits_mulAdd (m := m) hB c buffer.2 h.unwritten
      (by rw [h.value, h.length_eq]; exact hfits)
    rw [push, hvalue, h.value]

theorem ofDigits_reverse_append (cs : List ℕ) (c : ℕ) :
    Nat.ofDigits m (cs ++ [c]).reverse = c + m * Nat.ofDigits m cs.reverse := by
  rw [List.reverse_append, List.reverse_singleton, List.singleton_append, Nat.ofDigits_cons]

/-- **A buffer that is large enough** holds the number whose digits came in. -/
theorem holds_convert (hB : 0 < B) (hm : 1 < m) {size : ℕ} {cs : List ℕ} (hcs : ∀ c ∈ cs, c < m)
    (hsize : m ^ cs.length ≤ B ^ size) :
    Holds B size (Nat.ofDigits m cs.reverse) (convert B m size cs) := by
  induction cs using List.reverseRecOn with
  | nil => exact holds_empty hB size
  | append_singleton cs c ih =>
    have hlt : Nat.ofDigits m (cs ++ [c]).reverse < m ^ (cs ++ [c]).length := by
      have hbound := Nat.ofDigits_lt_base_pow_length hm (l := (cs ++ [c]).reverse)
        fun x hx => hcs x (List.mem_reverse.mp hx)
      rwa [List.length_reverse] at hbound
    have hprefix : m ^ cs.length ≤ B ^ size := by
      refine le_trans (Nat.pow_le_pow_right (by omega) ?_) hsize
      simp
    have hfront := ih (fun x hx => hcs x (List.mem_append_left _ hx)) hprefix
    rw [convert, List.foldl_append, ofDigits_reverse_append] at *
    exact holds_push hB hfront (lt_of_lt_of_le hlt hsize)

/-! ### The digits that count -/

/-- The digits of a number, as `Nat.digits` has them, are any digits of it without the zeros
that are most significant. -/
theorem digits_ofDigits_eq (hB : 1 < B) {ds : List ℕ} (hds : ∀ d ∈ ds, d < B) :
    Nat.digits B (Nat.ofDigits B ds) = ds.rdropWhile (· = 0) := by
  have hzeros : ds.rtakeWhile (· = 0) = List.replicate (ds.rtakeWhile (· = 0)).length 0 :=
    List.eq_replicate_of_mem fun x hx => by simpa using List.mem_rtakeWhile_imp hx
  have hvalue : Nat.ofDigits B ds = Nat.ofDigits B (ds.rdropWhile (· = 0)) := by
    conv_lhs => rw [← List.rdropWhile_append_rtakeWhile (p := fun x : ℕ => decide (x = 0)) (l := ds),
      hzeros, Nat.ofDigits_append_replicate_zero]
  rw [hvalue]
  refine Nat.digits_ofDigits B hB _ (fun d hd => hds d ?_) fun hne => ?_
  · exact (List.rdropWhile_prefix _ _).subset hd
  · simpa using List.rdropWhile_last_not (fun x : ℕ => decide (x = 0)) ds hne

/-- Leading zeros are all that reading the digits of a number and writing them again loses. -/
theorem reverse_digits_ofDigits (hm : 1 < m) {cs : List ℕ} (hcs : ∀ c ∈ cs, c < m) :
    (Nat.digits m (Nat.ofDigits m cs.reverse)).reverse = cs.dropWhile (· = 0) := by
  rw [digits_ofDigits_eq hm fun d hd => hcs d (List.mem_reverse.mp hd), List.rdropWhile_reverse,
    List.reverse_reverse]

theorem dropWhile_drop_of_zeros {l : List ℕ} {k : ℕ} (h : ∀ d ∈ l.take k, d = 0) :
    (l.drop k).dropWhile (· = 0) = l.dropWhile (· = 0) := by
  conv_rhs => rw [← List.take_append_drop k l]
  rw [List.dropWhile_append_of_pos]
  simpa using h

/-- **The digits of the buffer that count** are those of its number. -/
theorem significant_of_holds (hB : 1 < B) {size n : ℕ} {buffer : List ℕ × ℕ}
    (h : Holds B size n buffer) : significant buffer = (Nat.digits B n).reverse := by
  have hzeros : ∀ d ∈ buffer.1.reverse.take (buffer.1.length - buffer.2), d = 0 := by
    intro d hd
    rw [List.take_reverse, List.mem_reverse] at hd
    refine h.unwritten d ?_
    rcases Nat.le_total buffer.2 buffer.1.length with hle | hle
    · rwa [Nat.sub_sub_self hle] at hd
    · rw [Nat.sub_eq_zero_of_le hle] at hd
      simp at hd
  rw [significant, dropWhile_drop_of_zeros hzeros, ← h.value, digits_ofDigits_eq hB h.digit_lt,
    List.rdropWhile, List.reverse_reverse]

end Digits
