import Mathlib.Data.List.Flatten
import Mathlib.Data.Nat.Bitwise
import Mathlib.Tactic.Common

/-!
# Bits in a buffer of words

A buffer of words of one width is a string of bits, the most significant bit of each word first.
Bits are written into it one after the other, by an *or* into a buffer that is zero where they
go: forwards from a place counted from the front (`Bits.write`), or backwards from a place counted
from the end (`Bits.writeBack`). In both directions the place is cut into a word and a bit of the
word by division.

* `Bits.ofWords` – the string of bits of a buffer; `Bits.ofWords_injective` – it says what the
  words are;
* `Bits.ofWords_foldl_write`, `Bits.ofWords_foldl_writeBack` – **what a buffer holds behind a
  sequence of writes**, whatever the width: the bits, in the order in which they came, or in the
  reverse order.
-/

namespace Bits

variable {w : ℕ}

/-! ### The bits of a buffer -/

/-- The bits of a word of a width, the most significant one first. -/
def ofWord (w x : ℕ) : List Bool :=
  (List.range w).reverse.map x.testBit

/-- The bits of a buffer. -/
def ofWords (w : ℕ) (buffer : List ℕ) : List Bool :=
  buffer.flatMap (ofWord w)

@[simp] theorem length_ofWord (x : ℕ) : (ofWord w x).length = w := by
  simp [ofWord]

@[simp] theorem ofWords_nil : ofWords w [] = [] := rfl

@[simp] theorem ofWords_cons (x : ℕ) (buffer : List ℕ) :
    ofWords w (x :: buffer) = ofWord w x ++ ofWords w buffer := rfl

@[simp] theorem ofWords_append (front back : List ℕ) :
    ofWords w (front ++ back) = ofWords w front ++ ofWords w back :=
  List.flatMap_append

@[simp] theorem length_ofWords (buffer : List ℕ) :
    (ofWords w buffer).length = w * buffer.length := by
  induction buffer with
  | nil => rfl
  | cons x buffer ih =>
    rw [ofWords_cons, List.length_append, ih, length_ofWord, List.length_cons, Nat.mul_succ,
      Nat.add_comm]

theorem getElem?_ofWord {i : ℕ} (hi : i < w) (x : ℕ) :
    (ofWord w x)[i]? = some (x.testBit (w - 1 - i)) := by
  rw [ofWord, List.getElem?_map, List.getElem?_reverse (by simpa using hi), List.length_range,
    List.getElem?_range (by omega)]
  rfl

theorem ofWord_zero : ofWord w 0 = List.replicate w false := by
  refine List.eq_replicate_iff.2 ⟨length_ofWord 0, fun b hb => ?_⟩
  obtain ⟨i, -, rfl⟩ := List.mem_map.1 hb
  exact Nat.zero_testBit i

/-- A word is cut in two. -/
theorem ofWord_add (v u x : ℕ) : ofWord (v + u) x = ofWord v (x >>> u) ++ ofWord u (x % 2 ^ u) := by
  refine List.ext_getElem? fun i => ?_
  rw [List.getElem?_append, length_ofWord]
  split_ifs with hv
  · rw [getElem?_ofWord hv, getElem?_ofWord (by omega), Nat.testBit_shiftRight]
    congr 2
    omega
  · by_cases hi : i < v + u
    · rw [getElem?_ofWord hi, getElem?_ofWord (by omega), Nat.testBit_mod_two_pow,
        decide_eq_true (by omega), Bool.true_and]
      congr 2
      omega
    · rw [List.getElem?_eq_none (by simpa using hi), List.getElem?_eq_none (by simp; omega)]

/-- A small number in a wide word has zeros in front. -/
theorem ofWord_add_of_lt (v : ℕ) {u x : ℕ} (hx : x < 2 ^ u) :
    ofWord (v + u) x = List.replicate v false ++ ofWord u x := by
  rw [ofWord_add, Nat.shiftRight_eq_zero _ _ hx, Nat.mod_eq_of_lt hx, ofWord_zero]

theorem ofWords_replicate_zero (n : ℕ) :
    ofWords w (List.replicate n 0) = List.replicate (w * n) false := by
  induction n with
  | zero => rfl
  | succ n ih =>
    rw [List.replicate_succ, ofWords_cons, ih, ofWord_zero, List.replicate_append_replicate,
      Nat.mul_succ, Nat.add_comm]

/-- A word is known by its bits. -/
theorem ofWord_injective {x y : ℕ} (hx : x < 2 ^ w) (hy : y < 2 ^ w)
    (h : ofWord w x = ofWord w y) : x = y := by
  refine Nat.eq_of_testBit_eq fun i => ?_
  by_cases hi : i < w
  · have hbit := congrArg (·[w - 1 - i]?) h
    simp only [getElem?_ofWord (show w - 1 - i < w by omega)] at hbit
    rwa [Option.some.injEq, Nat.sub_sub_self (by omega)] at hbit
  · have hle : 2 ^ w ≤ 2 ^ i := Nat.pow_le_pow_right (by decide) (Nat.le_of_not_lt hi)
    rw [Nat.testBit_lt_two_pow (hx.trans_le hle), Nat.testBit_lt_two_pow (hy.trans_le hle)]

/-- **A buffer is known by its bits.** -/
theorem ofWords_injective (hw : 0 < w) {l m : List ℕ} (hl : ∀ x ∈ l, x < 2 ^ w)
    (hm : ∀ x ∈ m, x < 2 ^ w) (h : ofWords w l = ofWords w m) : l = m := by
  have hlength : l.length = m.length := by
    have := congrArg List.length h
    rw [length_ofWords, length_ofWords] at this
    exact Nat.eq_of_mul_eq_mul_left hw this
  induction l generalizing m with
  | nil => exact (List.length_eq_zero_iff.1 hlength.symm).symm
  | cons x l ih =>
    cases m with
    | nil => cases hlength
    | cons y m =>
      rw [ofWords_cons, ofWords_cons] at h
      obtain ⟨hhead, htail⟩ := List.append_inj h (by simp)
      rw [ofWord_injective (hl x List.mem_cons_self) (hm y List.mem_cons_self) hhead,
        ih (fun z hz => hl z (List.mem_cons_of_mem x hz))
          (fun z hz => hm z (List.mem_cons_of_mem y hz)) htail (Nat.succ.inj hlength)]

/-! ### One bit -/

/-- A bit is written at a place counted from the front, and the place moves on. -/
def write (w : ℕ) (s : List ℕ × ℕ) (b : Bool) : List ℕ × ℕ :=
  (s.1.modify (s.2 / w) (· ||| b.toNat <<< (w - 1 - s.2 % w)), s.2 + 1)

/-- A bit is written at a place counted from the end, and the place moves on. The number of the
last word is given. -/
def writeBack (w last : ℕ) (s : List ℕ × ℕ) (b : Bool) : List ℕ × ℕ :=
  (s.1.modify (last - s.2 / w) (· ||| b.toNat <<< (s.2 % w)), s.2 + 1)

/-- An *or* with one bit in a word, in its string. -/
theorem ofWord_or (x : ℕ) (b : Bool) {i : ℕ} (hi : i < w) :
    ofWord w (x ||| b.toNat <<< (w - 1 - i)) = (ofWord w x).modify i (· || b) := by
  refine List.ext_getElem? fun j => ?_
  rw [List.getElem?_modify]
  by_cases hj : j < w
  · rw [getElem?_ofWord hj, getElem?_ofWord hj, Nat.testBit_or, Nat.testBit_shiftLeft,
      Nat.testBit_bool_toNat, Option.map_eq_map, Option.map_some]
    by_cases hij : i = j
    · simp [hij]
    · have hbit : ¬ (w - 1 - i ≤ w - 1 - j ∧ w - 1 - j - (w - 1 - i) = 0) := by omega
      rw [if_neg hij, ← Bool.and_assoc, ← Bool.decide_and, decide_eq_false hbit,
        Bool.false_and, Bool.or_false]
  · rw [List.getElem?_eq_none (by simpa using hj), List.getElem?_eq_none (by simpa using hj)]
    rfl

section Modify

variable {α : Type} (f : α → α)

theorem modify_append_left {l : List α} {i : ℕ} (h : i < l.length) (m : List α) :
    (l ++ m).modify i f = l.modify i f ++ m := by
  induction l generalizing i with
  | nil => cases h
  | cons a l ih =>
    cases i with
    | zero => rfl
    | succ i => simp [ih (Nat.lt_of_succ_lt_succ h)]

theorem modify_append_right (l m : List α) (i : ℕ) :
    (l ++ m).modify (l.length + i) f = l ++ m.modify i f := by
  induction l with
  | nil => simp
  | cons a l ih => simp [Nat.succ_add, ih]

end Modify

/-- An *or* with one bit in a buffer, in its string. -/
theorem ofWords_modify (buffer : List ℕ) (b : Bool) (hw : 0 < w) (loc : ℕ) :
    ofWords w (buffer.modify (loc / w) (· ||| b.toNat <<< (w - 1 - loc % w))) =
      (ofWords w buffer).modify loc (· || b) := by
  induction buffer generalizing loc with
  | nil => simp
  | cons x buffer ih =>
    by_cases hloc : loc < w
    · rw [Nat.div_eq_of_lt hloc, Nat.mod_eq_of_lt hloc, List.modify_zero_cons, ofWords_cons,
        ofWords_cons, ofWord_or x b hloc, modify_append_left _ (by simpa using hloc)]
    · obtain ⟨rest, rfl⟩ := Nat.exists_eq_add_of_le (Nat.le_of_not_lt hloc)
      have hright := modify_append_right (· || b) (ofWord w x) (ofWords w buffer) rest
      rw [length_ofWord] at hright
      rw [Nat.add_div_left _ hw, Nat.add_mod_left, List.modify_succ_cons, ofWords_cons, ih,
        ofWords_cons, hright]

/-- **One write**: the bit at the place is changed by an *or*. -/
theorem ofWords_write (hw : 0 < w) {buffer : List ℕ} {front back : List Bool} {c : Bool}
    (h : ofWords w buffer = front ++ c :: back) (b : Bool) :
    ofWords w (write w (buffer, front.length) b).1 = front ++ (c || b) :: back := by
  rw [write, ofWords_modify _ _ hw, h]
  exact modify_append_right _ front (c :: back) 0

/-- A place counted from the end, as one that is counted from the front. -/
theorem place_of_back (hw : 0 < w) {n front back : ℕ} (h : w * n = front + (back + 1)) :
    n - 1 - back / w = front / w ∧ back % w = w - 1 - front % w := by
  have hmod := Nat.mod_lt front hw
  have hdiv := Nat.div_add_mod front w
  have hlt : front / w < n := by
    refine Nat.lt_of_mul_lt_mul_left (a := w) ?_
    omega
  obtain ⟨k, hk⟩ := Nat.exists_eq_add_of_lt hlt
  have hback : back = (w - 1 - front % w) + w * k := by
    rw [hk, Nat.mul_add, Nat.mul_add, Nat.mul_one] at h
    omega
  constructor
  · rw [hback, Nat.add_mul_div_left _ _ hw, Nat.div_eq_of_lt (by omega), hk, Nat.zero_add,
      Nat.add_sub_cancel, Nat.add_sub_cancel]
  · rw [hback, Nat.add_mul_mod_self_left]
    exact Nat.mod_eq_of_lt (by omega)

/-- **One write backwards**: the place is counted from the last bit. -/
theorem ofWords_writeBack (hw : 0 < w) {buffer : List ℕ} {front back : List Bool} {c : Bool}
    (h : ofWords w buffer = front ++ c :: back) (b : Bool) :
    ofWords w (writeBack w (buffer.length - 1) (buffer, back.length) b).1 =
      front ++ (c || b) :: back := by
  have hlength := congrArg List.length h
  rw [length_ofWords, List.length_append, List.length_cons] at hlength
  obtain ⟨hword, hbit⟩ := place_of_back hw hlength
  rw [writeBack, hword, hbit]
  exact ofWords_write hw h b

/-! ### A sequence of bits -/

theorem length_foldl_write (bits : List Bool) (s : List ℕ × ℕ) :
    (bits.foldl (write w) s).1.length = s.1.length := by
  induction bits generalizing s with
  | nil => rfl
  | cons b bits ih => rw [List.foldl_cons, ih, write, List.length_modify]

theorem length_foldl_writeBack (last : ℕ) (bits : List Bool) (s : List ℕ × ℕ) :
    (bits.foldl (writeBack w last) s).1.length = s.1.length := by
  induction bits generalizing s with
  | nil => rfl
  | cons b bits ih => rw [List.foldl_cons, ih, writeBack, List.length_modify]

/-- **What a sequence of writes leaves**: the bits, where zeros were. -/
theorem ofWords_foldl_write (hw : 0 < w) {buffer : List ℕ} {front back : List Bool}
    (bits : List Bool)
    (h : ofWords w buffer = front ++ (List.replicate bits.length false ++ back)) :
    ofWords w (bits.foldl (write w) (buffer, front.length)).1 = front ++ (bits ++ back) := by
  induction bits generalizing buffer front with
  | nil => exact h
  | cons b bits ih =>
    have hstep := ofWords_write hw h b
    rw [Bool.false_or] at hstep
    have hrest := @ih _ (front ++ [b]) (by simpa using hstep)
    rw [List.foldl_cons]
    simpa [write] using hrest

/-- **What a sequence of writes backwards leaves**: the bits in the reverse order. -/
theorem ofWords_foldl_writeBack (hw : 0 < w) {buffer : List ℕ} {front back : List Bool}
    (bits : List Bool)
    (h : ofWords w buffer = front ++ (List.replicate bits.length false ++ back)) :
    ofWords w (bits.foldl (writeBack w (buffer.length - 1)) (buffer, back.length)).1 =
      front ++ (bits.reverse ++ back) := by
  induction bits generalizing buffer back with
  | nil => exact h
  | cons b bits ih =>
    have hzeros : ofWords w buffer =
        (front ++ List.replicate bits.length false) ++ false :: back := by
      rw [h, List.length_cons, List.replicate_succ']
      simp
    have hstep := ofWords_writeBack hw hzeros b
    rw [Bool.false_or] at hstep
    have hrest := @ih _ (b :: back) (by simpa using hstep)
    rw [List.foldl_cons]
    simpa [writeBack] using hrest

/-! ### The words stay words -/

theorem or_shiftLeft_lt {x k : ℕ} (hx : x < 2 ^ w) (hk : k < w) (b : Bool) :
    x ||| b.toNat <<< k < 2 ^ w := by
  refine Nat.or_lt_two_pow hx ?_
  rw [Nat.shiftLeft_eq]
  have hb : b.toNat * 2 ^ k ≤ 1 * 2 ^ k := Nat.mul_le_mul_right _ (Bool.toNat_le b)
  have hpow : 2 ^ k < 2 ^ w := Nat.pow_lt_pow_right (by decide) hk
  omega

theorem modify_lt {bound : ℕ} {f : ℕ → ℕ} {buffer : List ℕ} (h : ∀ x ∈ buffer, x < bound)
    (hf : ∀ x < bound, f x < bound) (i : ℕ) : ∀ x ∈ buffer.modify i f, x < bound := by
  intro x hx
  obtain ⟨j, hj⟩ := List.mem_iff_getElem?.1 hx
  rw [List.getElem?_modify] at hj
  obtain ⟨y, hy, rfl⟩ := Option.map_eq_some_iff.1 hj
  have hlt := h y (List.mem_of_getElem? hy)
  split
  · exact hf y hlt
  · exact hlt

theorem foldl_write_lt (hw : 0 < w) (bits : List Bool) {s : List ℕ × ℕ}
    (h : ∀ x ∈ s.1, x < 2 ^ w) : ∀ x ∈ (bits.foldl (write w) s).1, x < 2 ^ w := by
  induction bits generalizing s with
  | nil => exact h
  | cons b bits ih =>
    exact ih (modify_lt h (fun x hx => or_shiftLeft_lt hx (by omega) b) _)

theorem foldl_writeBack_lt (hw : 0 < w) (last : ℕ) (bits : List Bool) {s : List ℕ × ℕ}
    (h : ∀ x ∈ s.1, x < 2 ^ w) : ∀ x ∈ (bits.foldl (writeBack w last) s).1, x < 2 ^ w := by
  induction bits generalizing s with
  | nil => exact h
  | cons b bits ih =>
    exact ih (modify_lt h (fun x hx => or_shiftLeft_lt hx (Nat.mod_lt _ hw) b) _)

end Bits
