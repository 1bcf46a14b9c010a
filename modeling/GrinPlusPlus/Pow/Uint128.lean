import GrinPlusPlus.Pow.WorkBound
import Mathlib.Data.Nat.Size

/-!
# The arithmetic behind the most work

`PoWValidator::GetMaximumDifficulty` divides a number of 128 bits by one of 64, and the compiler has
no such numbers on every platform: `PoW/uint128.cpp` builds them from two words, shifts and compares
them word by word, and divides by shifting and subtracting, one bit after the other.

* `GrinPlusPlus.Uint128.toNat_shiftLeft`, `GrinPlusPlus.Uint128.toNat_shiftRight`,
  `GrinPlusPlus.Uint128.toNat_add`, `GrinPlusPlus.Uint128.toNat_sub` – the operations, as those on
  the numbers that the words stand for.
* `GrinPlusPlus.Uint128.divmod_ok` – **the loop divides**: quotient and remainder are those of
  Euclid's division, for all numbers of 128 bits.
* `GrinPlusPlus.PoWValidator.toNat_getMaximumDifficultyWords` – **the validator's bound, computed
  with words, is the one of `GrinPlusPlus.PoWValidator.getMaximumDifficulty`**, for every header.
-/

namespace GrinPlusPlus

/-- `uint128_t`. -/
structure Uint128 where
  /-- `UPPER`. -/
  upper : UInt64
  /-- `LOWER`. -/
  lower : UInt64
deriving DecidableEq

namespace Uint128

/-- The number that the words stand for. -/
def toNat (a : Uint128) : ℕ :=
  a.upper.toNat * 2 ^ 64 + a.lower.toNat

/-- The constructor from an unsigned integer. -/
def ofUInt64 (rhs : UInt64) : Uint128 := ⟨0, rhs⟩

/-- `uint128_0`. -/
def zero : Uint128 := ofUInt64 0

/-- `uint128_1`. -/
def one : Uint128 := ofUInt64 1

/-! ### The operators -/

/-- `uint128_t::operator<<`. -/
def shiftLeft (a rhs : Uint128) : Uint128 :=
  let shift := rhs.lower
  if rhs.upper ≠ 0 ∨ 128 ≤ shift then zero
  else if shift = 64 then ⟨a.lower, 0⟩
  else if shift = 0 then a
  else if shift < 64 then ⟨a.upper <<< shift + a.lower >>> (64 - shift), a.lower <<< shift⟩
  else if shift < 128 ∧ 64 < shift then ⟨a.lower <<< (shift - 64), 0⟩
  else zero

/-- `uint128_t::operator>>`. -/
def shiftRight (a rhs : Uint128) : Uint128 :=
  let shift := rhs.lower
  if rhs.upper ≠ 0 ∨ 128 ≤ shift then zero
  else if shift = 64 then ⟨0, a.upper⟩
  else if shift = 0 then a
  else if shift < 64 then ⟨a.upper >>> shift, a.upper <<< (64 - shift) + a.lower >>> shift⟩
  else if shift < 128 ∧ 64 < shift then ⟨0, a.upper >>> (shift - 64)⟩
  else zero

/-- `uint128_t::operator>`. -/
def gt (a rhs : Uint128) : Bool :=
  if a.upper = rhs.upper then rhs.lower < a.lower else rhs.upper < a.upper

/-- `uint128_t::operator<`. -/
def lt (a rhs : Uint128) : Bool :=
  if a.upper = rhs.upper then a.lower < rhs.lower else a.upper < rhs.upper

/-- `uint128_t::operator>=`. -/
def ge (a rhs : Uint128) : Bool :=
  a.gt rhs || a = rhs

/-- `uint128_t::operator<`, with an unsigned integer on the right. -/
def ltWord (a : Uint128) (rhs : UInt64) : Bool :=
  if a.upper = 0 then a.lower < rhs else false

/-- `uint128_t::operator+`, and with `uint128_1` on the right `uint128_t::operator++`. -/
def add (a rhs : Uint128) : Uint128 :=
  ⟨a.upper + rhs.upper + (if a.lower + rhs.lower < a.lower then 1 else 0), a.lower + rhs.lower⟩

/-- `uint128_t::operator-`. -/
def sub (a rhs : Uint128) : Uint128 :=
  ⟨a.upper - rhs.upper - (if a.lower < a.lower - rhs.lower then 1 else 0), a.lower - rhs.lower⟩

/-- The loops of `uint128_t::bits`. -/
def countBits (word : UInt64) (out : UInt8) : UInt8 :=
  if h : word = 0 then out else countBits (word >>> 1) (out + 1)
termination_by word.toNat
decreasing_by
  have hpos : word.toNat ≠ 0 := fun h0 => h (UInt64.toNat_inj.1 h0)
  rw [UInt64.toNat_shiftRight, show (1 : UInt64).toNat % 64 = 1 from rfl, Nat.shiftRight_eq_div_pow]
  omega

/-- `uint128_t::bits`. -/
def bits (a : Uint128) : UInt8 :=
  if a.upper ≠ 0 then countBits a.upper 64 else countBits a.lower 0

/-- The remainder in `uint128_t::divmod`, with the next bit taken down. -/
def takeDown (lhs : Uint128) (bit : ℕ) (second : Uint128) : Uint128 :=
  let shifted := second.shiftLeft one
  if (lhs.shiftRight (ofUInt64 (UInt64.ofNat bit))).lower &&& 1 ≠ 0 then shifted.add one
  else shifted

/-- The body of the loop of `uint128_t::divmod`. -/
def divStep (lhs rhs : Uint128) (bit : ℕ) (qr : Uint128 × Uint128) : Uint128 × Uint128 :=
  let first := qr.1.shiftLeft one
  let second := takeDown lhs bit qr.2
  if second.ge rhs then (first.add one, second.sub rhs) else (first, second)

/-- The loop of `uint128_t::divmod`, from the highest bit down. -/
def divLoop (lhs rhs : Uint128) : ℕ → Uint128 × Uint128 → Uint128 × Uint128
  | 0, qr => qr
  | x + 1, qr => divLoop lhs rhs x (divStep lhs rhs x qr)

/-- `uint128_t::divmod`; the exception is a `std::domain_error`. -/
def divmod (lhs rhs : Uint128) : Except Exc (Uint128 × Uint128) :=
  if rhs = zero then .error (.runtime "Error: division or modulus by 0")
  else if rhs = one then .ok (lhs, zero)
  else if lhs = rhs then .ok (one, zero)
  else if lhs = zero ∨ lhs.lt rhs then .ok (zero, lhs)
  else .ok (divLoop lhs rhs lhs.bits.toNat (zero, zero))

/-- `uint128_t::operator/`. -/
def div (lhs rhs : Uint128) : Except Exc Uint128 := do
  let qr ← lhs.divmod rhs
  .ok qr.1

/-! ### The numbers -/

variable {a b lhs rhs : Uint128} {word : UInt64}

theorem toNat_lt (a : Uint128) : a.toNat < 2 ^ 128 := by
  have hupper := a.upper.toNat_lt
  have hlower := a.lower.toNat_lt
  unfold toNat
  omega

@[simp]
theorem toNat_ofUInt64 (word : UInt64) : (ofUInt64 word).toNat = word.toNat := by
  simp [toNat, ofUInt64]

@[simp]
theorem toNat_zero : zero.toNat = 0 := rfl

@[simp]
theorem toNat_one : one.toNat = 1 := rfl

/-- The words are determined by the number. -/
theorem toNat_inj : a.toNat = b.toNat ↔ a = b := by
  refine ⟨fun h => ?_, fun h => by rw [h]⟩
  obtain ⟨aupper, alower⟩ := a
  obtain ⟨bupper, blower⟩ := b
  have halower := alower.toNat_lt
  have hblower := blower.toNat_lt
  simp only [toNat] at h
  have hupper : aupper = bupper := UInt64.toNat_inj.1 (by omega)
  have hlower : alower = blower := UInt64.toNat_inj.1 (by omega)
  rw [hupper, hlower]

theorem gt_iff : a.gt b ↔ b.toNat < a.toNat := by
  have ha := a.lower.toNat_lt
  have hb := b.lower.toNat_lt
  unfold gt toNat
  split_ifs with hupper
  · rw [decide_eq_true_iff, UInt64.lt_iff_toNat_lt, hupper]
    omega
  · have hne : a.upper.toNat ≠ b.upper.toNat := fun h => hupper (UInt64.toNat_inj.1 h)
    rw [decide_eq_true_iff, UInt64.lt_iff_toNat_lt]
    omega

theorem lt_iff : a.lt b ↔ a.toNat < b.toNat := by
  rw [← gt_iff, lt, gt]
  by_cases hupper : a.upper = b.upper
  · rw [if_pos hupper, if_pos hupper.symm]
  · rw [if_neg hupper, if_neg (Ne.symm hupper)]

theorem ge_iff : a.ge b ↔ b.toNat ≤ a.toNat := by
  rw [ge, Bool.or_eq_true, gt_iff, decide_eq_true_iff, ← toNat_inj]
  omega

theorem ltWord_iff : a.ltWord word ↔ a.toNat < word.toNat := by
  have hword := word.toNat_lt
  unfold ltWord toNat
  split_ifs with hupper
  · rw [decide_eq_true_iff, UInt64.lt_iff_toNat_lt, hupper]
    simp
  · have hpos : a.upper.toNat ≠ 0 := fun h => hupper (UInt64.toNat_inj.1 h)
    simp only [false_iff]
    omega

/-! ### Sums and differences -/

/-- The sum, with the carry out of the lower words. -/
theorem toNat_add (a b : Uint128) : (a.add b).toNat = (a.toNat + b.toNat) % 2 ^ 128 := by
  have hlower := UInt64.toNat_add a.lower b.lower
  have ha := a.lower.toNat_lt
  have hb := b.lower.toNat_lt
  unfold add toNat
  simp only [UInt64.lt_iff_toNat_lt]
  split_ifs with hcarry
  · rw [UInt64.toNat_add, UInt64.toNat_add, UInt64.toNat_one]
    omega
  · rw [UInt64.toNat_add, UInt64.toNat_add, UInt64.toNat_zero]
    omega

/-- The difference, with what the lower words borrow. -/
theorem toNat_sub (h : b.toNat ≤ a.toNat) : (a.sub b).toNat = a.toNat - b.toNat := by
  have hlower := UInt64.toNat_sub a.lower b.lower
  have ha := a.lower.toNat_lt
  have hb := b.lower.toNat_lt
  have haupper := a.upper.toNat_lt
  have hbupper := b.upper.toNat_lt
  unfold toNat at h
  unfold sub toNat
  simp only [UInt64.lt_iff_toNat_lt]
  split_ifs with hborrow
  · rw [UInt64.toNat_sub, UInt64.toNat_sub, UInt64.toNat_one]
    omega
  · rw [UInt64.toNat_sub, UInt64.toNat_sub, UInt64.toNat_zero]
    omega

/-! ### Shifts -/

/-- Two words times `n`, where `n` and `m` are powers of two that make up a word. -/
theorem shiftLeft_words {n m : ℕ} (hword : m * n = 2 ^ 64) (hn : 0 < n) (upper lower : ℕ) :
    (upper * n % 2 ^ 64 + lower / m) % 2 ^ 64 * 2 ^ 64 + lower * n % 2 ^ 64 =
      (upper * 2 ^ 64 + lower) * n % 2 ^ 128 := by
  have hquotient : lower / m = lower * n / 2 ^ 64 := by
    rw [← hword, Nat.mul_div_mul_right lower m hn]
  have hexpand : (upper * 2 ^ 64 + lower) * n = upper * n * 2 ^ 64 + lower * n := by ring
  rw [hquotient, hexpand]
  generalize upper * n = x
  generalize lower * n = y
  omega

/-- Two words divided by `n`. -/
theorem shiftRight_words {n m : ℕ} (hword : m * n = 2 ^ 64) (hn : 0 < n) (upper : ℕ) {lower : ℕ}
    (hlower : lower < 2 ^ 64) :
    upper / n * 2 ^ 64 + (upper * m % 2 ^ 64 + lower / n) % 2 ^ 64 =
      (upper * 2 ^ 64 + lower) / n := by
  have hm : 0 < m := Nat.pos_of_mul_pos_right (hword ▸ Nat.two_pow_pos 64 : 0 < m * n)
  have hquotient : upper / n = upper * m / 2 ^ 64 := by
    rw [← hword, Nat.mul_comm m n, Nat.mul_div_mul_right upper n hm]
  have hexpand : (upper * 2 ^ 64 + lower) / n = upper * m + lower / n := by
    rw [← hword, show upper * (m * n) + lower = n * (upper * m) + lower by ring,
      Nat.mul_add_div hn]
  have hlow : lower / n < m := (Nat.div_lt_iff_lt_mul hn).2 (hword ▸ hlower)
  have hhigh : upper * m % 2 ^ 64 + m ≤ 2 ^ 64 := by
    calc upper * m % 2 ^ 64 + m = (upper % n + 1) * m := by
          rw [← hword, Nat.mul_comm m n, Nat.mul_mod_mul_right, Nat.succ_mul]
      _ ≤ n * m := Nat.mul_le_mul_right m (Nat.mod_lt upper hn)
      _ = 2 ^ 64 := by rw [Nat.mul_comm, hword]
  rw [hquotient, hexpand]
  generalize upper * m = x at *
  generalize lower / n = y at *
  omega

theorem toNat_of_upper_eq_zero (h : a.upper = 0) : a.toNat = a.lower.toNat := by
  rw [toNat, h]
  simp

/-- A large amount of a shift, … -/
theorem le_toNat_of_large (h : a.upper ≠ 0 ∨ 128 ≤ a.lower) : 128 ≤ a.toNat := by
  unfold toNat
  rcases h with hupper | hlower
  · have hpos : a.upper.toNat ≠ 0 := fun h => hupper (UInt64.toNat_inj.1 h)
    omega
  · have hle := UInt64.le_iff_toNat_le.1 hlower
    have h128 : (128 : UInt64).toNat = 128 := rfl
    omega

/-- … and any other, which is its lower word. -/
theorem toNat_of_not_large (h : ¬ (a.upper ≠ 0 ∨ 128 ≤ a.lower)) :
    a.toNat = a.lower.toNat ∧ a.lower.toNat < 128 := by
  obtain ⟨hupper, hlower⟩ := not_or.1 h
  exact ⟨toNat_of_upper_eq_zero (not_not.1 hupper),
    UInt64.lt_iff_toNat_lt.1 (UInt64.not_le.1 hlower)⟩

/-- A word shifted to the left. -/
theorem toNat_shiftLeft_word {shift : UInt64} (h : shift.toNat < 64) (word : UInt64) :
    (word <<< shift).toNat = word.toNat * 2 ^ shift.toNat % 2 ^ 64 := by
  rw [UInt64.toNat_shiftLeft, Nat.mod_eq_of_lt h, Nat.shiftLeft_eq]

/-- A word shifted to the right. -/
theorem toNat_shiftRight_word {shift : UInt64} (h : shift.toNat < 64) (word : UInt64) :
    (word >>> shift).toNat = word.toNat / 2 ^ shift.toNat := by
  rw [UInt64.toNat_shiftRight, Nat.mod_eq_of_lt h, Nat.shiftRight_eq_div_pow]

/-- The two amounts by which the words are shifted. -/
theorem toNat_rest {shift : UInt64} (h : shift < 64) :
    (64 - shift).toNat = 64 - shift.toNat ∧
      2 ^ (64 - shift.toNat) * 2 ^ shift.toNat = 2 ^ 64 := by
  have hlt : shift.toNat < 64 := UInt64.lt_iff_toNat_lt.1 h
  refine ⟨UInt64.toNat_sub_of_le _ _ (UInt64.le_of_lt h), ?_⟩
  rw [← Nat.pow_add, Nat.sub_add_cancel (Nat.le_of_lt hlt)]

/-- The amount by which a word is shifted into the other one. -/
theorem toNat_excess {shift : UInt64} (h : 64 < shift) :
    (shift - 64).toNat = shift.toNat - 64 ∧
      2 ^ shift.toNat = 2 ^ 64 * 2 ^ (shift.toNat - 64) := by
  have hlt : 64 < shift.toNat := UInt64.lt_iff_toNat_lt.1 h
  refine ⟨UInt64.toNat_sub_of_le _ _ (UInt64.le_of_lt h), ?_⟩
  rw [← Nat.pow_add, Nat.add_sub_cancel' (Nat.le_of_lt hlt)]

/-- No amount is left for the last branch of the shifts. -/
theorem lt_of_not_branches {shift : UInt64} (hword : shift ≠ 64) (hsmall : ¬ shift < 64) :
    64 < shift :=
  UInt64.lt_of_le_of_ne (UInt64.not_lt.1 hsmall) (Ne.symm hword)

/-- **Shifting to the left multiplies.** -/
theorem toNat_shiftLeft (a rhs : Uint128) :
    (a.shiftLeft rhs).toNat = a.toNat * 2 ^ rhs.toNat % 2 ^ 128 := by
  have hlower := a.lower.toNat_lt
  unfold shiftLeft
  dsimp only
  by_cases hlarge : rhs.upper ≠ 0 ∨ 128 ≤ rhs.lower
  · obtain ⟨k, hk⟩ := Nat.exists_eq_add_of_le (le_toNat_of_large hlarge)
    rw [if_pos hlarge, hk, Nat.pow_add, Nat.mul_left_comm, Nat.mul_mod_right, toNat_zero]
  · obtain ⟨hrhs, hlt⟩ := toNat_of_not_large hlarge
    rw [if_neg hlarge, hrhs]
    split_ifs with hword hzero hsmall hbetween
    · rw [hword, show (64 : UInt64).toNat = 64 from rfl]
      simp only [toNat, UInt64.toNat_zero]
      omega
    · rw [hzero, UInt64.toNat_zero, Nat.pow_zero, Nat.mul_one,
        Nat.mod_eq_of_lt a.toNat_lt]
    · have hshift : rhs.lower.toNat < 64 := UInt64.lt_iff_toNat_lt.1 hsmall
      have hpos : rhs.lower.toNat ≠ 0 := fun h => hzero (UInt64.toNat_inj.1 h)
      obtain ⟨hrest, hpower⟩ := toNat_rest hsmall
      rw [toNat, UInt64.toNat_add, toNat_shiftLeft_word hshift, toNat_shiftLeft_word hshift,
        toNat_shiftRight_word (by omega), hrest, shiftLeft_words hpower (Nat.two_pow_pos _), toNat]
    · obtain ⟨hrest, hpower⟩ := toNat_excess hbetween.2
      rw [toNat, toNat_shiftLeft_word (by omega), hrest, hpower, toNat,
        UInt64.toNat_zero]
      generalize 2 ^ (rhs.lower.toNat - 64) = power
      -- the upper word is shifted out as a whole
      rw [show (a.upper.toNat * 2 ^ 64 + a.lower.toNat) * (2 ^ 64 * power) =
        2 ^ 128 * (a.upper.toNat * power) + 2 ^ 64 * (a.lower.toNat * power) by ring]
      generalize a.lower.toNat * power = x
      omega
    · exact absurd ⟨UInt64.lt_iff_toNat_lt.2 hlt, lt_of_not_branches hword hsmall⟩ hbetween

/-- **Shifting to the right divides.** -/
theorem toNat_shiftRight (a rhs : Uint128) :
    (a.shiftRight rhs).toNat = a.toNat / 2 ^ rhs.toNat := by
  have hlower := a.lower.toNat_lt
  unfold shiftRight
  dsimp only
  by_cases hlarge : rhs.upper ≠ 0 ∨ 128 ≤ rhs.lower
  · have hle : 2 ^ 128 ≤ 2 ^ rhs.toNat :=
      Nat.pow_le_pow_right (by decide) (le_toNat_of_large hlarge)
    rw [if_pos hlarge, toNat_zero, Nat.div_eq_of_lt (Nat.lt_of_lt_of_le a.toNat_lt hle)]
  · obtain ⟨hrhs, hlt⟩ := toNat_of_not_large hlarge
    rw [if_neg hlarge, hrhs]
    split_ifs with hword hzero hsmall hbetween
    · rw [hword, show (64 : UInt64).toNat = 64 from rfl]
      simp only [toNat, UInt64.toNat_zero]
      omega
    · rw [hzero, UInt64.toNat_zero, Nat.pow_zero, Nat.div_one]
    · have hshift : rhs.lower.toNat < 64 := UInt64.lt_iff_toNat_lt.1 hsmall
      have hpos : rhs.lower.toNat ≠ 0 := fun h => hzero (UInt64.toNat_inj.1 h)
      obtain ⟨hrest, hpower⟩ := toNat_rest hsmall
      rw [toNat, UInt64.toNat_add, toNat_shiftRight_word hshift, toNat_shiftRight_word hshift,
        toNat_shiftLeft_word (by omega), hrest,
        shiftRight_words hpower (Nat.two_pow_pos _) _ hlower, toNat]
    · obtain ⟨hrest, hpower⟩ := toNat_excess hbetween.2
      have hfirst : (a.upper.toNat * 2 ^ 64 + a.lower.toNat) / 2 ^ 64 = a.upper.toNat := by omega
      rw [toNat, toNat_shiftRight_word (by omega), hrest, hpower, toNat,
        UInt64.toNat_zero, ← Nat.div_div_eq_div_mul, hfirst, Nat.zero_mul,
        Nat.zero_add]
    · exact absurd ⟨UInt64.lt_iff_toNat_lt.2 hlt, lt_of_not_branches hword hsmall⟩ hbetween

/-! ### The number of bits -/

/-- A number has one bit more than its half. -/
theorem size_eq_size_half_add_one {n : ℕ} (h : n ≠ 0) : n.size = (n / 2).size + 1 := by
  have hbit : Nat.bit n.bodd n.div2 = n := Nat.bit_bodd_div2 n
  have hsize : (Nat.bit n.bodd n.div2).size = n.div2.size.succ :=
    Nat.size_bit (by rwa [hbit])
  rw [hbit, Nat.div2_val] at hsize
  exact hsize

theorem toNat_countBits (word : UInt64) (out : UInt8) (h : out.toNat + word.toNat.size < 256) :
    (countBits word out).toNat = out.toNat + word.toNat.size := by
  fun_induction countBits word out with
  | case1 out => simp
  | case2 word out hword ih =>
    have hpos : word.toNat ≠ 0 := fun h0 => hword (UInt64.toNat_inj.1 h0)
    have hhalf : (word >>> 1).toNat = word.toNat / 2 := toNat_shiftRight_word (by decide) word
    have hsize := size_eq_size_half_add_one hpos
    have hout : (out + 1).toNat = out.toNat + 1 := by
      rw [UInt8.toNat_add, UInt8.toNat_one]
      omega
    rw [ih (by rw [hout, hhalf]; omega), hout, hhalf]
    omega

/-- **The number is shorter than its bits**, of which there may be 128. -/
theorem toNat_lt_two_pow_bits (a : Uint128) : a.toNat < 2 ^ a.bits.toNat := by
  have hlower := a.lower.toNat_lt
  have hsize : ∀ word : UInt64, word.toNat.size ≤ 64 := fun word => Nat.size_le.2 word.toNat_lt
  unfold bits
  split_ifs with hupper
  · have hlt := Nat.lt_size_self a.upper.toNat
    have h64 : (64 : UInt8).toNat = 64 := rfl
    have hle := hsize a.upper
    rw [toNat_countBits _ _ (by omega), h64, Nat.pow_add, toNat]
    omega
  · have hle := hsize a.lower
    rw [toNat_of_upper_eq_zero (not_not.1 hupper), toNat_countBits _ _ (by simp; omega)]
    simpa using Nat.lt_size_self a.lower.toNat

/-! ### The division -/

/-- What the loop has computed when there are `x` bits to take down: quotient and remainder of the
bits above. -/
structure Divided (lhs rhs : Uint128) (x : ℕ) (qr : Uint128 × Uint128) : Prop where
  /-- The quotient. -/
  first : qr.1.toNat = lhs.toNat / 2 ^ x / rhs.toNat
  /-- The remainder. -/
  second : qr.2.toNat = lhs.toNat / 2 ^ x % rhs.toNat

/-- The bit that the loop tests. -/
theorem bit_ne_zero_iff {bit : ℕ} (h : bit < 256) (lhs : Uint128) :
    (lhs.shiftRight (ofUInt64 (UInt64.ofNat bit))).lower &&& 1 ≠ 0 ↔
      lhs.toNat / 2 ^ bit % 2 = 1 := by
  have hshift := toNat_shiftRight lhs (ofUInt64 (UInt64.ofNat bit))
  rw [toNat_ofUInt64, UInt64.toNat_ofNat', Nat.mod_eq_of_lt (show bit < 2 ^ 64 by omega)] at hshift
  rw [← hshift, ne_eq, ← UInt64.toNat_inj, UInt64.toNat_and, UInt64.toNat_one,
    Nat.and_one_is_mod, UInt64.toNat_zero, toNat]
  omega

/-- A number shifted by one, when nothing is shifted out. -/
theorem toNat_shiftLeft_one (h : 2 * a.toNat < 2 ^ 128) :
    (a.shiftLeft one).toNat = 2 * a.toNat := by
  rw [toNat_shiftLeft, toNat_one, Nat.pow_one, Nat.mul_comm, Nat.mod_eq_of_lt h]

/-- A remainder with a bit taken down, when it does not overflow. -/
theorem toNat_takeDown {bit : ℕ} (hbit : bit < 256)
    (h : 2 * a.toNat + lhs.toNat / 2 ^ bit % 2 < 2 ^ 128) :
    (takeDown lhs bit a).toNat = 2 * a.toNat + lhs.toNat / 2 ^ bit % 2 := by
  have hshifted : (a.shiftLeft one).toNat = 2 * a.toNat := toNat_shiftLeft_one (by omega)
  have hiff := bit_ne_zero_iff hbit lhs
  unfold takeDown
  dsimp only
  split_ifs with hone
  · rw [hiff.1 hone] at h ⊢
    rw [toNat_add, hshifted, toNat_one, Nat.mod_eq_of_lt h]
  · have hnot := mt hiff.2 hone
    omega

/-- **One bit**: the loop keeps what it has computed, and nothing overflows, since quotient and
remainder are at most the bits taken down so far. -/
theorem Divided.step {x : ℕ} {qr : Uint128 × Uint128} (hrhs : rhs.toNat ≠ 0) (hx : x < 256)
    (h : Divided lhs rhs (x + 1) qr) : Divided lhs rhs x (divStep lhs rhs x qr) := by
  have hpos := Nat.pos_of_ne_zero hrhs
  have hhalf : lhs.toNat / 2 ^ (x + 1) = lhs.toNat / 2 ^ x / 2 := by
    rw [Nat.pow_succ, Nat.div_div_eq_div_mul]
  have hbits : lhs.toNat / 2 ^ x < 2 ^ 128 := Nat.lt_of_le_of_lt (Nat.div_le_self _ _) lhs.toNat_lt
  obtain ⟨hfirst, hsecond⟩ := h
  rw [hhalf] at hfirst hsecond
  -- the bits above are quotient and remainder
  have hdivided : rhs.toNat * qr.1.toNat + qr.2.toNat = lhs.toNat / 2 ^ x / 2 := by
    rw [hfirst, hsecond, Nat.div_add_mod]
  have hquotient : qr.1.toNat ≤ lhs.toNat / 2 ^ x / 2 := by
    rw [hfirst]
    exact Nat.div_le_self _ _
  have hremainder : qr.2.toNat < rhs.toNat := by
    rw [hsecond]
    exact Nat.mod_lt _ hpos
  have hshifted : (qr.1.shiftLeft one).toNat = 2 * qr.1.toNat := toNat_shiftLeft_one (by omega)
  have htaken : (takeDown lhs x qr.2).toNat = 2 * qr.2.toNat + lhs.toNat / 2 ^ x % 2 :=
    toNat_takeDown hx (by omega)
  unfold divStep
  dsimp only
  split_ifs with hge
  · have hle := ge_iff.1 hge
    obtain ⟨hdiv, hmod⟩ := (Nat.div_mod_unique hpos).2
      (show (takeDown lhs x qr.2).toNat - rhs.toNat + rhs.toNat * (2 * qr.1.toNat + 1) =
            lhs.toNat / 2 ^ x ∧ (takeDown lhs x qr.2).toNat - rhs.toNat < rhs.toNat by
        rw [Nat.mul_add, Nat.mul_left_comm]
        omega)
    refine ⟨?_, ?_⟩
    · rw [hdiv, toNat_add, hshifted, toNat_one]
      omega
    · rw [hmod, toNat_sub hle]
  · have hlt := mt ge_iff.2 hge
    obtain ⟨hdiv, hmod⟩ := (Nat.div_mod_unique hpos).2
      (show (takeDown lhs x qr.2).toNat + rhs.toNat * (2 * qr.1.toNat) = lhs.toNat / 2 ^ x ∧
          (takeDown lhs x qr.2).toNat < rhs.toNat by
        rw [Nat.mul_left_comm]
        omega)
    exact ⟨by rw [hdiv, hshifted], by rw [hmod]⟩

/-- **The whole loop**, by induction on the bits to take down. -/
theorem Divided.loop {x : ℕ} {qr : Uint128 × Uint128} (hrhs : rhs.toNat ≠ 0) (hx : x ≤ 256)
    (h : Divided lhs rhs x qr) : Divided lhs rhs 0 (divLoop lhs rhs x qr) := by
  induction x generalizing qr with
  | zero => exact h
  | succ x ih => exact ih (by omega) (h.step hrhs (by omega))

/-- **Division by shifting and subtracting is division.** -/
theorem divmod_ok (hrhs : rhs.toNat ≠ 0) (lhs : Uint128) :
    ∃ qr, lhs.divmod rhs = .ok qr ∧ qr.1.toNat = lhs.toNat / rhs.toNat ∧
      qr.2.toNat = lhs.toNat % rhs.toNat := by
  have hzero : rhs ≠ zero := fun h => hrhs (toNat_inj.2 h)
  unfold divmod
  rw [if_neg hzero]
  split_ifs with hone hself hless
  · refine ⟨_, rfl, ?_, ?_⟩
    · rw [hone, toNat_one, Nat.div_one]
    · rw [hone, toNat_one, Nat.mod_one, toNat_zero]
  · refine ⟨_, rfl, ?_, ?_⟩
    · rw [hself, Nat.div_self (Nat.pos_of_ne_zero hrhs), toNat_one]
    · rw [hself, Nat.mod_self, toNat_zero]
  · have hlt : lhs.toNat < rhs.toNat := by
      rcases hless with hlhs | hlhs
      · rw [hlhs, toNat_zero]
        exact Nat.pos_of_ne_zero hrhs
      · exact lt_iff.1 hlhs
    refine ⟨_, rfl, ?_, ?_⟩
    · rw [Nat.div_eq_of_lt hlt, toNat_zero]
    · rw [Nat.mod_eq_of_lt hlt]
  · have hstart : Divided lhs rhs lhs.bits.toNat (zero, zero) := by
      refine ⟨?_, ?_⟩ <;> rw [Nat.div_eq_of_lt lhs.toNat_lt_two_pow_bits, toNat_zero]
      · exact (Nat.zero_div _).symm
      · exact (Nat.zero_mod _).symm
    obtain ⟨hfirst, hsecond⟩ := hstart.loop hrhs (Nat.le_of_lt lhs.bits.toNat_lt)
    rw [Nat.pow_zero, Nat.div_one] at hfirst hsecond
    exact ⟨_, rfl, hfirst, hsecond⟩

/-- The quotient alone. -/
theorem div_ok (hrhs : rhs.toNat ≠ 0) (lhs : Uint128) :
    ∃ q, lhs.div rhs = .ok q ∧ q.toNat = lhs.toNat / rhs.toNat := by
  obtain ⟨qr, hqr, hfirst, -⟩ := divmod_ok hrhs lhs
  exact ⟨qr.1, by rw [div, hqr, Exec.ok_bind], hfirst⟩

end Uint128

/-- `Consensus::ScalingDifficulty` on words; a shift by 64 or more is undefined. -/
def Consensus.scalingDifficultyWord (edgeBits : UInt64) : Except Exc UInt64 :=
  if 64 ≤ edgeBits - 24 then .error .undefined
  else .ok ((2 : UInt64) <<< (edgeBits - 24) * edgeBits)

namespace PoWValidator

variable {header : BlockHeader}

/-- The scaling difficulty in `PoWValidator::GetMaximumDifficulty`, as the words in which it is. -/
def scalingDifficultyWords (header : BlockHeader) : Except Exc Uint128 := do
  if header.proofOfWork.edgeBits.toNat = Consensus.secondPowEdgeBits then
    .ok (Uint128.ofUInt64 header.scalingDifficulty.toUInt64)
  else
    let scaling ← Consensus.scalingDifficultyWord header.proofOfWork.edgeBits.toUInt64
    .ok (Uint128.ofUInt64 scaling)

/-- `PoWValidator::GetMaximumDifficulty`, with the operators of `uint128_t`. -/
def getMaximumDifficultyWords (G : Global) (header : BlockHeader) : Except Exc UInt64 := do
  let scalingDifficulty ← scalingDifficultyWords header
  let hash64 := UInt64.ofNat (header.getHash G).first64
  let scaled := scalingDifficulty.shiftLeft (Uint128.ofUInt64 64)
  let hash128 := Uint128.ofUInt64 (if 1 < hash64 then hash64 else 1)
  let difference ← scaled.div hash128
  if difference.ltWord (UInt64.ofNat (2 ^ 64 - 1)) then .ok difference.lower
  else .ok (UInt64.ofNat (2 ^ 64 - 1))

/-- The scale, as words, is the scale. -/
theorem map_toNat_scalingDifficultyWords (header : BlockHeader) :
    (scalingDifficultyWords header).map Uint128.toNat = scaleOf header := by
  have hle := header.proofOfWork.edgeBits_le
  unfold scalingDifficultyWords scaleOf ProofOfWork.isSecondary
  simp only [decide_eq_true_eq]
  split_ifs with hsecondary
  · rw [Except.map, Uint128.toNat_ofUInt64, UInt32.toNat_toUInt64]
  · unfold Consensus.scalingDifficultyWord Consensus.scalingDifficulty
    by_cases hsize : header.proofOfWork.edgeBits.toNat < Consensus.baseEdgeBits
    · rw [if_pos hsize, if_pos (Consensus.excess_of_small hsize)]
      rfl
    · have hexcess := Consensus.toNat_excess (Nat.le_of_not_lt hsize)
      have hshift : ¬ 64 ≤ header.proofOfWork.edgeBits.toUInt64 - 24 := by
        rw [UInt64.le_iff_toNat_le, hexcess, show (64 : UInt64).toNat = 64 from rfl]
        omega
      rw [if_neg hsize, if_neg hshift, Exec.ok_bind, Except.map, Uint128.toNat_ofUInt64,
        Consensus.toNat_weight (Nat.le_of_not_lt hsize) hle]

/-- The word that is returned, for a quotient. -/
theorem toNat_lower_or_max (q : Uint128) :
    (if q.ltWord (UInt64.ofNat (2 ^ 64 - 1)) then q.lower else UInt64.ofNat (2 ^ 64 - 1)).toNat =
      min (2 ^ 64 - 1) q.toNat := by
  have hmax : (UInt64.ofNat (2 ^ 64 - 1)).toNat = 2 ^ 64 - 1 := rfl
  have hlower := q.lower.toNat_lt
  split_ifs with hlt
  · have hlt := Uint128.ltWord_iff.1 hlt
    rw [hmax] at hlt
    rw [Nat.min_eq_right (Nat.le_of_lt hlt)]
    unfold Uint128.toNat at hlt ⊢
    omega
  · have hge := mt Uint128.ltWord_iff.2 hlt
    rw [hmax] at hge ⊢
    omega

/-- The divisor, `std::max` on words. -/
theorem toNat_hash128 (h : Hash) :
    (Uint128.ofUInt64 (if 1 < UInt64.ofNat h.first64 then UInt64.ofNat h.first64 else 1)).toNat =
      max 1 h.first64 := by
  have h1 : (1 : UInt64).toNat = 1 := UInt64.toNat_one
  have hhash : (UInt64.ofNat h.first64).toNat = h.first64 := by
    rw [UInt64.toNat_ofNat']
    exact Nat.mod_eq_of_lt (Nat.mod_lt _ (Nat.two_pow_pos 64))
  rw [Uint128.toNat_ofUInt64]
  split_ifs with hone <;> rw [UInt64.lt_iff_toNat_lt, hhash, h1] at hone
  · rw [hhash, Nat.max_eq_right (Nat.le_of_lt hone)]
  · rw [h1, Nat.max_eq_left (Nat.le_of_not_lt hone)]

/-- **The bound computed with words is the bound**, undefined where it is undefined. -/
theorem toNat_getMaximumDifficultyWords (G : Global) (header : BlockHeader) :
    (getMaximumDifficultyWords G header).map UInt64.toNat = getMaximumDifficulty G header := by
  have hmap := map_toNat_scalingDifficultyWords header
  rw [getMaximumDifficulty_eq, getMaximumDifficultyWords]
  cases hscaling : scalingDifficultyWords header with
  | error e =>
    rw [hscaling] at hmap
    rw [← hmap]
    rfl
  | ok scaling =>
    rw [hscaling, Except.map] at hmap
    have hlt := scaleOf_lt hmap.symm
    have hscaled : (scaling.shiftLeft (Uint128.ofUInt64 64)).toNat = scaling.toNat * 2 ^ 64 := by
      rw [Uint128.toNat_shiftLeft, Uint128.toNat_ofUInt64, show (64 : UInt64).toNat = 64 from rfl]
      exact Nat.mod_eq_of_lt (by omega)
    have hhash := toNat_hash128 (header.getHash G)
    obtain ⟨q, hq, hquotient⟩ := Uint128.div_ok
      (by rw [hhash]; omega) (scaling.shiftLeft (Uint128.ofUInt64 64))
    rw [hhash, hscaled] at hquotient
    have hreturned := toNat_lower_or_max q
    rw [hquotient] at hreturned
    rw [← hmap, Exec.ok_bind, Exec.ok_bind]
    dsimp only
    rw [hq, Exec.ok_bind, maxWork, ← hreturned]
    split_ifs <;> rfl

end PoWValidator

end GrinPlusPlus
