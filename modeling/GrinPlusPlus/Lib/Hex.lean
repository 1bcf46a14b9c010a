import Mathlib.Data.List.Basic
import Mathlib.Tactic.IntervalCases

/-!
# Hexadecimal digits

A byte is written as two digits, the high one first and in lower case (`Hex.digits`), and a digit
is read in either case (`Hex.value`). Reading the two digits gives back the byte
(`Hex.value_high`, `Hex.value_low`, `Hex.byte_halves`); which other characters the digits are
*not* is what a reader that skips or strips characters needs to know (`Hex.of_mem_digits`).
-/

namespace Hex

/-- What a hexadecimal digit stands for. -/
def value (c : Char) : Option ℕ :=
  if '0' ≤ c ∧ c ≤ '9' then some (c.toNat - '0'.toNat)
  else if 'a' ≤ c ∧ c ≤ 'f' then some (10 + (c.toNat - 'a'.toNat))
  else if 'A' ≤ c ∧ c ≤ 'F' then some (10 + (c.toNat - 'A'.toNat))
  else none

/-- The byte of two halves. -/
def byte (high low : ℕ) : UInt8 :=
  UInt8.ofNat (16 * high + low)

/-- The two digits of a byte. -/
def digits (b : UInt8) : List Char :=
  [Nat.digitChar (b.toNat / 16), Nat.digitChar (b.toNat % 16)]

theorem value_digitChar {d : ℕ} (h : d < 16) : value d.digitChar = some d := by
  interval_cases d <;> decide

theorem high_lt (b : UInt8) : b.toNat / 16 < 16 := by
  have h := b.toNat_lt
  omega

theorem low_lt (b : UInt8) : b.toNat % 16 < 16 :=
  Nat.mod_lt _ (by decide)

theorem value_high (b : UInt8) : value (Nat.digitChar (b.toNat / 16)) = some (b.toNat / 16) :=
  value_digitChar (high_lt b)

theorem value_low (b : UInt8) : value (Nat.digitChar (b.toNat % 16)) = some (b.toNat % 16) :=
  value_digitChar (low_lt b)

theorem byte_halves (b : UInt8) : byte (b.toNat / 16) (b.toNat % 16) = b := by
  rw [byte, Nat.div_add_mod, UInt8.ofNat_toNat]

/-- A property of the sixteen digits, for the digits of a byte. -/
theorem of_mem_digits {P : Char → Prop} (h : ∀ d < 16, P (Nat.digitChar d)) {b : UInt8} {c : Char}
    (hc : c ∈ digits b) : P c := by
  rw [digits, List.mem_pair] at hc
  rcases hc with rfl | rfl
  · exact h _ (high_lt b)
  · exact h _ (low_lt b)

/-- The same for the digits of a string of bytes. -/
theorem of_mem_flatMap_digits {P : Char → Prop} (h : ∀ d < 16, P (Nat.digitChar d))
    {bytes : List UInt8} {c : Char} (hc : c ∈ bytes.flatMap digits) : P c := by
  obtain ⟨b, -, hb⟩ := List.mem_flatMap.mp hc
  exact of_mem_digits h hb

end Hex
