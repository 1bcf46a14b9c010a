import GrinPlusPlus.Core.Serialization
import GrinPlusPlus.Lib.Digits

/-!
# Base58

`Base58` of `Core/Serialization`. A string of bytes is read as one number and written in base 58;
the zero bytes in front of it are no part of the number. The version of the code that comes from
a cryptocurrency's addresses writes each of them as a `1` (`include_version`), the version that
slatepacks use does not:

* `GrinPlusPlus.Base58.decode_encode_version` – with `include_version` every string of bytes comes
  back;
* `GrinPlusPlus.Base58.decode_encode` – without it a string comes back **without its leading
  zeros**.

The two checksummed forms differ in where they put the checksum. `EncodeCheck` puts it behind the
data and includes the version, and what it writes is always read back
(`GrinPlusPlus.Base58.decodeCheck_encodeCheck`). `SimpleEncodeCheck` puts it in front and leaves
the version out, and a checksum that begins with a zero byte is not there any more when it is
read: `GrinPlusPlus.Base58.simpleDecodeCheck_simpleEncodeCheck_iff`.
-/

namespace GrinPlusPlus

namespace Base58

/-! ### The alphabet -/

/-- `pszBase58`. -/
def pszBase58 : List Char :=
  ['1', '2', '3', '4', '5', '6', '7', '8', '9',
    'A', 'B', 'C', 'D', 'E', 'F', 'G', 'H', 'J', 'K', 'L', 'M', 'N', 'P', 'Q', 'R', 'S', 'T',
    'U', 'V', 'W', 'X', 'Y', 'Z', 'a', 'b', 'c', 'd', 'e', 'f', 'g', 'h', 'i', 'j', 'k', 'm',
    'n', 'o', 'p', 'q', 'r', 's', 't', 'u', 'v', 'w', 'x', 'y', 'z']

/-- `mapBase58`, up to the last of its 256 entries that is not `-1`. -/
def mapBase58 : List ℤ :=
  [-1, -1, -1, -1, -1, -1, -1, -1, -1, -1, -1, -1, -1, -1, -1, -1,
    -1, -1, -1, -1, -1, -1, -1, -1, -1, -1, -1, -1, -1, -1, -1, -1,
    -1, -1, -1, -1, -1, -1, -1, -1, -1, -1, -1, -1, -1, -1, -1, -1,
    -1, 0, 1, 2, 3, 4, 5, 6, 7, 8, -1, -1, -1, -1, -1, -1,
    -1, 9, 10, 11, 12, 13, 14, 15, 16, -1, 17, 18, 19, 20, 21, -1,
    22, 23, 24, 25, 26, 27, 28, 29, 30, 31, 32, -1, -1, -1, -1, -1,
    -1, 33, 34, 35, 36, 37, 38, 39, 40, 41, 42, 43, -1, 44, 45, 46,
    47, 48, 49, 50, 51, 52, 53, 54, 55, 56, 57]

/-- The symbol of a digit. -/
def symbol (d : ℕ) : Char := pszBase58.getD d '1'

/-- The digit of a symbol, or the exception for what is none. -/
def digit (c : Char) : Except Exc ℕ :=
  let carry := mapBase58.getD c.toNat (-1)
  if carry = -1 then .error stdException else .ok carry.toNat

/-- `IsSpace`. -/
def isSpace (c : Char) : Bool :=
  c = ' ' || c = '\x0c' || c = '\n' || c = '\x0d' || c = '\t' || c = '\x0b'

/-! ### Encoding and decoding -/

/-- `Base58::Encode`. -/
def encode (bytes : List UInt8) (includeVersion : Bool) : List Char :=
  let number := if includeVersion then bytes.dropWhile (· = 0) else bytes
  let zeroes := bytes.length - number.length
  let size := number.length * 138 / 100 + 1
  let b58 := Digits.convert 58 256 size (number.map UInt8.toNat)
  List.replicate zeroes '1' ++ (Digits.significant b58).map symbol

/-- One character of `Base58::Decode`. -/
def pushSymbol (b256 : List ℕ × ℕ) (c : Char) : Except Exc (List ℕ × ℕ) := do
  let carry ← digit c
  pure (Digits.push 256 58 b256 carry)

/-- `Base58::Decode`, of a string that ends with its first null. -/
def decode (psz : List Char) (includeVersion : Bool) : Except Exc (List UInt8) := do
  let psz := (psz.takeWhile (· ≠ '\x00')).dropWhile isSpace
  let number := if includeVersion then psz.dropWhile (· = '1') else psz
  let zeroes := psz.length - number.length
  let size := number.length * 733 / 1000 + 1
  let b256 ← (number.takeWhile fun c => !isSpace c).foldlM pushSymbol (List.replicate size 0, 0)
  if (number.dropWhile fun c => !isSpace c).dropWhile isSpace ≠ [] then .error stdException
  else pure (List.replicate zeroes 0 ++ (Digits.significant b256).map UInt8.ofNat)

section Checksum

variable (sha256 : List UInt8 → CBigInteger 32)

/-- `Base58::SHA256d`, its first four bytes. -/
def checksum (bytes : List UInt8) : List UInt8 :=
  (sha256 (sha256 bytes).bytes).bytes.take 4

/-- `Base58::EncodeCheck`. -/
def encodeCheck (vchIn : List UInt8) : List Char :=
  encode (vchIn ++ checksum sha256 vchIn) true

/-- `Base58::DecodeCheck`. -/
def decodeCheck (psz : List Char) : Except Exc (List UInt8) := do
  let decoded ← decode psz true
  if decoded.length < 4 then .error stdException
  else if checksum sha256 (decoded.take (decoded.length - 4))
      ≠ decoded.drop (decoded.length - 4) then .error stdException
  else pure (decoded.take (decoded.length - 4))

/-- `Base58::SimpleEncodeCheck`. -/
def simpleEncodeCheck (vchIn : List UInt8) : List Char :=
  encode (checksum sha256 vchIn ++ vchIn) false

/-- `Base58::SimpleDecodeCheck`. -/
def simpleDecodeCheck (str : List Char) : Except Exc (List UInt8) := do
  let decoded ← decode str false
  if decoded.length < 4 then .error stdException
  else if checksum sha256 (decoded.drop 4) ≠ decoded.take 4 then .error stdException
  else pure (decoded.drop 4)

end Checksum

/-! ### Symbols -/

theorem digit_symbol {d : ℕ} (hd : d < 58) : digit (symbol d) = .ok d := by
  have h : ∀ d < 58, mapBase58.getD (symbol d).toNat (-1) = d := by decide
  rw [digit, h d hd, if_neg (by omega)]
  rfl

theorem symbol_plain {d : ℕ} (hd : d < 58) :
    isSpace (symbol d) = false ∧ symbol d ≠ '\x00' ∧ symbol d ≠ '.' := by
  have h : ∀ d < 58, isSpace (symbol d) = false ∧ symbol d ≠ '\x00' ∧ symbol d ≠ '.' := by decide
  exact h d hd

theorem symbol_eq_one_iff {d : ℕ} (hd : d < 58) : symbol d = '1' ↔ d = 0 := by
  have h : ∀ d < 58, symbol d = '1' ↔ d = 0 := by decide
  exact h d hd

theorem foldlM_pushSymbol {ds : List ℕ} (hds : ∀ d ∈ ds, d < 58) (b256 : List ℕ × ℕ) :
    (ds.map symbol).foldlM pushSymbol b256 = .ok (ds.foldl (Digits.push 256 58) b256) := by
  induction ds generalizing b256 with
  | nil => rfl
  | cons d ds ih =>
    rw [List.map_cons, List.foldlM_cons, pushSymbol, digit_symbol (hds d List.mem_cons_self)]
    exact ih (fun x hx => hds x (List.mem_cons_of_mem d hx)) _

/-! ### The buffers are large enough -/

/-- A power that is smaller for some exponents is so for their multiples. -/
theorem pow_le_pow_of_ratio {a b p q : ℕ} (h : a ^ q ≤ b ^ p) (hq : 0 < q) (hb : 0 < b) (n : ℕ) :
    a ^ n ≤ b ^ (n * p / q + 1) := by
  refine (Nat.pow_le_pow_iff_left (Nat.pos_iff_ne_zero.mp hq)).mp ?_
  calc (a ^ n) ^ q = (a ^ q) ^ n := by rw [← pow_mul, ← pow_mul, Nat.mul_comm]
    _ ≤ (b ^ p) ^ n := Nat.pow_le_pow_left h n
    _ = b ^ (n * p) := by rw [← pow_mul, Nat.mul_comm]
    _ ≤ b ^ ((n * p / q + 1) * q) := by
      refine Nat.pow_le_pow_right hb ?_
      have hdiv := Nat.div_add_mod (n * p) q
      have hmod := Nat.mod_lt (n * p) hq
      rw [Nat.add_mul, Nat.one_mul, Nat.mul_comm (n * p / q)]
      omega
    _ = (b ^ (n * p / q + 1)) ^ q := by rw [pow_mul]

theorem pow_256_le (n : ℕ) : 256 ^ n ≤ 58 ^ (n * 138 / 100 + 1) :=
  pow_le_pow_of_ratio (by decide +kernel) (by decide) (by decide) n

theorem pow_58_le (n : ℕ) : 58 ^ n ≤ 256 ^ (n * 733 / 1000 + 1) :=
  pow_le_pow_of_ratio (by decide +kernel) (by decide) (by decide) n

/-! ### The round trips -/

/-- The number that a string of bytes stands for. -/
def number (bytes : List UInt8) : ℕ :=
  Nat.ofDigits 256 (bytes.map UInt8.toNat).reverse

theorem toNat_lt_256 (bytes : List UInt8) : ∀ c ∈ bytes.map UInt8.toNat, c < 256 := by
  intro c hc
  obtain ⟨b, -, rfl⟩ := List.mem_map.mp hc
  exact b.toNat_lt

theorem digits_58_lt (n : ℕ) : ∀ d ∈ (Nat.digits 58 n).reverse, d < 58 :=
  fun _ hd => Nat.digits_lt_base (by decide) (List.mem_reverse.mp hd)

theorem encode_false (bytes : List UInt8) :
    encode bytes false = (Nat.digits 58 (number bytes)).reverse.map symbol := by
  have hbuffer := Digits.holds_convert (B := 58) (by decide) (by decide) (toNat_lt_256 bytes)
    (by rw [List.length_map]; exact pow_256_le bytes.length)
  simp [encode, Digits.significant_of_holds (by decide) hbuffer, number]

theorem encode_true (bytes : List UInt8) :
    encode bytes true = List.replicate (bytes.length - (bytes.dropWhile (· = 0)).length) '1'
      ++ encode (bytes.dropWhile (· = 0)) false := by
  simp [encode]

/-- Dropping zero bytes and dropping zero digits is the same. -/
theorem map_ofNat_digits_number (bytes : List UInt8) :
    (Nat.digits 256 (number bytes)).reverse.map UInt8.ofNat = bytes.dropWhile (· = 0) := by
  have hzero : ((fun n : ℕ => decide (n = 0)) ∘ UInt8.toNat) = fun b : UInt8 => decide (b = 0) := by
    ext b
    simp [← UInt8.toNat_inj]
  rw [number, Digits.reverse_digits_ofDigits (by decide) (toNat_lt_256 bytes),
    List.dropWhile_map, hzero, List.map_map]
  simp [Function.comp_def]

/-- Reading the symbols of a number, whatever characters they are taken from. -/
theorem foldlM_digits (n : ℕ) :
    ∃ b256, ((Nat.digits 58 n).reverse.map symbol).foldlM pushSymbol
        (List.replicate ((Nat.digits 58 n).length * 733 / 1000 + 1) 0, 0) = .ok b256 ∧
      Digits.significant b256 = (Nat.digits 256 n).reverse := by
  have hbuffer := Digits.holds_convert (B := 256) (m := 58) (by decide) (by decide)
    (digits_58_lt n) (by rw [List.length_reverse]; exact pow_58_le (Nat.digits 58 n).length)
  rw [List.reverse_reverse, Nat.ofDigits_digits] at hbuffer
  exact ⟨_, foldlM_pushSymbol (digits_58_lt n) _, Digits.significant_of_holds (by decide) hbuffer⟩

/-- What `Decode` makes of symbols: nothing is skipped and nothing ends them early. -/
theorem decode_symbols {ds : List ℕ} (hds : ∀ d ∈ ds, d < 58) (includeVersion : Bool) :
    decode (ds.map symbol) includeVersion = (do
      let number := if includeVersion then ds.dropWhile (· = 0) else ds
      let b256 ← (number.map symbol).foldlM pushSymbol
        (List.replicate (number.length * 733 / 1000 + 1) 0, 0)
      pure (List.replicate (ds.length - number.length) 0 ++
        (Digits.significant b256).map UInt8.ofNat)) := by
  have hplain : ∀ l : List ℕ, (∀ d ∈ l, d < 58) → ∀ c ∈ l.map symbol,
      isSpace c = false ∧ c ≠ '\x00' ∧ c ≠ '.' := by
    intro l hl c hc
    obtain ⟨d, hd, rfl⟩ := List.mem_map.mp hc
    exact symbol_plain (hl d hd)
  have hspace : ∀ l : List ℕ, (∀ d ∈ l, d < 58) →
      (l.map symbol).dropWhile isSpace = l.map symbol := by
    intro l hl
    cases l with
    | nil => rfl
    | cons d l => simp [(symbol_plain (hl d List.mem_cons_self)).1]
  have hnull : (ds.map symbol).takeWhile (· ≠ '\x00') = ds.map symbol :=
    List.takeWhile_eq_self_iff.mpr fun c hc => by simpa using (hplain ds hds c hc).2.1
  have hones : (ds.map symbol).dropWhile (· = '1') = (ds.dropWhile (· = 0)).map symbol := by
    clear hplain hspace hnull
    induction ds with
    | nil => rfl
    | cons d ds ih =>
      have hone := symbol_eq_one_iff (hds d List.mem_cons_self)
      rw [List.map_cons, List.dropWhile_cons, List.dropWhile_cons]
      simp only [hone]
      split
      · exact ih fun x hx => hds x (List.mem_cons_of_mem d hx)
      · rfl
  have hnumber : (if includeVersion = true then (ds.map symbol).dropWhile (· = '1')
      else ds.map symbol)
        = (if includeVersion = true then ds.dropWhile (· = 0) else ds).map symbol := by
    split
    · exact hones
    · rfl
  have hlt : ∀ d ∈ (if includeVersion = true then ds.dropWhile (· = 0) else ds), d < 58 := by
    intro d hd
    split at hd
    · exact hds d ((List.dropWhile_suffix _).subset hd)
    · exact hds d hd
  have htake : ∀ l : List ℕ, (∀ d ∈ l, d < 58) →
      (l.map symbol).takeWhile (fun c => !isSpace c) = l.map symbol := fun l hl =>
    List.takeWhile_eq_self_iff.mpr fun c hc => by simp [(hplain l hl c hc).1]
  have hdrop : ∀ l : List ℕ, (∀ d ∈ l, d < 58) →
      (l.map symbol).dropWhile (fun c => !isSpace c) = [] := fun l hl =>
    List.dropWhile_eq_nil_iff.mpr fun c hc => by simp [(hplain l hl c hc).1]
  simp only [decode, hnull, hspace ds hds, hnumber, htake _ hlt, hdrop _ hlt, List.length_map,
    List.dropWhile_nil, ne_eq, not_true_eq_false, if_false]

/-- **Without the version, leading zeros are lost**, and nothing else. -/
theorem decode_encode (bytes : List UInt8) :
    decode (encode bytes false) false = .ok (bytes.dropWhile (· = 0)) := by
  obtain ⟨b256, hfold, hdigits⟩ := foldlM_digits (number bytes)
  rw [encode_false, decode_symbols (digits_58_lt _)]
  simp only [Bool.false_eq_true, if_false, List.length_reverse, Nat.sub_self]
  rw [hfold, Exec.ok_bind, hdigits, map_ofNat_digits_number]
  rfl

/-- What is encoded has no white space and no dots. -/
theorem encode_plain (bytes : List UInt8) :
    ∀ c ∈ encode bytes false, isSpace c = false ∧ c ≠ '.' := by
  intro c hc
  rw [encode_false] at hc
  obtain ⟨d, hd, rfl⟩ := List.mem_map.mp hc
  exact ⟨(symbol_plain (digits_58_lt _ d hd)).1, (symbol_plain (digits_58_lt _ d hd)).2.2⟩

/-- Bytes that are not all zero are not encoded as nothing. -/
theorem encode_ne_nil {bytes : List UInt8} {b : UInt8} (hb : b ∈ bytes) (hne : b ≠ 0) :
    encode bytes false ≠ [] := by
  intro h
  have hdecode := decode_encode bytes
  rw [h] at hdecode
  have hnil : bytes.dropWhile (· = 0) = [] := (Except.ok.inj hdecode).symm
  exact hne (by simpa using List.dropWhile_eq_nil_iff.mp hnil b hb)

/-- The first digit of a number is not zero. -/
theorem dropWhile_digits (n : ℕ) :
    (Nat.digits 58 n).reverse.dropWhile (· = 0) = (Nat.digits 58 n).reverse := by
  have h := Digits.digits_ofDigits_eq (B := 58) (by decide)
    fun d hd => Nat.digits_lt_base (by decide) (m := n) hd
  rw [Nat.ofDigits_digits, List.rdropWhile] at h
  exact (List.reverse_eq_iff.mp h.symm)

/-- **With the version, every string of bytes comes back.** -/
theorem decode_encode_version (bytes : List UInt8) :
    decode (encode bytes true) true = .ok bytes := by
  generalize hz : bytes.length - (bytes.dropWhile (· = 0)).length = z
  have hbytes : List.replicate z 0 ++ bytes.dropWhile (· = 0) = bytes := by
    have hzeros : bytes.takeWhile (· = 0) = List.replicate z 0 := by
      have hlength := congrArg List.length
        (List.takeWhile_append_dropWhile (p := fun b : UInt8 => decide (b = 0)) (l := bytes))
      rw [List.length_append] at hlength
      rw [List.eq_replicate_iff]
      exact ⟨by omega, fun b hb => by simpa using List.mem_takeWhile_imp hb⟩
    rw [← hzeros, List.takeWhile_append_dropWhile]
  obtain ⟨b256, hfold, hdigits⟩ := foldlM_digits (number (bytes.dropWhile (· = 0)))
  have hds : ∀ d ∈ List.replicate z 0 ++
      (Nat.digits 58 (number (bytes.dropWhile (· = 0)))).reverse, d < 58 := by
    intro d hd
    rcases List.mem_append.mp hd with hd | hd
    · rw [List.eq_of_mem_replicate hd]
      decide
    · exact digits_58_lt _ d hd
  have hsymbols : encode bytes true = (List.replicate z 0 ++
      (Nat.digits 58 (number (bytes.dropWhile (· = 0)))).reverse).map symbol := by
    rw [encode_true, hz, encode_false, List.map_append, List.map_replicate]
    rfl
  have hnumber : (List.replicate z 0 ++
      (Nat.digits 58 (number (bytes.dropWhile (· = 0)))).reverse).dropWhile (· = 0)
        = (Nat.digits 58 (number (bytes.dropWhile (· = 0)))).reverse := by
    rw [List.dropWhile_append_of_pos (by simp), dropWhile_digits]
  have hdrop : (bytes.dropWhile (· = 0)).dropWhile (· = 0) = bytes.dropWhile (· = 0) :=
    List.dropWhile_idempotent _ _
  rw [hsymbols, decode_symbols hds]
  simp only [if_true, hnumber, List.length_reverse]
  rw [hfold, Exec.ok_bind, hdigits, map_ofNat_digits_number, hdrop]
  simp only [List.length_append, List.length_replicate, List.length_reverse,
    Nat.add_sub_cancel, hbytes]
  rfl

/-! ### The checksums -/

section Checksum

variable (sha256 : List UInt8 → CBigInteger 32)

theorem length_checksum (bytes : List UInt8) : (checksum sha256 bytes).length = 4 := by
  rw [checksum, List.length_take, (sha256 _).length_eq]
  rfl

/-- **A checksum behind the data**, with the version, is always found again. -/
theorem decodeCheck_encodeCheck (bytes : List UInt8) :
    decodeCheck sha256 (encodeCheck sha256 bytes) = .ok bytes := by
  have hlength := length_checksum sha256 bytes
  have hfront : (bytes ++ checksum sha256 bytes).length - 4 = bytes.length := by
    rw [List.length_append, hlength, Nat.add_sub_cancel]
  rw [decodeCheck, encodeCheck, decode_encode_version, Exec.ok_bind, hfront, List.take_left,
    List.drop_left, if_neg (by rw [List.length_append]; omega), if_neg (by simp)]
  rfl

/-- What a checksum in front of the data becomes when its leading zeros are lost: the bytes that
`SimpleDecodeCheck` gets. -/
theorem simpleDecodeCheck_simpleEncodeCheck (bytes : List UInt8) :
    simpleDecodeCheck sha256 (simpleEncodeCheck sha256 bytes) =
      let decoded := (checksum sha256 bytes ++ bytes).dropWhile (· = 0)
      if decoded.length < 4 then .error stdException
      else if checksum sha256 (decoded.drop 4) ≠ decoded.take 4 then .error stdException
      else .ok (decoded.drop 4) := by
  rw [simpleDecodeCheck, simpleEncodeCheck, decode_encode, Exec.ok_bind]
  rfl

/-- The first byte of the checksum is not zero. -/
def LeadingByteKept (bytes : List UInt8) : Prop :=
  (checksum sha256 bytes).head? ≠ some 0

instance : DecidablePred (LeadingByteKept sha256) :=
  fun bytes => inferInstanceAs (Decidable ((checksum sha256 bytes).head? ≠ some 0))

theorem dropWhile_checksum {bytes : List UInt8} (h : LeadingByteKept sha256 bytes) :
    (checksum sha256 bytes ++ bytes).dropWhile (· = 0) = checksum sha256 bytes ++ bytes := by
  have hlength := length_checksum sha256 bytes
  rw [LeadingByteKept] at h
  generalize checksum sha256 bytes = front at h hlength
  cases front with
  | nil => simp at hlength
  | cons b front =>
    have hb : b ≠ 0 := by simpa using h
    simp [hb]

/-- **A checksum in front of the data**, without the version, is found again exactly when its
first byte is not zero. -/
theorem simpleDecodeCheck_simpleEncodeCheck_iff (bytes : List UInt8) :
    simpleDecodeCheck sha256 (simpleEncodeCheck sha256 bytes) = .ok bytes ↔
      LeadingByteKept sha256 bytes := by
  have hlength := length_checksum sha256 bytes
  rw [simpleDecodeCheck_simpleEncodeCheck]
  constructor
  · intro h hzero
    have hshort :
        ((checksum sha256 bytes ++ bytes).dropWhile (· = 0)).length < bytes.length + 4 := by
      generalize checksum sha256 bytes = front at hzero hlength
      cases front with
      | nil => simp at hlength
      | cons b front =>
        have hb : b = 0 := by simpa using hzero
        have hle := (List.dropWhile_suffix (fun b : UInt8 => decide (b = 0))
          (l := front ++ bytes)).length_le
        rw [List.cons_append, List.dropWhile_cons_of_pos (by simp [hb])]
        simp only [List.length_append, List.length_cons] at hle hlength
        omega
    simp only at h
    split at h
    · cases h
    · split at h
      · cases h
      · have hdrop := congrArg List.length (Except.ok.inj h)
        rw [List.length_drop] at hdrop
        omega
  · intro h
    have hlong : ¬ (checksum sha256 bytes ++ bytes).length < 4 := by
      rw [List.length_append]
      omega
    simp only [dropWhile_checksum sha256 h, if_neg hlong, List.drop_left' hlength,
      List.take_left' hlength, ne_eq, not_true_eq_false, if_false]

end Checksum

end Base58

end GrinPlusPlus
