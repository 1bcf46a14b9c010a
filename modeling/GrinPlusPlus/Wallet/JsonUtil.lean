import GrinPlusPlus.Core.Serialization
import GrinPlusPlus.Lib.Hex
import GrinPlusPlus.Wallet.Mnemonic

/-!
# JSON values and their readers

`JsonUtil` reads the members of a JSON object one at a time, and each reader accepts more than
the writers of the source produce: a number may stand there as a number or as text, hexadecimal
text may be in either case, with white space around it and with a prefix. The values are those of
the JSON library (`GrinPlusPlus.Json`), without its reals; text form and parsing are left to the
library.

What the readers make of what was written is settled once for each of them. The lemmas are all
stated for a member (`GrinPlusPlus.Json.HasMember`), which is either absent or not null, since
absence and null are the same thing to the readers:

* `GrinPlusPlus.HexUtil.fromHex_toHex` – bytes that were written in hexadecimal;
* `GrinPlusPlus.JsonUtil.stoull_decimal` – numbers that were written in decimal.
-/

namespace GrinPlusPlus

open Exec

/-! ### Values -/

/-- `Json::Value`, without the reals. The members of an object are in the order of their keys. -/
inductive Json
  | null
  | bool (b : Bool)
  | int (n : Int64)
  | uint (n : UInt64)
  | string (s : String)
  | array (elements : List Json)
  | object (members : List (String × Json))

namespace Json

/-- `json[key] = value`, on the members of an object. -/
def set (members : List (String × Json)) (key : String) (value : Json) : List (String × Json) :=
  match members with
  | [] => [(key, value)]
  | (k, v) :: rest =>
    if key < k then (key, value) :: (k, v) :: rest
    else if key = k then (key, value) :: rest
    else (k, v) :: set rest key value

/-- The same for a value that may not be there, in which case nothing is assigned. -/
def setOpt (members : List (String × Json)) (key : String) (value : Option Json) :
    List (String × Json) :=
  match value with
  | some value => set members key value
  | none => members

/-- `Json::Value::isNull`. -/
def isNull : Json → Bool
  | null => true
  | _ => false

/-- `Json::Value::isArray`, and the elements. -/
def elements? : Json → Option (List Json)
  | array elements => some elements
  | _ => none

/-- `Json::Value::get`, with null for a member that is not there. -/
def get (node : Json) (key : String) : Except Exc Json :=
  match node with
  | null => .ok null
  | object members => .ok ((members.lookup key).getD null)
  | _ => .error (.runtime
      "in Json::Value::find(begin, end): requires objectValue or nullValue")

/-- `Json::Value::asString`. -/
def asString : Json → Except Exc String
  | null => .ok ""
  | string s => .ok s
  | bool b => .ok (if b then "true" else "false")
  | int n => .ok (toString n.toInt)
  | uint n => .ok (toString n.toNat)
  | _ => .error (.runtime "Type is not convertible to string")

/-- `Json::Value::isUInt64`, and `Json::Value::asUInt64`. -/
def asUInt64? : Json → Option UInt64
  | int n => if 0 ≤ n then some n.toUInt64 else none
  | uint n => some n
  | _ => none

theorem lookup_cons_eq (k k' : String) (v : Json) (rest : List (String × Json)) :
    ((k', v) :: rest).lookup k = if k = k' then some v else rest.lookup k := by
  rw [List.lookup_cons]
  by_cases h : k = k'
  · rw [if_pos h, beq_iff_eq.mpr h]
  · rw [if_neg h, beq_eq_false_iff_ne.mpr h]

theorem lookup_set (members : List (String × Json)) (key k : String) (value : Json) :
    (set members key value).lookup k = if k = key then some value else members.lookup k := by
  induction members with
  | nil => rw [set, lookup_cons_eq]
  | cons m rest ih =>
    obtain ⟨k', v⟩ := m
    rw [set]
    by_cases hlt : key < k'
    · rw [if_pos hlt, lookup_cons_eq]
    rw [if_neg hlt]
    by_cases heq : key = k'
    · rw [if_pos heq, lookup_cons_eq, lookup_cons_eq, ← heq]
      split_ifs <;> rfl
    · rw [if_neg heq, lookup_cons_eq, lookup_cons_eq, ih]
      by_cases hk : k = key
      · have hne : k ≠ k' := fun h => heq (hk ▸ h)
        rw [if_neg hne, if_pos hk, if_pos hk]
      · rw [if_neg hk, if_neg hk]

theorem lookup_setOpt (members : List (String × Json)) (key k : String) (value : Option Json) :
    (setOpt members key value).lookup k =
      if k = key then value.or (members.lookup k) else members.lookup k := by
  cases value with
  | none => simp [setOpt]
  | some value => simp [setOpt, lookup_set]

/-- **A member of an object**: a value that is not null, or nothing at all. -/
def HasMember (json : Json) (key : String) (value : Option Json) : Prop :=
  ∃ members, json = object members ∧ members.lookup key = value ∧ value ≠ some null

theorem get_of_hasMember {json : Json} {key : String} {value : Option Json}
    (h : HasMember json key value) : json.get key = .ok (value.getD null) := by
  obtain ⟨members, rfl, hmember, -⟩ := h
  rw [get, hmember]

end Json

/-! ### Hexadecimal text -/

/-- `CBigInteger::ToHex`, as a list of characters. -/
theorem toList_toHex {n : ℕ} (b : CBigInteger n) : b.toHex.toList = b.bytes.flatMap Hex.digits := by
  rw [CBigInteger.toHex, String.toList_ofList]
  rfl

namespace HexUtil

/-- `HexUtil::IsValidHex`. -/
def isValidHex (data : List Char) : Bool :=
  (if 2 < data.length ∧ data.take 2 = ['0', 'x'] then data.drop 2 else data).all fun c =>
    (Hex.value c).isSome

/-- `cppcodec::symbol_error`. -/
def symbolError (c : Char) : Exc :=
  .runtime ("parse error: character [" ++ toString c.toNat ++ " '" ++ c.toString ++
    "'] out of bounds")

/-- `cppcodec::invalid_input_length`. -/
def invalidInputLength : Exc :=
  .runtime ("odd-length hex input is not supported by the streaming octet decoder, " ++
    "use a place-based number decoder instead")

/-- `cppcodec::hex_lower::decode`, of a string without nulls. -/
def decode : List Char → Except Exc (List UInt8)
  | [] => .ok []
  | [a] =>
    match Hex.value a with
    | some _ => .error invalidInputLength
    | none => .error (symbolError a)
  | a :: b :: rest =>
    match Hex.value a, Hex.value b with
    | some high, some low => do
      let bytes ← decode rest
      pure (Hex.byte high low :: bytes)
    | some _, none => .error (symbolError b)
    | none, _ => .error (symbolError a)

/-- `HexUtil::FromHex`. -/
def fromHex (hex : List Char) : Except Exc (List UInt8) :=
  let lower := Mnemonic.trim (hex.map Char.toLower)
  let hexClean := if ['0', 'x'].isPrefixOf lower then lower.drop 2 else lower
  if isValidHex hexClean then decode hexClean else .error stdException

theorem decode_digits (bytes : List UInt8) : decode (bytes.flatMap Hex.digits) = .ok bytes := by
  induction bytes with
  | nil => rfl
  | cons b bytes ih =>
    rw [List.flatMap_cons, Hex.digits, List.cons_append, List.cons_append, List.nil_append, decode,
      Hex.value_high, Hex.value_low]
    simp only [ih, ok_bind, Hex.byte_halves]
    rfl

theorem toLower_digits (bytes : List UInt8) :
    (bytes.flatMap Hex.digits).map Char.toLower = bytes.flatMap Hex.digits := by
  refine (List.map_congr_left fun c hc => ?_).trans (List.map_id _)
  refine Hex.of_mem_flatMap_digits (P := fun c => c.toLower = id c) (fun d hd => ?_) hc
  interval_cases d <;> decide

theorem trim_digits (bytes : List UInt8) :
    Mnemonic.trim (bytes.flatMap Hex.digits) = bytes.flatMap Hex.digits := by
  have hspace : ∀ c ∈ bytes.flatMap Hex.digits, ¬Armor.isWhitespace c = true := fun c hc =>
    Hex.of_mem_flatMap_digits (P := fun c => ¬Armor.isWhitespace c = true)
      (fun d hd => by interval_cases d <;> decide) hc
  have hfront : (bytes.flatMap Hex.digits).dropWhile Armor.isWhitespace =
      bytes.flatMap Hex.digits :=
    List.dropWhile_eq_self_iff.mpr fun h => hspace _ (List.getElem_mem h)
  have hback : (bytes.flatMap Hex.digits).reverse.dropWhile Armor.isWhitespace =
      (bytes.flatMap Hex.digits).reverse :=
    List.dropWhile_eq_self_iff.mpr fun h => hspace _ (List.mem_reverse.mp (List.getElem_mem h))
  rw [Mnemonic.trim, hfront, hback, List.reverse_reverse]

theorem isSome_value_digits {bytes : List UInt8} {c : Char}
    (hc : c ∈ bytes.flatMap Hex.digits) : (Hex.value c).isSome = true :=
  Hex.of_mem_flatMap_digits (P := fun c => (Hex.value c).isSome = true)
    (fun d hd => by rw [Hex.value_digitChar hd, Option.isSome_some]) hc

/-- Bytes in hexadecimal have no prefix. -/
theorem take_digits_ne (bytes : List UInt8) : (bytes.flatMap Hex.digits).take 2 ≠ ['0', 'x'] := by
  intro h
  have hx : 'x' ∈ bytes.flatMap Hex.digits := by
    refine List.mem_of_mem_take (i := 2) ?_
    rw [h]
    decide
  exact absurd (isSome_value_digits hx) (by decide)

/-- **Bytes that were written in hexadecimal are read back.** -/
theorem fromHex_digits (bytes : List UInt8) : fromHex (bytes.flatMap Hex.digits) = .ok bytes := by
  have hprefix : ['0', 'x'].isPrefixOf (bytes.flatMap Hex.digits) = false := by
    rw [Bool.eq_false_iff, ne_eq, List.isPrefixOf_iff_prefix]
    intro h
    exact take_digits_ne bytes (List.prefix_iff_eq_take.mp h).symm
  have hvalid : isValidHex (bytes.flatMap Hex.digits) = true := by
    rw [isValidHex, if_neg fun h => take_digits_ne bytes h.2, List.all_eq_true]
    exact fun c hc => isSome_value_digits hc
  rw [fromHex, toLower_digits, trim_digits, hprefix]
  simp only [Bool.false_eq_true, if_false, hvalid, if_true, decode_digits]

end HexUtil

/-! ### Decimal text -/

/-- `std::stoull`, with the name for its exceptions: white space and a sign may stand in front,
and what follows the digits is left alone. A number with a minus wraps around. -/
def stringToUInt64 (name : String) (s : List Char) : Except Exc UInt64 :=
  let text := s.dropWhile Armor.isWhitespace
  let unsigned := if text.head? = some '-' ∨ text.head? = some '+' then text.tail else text
  let digits := unsigned.takeWhile Char.isDigit
  if digits = [] ∨ UInt64.size ≤ Nat.ofDigitChars 10 digits 0 then .error (.runtime name)
  else if text.head? = some '-' then .ok (-UInt64.ofNat (Nat.ofDigitChars 10 digits 0))
  else .ok (UInt64.ofNat (Nat.ofDigitChars 10 digits 0))

/-- `std::stoull`. -/
def stoull : List Char → Except Exc UInt64 := stringToUInt64 "stoull"

/-- `std::stoul`, on a platform where a long has 64 bits. -/
def stoul : List Char → Except Exc UInt64 := stringToUInt64 "stoul"

theorem toList_toString (n : ℕ) : (toString n).toList = Nat.toDigits 10 n := by
  rw [Nat.toString_eq_ofList_toDigits, String.toList_ofList]

theorem isDigit_of_mem {n : ℕ} {c : Char} (h : c ∈ Nat.toDigits 10 n) : c.isDigit = true :=
  Nat.isDigit_of_mem_toDigits (by decide) (by decide) h

/-- A digit is neither white space nor a sign. -/
theorem not_special_of_isDigit {c : Char} (h : c.isDigit = true) :
    Armor.isWhitespace c = false ∧ c ≠ '-' ∧ c ≠ '+' ∧ c ≠ ':' := by
  refine ⟨?_, ?_, ?_, ?_⟩
  · rw [Bool.eq_false_iff]
    intro hspace
    simp only [Armor.isWhitespace, Bool.or_eq_true, decide_eq_true_eq] at hspace
    rcases hspace with ((((rfl | rfl) | rfl) | rfl) | rfl) | rfl <;> exact absurd h (by decide)
  all_goals
    rintro rfl
    exact absurd h (by decide)

/-- **A number that was written in decimal is read back.** -/
theorem stringToUInt64_toString (name : String) {n : ℕ} (hn : n < UInt64.size) :
    stringToUInt64 name (toString n).toList = .ok (UInt64.ofNat n) := by
  have hhead : ∀ c, (Nat.toDigits 10 n).head? = some c → c.isDigit = true := fun c hc =>
    isDigit_of_mem (List.mem_of_head? hc)
  have hspace : (Nat.toDigits 10 n).dropWhile Armor.isWhitespace = Nat.toDigits 10 n :=
    List.dropWhile_eq_self_iff.mpr fun h => by
      rw [(not_special_of_isDigit (isDigit_of_mem (List.getElem_mem h))).1]
      decide
  have hminus : (Nat.toDigits 10 n).head? ≠ some '-' := fun h =>
    (not_special_of_isDigit (hhead _ h)).2.1 rfl
  have hplus : (Nat.toDigits 10 n).head? ≠ some '+' := fun h =>
    (not_special_of_isDigit (hhead _ h)).2.2.1 rfl
  have hdigits : (Nat.toDigits 10 n).takeWhile Char.isDigit = Nat.toDigits 10 n :=
    List.takeWhile_eq_self_iff.mpr fun _ hc => isDigit_of_mem hc
  have hfits : ¬(Nat.toDigits 10 n = [] ∨ UInt64.size ≤ n) := by
    rw [not_or]
    exact ⟨Nat.toDigits_ne_nil, by omega⟩
  rw [stringToUInt64, toList_toString, hspace]
  simp only [hminus, hplus, or_self, if_false, hdigits, Nat.ofDigitChars_ten_toDigits, hfits]

/-! ### Members of an object -/

namespace JsonUtil

/-- `JsonUtil::GetRequiredField`. -/
def getRequiredField (node : Json) (key : String) : Except Exc Json :=
  if node.isNull then .error (.deserialization "json value was null")
  else do
    let value ← node.get key
    if value.isNull then .error (.deserialization ("Json value " ++ key ++ " was null"))
    else .ok value

/-- `JsonUtil::GetOptionalField`. -/
def getOptionalField (node : Json) (key : String) : Except Exc (Option Json) :=
  if node.isNull then .error (.deserialization "json value was null")
  else do
    let value ← node.get key
    if value.isNull then .ok none else .ok (some value)

/-- `JsonUtil::ConvertToVector`; the bytes come with their number. -/
def convertToVector (expectedSize : ℕ) (node : Json) : Except Exc (CBigInteger expectedSize) :=
  if node.isNull then .error (.deserialization "json value was null")
  else do
    let text ← node.asString
    let bytes ← HexUtil.fromHex text.toList
    if h : bytes.length = expectedSize then .ok ⟨bytes, h⟩
    else .error (.deserialization ("Expected " ++ toString expectedSize ++ " bytes, but was " ++
      toString bytes.length))

/-- `JsonUtil::GetBigInteger`. -/
def getBigInteger (n : ℕ) (parentJSON : Json) (key : String) : Except Exc (CBigInteger n) := do
  let value ← getRequiredField parentJSON key
  convertToVector n value

/-- `JsonUtil::GetBigIntegerOpt`. -/
def getBigIntegerOpt (n : ℕ) (parentJSON : Json) (key : String) :
    Except Exc (Option (CBigInteger n)) := do
  let fieldOpt ← getOptionalField parentJSON key
  match fieldOpt with
  | some value => do
    let bytes ← convertToVector n value
    pure (some bytes)
  | none => pure none

/-- `JsonUtil::GetBlindingFactorOpt`. -/
def getBlindingFactorOpt : Json → String → Except Exc (Option BlindingFactor) :=
  getBigIntegerOpt 32

/-- `JsonUtil::GetCommitment`. -/
def getCommitment : Json → String → Except Exc Commitment := getBigInteger 33

/-- `JsonUtil::GetPublicKey`. -/
def getPublicKey : Json → String → Except Exc PublicKey := getBigInteger 33

/-- `JsonUtil::GetRangeProofOpt`. -/
def getRangeProofOpt : Json → String → Except Exc (Option RangeProof) := getBigIntegerOpt 675

/-- `JsonUtil::GetRequiredString`. -/
def getRequiredString (parentJSON : Json) (key : String) : Except Exc String := do
  let value ← getRequiredField parentJSON key
  value.asString

/-- `JsonUtil::ConvertToUInt64`. -/
def convertToUInt64 (uint64JSON : Json) : Except Exc UInt64 :=
  match uint64JSON.asUInt64? with
  | some n => .ok n
  | none =>
    match uint64JSON with
    | .string s => stoull s.toList
    | _ => .error (.deserialization "Value is not a uint64")

/-- `JsonUtil::GetUInt64Opt`. -/
def getUInt64Opt (parentJSON : Json) (key : String) : Except Exc (Option UInt64) := do
  let json ← getOptionalField parentJSON key
  match json with
  | some value => do
    let n ← convertToUInt64 value
    pure (some n)
  | none => pure none

/-- `JsonUtil::GetUInt8Opt`: what does not fit is cut off. -/
def getUInt8Opt (parentJSON : Json) (key : String) : Except Exc (Option UInt8) := do
  let n ← getUInt64Opt parentJSON key
  pure (n.map UInt64.toUInt8)

/-- `JsonUtil::GetRequiredArray`. -/
def getRequiredArray (node : Json) (key : String) : Except Exc (List Json) := do
  let value ← getRequiredField node key
  orThrow value.elements? (.deserialization "json value was not an array")

/-- `JsonUtil::GetArray`: what is not an array has no elements. -/
def getArray (node : Json) (key : String) : Except Exc (List Json) := do
  let valueOpt ← getOptionalField node key
  pure ((valueOpt.bind Json.elements?).getD [])

/-! ### What the readers make of a member -/

section Readers

variable {json : Json} {key : String}

theorem isNull_of_hasMember {value : Option Json} (h : json.HasMember key value) :
    json.isNull = false := by
  obtain ⟨members, rfl, -, -⟩ := h
  rfl

theorem isNull_eq_false {value : Json} (h : value ≠ .null) : value.isNull = false := by
  cases value with
  | null => exact absurd rfl h
  | _ => rfl

theorem getRequiredField_eq {value : Json} (h : json.HasMember key (some value)) :
    getRequiredField json key = .ok value := by
  obtain ⟨members, rfl, hmember, hvalue⟩ := id h
  have hnull := isNull_eq_false fun hv => hvalue (congrArg some hv)
  rw [getRequiredField, isNull_of_hasMember h, Json.get_of_hasMember h]
  simp only [Bool.false_eq_true, if_false, Option.getD_some, ok_bind, hnull]

theorem getOptionalField_eq {value : Option Json} (h : json.HasMember key value) :
    getOptionalField json key = .ok value := by
  rw [getOptionalField, isNull_of_hasMember h, Json.get_of_hasMember h]
  obtain ⟨members, -, -, hvalue⟩ := h
  cases value with
  | none => rfl
  | some value =>
    have hnull := isNull_eq_false fun hv => hvalue (congrArg some hv)
    simp only [Bool.false_eq_true, if_false, Option.getD_some, ok_bind, hnull]

theorem convertToVector_toHex {n : ℕ} (b : CBigInteger n) :
    convertToVector n (.string b.toHex) = .ok b := by
  have hnull : (Json.string b.toHex).isNull = false := rfl
  rw [convertToVector, hnull, Json.asString]
  simp only [Bool.false_eq_true, if_false, ok_bind, toList_toHex, HexUtil.fromHex_digits,
    b.length_eq, dite_true]

theorem getBigInteger_eq {n : ℕ} {b : CBigInteger n}
    (h : json.HasMember key (some (.string b.toHex))) : getBigInteger n json key = .ok b := by
  rw [getBigInteger, getRequiredField_eq h, ok_bind, convertToVector_toHex]

theorem getBigIntegerOpt_eq {n : ℕ} {o : Option (CBigInteger n)}
    (h : json.HasMember key (o.map fun b => .string b.toHex)) :
    getBigIntegerOpt n json key = .ok o := by
  rw [getBigIntegerOpt, getOptionalField_eq h, ok_bind]
  cases o with
  | none => rfl
  | some b =>
    simp only [Option.map_some, convertToVector_toHex, ok_bind]
    rfl

theorem getRequiredString_eq {s : String} (h : json.HasMember key (some (.string s))) :
    getRequiredString json key = .ok s := by
  rw [getRequiredString, getRequiredField_eq h, ok_bind, Json.asString]

theorem convertToUInt64_toString {n : ℕ} (hn : n < UInt64.size) :
    convertToUInt64 (.string (toString n)) = .ok (UInt64.ofNat n) :=
  stringToUInt64_toString "stoull" hn

theorem getUInt64Opt_some {value : Json} {n : UInt64} (h : json.HasMember key (some value))
    (hn : convertToUInt64 value = .ok n) : getUInt64Opt json key = .ok (some n) := by
  rw [getUInt64Opt, getOptionalField_eq h, ok_bind]
  simp only [hn, ok_bind]
  rfl

theorem getUInt64Opt_none (h : json.HasMember key none) : getUInt64Opt json key = .ok none := by
  rw [getUInt64Opt, getOptionalField_eq h, ok_bind]
  rfl

theorem getUInt8Opt_some {value : Json} {n : UInt64} (h : json.HasMember key (some value))
    (hn : convertToUInt64 value = .ok n) : getUInt8Opt json key = .ok (some n.toUInt8) := by
  rw [getUInt8Opt, getUInt64Opt_some h hn, ok_bind]
  rfl

theorem getUInt8Opt_none (h : json.HasMember key none) : getUInt8Opt json key = .ok none := by
  rw [getUInt8Opt, getUInt64Opt_none h, ok_bind]
  rfl

theorem getRequiredArray_eq {elements : List Json}
    (h : json.HasMember key (some (.array elements))) :
    getRequiredArray json key = .ok elements := by
  rw [getRequiredArray, getRequiredField_eq h, ok_bind]
  rfl

theorem getArray_eq {elements : List Json} (h : json.HasMember key (some (.array elements))) :
    getArray json key = .ok elements := by
  rw [getArray, getOptionalField_eq h, ok_bind]
  rfl

end Readers

end JsonUtil

end GrinPlusPlus
