import GrinPlusPlus.Core.KernelCodec
import GrinPlusPlus.Wallet.JsonUtil
import GrinPlusPlus.Wallet.SlateCodec

/-!
# Slates in JSON

`Slate::ToJSON` and `Slate::FromJSON`, which two wallets use that talk to each other directly. As
in the serialised form (`GrinPlusPlus.Wallet.SlateCodec`) a field that has its default value is
left out.

The two functions do not undo each other. What is read is `GrinPlusPlus.Slate.viaJSON` of what
was written (`GrinPlusPlus.Slate.fromJSON_toJSON`), and this differs from the slate in three
places:

* the arguments of the features are written but never read, so a height-locked kernel comes back
  without its lock height;
* the fee is written with its shift above its forty bits and read as a number without a shift;
* features of a commitment that are neither of the two that have a name come back as plain.

So a slate comes back **exactly when its kernel is plain, its fee is a number of forty bits and
its commitments have named features** (`GrinPlusPlus.Slate.roundTripsJSON_iff`). The inputs and
outputs survive whatever the kernel is; the message that the participants sign does not, unless
the lock height and the shift are zero (`GrinPlusPlus.Slate.kernelMessage_viaJSON_iff`).
-/

namespace GrinPlusPlus

open Exec JsonUtil

/-! ### Identifiers -/

namespace Uuid

/-- `uuids::to_string`: the digits in five groups. -/
def toText (id : SlateId) : List Char :=
  let group (start size : ℕ) := ((id.bytes.drop start).take size).flatMap Hex.digits
  group 0 4 ++ '-' :: (group 4 2 ++ '-' :: (group 6 2 ++ '-' :: (group 8 2 ++ '-' ::
    group 10 6)))

/-- The loop of `uuids::uuid::from_string`, with the first digit of a byte once it was read and
the bytes before it. -/
def scan : Option ℕ → List UInt8 → List Char → Option SlateId
  | _, data, [] => if h : data.length = 16 then some ⟨data, h⟩ else none
  | digit, data, c :: str =>
    if c = '-' then scan digit data str
    else if 16 ≤ data.length then none
    else
      match Hex.value c, digit with
      | none, _ => none
      | some high, none => scan (some high) data str
      | some low, some high => scan none (data ++ [Hex.byte high low]) str

/-- `uuids::uuid::from_string`: the string ends with its first null, and may be in braces. -/
def fromText (s : List Char) : Option SlateId :=
  let str := s.takeWhile (· ≠ '\x00')
  if str = [] then none
  else if str.head? = some '\x7b' then
    if str.getLast? = some '\x7d' then scan none [] (str.drop 1).dropLast else none
  else scan none [] str

theorem scan_dash (data : List UInt8) (rest : List Char) :
    scan none data ('-' :: rest) = scan none data rest := by
  simp only [scan, if_true]

/-- The two digits of a byte are read, if there are not sixteen bytes yet. -/
theorem scan_byte {data : List UInt8} (h : data.length < 16) (b : UInt8) (rest : List Char) :
    scan none data (Nat.digitChar (b.toNat / 16) :: Nat.digitChar (b.toNat % 16) :: rest) =
      scan none (data ++ [b]) rest := by
  have hdash : ∀ d < 16, Nat.digitChar d ≠ '-' := by decide
  simp only [scan, hdash _ (Hex.high_lt b), hdash _ (Hex.low_lt b), Hex.value_high, Hex.value_low,
    if_false, if_neg (Nat.not_le.mpr h), Hex.byte_halves]

theorem scan_digits {data bytes : List UInt8} (h : data.length + bytes.length ≤ 16)
    (rest : List Char) :
    scan none data (bytes.flatMap Hex.digits ++ rest) = scan none (data ++ bytes) rest := by
  induction bytes generalizing data with
  | nil => simp
  | cons b bytes ih =>
    rw [List.length_cons] at h
    have hlength : (data ++ [b]).length + bytes.length ≤ 16 := by
      rw [List.length_append, List.length_singleton]
      omega
    have hscan := scan_byte (by omega : data.length < 16) b (bytes.flatMap Hex.digits ++ rest)
    rw [List.flatMap_cons, List.append_assoc]
    refine hscan.trans ?_
    rw [ih hlength, List.append_assoc, List.singleton_append]

/-- The groups are read, and nothing else. -/
theorem scan_toText (id : SlateId) : scan none [] (toText id) = some id := by
  have hlength := id.length_eq
  have hgroup (start size : ℕ) (hsize : start + size ≤ 16) (rest : List Char) :
      scan none (id.bytes.take start)
          (((id.bytes.drop start).take size).flatMap Hex.digits ++ rest) =
        scan none (id.bytes.take (start + size)) rest := by
    rw [scan_digits (by simp only [List.length_take, List.length_drop]; omega), List.take_add]
  have hlast := hgroup 10 6 (by decide) []
  rw [List.append_nil, List.take_of_length_le hlength.le] at hlast
  have hend : scan none id.bytes [] = some id := by
    rw [scan, dif_pos hlength]
  rw [toText]
  simp only
  rw [show ([] : List UInt8) = id.bytes.take 0 from rfl, hgroup 0 4 (by decide), scan_dash,
    hgroup 4 2 (by decide), scan_dash, hgroup 6 2 (by decide), scan_dash, hgroup 8 2 (by decide),
    scan_dash, hlast, hend]

/-- An identifier is written in digits and dashes. -/
theorem of_mem_toText {P : Char → Prop} (h : ∀ d < 16, P (Nat.digitChar d)) (hdash : P '-')
    {id : SlateId} {c : Char} (hc : c ∈ toText id) : P c := by
  simp only [toText, List.mem_append, List.mem_cons] at hc
  rcases hc with hc | rfl | hc | rfl | hc | rfl | hc | rfl | hc
  all_goals first | exact hdash | exact Hex.of_mem_flatMap_digits h hc

/-- **An identifier that was written is read back.** -/
theorem fromText_toText (id : SlateId) : fromText (toText id) = some id := by
  have hnull : (toText id).takeWhile (· ≠ '\x00') = toText id := by
    refine List.takeWhile_eq_self_iff.mpr fun c hc => ?_
    exact of_mem_toText (P := fun c => decide (c ≠ '\x00') = true)
      (fun d hd => by interval_cases d <;> decide) (by decide) hc
  have hne : toText id ≠ [] := by simp [toText]
  have hbrace : (toText id).head? ≠ some '\x7b' := by
    intro h
    exact of_mem_toText (P := fun c => c ≠ '\x7b') (fun d hd => by interval_cases d <;> decide)
      (by decide) (List.mem_of_head? h) rfl
  rw [fromText]
  simp only [hnull, hne, if_false, hbrace, scan_toText]

end Uuid

/-! ### The parts of a slate -/

namespace ESlateStage

/-- `SlateStage::ToString`. It may not throw, so the sixth case ends the process; the model does
not tell this from other ends that are no exceptions. -/
def toText : ESlateStage → Except Exc String
  | standardSent => .ok "S1"
  | standardReceived => .ok "S2"
  | standardFinalized => .ok "S3"
  | invoiceSent => .ok "I1"
  | invoicePaid => .ok "I2"
  | invoiceFinalized => .ok "I3"
  | none => .error .undefined

/-- `SlateStage::FromString`. -/
def fromText (value : String) : Except Exc ESlateStage :=
  if value = "S1" then .ok standardSent
  else if value = "S2" then .ok standardReceived
  else if value = "S3" then .ok standardFinalized
  else if value = "I1" then .ok invoiceSent
  else if value = "I2" then .ok invoicePaid
  else if value = "I3" then .ok invoiceFinalized
  else .error stdException

theorem fromText_of_toText {stage : ESlateStage} {s : String} (h : stage.toText = .ok s) :
    fromText s = .ok stage := by
  cases stage <;> cases h <;> rfl

end ESlateStage

/-- `Fee::ToJSON`: the serialised fee as one number. -/
def RawFee.toJSON (f : RawFee) : Json :=
  .uint (UInt64.ofNat (beNat f.serialize))

/-- `Fee::FromJSON`. -/
def RawFee.fromJSON (json : Json) : Except Exc RawFee := do
  let rawFee ← convertToUInt64 json
  pure (RawFee.from rawFee)

/-- `SlateFeatureArgs::ToJSON`: null if there is nothing to write. -/
def SlateFeatureArgs.toJSON (args : SlateFeatureArgs) : Json :=
  match args.lockHeightOpt with
  | some lockHeight => .object (Json.set [] "lock_hgt" (.uint lockHeight))
  | none => .null

namespace SlateSignature

/-- `SlateSignature::ToJSON`. -/
def toJSON (s : SlateSignature) : Json :=
  .object (Json.setOpt (Json.set (Json.set [] "xs" (.string s.excess.toHex))
    "nonce" (.string s.nonce.toHex)) "part" (s.partialOpt.map fun sig => .string sig.toHex))

/-- `SlateSignature::FromJSON`. -/
def fromJSON (json : Json) : Except Exc SlateSignature := do
  let excess ← getPublicKey json "xs"
  let nonce ← getPublicKey json "nonce"
  let partialOpt ← getBigIntegerOpt 64 json "part"
  pure ⟨excess, nonce, partialOpt⟩

end SlateSignature

namespace SlateCommitment

/-- `SlateCommitment::ToJSON`. -/
def toJSON (c : SlateCommitment) : Json :=
  .object (Json.setOpt (Json.setOpt (Json.set [] "c" (.string c.commitment.toHex))
    "f" (if c.features = .coinbaseOutput then some (.int 1) else none))
    "p" (c.proofOpt.map fun proof => .string proof.toHex))

/-- `SlateCommitment::ConvertFeature`. -/
def convertFeature (value : UInt64) : OutputFeatures :=
  if value = 1 then .coinbaseOutput else .default

/-- `SlateCommitment::FromJSON`. -/
def fromJSON (json : Json) : Except Exc SlateCommitment := do
  let commitment ← getCommitment json "c"
  let f ← getUInt64Opt json "f"
  let proofOpt ← getRangeProofOpt json "p"
  pure ⟨convertFeature (f.getD 0), commitment, proofOpt⟩

end SlateCommitment

namespace SlatePaymentProof

/-- `SlatePaymentProof::ToJSON`. -/
def toJSON (p : SlatePaymentProof) : Json :=
  .object (Json.setOpt (Json.set (Json.set [] "saddr" (.string p.senderAddress.toHex))
    "raddr" (.string p.receiverAddress.toHex))
    "rsig" (p.receiverSignatureOpt.map fun sig => .string sig.toHex))

/-- `SlatePaymentProof::FromJSON`. -/
def fromJSON (paymentProofJSON : Json) : Except Exc SlatePaymentProof := do
  let senderAddress ← getBigInteger 32 paymentProofJSON "saddr"
  let receiverAddress ← getBigInteger 32 paymentProofJSON "raddr"
  let receiverSignatureOpt ← getBigIntegerOpt 64 paymentProofJSON "rsig"
  pure ⟨senderAddress, receiverAddress, receiverSignatureOpt⟩

end SlatePaymentProof

/-! ### Slates -/

/-- `BlindingFactor{}`. -/
def BlindingFactor.null : BlindingFactor := ⟨List.replicate 32 0, List.length_replicate⟩

/-- A field that is left out when it has its default value. -/
def unlessDefault {α : Type} [DecidableEq α] (default a : α) (write : α → Json) : Option Json :=
  if a = default then none else some (write a)

namespace Slate

/-- `Slate::ToJSON` of the arguments of the features, the assertion being compiled out. -/
def featureArgsJSON (s : Slate) : Except Exc (Option Json) :=
  if s.kernelFeatures = .defaultKernel then .ok none
  else do
    let args ← orThrow s.featureArgsOpt (.runtime "bad optional access")
    .ok (some args.toJSON)

/-- The members that `Slate::ToJSON` assigns, with the name of the stage and the arguments of the
features. -/
def members (s : Slate) (sta : String) (featureArgs : Option Json) : List (String × Json) :=
  let json := Json.set [] "ver"
    (.string (toString s.version.toNat ++ ":" ++ toString s.blockVersion.toNat))
  let json := Json.set json "id" (.string (String.ofList (Uuid.toText s.slateId)))
  let json := Json.set json "sta" (.string sta)
  let json := Json.setOpt json "off"
    (if s.offset.isNull then none else some (.string s.offset.toHex))
  let json := Json.setOpt json "num_parts"
    (unlessDefault 2 s.numParticipants fun n => .string (toString n.toNat))
  let json := Json.setOpt json "fee" (unlessDefault ⟨0, 0⟩ s.fee RawFee.toJSON)
  let json := Json.setOpt json "amt"
    (unlessDefault 0 s.amount fun n => .string (toString n.toNat))
  let json := Json.setOpt json "feat"
    (unlessDefault .defaultKernel s.kernelFeatures fun f => .int f.value.toUInt64.toInt64)
  let json := Json.setOpt json "feat_args" featureArgs
  let json := Json.setOpt json "ttl" (unlessDefault 0 s.ttl fun n => .string (toString n.toNat))
  let json := Json.set json "sigs" (.array (s.sigs.map SlateSignature.toJSON))
  let json := Json.set json "coms" (.array (s.commitments.map SlateCommitment.toJSON))
  Json.setOpt json "proof" (s.proofOpt.map SlatePaymentProof.toJSON)

/-- `Slate::ToJSON`. -/
def toJSON (s : Slate) : Except Exc Json := do
  let sta ← s.stage.toText
  let featureArgs ← s.featureArgsJSON
  pure (.object (s.members sta featureArgs))

/-- `Slate::FromJSON` of the fee. -/
def feeFromJSON (json : Json) : Except Exc RawFee := do
  let feeJsonOpt ← getOptionalField json "fee"
  match feeJsonOpt with
  | some feeJson => RawFee.fromJSON feeJson
  | none => pure ⟨0, 0⟩

/-- `Slate::FromJSON` of the payment proof. -/
def proofFromJSON (json : Json) : Except Exc (Option SlatePaymentProof) := do
  let proofJsonOpt ← getOptionalField json "proof"
  match proofJsonOpt with
  | some proofJson => do
    let proof ← SlatePaymentProof.fromJSON proofJson
    pure (some proof)
  | none => pure none

/-- `Slate::FromJSON`. The arguments of the features are not read. -/
def fromJSON (json : Json) : Except Exc Slate := do
  let ver ← getRequiredString json "ver"
  let versionParts := Armor.split ver.toList ':'
  if versionParts.length ≠ 2 then .error stdException
  else do
    let id ← getRequiredString json "id"
    let slateId ← orThrow (Uuid.fromText id.toList) (.deserialization "Failed to deserialize id")
    let _featuresOpt ← getOptionalField json "feat"
    let version ← stoul (versionParts.getD 0 [])
    let blockVersion ← stoul (versionParts.getD 1 [])
    let sta ← getRequiredString json "sta"
    let stage ← ESlateStage.fromText sta
    let offset ← getBlindingFactorOpt json "off"
    let numParticipants ← getUInt8Opt json "num_parts"
    let fee ← feeFromJSON json
    let amount ← getUInt64Opt json "amt"
    let kernelFeatures ← getUInt8Opt json "feat"
    let ttl ← getUInt64Opt json "ttl"
    let sigsJson ← getRequiredArray json "sigs"
    let sigs ← sigsJson.mapM SlateSignature.fromJSON
    let commitmentsJson ← getArray json "coms"
    let commitments ← commitmentsJson.mapM SlateCommitment.fromJSON
    let proofOpt ← proofFromJSON json
    pure
      { slateId := slateId
        stage := stage
        version := version.toUInt16
        blockVersion := blockVersion.toUInt16
        numParticipants := numParticipants.getD 2
        ttl := ttl.getD 0
        kernelFeatures := ⟨kernelFeatures.getD 0⟩
        featureArgsOpt := none
        offset := offset.getD .null
        amount := amount.getD 0
        fee := fee
        sigs := sigs
        commitments := commitments
        proofOpt := proofOpt }

end Slate

/-! ### What comes back of a slate -/

/-- What comes back of a fee: its serialised form, as a number. -/
def RawFee.viaJSON (f : RawFee) : RawFee :=
  RawFee.from (UInt64.ofNat (beNat f.serialize))

/-- What comes back of a commitment: features that have no name are gone. -/
def SlateCommitment.viaJSON (c : SlateCommitment) : SlateCommitment :=
  { c with features := if c.features = .coinbaseOutput then .coinbaseOutput else .default }

/-- **What comes back of a slate.** -/
def Slate.viaJSON (s : Slate) : Slate :=
  { s with
    featureArgsOpt := none
    fee := s.fee.viaJSON
    commitments := s.commitments.map SlateCommitment.viaJSON }

theorem SlateSignature.fromJSON_toJSON (s : SlateSignature) : fromJSON s.toJSON = .ok s := by
  have hxs : s.toJSON.HasMember "xs" (some (.string s.excess.toHex)) :=
    ⟨_, rfl, by simp [Json.lookup_set, Json.lookup_setOpt], by simp⟩
  have hnonce : s.toJSON.HasMember "nonce" (some (.string s.nonce.toHex)) :=
    ⟨_, rfl, by simp [Json.lookup_set, Json.lookup_setOpt], by simp⟩
  have hpart : s.toJSON.HasMember "part" (s.partialOpt.map fun sig => .string sig.toHex) :=
    ⟨_, rfl, by simp [Json.lookup_set, Json.lookup_setOpt], by simp⟩
  rw [fromJSON, getPublicKey, getBigInteger_eq hxs, ok_bind, getBigInteger_eq hnonce, ok_bind,
    getBigIntegerOpt_eq hpart, ok_bind]
  rfl

theorem SlatePaymentProof.fromJSON_toJSON (p : SlatePaymentProof) : fromJSON p.toJSON = .ok p := by
  have hsaddr : p.toJSON.HasMember "saddr" (some (.string p.senderAddress.toHex)) :=
    ⟨_, rfl, by simp [Json.lookup_set, Json.lookup_setOpt], by simp⟩
  have hraddr : p.toJSON.HasMember "raddr" (some (.string p.receiverAddress.toHex)) :=
    ⟨_, rfl, by simp [Json.lookup_set, Json.lookup_setOpt], by simp⟩
  have hrsig : p.toJSON.HasMember "rsig"
      (p.receiverSignatureOpt.map fun sig => .string sig.toHex) :=
    ⟨_, rfl, by simp [Json.lookup_set, Json.lookup_setOpt], by simp⟩
  rw [fromJSON, getBigInteger_eq hsaddr, ok_bind, getBigInteger_eq hraddr, ok_bind,
    getBigIntegerOpt_eq hrsig, ok_bind]
  rfl

theorem SlateCommitment.fromJSON_toJSON (c : SlateCommitment) :
    fromJSON c.toJSON = .ok c.viaJSON := by
  have hc : c.toJSON.HasMember "c" (some (.string c.commitment.toHex)) :=
    ⟨_, rfl, by simp [Json.lookup_set, Json.lookup_setOpt], by simp⟩
  have hp : c.toJSON.HasMember "p" (c.proofOpt.map fun proof => .string proof.toHex) :=
    ⟨_, rfl, by simp [Json.lookup_set, Json.lookup_setOpt], by simp⟩
  have hf : c.toJSON.HasMember "f"
      (if c.features = .coinbaseOutput then some (.int 1) else none) :=
    ⟨_, rfl, by simp [Json.lookup_set, Json.lookup_setOpt], by split <;> simp⟩
  rw [fromJSON, getCommitment, getBigInteger_eq hc, ok_bind]
  by_cases hcoinbase : c.features = .coinbaseOutput
  · rw [if_pos hcoinbase] at hf
    rw [getUInt64Opt_some hf rfl, ok_bind, getRangeProofOpt, getBigIntegerOpt_eq hp, ok_bind,
      viaJSON, if_pos hcoinbase]
    rfl
  · rw [if_neg hcoinbase] at hf
    rw [getUInt64Opt_none hf, ok_bind, getRangeProofOpt, getBigIntegerOpt_eq hp, ok_bind,
      viaJSON, if_neg hcoinbase]
    rfl

/-- A blinding factor of zeros is the default one. -/
theorem BlindingFactor.eq_null {b : BlindingFactor} (h : b.isNull = true) : b = .null := by
  refine CBigInteger.ext_bytes (List.eq_replicate_iff.mpr ⟨b.length_eq, fun x hx => ?_⟩)
  rw [isNull, List.all_eq_true] at h
  simpa using h x hx

/-- A list that was written element by element. -/
theorem mapM_map_of_forall {α β γ : Type} {write : α → β} {read : β → Except Exc γ} {back : α → γ}
    (h : ∀ a, read (write a) = .ok (back a)) (l : List α) :
    (l.map write).mapM read = .ok (l.map back) := by
  rw [mapM_eq_ok_iff, List.forall₂_map_left_iff, List.forall₂_map_right_iff, List.forall₂_same]
  exact fun a _ => h a

namespace Slate

/-- The two versions are parted again. -/
theorem split_ver (m n : ℕ) :
    Armor.split (toString m ++ ":" ++ toString n).toList ':' =
      [(toString m).toList, (toString n).toList] := by
  have hdigits (k : ℕ) : ∀ c ∈ (toString k).toList, decide (c = ':') = false := by
    intro c hc
    rw [toList_toString] at hc
    simpa using (not_special_of_isDigit (isDigit_of_mem hc)).2.2.2
  have htext : (toString m ++ ":" ++ toString n).toList =
      (toString m).toList ++ ':' :: (toString n).toList := by
    simp
  rw [Armor.split, htext, List.splitOnP_append_cons_of_forall_mem (hdigits m) _ rfl,
    List.splitOnP_eq_singleton (hdigits n)]
  simp

theorem stoul_toString (n : UInt16) : stoul (toString n.toNat).toList = .ok n.toUInt64 := by
  have hlt := n.toNat_lt
  rw [stoul, stringToUInt64_toString _ (by rw [UInt64.size]; omega), UInt64.ofNat_uInt16ToNat]

section Members

variable {json : Json} {key : String}

theorem getUInt64Opt_unlessDefault {default n : UInt64}
    (h : json.HasMember key (unlessDefault default n fun n => .string (toString n.toNat))) :
    ∃ o, getUInt64Opt json key = .ok o ∧ o.getD default = n := by
  rw [unlessDefault] at h
  split_ifs at h with hn
  · exact ⟨none, getUInt64Opt_none h, hn.symm⟩
  · refine ⟨some n, getUInt64Opt_some h ?_, rfl⟩
    rw [convertToUInt64_toString n.toNat_lt_size, UInt64.ofNat_toNat]

theorem getUInt8Opt_unlessDefault {default n : UInt8}
    (h : json.HasMember key (unlessDefault default n fun n => .string (toString n.toNat))) :
    ∃ o, getUInt8Opt json key = .ok o ∧ o.getD default = n := by
  have hlt := n.toNat_lt
  rw [unlessDefault] at h
  split_ifs at h with hn
  · exact ⟨none, getUInt8Opt_none h, hn.symm⟩
  · refine ⟨_, getUInt8Opt_some h (convertToUInt64_toString (by rw [UInt64.size]; omega)), ?_⟩
    rw [Option.getD_some]
    refine UInt8.toNat_inj.mp ?_
    rw [UInt64.toNat_toUInt8, UInt64.toNat_ofNat_of_lt' (by rw [UInt64.size]; omega)]
    exact Nat.mod_eq_of_lt hlt

/-- A byte that is written as a number is one that is not negative. -/
theorem convertToUInt64_byte (b : UInt8) :
    convertToUInt64 (.int b.toUInt64.toInt64) = .ok b.toUInt64 := by
  have hlt := b.toNat_lt
  have hnat : b.toUInt64.toInt64.toBitVec.toNat = b.toNat := by simp
  have hint : b.toUInt64.toInt64.toInt = (b.toNat : ℤ) := by
    rw [Int64.toInt, BitVec.toInt_eq_toNat_of_lt (by omega), hnat]
  have hnonneg : (0 : Int64) ≤ b.toUInt64.toInt64 := by
    rw [Int64.le_iff_toInt_le, hint]
    simp
  have hread : (Json.int b.toUInt64.toInt64).asUInt64? = some b.toUInt64 := if_pos hnonneg
  simp only [convertToUInt64, hread]

theorem getUInt8Opt_features {features : KernelFeatures}
    (h : json.HasMember key
      (unlessDefault .defaultKernel features fun f => .int f.value.toUInt64.toInt64)) :
    ∃ o, getUInt8Opt json key = .ok o ∧ (⟨o.getD 0⟩ : KernelFeatures) = features := by
  rw [unlessDefault] at h
  split_ifs at h with hfeatures
  · exact ⟨none, getUInt8Opt_none h, hfeatures.symm⟩
  · refine ⟨_, getUInt8Opt_some h (convertToUInt64_byte _), ?_⟩
    rw [Option.getD_some, UInt8.toUInt8_toUInt64]

theorem getBlindingFactorOpt_offset {offset : BlindingFactor}
    (h : json.HasMember key (if offset.isNull then none else some (.string offset.toHex))) :
    ∃ o, getBlindingFactorOpt json key = .ok o ∧ o.getD .null = offset := by
  split_ifs at h with hnull
  · exact ⟨none, getBigIntegerOpt_eq (o := none) h, (BlindingFactor.eq_null hnull).symm⟩
  · exact ⟨some offset, getBigIntegerOpt_eq (o := some offset) h, rfl⟩

theorem feeFromJSON_eq {fee : RawFee}
    (h : json.HasMember "fee" (unlessDefault ⟨0, 0⟩ fee RawFee.toJSON)) :
    feeFromJSON json = .ok fee.viaJSON := by
  rw [feeFromJSON, getOptionalField_eq h, ok_bind, unlessDefault]
  split_ifs with hfee
  · rw [hfee]
    rfl
  · rfl

theorem proofFromJSON_eq {proofOpt : Option SlatePaymentProof}
    (h : json.HasMember "proof" (proofOpt.map SlatePaymentProof.toJSON)) :
    proofFromJSON json = .ok proofOpt := by
  rw [proofFromJSON, getOptionalField_eq h, ok_bind]
  cases proofOpt with
  | none => rfl
  | some proof =>
    simp only [Option.map_some, proof.fromJSON_toJSON, ok_bind]
    rfl

end Members

theorem exists_featureArgsJSON_iff {s : Slate} :
    (∃ featureArgs, s.featureArgsJSON = .ok featureArgs) ↔
      (s.kernelFeatures = .defaultKernel ∨ s.featureArgsOpt.isSome) := by
  rw [featureArgsJSON]
  by_cases hfeatures : s.kernelFeatures = .defaultKernel
  · simp [hfeatures]
  · cases hargs : s.featureArgsOpt with
    | none => simp [hfeatures, orThrow, Bind.bind, Except.bind]
    | some args => simp [hfeatures, orThrow, ok_bind]

/-- Which slates have a form in JSON. -/
theorem exists_toJSON_iff {s : Slate} : (∃ json, s.toJSON = .ok json) ↔
    s.stage ≠ .none ∧ (s.kernelFeatures = .defaultKernel ∨ s.featureArgsOpt.isSome) := by
  have hstage : (∃ sta, s.stage.toText = .ok sta) ↔ s.stage ≠ .none := by
    cases s.stage <;> simp [ESlateStage.toText]
  rw [← hstage, ← exists_featureArgsJSON_iff, toJSON]
  constructor
  · rintro ⟨json, h⟩
    obtain ⟨sta, hsta, h⟩ := of_bind_eq_ok h
    obtain ⟨featureArgs, hargs, -⟩ := of_bind_eq_ok h
    exact ⟨⟨sta, hsta⟩, featureArgs, hargs⟩
  · rintro ⟨⟨sta, hsta⟩, featureArgs, hargs⟩
    rw [hsta, ok_bind, hargs, ok_bind]
    exact ⟨_, rfl⟩

theorem unlessDefault_ne_null {α : Type} [DecidableEq α] {default a : α} {write : α → Json}
    (h : ∀ a, write a ≠ .null) : unlessDefault default a write ≠ some .null := by
  rw [unlessDefault]
  split_ifs
  · simp
  · exact fun hnull => h a (Option.some.inj hnull)

/-- **What is read of a slate that was written.** -/
theorem fromJSON_toJSON {s : Slate} {json : Json} (h : s.toJSON = .ok json) :
    fromJSON json = .ok s.viaJSON := by
  rw [toJSON] at h
  obtain ⟨sta, hsta, h⟩ := of_bind_eq_ok h
  obtain ⟨featureArgs, hargs, h⟩ := of_bind_eq_ok h
  obtain rfl : Json.object (s.members sta featureArgs) = json := Except.ok.inj h
  have hmember (key : String) (value : Option Json)
      (hlookup : (s.members sta featureArgs).lookup key = value) (hvalue : value ≠ some .null) :
      Json.HasMember (.object (s.members sta featureArgs)) key value :=
    ⟨_, rfl, hlookup, hvalue⟩
  -- the members, in the order in which they are read
  have hver := getRequiredString_eq (hmember "ver"
    (some (.string (toString s.version.toNat ++ ":" ++ toString s.blockVersion.toNat)))
    (by simp [members, Json.lookup_set, Json.lookup_setOpt]) (by simp))
  have hid := getRequiredString_eq (hmember "id"
    (some (.string (String.ofList (Uuid.toText s.slateId))))
    (by simp [members, Json.lookup_set, Json.lookup_setOpt]) (by simp))
  have hstage := getRequiredString_eq (hmember "sta" (some (.string sta))
    (by simp [members, Json.lookup_set, Json.lookup_setOpt]) (by simp))
  obtain ⟨offset, hoff, hoffset⟩ := getBlindingFactorOpt_offset (hmember "off"
    (if s.offset.isNull then none else some (.string s.offset.toHex))
    (by simp [members, Json.lookup_set, Json.lookup_setOpt]) (by split_ifs <;> simp))
  obtain ⟨numParts, hnumParts, hnumParticipants⟩ := getUInt8Opt_unlessDefault
    (hmember "num_parts" (unlessDefault 2 s.numParticipants fun n => .string (toString n.toNat))
      (by simp [members, Json.lookup_set, Json.lookup_setOpt]) (unlessDefault_ne_null (by simp)))
  have hfee := feeFromJSON_eq (hmember "fee" (unlessDefault ⟨0, 0⟩ s.fee RawFee.toJSON)
    (by simp [members, Json.lookup_set, Json.lookup_setOpt])
    (unlessDefault_ne_null (by simp [RawFee.toJSON])))
  obtain ⟨amt, hamt, hamount⟩ := getUInt64Opt_unlessDefault
    (hmember "amt" (unlessDefault 0 s.amount fun n => .string (toString n.toNat))
      (by simp [members, Json.lookup_set, Json.lookup_setOpt]) (unlessDefault_ne_null (by simp)))
  have hfeatMember := hmember "feat" (unlessDefault .defaultKernel s.kernelFeatures
      fun f => .int f.value.toUInt64.toInt64)
    (by simp [members, Json.lookup_set, Json.lookup_setOpt]) (unlessDefault_ne_null (by simp))
  obtain ⟨feat, hfeat, hfeatures⟩ := getUInt8Opt_features hfeatMember
  obtain ⟨ttl, httl, httlValue⟩ := getUInt64Opt_unlessDefault
    (hmember "ttl" (unlessDefault 0 s.ttl fun n => .string (toString n.toNat))
      (by simp [members, Json.lookup_set, Json.lookup_setOpt]) (unlessDefault_ne_null (by simp)))
  have hsigs := getRequiredArray_eq (hmember "sigs"
    (some (.array (s.sigs.map SlateSignature.toJSON)))
    (by simp [members, Json.lookup_set, Json.lookup_setOpt]) (by simp))
  have hcoms := getArray_eq (hmember "coms"
    (some (.array (s.commitments.map SlateCommitment.toJSON)))
    (by simp [members, Json.lookup_set, Json.lookup_setOpt]) (by simp))
  have hproof := proofFromJSON_eq (hmember "proof" (s.proofOpt.map SlatePaymentProof.toJSON)
    (by simp [members, Json.lookup_set, Json.lookup_setOpt])
    (by cases s.proofOpt <;> simp [SlatePaymentProof.toJSON]))
  -- the values that are read from them
  have hversion := stoul_toString s.version
  have hblockVersion := stoul_toString s.blockVersion
  have hsigList : (s.sigs.map SlateSignature.toJSON).mapM SlateSignature.fromJSON = .ok s.sigs := by
    rw [@mapM_map_of_forall _ _ _ _ _ id SlateSignature.fromJSON_toJSON, List.map_id]
  have hcomList := mapM_map_of_forall SlateCommitment.fromJSON_toJSON s.commitments
  rw [fromJSON, hver, ok_bind]
  simp only [split_ver, List.length_cons, List.length_nil, ne_eq, not_true_eq_false, if_false]
  rw [hid, ok_bind, String.toList_ofList, Uuid.fromText_toText, orThrow]
  simp only [ok_bind, getOptionalField_eq hfeatMember, List.getD_cons_zero, List.getD_cons_succ,
    hversion, hblockVersion, hstage, ESlateStage.fromText_of_toText hsta, hoff, hnumParts, hfee,
    hamt, hfeat, httl, hsigs, hsigList, hcoms, hcomList, hproof, UInt16.toUInt16_toUInt64]
  rw [hoffset, hnumParticipants, hamount, hfeatures, httlValue]
  rfl

end Slate

/-! ### Which slates come back -/

namespace RawFee

theorem beNat_serialize (f : RawFee) :
    beNat f.serialize = f.shift.toNat * 2 ^ 40 + f.fee.toNat % 2 ^ 40 := by
  rw [serialize, beNat_append, beNat_append, beNat_beBytes, beNat_beBytes, beNat_singleton,
    length_beBytes]
  simp

theorem fee_viaJSON (f : RawFee) :
    f.viaJSON.fee.toNat = f.shift.toNat * 2 ^ 40 + f.fee.toNat % 2 ^ 40 := by
  have hshift := f.shift.toNat_lt
  have hlt : beNat f.serialize < UInt64.size := by
    rw [beNat_serialize, UInt64.size]
    omega
  rw [viaJSON, RawFee.from]
  exact (UInt64.toNat_ofNat_of_lt' hlt).trans f.beNat_serialize

/-- **A fee comes back exactly when it has no shift and fits into forty bits.** -/
theorem viaJSON_eq_iff (f : RawFee) : f.viaJSON = f ↔ f.shift = 0 ∧ f.fee.toNat < 2 ^ 40 := by
  have hfee := f.fee_viaJSON
  constructor
  · intro h
    have hshift : f.shift = 0 := by
      rw [← h]
      rfl
    rw [h, hshift] at hfee
    refine ⟨hshift, ?_⟩
    rw [UInt8.toNat_zero, Nat.zero_mul, Nat.zero_add] at hfee
    omega
  · rintro ⟨hshift, hlt⟩
    rw [hshift, UInt8.toNat_zero, Nat.zero_mul, Nat.zero_add, Nat.mod_eq_of_lt hlt] at hfee
    rcases f with ⟨shift, fee⟩
    cases hshift
    exact congrArg (RawFee.mk 0) (UInt64.toNat_inj.mp hfee)

/-- The serialised fee that comes back has lost its shift, and nothing else. -/
theorem serialize_viaJSON (f : RawFee) :
    f.viaJSON.serialize = beBytes 2 0 ++ [0] ++ beBytes 5 f.fee.toNat := by
  have hbytes : beBytes 5 f.viaJSON.fee.toNat = beBytes 5 f.fee.toNat := by
    refine beNat_injective (by rw [length_beBytes, length_beBytes]) ?_
    rw [beNat_beBytes, beNat_beBytes, fee_viaJSON]
    omega
  rw [serialize, hbytes]
  rfl

theorem serialize_viaJSON_eq_iff (f : RawFee) :
    f.viaJSON.serialize = f.serialize ↔ f.shift = 0 := by
  rw [serialize_viaJSON, serialize, List.append_left_inj, List.append_right_inj]
  simp [eq_comm]

end RawFee

theorem SlateCommitment.viaJSON_eq_iff (c : SlateCommitment) :
    c.viaJSON = c ↔ c.features = .default ∨ c.features = .coinbaseOutput := by
  rcases c with ⟨features, commitment, proofOpt⟩
  rw [viaJSON, SlateCommitment.mk.injEq]
  simp only [and_true]
  split_ifs with hcoinbase
  · simp [hcoinbase]
  · simp [hcoinbase, eq_comm]

namespace Slate

theorem map_viaJSON_eq_iff (commitments : List SlateCommitment) :
    commitments.map SlateCommitment.viaJSON = commitments ↔
      ∀ com ∈ commitments, com.features = .default ∨ com.features = .coinbaseOutput := by
  simp only [← SlateCommitment.viaJSON_eq_iff]
  conv_lhs => rw [← List.map_id commitments, List.map_map, List.map_inj_left]
  rfl

theorem viaJSON_eq_iff (s : Slate) : s.viaJSON = s ↔ s.featureArgsOpt = none ∧
    (s.fee.shift = 0 ∧ s.fee.fee.toNat < 2 ^ 40) ∧
    ∀ com ∈ s.commitments, com.features = .default ∨ com.features = .coinbaseOutput := by
  rw [← RawFee.viaJSON_eq_iff, ← map_viaJSON_eq_iff]
  rcases s with ⟨⟩
  simp [viaJSON, eq_comm]

/-- **Inputs and outputs come back**, whatever the kernel and the fee are, if their features have
names. -/
theorem getInputs_viaJSON {s : Slate}
    (h : ∀ com ∈ s.commitments, com.features = .default ∨ com.features = .coinbaseOutput) :
    s.viaJSON.getInputs = s.getInputs ∧ s.viaJSON.getOutputs = s.getOutputs := by
  have hcoms : s.viaJSON.commitments = s.commitments := (map_viaJSON_eq_iff _).mpr h
  rw [getInputs, getOutputs, hcoms]
  exact ⟨rfl, rfl⟩

/-- The message of a plain kernel. -/
theorem kernelMessage_plain (G : Global) {s : Slate} (h : s.kernelFeatures = .defaultKernel) :
    s.kernelMessage G = G.blake2b (.bytes (0 :: s.fee.serialize)) := by
  have hnames : KernelFeatures.defaultKernel ≠ .coinbaseKernel ∧
      KernelFeatures.defaultKernel ≠ .heightLocked ∧
      KernelFeatures.defaultKernel ≠ .noRecentDuplicate := by decide
  rw [kernelMessage, signatureMessage, h, if_neg hnames.1, if_neg hnames.2.1, if_neg hnames.2.2,
    List.append_nil, List.append_nil]
  rfl

/-- The message of a height-locked kernel. -/
theorem kernelMessage_heightLocked (G : Global) {s : Slate}
    (h : s.kernelFeatures = .heightLocked) :
    s.kernelMessage G =
      G.blake2b (.bytes (2 :: (s.fee.serialize ++ beBytes 8 s.getLockHeight.toNat))) := by
  have hnames : KernelFeatures.heightLocked ≠ .coinbaseKernel ∧
      KernelFeatures.heightLocked ≠ .noRecentDuplicate := by decide
  rw [kernelMessage, signatureMessage, h, if_neg hnames.1, if_pos rfl, if_neg hnames.2,
    List.append_nil]
  rfl

/-- **The message comes back only of a fee without a shift and a lock height of zero.** -/
theorem kernelMessage_viaJSON_iff {G : Global} (hG : G.InjectiveOnBytes) {s : Slate}
    (h : s.kernelFeatures = .defaultKernel ∨ s.kernelFeatures = .heightLocked) :
    s.viaJSON.kernelMessage G = s.kernelMessage G ↔
      s.fee.shift = 0 ∧ (s.kernelFeatures = .heightLocked → s.getLockHeight = 0) := by
  have hbytes (a b : List UInt8) : G.blake2b (.bytes a) = G.blake2b (.bytes b) ↔ a = b :=
    ⟨hG a b, congrArg fun bytes => G.blake2b (.bytes bytes)⟩
  have hfee := s.fee.serialize_viaJSON_eq_iff
  rcases h with h | h
  · have hlocked : s.kernelFeatures ≠ .heightLocked := by
      rw [h]
      decide
    have hvia : s.viaJSON.kernelFeatures = .defaultKernel := h
    rw [kernelMessage_plain G h, kernelMessage_plain G hvia, hbytes, List.cons.injEq,
      and_iff_right rfl]
    exact hfee.trans (and_iff_left fun hs => absurd hs hlocked).symm
  · have hvia : s.viaJSON.kernelFeatures = .heightLocked := h
    have hlength : s.fee.viaJSON.serialize.length = s.fee.serialize.length := by
      simp [RawFee.serialize]
    rw [kernelMessage_heightLocked G h, kernelMessage_heightLocked G hvia, hbytes, List.cons.injEq,
      and_iff_right rfl, ← hfee]
    constructor
    · intro hparts
      obtain ⟨hfees, hheights⟩ := List.append_inj hparts hlength
      refine ⟨hfees, fun _ => UInt64.toNat_inj.mp ?_⟩
      exact (beBytes_injective (n := s.getLockHeight.toNat) (m := 0)
        (by decide) s.getLockHeight.toNat_lt hheights).symm
    · rintro ⟨hfees, hheight⟩
      rw [hheight h]
      exact congrArg (· ++ beBytes 8 0) hfees

/-- **A slate comes back through JSON**: it is written and read, every field is as it was, and so
is what follows from the fields – the message of the kernel, the inputs and the outputs. -/
def RoundTripsJSON (G : Global) (s : Slate) : Prop :=
  ∃ json s', s.toJSON = .ok json ∧ fromJSON json = .ok s' ∧ s' = s ∧
    s'.kernelMessage G = s.kernelMessage G ∧ s'.getInputs = s.getInputs ∧
    s'.getOutputs = s.getOutputs

/-- **Which slates come back through JSON**: those with a stage that has a name and a plain kernel
without arguments, a fee of forty bits without a shift, and commitments whose features have
names. -/
theorem roundTripsJSON_iff (G : Global) (s : Slate) : s.RoundTripsJSON G ↔
    s.stage ≠ .none ∧ s.kernelFeatures = .defaultKernel ∧ s.featureArgsOpt = none ∧
    (s.fee.shift = 0 ∧ s.fee.fee.toNat < 2 ^ 40) ∧
    ∀ com ∈ s.commitments, com.features = .default ∨ com.features = .coinbaseOutput := by
  have hwritten := exists_toJSON_iff (s := s)
  have hsame := viaJSON_eq_iff s
  constructor
  · rintro ⟨json, s', hjson, hread, rfl, -⟩
    rw [fromJSON_toJSON hjson, Except.ok.injEq] at hread
    obtain ⟨hargs, hfee, hcoms⟩ := hsame.mp hread
    obtain ⟨hstage, hkernel⟩ := hwritten.mp ⟨json, hjson⟩
    rw [hargs] at hkernel
    exact ⟨hstage, hkernel.resolve_right (by simp), hargs, hfee, hcoms⟩
  · rintro ⟨hstage, hkernel, hback⟩
    obtain ⟨json, hjson⟩ := hwritten.mpr ⟨hstage, .inl hkernel⟩
    exact ⟨json, s, hjson, (fromJSON_toJSON hjson).trans (congrArg _ (hsame.mpr hback)), rfl, rfl,
      rfl, rfl⟩

/-- A slate with a kernel that is locked until height 1000. -/
def lockedSlate : Slate where
  slateId := ⟨List.replicate 16 7, rfl⟩
  stage := .standardSent
  version := 4
  blockVersion := 5
  numParticipants := 2
  ttl := 0
  kernelFeatures := .heightLocked
  featureArgsOpt := some ⟨some 1000⟩
  offset := .null
  amount := 600
  fee := ⟨0, 8⟩
  sigs := []
  commitments := []
  proofOpt := none

/-- **The lock height does not come back**, and with it the message that was to be signed. -/
theorem not_roundTripsJSON_lockedSlate :
    ¬lockedSlate.RoundTripsJSON (smallNet .mainnet) ∧
      ∃ json s', lockedSlate.toJSON = .ok json ∧ fromJSON json = .ok s' ∧
        s'.getLockHeight ≠ lockedSlate.getLockHeight ∧
        s'.kernelMessage (smallNet .mainnet) ≠
          lockedSlate.kernelMessage (smallNet .mainnet) := by
  have hheight : lockedSlate.getLockHeight ≠ 0 := by decide
  have hlocked : lockedSlate.kernelFeatures ≠ .defaultKernel := by decide
  obtain ⟨json, hjson⟩ := exists_toJSON_iff.mpr
    (⟨by decide, .inr rfl⟩ : lockedSlate.stage ≠ .none ∧ _)
  refine ⟨?_, json, lockedSlate.viaJSON, hjson, fromJSON_toJSON hjson, Ne.symm hheight, ?_⟩
  · rw [roundTripsJSON_iff]
    exact fun h => hlocked h.2.1
  · rw [ne_eq, kernelMessage_viaJSON_iff (SmallNet.injectiveOnBytes _) (.inr rfl)]
    exact fun h => hheight (h.2 rfl)

end Slate

end GrinPlusPlus
