import GrinPlusPlus.Wallet.SlateJson

/-!
# Kernels in JSON

`TransactionKernel::ToJSON` and `TransactionKernel::FromJSON`, the form in which transactions are
posted to the interface of the node. The features are written as the only member of an object,
under their name; its value holds the fee and the lock height.

What is read of a kernel that was written is `GrinPlusPlus.TransactionKernel.viaJSON`
(`GrinPlusPlus.TransactionKernel.fromJSON_toJSON`), and this is the kernel for two kinds of
features only, and not always:

* a plain kernel and a height-locked one come back with the shift of the fee above its forty
  bits, which is to say without it;
* a reward has neither fee nor lock height, so the value of its features stays null – and null is
  what the reader refuses to look into;
* the relative height of a no-recent-duplicate kernel is not written, and no relative height is
  one that the reader refuses.
-/

namespace GrinPlusPlus

open Exec JsonUtil

/-! ### The names of the features -/

namespace KernelFeatures

/-- `KernelFeatures::ToString`. -/
def toText (features : KernelFeatures) : String :=
  if features = .defaultKernel then "Plain"
  else if features = .coinbaseKernel then "Coinbase"
  else if features = .heightLocked then "HeightLocked"
  else if features = .noRecentDuplicate then "NoRecentDuplicate"
  else ""

/-- `KernelFeatures::FromString`. -/
def fromText (text : String) : Except Exc KernelFeatures :=
  if text = "Plain" then .ok .defaultKernel
  else if text = "Coinbase" then .ok .coinbaseKernel
  else if text = "HeightLocked" then .ok .heightLocked
  else if text = "NoRecentDuplicate" then .ok .noRecentDuplicate
  else .error (.deserialization ("Failed to deserialize kernel feature: " ++ text))

/-- **Features have names that are read back**, each of the four. -/
theorem fromText_toText {features : KernelFeatures}
    (h : features = .defaultKernel ∨ features = .coinbaseKernel ∨ features = .heightLocked ∨
      features = .noRecentDuplicate) : fromText features.toText = .ok features := by
  rcases h with rfl | rfl | rfl | rfl <;> decide +kernel

end KernelFeatures

/-- `Json::Value::getMemberNames`. -/
def Json.memberNames : Json → Except Exc (List String)
  | .null => .ok []
  | .object members => .ok (members.map Prod.fst)
  | _ => .error (.runtime "in Json::Value::getMemberNames(), value must be objectValue")

/-- A JSON value to which these members were assigned: null if there are none. -/
def Json.assigned (members : List (String × Json)) : Json :=
  if members = [] then .null else .object members

/-! ### Compact signatures -/

/-- The two functions of the library that convert between the forms of a signature. -/
structure CompactSignatures where
  /-- `secp256k1_ecdsa_signature_serialize_compact`. -/
  serializeCompact : Signature → Option CompactSignature
  /-- `secp256k1_ecdsa_signature_parse_compact`. -/
  parseCompact : CompactSignature → Option Signature

namespace CompactSignatures

variable (F : CompactSignatures)

/-- `Crypto::ToCompact`. -/
def toCompact (signature : Signature) : Except Exc CompactSignature :=
  orThrow (F.serializeCompact signature) (.crypto "Failed to serialize to compact")

/-- `Crypto::ParseCompactSignature`: when nothing is parsed, the front of an empty vector is
read. -/
def parseCompactSignature (signature : CompactSignature) : Except Exc Signature :=
  orThrow (F.parseCompact signature) .undefined

/-- **Parsing a compact signature inverts `ToCompact`.** -/
def Inverts : Prop :=
  ∀ signature, ∃ compact, F.serializeCompact signature = some compact ∧
    F.parseCompact compact = some signature

end CompactSignatures

/-! ### Kernels in memory -/

/-- A kernel as it stands in memory, with a fee that need not be within its bits. -/
structure RawKernel where
  /-- The features. -/
  features : KernelFeatures
  /-- The fee. -/
  fee : RawFee
  /-- The lock height, or the relative height. -/
  lockHeight : UInt64
  /-- The excess. -/
  excessCommitment : Commitment
  /-- The signature with the excess. -/
  excessSignature : Signature
deriving DecidableEq

namespace RawKernel

/-- `TransactionKernel::Serialize` under the first protocol version. -/
def serialize (k : RawKernel) : List UInt8 :=
  k.features.value ::
    (k.fee.serialize ++ beBytes 8 k.lockHeight.toNat ++ k.excessCommitment.bytes ++
      k.excessSignature.bytes)

variable (G : Global)

/-- `TransactionKernel::GetHash`. -/
def getHash (k : RawKernel) : Hash :=
  G.blake2b (.bytes k.serialize)

/-- `TransactionKernel::GetSignatureMessage`. -/
def getSignatureMessage (k : RawKernel) : Hash :=
  signatureMessage G k.features k.fee k.lockHeight

end RawKernel

namespace TransactionKernel

/-- A kernel with a fee within its bits, in memory. -/
def toRaw (k : TransactionKernel) : RawKernel :=
  ⟨k.features, k.fee.toRaw, k.lockHeight, k.excessCommitment, k.excessSignature⟩

variable (G : Global) (F : CompactSignatures)

/-- The hash and the message are those of the kernel. -/
theorem getHash_toRaw (k : TransactionKernel) :
    k.toRaw.getHash G = k.getHash G ∧
      k.toRaw.getSignatureMessage G = k.getSignatureMessage G :=
  ⟨rfl, rfl⟩

/-! ### Writing and reading -/

/-- `TransactionKernel::ToJSON` of what belongs to the features. -/
def featureAttrs (k : TransactionKernel) : Json :=
  let attrs := if k.features = .coinbaseKernel then [] else Json.set [] "fee" k.fee.toRaw.toJSON
  Json.assigned
    (if k.features = .heightLocked then Json.set attrs "lock_height" (.uint k.lockHeight)
      else attrs)

/-- The members that `TransactionKernel::ToJSON` assigns, with the compact signature. -/
def kernelNode (k : TransactionKernel) (compact : CompactSignature) : List (String × Json) :=
  let node := Json.set [] "features" (.object (Json.set [] k.features.toText k.featureAttrs))
  let node := Json.set node "excess" (.string k.excessCommitment.toHex)
  Json.set node "excess_sig" (.string compact.toHex)

/-- `TransactionKernel::ToJSON`. -/
def toJSON (k : TransactionKernel) : Except Exc Json := do
  let compact ← F.toCompact k.excessSignature
  pure (.object (k.kernelNode compact))

/-- `TransactionKernel::FromJSON`. -/
def fromJSON (transactionKernelJSON : Json) : Except Exc RawKernel := do
  let featuresJson ← getRequiredField transactionKernelJSON "features"
  let names ← featuresJson.memberNames
  let featureStr ← orThrow names.head? .undefined
  let features ← KernelFeatures.fromText featureStr
  let featureJson ← featuresJson.get featureStr
  let feeJsonOpt ← getOptionalField featureJson "fee"
  let fee ←
    match feeJsonOpt with
    | some feeJson => RawFee.fromJSON feeJson
    | none => pure ⟨0, 0⟩
  let lockHeight ← getUInt64Opt featureJson "lock_height"
  let excessCommitment ← getCommitment transactionKernelJSON "excess"
  let compact ← getBigInteger 64 transactionKernelJSON "excess_sig"
  let excessSignature ← F.parseCompactSignature compact
  if features = .noRecentDuplicate ∧
      (lockHeight.getD 0 = 0 ∨ Consensus.weekHeight < (lockHeight.getD 0).toNat) then
    .error (invalidRelativeHeight (lockHeight.getD 0) excessCommitment)
  else
    pure ⟨features, fee, lockHeight.getD 0, excessCommitment, excessSignature⟩

/-- **What comes back of a kernel.** -/
def viaJSON (k : TransactionKernel) : Except Exc RawKernel :=
  if k.features = .defaultKernel then
    .ok { k.toRaw with fee := k.fee.toRaw.viaJSON, lockHeight := 0 }
  else if k.features = .coinbaseKernel then .error (.deserialization "json value was null")
  else if k.features = .heightLocked then .ok { k.toRaw with fee := k.fee.toRaw.viaJSON }
  else if k.features = .noRecentDuplicate then
    .error (invalidRelativeHeight 0 k.excessCommitment)
  else .error (.deserialization "Failed to deserialize kernel feature: ")

/-! ### What is read of what was written -/

section RoundTrip

variable {G F} {k : TransactionKernel} {json : Json}

/-- The reader on what was written, up to the value of the features. -/
theorem fromJSON_of_toJSON (hF : F.Inverts) (h : k.toJSON F = .ok json) :
    fromJSON F json = (do
      let features ← KernelFeatures.fromText k.features.toText
      let feeJsonOpt ← getOptionalField k.featureAttrs "fee"
      let fee ←
        match feeJsonOpt with
        | some feeJson => RawFee.fromJSON feeJson
        | none => pure ⟨0, 0⟩
      let lockHeight ← getUInt64Opt k.featureAttrs "lock_height"
      if features = .noRecentDuplicate ∧
          (lockHeight.getD 0 = 0 ∨ Consensus.weekHeight < (lockHeight.getD 0).toNat) then
        .error (invalidRelativeHeight (lockHeight.getD 0) k.excessCommitment)
      else
        pure ⟨features, fee, lockHeight.getD 0, k.excessCommitment, k.excessSignature⟩) := by
  obtain ⟨compact, hcompact, hparse⟩ := hF k.excessSignature
  rw [toJSON, CompactSignatures.toCompact, hcompact, orThrow, ok_bind] at h
  obtain rfl := Except.ok.inj h
  have hmember (key : String) (value : Json)
      (hlookup : (k.kernelNode compact).lookup key = some value) (hvalue : value ≠ .null) :
      Json.HasMember (.object (k.kernelNode compact)) key (some value) :=
    ⟨_, rfl, hlookup, fun hnull => hvalue (Option.some.inj hnull)⟩
  have hfeatures := getRequiredField_eq (hmember "features"
    (.object (Json.set [] k.features.toText k.featureAttrs))
    (by simp [kernelNode, Json.lookup_set]) (by simp))
  have hexcess := getBigInteger_eq (hmember "excess" (.string k.excessCommitment.toHex)
    (by simp [kernelNode, Json.lookup_set]) (by simp))
  have hsig := getBigInteger_eq (hmember "excess_sig" (.string compact.toHex)
    (by simp [kernelNode, Json.lookup_set]) (by simp))
  have hget : (Json.object (Json.set [] k.features.toText k.featureAttrs)).get k.features.toText =
      .ok k.featureAttrs := by
    rw [Json.get, Json.lookup_set, if_pos rfl, Option.getD_some]
  rw [fromJSON, hfeatures, ok_bind, getCommitment, hexcess, hsig]
  simp only [Json.memberNames, Json.set, List.map_cons, List.map_nil, List.head?_cons, orThrow,
    ok_bind, CompactSignatures.parseCompactSignature, hparse]
  rw [show Json.get (.object [(k.features.toText, k.featureAttrs)]) k.features.toText =
    .ok k.featureAttrs from hget]
  rfl

/-- The value of the features of a kernel with a fee. -/
theorem hasMember_featureAttrs (h : k.features ≠ .coinbaseKernel) :
    k.featureAttrs.HasMember "fee" (some k.fee.toRaw.toJSON) ∧
      k.featureAttrs.HasMember "lock_height"
        (if k.features = .heightLocked then some (.uint k.lockHeight) else none) := by
  rw [featureAttrs, if_neg h]
  split_ifs with hlocked
  · exact ⟨⟨_, rfl, by simp [Json.lookup_set], by simp [RawFee.toJSON]⟩,
      ⟨_, rfl, by simp [Json.lookup_set], by simp⟩⟩
  · exact ⟨⟨_, rfl, by simp [Json.lookup_set], by simp [RawFee.toJSON]⟩,
      ⟨_, rfl, by simp [Json.set], by simp⟩⟩

/-- **What is read of a kernel that was written.** -/
theorem fromJSON_toJSON (hF : F.Inverts) (h : k.toJSON F = .ok json) :
    fromJSON F json = k.viaJSON := by
  rw [fromJSON_of_toJSON hF h]
  by_cases hcoinbase : k.features = .coinbaseKernel
  · -- nothing was assigned to the value of the features, and null has no members
    have hattrs : k.featureAttrs = .null := by
      rw [featureAttrs, if_pos hcoinbase, hcoinbase]
      rfl
    rw [hattrs, hcoinbase, viaJSON, hcoinbase]
    rfl
  · obtain ⟨hfee, hlock⟩ := hasMember_featureAttrs hcoinbase
    have hread : RawFee.fromJSON k.fee.toRaw.toJSON = .ok k.fee.toRaw.viaJSON := rfl
    have hlocked : getUInt64Opt k.featureAttrs "lock_height" =
        .ok (if k.features = .heightLocked then some k.lockHeight else none) := by
      split_ifs at hlock ⊢
      · exact getUInt64Opt_some hlock rfl
      · exact getUInt64Opt_none hlock
    rw [getOptionalField_eq hfee]
    simp only [ok_bind, hread, hlocked]
    rw [viaJSON, if_neg hcoinbase]
    by_cases hplain : k.features = .defaultKernel
    · have hname := KernelFeatures.fromText_toText (Or.inl hplain)
      have hheight : k.features ≠ .heightLocked := by
        rw [hplain]
        decide
      have hrecent : k.features ≠ .noRecentDuplicate := by
        rw [hplain]
        decide
      rw [if_pos hplain, hname, ok_bind, if_neg hheight, if_neg fun h => hrecent h.1]
      rfl
    rw [if_neg hplain]
    by_cases hheight : k.features = .heightLocked
    · have hname := KernelFeatures.fromText_toText (Or.inr (Or.inr (Or.inl hheight)))
      have hrecent : k.features ≠ .noRecentDuplicate := by
        rw [hheight]
        decide
      rw [if_pos hheight, if_pos hheight, hname, ok_bind, if_neg fun h => hrecent h.1]
      rfl
    rw [if_neg hheight, if_neg hheight]
    by_cases hrecent : k.features = .noRecentDuplicate
    · have hname := KernelFeatures.fromText_toText (Or.inr (Or.inr (Or.inr hrecent)))
      rw [if_pos hrecent, hname, ok_bind, if_pos ⟨hrecent, Or.inl rfl⟩]
      rfl
    · rw [if_neg hrecent, KernelFeatures.toText, if_neg hplain, if_neg hcoinbase, if_neg hheight,
        if_neg hrecent]
      rfl

/-- A kernel is written whenever its signature has a compact form. -/
theorem exists_toJSON (hF : F.Inverts) (k : TransactionKernel) :
    ∃ json, k.toJSON F = .ok json := by
  obtain ⟨compact, hcompact, -⟩ := hF k.excessSignature
  rw [toJSON, CompactSignatures.toCompact, hcompact]
  exact ⟨_, rfl⟩

/-- The bytes that a kernel with another fee and lock height is hashed from. -/
theorem serialize_eq_iff (k : RawKernel) (fee : RawFee) (lockHeight : UInt64) :
    { k with fee := fee, lockHeight := lockHeight }.serialize = k.serialize ↔
      fee.serialize = k.fee.serialize ∧ lockHeight = k.lockHeight := by
  have hlength : ∀ f : RawFee, f.serialize.length = 8 := fun f => by simp [RawFee.serialize]
  rw [RawKernel.serialize, RawKernel.serialize]
  simp only [List.cons_inj_right, List.append_left_inj]
  constructor
  · intro h
    obtain ⟨hfee, hlock⟩ := List.append_inj h ((hlength _).trans (hlength _).symm)
    exact ⟨hfee, UInt64.toNat_inj.mp
      (beBytes_injective lockHeight.toNat_lt k.lockHeight.toNat_lt hlock)⟩
  · rintro ⟨hfee, rfl⟩
    rw [hfee]

/-- Which kernels come back: those of whose features, fee and lock height nothing is lost. -/
def Survives (k : TransactionKernel) : Prop :=
  (k.features = .defaultKernel ∧ k.lockHeight = 0 ∨ k.features = .heightLocked) ∧ k.fee.shift = 0

/-- A kernel of which nothing is lost comes back. -/
theorem viaJSON_of_survives {k : TransactionKernel} (h : k.Survives) : k.viaJSON = .ok k.toRaw := by
  obtain ⟨hkind, hshift⟩ := h
  have hfee : k.fee.toRaw.viaJSON = k.toRaw.fee :=
    (RawFee.viaJSON_eq_iff _).2 ⟨hshift, k.fee.fee_lt⟩
  rw [viaJSON, hfee]
  rcases hkind with ⟨hplain, hlock⟩ | hheight
  · have hzero : k.toRaw.lockHeight = 0 := hlock
    rw [if_pos hplain, ← hzero]
  · have hplain : k.features ≠ .defaultKernel := by
      rw [hheight]
      decide
    have hcoinbase : k.features ≠ .coinbaseKernel := by
      rw [hheight]
      decide
    rw [if_neg hplain, if_neg hcoinbase, if_pos hheight]

/-- What comes back is hashed from the same bytes only when nothing is lost. -/
theorem survives_of_serialize_eq {k' : RawKernel} (h : k.viaJSON = .ok k')
    (hbytes : k'.serialize = k.toRaw.serialize) : k.Survives := by
  have hshift := RawFee.serialize_viaJSON_eq_iff k.fee.toRaw
  rw [viaJSON] at h
  split_ifs at h with hplain hcoinbase hheight hrecent
  · cases h
    obtain ⟨hfee, hlock⟩ := (serialize_eq_iff k.toRaw k.fee.toRaw.viaJSON 0).1 hbytes
    exact ⟨Or.inl ⟨hplain, hlock.symm⟩, hshift.1 hfee⟩
  · cases h
    obtain ⟨hfee, -⟩ := (serialize_eq_iff k.toRaw k.fee.toRaw.viaJSON k.lockHeight).1 hbytes
    exact ⟨Or.inr hheight, hshift.1 hfee⟩

/-- **The round trip**: a kernel is written and read, and what is read is equal to it in every
field, with the same hash and the same message. -/
def RoundTripsJSON (G : Global) (F : CompactSignatures) (k : TransactionKernel) : Prop :=
  ∃ json k', k.toJSON F = .ok json ∧ fromJSON F json = .ok k' ∧ k' = k.toRaw ∧
    k'.getHash G = k.getHash G ∧ k'.getSignatureMessage G = k.getSignatureMessage G

/-- Only a kernel of which nothing is lost has a round trip. -/
theorem RoundTripsJSON.survives {G : Global} (hF : F.Inverts) (h : k.RoundTripsJSON G F) :
    k.Survives := by
  obtain ⟨json, k', hjson, hread, rfl, -⟩ := h
  rw [fromJSON_toJSON hF hjson] at hread
  exact survives_of_serialize_eq hread rfl

/-- **A kernel comes back exactly when it is plain and has no lock height, or is height-locked, and
its fee has no shift.** The same goes for its hash alone. -/
theorem kernelRoundTripsJSON_iff (hG : G.InjectiveOnBytes) (hF : F.Inverts)
    (k : TransactionKernel) :
    (RoundTripsJSON G F k ↔
      (k.features = .defaultKernel ∧ k.lockHeight = 0 ∨ k.features = .heightLocked) ∧
        k.fee.shift = 0) ∧
    ((∃ json k', k.toJSON F = .ok json ∧ fromJSON F json = .ok k' ∧
        k'.getHash G = k.getHash G) ↔
      (k.features = .defaultKernel ∧ k.lockHeight = 0 ∨ k.features = .heightLocked) ∧
        k.fee.shift = 0) := by
  have hback : k.Survives → RoundTripsJSON G F k := by
    intro h
    obtain ⟨json, hjson⟩ := exists_toJSON hF k
    refine ⟨json, k.toRaw, hjson, ?_, rfl, getHash_toRaw G k⟩
    rw [fromJSON_toJSON hF hjson, viaJSON_of_survives h]
  have hlost : (∃ json k', k.toJSON F = .ok json ∧ fromJSON F json = .ok k' ∧
      k'.getHash G = k.getHash G) → k.Survives := by
    rintro ⟨json, k', hjson, hread, hhash⟩
    rw [fromJSON_toJSON hF hjson] at hread
    exact survives_of_serialize_eq hread (hG _ _ hhash)
  have hhash : RoundTripsJSON G F k → ∃ json k', k.toJSON F = .ok json ∧
      fromJSON F json = .ok k' ∧ k'.getHash G = k.getHash G := by
    rintro ⟨json, k', hjson, hread, -, hhash, -⟩
    exact ⟨json, k', hjson, hread, hhash⟩
  exact ⟨⟨hlost ∘ hhash, hback⟩, ⟨hlost, hhash ∘ hback⟩⟩

end RoundTrip

end TransactionKernel

namespace SmallNet

/-- Signatures whose compact form is themselves. -/
def plainSignatures : CompactSignatures where
  serializeCompact := some
  parseCompact := some

theorem inverts_plainSignatures : plainSignatures.Inverts :=
  fun signature => ⟨signature, rfl, rfl⟩

/-- A plain kernel with a shift. -/
def shiftedKernel : TransactionKernel where
  features := .defaultKernel
  fee := Fee.ofBytes 8 0 7
  lockHeight := 0
  excessCommitment := commitment 7
  excessSignature := signature

/-- A height-locked kernel without a shift. -/
def heightLockedKernel : TransactionKernel where
  features := .heightLocked
  fee := Fee.ofBytes 0 0 7
  lockHeight := 1000
  excessCommitment := commitment 7
  excessSignature := signature

end SmallNet

open SmallNet

/-- A height-locked kernel without a shift comes back. -/
theorem TransactionKernel.kernelRoundTripsJSON_iff_heightLocked :
    heightLockedKernel.RoundTripsJSON (smallNet .mainnet) plainSignatures :=
  ((kernelRoundTripsJSON_iff (injectiveOnBytes .mainnet) inverts_plainSignatures _).1).2
    ⟨Or.inr rfl, rfl⟩

/-- A plain kernel with a shift, a reward and a no-recent-duplicate kernel do not. -/
theorem TransactionKernel.not_roundTripsJSON :
    (¬ shiftedKernel.RoundTripsJSON (smallNet .mainnet) plainSignatures) ∧
    (¬ (coinbaseKernel 1).RoundTripsJSON (smallNet .mainnet) plainSignatures) ∧
    ¬ (relativeKernel 1440).RoundTripsJSON (smallNet .mainnet) plainSignatures := by
  refine ⟨fun h => ?_, fun h => ?_, fun h => ?_⟩
  · exact absurd (h.survives inverts_plainSignatures).2 (by decide)
  · rcases (h.survives inverts_plainSignatures).1 with ⟨hplain, -⟩ | hheight
    · exact absurd hplain (by decide)
    · exact absurd hheight (by decide)
  · rcases (h.survives inverts_plainSignatures).1 with ⟨hplain, -⟩ | hheight
    · exact absurd hplain (by decide)
    · exact absurd hheight (by decide)

end GrinPlusPlus
