import GrinPlusPlus.Core.WireCodec
import GrinPlusPlus.Wallet.Slate

/-!
# Serialised slates

`Slate::Serialize` and `Slate::Deserialize`, with the parts they consist of. Fields that have
their default value are left out, and a byte of flags says which ones are there; the lock height
is there for one kind of kernel only.

What is read back is `GrinPlusPlus.Slate.reload` of what was written
(`GrinPlusPlus.Slate.run_deserialize`): the fee without the bits its serialised form has no room
for, and the arguments that belong to the features. Whether this is the slate that there was,
`GrinPlusPlus.Slate.reload_agrees_iff` says.
-/

namespace GrinPlusPlus

open Exec ByteBuffer

/-- `BitUtil::IsSet`. -/
def isSet (byte : UInt8) (bit : ℕ) : Bool :=
  0 < (byte.toNat &&& 1 <<< bit)

/-! ### Signatures, commitments, payment proofs -/

/-- The two functions of `Crypto` that convert between the forms of a signature. -/
structure SignatureForms where
  /-- `Crypto::ParseCompactSignature`. -/
  parseCompactSignature : CompactSignature → Signature
  /-- `Crypto::ToCompact`. -/
  toCompact : Signature → CompactSignature

/-- `SlateSignature::Serialize`. -/
def SlateSignature.serialize (F : SignatureForms) (s : SlateSignature) : List UInt8 :=
  match s.partialOpt with
  | some sig => 1 :: (s.excess.bytes ++ (s.nonce.bytes ++ (F.parseCompactSignature sig).bytes))
  | none => 0 :: (s.excess.bytes ++ s.nonce.bytes)

/-- `SlateSignature::Deserialize`. -/
def SlateSignature.deserialize (F : SignatureForms) : ByteBuffer SlateSignature := do
  let hasSig ← readU8
  let excess ← readBigInteger 33
  let nonce ← readBigInteger 33
  if 0 < hasSig then do
    let signature ← readBigInteger 64
    pure ⟨excess, nonce, some (F.toCompact signature)⟩
  else pure ⟨excess, nonce, none⟩

/-- `SlateCommitment::Serialize`. -/
def SlateCommitment.serialize (c : SlateCommitment) : List UInt8 :=
  match c.proofOpt with
  | some proof => 1 :: c.features.value :: (c.commitment.bytes ++ proof.serialize)
  | none => 0 :: c.features.value :: c.commitment.bytes

/-- `SlateCommitment::Deserialize`. -/
def SlateCommitment.deserialize : ByteBuffer SlateCommitment := do
  let hasProof ← readU8
  let features ← readU8
  let commitment ← readBigInteger 33
  if 0 < hasProof then do
    let proof ← RangeProof.deserialize
    pure ⟨⟨features⟩, commitment, some proof⟩
  else pure ⟨⟨features⟩, commitment, none⟩

/-- `SlatePaymentProof::Serialize`. -/
def SlatePaymentProof.serialize (p : SlatePaymentProof) : List UInt8 :=
  p.senderAddress.bytes ++ (p.receiverAddress.bytes ++
    match p.receiverSignatureOpt with
    | some signature => 1 :: signature.bytes
    | none => [0])

/-- `SlatePaymentProof::Deserialize`. -/
def SlatePaymentProof.deserialize : ByteBuffer SlatePaymentProof := do
  let senderAddress ← readBigInteger 32
  let receiverAddress ← readBigInteger 32
  let hasSignature ← readU8
  if hasSignature = 1 then do
    let signature ← readBigInteger 64
    pure ⟨senderAddress, receiverAddress, some signature⟩
  else pure ⟨senderAddress, receiverAddress, none⟩

/-! ### Stages and flags -/

namespace ESlateStage

/-- `SlateStage::ToByte`. -/
def toByte : ESlateStage → UInt8
  | standardSent => 1
  | standardReceived => 2
  | standardFinalized => 3
  | invoiceSent => 4
  | invoicePaid => 5
  | invoiceFinalized => 6
  | none => 0

/-- `SlateStage::FromByte`. -/
def fromByte (value : UInt8) : ByteBuffer ESlateStage :=
  if value = 1 then pure standardSent
  else if value = 2 then pure standardReceived
  else if value = 3 then pure standardFinalized
  else if value = 4 then pure invoiceSent
  else if value = 5 then pure invoicePaid
  else if value = 6 then pure invoiceFinalized
  else throw stdException

end ESlateStage

/-- `OptionalFieldStatus`. -/
structure OptionalFieldStatus where
  /-- Bit 0. -/
  includeNumParts : Bool
  /-- Bit 1. -/
  includeAmt : Bool
  /-- Bit 2. -/
  includeFee : Bool
  /-- Bit 3. -/
  includeFeat : Bool
  /-- Bit 4. -/
  includeTtl : Bool
deriving DecidableEq

namespace OptionalFieldStatus

/-- `OptionalFieldStatus::ToByte`. -/
def toByte (s : OptionalFieldStatus) : UInt8 :=
  (if s.includeNumParts then (1 : UInt8) else 0) |||
    (if s.includeAmt then (1 : UInt8) <<< 1 else 0) |||
    (if s.includeFee then (1 : UInt8) <<< 2 else 0) |||
    (if s.includeFeat then (1 : UInt8) <<< 3 else 0) |||
    (if s.includeTtl then (1 : UInt8) <<< 4 else 0)

/-- `OptionalFieldStatus::FromByte`. -/
def fromByte (byte : UInt8) : OptionalFieldStatus :=
  ⟨isSet byte 0, isSet byte 1, isSet byte 2, isSet byte 3, isSet byte 4⟩

theorem fromByte_toByte (s : OptionalFieldStatus) : fromByte s.toByte = s := by
  have h : ∀ a b c d e : Bool,
      fromByte (toByte ⟨a, b, c, d, e⟩) = ⟨a, b, c, d, e⟩ := by decide
  exact h _ _ _ _ _

end OptionalFieldStatus

/-- `OptionalStructStatus`. -/
structure OptionalStructStatus where
  /-- Bit 0. -/
  includeComs : Bool
  /-- Bit 1. -/
  includeProof : Bool
deriving DecidableEq

namespace OptionalStructStatus

/-- `OptionalStructStatus::ToByte`. -/
def toByte (s : OptionalStructStatus) : UInt8 :=
  (if s.includeComs then (1 : UInt8) else 0) |||
    (if s.includeProof then (1 : UInt8) <<< 1 else 0)

/-- `OptionalStructStatus::FromByte`. -/
def fromByte (byte : UInt8) : OptionalStructStatus := ⟨isSet byte 0, isSet byte 1⟩

theorem fromByte_toByte (s : OptionalStructStatus) : fromByte s.toByte = s := by
  have h : ∀ a b : Bool, fromByte (toByte ⟨a, b⟩) = ⟨a, b⟩ := by decide
  exact h _ _

end OptionalStructStatus

/-! ### Slates -/

/-- Bytes that are there if the flag is set. -/
def bytesIf (flag : Bool) (bytes : List UInt8) : List UInt8 :=
  if flag then bytes else []

/-- A value that is read if the flag is set. -/
def readIf {α : Type} (flag : Bool) (read : ByteBuffer α) (default : α) : ByteBuffer α :=
  if flag then read else pure default

namespace Slate

/-- What `Slate::Serialize` includes: the fields that do not have their default value. -/
def fieldStatus (s : Slate) : OptionalFieldStatus where
  includeNumParts := s.numParticipants ≠ 2
  includeAmt := s.amount ≠ 0
  includeFee := s.fee ≠ ⟨0, 0⟩
  includeFeat := s.kernelFeatures ≠ .defaultKernel
  includeTtl := s.ttl ≠ 0

/-- The lists and the proof that `Slate::Serialize` includes. -/
def structStatus (s : Slate) : OptionalStructStatus where
  includeComs := !s.commitments.isEmpty
  includeProof := s.proofOpt.isSome

/-- `SlatePaymentProof::Serialize` of the payment proof, if there is one. -/
def proofBytes (s : Slate) : List UInt8 :=
  match s.proofOpt with
  | some proof => proof.serialize
  | none => []

variable (F : SignatureForms)

/-- `Slate::Serialize`. -/
def serialize (s : Slate) : List UInt8 :=
  beBytes 2 s.version.toNat ++ (beBytes 2 s.blockVersion.toNat ++ (s.slateId.bytes ++
    (s.stage.toByte :: (s.offset.bytes ++ (s.fieldStatus.toByte ::
    (bytesIf s.fieldStatus.includeNumParts [s.numParticipants] ++
    (bytesIf s.fieldStatus.includeAmt (beBytes 8 s.amount.toNat) ++
    (bytesIf s.fieldStatus.includeFee s.fee.serialize ++
    (bytesIf s.fieldStatus.includeFeat [s.kernelFeatures.value] ++
    (bytesIf s.fieldStatus.includeTtl (beBytes 8 s.ttl.toNat) ++
    (UInt8.ofNat s.sigs.length :: (s.sigs.flatMap (SlateSignature.serialize F) ++
    (s.structStatus.toByte ::
    (bytesIf s.structStatus.includeComs
      (beBytes 2 s.commitments.length ++ s.commitments.flatMap SlateCommitment.serialize) ++
    (s.proofBytes ++
    bytesIf (s.kernelFeatures = .heightLocked) (beBytes 8 s.getLockHeight.toNat))))))))))))))))

/-- `Slate::Deserialize` of the commitments. -/
def readCommitments : ByteBuffer (List SlateCommitment) := do
  let numComs ← readU16
  readMany SlateCommitment.deserialize numComs.toNat

/-- `Slate::Deserialize` of the payment proof. -/
def readPaymentProof : ByteBuffer (Option SlatePaymentProof) := do
  let proof ← SlatePaymentProof.deserialize
  pure (some proof)

/-- `Slate::Deserialize` of the arguments of the features. -/
def readFeatureArgs (kernelFeatures : KernelFeatures) : ByteBuffer (Option SlateFeatureArgs) :=
  if kernelFeatures ≠ .defaultKernel then
    if kernelFeatures = .heightLocked then do
      let lockHeight ← readU64
      pure (some ⟨some lockHeight⟩)
    else pure (some ⟨none⟩)
  else pure none

/-- `Fee::Deserialize`, in memory. -/
def readFee : ByteBuffer RawFee := do
  let fee ← Fee.deserialize
  pure fee.toRaw

/-- `Slate::Deserialize` of the features. -/
def readFeatures : ByteBuffer KernelFeatures := do
  let value ← readU8
  pure ⟨value⟩

/-- `Slate::Deserialize`. -/
def deserialize : ByteBuffer Slate := do
  let version ← readU16
  let blockVersion ← readU16
  let slateId ← readBigInteger 16
  let stageByte ← readU8
  let stage ← ESlateStage.fromByte stageByte
  let offset ← readBigInteger 32
  let fieldByte ← readU8
  let fieldStatus := OptionalFieldStatus.fromByte fieldByte
  let numParticipants ← readIf fieldStatus.includeNumParts readU8 2
  let amount ← readIf fieldStatus.includeAmt readU64 0
  let fee ← readIf fieldStatus.includeFee readFee ⟨0, 0⟩
  let kernelFeatures ← readIf fieldStatus.includeFeat readFeatures .defaultKernel
  let ttl ← readIf fieldStatus.includeTtl readU64 0
  let numSigs ← readU8
  let sigs ← readMany (SlateSignature.deserialize F) numSigs.toNat
  let structByte ← readU8
  let structStatus := OptionalStructStatus.fromByte structByte
  let commitments ← readIf structStatus.includeComs readCommitments []
  let proofOpt ← readIf structStatus.includeProof readPaymentProof none
  let featureArgsOpt ← readFeatureArgs kernelFeatures
  pure ⟨slateId, stage, version, blockVersion, numParticipants, ttl, kernelFeatures,
    featureArgsOpt, offset, amount, fee, sigs, commitments, proofOpt⟩

end Slate

/-! ### What was written is read back -/

namespace ByteBuffer

/-- **The value is read from the bytes**, whatever follows them, and they are all that is read. -/
def Reads {α : Type} (read : ByteBuffer α) (bytes : List UInt8) (a : α) : Prop :=
  ∀ rest, run read (bytes ++ rest) = (.ok a, rest)

section Reads

variable {α β : Type}

theorem reads_pure (a : α) : Reads (pure a) [] a :=
  fun _ => rfl

/-- What one reader leaves, the next one reads. -/
theorem Reads.bind {x : ByteBuffer α} {f : α → ByteBuffer β} {bytes later : List UInt8} {a : α}
    {b : β} (hx : Reads x bytes a) (hf : Reads (f a) later b) :
    Reads (x >>= f) (bytes ++ later) b := by
  intro rest
  rw [List.append_assoc, run_bind_ok (hx _)]
  exact hf rest

/-- The same after a single byte. -/
theorem Reads.bind_cons {x : ByteBuffer α} {f : α → ByteBuffer β} {byte : UInt8}
    {later : List UInt8} {a : α} {b : β} (hx : Reads x [byte] a) (hf : Reads (f a) later b) :
    Reads (x >>= f) (byte :: later) b :=
  hx.bind hf

/-- The last field of a value. -/
theorem Reads.last {x : ByteBuffer α} {f : α → ByteBuffer β} {bytes : List UInt8} {a : α} {b : β}
    (hx : Reads x bytes a) (hf : f a = pure b) : Reads (x >>= f) bytes b := by
  have h := hx.bind (hf ▸ reads_pure b)
  rwa [List.append_nil] at h

theorem reads_readU8 (b : UInt8) : Reads readU8 [b] b :=
  run_readU8 b

theorem reads_readU16 (n : UInt16) : Reads readU16 (beBytes 2 n.toNat) n :=
  run_readU16_self n

theorem reads_readU32 (n : UInt32) : Reads readU32 (beBytes 4 n.toNat) n :=
  run_readU32_self n

theorem reads_readU64 (n : UInt64) : Reads readU64 (beBytes 8 n.toNat) n :=
  run_readU64 n

theorem reads_readBigInteger {n : ℕ} (b : CBigInteger n) : Reads (readBigInteger n) b.bytes b :=
  run_readBigInteger b

theorem reads_readMany {read : ByteBuffer α} {bytes : α → List UInt8} {l : List α}
    (h : ∀ a ∈ l, Reads read (bytes a) a) : Reads (readMany read l.length) (l.flatMap bytes) l :=
  run_readMany h

/-- An optional field that is left out when it has its default value. -/
theorem reads_readIf {flag : Bool} {read : ByteBuffer α} {bytes : List UInt8} {a default : α}
    (h : flag = true → Reads read bytes a) (hdefault : flag = false → a = default) :
    Reads (readIf flag read default) (bytesIf flag bytes) a := by
  cases flag with
  | true => exact h rfl
  | false =>
    rw [hdefault rfl]
    exact reads_pure default

end Reads

end ByteBuffer

theorem SlateSignature.reads {F : SignatureForms}
    (hF : ∀ sig, F.toCompact (F.parseCompactSignature sig) = sig) (s : SlateSignature) :
    Reads (SlateSignature.deserialize F) (s.serialize F) s := by
  rcases s with ⟨excess, nonce, _ | sig⟩
  · refine (reads_readU8 0).bind_cons ((reads_readBigInteger excess).bind ?_)
    exact (reads_readBigInteger nonce).last rfl
  · refine (reads_readU8 1).bind_cons ((reads_readBigInteger excess).bind
      ((reads_readBigInteger nonce).bind ?_))
    refine (reads_readBigInteger (F.parseCompactSignature sig)).last ?_
    rw [hF]

theorem SlateCommitment.reads (c : SlateCommitment) :
    Reads SlateCommitment.deserialize c.serialize c := by
  rcases c with ⟨features, commitment, _ | proof⟩
  · refine (reads_readU8 0).bind_cons ((reads_readU8 features.value).bind_cons ?_)
    exact (reads_readBigInteger commitment).last rfl
  · refine (reads_readU8 1).bind_cons ((reads_readU8 features.value).bind_cons
      ((reads_readBigInteger commitment).bind ?_))
    exact Reads.last (RangeProof.run_deserialize proof) rfl

theorem SlatePaymentProof.reads (p : SlatePaymentProof) :
    Reads SlatePaymentProof.deserialize p.serialize p := by
  rcases p with ⟨sender, receiver, _ | signature⟩
  · refine (reads_readBigInteger sender).bind ((reads_readBigInteger receiver).bind ?_)
    exact (reads_readU8 0).last rfl
  · refine (reads_readBigInteger sender).bind ((reads_readBigInteger receiver).bind
      ((reads_readU8 1).bind_cons ?_))
    exact (reads_readBigInteger signature).last rfl

theorem ESlateStage.reads_fromByte {stage : ESlateStage} (h : stage ≠ .none) :
    fromByte stage.toByte = pure stage := by
  cases stage with
  | none => exact absurd rfl h
  | _ => rfl

/-- The stage that stands for none is not read back. -/
theorem ESlateStage.fromByte_none : fromByte (toByte .none) = throw stdException := rfl

/-- A fee is read back without the bits that its serialised form has no room for. -/
theorem RawFee.reads (f : RawFee) : Reads Slate.readFee f.serialize f.reload.toRaw := by
  have hbytes : ∀ rest, f.serialize ++ rest =
      beBytes 2 0 ++ (f.shift :: UInt8.ofNat (f.fee.toNat / 256 ^ 4) ::
        (beBytes 4 f.fee.toNat ++ rest)) := by
    intro rest
    rw [serialize, beBytes_succ 4]
    simp
  have hfee : Fee.ofBytes f.shift (UInt8.ofNat (f.fee.toNat / 256 ^ 4))
      (UInt32.ofNat (f.fee.toNat % 2 ^ 32)) = f.reload := by
    refine Fee.ext_fields rfl (UInt64.toNat_inj.mp ?_)
    have hhigh : (UInt8.ofNat (f.fee.toNat / 256 ^ 4)).toNat = f.fee.toNat / 256 ^ 4 % 2 ^ 8 :=
      UInt8.toNat_ofNat'
    have hlow : (UInt32.ofNat (f.fee.toNat % 2 ^ 32)).toNat = f.fee.toNat % 2 ^ 32 :=
      UInt32.toNat_ofNat_of_lt' (Nat.mod_lt _ (by decide))
    simp only [Fee.ofBytes, reload, UInt64.toNat_mod]
    rw [hhigh, hlow, UInt64.toNat_ofNat_of_lt' (by rw [UInt64.size]; omega)]
    simp only [UInt64.reduceToNat]
    omega
  intro rest
  rw [hbytes, Slate.readFee, Fee.deserialize]
  simp only [bind_assoc]
  rw [run_bind_ok (run_readU16 0 _), run_bind_ok (run_readU8 _ _), run_bind_ok (run_readU8 _ _),
    run_bind_ok (run_readU32 _ rest), pure_bind, run_pure, hfee]

namespace Slate

theorem reads_readFeatureArgs (s : Slate) :
    Reads (readFeatureArgs s.kernelFeatures)
      (bytesIf (s.kernelFeatures = .heightLocked) (beBytes 8 s.getLockHeight.toNat))
      s.reload.featureArgsOpt := by
  rw [readFeatureArgs, reload]
  by_cases hdefault : s.kernelFeatures = .defaultKernel
  · simp only [hdefault, ne_eq, not_true_eq_false, if_false, if_true]
    exact reads_pure none
  · simp only [hdefault, ne_eq, not_false_eq_true, if_true, if_false]
    by_cases hlocked : s.kernelFeatures = .heightLocked
    · simp only [hlocked, if_true, decide_true]
      exact (reads_readU64 s.getLockHeight).last rfl
    · simp only [hlocked, if_false, decide_false]
      exact reads_pure _

variable {F : SignatureForms}

/-- **A serialised slate is read back as `GrinPlusPlus.Slate.reload` of it**, when its lists are
as long as their counts can say and its stage is one. -/
theorem reads (hF : ∀ sig, F.toCompact (F.parseCompactSignature sig) = sig) (s : Slate)
    (hsigs : s.sigs.length ≤ 255) (hcoms : s.commitments.length ≤ 65535)
    (hstage : s.stage ≠ .none) : Reads (deserialize F) (s.serialize F) s.reload := by
  have hnumSigs : (UInt8.ofNat s.sigs.length).toNat = s.sigs.length :=
    UInt8.toNat_ofNat_of_lt' (by rw [UInt8.size]; omega)
  have hnumComs : (UInt16.ofNat s.commitments.length).toNat = s.commitments.length :=
    UInt16.toNat_ofNat_of_lt' (by rw [UInt16.size]; omega)
  refine (reads_readU16 s.version).bind ((reads_readU16 s.blockVersion).bind
    ((reads_readBigInteger s.slateId).bind ((reads_readU8 s.stage.toByte).bind_cons ?_)))
  rw [ESlateStage.reads_fromByte hstage, pure_bind]
  refine (reads_readBigInteger s.offset).bind ((reads_readU8 s.fieldStatus.toByte).bind_cons ?_)
  rw [OptionalFieldStatus.fromByte_toByte]
  -- the fields that have a default
  refine Reads.bind (reads_readIf (fun _ => reads_readU8 s.numParticipants)
    fun h => by simpa [fieldStatus] using h) ?_
  refine Reads.bind (reads_readIf (fun _ => reads_readU64 s.amount)
    fun h => by simpa [fieldStatus] using h) ?_
  refine Reads.bind (a := s.fee.reload.toRaw) (reads_readIf (fun _ => RawFee.reads s.fee)
    fun h => ?_) ?_
  · have hfee : s.fee = ⟨0, 0⟩ := by simpa [fieldStatus] using h
    rw [hfee]
    rfl
  refine Reads.bind (reads_readIf (fun _ => (reads_readU8 s.kernelFeatures.value).last rfl)
    fun h => by simpa [fieldStatus] using h) ?_
  refine Reads.bind (reads_readIf (fun _ => reads_readU64 s.ttl)
    fun h => by simpa [fieldStatus] using h) ?_
  -- the lists and the payment proof
  refine (reads_readU8 (UInt8.ofNat s.sigs.length)).bind_cons ?_
  rw [hnumSigs]
  refine (reads_readMany fun sig _ => SlateSignature.reads hF sig).bind ?_
  refine (reads_readU8 s.structStatus.toByte).bind_cons ?_
  rw [OptionalStructStatus.fromByte_toByte]
  refine Reads.bind (a := s.commitments) (reads_readIf (fun _ => ?_)
    fun h => by simpa [structStatus] using h) ?_
  · have hcount := reads_readU16 (UInt16.ofNat s.commitments.length)
    rw [hnumComs] at hcount
    refine hcount.bind ?_
    rw [hnumComs]
    exact reads_readMany fun com _ => com.reads
  refine Reads.bind (a := s.proofOpt) ?_ ((reads_readFeatureArgs s).last rfl)
  rw [structStatus, proofBytes]
  cases s.proofOpt with
  | none => exact reads_pure none
  | some proof => exact proof.reads.last rfl

/-- Reading a stage that stands for none fails. -/
theorem run_deserialize_none {s : Slate} (hstage : s.stage = .none) (rest : List UInt8) :
    (run (deserialize F) (s.serialize F ++ rest)).1 = .error stdException := by
  rw [serialize, deserialize]
  simp only [List.append_assoc, List.cons_append]
  rw [run_bind_ok (run_readU16_self _ _), run_bind_ok (run_readU16_self _ _),
    run_bind_ok (run_readBigInteger _ _), run_bind_ok (run_readU8 _ _), hstage,
    ESlateStage.fromByte_none]
  rfl

/-! ### What it costs -/

/-- **Two slates are equal in every field**, the lock height for the arguments of the
features. -/
def Agrees (s t : Slate) : Prop :=
  { s with featureArgsOpt := none } = { t with featureArgsOpt := none } ∧
    s.getLockHeight = t.getLockHeight

instance (s t : Slate) : Decidable (s.Agrees t) :=
  inferInstanceAs (Decidable (_ ∧ _))

theorem getLockHeight_reload (s : Slate) :
    s.reload.getLockHeight = if s.kernelFeatures = .heightLocked then s.getLockHeight else 0 := by
  by_cases hlocked : s.kernelFeatures = .heightLocked
  · have hdefault : s.kernelFeatures ≠ .defaultKernel := by
      rw [hlocked]
      decide
    rw [if_pos hlocked, getLockHeight, reload]
    simp only [if_neg hdefault, if_pos hlocked]
    rfl
  · rw [if_neg hlocked, getLockHeight, reload]
    simp only [if_neg hlocked]
    by_cases hdefault : s.kernelFeatures = .defaultKernel
    · rw [if_pos hdefault]
    · rw [if_neg hdefault]
      rfl

/-- The fee is within its bits. -/
theorem reload_toRaw {f : RawFee} (hshift : f.shift.toNat < 16) (hfee : f.fee.toNat < 2 ^ 40) :
    f.reload.toRaw = f := by
  have hs : f.shift &&& 0x0f = f.shift := by
    refine UInt8.toNat_inj.mp ?_
    rw [UInt8.toNat_and]
    exact (Nat.and_two_pow_sub_one_eq_mod _ 4).trans (Nat.mod_eq_of_lt hshift)
  have hf : f.fee % 0x10000000000 = f.fee := by
    refine UInt64.toNat_inj.mp ?_
    rw [UInt64.toNat_mod]
    exact Nat.mod_eq_of_lt hfee
  simp only [Fee.toRaw, RawFee.reload, hs, hf]

/-- **A slate with a fee within its bits comes back as it was exactly when its lock height is
one that is written**, or zero. -/
theorem reload_agrees_iff {s : Slate} (hshift : s.fee.shift.toNat < 16)
    (hfee : s.fee.fee.toNat < 2 ^ 40) :
    s.reload.Agrees s ↔ s.kernelFeatures = .heightLocked ∨ s.getLockHeight = 0 := by
  have hfields : { s.reload with featureArgsOpt := none } = { s with featureArgsOpt := none } := by
    rw [reload, reload_toRaw hshift hfee]
  rw [Agrees, and_iff_right hfields, getLockHeight_reload]
  by_cases hlocked : s.kernelFeatures = .heightLocked
  · simp [hlocked]
  · simp [hlocked, eq_comm]

/-! ### How long a slate is -/

theorem length_bytesIf_le (flag : Bool) (bytes : List UInt8) :
    (bytesIf flag bytes).length ≤ bytes.length := by
  cases flag with
  | true => exact le_rfl
  | false => exact Nat.zero_le _

theorem length_flatMap_le {α : Type} {bytes : α → List UInt8} {n : ℕ}
    (h : ∀ a, (bytes a).length ≤ n) (l : List α) : (l.flatMap bytes).length ≤ l.length * n := by
  induction l with
  | nil => simp
  | cons a l ih =>
    have ha := h a
    rw [List.flatMap_cons, List.length_append, List.length_cons, Nat.succ_mul]
    omega

theorem length_signature_le (s : SlateSignature) : (s.serialize F).length ≤ 131 := by
  rcases s with ⟨excess, nonce, _ | sig⟩ <;>
    simp [SlateSignature.serialize, CBigInteger.length_eq]

theorem length_commitment_le (c : SlateCommitment) : c.serialize.length ≤ 718 := by
  rcases c with ⟨features, commitment, _ | proof⟩ <;>
    simp [SlateCommitment.serialize, RangeProof.serialize, CBigInteger.length_eq]

theorem length_proofBytes_le (s : Slate) : s.proofBytes.length ≤ 129 := by
  rw [proofBytes]
  rcases s.proofOpt with _ | ⟨sender, receiver, _ | signature⟩ <;>
    simp [SlatePaymentProof.serialize, CBigInteger.length_eq]

/-- A slate takes less than two to the power of 26 bytes. -/
theorem length_serialize_lt (s : Slate) (hsigs : s.sigs.length ≤ 255)
    (hcoms : s.commitments.length ≤ 65535) : (s.serialize F).length < 2 ^ 26 := by
  have h1 := length_bytesIf_le s.fieldStatus.includeNumParts [s.numParticipants]
  have h2 := length_bytesIf_le s.fieldStatus.includeAmt (beBytes 8 s.amount.toNat)
  have h3 := length_bytesIf_le s.fieldStatus.includeFee s.fee.serialize
  have h4 := length_bytesIf_le s.fieldStatus.includeFeat [s.kernelFeatures.value]
  have h5 := length_bytesIf_le s.fieldStatus.includeTtl (beBytes 8 s.ttl.toNat)
  have h6 := length_bytesIf_le s.structStatus.includeComs
    (beBytes 2 s.commitments.length ++ s.commitments.flatMap SlateCommitment.serialize)
  have h7 := length_bytesIf_le (decide (s.kernelFeatures = .heightLocked))
    (beBytes 8 s.getLockHeight.toNat)
  have h8 := length_flatMap_le (length_signature_le (F := F)) s.sigs
  have h9 := length_flatMap_le length_commitment_le s.commitments
  have h10 := length_proofBytes_le s
  have h11 : s.fee.serialize.length = 8 := by simp [RawFee.serialize]
  simp only [List.length_append, List.length_cons, List.length_nil, length_beBytes]
    at h1 h2 h3 h4 h5 h6 h7
  simp only [serialize, List.length_append, List.length_cons, length_beBytes,
    CBigInteger.length_eq]
  omega

end Slate

end GrinPlusPlus
