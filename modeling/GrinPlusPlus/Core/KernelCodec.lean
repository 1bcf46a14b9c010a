import GrinPlusPlus.Core.Serialization
import GrinPlusPlus.Core.SmallNet

/-!
# Which serialised kernels are canonical

`Core/Serialization` settles what comes back of a kernel that was written. This file reads the
other way: from the bytes that `TransactionKernel::Deserialize` accepted to the bytes that the
kernel is written as, under the same protocol version and under the other one.

Reading drops information in three places. `Fee::Deserialize` reads sixteen bits that it does not
keep and four bits too many of the shift count; features without a name are read with a fee and
written without one; and the first version reads a fee of a coinbase kernel and a height of every
kernel, which the second version does not write. The main results are

* `GrinPlusPlus.Fee.of_run_deserialize` – the eight bytes of a fee that was read are the fee's own
  but for its first three bytes;
* `GrinPlusPlus.TransactionKernel.canonical_iff` – an accepted kernel is written as it was read,
  and survives the other version, **exactly when** the bytes are in
  `GrinPlusPlus.TransactionKernel.CanonicalForm`.
-/

namespace GrinPlusPlus

open Exec

/-! ### Numbers and their bytes -/

theorem beNat_append (a b : List UInt8) : beNat (a ++ b) = beNat a * 256 ^ b.length + beNat b := by
  have hfold : ∀ (b : List UInt8) (m : ℕ),
      b.foldl (fun m b => 256 * m + b.toNat) m = m * 256 ^ b.length + beNat b := by
    intro b
    induction b with
    | nil => simp [beNat]
    | cons x b ih =>
      intro m
      have hzero := ih (256 * 0 + x.toNat)
      rw [beNat, List.foldl_cons, ih, List.foldl_cons, hzero, List.length_cons, pow_succ]
      ring
  rw [beNat, List.foldl_append, hfold]
  rfl

theorem beNat_singleton (b : UInt8) : beNat [b] = b.toNat := by
  simp [beNat]

theorem beNat_cons (b : UInt8) (bytes : List UInt8) :
    beNat (b :: bytes) = b.toNat * 256 ^ bytes.length + beNat bytes := by
  rw [← List.singleton_append, beNat_append, beNat_singleton]

theorem beNat_lt (bytes : List UInt8) : beNat bytes < 256 ^ bytes.length := by
  induction bytes with
  | nil => simp [beNat]
  | cons b bytes ih =>
    have hb := b.toNat_lt
    have hmul : b.toNat * 256 ^ bytes.length ≤ 255 * 256 ^ bytes.length :=
      Nat.mul_le_mul_right _ (by omega)
    rw [beNat_cons, List.length_cons, pow_succ]
    omega

theorem beNat_injective {a b : List UInt8} (hlen : a.length = b.length) (h : beNat a = beNat b) :
    a = b := by
  induction a generalizing b with
  | nil => exact (List.length_eq_zero_iff.mp hlen.symm).symm
  | cons x a ih =>
    cases b with
    | nil => cases hlen
    | cons y b =>
      have hlen' : a.length = b.length := Nat.succ.inj hlen
      have ha := beNat_lt a
      have hb := beNat_lt b
      rw [beNat_cons, beNat_cons, hlen'] at h
      rw [hlen'] at ha
      have hpos : 0 < 256 ^ b.length := Nat.pow_pos (by decide)
      -- The first byte is the quotient, the others are the remainder.
      have hx : x.toNat = y.toNat := by
        have h1 : (x.toNat * 256 ^ b.length + beNat a) / 256 ^ b.length = x.toNat := by
          rw [Nat.add_comm, Nat.add_mul_div_right _ _ hpos, Nat.div_eq_of_lt ha, Nat.zero_add]
        have h2 : (y.toNat * 256 ^ b.length + beNat b) / 256 ^ b.length = y.toNat := by
          rw [Nat.add_comm, Nat.add_mul_div_right _ _ hpos, Nat.div_eq_of_lt hb, Nat.zero_add]
        rw [← h1, ← h2, h]
      rw [hx, Nat.add_left_cancel_iff] at h
      rw [UInt8.toNat_inj.mp hx, ih hlen' h]

/-- The bytes of the number of some bytes are these bytes. -/
theorem beBytes_beNat (bytes : List UInt8) : beBytes bytes.length (beNat bytes) = bytes := by
  refine beNat_injective (length_beBytes _ _) ?_
  rw [beNat_beBytes, Nat.mod_eq_of_lt (beNat_lt bytes)]

/-! ### From what was read to the bytes -/

namespace ByteBuffer

theorem of_run_readBigInteger {n : ℕ} {bytes rest : List UInt8} {b : CBigInteger n}
    (h : run (readBigInteger n) bytes = (.ok b, rest)) : bytes = b.bytes ++ rest := by
  rw [readBigInteger, run_ofRun] at h
  split at h
  · cases h
    exact (List.take_append_drop n bytes).symm
  · cases h

theorem of_run_readBigEndian {k n : ℕ} {bytes rest : List UInt8}
    (h : run (readBigEndian k) bytes = (.ok n, rest)) :
    bytes = beBytes k n ++ rest ∧ n < 256 ^ k := by
  obtain ⟨b, _, hb, hn⟩ := of_run_bind_ok h
  cases hn
  have hlt := beNat_lt b.bytes
  have hbytes := beBytes_beNat b.bytes
  rw [b.length_eq] at hlt hbytes
  rw [hbytes]
  exact ⟨of_run_readBigInteger hb, hlt⟩

theorem of_run_readU8 {b : UInt8} {bytes rest : List UInt8}
    (h : run readU8 bytes = (.ok b, rest)) : bytes = b :: rest := by
  obtain ⟨n, _, hn, hb⟩ := of_run_bind_ok h
  cases hb
  obtain ⟨hbytes, -⟩ := of_run_readBigEndian hn
  rw [hbytes, beBytes_succ, pow_zero, Nat.div_one]
  rfl

theorem of_run_readU16 {x : UInt16} {bytes rest : List UInt8}
    (h : run readU16 bytes = (.ok x, rest)) : bytes = beBytes 2 x.toNat ++ rest := by
  obtain ⟨n, _, hn, hx⟩ := of_run_bind_ok h
  cases hx
  obtain ⟨hbytes, hlt⟩ := of_run_readBigEndian hn
  rw [UInt16.toNat_ofNat_of_lt' hlt, hbytes]

theorem of_run_readU32 {x : UInt32} {bytes rest : List UInt8}
    (h : run readU32 bytes = (.ok x, rest)) : bytes = beBytes 4 x.toNat ++ rest := by
  obtain ⟨n, _, hn, hx⟩ := of_run_bind_ok h
  cases hx
  obtain ⟨hbytes, hlt⟩ := of_run_readBigEndian hn
  rw [UInt32.toNat_ofNat_of_lt' hlt, hbytes]

theorem of_run_readU64 {x : UInt64} {bytes rest : List UInt8}
    (h : run readU64 bytes = (.ok x, rest)) : bytes = beBytes 8 x.toNat ++ rest := by
  obtain ⟨n, _, hn, hx⟩ := of_run_bind_ok h
  cases hx
  obtain ⟨hbytes, hlt⟩ := of_run_readBigEndian hn
  rw [UInt64.toNat_ofNat_of_lt' hlt, hbytes]

end ByteBuffer

open ByteBuffer

/-- The number in the bytes `start`, …, `start + length - 1`. -/
def fieldAt (bytes : List UInt8) (start length : ℕ) : ℕ :=
  beNat ((bytes.drop start).take length)

theorem fieldAt_append (before field rest : List UInt8) :
    fieldAt (before ++ (field ++ rest)) before.length field.length = beNat field := by
  rw [fieldAt, List.drop_left, List.take_left]

/-! ### Fees -/

namespace Fee

/-- **The bytes of a fee that was read**: sixteen bits of anything, a shift count of which the
lower four bits are kept, and the fee. -/
theorem of_run_deserialize {f : Fee} {bytes rest : List UInt8}
    (h : run deserialize bytes = (.ok f, rest)) :
    ∃ (surplus : UInt16) (shift : UInt8),
      bytes = beBytes 2 surplus.toNat ++ (shift :: (beBytes 5 f.fee.toNat ++ rest)) ∧
        f.shift = shift &&& 0x0f := by
  obtain ⟨surplus, _, hsurplus, h⟩ := of_run_bind_ok h
  obtain ⟨shift, _, hshift, h⟩ := of_run_bind_ok h
  obtain ⟨high, _, hhigh, h⟩ := of_run_bind_ok h
  obtain ⟨low, _, hlow, h⟩ := of_run_bind_ok h
  cases h
  refine ⟨surplus, shift, ?_, rfl⟩
  have h1 := high.toNat_lt
  have h2 := low.toNat_lt
  have hfee : (ofBytes shift high low).fee.toNat = high.toNat * 2 ^ 32 + low.toNat :=
    UInt64.toNat_ofNat_of_lt' (by rw [UInt64.size]; omega)
  have hbytes : beBytes 5 (ofBytes shift high low).fee.toNat = high :: beBytes 4 low.toNat := by
    refine beNat_injective (by simp) ?_
    rw [beNat_beBytes, beNat_cons, beNat_beBytes, length_beBytes, hfee]
    omega
  rw [of_run_readU16 hsurplus, of_run_readU8 hshift, of_run_readU8 hhigh, of_run_readU32 hlow,
    hbytes, List.cons_append]

theorem serialize_eq (f : Fee) :
    f.serialize = beBytes 2 0 ++ (f.shift :: beBytes 5 f.fee.toNat) := by
  simp [serialize]

theorem and_eq_self_iff (shift : UInt8) : shift &&& 0x0f = shift ↔ shift.toNat < 16 := by
  have hand : (shift &&& 0x0f).toNat = shift.toNat % 16 := by
    rw [UInt8.toNat_and]
    exact Nat.and_two_pow_sub_one_eq_mod _ 4
  rw [← UInt8.toNat_inj, hand]
  constructor
  · intro h
    omega
  · exact Nat.mod_eq_of_lt

/-- A fee is written as it was read when its first three bytes are a number below 16. -/
theorem serialize_eq_iff {f : Fee} {surplus : UInt16} {shift : UInt8}
    (hshift : f.shift = shift &&& 0x0f) :
    beBytes 2 surplus.toNat ++ (shift :: beBytes 5 f.fee.toNat) = f.serialize ↔
      surplus.toNat * 256 + shift.toNat < 16 := by
  have hsurplus := surplus.toNat_lt
  rw [serialize_eq]
  constructor
  · intro h
    obtain ⟨hfirst, hsecond⟩ := List.append_inj h (by simp)
    have hzero : surplus.toNat = 0 := beBytes_injective (by simpa using hsurplus) (by decide) hfirst
    rw [List.cons.injEq, hshift] at hsecond
    have := (and_eq_self_iff shift).mp hsecond.1.symm
    omega
  · intro h
    have hzero : surplus.toNat = 0 := by omega
    rw [hzero, hshift, (and_eq_self_iff shift).mpr (by omega)]

theorem serialize_append_eq_iff {f : Fee} {surplus : UInt16} {shift : UInt8}
    (hshift : f.shift = shift &&& 0x0f) (rest : List UInt8) :
    beBytes 2 surplus.toNat ++ (shift :: (beBytes 5 f.fee.toNat ++ rest)) = f.serialize ++ rest ↔
      surplus.toNat * 256 + shift.toNat < 16 := by
  rw [← List.cons_append, ← List.append_assoc, List.append_cancel_right_eq,
    serialize_eq_iff hshift]

/-- The bytes of a fee are all zero exactly when there is no fee. -/
theorem beNat_serialize_eq_zero_iff (f : Fee) : beNat f.serialize = 0 ↔ f = zero := by
  constructor
  · intro h
    refine serialize_injective (beNat_injective ?_ ?_)
    · rw [length_serialize, length_serialize]
    · rw [h]
      rfl
  · rintro rfl
    rfl

end Fee

/-! ### Kernels -/

/-- The other of the first two versions. -/
def EProtocolVersion.other : EProtocolVersion → EProtocolVersion
  | .v1 => .v2
  | _ => .v1

namespace TransactionKernel

/-- The serialised kernel at the front of some bytes is in canonical form: the features have a
name; where a fee is read, its first three bytes – sixteen bits that are not kept, and the shift
count – are below 16; and the first version has nothing in the fields that the second leaves
out. -/
structure CanonicalForm (version : EProtocolVersion) (bytes : List UInt8) : Prop where
  /-- The first byte is the name of some features. -/
  known : fieldAt bytes 0 1 ≤ 3
  /-- Nothing but the fee and four bits of its shift count are in the field of the fee. -/
  surplus : version = .v1 ∨ fieldAt bytes 0 1 ≠ 1 → fieldAt bytes 1 3 < 16
  /-- A coinbase kernel has no fee. -/
  fee_eq : version = .v1 → fieldAt bytes 0 1 = 1 → fieldAt bytes 1 8 = 0
  /-- A plain or a coinbase kernel has no height. -/
  lockHeight_eq : version = .v1 → fieldAt bytes 0 1 ≤ 1 → fieldAt bytes 9 8 = 0

/-- Two kernels agree in everything that is ever asked of a kernel. -/
structure Agree (G : Global) (k k' : TransactionKernel) : Prop where
  /-- The features. -/
  features : k'.features = k.features
  /-- The fee, with its shift. -/
  fee : k'.fee = k.fee
  /-- The height. -/
  lockHeight : k'.lockHeight = k.lockHeight
  /-- The excess. -/
  excessCommitment : k'.excessCommitment = k.excessCommitment
  /-- The signature. -/
  excessSignature : k'.excessSignature = k.excessSignature
  /-- The hash. -/
  hash : k'.getHash G = k.getHash G
  /-- The message that is signed. -/
  signatureMessage : k'.getSignatureMessage G = k.getSignatureMessage G

/-- A kernel that was read from some bytes is written as these bytes, and comes back from its
form under the other version. -/
structure Faithful (G : Global) (version : EProtocolVersion) (bytes : List UInt8)
    (k : TransactionKernel) (rest : List UInt8) : Prop where
  /-- The kernel is written as the bytes that were consumed. -/
  consumed : bytes = k.serialized version ++ rest
  /-- A peer that speaks the other version reads the same kernel. -/
  relayed : ∀ rest', ∃ k', run (deserialize version.other) (k.serialized version.other ++ rest') =
    (.ok k', rest') ∧ Agree G k k'

variable {G : Global} {version : EProtocolVersion} {k k' : TransactionKernel}
  {bytes rest : List UInt8}

theorem Agree.eq (h : Agree G k k') : k' = k := by
  cases k
  cases k'
  rw [TransactionKernel.mk.injEq]
  exact ⟨h.features, h.fee, h.lockHeight, h.excessCommitment, h.excessSignature⟩

theorem agree_self (G : Global) (k : TransactionKernel) : Agree G k k :=
  ⟨rfl, rfl, rfl, rfl, rfl, rfl, rfl⟩

theorem features_eq_iff {f : KernelFeatures} (n : UInt8) : f = ⟨n⟩ ↔ f.value.toNat = n.toNat := by
  rw [UInt8.toNat_inj]
  constructor
  · exact congrArg KernelFeatures.value
  · exact congrArg KernelFeatures.mk

theorem features_eq_coinbase_iff {f : KernelFeatures} :
    f = .coinbaseKernel ↔ f.value.toNat = 1 :=
  features_eq_iff 1

theorem features_le_one_iff {f : KernelFeatures} :
    f = .defaultKernel ∨ f = .coinbaseKernel ↔ f.value.toNat ≤ 1 := by
  have h0 : f = .defaultKernel ↔ f.value.toNat = 0 := features_eq_iff 0
  rw [h0, features_eq_coinbase_iff]
  omega

/-- The bytes behind the height: the excess and the signature, and what is left. -/
def tail (k : TransactionKernel) (rest : List UInt8) : List UInt8 :=
  k.excessCommitment.bytes ++ (k.excessSignature.bytes ++ rest)

/-- An accepted kernel field by field. -/
theorem of_run_deserialize (h : run (deserialize version) bytes = (.ok k, rest)) :
    ∃ bytes₁ bytes₂, bytes = k.features.value :: bytes₁ ∧
      run (readFee k.features version) bytes₁ = (.ok k.fee, bytes₂) ∧
      run (readLockHeight k.features version) bytes₂ = (.ok k.lockHeight, k.tail rest) := by
  obtain ⟨features, bytes₁, hfeatures, h⟩ := of_run_bind_ok h
  obtain ⟨fee, bytes₂, hfee, h⟩ := of_run_bind_ok h
  obtain ⟨lockHeight, bytes₃, hlock, h⟩ := of_run_bind_ok h
  obtain ⟨excessCommitment, bytes₄, hexcess, h⟩ := of_run_bind_ok h
  obtain ⟨excessSignature, bytes₅, hsignature, h⟩ := of_run_bind_ok h
  have hbytes := of_run_readU8 hfeatures
  have htail := of_run_readBigInteger hexcess
  rw [of_run_readBigInteger hsignature] at htail
  split at h
  · cases h
  · cases h
    rw [htail] at hlock
    exact ⟨bytes₁, bytes₂, hbytes, hfee, hlock⟩

/-- A height of the second form was read from the bytes it is written as. -/
theorem of_run_readLockHeight_v2 {tail : List UInt8}
    (h : run (readLockHeight k.features .v2) bytes = (.ok k.lockHeight, tail)) :
    bytes = k.heightBytes ++ tail := by
  rw [readLockHeight] at h
  rw [heightBytes]
  by_cases h2 : k.features = .heightLocked
  · rw [if_pos (Or.inr h2)] at h
    rw [if_pos h2]
    exact of_run_readU64 h
  · have hne : ¬(EProtocolVersion.v2 = .v1 ∨ k.features = .heightLocked) := by
      rintro (h | h)
      · cases h
      · exact h2 h
    rw [if_neg hne] at h
    rw [if_neg h2]
    by_cases h3 : k.features = .noRecentDuplicate
    · rw [if_pos h3] at h
      rw [if_pos h3]
      obtain ⟨relativeHeight, _, hread, hret⟩ := of_run_bind_ok h
      have hlt := relativeHeight.toNat_lt
      have hheight : k.lockHeight.toNat = relativeHeight.toNat := by
        rw [show k.lockHeight = UInt64.ofNat relativeHeight.toNat from
          (Except.ok.inj (congrArg Prod.fst hret)).symm]
        exact UInt64.toNat_ofNat_of_lt' (by rw [UInt64.size]; omega)
      rw [hheight, Nat.mod_eq_of_lt (by omega), ← show _ = tail from congrArg Prod.snd hret]
      exact of_run_readU16 hread
    · rw [if_neg h3] at h
      rw [if_neg h3]
      exact congrArg Prod.snd h

theorem fieldAt_features (value : UInt8) (rest : List UInt8) :
    fieldAt (value :: rest) 0 1 = value.toNat := by
  have h := fieldAt_append [] [value] rest
  rwa [beNat_singleton] at h

/-- The first three bytes of the field of a fee. -/
theorem fieldAt_surplus (value shift : UInt8) (surplus : UInt16) (rest : List UInt8) :
    fieldAt (value :: (beBytes 2 surplus.toNat ++ (shift :: rest))) 1 3 =
      surplus.toNat * 256 + shift.toNat := by
  have hlt := surplus.toNat_lt
  have h := fieldAt_append [value] (beBytes 2 surplus.toNat ++ [shift]) rest
  rw [beNat_append, beNat_beBytes, beNat_singleton, Nat.mod_eq_of_lt (by omega)] at h
  simpa using h

/-- The fields of the first form that the second may leave out. -/
theorem fieldAt_v1 (k : TransactionKernel) (rest : List UInt8) :
    fieldAt (k.serialized .v1 ++ rest) 0 1 = k.features.value.toNat ∧
      fieldAt (k.serialized .v1 ++ rest) 1 8 = beNat k.fee.serialize ∧
        fieldAt (k.serialized .v1 ++ rest) 9 8 = k.lockHeight.toNat := by
  have hbytes : k.serialized .v1 ++ rest = k.features.value ::
      (k.fee.serialize ++ (beBytes 8 k.lockHeight.toNat ++ k.tail rest)) := by
    simp [serialized, serialize, tail]
  have hlock : k.lockHeight.toNat < 256 ^ 8 := k.lockHeight.toNat_lt
  rw [hbytes]
  refine ⟨fieldAt_features _ _, ?_, ?_⟩
  · have h := fieldAt_append [k.features.value] k.fee.serialize
      (beBytes 8 k.lockHeight.toNat ++ k.tail rest)
    rwa [Fee.length_serialize] at h
  · have h := fieldAt_append (k.features.value :: k.fee.serialize) (beBytes 8 k.lockHeight.toNat)
      (k.tail rest)
    rw [List.length_cons, Fee.length_serialize, length_beBytes, beNat_beBytes,
      Nat.mod_eq_of_lt hlock] at h
    exact h

/-- In the first form the two irrelevant fields are zero exactly when the kernel is canonical. -/
theorem canonical_iff_fieldAt (k : TransactionKernel) (rest : List UInt8) :
    k.Canonical ↔
      fieldAt (k.serialized .v1 ++ rest) 0 1 ≤ 3 ∧
        (fieldAt (k.serialized .v1 ++ rest) 0 1 = 1 →
          fieldAt (k.serialized .v1 ++ rest) 1 8 = 0) ∧
        (fieldAt (k.serialized .v1 ++ rest) 0 1 ≤ 1 →
          fieldAt (k.serialized .v1 ++ rest) 9 8 = 0) := by
  obtain ⟨h0, h1, h9⟩ := fieldAt_v1 k rest
  rw [h0, h1, h9, Fee.beNat_serialize_eq_zero_iff, ← features_eq_coinbase_iff,
    ← features_le_one_iff]
  have hzero : k.lockHeight.toNat = 0 ↔ k.lockHeight = 0 := by
    rw [← UInt64.toNat_inj]
    rfl
  rw [hzero]
  constructor
  · intro h
    exact ⟨h.known, h.fee_eq, h.lockHeight_eq⟩
  · rintro ⟨hknown, hfee, hlock⟩
    exact ⟨hknown, hfee, hlock⟩

/-- **The first form survives the second exactly when the kernel is canonical.** -/
theorem relayed_v2_iff (hvalid : k.RelativeHeightValid) :
    (∀ rest, ∃ k', run (deserialize .v2) (k.serialized .v2 ++ rest) = (.ok k', rest) ∧
      Agree G k k') ↔ k.Canonical := by
  constructor
  · intro h
    obtain ⟨k', hrun, hagree⟩ := h []
    rw [hagree.eq] at hrun
    by_cases hknown : k.features.value.toNat ≤ 3
    · rw [run_deserialize_v2 hvalid hknown] at hrun
      exact canonical_of_stripped hknown (Except.ok.inj (congrArg Prod.fst hrun))
    · obtain ⟨rest, hshort⟩ := run_deserialize_unknown (Nat.lt_of_not_le hknown)
      rw [List.append_nil, hshort] at hrun
      cases hrun
  · intro h rest
    refine ⟨k, ?_, agree_self G k⟩
    rw [run_deserialize_v2 hvalid h.known, h.stripped_eq]

/-- The second form always survives the first. -/
theorem relayed_v1 (G : Global) (hvalid : k.RelativeHeightValid) (rest : List UInt8) :
    ∃ k', run (deserialize .v1) (k.serialized .v1 ++ rest) = (.ok k', rest) ∧ Agree G k k' :=
  ⟨k, run_deserialize_v1 hvalid rest, agree_self G k⟩

theorem canonicalForm_iff_v1 (h : run (deserialize .v1) bytes = (.ok k, rest)) :
    Faithful G .v1 bytes k rest ↔ CanonicalForm .v1 bytes := by
  have hvalid : k.RelativeHeightValid :=
    Accepted.relativeHeightValid ⟨.v1, bytes, rest, .inl rfl, h⟩
  obtain ⟨bytes₁, bytes₂, hbytes, hfee, hlock⟩ := of_run_deserialize h
  rw [readFee, if_neg (fun h => h.1 rfl)] at hfee
  rw [readLockHeight, if_pos (.inl rfl)] at hlock
  obtain ⟨surplus, shift, hfee, hshift⟩ := Fee.of_run_deserialize hfee
  rw [hfee, of_run_readU64 hlock] at hbytes
  have hserialized : k.serialized .v1 ++ rest = k.features.value ::
      (k.fee.serialize ++ (beBytes 8 k.lockHeight.toNat ++ k.tail rest)) := by
    simp [serialized, serialize, tail]
  -- The bytes can only differ in the field of the fee.
  have hconsumed : bytes = k.serialized .v1 ++ rest ↔ fieldAt bytes 1 3 < 16 := by
    rw [hserialized, hbytes, fieldAt_surplus, List.cons.injEq, and_iff_right rfl,
      Fee.serialize_append_eq_iff hshift]
  constructor
  · intro hfaithful
    have hcanonical := (relayed_v2_iff hvalid).mp hfaithful.relayed
    rw [canonical_iff_fieldAt k rest, ← hfaithful.consumed] at hcanonical
    exact ⟨hcanonical.1, fun _ => hconsumed.mp hfaithful.consumed, fun _ => hcanonical.2.1,
      fun _ => hcanonical.2.2⟩
  · intro hform
    have heq := hconsumed.mpr (hform.surplus (.inl rfl))
    refine ⟨heq, (relayed_v2_iff hvalid).mpr ?_⟩
    rw [canonical_iff_fieldAt k rest, ← heq]
    exact ⟨hform.known, hform.fee_eq rfl, hform.lockHeight_eq rfl⟩

/-- Features without a name are written without the fee they were read with. -/
theorem length_serialized_v2_unknown (hunknown : 3 < k.features.value.toNat) :
    (k.serialized .v2).length = 98 := by
  have hne : ∀ n : UInt8, n.toNat ≤ 3 → k.features ≠ ⟨n⟩ := by
    intro n hn h
    rw [features_eq_iff] at h
    omega
  have h0 : k.features ≠ .defaultKernel := hne 0 (by decide)
  have h1 : k.features ≠ .coinbaseKernel := hne 1 (by decide)
  have h2 : k.features ≠ .heightLocked := hne 2 (by decide)
  have h3 : k.features ≠ .noRecentDuplicate := hne 3 (by decide)
  rw [serialized, if_neg (by decide), if_neg h0, if_neg h1, if_neg h2, if_neg h3,
    List.nil_append, List.length_cons, List.length_append, k.excessCommitment.length_eq,
    k.excessSignature.length_eq]

/-- The second version only has the first two conditions. -/
theorem canonicalForm_v2_iff :
    CanonicalForm .v2 bytes ↔
      fieldAt bytes 0 1 ≤ 3 ∧ (fieldAt bytes 0 1 ≠ 1 → fieldAt bytes 1 3 < 16) := by
  constructor
  · intro h
    exact ⟨h.known, fun hne => h.surplus (.inr hne)⟩
  · rintro ⟨hknown, hsurplus⟩
    refine ⟨hknown, ?_, ?_, ?_⟩
    · rintro (h | h)
      · cases h
      · exact hsurplus h
    · rintro ⟨⟩
    · rintro ⟨⟩

theorem consumed_iff_v2 (h : run (deserialize .v2) bytes = (.ok k, rest)) :
    bytes = k.serialized .v2 ++ rest ↔ CanonicalForm .v2 bytes := by
  obtain ⟨bytes₁, bytes₂, hbytes, hfee, hlock⟩ := of_run_deserialize h
  have hlock := of_run_readLockHeight_v2 hlock
  have hfeatures : fieldAt bytes 0 1 = k.features.value.toNat := by
    rw [hbytes, fieldAt_features]
  by_cases hcoinbase : k.features = .coinbaseKernel
  · -- No fee is read, and none is written.
    rw [readFee, if_pos ⟨by decide, hcoinbase⟩] at hfee
    have heq : bytes₁ = bytes₂ := congrArg Prod.snd hfee
    have hvalue := features_eq_coinbase_iff.mp hcoinbase
    rw [canonicalForm_v2_iff, hfeatures, serialized_v2 (by omega), feeBytes, if_pos hcoinbase,
      hbytes, heq, hlock]
    exact iff_of_true rfl ⟨by omega, fun hne => absurd hvalue hne⟩
  · rw [readFee, if_neg (fun h => hcoinbase h.2)] at hfee
    obtain ⟨surplus, shift, hfee, hshift⟩ := Fee.of_run_deserialize hfee
    have hvalue : k.features.value.toNat ≠ 1 := fun h => hcoinbase (features_eq_coinbase_iff.mpr h)
    rw [hfee] at hbytes
    have hsurplus : fieldAt bytes 1 3 = surplus.toNat * 256 + shift.toNat := by
      rw [hbytes, fieldAt_surplus]
    rw [canonicalForm_v2_iff, hfeatures, hsurplus]
    constructor
    · intro hconsumed
      have hknown : k.features.value.toNat ≤ 3 := by
        by_contra hunknown
        -- Eight bytes of fee are missing from what is written.
        have hlength := congrArg List.length hconsumed
        rw [List.length_append, length_serialized_v2_unknown (Nat.lt_of_not_le hunknown), hbytes,
          hlock] at hlength
        simp only [List.length_cons, List.length_append, length_beBytes, tail,
          k.excessCommitment.length_eq, k.excessSignature.length_eq] at hlength
        omega
      rw [serialized_v2 hknown, feeBytes, if_neg hcoinbase, hbytes, hlock, List.cons.injEq,
        and_iff_right rfl] at hconsumed
      exact ⟨hknown, fun _ => (Fee.serialize_append_eq_iff hshift _).mp hconsumed⟩
    · rintro ⟨hknown, hbound⟩
      rw [serialized_v2 hknown, feeBytes, if_neg hcoinbase, hbytes, hlock, List.cons.injEq,
        and_iff_right rfl]
      exact (Fee.serialize_append_eq_iff hshift _).mpr (hbound hvalue)

/-- **Reading is canonical, and independent of the version, exactly on the canonical forms**: an
accepted kernel is written as it was read and comes back from the other version unchanged if and
only if the bytes it was read from are in canonical form. -/
theorem canonical_iff (G : Global) (hversion : version = .v1 ∨ version = .v2)
    (h : run (deserialize version) bytes = (.ok k, rest)) :
    Faithful G version bytes k rest ↔ CanonicalForm version bytes := by
  rcases hversion with rfl | rfl
  · exact canonicalForm_iff_v1 h
  · rw [← consumed_iff_v2 h]
    have hvalid : k.RelativeHeightValid :=
      Accepted.relativeHeightValid ⟨.v2, bytes, rest, .inr rfl, h⟩
    exact ⟨fun hfaithful => hfaithful.consumed, fun heq => ⟨heq, relayed_v1 G hvalid⟩⟩

/-- A plain kernel with a fee of one. -/
def plainKernel : TransactionKernel where
  features := .defaultKernel
  fee := Fee.ofBytes 0 0 1
  lockHeight := 0
  excessCommitment := SmallNet.commitment 7
  excessSignature := SmallNet.signature

/-- The form of `plainKernel` in the second version, with a bit in front of the fee that is not
read. -/
def surplusBytes : List UInt8 :=
  0 :: (beBytes 2 1 ++ (0 :: (beBytes 5 1 ++ plainKernel.tail [])))

theorem run_deserialize_surplusBytes :
    run (deserialize .v2) surplusBytes = (.ok plainKernel, []) := by
  decide +kernel

theorem canonical_iff_plainKernel :
    (EProtocolVersion.v2 = .v1 ∨ EProtocolVersion.v2 = .v2) ∧
      run (deserialize .v2) (plainKernel.serialized .v2) = (.ok plainKernel, []) ∧
      Faithful (smallNet .mainnet) .v2 (plainKernel.serialized .v2) plainKernel [] := by
  have hrun : run (deserialize .v2) (plainKernel.serialized .v2) = (.ok plainKernel, []) := by
    decide +kernel
  have hform : CanonicalForm .v2 (plainKernel.serialized .v2) :=
    canonicalForm_v2_iff.mpr ⟨by decide +kernel, fun _ => by decide +kernel⟩
  exact ⟨.inr rfl, hrun, (canonical_iff (smallNet .mainnet) (.inr rfl) hrun).mpr hform⟩

/-- The surplus bit is accepted, and gone when the kernel is written again. -/
theorem not_faithful_surplusBytes :
    run (deserialize .v2) surplusBytes = (.ok plainKernel, []) ∧
      ¬Faithful (smallNet .mainnet) .v2 surplusBytes plainKernel [] := by
  refine ⟨run_deserialize_surplusBytes, ?_⟩
  intro h
  have hconsumed := h.consumed
  revert hconsumed
  decide +kernel

end TransactionKernel

end GrinPlusPlus
