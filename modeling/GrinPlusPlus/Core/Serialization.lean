import GrinPlusPlus.Core.Consensus
import GrinPlusPlus.Lib.Exec
import Mathlib.Tactic.Ring

/-!
# Reading serialised kernels

`ByteBuffer`, `Fee` and `TransactionKernel` of `Core/Serialization` and `Core/Models`, in the
two forms a kernel has. The first protocol version writes every field
(`GrinPlusPlus.TransactionKernel.serialize`); from the second one on a field that the
features make irrelevant is left out (`GrinPlusPlus.TransactionKernel.serialized`).

What comes back is settled by two round trips:

* `GrinPlusPlus.TransactionKernel.run_deserialize_v1` – the first form gives back the kernel;
* `GrinPlusPlus.TransactionKernel.run_deserialize_v2` – the second form gives back the kernel
  **without the fields it left out**. A kernel comes back as it was exactly when these were
  zero, which is `GrinPlusPlus.TransactionKernel.Canonical`. Reading the first form does not
  check that: a plain kernel with a lock height is accepted.
-/

namespace GrinPlusPlus

open Exec

/-- `EProtocolVersion`. -/
inductive EProtocolVersion
  | v1
  | v2
  | v3
  | v1000
deriving DecidableEq

/-- `throw std::exception()`: an exception with no text of its own. -/
def stdException : Exc := .runtime "std::exception"

/-- `CBigInteger::ToHex`. -/
def CBigInteger.toHex {n : ℕ} (b : CBigInteger n) : String :=
  String.ofList (b.bytes.flatMap fun byte =>
    [Nat.digitChar (byte.toNat / 16), Nat.digitChar (byte.toNat % 16)])

/-! ### Byte buffers -/

/-- Reading from a `ByteBuffer`: the state is what is left of the bytes. -/
abbrev ByteBuffer (α : Type) := Exec Exc (List UInt8) α

/-- A big-endian number. -/
def beNat (bytes : List UInt8) : ℕ :=
  bytes.foldl (fun m b => 256 * m + b.toNat) 0

theorem beBytes_succ (k n : ℕ) : beBytes (k + 1) n = UInt8.ofNat (n / 256 ^ k) :: beBytes k n := by
  rw [beBytes, List.range_succ_eq_map, List.map_cons, List.map_map]
  congr 1
  rw [beBytes]
  refine List.map_congr_left fun i _ => ?_
  simp only [Function.comp_apply]
  congr 3
  omega

theorem foldl_beBytes (k n m : ℕ) :
    (beBytes k n).foldl (fun m b => 256 * m + b.toNat) m = m * 256 ^ k + n % 256 ^ k := by
  induction k generalizing m with
  | zero => simp [beBytes, Nat.mod_one]
  | succ k ih =>
    have hmod := Nat.mod_pow_succ (x := n) (b := 256) (k := k)
    rw [beBytes_succ, List.foldl_cons, ih, UInt8.toNat_ofNat', show 2 ^ 8 = 256 from rfl, hmod,
      pow_succ 256 k]
    generalize n / 256 ^ k % 256 = d
    ring

theorem beNat_beBytes (k n : ℕ) : beNat (beBytes k n) = n % 256 ^ k := by
  rw [beNat, foldl_beBytes, Nat.zero_mul, Nat.zero_add]

namespace ByteBuffer

/-- What every read past the end throws. -/
def pastEnd : Exc :=
  .deserialization "Attempted to read past end of ByteBuffer."

/-- `ByteBuffer::ReadBigInteger`. -/
def readBigInteger (n : ℕ) : ByteBuffer (CBigInteger n) :=
  ofRun fun bytes =>
    if h : n ≤ bytes.length then
      (.ok ⟨bytes.take n, by rw [List.length_take, Nat.min_eq_left h]⟩, bytes.drop n)
    else (.error pastEnd, bytes)

/-- `ByteBuffer::ReadBigEndian`. -/
def readBigEndian (k : ℕ) : ByteBuffer ℕ := do
  let b ← readBigInteger k
  pure (beNat b.bytes)

/-- `ByteBuffer::ReadU8`. -/
def readU8 : ByteBuffer UInt8 := do
  let n ← readBigEndian 1
  pure (UInt8.ofNat n)

/-- `ByteBuffer::ReadU16`. -/
def readU16 : ByteBuffer UInt16 := do
  let n ← readBigEndian 2
  pure (UInt16.ofNat n)

/-- `ByteBuffer::ReadU32`. -/
def readU32 : ByteBuffer UInt32 := do
  let n ← readBigEndian 4
  pure (UInt32.ofNat n)

/-- `ByteBuffer::ReadU64`. -/
def readU64 : ByteBuffer UInt64 := do
  let n ← readBigEndian 8
  pure (UInt64.ofNat n)

/-! ### What was written is read back -/

theorem run_readBigInteger {n : ℕ} (b : CBigInteger n) (rest : List UInt8) :
    run (readBigInteger n) (b.bytes ++ rest) = (.ok b, rest) := by
  have hle : n ≤ (b.bytes ++ rest).length := by
    rw [List.length_append, b.length_eq]
    omega
  rw [readBigInteger, run_ofRun, dif_pos hle, List.drop_left' b.length_eq]
  congr 2
  exact CBigInteger.ext_bytes (List.take_left' b.length_eq)

/-- A read fails when there are too few bytes. -/
theorem run_readBigInteger_of_lt {n : ℕ} {bytes : List UInt8} (h : bytes.length < n) :
    run (readBigInteger n) bytes = (.error pastEnd, bytes) := by
  rw [readBigInteger, run_ofRun, dif_neg (Nat.not_le.mpr h)]

/-- A read of `n` bytes succeeds when there are `n`, and takes these. -/
def Takes {α : Type} (n : ℕ) (x : ByteBuffer α) : Prop :=
  ∀ bytes : List UInt8, n ≤ bytes.length → ∃ a, run x bytes = (.ok a, bytes.drop n)

theorem takes_readBigInteger (n : ℕ) : Takes n (readBigInteger n) := by
  intro bytes h
  rw [readBigInteger, run_ofRun, dif_pos h]
  exact ⟨_, rfl⟩

theorem takes_pure {α : Type} (a : α) : Takes 0 (pure a : ByteBuffer α) :=
  fun _ _ => ⟨a, rfl⟩

theorem Takes.bind {α β : Type} {m n : ℕ} {x : ByteBuffer α} {f : α → ByteBuffer β}
    (hx : Takes m x) (hf : ∀ a, Takes n (f a)) : Takes (m + n) (x >>= f) := by
  intro bytes h
  obtain ⟨a, ha⟩ := hx bytes (by omega)
  obtain ⟨b, hb⟩ := hf a (bytes.drop m) (by rw [List.length_drop]; omega)
  rw [run_bind_ok ha, hb, List.drop_drop]
  exact ⟨b, rfl⟩

theorem takes_readBigEndian (k : ℕ) : Takes k (readBigEndian k) :=
  (takes_readBigInteger k).bind fun _ => takes_pure _

theorem run_readBigEndian (k n : ℕ) (rest : List UInt8) :
    run (readBigEndian k) (beBytes k n ++ rest) = (.ok (n % 256 ^ k), rest) := by
  rw [readBigEndian, run_bind_ok (run_readBigInteger ⟨beBytes k n, length_beBytes k n⟩ rest),
    run_pure, beNat_beBytes]

theorem run_readU8 (b : UInt8) (rest : List UInt8) : run readU8 (b :: rest) = (.ok b, rest) := by
  have hb : b :: rest = beBytes 1 b.toNat ++ rest := by simp [beBytes]
  have hlt : b.toNat < 256 ^ 1 := b.toNat_lt
  rw [hb, readU8, run_bind_ok (run_readBigEndian 1 b.toNat rest), run_pure,
    Nat.mod_eq_of_lt hlt, UInt8.ofNat_toNat]

theorem run_readU16 (n : ℕ) (rest : List UInt8) :
    run readU16 (beBytes 2 n ++ rest) = (.ok (UInt16.ofNat (n % 2 ^ 16)), rest) := by
  rw [readU16, run_bind_ok (run_readBigEndian 2 n rest)]
  rfl

theorem run_readU32 (n : ℕ) (rest : List UInt8) :
    run readU32 (beBytes 4 n ++ rest) = (.ok (UInt32.ofNat (n % 2 ^ 32)), rest) := by
  rw [readU32, run_bind_ok (run_readBigEndian 4 n rest)]
  rfl

theorem run_readU64 (x : UInt64) (rest : List UInt8) :
    run readU64 (beBytes 8 x.toNat ++ rest) = (.ok x, rest) := by
  have hlt : x.toNat < 256 ^ 8 := x.toNat_lt
  rw [readU64, run_bind_ok (run_readBigEndian 8 x.toNat rest), run_pure,
    Nat.mod_eq_of_lt hlt, UInt64.ofNat_toNat]

end ByteBuffer

open ByteBuffer

/-! ### Fees -/

namespace Fee

theorem zero_shift_lt : (0 : UInt8).toNat < 16 := by decide

theorem zero_fee_lt : (0 : UInt64).toNat < 2 ^ 40 := by decide

/-- A fee of nothing, as the default constructor has it. -/
def zero : Fee := ⟨0, 0, zero_shift_lt, zero_fee_lt⟩

/-- A fee from the bytes that are read: four bits of the shift count. -/
def ofBytes (shift high : UInt8) (low : UInt32) : Fee where
  shift := shift &&& 0x0f
  fee := UInt64.ofNat (high.toNat * 2 ^ 32 + low.toNat)
  shift_lt := by
    rw [UInt8.toNat_and]
    exact Nat.lt_of_le_of_lt Nat.and_le_right (by decide)
  fee_lt := by
    have h1 := high.toNat_lt
    have h2 := low.toNat_lt
    rw [UInt64.toNat_ofNat_of_lt' (by rw [UInt64.size]; omega)]
    omega

/-- `Fee::Deserialize`. -/
def deserialize : ByteBuffer Fee := do
  let _ ← readU16
  let shift ← readU8
  let high ← readU8
  let low ← readU32
  pure (ofBytes shift high low)

@[simp] theorem length_serialize (f : Fee) : f.serialize.length = 8 := by
  simp [serialize]

theorem ext_fields {f g : Fee} (hs : f.shift = g.shift) (hf : f.fee = g.fee) : f = g := by
  cases f
  cases g
  cases hs
  cases hf
  rfl

theorem ofBytes_self (f : Fee) :
    ofBytes f.shift (UInt8.ofNat (f.fee.toNat / 256 ^ 4))
      (UInt32.ofNat (f.fee.toNat % 2 ^ 32)) = f := by
  have hfee := f.fee_lt
  have hshift : f.shift &&& 0x0f = f.shift := by
    refine UInt8.toNat_inj.mp ?_
    rw [UInt8.toNat_and]
    exact (Nat.and_two_pow_sub_one_eq_mod _ 4).trans (Nat.mod_eq_of_lt f.shift_lt)
  have hhigh : (UInt8.ofNat (f.fee.toNat / 256 ^ 4)).toNat = f.fee.toNat / 256 ^ 4 :=
    UInt8.toNat_ofNat_of_lt' (by rw [UInt8.size]; omega)
  have hlow : (UInt32.ofNat (f.fee.toNat % 2 ^ 32)).toNat = f.fee.toNat % 2 ^ 32 :=
    UInt32.toNat_ofNat_of_lt' (by rw [UInt32.size]; omega)
  have hsum : f.fee.toNat / 256 ^ 4 * 2 ^ 32 + f.fee.toNat % 2 ^ 32 = f.fee.toNat := by omega
  refine ext_fields hshift ?_
  simp only [ofBytes]
  rw [hhigh, hlow, hsum, UInt64.ofNat_toNat]

theorem takes_deserialize : Takes 8 deserialize :=
  ((takes_readBigEndian 2).bind fun _ => takes_pure _).bind fun _ =>
    ((takes_readBigEndian 1).bind fun _ => takes_pure _).bind fun _ =>
      ((takes_readBigEndian 1).bind fun _ => takes_pure _).bind fun _ =>
        ((takes_readBigEndian 4).bind fun _ => takes_pure _).bind fun _ => takes_pure _

/-- A serialised fee is read back. -/
theorem run_deserialize (f : Fee) (rest : List UInt8) :
    run deserialize (f.serialize ++ rest) = (.ok f, rest) := by
  have hbytes : f.serialize ++ rest =
      beBytes 2 0 ++ (f.shift :: UInt8.ofNat (f.fee.toNat / 256 ^ 4) ::
        (beBytes 4 f.fee.toNat ++ rest)) := by
    rw [serialize, beBytes_succ 4]
    simp
  rw [hbytes, deserialize, run_bind_ok (run_readU16 0 _), run_bind_ok (run_readU8 _ _),
    run_bind_ok (run_readU8 _ _), run_bind_ok (run_readU32 _ rest), run_pure, ofBytes_self]

end Fee

/-! ### Kernels -/

namespace TransactionKernel

/-- `TransactionKernel::Serialize`. From the second version on only the fields that matter
for the features are written; features without a name write neither fee nor height. -/
def serialized (k : TransactionKernel) (version : EProtocolVersion) : List UInt8 :=
  if version = .v1 then k.serialize
  else
    k.features.value ::
      ((if k.features = .defaultKernel then k.fee.serialize
        else if k.features = .coinbaseKernel then []
        else if k.features = .heightLocked then
          k.fee.serialize ++ beBytes 8 k.lockHeight.toNat
        else if k.features = .noRecentDuplicate then
          k.fee.serialize ++ beBytes 2 (k.lockHeight.toNat % 2 ^ 16)
        else []) ++ k.excessCommitment.bytes ++ k.excessSignature.bytes)

/-- The fee that `TransactionKernel::Deserialize` reads. -/
def readFee (features : KernelFeatures) (version : EProtocolVersion) : ByteBuffer Fee :=
  if version ≠ .v1 ∧ features = .coinbaseKernel then pure Fee.zero else Fee.deserialize

/-- The lock height that `TransactionKernel::Deserialize` reads. -/
def readLockHeight (features : KernelFeatures) (version : EProtocolVersion) :
    ByteBuffer UInt64 :=
  if version = .v1 ∨ features = .heightLocked then readU64
  else if features = .noRecentDuplicate then do
    let relativeHeight ← readU16
    pure (UInt64.ofNat relativeHeight.toNat)
  else pure 0

/-- What a relative height outside the week throws. -/
def invalidRelativeHeight (lockHeight : UInt64) (excess : Commitment) : Exc :=
  .deserialization ("Invalid NRD relative height(" ++ toString lockHeight.toNat ++
    ") for kernel: Commitment\x7b" ++ excess.toHex ++ "\x7d")

/-- `TransactionKernel::Deserialize`. Every byte is a feature; only the relative height of a
no-recent-duplicate kernel is checked. -/
def deserialize (version : EProtocolVersion) : ByteBuffer TransactionKernel := do
  let features ← readU8
  let features : KernelFeatures := ⟨features⟩
  let fee ← readFee features version
  let lockHeight ← readLockHeight features version
  let excessCommitment ← readBigInteger 33
  let excessSignature ← readBigInteger 64
  if features = .noRecentDuplicate ∧
      (lockHeight.toNat = 0 ∨ Consensus.weekHeight < lockHeight.toNat) then
    throw (invalidRelativeHeight lockHeight excessCommitment)
  else pure ⟨features, fee, lockHeight, excessCommitment, excessSignature⟩

/-- `TransactionKernel::Deserialize` accepted the kernel, in the first or the second form. -/
def Accepted (k : TransactionKernel) : Prop :=
  ∃ version bytes rest, (version = .v1 ∨ version = .v2) ∧
    run (deserialize version) bytes = (.ok k, rest)

/-- The relative height of a no-recent-duplicate kernel is within a week. -/
def RelativeHeightValid (k : TransactionKernel) : Prop :=
  k.features = .noRecentDuplicate →
    0 < k.lockHeight.toNat ∧ k.lockHeight.toNat ≤ Consensus.weekHeight

/-- The fields that the features make irrelevant are zero, and the features have a name. -/
structure Canonical (k : TransactionKernel) : Prop where
  /-- The features have a name. -/
  known : k.features.value.toNat ≤ 3
  /-- A coinbase kernel has no fee. -/
  fee_eq : k.features = .coinbaseKernel → k.fee = Fee.zero
  /-- Only the last two kinds have a height. -/
  lockHeight_eq : k.features = .defaultKernel ∨ k.features = .coinbaseKernel → k.lockHeight = 0

instance : DecidablePred Canonical := fun k =>
  decidable_of_iff (k.features.value.toNat ≤ 3 ∧
      (k.features = .coinbaseKernel → k.fee = Fee.zero) ∧
      (k.features = .defaultKernel ∨ k.features = .coinbaseKernel → k.lockHeight = 0))
    ⟨fun ⟨h1, h2, h3⟩ => ⟨h1, h2, h3⟩, fun h => ⟨h.known, h.fee_eq, h.lockHeight_eq⟩⟩

/-- The kernel as the second form keeps it. -/
def stripped (k : TransactionKernel) : TransactionKernel :=
  { k with
    fee := if k.features = .coinbaseKernel then Fee.zero else k.fee
    lockHeight :=
      if k.features = .heightLocked ∨ k.features = .noRecentDuplicate then k.lockHeight else 0 }

variable {k : TransactionKernel}

theorem stripped_lockHeight (h : k.features = .heightLocked ∨ k.features = .noRecentDuplicate) :
    k.stripped.lockHeight = k.lockHeight :=
  if_pos h

theorem stripped_lockHeight_of_not
    (h : ¬(k.features = .heightLocked ∨ k.features = .noRecentDuplicate)) :
    k.stripped.lockHeight = 0 :=
  if_neg h

/-- **What is accepted**: only the relative height is known to be valid. -/
theorem Accepted.relativeHeightValid (h : k.Accepted) : k.RelativeHeightValid := by
  obtain ⟨version, bytes, rest, -, hrun⟩ := h
  obtain ⟨features, _, -, hrun⟩ := of_run_bind_ok hrun
  obtain ⟨fee, _, -, hrun⟩ := of_run_bind_ok hrun
  obtain ⟨lockHeight, _, -, hrun⟩ := of_run_bind_ok hrun
  obtain ⟨excessCommitment, _, -, hrun⟩ := of_run_bind_ok hrun
  obtain ⟨excessSignature, _, -, hrun⟩ := of_run_bind_ok hrun
  split at hrun
  · cases hrun
  · next hvalid =>
    cases hrun
    intro hf
    have hheight := not_or.mp fun hbad => hvalid ⟨hf, hbad⟩
    exact ⟨Nat.pos_of_ne_zero hheight.1, Nat.le_of_not_lt hheight.2⟩

/-- Named features without a height. -/
theorem features_cases {f : KernelFeatures} (hknown : f.value.toNat ≤ 3)
    (h : ¬(f = .heightLocked ∨ f = .noRecentDuplicate)) :
    f = .defaultKernel ∨ f = .coinbaseKernel := by
  have hval : ∀ n : UInt8, f = ⟨n⟩ ↔ f.value.toNat = n.toNat := by
    intro n
    rw [UInt8.toNat_inj]
    exact ⟨fun h => congrArg KernelFeatures.value h, fun h => congrArg KernelFeatures.mk h⟩
  simp only [KernelFeatures.heightLocked, KernelFeatures.noRecentDuplicate,
    KernelFeatures.defaultKernel, KernelFeatures.coinbaseKernel, hval, UInt8.reduceToNat] at h ⊢
  omega

theorem Canonical.stripped_eq (h : k.Canonical) : k.stripped = k := by
  have hfee : (if k.features = .coinbaseKernel then Fee.zero else k.fee) = k.fee := by
    split
    · next hf => exact (h.fee_eq hf).symm
    · rfl
  have hlock : (if k.features = .heightLocked ∨ k.features = .noRecentDuplicate
      then k.lockHeight else 0) = k.lockHeight := by
    split
    · rfl
    · next hf => exact (h.lockHeight_eq (features_cases h.known hf)).symm
  rw [stripped, hfee, hlock]

/-- A kernel with named features that the second form keeps is canonical. -/
theorem canonical_of_stripped (hknown : k.features.value.toNat ≤ 3) (h : k.stripped = k) :
    k.Canonical where
  known := hknown
  fee_eq := by
    intro hf
    have hfee := congrArg fee h
    simp only [stripped, if_pos hf] at hfee
    exact hfee.symm
  lockHeight_eq := by
    intro hf
    have hne : ¬(k.features = .heightLocked ∨ k.features = .noRecentDuplicate) := by
      rcases hf with hf | hf <;> rw [hf] <;> decide
    have hlock := congrArg lockHeight h
    simp only [stripped, if_neg hne] at hlock
    exact hlock.symm

/-- The end of both reads: the check of the relative height, and the kernel. -/
theorem run_deserialize_of {version : EProtocolVersion} {bytes bytes' rest : List UInt8}
    {fee : Fee} {lockHeight : UInt64}
    (hfee : run (readFee k.features version) bytes = (.ok fee, bytes'))
    (hlock : run (readLockHeight k.features version) bytes' =
      (.ok lockHeight, k.excessCommitment.bytes ++ (k.excessSignature.bytes ++ rest)))
    (hvalid : k.features = .noRecentDuplicate →
      0 < lockHeight.toNat ∧ lockHeight.toNat ≤ Consensus.weekHeight) :
    run (deserialize version) (k.features.value :: bytes) =
      (.ok { k with fee := fee, lockHeight := lockHeight }, rest) := by
  rw [deserialize, run_bind_ok (run_readU8 _ _)]
  dsimp only
  rw [run_bind_ok hfee, run_bind_ok hlock, run_bind_ok (run_readBigInteger _ _),
    run_bind_ok (run_readBigInteger _ _), if_neg, run_pure]
  rintro ⟨hf, hbad⟩
  have := hvalid hf
  omega

/-- **The first form gives back the kernel.** -/
theorem run_deserialize_v1 (h : k.RelativeHeightValid) (rest : List UInt8) :
    run (deserialize .v1) (k.serialized .v1 ++ rest) = (.ok k, rest) := by
  have hbytes : k.serialized .v1 ++ rest = k.features.value ::
      (k.fee.serialize ++ (beBytes 8 k.lockHeight.toNat ++
        (k.excessCommitment.bytes ++ (k.excessSignature.bytes ++ rest)))) := by
    simp [serialized, serialize]
  rw [hbytes]
  have hfee := Fee.run_deserialize k.fee (beBytes 8 k.lockHeight.toNat ++
    (k.excessCommitment.bytes ++ (k.excessSignature.bytes ++ rest)))
  have hlock := run_readU64 k.lockHeight
    (k.excessCommitment.bytes ++ (k.excessSignature.bytes ++ rest))
  exact run_deserialize_of (by rwa [readFee, if_neg (fun h => h.1 rfl)])
    (by rwa [readLockHeight, if_pos (.inl rfl)]) h

/-- Every kernel with a valid relative height is accepted, whatever its other fields say. -/
theorem RelativeHeightValid.accepted (h : k.RelativeHeightValid) : k.Accepted :=
  ⟨.v1, k.serialized .v1 ++ [], [], .inl rfl, run_deserialize_v1 h []⟩

/-- The bytes of the fee in the second form. -/
def feeBytes (k : TransactionKernel) : List UInt8 :=
  if k.features = .coinbaseKernel then [] else k.fee.serialize

/-- The bytes of the height in the second form. -/
def heightBytes (k : TransactionKernel) : List UInt8 :=
  if k.features = .heightLocked then beBytes 8 k.lockHeight.toNat
  else if k.features = .noRecentDuplicate then beBytes 2 (k.lockHeight.toNat % 2 ^ 16)
  else []

/-- With named features the second form is one field after the other. -/
theorem serialized_v2 (hknown : k.features.value.toNat ≤ 3) (rest : List UInt8) :
    k.serialized .v2 ++ rest = k.features.value ::
      (k.feeBytes ++ (k.heightBytes ++
        (k.excessCommitment.bytes ++ (k.excessSignature.bytes ++ rest)))) := by
  rw [serialized, if_neg (by decide), feeBytes, heightBytes]
  by_cases h2 : k.features = .heightLocked
  · simp [h2, KernelFeatures.heightLocked, KernelFeatures.coinbaseKernel,
      KernelFeatures.defaultKernel]
  · by_cases h3 : k.features = .noRecentDuplicate
    · simp [h3, KernelFeatures.heightLocked, KernelFeatures.coinbaseKernel,
        KernelFeatures.defaultKernel, KernelFeatures.noRecentDuplicate]
    · rcases features_cases hknown (not_or.mpr ⟨h2, h3⟩) with h | h
      · simp [h, KernelFeatures.heightLocked, KernelFeatures.coinbaseKernel,
          KernelFeatures.defaultKernel, KernelFeatures.noRecentDuplicate]
      · simp [h, KernelFeatures.heightLocked, KernelFeatures.coinbaseKernel,
          KernelFeatures.defaultKernel, KernelFeatures.noRecentDuplicate]

theorem run_readFee_v2 (k : TransactionKernel) (rest : List UInt8) :
    run (readFee k.features .v2) (k.feeBytes ++ rest) = (.ok k.stripped.fee, rest) := by
  rw [readFee, feeBytes, stripped]
  by_cases h : k.features = .coinbaseKernel
  · rw [if_pos ⟨by decide, h⟩, if_pos h, if_pos h]
    rfl
  · rw [if_neg (fun hc => h hc.2), if_neg h, if_neg h]
    exact Fee.run_deserialize k.fee rest

theorem run_readLockHeight_v2 (hvalid : k.RelativeHeightValid) (rest : List UInt8) :
    run (readLockHeight k.features .v2) (k.heightBytes ++ rest) =
      (.ok k.stripped.lockHeight, rest) := by
  rw [readLockHeight, heightBytes]
  by_cases h2 : k.features = .heightLocked
  · rw [if_pos (Or.inr h2), if_pos h2, stripped_lockHeight (.inl h2)]
    exact run_readU64 k.lockHeight rest
  · have hne : ¬(EProtocolVersion.v2 = .v1 ∨ k.features = .heightLocked) := by
      rintro (h | h)
      · cases h
      · exact h2 h
    rw [if_neg hne, if_neg h2]
    by_cases h3 : k.features = .noRecentDuplicate
    · -- A height of at most a week fits into the two bytes.
      have hle := (hvalid h3).2
      have hlt : k.lockHeight.toNat < 2 ^ 16 := lt_of_le_of_lt hle (by decide)
      rw [if_pos h3, if_pos h3, stripped_lockHeight (.inr h3), run_bind_ok (run_readU16 _ rest),
        run_pure, Nat.mod_mod, Nat.mod_eq_of_lt hlt, UInt16.toNat_ofNat_of_lt' hlt,
        UInt64.ofNat_toNat]
    · rw [if_neg h3, if_neg h3, stripped_lockHeight_of_not (not_or.mpr ⟨h2, h3⟩)]
      rfl

theorem stripped_relativeHeight (hvalid : k.RelativeHeightValid) :
    k.features = .noRecentDuplicate → 0 < k.stripped.lockHeight.toNat ∧
      k.stripped.lockHeight.toNat ≤ Consensus.weekHeight := by
  intro h3
  rw [stripped_lockHeight (.inr h3)]
  exact hvalid h3

/-- **The second form gives back the kernel without the fields it left out.** -/
theorem run_deserialize_v2 (hvalid : k.RelativeHeightValid) (hknown : k.features.value.toNat ≤ 3)
    (rest : List UInt8) :
    run (deserialize .v2) (k.serialized .v2 ++ rest) = (.ok k.stripped, rest) := by
  rw [serialized_v2 hknown]
  exact run_deserialize_of (run_readFee_v2 k _) (run_readLockHeight_v2 hvalid _)
    (stripped_relativeHeight hvalid)

/-- Without named features the second form has no fee, but a fee is read: the record alone
is eight bytes too short. -/
theorem run_deserialize_unknown (hunknown : 3 < k.features.value.toNat) :
    ∃ rest, run (deserialize .v2) (k.serialized .v2) = (.error pastEnd, rest) := by
  have hne : ∀ n : UInt8, n.toNat ≤ 3 → k.features ≠ ⟨n⟩ := by
    intro n hn h
    have := congrArg (fun f => f.value.toNat) h
    dsimp only at this
    omega
  have h0 : k.features ≠ .defaultKernel := hne 0 (by decide)
  have h1 : k.features ≠ .coinbaseKernel := hne 1 (by decide)
  have h2 : k.features ≠ .heightLocked := hne 2 (by decide)
  have h3 : k.features ≠ .noRecentDuplicate := hne 3 (by decide)
  have hbytes : k.serialized .v2 =
      k.features.value :: (k.excessCommitment.bytes ++ k.excessSignature.bytes) := by
    rw [serialized, if_neg (by decide), if_neg h0, if_neg h1, if_neg h2, if_neg h3,
      List.nil_append]
  obtain ⟨record, hrecord⟩ :
      ∃ record, record = k.excessCommitment.bytes ++ k.excessSignature.bytes := ⟨_, rfl⟩
  have hlength : record.length = 97 := by
    rw [hrecord, List.length_append, k.excessCommitment.length_eq, k.excessSignature.length_eq]
  rw [hbytes, ← hrecord]
  obtain ⟨fee, hfee⟩ := Fee.takes_deserialize record (by omega)
  obtain ⟨excess, hexcess⟩ := takes_readBigInteger 33 (record.drop 8)
    (by rw [List.length_drop]; omega)
  have hshort : ((record.drop 8).drop 33).length < 64 := by
    rw [List.length_drop, List.length_drop]
    omega
  have hsignature := run_readBigInteger_of_lt hshort
  have hreadFee : readFee k.features .v2 = Fee.deserialize := if_neg fun h => h1 h.2
  have hreadHeight : readLockHeight k.features .v2 = pure 0 := by
    rw [readLockHeight, if_neg, if_neg h3]
    rintro (h | h)
    · cases h
    · exact h2 h
  refine ⟨(record.drop 8).drop 33, ?_⟩
  rw [deserialize, run_bind_ok (run_readU8 _ _)]
  dsimp only
  rw [hreadFee, hreadHeight, run_bind_ok hfee, run_bind_ok (run_pure 0 _), run_bind_ok hexcess,
    run_bind_error hsignature]

/-! ### Sizes -/

/-- `KERNEL_SIZE`: the first form has a fixed size. -/
theorem length_serialize (k : TransactionKernel) : k.serialize.length = 114 := by
  simp only [serialize, List.length_cons, List.length_append, Fee.length_serialize,
    length_beBytes, k.excessCommitment.length_eq, k.excessSignature.length_eq]

/-- No record of the second form is empty. -/
theorem length_serialized_pos (k : TransactionKernel) (version : EProtocolVersion) :
    0 < (k.serialized version).length := by
  rw [serialized]
  split
  · rw [length_serialize]
    decide
  · rw [List.length_cons]
    exact Nat.succ_pos _

end TransactionKernel

end GrinPlusPlus
