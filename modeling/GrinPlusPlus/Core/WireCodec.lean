import GrinPlusPlus.Core.Serialization
import GrinPlusPlus.Core.SmallNet
import GrinPlusPlus.Lib.Keyed

/-!
# Transactions, headers and blocks on the wire

`Serialize` and `Deserialize` of inputs, outputs, bodies, transactions, proofs of work, headers
and full blocks, on top of the kernels of `GrinPlusPlus.Core.Serialization`. The layout depends
on the protocol version at the innermost level only: an input loses its features from the third
version on, and a kernel loses the fields that its features make irrelevant from the second.

Everything is read back (`GrinPlusPlus.RoundTrips`), apart from three things.

* A relative height outside `1..WEEK_HEIGHT` is *refused* by the reader, although two bytes
  would hold it.
* A body is sorted by hash when it is read, and `std::sort` promises nothing about elements
  with the same hash. The hash of an input leaves out its features, and the hash of an output
  its range proof, so that two different ones can change places.
* The hash of a header is taken over the cycle *as it was received*, but what is written is the
  cycle packed again from its nonces, without the bits behind the last one.
-/

namespace GrinPlusPlus

open Exec ByteBuffer

/-- The 32 bytes of a hash. -/
def Hash.getData (h : Hash) : List UInt8 :=
  beBytes 32 h.value

/-! ### Sorting by hash -/

/-- `std::sort` by hash, as an insertion sort. -/
def sortByHash {α : Type} (getHash : α → Hash) (values : List α) : List α :=
  values.insertionSort fun a b => (getHash a).value ≤ (getHash b).value

/-- All that the standard promises of `std::sort` with `SortInputsByHash` and its siblings:
nothing is lost, and the hashes do not decrease. -/
structure SortsByHash {α : Type} (getHash : α → Hash) (sort : List α → List α) : Prop where
  /-- Nothing is lost. -/
  perm : ∀ values, (sort values).Perm values
  /-- The hashes do not decrease. -/
  sorted : ∀ values, (sort values).Pairwise fun a b => (getHash a).value ≤ (getHash b).value

theorem sortsByHash_sortByHash {α : Type} (getHash : α → Hash) :
    SortsByHash getHash (sortByHash getHash) where
  perm values := List.perm_insertionSort _ values
  sorted values := List.pairwise_sort_key (fun a => (getHash a).value) values

theorem perm_sortByHash {α : Type} (getHash : α → Hash) (l : List α) :
    (sortByHash getHash l).Perm l :=
  (sortsByHash_sortByHash getHash).perm l

theorem Hash.eq_of_value {a b : Hash} (h : a.value = b.value) : a = b := by
  cases a
  cases b
  exact congrArg Hash.mk h

section Sorting

variable {α : Type} {getHash : α → Hash}

/-- Lists that are sorted by hash and have the same elements are equal. -/
theorem eq_of_perm_of_sorted {l l' : List α} (h : l.Perm l')
    (hl : l.Pairwise fun a b => (getHash a).value ≤ (getHash b).value)
    (hl' : l'.Pairwise fun a b => (getHash a).value ≤ (getHash b).value)
    (hties : ∀ a ∈ l, ∀ b ∈ l, getHash a = getHash b → a = b) : l = l' := by
  refine h.eq_of_pairwise ?_ hl hl'
  intro a b ha hb hab hba
  refine hties a ha b (h.mem_iff.2 hb) ?_
  exact Hash.eq_of_value (le_antisymm hab hba)

/-- **A sorted list stays as it is** under every sort, when no two of its values are told apart
by nothing but their places. -/
theorem SortsByHash.sort_eq {sort : List α → List α} (hsort : SortsByHash getHash sort)
    {values : List α}
    (hsorted : values.Pairwise fun a b => (getHash a).value ≤ (getHash b).value)
    (hties : ∀ a ∈ values, ∀ b ∈ values, getHash a = getHash b → a = b) :
    sort values = values := by
  refine eq_of_perm_of_sorted (hsort.perm values) (hsort.sorted values) hsorted ?_
  intro a ha b hb
  exact hties a ((hsort.perm values).mem_iff.1 ha) b ((hsort.perm values).mem_iff.1 hb)

/-- A sort by hash depends on the elements only, if the hash tells them apart. -/
theorem sortByHash_eq_of_perm {l l' : List α} (h : l.Perm l')
    (hties : ∀ a ∈ l, ∀ b ∈ l, getHash a = getHash b → a = b) :
    sortByHash getHash l = sortByHash getHash l' := by
  have hsort := sortsByHash_sortByHash getHash
  refine eq_of_perm_of_sorted ((hsort.perm l).trans (h.trans (hsort.perm l').symm))
    (hsort.sorted l) (hsort.sorted l') ?_
  intro a ha b hb
  exact hties a ((hsort.perm l).mem_iff.1 ha) b ((hsort.perm l).mem_iff.1 hb)

end Sorting

/-- The three sorts of `TransactionBody`. -/
structure BodySort (G : Global) where
  /-- Of the inputs. -/
  inputs : List TransactionInput → List TransactionInput
  /-- Of the outputs. -/
  outputs : List TransactionOutput → List TransactionOutput
  /-- Of the kernels. -/
  kernels : List TransactionKernel → List TransactionKernel
  /-- By `SortInputsByHash`. -/
  sorts_inputs : SortsByHash (TransactionInput.getHash G) inputs
  /-- By `SortOutputsByHash`. -/
  sorts_outputs : SortsByHash (TransactionOutput.getHash G) outputs
  /-- By `SortKernelsByHash`. -/
  sorts_kernels : SortsByHash (TransactionKernel.getHash G) kernels

/-- The insertion sorts. -/
def BodySort.insertion (G : Global) : BodySort G where
  inputs := sortByHash (TransactionInput.getHash G)
  outputs := sortByHash (TransactionOutput.getHash G)
  kernels := sortByHash (TransactionKernel.getHash G)
  sorts_inputs := sortsByHash_sortByHash _
  sorts_outputs := sortsByHash_sortByHash _
  sorts_kernels := sortsByHash_sortByHash _

/-- `TransactionBody::TransactionBody`: a body is sorted when it is made. -/
def BodySort.body {G : Global} (sort : BodySort G) (inputs : List TransactionInput)
    (outputs : List TransactionOutput) (kernels : List TransactionKernel) : TransactionBody where
  inputs := sort.inputs inputs
  outputs := sort.outputs outputs
  kernels := sort.kernels kernels

/-! ### Writing -/

/-- `TransactionInput::Serialize`. -/
def TransactionInput.serialized (i : TransactionInput) (version : EProtocolVersion) :
    List UInt8 :=
  (if version = .v1 ∨ version = .v2 then [i.features.value] else []) ++ i.commitment.bytes

/-- `TransactionOutput::Serialize`. -/
def TransactionOutput.serialized (o : TransactionOutput) : List UInt8 :=
  o.features.value :: (o.commitment.bytes ++ o.rangeProof.serialize)

/-- `TransactionBody::Serialize`. -/
def TransactionBody.serialized (b : TransactionBody) (version : EProtocolVersion) :
    List UInt8 :=
  beBytes 8 b.inputs.length ++ (beBytes 8 b.outputs.length ++ (beBytes 8 b.kernels.length ++
    (b.inputs.flatMap (fun i => i.serialized version) ++
      (b.outputs.flatMap TransactionOutput.serialized ++
        b.kernels.flatMap fun k => k.serialized version))))

/-- `Transaction::Serialize`. -/
def Transaction.serialized (tx : Transaction) (version : EProtocolVersion) : List UInt8 :=
  tx.offset.bytes ++ tx.body.serialized version

/-- `Transaction::GetHash`: of the form of the first version. -/
def Transaction.getHash (G : Global) (tx : Transaction) : Hash :=
  G.blake2b (.bytes (tx.serialized .v1))

/-- `ProofOfWork::Serialize`. -/
def ProofOfWork.serialized (p : ProofOfWork) : List UInt8 :=
  p.edgeBits :: p.serializeCycle

/-- `BlockHeader::Serialize`, the same under every version. -/
def BlockHeader.serialized (h : BlockHeader) : List UInt8 :=
  beBytes 2 h.version.toNat ++ (beBytes 8 h.height.toNat ++
    (beBytes 8 h.timestamp.toUInt64.toNat ++ (h.previousHash.getData ++
      (h.previousRoot.getData ++ (h.outputRoot.getData ++ (h.rangeProofRoot.getData ++
        (h.kernelRoot.getData ++ (h.totalKernelOffset.bytes ++
          (beBytes 8 h.outputMMRSize.toNat ++ (beBytes 8 h.kernelMMRSize.toNat ++
            (beBytes 8 h.totalDifficulty.toNat ++ (beBytes 4 h.scalingDifficulty.toNat ++
              (beBytes 8 h.nonce.toNat ++ h.proofOfWork.serialized)))))))))))))

/-- `FullBlock::Serialize`. -/
def FullBlock.serialized (b : FullBlock) (version : EProtocolVersion) : List UInt8 :=
  b.header.serialized ++ b.body.serialized version

/-! ### Reading -/

namespace ByteBuffer

/-- `ByteBuffer::ReadVector`. -/
def readVector (n : ℕ) : ByteBuffer (List UInt8) := do
  let b ← readBigInteger n
  pure b.bytes

/-- `ByteBuffer::ReadBigInteger<32>`, of a hash. -/
def readHash : ByteBuffer Hash := do
  let n ← readBigEndian 32
  pure ⟨n⟩

/-- `ByteBuffer::Read64`. -/
def read64 : ByteBuffer Int64 := do
  let n ← readU64
  pure n.toInt64

/-- A loop that reads so many values. -/
def readMany {α : Type} (read : ByteBuffer α) : ℕ → ByteBuffer (List α)
  | 0 => pure []
  | n + 1 => do
    let value ← read
    let values ← readMany read n
    pure (value :: values)

/-- The loops of `TransactionBody::Deserialize`. They count in an `int`, which is incremented
past its end when there are too many. -/
def readCounted {α : Type} (count : UInt64) (read : ByteBuffer α) : ByteBuffer (List α) :=
  if count.toNat < 2 ^ 31 then readMany read count.toNat
  else do
    let _ ← readMany read (2 ^ 31)
    throw .undefined

end ByteBuffer

/-- `RangeProof::Normalize`. -/
def RangeProof.normalize (proofBytes : List UInt8) : RangeProof where
  bytes := (proofBytes ++ List.replicate 675 0).take 675
  length_eq := by
    rw [List.length_take, List.length_append, List.length_replicate, Nat.min_eq_left]
    omega

/-- `RangeProof::Deserialize`. -/
def RangeProof.deserialize : ByteBuffer RangeProof := do
  let proofSize ← readU64
  if 675 < proofSize.toNat then
    throw (.deserialization
      ("Proof of size " ++ toString proofSize.toNat ++ " exceeds the maximum"))
  else do
    let bytes ← readVector proofSize.toNat
    pure (RangeProof.normalize bytes)

/-- `TransactionOutput::Deserialize`. -/
def TransactionOutput.deserialize : ByteBuffer TransactionOutput := do
  let features ← readU8
  let commitment ← readBigInteger 33
  let rangeProof ← RangeProof.deserialize
  pure ⟨⟨features⟩, commitment, rangeProof⟩

/-- `ProofOfWork::DeserializeProofNonces` refuses a graph without bits, or with too many. -/
def ProofOfWork.invalidEdgeBits (edgeBits : UInt8) : Exc :=
  .deserialization ("Invalid number of edge bits: " ++ toString edgeBits.toNat)

/-- `ProofOfWork::Deserialize`. -/
def ProofOfWork.deserialize : ByteBuffer ProofOfWork := do
  let edgeBits ← readU8
  let bits ← readBigInteger (cycleLength edgeBits.toNat)
  if h : 0 < edgeBits.toNat ∧ edgeBits.toNat ≤ 63 then
    pure ⟨edgeBits, bits.bytes, h.1, h.2, bits.length_eq⟩
  else throw (ProofOfWork.invalidEdgeBits edgeBits)

/-- `BlockHeader::Deserialize`. -/
def BlockHeader.deserialize : ByteBuffer BlockHeader := do
  let version ← readU16
  let height ← readU64
  let timestamp ← read64
  let previousHash ← readHash
  let previousRoot ← readHash
  let outputRoot ← readHash
  let rangeProofRoot ← readHash
  let kernelRoot ← readHash
  let totalKernelOffset ← readBigInteger 32
  let outputMMRSize ← readU64
  let kernelMMRSize ← readU64
  let totalDifficulty ← readU64
  let scalingDifficulty ← readU32
  let nonce ← readU64
  let proofOfWork ← ProofOfWork.deserialize
  pure ⟨version, height, timestamp, previousHash, previousRoot, outputRoot, rangeProofRoot,
    kernelRoot, totalKernelOffset, outputMMRSize, kernelMMRSize, totalDifficulty,
    scalingDifficulty, nonce, proofOfWork⟩

section

variable {G : Global} (sort : BodySort G) (coinView : Commitment → Except Exc OutputFeatures)
  (version : EProtocolVersion)

/-- `TransactionInput::Deserialize`; from the third version on the features are looked up in
the coin view. -/
def TransactionInput.deserialize : ByteBuffer TransactionInput :=
  if version = .v1 ∨ version = .v2 then do
    let features ← readU8
    let commitment ← readBigInteger 33
    pure ⟨⟨features⟩, commitment⟩
  else do
    let commitment ← readBigInteger 33
    let features ← Exec.ofExcept (coinView commitment)
    pure ⟨features, commitment⟩

/-- `TransactionBody::Deserialize`: what was read is sorted, and sorted again by the
constructor. -/
def TransactionBody.deserialize : ByteBuffer TransactionBody := do
  let numInputs ← readU64
  let numOutputs ← readU64
  let numKernels ← readU64
  let inputs ← readCounted numInputs (TransactionInput.deserialize coinView version)
  let outputs ← readCounted numOutputs TransactionOutput.deserialize
  let kernels ← readCounted numKernels (TransactionKernel.deserialize version)
  pure (sort.body (sort.inputs inputs) (sort.outputs outputs) (sort.kernels kernels))

/-- `Transaction::Deserialize`. -/
def Transaction.deserialize : ByteBuffer Transaction := do
  let offset ← readBigInteger 32
  let body ← TransactionBody.deserialize sort coinView version
  pure ⟨offset, body⟩

/-- `FullBlock::Deserialize`. -/
def FullBlock.deserialize : ByteBuffer FullBlock := do
  let header ← BlockHeader.deserialize
  let body ← TransactionBody.deserialize sort coinView version
  pure ⟨header, body⟩

end

/-! ### What was written is read back -/

/-- **Round trip**: under the first two versions, reading takes exactly the bytes that were
written, whatever follows them, and gives back the value. -/
def RoundTrips {α : Type} (serialized : α → EProtocolVersion → List UInt8)
    (deserialize : EProtocolVersion → ByteBuffer α) (a : α) : Prop :=
  ∀ version, version = .v1 ∨ version = .v2 → ∀ rest,
    run (deserialize version) (serialized a version ++ rest) = (.ok a, rest)

namespace ByteBuffer

theorem run_readMany {α : Type} {read : ByteBuffer α} {bytes : α → List UInt8} {l : List α}
    (h : ∀ a ∈ l, ∀ rest, run read (bytes a ++ rest) = (.ok a, rest)) (rest : List UInt8) :
    run (readMany read l.length) (l.flatMap bytes ++ rest) = (.ok l, rest) := by
  induction l with
  | nil => rfl
  | cons a l ih =>
    have hhead := h a (List.mem_cons_self ..) (l.flatMap bytes ++ rest)
    have htail := ih fun b hb => h b (List.mem_cons_of_mem _ hb)
    rw [List.flatMap_cons, List.append_assoc, List.length_cons, readMany, run_bind_ok hhead,
      run_bind_ok htail, run_pure]

theorem run_readCounted {α : Type} {read : ByteBuffer α} {bytes : α → List UInt8} {l : List α}
    (hlength : l.length < 2 ^ 31)
    (h : ∀ a ∈ l, ∀ rest, run read (bytes a ++ rest) = (.ok a, rest)) (rest : List UInt8) :
    run (readCounted (UInt64.ofNat l.length) read) (l.flatMap bytes ++ rest) = (.ok l, rest) := by
  have hcount : (UInt64.ofNat l.length).toNat = l.length :=
    UInt64.toNat_ofNat_of_lt' (by rw [UInt64.size]; omega)
  rw [readCounted, hcount, if_pos hlength]
  exact run_readMany h rest

/-- A number that fits is read back. -/
theorem run_readU64_of_lt {n : ℕ} (h : n < 2 ^ 64) (rest : List UInt8) :
    run readU64 (beBytes 8 n ++ rest) = (.ok (UInt64.ofNat n), rest) := by
  have hread := run_readU64 (UInt64.ofNat n) rest
  rwa [UInt64.toNat_ofNat_of_lt' h] at hread

theorem run_readVector {n : ℕ} (b : CBigInteger n) (rest : List UInt8) :
    run (readVector n) (b.bytes ++ rest) = (.ok b.bytes, rest) := by
  rw [readVector, run_bind_ok (run_readBigInteger b rest), run_pure]

theorem run_readHash {h : Hash} (hfits : h.value < 256 ^ 32) (rest : List UInt8) :
    run readHash (h.getData ++ rest) = (.ok h, rest) := by
  rw [readHash, Hash.getData, run_bind_ok (run_readBigEndian 32 h.value rest), run_pure,
    Nat.mod_eq_of_lt hfits]

theorem run_read64 (n : Int64) (rest : List UInt8) :
    run read64 (beBytes 8 n.toUInt64.toNat ++ rest) = (.ok n, rest) := by
  rw [read64, run_bind_ok (run_readU64 n.toUInt64 rest), run_pure, Int64.toInt64_toUInt64]

theorem run_readU16_self (n : UInt16) (rest : List UInt8) :
    run readU16 (beBytes 2 n.toNat ++ rest) = (.ok n, rest) := by
  rw [run_readU16, Nat.mod_eq_of_lt n.toNat_lt, UInt16.ofNat_toNat]

theorem run_readU32_self (n : UInt32) (rest : List UInt8) :
    run readU32 (beBytes 4 n.toNat ++ rest) = (.ok n, rest) := by
  rw [run_readU32, Nat.mod_eq_of_lt n.toNat_lt, UInt32.ofNat_toNat]

end ByteBuffer

theorem RangeProof.normalize_bytes (p : RangeProof) : RangeProof.normalize p.bytes = p :=
  CBigInteger.ext_bytes (List.take_left' p.length_eq)

theorem RangeProof.run_deserialize (p : RangeProof) (rest : List UInt8) :
    run RangeProof.deserialize (p.serialize ++ rest) = (.ok p, rest) := by
  have hsize : run readU64 (beBytes 8 675 ++ (p.bytes ++ rest)) = (.ok 675, p.bytes ++ rest) :=
    run_readU64 675 (p.bytes ++ rest)
  rw [RangeProof.deserialize, RangeProof.serialize, List.append_assoc, run_bind_ok hsize,
    if_neg (by decide)]
  exact (run_bind_ok (run_readVector p rest)).trans (by rw [normalize_bytes, run_pure])

theorem TransactionInput.roundTrips (coinView : Commitment → Except Exc OutputFeatures)
    (i : TransactionInput) :
    RoundTrips TransactionInput.serialized (TransactionInput.deserialize coinView) i := by
  intro version hversion rest
  rw [TransactionInput.serialized, TransactionInput.deserialize, if_pos hversion,
    if_pos hversion, List.append_assoc, List.singleton_append, run_bind_ok (run_readU8 _ _),
    run_bind_ok (run_readBigInteger _ _), run_pure]

theorem TransactionOutput.run_deserialize (o : TransactionOutput) (rest : List UInt8) :
    run TransactionOutput.deserialize (o.serialized ++ rest) = (.ok o, rest) := by
  rw [TransactionOutput.serialized, TransactionOutput.deserialize, List.cons_append,
    List.append_assoc, run_bind_ok (run_readU8 _ _), run_bind_ok (run_readBigInteger _ _),
    run_bind_ok (RangeProof.run_deserialize _ _), run_pure]

/-- A kernel that is well formed for its features, with a height that the reader accepts. -/
theorem TransactionKernel.roundTrips {k : TransactionKernel} (hcanonical : k.Canonical)
    (hheight : k.RelativeHeightValid) :
    RoundTrips TransactionKernel.serialized TransactionKernel.deserialize k := by
  rintro version (rfl | rfl) rest
  · exact run_deserialize_v1 hheight rest
  · rw [run_deserialize_v2 hheight hcanonical.known, hcanonical.stripped_eq]

/-! ### Bodies, transactions and blocks -/

namespace TransactionBody

/-- The lists are in the order the constructor gives them. -/
structure Sorted (G : Global) (b : TransactionBody) : Prop where
  /-- The inputs. -/
  inputs : b.inputs.Pairwise fun i j => (i.getHash G).value ≤ (j.getHash G).value
  /-- The outputs. -/
  outputs : b.outputs.Pairwise fun o p => (o.getHash G).value ≤ (p.getHash G).value
  /-- The kernels. -/
  kernels : b.kernels.Pairwise fun k l => (k.getHash G).value ≤ (l.getHash G).value

/-- A body is in order when it is made. -/
theorem sorted_body {G : Global} (sort : BodySort G) (inputs : List TransactionInput)
    (outputs : List TransactionOutput) (kernels : List TransactionKernel) :
    Sorted G (sort.body inputs outputs kernels) where
  inputs := sort.sorts_inputs.sorted inputs
  outputs := sort.sorts_outputs.sorted outputs
  kernels := sort.sorts_kernels.sorted kernels

/-- What a body must be to be read back. -/
structure WellFormed (b : TransactionBody) : Prop where
  /-- The kernels are well formed for their features. -/
  canonical : ∀ k ∈ b.kernels, k.Canonical
  /-- Relative heights are within a week. -/
  relativeHeight : ∀ k ∈ b.kernels, k.RelativeHeightValid
  /-- The inputs can be counted in an `int`. -/
  length_inputs : b.inputs.length < 2 ^ 31
  /-- So can the outputs. -/
  length_outputs : b.outputs.length < 2 ^ 31
  /-- So can the kernels. -/
  length_kernels : b.kernels.length < 2 ^ 31
  /-- Two inputs of the same output do not differ in the features. -/
  inputs : ∀ i ∈ b.inputs, ∀ j ∈ b.inputs, i.commitment = j.commitment → i = j
  /-- Two outputs with the same identifier do not differ in the range proof. -/
  outputs : ∀ o ∈ b.outputs, ∀ p ∈ b.outputs,
    OutputIdentifier.fromOutput o = OutputIdentifier.fromOutput p → o = p

variable {G : Global} {b : TransactionBody}

/-- Sorting twice more changes nothing: with an injective hash, what counts as equal is. -/
theorem WellFormed.body_eq (hG : G.InjectiveOnBytes) (hb : b.WellFormed) (hsorted : b.Sorted G)
    (sort : BodySort G) :
    sort.body (sort.inputs b.inputs) (sort.outputs b.outputs) (sort.kernels b.kernels) = b := by
  have hinputs : sort.inputs b.inputs = b.inputs :=
    sort.sorts_inputs.sort_eq hsorted.inputs fun i hi j hj h =>
      hb.inputs i hi j hj (CBigInteger.ext_bytes (hG _ _ h))
  have houtputs : sort.outputs b.outputs = b.outputs :=
    sort.sorts_outputs.sort_eq hsorted.outputs fun o ho p hp h =>
      hb.outputs o ho p hp (OutputIdentifier.serialize_injective (hG _ _ h))
  have hkernels : sort.kernels b.kernels = b.kernels :=
    sort.sorts_kernels.sort_eq hsorted.kernels fun k _ l _ h =>
      TransactionKernel.serialize_injective (hG _ _ h)
  rw [hinputs, houtputs, hkernels, BodySort.body, hinputs, houtputs, hkernels]

theorem roundTrips (hG : G.InjectiveOnBytes) (sort : BodySort G)
    (coinView : Commitment → Except Exc OutputFeatures) (hb : b.WellFormed)
    (hsorted : b.Sorted G) :
    RoundTrips TransactionBody.serialized (TransactionBody.deserialize sort coinView) b := by
  intro version hversion rest
  have hinputs := run_readCounted hb.length_inputs (fun i _ rest =>
    TransactionInput.roundTrips coinView i version hversion rest)
  have houtputs := run_readCounted hb.length_outputs (fun o _ rest =>
    TransactionOutput.run_deserialize o rest)
  have hkernels := run_readCounted hb.length_kernels (fun k hk rest =>
    TransactionKernel.roundTrips (hb.canonical k hk) (hb.relativeHeight k hk) version hversion
      rest)
  simp only [serialized, List.append_assoc]
  have hword : 2 ^ 31 < 2 ^ 64 := by decide
  rw [deserialize, run_bind_ok (run_readU64_of_lt (hb.length_inputs.trans hword) _),
    run_bind_ok (run_readU64_of_lt (hb.length_outputs.trans hword) _),
    run_bind_ok (run_readU64_of_lt (hb.length_kernels.trans hword) _), run_bind_ok (hinputs _),
    run_bind_ok (houtputs _), run_bind_ok (hkernels _), run_pure,
    hb.body_eq hG hsorted sort]

end TransactionBody

theorem Transaction.roundTrips {G : Global} (hG : G.InjectiveOnBytes) (sort : BodySort G)
    (coinView : Commitment → Except Exc OutputFeatures) {tx : Transaction}
    (hbody : tx.body.WellFormed) (hsorted : tx.body.Sorted G) :
    RoundTrips Transaction.serialized (Transaction.deserialize sort coinView) tx := by
  intro version hversion rest
  rw [serialized, deserialize, List.append_assoc, run_bind_ok (run_readBigInteger _ _),
    run_bind_ok (TransactionBody.roundTrips hG sort coinView hbody hsorted version hversion _),
    run_pure]

/-- What comes back of a proof of work is the cycle packed again. -/
theorem ProofOfWork.run_deserialize (p : ProofOfWork) (rest : List UInt8) :
    run ProofOfWork.deserialize (p.serialized ++ rest) = (.ok p.reload, rest) := by
  have hcycle := run_readBigInteger (⟨p.serializeCycle, p.length_serializeCycle⟩ :
    CBigInteger (cycleLength p.edgeBits.toNat)) rest
  rw [deserialize, serialized, List.cons_append, run_bind_ok (run_readU8 _ _),
    run_bind_ok hcycle, dif_pos ⟨p.edgeBits_pos, p.edgeBits_le⟩]
  rfl

namespace BlockHeader

/-- Every hash of a header has 32 bytes. -/
structure HashesFit (h : BlockHeader) : Prop where
  /-- The previous hash. -/
  previousHash : h.previousHash.value < 256 ^ 32
  /-- The root over the previous headers. -/
  previousRoot : h.previousRoot.value < 256 ^ 32
  /-- The output root. -/
  outputRoot : h.outputRoot.value < 256 ^ 32
  /-- The range proof root. -/
  rangeProofRoot : h.rangeProofRoot.value < 256 ^ 32
  /-- The kernel root. -/
  kernelRoot : h.kernelRoot.value < 256 ^ 32

/-- The bits of the cycle are those of its nonces: nothing is set behind the last one. -/
def CleanCycle (h : BlockHeader) : Prop :=
  h.proofOfWork.serializeCycle = h.proofOfWork.bits

variable {h : BlockHeader}

/-- What comes back of a header is the header with its cycle packed again. -/
theorem run_deserialize (hfit : h.HashesFit) (rest : List UInt8) :
    run deserialize (h.serialized ++ rest) = (.ok h.reload, rest) := by
  simp only [serialized, List.append_assoc]
  rw [deserialize, run_bind_ok (run_readU16_self _ _), run_bind_ok (run_readU64 _ _),
    run_bind_ok (run_read64 _ _), run_bind_ok (run_readHash hfit.previousHash _),
    run_bind_ok (run_readHash hfit.previousRoot _), run_bind_ok (run_readHash hfit.outputRoot _),
    run_bind_ok (run_readHash hfit.rangeProofRoot _),
    run_bind_ok (run_readHash hfit.kernelRoot _), run_bind_ok (run_readBigInteger _ _),
    run_bind_ok (run_readU64 _ _), run_bind_ok (run_readU64 _ _), run_bind_ok (run_readU64 _ _),
    run_bind_ok (run_readU32_self _ _), run_bind_ok (run_readU64 _ _),
    run_bind_ok (ProofOfWork.run_deserialize _ _), run_pure]
  rfl

theorem CleanCycle.reload_eq (hclean : h.CleanCycle) : h.reload = h := by
  have hcycle : h.proofOfWork.reload = h.proofOfWork := ProofOfWork.ext_bits rfl hclean
  rw [reload, hcycle]

theorem roundTrips (hfit : h.HashesFit) (hclean : h.CleanCycle) :
    RoundTrips (fun h _ => BlockHeader.serialized h) (fun _ => BlockHeader.deserialize) h := by
  intro version _ rest
  rw [run_deserialize hfit, hclean.reload_eq]

end BlockHeader

theorem FullBlock.roundTrips {G : Global} (hG : G.InjectiveOnBytes) (sort : BodySort G)
    (coinView : Commitment → Except Exc OutputFeatures) {b : FullBlock}
    (hfit : b.header.HashesFit) (hclean : b.header.CleanCycle) (hbody : b.body.WellFormed)
    (hsorted : b.body.Sorted G) :
    RoundTrips FullBlock.serialized (FullBlock.deserialize sort coinView) b := by
  intro version hversion rest
  rw [serialized, deserialize, List.append_assoc,
    run_bind_ok (BlockHeader.roundTrips hfit hclean version hversion _),
    run_bind_ok (TransactionBody.roundTrips hG sort coinView hbody hsorted version hversion _),
    run_pure]

/-- **What is written is read back**, byte for byte: transactions, headers and blocks, under
the first two versions of the protocol, with every sort that `std::sort` may be. -/
theorem wire_roundTrips {G : Global} (hG : G.InjectiveOnBytes) (sort : BodySort G)
    (coinView : Commitment → Except Exc OutputFeatures) :
    (∀ tx : Transaction, tx.body.WellFormed → tx.body.Sorted G →
      RoundTrips Transaction.serialized (Transaction.deserialize sort coinView) tx) ∧
    (∀ h : BlockHeader, h.HashesFit → h.CleanCycle →
      RoundTrips (fun h _ => BlockHeader.serialized h) (fun _ => BlockHeader.deserialize) h) ∧
    (∀ b : FullBlock, b.header.HashesFit → b.header.CleanCycle → b.body.WellFormed →
      b.body.Sorted G →
      RoundTrips FullBlock.serialized (FullBlock.deserialize sort coinView) b) :=
  ⟨fun _ hbody hsorted => Transaction.roundTrips hG sort coinView hbody hsorted,
    fun _ hfit hclean => BlockHeader.roundTrips hfit hclean,
    fun _ hfit hclean hbody hsorted =>
      FullBlock.roundTrips hG sort coinView hfit hclean hbody hsorted⟩

/-! ### The hash of a transaction -/

/-- Values of one length, one after the other, determine the values. -/
theorem flatMap_append_inj {α β : Type} {f : α → List β} {n : ℕ}
    (hlength : ∀ a, (f a).length = n) (hinj : ∀ a b, f a = f b → a = b) {l l' : List α}
    {r r' : List β} (hlist : l.length = l'.length) (h : l.flatMap f ++ r = l'.flatMap f ++ r') :
    l = l' ∧ r = r' := by
  induction l generalizing l' with
  | nil =>
    obtain rfl := List.length_eq_zero_iff.mp hlist.symm
    exact ⟨rfl, h⟩
  | cons a l ih =>
    rcases l' with _ | ⟨b, l'⟩
    · simp at hlist
    · rw [List.flatMap_cons, List.flatMap_cons, List.append_assoc, List.append_assoc] at h
      obtain ⟨hhead, htail⟩ := List.append_inj h (by rw [hlength, hlength])
      obtain ⟨rfl, hrest⟩ := ih (by simpa using hlist) htail
      exact ⟨by rw [hinj a b hhead], hrest⟩

/-- Under the first version every input, output and kernel has a fixed length. -/
theorem TransactionInput.length_serialized_v1 (i : TransactionInput) :
    (i.serialized .v1).length = 34 := by
  change (i.features.value :: i.commitment.bytes).length = 34
  rw [List.length_cons, i.commitment.length_eq]

theorem TransactionInput.serialized_v1_injective {i j : TransactionInput}
    (h : i.serialized .v1 = j.serialized .v1) : i = j := by
  change i.features.value :: i.commitment.bytes = j.features.value :: j.commitment.bytes at h
  rw [List.cons.injEq] at h
  have hfeatures : i.features = j.features := congrArg OutputFeatures.mk h.1
  cases i
  cases j
  rw [TransactionInput.mk.injEq]
  exact ⟨hfeatures, CBigInteger.ext_bytes h.2⟩

theorem TransactionOutput.length_serialized (o : TransactionOutput) :
    o.serialized.length = 717 := by
  rw [serialized, RangeProof.serialize, List.length_cons, List.length_append,
    List.length_append, o.commitment.length_eq, length_beBytes, o.rangeProof.length_eq]

theorem TransactionOutput.serialized_injective {o p : TransactionOutput}
    (h : o.serialized = p.serialized) : o = p := by
  rw [serialized, serialized, List.cons.injEq] at h
  obtain ⟨hcommitment, hproof⟩ := List.append_inj h.2 (by
    rw [o.commitment.length_eq, p.commitment.length_eq])
  have hfeatures : o.features = p.features := congrArg OutputFeatures.mk h.1
  cases o
  cases p
  rw [TransactionOutput.mk.injEq]
  exact ⟨hfeatures, CBigInteger.ext_bytes hcommitment, RangeProof.serialize_injective hproof⟩

/-- The three counts of a body fit into their eight bytes, as the sizes of vectors do. -/
structure Transaction.Fits (tx : Transaction) : Prop where
  /-- The inputs. -/
  inputs : tx.body.inputs.length < 2 ^ 64
  /-- The outputs. -/
  outputs : tx.body.outputs.length < 2 ^ 64
  /-- The kernels. -/
  kernels : tx.body.kernels.length < 2 ^ 64

/-- **The hash determines the transaction.** -/
theorem Transaction.eq_of_getHash_eq {G : Global} (hG : G.InjectiveOnBytes) {a b : Transaction}
    (ha : a.Fits) (hb : b.Fits) (h : a.getHash G = b.getHash G) : a = b := by
  have hbytes := hG _ _ h
  obtain ⟨hoffset, hbytes⟩ := List.append_inj hbytes (by
    rw [a.offset.length_eq, b.offset.length_eq])
  -- The counts come first, so the lists behind them are equally long.
  obtain ⟨hinputs, hbytes⟩ := List.append_inj hbytes (by simp)
  obtain ⟨houtputs, hbytes⟩ := List.append_inj hbytes (by simp)
  obtain ⟨hkernels, hbytes⟩ := List.append_inj hbytes (by simp)
  obtain ⟨hinputs, hbytes⟩ := flatMap_append_inj TransactionInput.length_serialized_v1
    (fun _ _ => TransactionInput.serialized_v1_injective)
    (beBytes_injective ha.inputs hb.inputs hinputs) hbytes
  obtain ⟨houtputs, hbytes⟩ := flatMap_append_inj TransactionOutput.length_serialized
    (fun _ _ => TransactionOutput.serialized_injective)
    (beBytes_injective ha.outputs hb.outputs houtputs) hbytes
  have hbytes : a.body.kernels.flatMap TransactionKernel.serialize ++ [] =
      b.body.kernels.flatMap TransactionKernel.serialize ++ [] := by
    rw [List.append_nil, List.append_nil]
    exact hbytes
  obtain ⟨hkernels, -⟩ := flatMap_append_inj TransactionKernel.length_serialize
    (fun _ _ => TransactionKernel.serialize_injective)
    (beBytes_injective ha.kernels hb.kernels hkernels) hbytes
  obtain ⟨offset, inputs, outputs, kernels⟩ := a
  obtain ⟨offset', inputs', outputs', kernels'⟩ := b
  cases CBigInteger.ext_bytes hoffset
  cases hinputs
  cases houtputs
  cases hkernels
  rfl

namespace SmallNet

/-- No output is known. -/
def noCoins (_ : Commitment) : Except Exc OutputFeatures :=
  .error (.txHashSet "Output not found.")

/-- A kernel that may not come again for so many blocks. -/
def relativeKernel (relativeHeight : UInt64) : TransactionKernel where
  features := .noRecentDuplicate
  fee := Fee.zero
  lockHeight := relativeHeight
  excessCommitment := commitment 7
  excessSignature := signature

/-- A transaction with one input, one output and such a kernel. -/
def relativeTransaction (relativeHeight : UInt64) : Transaction where
  offset := noBlind
  body := ⟨[⟨.default, commitment 3⟩], [⟨.default, commitment 4, rangeProof⟩],
    [relativeKernel relativeHeight]⟩

theorem sorted_relativeTransaction (relativeHeight : UInt64) :
    (relativeTransaction relativeHeight).body.Sorted (smallNet .mainnet) where
  inputs := List.pairwise_singleton _ _
  outputs := List.pairwise_singleton _ _
  kernels := List.pairwise_singleton _ _

theorem canonical_relativeKernel (relativeHeight : UInt64) :
    (relativeKernel relativeHeight).Canonical where
  known := le_refl 3
  fee_eq := fun _ => rfl
  lockHeight_eq := by
    rintro (h | h)
    · cases h
    · cases h

theorem wellFormed_relativeTransaction : (relativeTransaction 5).body.WellFormed where
  canonical := by
    intro k hk
    rw [List.mem_singleton.mp hk]
    exact canonical_relativeKernel 5
  relativeHeight := by
    intro k hk
    rw [List.mem_singleton.mp hk]
    exact fun _ => ⟨by decide, by decide⟩
  length_inputs := by decide
  length_outputs := by decide
  length_kernels := by decide
  inputs := by
    intro i hi j hj _
    rw [List.mem_singleton.mp hi, List.mem_singleton.mp hj]
  outputs := by
    intro o ho p hp _
    rw [List.mem_singleton.mp ho, List.mem_singleton.mp hp]

/-- A header with this cycle. -/
def cycleHeader (proofOfWork : ProofOfWork) : BlockHeader :=
  { genesisHeader with
    outputRoot := Hash.zero
    rangeProofRoot := Hash.zero
    kernelRoot := Hash.zero
    proofOfWork := proofOfWork }

theorem hashesFit_cycleHeader (proofOfWork : ProofOfWork) :
    (cycleHeader proofOfWork).HashesFit := by
  have hzero : Hash.zero.value < 256 ^ 32 := by decide
  exact ⟨hzero, hzero, hzero, hzero, hzero⟩

theorem length_paddedBits :
    ([0, 0, 0, 0, 0, 128] : List UInt8).length = cycleLength (proofOfWork 0).edgeBits.toNat :=
  rfl

/-- The cycle of 42 nonces of one bit, with a bit set behind the last one. -/
def paddedProofOfWork : ProofOfWork :=
  { proofOfWork 0 with
    bits := [0, 0, 0, 0, 0, 128]
    length_bits := length_paddedBits }

/-- An input of an ordinary output. -/
def ordinaryInput : TransactionInput := ⟨.default, commitment 3⟩

/-- An input of the same output, if it were a reward. -/
def rewardInput : TransactionInput := ⟨.coinbaseOutput, commitment 3⟩

/-- A sort that lets these two change places. -/
def swapInputs (inputs : List TransactionInput) : List TransactionInput :=
  if inputs = [ordinaryInput, rewardInput] then [rewardInput, ordinaryInput]
  else sortByHash (TransactionInput.getHash (smallNet .mainnet)) inputs

theorem sortsByHash_swapInputs :
    SortsByHash (TransactionInput.getHash (smallNet .mainnet)) swapInputs where
  perm := by
    intro values
    rw [swapInputs]
    split
    · next h =>
      rw [h]
      exact List.Perm.swap _ _ _
    · exact (sortsByHash_sortByHash _).perm values
  sorted := by
    intro values
    rw [swapInputs]
    split
    · -- The features are not hashed, so the two have the same hash.
      exact List.pairwise_pair.mpr le_rfl
    · exact (sortsByHash_sortByHash _).sorted values

/-- The sorts with this one for the inputs. -/
def swapSort : BodySort (smallNet .mainnet) :=
  { BodySort.insertion (smallNet .mainnet) with
    inputs := swapInputs
    sorts_inputs := sortsByHash_swapInputs }

/-- A transaction with both inputs. -/
def tiedTransaction : Transaction where
  offset := noBlind
  body := ⟨[ordinaryInput, rewardInput], [], []⟩

theorem sorted_tiedTransaction : tiedTransaction.body.Sorted (smallNet .mainnet) where
  inputs := List.pairwise_pair.mpr le_rfl
  outputs := List.Pairwise.nil
  kernels := List.Pairwise.nil

end SmallNet

open SmallNet in
/-- A transaction and a header that come back, alone and as a block. -/
theorem wire_roundTrips_relativeTransaction :
    RoundTrips Transaction.serialized
      (Transaction.deserialize (BodySort.insertion (smallNet .mainnet)) noCoins)
      (relativeTransaction 5) ∧
    RoundTrips (fun h _ => BlockHeader.serialized h) (fun _ => BlockHeader.deserialize)
      (cycleHeader (proofOfWork 1)) ∧
    RoundTrips FullBlock.serialized
      (FullBlock.deserialize (BodySort.insertion (smallNet .mainnet)) noCoins)
      ⟨cycleHeader (proofOfWork 1), (relativeTransaction 5).body⟩ := by
  have hclean : (cycleHeader (proofOfWork 1)).CleanCycle := by
    unfold BlockHeader.CleanCycle
    decide +kernel
  obtain ⟨htransaction, hheader, hblock⟩ := wire_roundTrips (injectiveOnBytes .mainnet)
    (BodySort.insertion (smallNet .mainnet)) noCoins
  exact ⟨htransaction _ wellFormed_relativeTransaction (sorted_relativeTransaction 5),
    hheader _ (hashesFit_cycleHeader _) hclean,
    hblock _ (hashesFit_cycleHeader _) hclean wellFormed_relativeTransaction
      (sorted_relativeTransaction 5)⟩

open SmallNet in
/-- A relative height of 20000 fits into two bytes, but is refused; the inputs of the same
output can change places, which changes the hash of the transaction; and a bit behind the last
nonce is lost, which changes the hash of the header. -/
theorem not_wire_roundTrips :
    ((relativeKernel 20000).Canonical ∧
      (relativeTransaction 20000).body.Sorted (smallNet .mainnet) ∧
      ∀ version, version = .v1 ∨ version = .v2 →
        (run (Transaction.deserialize (BodySort.insertion (smallNet .mainnet)) noCoins version)
          ((relativeTransaction 20000).serialized version)).1 =
            .error (TransactionKernel.invalidRelativeHeight 20000 (commitment 7))) ∧
    (tiedTransaction.body.Sorted (smallNet .mainnet) ∧
      ∃ tx, run (Transaction.deserialize swapSort noCoins .v1) (tiedTransaction.serialized .v1) =
          (.ok tx, []) ∧
        tx.getHash (smallNet .mainnet) ≠ tiedTransaction.getHash (smallNet .mainnet)) ∧
    ((cycleHeader paddedProofOfWork).HashesFit ∧
      ∃ h, run BlockHeader.deserialize (cycleHeader paddedProofOfWork).serialized =
          (.ok h, []) ∧
        h.getHash (smallNet .mainnet) ≠
          (cycleHeader paddedProofOfWork).getHash (smallNet .mainnet)) := by
  refine ⟨⟨canonical_relativeKernel _, sorted_relativeTransaction _, ?_⟩,
    ⟨sorted_tiedTransaction, ⟨noBlind, ⟨[rewardInput, ordinaryInput], [], []⟩⟩, ?_, ?_⟩,
    hashesFit_cycleHeader _, (cycleHeader paddedProofOfWork).reload, ?_, ?_⟩
  · rintro version (rfl | rfl)
    · decide +kernel
    · decide +kernel
  · decide +kernel
  · decide +kernel
  · have hread := BlockHeader.run_deserialize (hashesFit_cycleHeader paddedProofOfWork) []
    rwa [List.append_nil] at hread
  · decide +kernel

end GrinPlusPlus
