import GrinPlusPlus.Core.KernelCodec
import GrinPlusPlus.Pmmr.KernelStorage

/-!
# Loading a file of kernels

`KernelMMR::Load`. A directory without a file of offsets – an archive that was received – does not
say in which of the two formats its kernels are; the format is guessed from the size of the file.
A multiple of 114 bytes is taken for records of the first form, anything else is parsed as records
of the second form, which have 98, 106, 108 or 114 bytes.

Parsing is sound: `GrinPlusPlus.KernelStorage.buildKernelOffsets_rawBytes` recovers the offsets of
the records. The guess is not: 57 coinbase kernels have 5586 bytes, the size of 49 records of the
first form. `GrinPlusPlus.KernelStorage.load_recovers_iff` says for which lists of kernels, and in
which form, loading gives back the kernels; besides the guess it depends on what the second form
leaves out and on the repair of a range that has only one kernel.
-/

namespace GrinPlusPlus

open Exec MMRHashUtil PostOrder Mountain ByteBuffer

/-- The directory of the kernels on the disk. -/
structure KernelDirectory where
  /-- `pmmr_hash.bin`. -/
  hashes : List Hash
  /-- `pmmr_data.bin`. -/
  raw : List UInt8
  /-- `pmmr_offsets.bin`, when it exists. -/
  offsets : Option (List ℕ)

namespace KernelStorage

variable (G : Global)

/-! ### Loading -/

/-- `KernelMMR::GetSize`. -/
def getSize (s : KernelStorage) : ℕ :=
  s.hashFile.getSize

/-- The first `n` entries of a `DataFile<114>` over some bytes. -/
def fixedRecords : ℕ → List UInt8 → List (CBigInteger 114)
  | 0, _ => []
  | n + 1, bytes =>
    match run (readBigInteger 114) bytes with
    | (.ok record, rest) => record :: fixedRecords n rest
    | (.error _, _) => []

/-- The loop of `KernelMMR::BuildKernelOffsetsFromRawFile`. Every pass consumes some bytes, so
that there are at most as many passes as bytes. -/
def buildKernelOffsets : ℕ → ℕ → List UInt8 → Except Exc (List ℕ)
  | 0, _, bytes => if bytes.isEmpty then .ok [] else .error .hang
  | fuel + 1, offset, bytes =>
    if bytes.isEmpty then .ok []
    else
      match run (TransactionKernel.deserialize .v2) bytes with
      | (.error e, _) => .error e
      | (.ok _, rest) =>
        let consumed := bytes.length - rest.length
        if consumed = 0 ∨ bytes.length < rest.length then
          .error (.file ("Failed to parse kernel record at offset " ++ toString offset))
        else do
          let offsets ← buildKernelOffsets fuel (offset + consumed) rest
          .ok (offset :: offsets)

/-- `KernelMMR::BuildKernelOffsetsFromRawFile`. -/
def buildKernelOffsetsFromRawFile (raw : List UInt8) : Except Exc (List ℕ) :=
  buildKernelOffsets raw.length 0 raw

/-- The outcome of a computation on a storage: the storage it leaves, or its exception. -/
def outcome (x : Exec Exc KernelStorage Unit) (s : KernelStorage) : Except Exc KernelStorage :=
  match run x s with
  | (.ok (), s') => .ok s'
  | (.error e, _) => .error e

/-- `ApplyKernel` of the kernel of the genesis block. -/
def applyGenesis (s : KernelStorage) : Except Exc KernelStorage := do
  let kernel ← orThrow G.genesisBlock.body.kernels.head? .undefined
  outcome (applyKernel G kernel) s

/-- Whether the first kernel is missing, or is not the one of the genesis block: the hash of the
first leaf is compared with the root in the genesis header. -/
def genesisInconsistent (s : KernelStorage) : Except Exc Bool := do
  match ← s.getKernelAt 0 with
  | none => .ok true
  | some _ => do
    let root ← s.root G 1
    .ok (decide (root ≠ G.genesisBlock.header.kernelRoot))

/-- What `Load` does with the first kernel: a range of one wrong kernel is rebuilt, a longer one
is left as it is. -/
def checkGenesis (includeGenesis : Bool) (s : KernelStorage) : Except Exc KernelStorage :=
  if includeGenesis ∧ 1 ≤ s.getSize then do
    let inconsistent ← genesisInconsistent G s
    if inconsistent ∧ s.getSize = 1 then do
      let rewound ← outcome (rewind 0) s
      applyGenesis G rewound
    else .ok s
  else .ok s

/-- `KernelMMR::Load`. Of an empty range only the genesis kernel is there afterwards. -/
def load (includeGenesis : Bool) (d : KernelDirectory) : Except Exc KernelStorage :=
  let fixed : KernelStorage :=
    ⟨.load d.hashes, .fixed, .load (fixedRecords (d.raw.length / 114) d.raw), .load [], .load []⟩
  if d.hashes = [] then
    if includeGenesis then applyGenesis G fixed else .ok fixed
  else
    match d.offsets with
    | some offsets =>
      checkGenesis G includeGenesis
        ⟨.load d.hashes, .variable, .load [], .load d.raw, .load offsets⟩
    | none =>
      if d.raw.length % 114 ≠ 0 then do
        let offsets ← buildKernelOffsetsFromRawFile d.raw
        checkGenesis G includeGenesis
          ⟨.load d.hashes, .variable, .load [], .load d.raw, .load offsets⟩
      else checkGenesis G includeGenesis fixed

/-- The storage gives the kernels back: their number, and each at its place. -/
def GivesBack (s : KernelStorage) (kernels : List TransactionKernel) : Prop :=
  s.getNumKernels = kernels.length ∧ ∀ i k, kernels[i]? = some k → s.getKernelAt i = .ok (some k)

/-- **What loading is for**: it gives the kernels back. -/
def Recovers (includeGenesis : Bool) (d : KernelDirectory) (kernels : List TransactionKernel) :
    Prop :=
  ∃ s, load G includeGenesis d = .ok s ∧ GivesBack s kernels

/-- The directory of a received archive with these kernels, in the form of a version. -/
def archive (hashes : List Hash) (version : EProtocolVersion) (kernels : List TransactionKernel) :
    KernelDirectory :=
  ⟨hashes, kernels.flatMap fun k => k.serialized version, none⟩

/-! ### Records of the first form -/

variable {G} {s : KernelStorage} {kernels committed : List TransactionKernel}

theorem fixedRecords_flatMap (kernels : List TransactionKernel) :
    fixedRecords kernels.length (kernels.flatMap TransactionKernel.serialize) =
      kernels.map record := by
  induction kernels with
  | nil => rfl
  | cons k kernels ih =>
    have hrun := run_readBigInteger (record k) (kernels.flatMap TransactionKernel.serialize)
    rw [List.flatMap_cons, List.length_cons, fixedRecords,
      show k.serialize = (record k).bytes from rfl, hrun]
    exact congrArg (record k :: ·) ih

theorem length_fixedRecords {n : ℕ} {bytes : List UInt8} (h : 114 * n ≤ bytes.length) :
    (fixedRecords n bytes).length = n := by
  induction n generalizing bytes with
  | zero => rfl
  | succ n ih =>
    obtain ⟨record, hrun⟩ := takes_readBigInteger 114 bytes (by omega)
    rw [fixedRecords, hrun]
    exact congrArg Nat.succ (ih (by rw [List.length_drop]; omega))

theorem length_flatMap_serialize (kernels : List TransactionKernel) :
    (kernels.flatMap TransactionKernel.serialize).length = 114 * kernels.length := by
  induction kernels with
  | nil => rfl
  | cons k kernels ih =>
    rw [List.flatMap_cons, List.length_append, ih, k.length_serialize, List.length_cons]
    ring

/-! ### Records of the second form -/

/-- The bytes of a record of the second form. -/
def recordSize (k : TransactionKernel) : ℕ :=
  if k.features = .coinbaseKernel then 98
  else if k.features = .defaultKernel then 106
  else if k.features = .heightLocked then 114
  else 108

theorem length_serialized_v2 {k : TransactionKernel} (hknown : k.features.value.toNat ≤ 3) :
    (k.serialized .v2).length = recordSize k := by
  have hbytes := congrArg List.length (TransactionKernel.serialized_v2 hknown [])
  rw [List.append_nil] at hbytes
  rw [hbytes]
  simp only [List.length_cons, List.length_append, List.length_nil, k.excessCommitment.length_eq,
    k.excessSignature.length_eq, TransactionKernel.feeBytes, TransactionKernel.heightBytes,
    recordSize]
  by_cases h2 : k.features = .heightLocked
  · simp [h2, KernelFeatures.heightLocked, KernelFeatures.coinbaseKernel,
      KernelFeatures.defaultKernel]
  · by_cases h3 : k.features = .noRecentDuplicate
    · simp [h3, KernelFeatures.heightLocked, KernelFeatures.coinbaseKernel,
        KernelFeatures.defaultKernel, KernelFeatures.noRecentDuplicate]
    · rcases TransactionKernel.features_cases hknown (not_or.mpr ⟨h2, h3⟩) with h | h
      · simp [h, KernelFeatures.heightLocked, KernelFeatures.coinbaseKernel,
          KernelFeatures.defaultKernel, KernelFeatures.noRecentDuplicate]
      · simp [h, KernelFeatures.heightLocked, KernelFeatures.coinbaseKernel,
          KernelFeatures.noRecentDuplicate]

theorem recordSize_bounds (k : TransactionKernel) : 98 ≤ recordSize k ∧ recordSize k ≤ 114 := by
  rw [recordSize]
  split_ifs <;> omega

/-- Only a height-locked kernel fills a record of the first form. -/
theorem recordSize_lt {k : TransactionKernel} (h : k.features ≠ .heightLocked) :
    recordSize k < 114 := by
  rw [recordSize, if_neg h]
  split_ifs <;> omega

/-- A height-locked kernel has the same form in both versions. -/
theorem serialized_heightLocked {k : TransactionKernel} (h : k.features = .heightLocked) :
    k.serialized .v2 = k.serialize := by
  rw [TransactionKernel.serialized, if_neg (by decide), if_neg (by rw [h]; decide),
    if_neg (by rw [h]; decide), if_pos h]
  simp [TransactionKernel.serialize]

/-- The size of a file of records of the second form. -/
def rawSize (kernels : List TransactionKernel) : ℕ :=
  (kernels.map recordSize).sum

theorem length_rawBytes (hknown : ∀ k ∈ kernels, k.features.value.toNat ≤ 3) :
    (rawBytes kernels).length = rawSize kernels := by
  induction kernels with
  | nil => rfl
  | cons k kernels ih =>
    obtain ⟨hk, hrest⟩ := List.forall_mem_cons.mp hknown
    rw [rawBytes, List.flatMap_cons, List.length_append, length_serialized_v2 hk, rawSize,
      List.map_cons, List.sum_cons]
    exact congrArg _ (ih hrest)

theorem rawSize_le (kernels : List TransactionKernel) : rawSize kernels ≤ 114 * kernels.length := by
  induction kernels with
  | nil => rfl
  | cons k kernels ih =>
    have hk := (recordSize_bounds k).2
    rw [rawSize] at ih
    rw [rawSize, List.map_cons, List.sum_cons, List.length_cons]
    omega

theorem rawSize_lt (h : ∃ k ∈ kernels, k.features ≠ .heightLocked) :
    rawSize kernels < 114 * kernels.length := by
  obtain ⟨k, hk, hne⟩ := h
  obtain ⟨before, behind, rfl⟩ := List.append_of_mem hk
  have hlt := recordSize_lt hne
  have hbefore := rawSize_le before
  have hbehind := rawSize_le behind
  rw [rawSize] at hbefore hbehind
  rw [rawSize, List.map_append, List.sum_append, List.map_cons, List.sum_cons, List.length_append,
    List.length_cons]
  omega

theorem rawSize_pos (h : kernels ≠ []) : 0 < rawSize kernels := by
  obtain ⟨k, kernels, rfl⟩ := List.exists_cons_of_ne_nil h
  have hk := (recordSize_bounds k).1
  rw [rawSize, List.map_cons, List.sum_cons]
  omega

theorem offsets_cons (k : TransactionKernel) (kernels : List TransactionKernel) :
    offsets (k :: kernels) = 0 :: (offsets kernels).map ((k.serialized .v2).length + ·) := by
  rw [offsets, List.length_cons, List.range_succ_eq_map, List.map_cons, List.map_map, offsets,
    List.map_map]
  congr 1
  refine List.map_congr_left fun i _ => ?_
  simp [rawBytes]

/-- **The streaming parse finds the offsets**: of valid kernels with named features, whatever
their sizes are. -/
theorem buildKernelOffsets_rawBytes
    (hknown : ∀ k ∈ kernels, k.features.value.toNat ≤ 3 ∧ k.RelativeHeightValid) {fuel : ℕ}
    (hfuel : (rawBytes kernels).length ≤ fuel) (offset : ℕ) :
    buildKernelOffsets fuel offset (rawBytes kernels) =
      .ok ((offsets kernels).map (offset + ·)) := by
  induction kernels generalizing fuel offset with
  | nil =>
    cases fuel with
    | zero => rfl
    | succ fuel => rfl
  | cons k kernels ih =>
    obtain ⟨⟨hk, hvalid⟩, hrest⟩ := List.forall_mem_cons.mp hknown
    have hpos := k.length_serialized_pos .v2
    have hbytes : rawBytes (k :: kernels) = k.serialized .v2 ++ rawBytes kernels := by
      simp [rawBytes]
    rw [hbytes, List.length_append] at hfuel
    obtain ⟨fuel, rfl⟩ : ∃ fuel', fuel = fuel' + 1 := ⟨fuel - 1, by omega⟩
    have hempty : (k.serialized .v2 ++ rawBytes kernels).isEmpty = false := by
      rw [List.isEmpty_eq_false_iff, ← List.length_pos_iff, List.length_append]
      omega
    have hconsumed : (k.serialized .v2 ++ rawBytes kernels).length - (rawBytes kernels).length =
        (k.serialized .v2).length := by
      rw [List.length_append]
      omega
    rw [hbytes, buildKernelOffsets, hempty, if_neg (by decide),
      TransactionKernel.run_deserialize_v2 hvalid hk]
    dsimp only
    rw [hconsumed, if_neg (by rw [List.length_append]; omega), ih hrest (by omega), ok_bind,
      offsets_cons]
    simp [Function.comp_def, Nat.add_assoc]

/-! ### The storage in front of the repair -/

theorem stores_fixed {hashes : List Hash}
    (h : IsRangeOf G hashes (kernels.map TransactionKernel.serialize)) :
    Stores G ⟨.load hashes, .fixed, .load (kernels.map record), .load [], .load []⟩
      kernels kernels where
  range := by rwa [DataFile.contents_load]
  range_committed := h
  fixed _ := ⟨DataFile.contents_load _, rfl⟩
  raw hv := by cases hv
  offset hv := by cases hv

theorem stores_variable {hashes : List Hash}
    (h : IsRangeOf G hashes (kernels.map TransactionKernel.serialize)) :
    Stores G ⟨.load hashes, .variable, .load [], .load (rawBytes kernels), .load (offsets kernels)⟩
      kernels kernels where
  range := by rwa [DataFile.contents_load]
  range_committed := h
  fixed hf := by cases hf
  raw _ := ⟨AppendOnlyFile.contents_load _, rfl⟩
  offset _ := ⟨DataFile.contents_load _, rfl⟩

theorem Stores.getSize_eq (h : Stores G s kernels committed) :
    s.getSize = leafPos kernels.length := by
  rw [getSize, DataFile.getSize_eq, h.range.length_eq, List.length_map]

theorem Stores.getSize_eq_one_iff (h : Stores G s kernels committed) :
    s.getSize = 1 ↔ kernels.length = 1 := by
  rw [h.getSize_eq]
  exact leafPos_strictMono.injective.eq_iff (b := 1)

/-- The root of the first leaf is its hash. -/
theorem Stores.root_one {k : TransactionKernel} (h : Stores G s (k :: kernels) committed) :
    s.root G 1 = .ok (hashLeafWithIndex G k.serialize 0) := by
  have hleaf : s.hashFile.contents[0]? = some (hashLeafWithIndex G k.serialize 0) :=
    h.range.leaf 0 k.serialize rfl
  have hpeaks : getPeakIndices 1 = [0] := by decide
  have hread : peakHashes s.hashFile.contents none [0] =
      .ok [hashLeafWithIndex G k.serialize 0] :=
    peakHashes_eq_ok.mpr (.cons hleaf .nil)
  rw [root, MMRHashUtil.root, if_neg (by decide), hpeaks, hread, ok_bind, bag, bag, if_pos rfl]
  split
  · next hzero => rw [hzero]
  · rfl

/-- How a kernel is read in each of the formats. -/
def readAs (format : KernelStorageFormat) (k : TransactionKernel) : TransactionKernel :=
  if format = .fixed then k else k.stripped

theorem readAs_of_canonical {k : TransactionKernel} (format : KernelStorageFormat)
    (h : k.Canonical) : readAs format k = k := by
  rw [readAs, h.stripped_eq, ite_self]

theorem Stores.getKernelAt_readAs (h : Stores G s kernels committed) {i : ℕ}
    {k : TransactionKernel} (hi : kernels[i]? = some k) (hvalid : k.RelativeHeightValid)
    (hknown : k.features.value.toNat ≤ 3) :
    s.getKernelAt i = .ok (some (readAs s.storageFormat k)) := by
  rw [readAs]
  split
  · next hf => exact h.getKernelAt_fixed hf hi hvalid
  · next hf =>
    rw [h.getKernelAt_variable (KernelStorageFormat.cases_ne hf) hi,
      deserializeKernel_stripped hvalid hknown]
    rfl

/-- Whatever the storage is, a kernel that it gives back was accepted. -/
theorem relativeHeightValid_of_getKernelAt {i : ℕ} {k : TransactionKernel}
    (h : s.getKernelAt i = .ok (some k)) : k.RelativeHeightValid := by
  have hread : ∀ {data : List UInt8} {version : EProtocolVersion},
      (version = .v1 ∨ version = .v2) → deserializeKernel data version = .ok k →
        k.RelativeHeightValid := by
    intro data version hversion hdata
    rcases hrun : run (TransactionKernel.deserialize version) data with ⟨r, rest⟩
    rw [deserializeKernel, hrun] at hdata
    dsimp only at hdata
    rw [hdata] at hrun
    exact TransactionKernel.Accepted.relativeHeightValid ⟨version, data, rest, hversion, hrun⟩
  rw [getKernelAt] at h
  split at h
  · cases h
  · obtain ⟨recordSize, -, h⟩ := of_bind_eq_ok h
    split at h
    · cases h
    · split at h
      · obtain ⟨data, -, h⟩ := of_bind_eq_ok h
        obtain ⟨kernel, hkernel, h⟩ := of_bind_eq_ok h
        cases h
        exact hread (.inl rfl) hkernel
      · obtain ⟨offset, -, h⟩ := of_bind_eq_ok h
        split at h
        · cases h
        · obtain ⟨kernel, hkernel, h⟩ := of_bind_eq_ok h
          cases h
          exact hread (.inr rfl) hkernel

/-! ### The repair -/

variable (G) in
/-- The kernel of the genesis block, as both genesis blocks have it: the kernel of a reward,
without fee and height. -/
def GenesisCoinbase : Prop :=
  ∀ g, G.genesisBlock.body.kernels.head? = some g → g.features = .coinbaseKernel ∧ g.Canonical

variable (G) in
/-- The range has one kernel, which is not the one that the genesis header commits to. -/
def WrongGenesis (kernels : List TransactionKernel) : Prop :=
  ∃ k, kernels = [k] ∧ hashLeafWithIndex G k.serialize 0 ≠ G.genesisBlock.header.kernelRoot

variable {includeGenesis : Bool}

/-- When the first kernel can be read, the check only compares hashes. -/
theorem Stores.genesisInconsistent_eq {k k' : TransactionKernel}
    (h : Stores G s (k :: kernels) committed) (hread : s.getKernelAt 0 = .ok (some k')) :
    genesisInconsistent G s =
      .ok (decide (hashLeafWithIndex G k.serialize 0 ≠ G.genesisBlock.header.kernelRoot)) := by
  rw [genesisInconsistent, hread, ok_bind]
  dsimp only
  rw [h.root_one, ok_bind]

theorem Stores.checkGenesis_of_not (h : Stores G s kernels committed) (hne : kernels ≠ [])
    {k' : TransactionKernel} (hread : s.getKernelAt 0 = .ok (some k'))
    (hright : includeGenesis = true → ¬WrongGenesis G kernels) :
    checkGenesis G includeGenesis s = .ok s := by
  obtain ⟨k, kernels, rfl⟩ := List.exists_cons_of_ne_nil hne
  rw [checkGenesis]
  split
  · next hinclude =>
    rw [h.genesisInconsistent_eq hread, ok_bind, if_neg]
    rintro ⟨hwrong, hsize⟩
    rw [decide_eq_true_iff] at hwrong
    rw [h.getSize_eq_one_iff, List.length_cons] at hsize
    have hnil : kernels = [] := List.eq_nil_of_length_eq_zero (by omega)
    exact hright hinclude.1 ⟨k, by rw [hnil], hwrong⟩
  · rfl

/-- A wrong kernel is replaced by the one of the genesis block. -/
theorem Stores.checkGenesis_of_wrong (h : Stores G s kernels committed)
    (hwrong : WrongGenesis G kernels) {k' : TransactionKernel}
    (hread : s.getKernelAt 0 = .ok (some k')) {g : TransactionKernel}
    (hg : G.genesisBlock.body.kernels.head? = some g) :
    ∃ s', checkGenesis G true s = .ok s' ∧ s'.storageFormat = s.storageFormat ∧
      Stores G s' [g] committed := by
  obtain ⟨k, rfl, hne⟩ := hwrong
  have hsize : s.getSize = 1 := h.getSize_eq_one_iff.mpr rfl
  obtain ⟨s₁, hrewind, hformat₁, hstores₁⟩ := h.run_rewind_of_le (Nat.zero_le _)
  obtain ⟨s₂, happly, hformat₂, hstores₂⟩ := hstores₁.run_applyKernel g
  refine ⟨s₂, ?_, hformat₂.trans hformat₁, hstores₂⟩
  rw [checkGenesis, if_pos ⟨rfl, hsize.ge⟩, h.genesisInconsistent_eq hread, ok_bind,
    if_pos ⟨decide_eq_true hne, hsize⟩, outcome, hrewind, ok_bind, applyGenesis, hg, orThrow,
    ok_bind, outcome, happly]

theorem Stores.checkGenesis_of_none (h : Stores G s kernels committed)
    (hwrong : WrongGenesis G kernels) {k' : TransactionKernel}
    (hread : s.getKernelAt 0 = .ok (some k'))
    (hg : G.genesisBlock.body.kernels.head? = none) :
    checkGenesis G true s = .error .undefined := by
  obtain ⟨k, rfl, hne⟩ := hwrong
  have hsize : s.getSize = 1 := h.getSize_eq_one_iff.mpr rfl
  obtain ⟨s₁, hrewind, -, -⟩ := h.run_rewind_of_le (Nat.zero_le _)
  rw [checkGenesis, if_pos ⟨rfl, hsize.ge⟩, h.genesisInconsistent_eq hread, ok_bind,
    if_pos ⟨decide_eq_true hne, hsize⟩, outcome, hrewind, ok_bind, applyGenesis, hg, orThrow]
  rfl

theorem Stores.givesBack_iff (h : Stores G s kernels committed)
    (hknown : ∀ k ∈ kernels, k.features.value.toNat ≤ 3 ∧ k.RelativeHeightValid) :
    GivesBack s kernels ↔ ∀ k ∈ kernels, readAs s.storageFormat k = k := by
  have hread : ∀ i k, kernels[i]? = some k →
      s.getKernelAt i = .ok (some (readAs s.storageFormat k)) := by
    intro i k hi
    obtain ⟨hk, hvalid⟩ := hknown k (List.mem_of_getElem? hi)
    exact h.getKernelAt_readAs hi hvalid hk
  constructor
  · rintro ⟨-, hback⟩ k hk
    obtain ⟨i, hi⟩ := List.mem_iff_getElem?.mp hk
    have heq := hback i k hi
    rw [hread i k hi] at heq
    exact Option.some.inj (Except.ok.inj heq)
  · intro hsame
    refine ⟨h.getNumKernels_eq, fun i k hi => ?_⟩
    rw [hread i k hi, hsame k (List.mem_of_getElem? hi)]

/-- The check leaves a storage that gives the kernels back exactly when the format keeps them,
and the only kernel, if it is one, is right. -/
theorem Stores.checkGenesis_givesBack_iff (hgenesis : GenesisCoinbase G)
    (h : Stores G s kernels committed) (hne : kernels ≠ [])
    (hknown : ∀ k ∈ kernels, k.features.value.toNat ≤ 3 ∧ k.RelativeHeightValid) :
    (∃ s', checkGenesis G includeGenesis s = .ok s' ∧ GivesBack s' kernels) ↔
      (∀ k ∈ kernels, readAs s.storageFormat k = k) ∧
        (includeGenesis = true → WrongGenesis G kernels →
          G.genesisBlock.body.kernels.head? = kernels.head?) := by
  obtain ⟨k₀, hk₀⟩ : ∃ k, kernels[0]? = some k := by
    obtain ⟨k, kernels, rfl⟩ := List.exists_cons_of_ne_nil hne
    exact ⟨k, rfl⟩
  have hmem := List.mem_of_getElem? hk₀
  have hread := h.getKernelAt_readAs hk₀ (hknown k₀ hmem).2 (hknown k₀ hmem).1
  by_cases hwrong : includeGenesis = true ∧ WrongGenesis G kernels
  · obtain ⟨rfl, hwrong⟩ := hwrong
    obtain ⟨k, rfl, -⟩ := id hwrong
    rcases hg : G.genesisBlock.body.kernels.head? with _ | g
    · rw [h.checkGenesis_of_none hwrong hread hg]
      constructor
      · rintro ⟨s', heq, -⟩
        cases heq
      · rintro ⟨-, hhead⟩
        cases hhead rfl hwrong
    · -- What is read now is the genesis kernel.
      obtain ⟨s', hcheck, hformat, hstores⟩ := h.checkGenesis_of_wrong hwrong hread hg
      obtain ⟨hcoinbase, hcanonical⟩ := hgenesis g hg
      have hvalid : g.RelativeHeightValid := by
        intro hf
        rw [hcoinbase] at hf
        exact absurd hf (by decide)
      have hreadg : s'.getKernelAt 0 = .ok (some g) := by
        rw [hstores.getKernelAt_readAs (i := 0) rfl hvalid hcanonical.known,
          readAs_of_canonical _ hcanonical]
      rw [hcheck]
      constructor
      · rintro ⟨_, hs', hback⟩
        cases hs'
        have heq := hback.2 0 k rfl
        rw [hreadg] at heq
        obtain rfl : g = k := Option.some.inj (Except.ok.inj heq)
        refine ⟨?_, fun _ _ => rfl⟩
        rintro k hk
        rw [List.mem_singleton.mp hk]
        exact readAs_of_canonical _ hcanonical
      · rintro ⟨-, hhead⟩
        obtain rfl : g = k := Option.some.inj (hhead rfl hwrong)
        refine ⟨s', rfl, (hstores.givesBack_iff hknown).mpr ?_⟩
        intro k hk
        rw [List.mem_singleton.mp hk]
        exact readAs_of_canonical _ hcanonical
  · have hright : includeGenesis = true → ¬WrongGenesis G kernels :=
      fun hinclude hw => hwrong ⟨hinclude, hw⟩
    rw [h.checkGenesis_of_not hne hread hright, ← h.givesBack_iff hknown]
    constructor
    · rintro ⟨_, hs', hback⟩
      cases hs'
      exact ⟨hback, fun hinclude hw => absurd hw (hright hinclude)⟩
    · rintro ⟨hback, -⟩
      exact ⟨s, rfl, hback⟩

/-! ### Which archives are recovered -/

theorem load_eq_fixed {hashes : List Hash} {raw : List UInt8} (hhashes : hashes ≠ [])
    (hraw : raw.length % 114 = 0) :
    load G includeGenesis ⟨hashes, raw, none⟩ =
      checkGenesis G includeGenesis
        ⟨.load hashes, .fixed, .load (fixedRecords (raw.length / 114) raw), .load [],
          .load []⟩ := by
  rw [load, if_neg hhashes]
  dsimp only
  rw [if_neg (not_not.mpr hraw)]

theorem load_eq_variable {hashes : List Hash} {raw : List UInt8} {offsets : List ℕ}
    (hhashes : hashes ≠ []) (hraw : raw.length % 114 ≠ 0)
    (hoffsets : buildKernelOffsetsFromRawFile raw = .ok offsets) :
    load G includeGenesis ⟨hashes, raw, none⟩ =
      checkGenesis G includeGenesis
        ⟨.load hashes, .variable, .load [], .load raw, .load offsets⟩ := by
  rw [load, if_neg hhashes]
  dsimp only
  rw [if_pos hraw, hoffsets, ok_bind]

/-- A range of several hashes is never rebuilt. -/
theorem eq_of_checkGenesis {s' : KernelStorage} (hsize : s.getSize ≠ 1)
    (h : checkGenesis G includeGenesis s = .ok s') : s' = s := by
  rw [checkGenesis] at h
  split at h
  · obtain ⟨inconsistent, -, h⟩ := of_bind_eq_ok h
    rw [if_neg fun hboth => hsize hboth.2] at h
    exact (Except.ok.inj h).symm
  · exact (Except.ok.inj h).symm

variable (G) in
/-- The archives that are recovered. The relative heights are those that reading accepts; in the
second form the kernels have nothing in the fields that are left out, and the size of the file is
not taken for the first form – unless all kernels are height-locked, when the two forms are the
same; and a range of one kernel has the right one. -/
structure Recoverable (version : EProtocolVersion) (includeGenesis : Bool)
    (kernels : List TransactionKernel) : Prop where
  /-- Relative heights are within a week. -/
  valid : ∀ k ∈ kernels, k.RelativeHeightValid
  /-- Nothing is left out in the second form. -/
  canonical : version = .v2 → ∀ k ∈ kernels, k.Canonical
  /-- The guess of the format is right, or makes no difference. -/
  format : version = .v2 → rawSize kernels % 114 ≠ 0 ∨ ∀ k ∈ kernels, k.features = .heightLocked
  /-- The only kernel is the one of the genesis block, or has its hash. -/
  genesis : includeGenesis = true → WrongGenesis G kernels →
    G.genesisBlock.body.kernels.head? = kernels.head?

section Recoverable

variable {hashes : List Hash} {version : EProtocolVersion}

theorem hashes_ne_nil (hne : kernels ≠ [])
    (h : IsRangeOf G hashes (kernels.map TransactionKernel.serialize)) : hashes ≠ [] := by
  rintro rfl
  have hlen := h.length_eq
  rw [List.length_map] at hlen
  have hpos : leafPos 0 < leafPos kernels.length :=
    leafPos_strictMono (List.length_pos_iff.mpr hne)
  rw [← hlen] at hpos
  exact absurd hpos (Nat.not_lt_zero _)

/-- A file that is the records of the first form is recovered when the genesis kernel is right. -/
theorem recovers_fixed_iff (hgenesis : GenesisCoinbase G) (hne : kernels ≠ [])
    (hknown : ∀ k ∈ kernels, k.features.value.toNat ≤ 3 ∧ k.RelativeHeightValid)
    (hrange : IsRangeOf G hashes (kernels.map TransactionKernel.serialize)) :
    Recovers G includeGenesis ⟨hashes, kernels.flatMap TransactionKernel.serialize, none⟩ kernels ↔
      (includeGenesis = true → WrongGenesis G kernels →
        G.genesisBlock.body.kernels.head? = kernels.head?) := by
  have hlength := length_flatMap_serialize kernels
  have hcount : 114 * kernels.length / 114 = kernels.length := Nat.mul_div_cancel_left _ (by decide)
  rw [Recovers, load_eq_fixed (hashes_ne_nil hne hrange) (by rw [hlength]; omega), hlength, hcount,
    fixedRecords_flatMap, (stores_fixed hrange).checkGenesis_givesBack_iff hgenesis hne hknown]
  exact and_iff_right fun k _ => rfl

theorem recovers_variable_iff (hgenesis : GenesisCoinbase G) (hne : kernels ≠ [])
    (hknown : ∀ k ∈ kernels, k.features.value.toNat ≤ 3 ∧ k.RelativeHeightValid)
    (hrange : IsRangeOf G hashes (kernels.map TransactionKernel.serialize))
    (hraw : rawSize kernels % 114 ≠ 0) :
    Recovers G includeGenesis ⟨hashes, rawBytes kernels, none⟩ kernels ↔
      (∀ k ∈ kernels, k.Canonical) ∧
        (includeGenesis = true → WrongGenesis G kernels →
          G.genesisBlock.body.kernels.head? = kernels.head?) := by
  have hlength := length_rawBytes fun k hk => (hknown k hk).1
  have hoffsets : buildKernelOffsetsFromRawFile (rawBytes kernels) = .ok (offsets kernels) := by
    rw [buildKernelOffsetsFromRawFile, buildKernelOffsets_rawBytes hknown le_rfl]
    simp
  rw [Recovers, load_eq_variable (hashes_ne_nil hne hrange) (by rwa [hlength]) hoffsets,
    (stores_variable hrange).checkGenesis_givesBack_iff hgenesis hne hknown]
  refine and_congr_left fun _ => forall₂_congr fun k hk => ?_
  constructor
  · exact TransactionKernel.canonical_of_stripped (hknown k hk).1
  · exact fun hcanonical => hcanonical.stripped_eq

/-- Records of the second form that are taken for the first are fewer than the kernels. -/
theorem not_recovers_of_mod_eq_zero (hne : kernels ≠ [])
    (hknown : ∀ k ∈ kernels, k.features.value.toNat ≤ 3)
    (hrange : IsRangeOf G hashes (kernels.map TransactionKernel.serialize))
    (hraw : rawSize kernels % 114 = 0) (hshort : ∃ k ∈ kernels, k.features ≠ .heightLocked) :
    ¬Recovers G includeGenesis ⟨hashes, rawBytes kernels, none⟩ kernels := by
  have hlength := length_rawBytes hknown
  have hlt := rawSize_lt hshort
  have hpos := rawSize_pos hne
  rintro ⟨s, hload, hnum, -⟩
  rw [load_eq_fixed (hashes_ne_nil hne hrange) (by rw [hlength]; exact hraw)] at hload
  have hsize : getSize ⟨.load hashes, .fixed,
      .load (fixedRecords ((rawBytes kernels).length / 114) (rawBytes kernels)), .load [],
      .load []⟩ ≠ 1 := by
    rw [getSize, DataFile.getSize_eq, DataFile.contents_load, hrange.length_eq, List.length_map]
    have hmany : leafPos 1 < leafPos kernels.length := leafPos_strictMono (by omega)
    exact hmany.ne'
  rw [eq_of_checkGenesis hsize hload, getNumKernels, if_pos rfl, DataFile.getSize_eq,
    DataFile.contents_load, length_fixedRecords (by omega), hlength] at hnum
  omega

/-- **Loading an archive gives its kernels back exactly when the archive is recoverable.** -/
theorem load_recovers_iff (hgenesis : GenesisCoinbase G) (hne : kernels ≠ [])
    (hknown : ∀ k ∈ kernels, k.features.value.toNat ≤ 3)
    (hrange : IsRangeOf G hashes (kernels.map TransactionKernel.serialize))
    (hversion : version = .v1 ∨ version = .v2) :
    Recovers G includeGenesis (archive hashes version kernels) kernels ↔
      Recoverable G version includeGenesis kernels := by
  by_cases hvalid : ∀ k ∈ kernels, k.RelativeHeightValid
  · have hboth : ∀ k ∈ kernels, k.features.value.toNat ≤ 3 ∧ k.RelativeHeightValid :=
      fun k hk => ⟨hknown k hk, hvalid k hk⟩
    rcases hversion with rfl | rfl
    · rw [show archive hashes .v1 kernels =
        ⟨hashes, kernels.flatMap TransactionKernel.serialize, none⟩ from rfl,
        recovers_fixed_iff hgenesis hne hboth hrange]
      constructor
      · intro hright
        refine ⟨hvalid, ?_, ?_, hright⟩
        · rintro ⟨⟩
        · rintro ⟨⟩
      · intro h
        exact h.genesis
    · rw [show archive hashes .v2 kernels = ⟨hashes, rawBytes kernels, none⟩ from rfl]
      by_cases hraw : rawSize kernels % 114 = 0
      · by_cases hlocked : ∀ k ∈ kernels, k.features = .heightLocked
        · -- The two forms are the same, and the guess makes no difference.
          have hsame : rawBytes kernels = kernels.flatMap TransactionKernel.serialize :=
            List.flatMap_congr fun k hk => serialized_heightLocked (hlocked k hk)
          rw [hsame, recovers_fixed_iff hgenesis hne hboth hrange]
          constructor
          · intro hright
            refine ⟨hvalid, fun _ k hk => ⟨hknown k hk, ?_, ?_⟩, fun _ => .inr hlocked, hright⟩
            · intro hf
              exact absurd ((hlocked k hk).symm.trans hf) (by decide)
            · rintro (hf | hf)
              · exact absurd ((hlocked k hk).symm.trans hf) (by decide)
              · exact absurd ((hlocked k hk).symm.trans hf) (by decide)
          · intro h
            exact h.genesis
        · refine iff_of_false ?_ ?_
          · exact not_recovers_of_mod_eq_zero hne hknown hrange hraw (by simpa using hlocked)
          · intro h
            rcases h.format rfl with hne | hall
            · exact hne hraw
            · exact hlocked hall
      · rw [recovers_variable_iff hgenesis hne hboth hrange hraw]
        constructor
        · rintro ⟨hcanonical, hright⟩
          exact ⟨hvalid, fun _ => hcanonical, fun _ => .inl hraw, hright⟩
        · intro h
          exact ⟨h.canonical rfl, h.genesis⟩
  · refine iff_of_false ?_ fun h => hvalid h.valid
    rintro ⟨s, -, -, hback⟩
    refine hvalid fun k hk => ?_
    obtain ⟨i, hi⟩ := List.mem_iff_getElem?.mp hk
    exact relativeHeightValid_of_getKernelAt (hback i k hi)

open SmallNet

theorem genesisCoinbase_smallNet : GenesisCoinbase (smallNet .mainnet) := by
  intro g hg
  obtain rfl : coinbaseKernel 1 = g := Option.some.inj hg
  exact ⟨rfl, by decide⟩

/-- An archive with the genesis kernel alone. -/
theorem load_recovers_iff_coinbaseKernel :
    ∃ hashes, IsRangeOf (smallNet .mainnet) hashes
        ([coinbaseKernel 1].map TransactionKernel.serialize) ∧
      Recovers (smallNet .mainnet) true (archive hashes .v2 [coinbaseKernel 1])
        [coinbaseKernel 1] := by
  obtain ⟨hashes, hrange⟩ := exists_isRangeOf (smallNet .mainnet)
    ([coinbaseKernel 1].map TransactionKernel.serialize)
  have hcanonical : (coinbaseKernel 1).Canonical := by decide
  have hrecoverable : Recoverable (smallNet .mainnet) .v2 true [coinbaseKernel 1] := by
    refine ⟨?_, ?_, fun _ => .inl (by decide), fun _ _ => rfl⟩
    · intro k hk hf
      rw [List.mem_singleton.mp hk] at hf
      exact absurd hf (by decide)
    · intro _ k hk
      rwa [List.mem_singleton.mp hk]
  refine ⟨hashes, hrange, (load_recovers_iff genesisCoinbase_smallNet (List.cons_ne_nil _ _) ?_
    hrange (.inr rfl)).mpr hrecoverable⟩
  intro k hk
  rw [List.mem_singleton.mp hk]
  exact hcanonical.known

/-- 57 coinbase kernels in the second form have the size of 49 records of the first. -/
theorem not_recovers_coinbaseKernels :
    ∃ hashes, IsRangeOf (smallNet .mainnet) hashes
        ((List.replicate 57 (coinbaseKernel 1)).map TransactionKernel.serialize) ∧
      ¬Recovers (smallNet .mainnet) true
        (archive hashes .v2 (List.replicate 57 (coinbaseKernel 1)))
        (List.replicate 57 (coinbaseKernel 1)) := by
  obtain ⟨hashes, hrange⟩ := exists_isRangeOf (smallNet .mainnet)
    ((List.replicate 57 (coinbaseKernel 1)).map TransactionKernel.serialize)
  have hcanonical : (coinbaseKernel 1).Canonical := by decide
  have hmem : coinbaseKernel 1 ∈ List.replicate 57 (coinbaseKernel 1) := by simp
  refine ⟨hashes, hrange, not_recovers_of_mod_eq_zero (List.ne_nil_of_mem hmem) ?_ hrange ?_
    ⟨_, hmem, by decide⟩⟩
  · intro k hk
    rw [List.eq_of_mem_replicate hk]
    exact hcanonical.known
  · decide +kernel

end Recoverable

end KernelStorage

end GrinPlusPlus
