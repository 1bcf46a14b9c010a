import GrinPlusPlus.Core.File
import GrinPlusPlus.Core.Serialization
import GrinPlusPlus.Core.SmallNet
import GrinPlusPlus.Pmmr.PruneableMMR

/-!
# The two storage formats of the kernel range

`KernelMMR` with its files as they are: records of 114 bytes, or records of the second form
one behind the other with a file of their offsets. The hashes are the same in both, so the
question is what is read back.

`GrinPlusPlus.KernelStorage.Stores` says which kernels a storage holds, in its files and on
the disk, in either format; every operation keeps it for the list it should
(`GrinPlusPlus.KernelStorage.Stores.step`). Reading a kernel then is one of the two round trips
of `GrinPlusPlus.Core.Serialization`: the fixed format gives back the kernel, the variable one
the kernel without the fields its features make irrelevant. The formats are therefore
interchangeable exactly on canonical kernels
(`GrinPlusPlus.KernelStorage.interchangeable_iff`). What `TransactionKernel::Deserialize`
accepts is more than that.
-/

namespace GrinPlusPlus

open Exec MMRHashUtil PostOrder Mountain

/-- `KernelMMR::KernelStorageFormat`. -/
inductive KernelStorageFormat
  | fixed
  | variable
deriving DecidableEq

/-- The files of `KernelMMR`; those that do not belong to the format are not touched. An offset
is the size of a file, which its eight bytes hold. -/
structure KernelStorage where
  /-- `m_pHashFile`. -/
  hashFile : DataFile Hash
  /-- `m_storageFormat`. -/
  storageFormat : KernelStorageFormat
  /-- `m_pFixedDataFile`. -/
  fixedDataFile : DataFile (CBigInteger 114)
  /-- `m_pVariableDataFile`. -/
  variableDataFile : AppendOnlyFile UInt8
  /-- `m_pOffsetFile`. -/
  offsetFile : DataFile ℕ

namespace KernelStorage

/-- A storage with empty files. -/
def empty (format : KernelStorageFormat) : KernelStorage :=
  ⟨.load [], format, .load [], .load [], .load []⟩

/-! ### The files of a storage -/

/-- The file of hashes. -/
def hashPart : Part KernelStorage (DataFile Hash) where
  get s := s.hashFile
  set f s := { s with hashFile := f }
  get_set _ _ := rfl
  set_get _ := rfl

/-- The file of fixed records. -/
def fixedDataPart : Part KernelStorage (DataFile (CBigInteger 114)) where
  get s := s.fixedDataFile
  set f s := { s with fixedDataFile := f }
  get_set _ _ := rfl
  set_get _ := rfl

/-- The file of offsets. -/
def offsetPart : Part KernelStorage (DataFile ℕ) where
  get s := s.offsetFile
  set f s := { s with offsetFile := f }
  get_set _ _ := rfl
  set_get _ := rfl

/-! ### The operations -/

/-- `KernelMMR::GetNumKernels`. -/
def getNumKernels (s : KernelStorage) : ℕ :=
  if s.storageFormat = .fixed then s.fixedDataFile.getSize else s.offsetFile.getSize

/-- `KernelMMR::GetKernelOffset`. -/
def getKernelOffset (leafIndex : ℕ) (s : KernelStorage) : Except Exc ℕ :=
  if s.storageFormat = .fixed then .ok (leafIndex * 114)
  else if s.offsetFile.getSize ≤ leafIndex then .ok s.variableDataFile.getSize
  else s.offsetFile.getDataAt leafIndex

/-- The end of a record, in `KernelMMR::GetKernelRecordSize`. -/
def getEndOffset (leafIndex : ℕ) (s : KernelStorage) : Except Exc ℕ :=
  if leafIndex + 1 < s.getNumKernels then s.getKernelOffset (leafIndex + 1)
  else if s.storageFormat = .fixed then .ok (s.getNumKernels * 114)
  else .ok s.variableDataFile.getSize

/-- `KernelMMR::GetKernelRecordSize`. -/
def getKernelRecordSize (leafIndex : ℕ) (s : KernelStorage) : Except Exc ℕ := do
  let startOffset ← s.getKernelOffset leafIndex
  let endOffset ← s.getEndOffset leafIndex
  .ok (sub64 endOffset startOffset)

/-- `KernelMMR::DeserializeKernel`. -/
def deserializeKernel (data : List UInt8) (version : EProtocolVersion) :
    Except Exc TransactionKernel :=
  (run (TransactionKernel.deserialize version) data).1

/-- `KernelMMR::GetKernelAt`; nothing when it returns a null pointer. -/
def getKernelAt (leafIndex : ℕ) (s : KernelStorage) : Except Exc (Option TransactionKernel) :=
  if s.getNumKernels ≤ leafIndex then .ok none
  else do
    let recordSize ← s.getKernelRecordSize leafIndex
    if recordSize = 0 then .ok none
    else if s.storageFormat = .fixed then do
      let data ← s.fixedDataFile.getDataAt leafIndex
      let kernel ← deserializeKernel data.bytes .v1
      .ok (some kernel)
    else do
      let offset ← s.getKernelOffset leafIndex
      match s.variableDataFile.read offset recordSize with
      | none => .ok none
      | some data => do
        let kernel ← deserializeKernel data .v2
        .ok (some kernel)

variable (G : Global)

/-- `KernelMMR::Root`. -/
def root (size : ℕ) (s : KernelStorage) : Except Exc Hash :=
  MMRHashUtil.root G s.hashFile.contents size none

/-- `MMRHashUtil::AddHashes`: the hashes of a leaf and of the parents it closes are added to
the file. -/
def addHashes (serializedLeaf : List UInt8) : Exec Exc (DataFile Hash) Unit :=
  update fun f => do
    let file ← MMRHashUtil.addHashes G f.contents serializedLeaf none
    .ok (f.addData (file.drop f.contents.length))

/-- The record of the first form. -/
def record (kernel : TransactionKernel) : CBigInteger 114 :=
  ⟨kernel.serialize, kernel.length_serialize⟩

/-- `KernelMMR::ApplyKernel`. -/
def applyKernel (kernel : TransactionKernel) : Exec Exc KernelStorage Unit := do
  let s ← get
  if s.storageFormat = .fixed then do
    modify fun s => { s with fixedDataFile := s.fixedDataFile.addData [record kernel] }
    zoom hashPart (addHashes G kernel.serialize)
  else do
    let offset := s.variableDataFile.getSize
    modify fun s => { s with offsetFile := s.offsetFile.addData [offset] }
    modify fun s =>
      { s with variableDataFile := s.variableDataFile.append (kernel.serialized .v2) }
    zoom hashPart (addHashes G kernel.serialize)

/-- `KernelMMR::Rewind`. The result of rewinding the variable file is not looked at. -/
def rewind (numKernels : ℕ) : Exec Exc KernelStorage Unit := do
  let s ← get
  if s.storageFormat = .fixed then do
    zoom hashPart (DataFile.rewind (leafPosition numKernels))
    zoom fixedDataPart (DataFile.rewind numKernels)
  else do
    let rawSize ← Exec.ofExcept
      (if numKernels < s.getNumKernels then s.getKernelOffset numKernels
        else .ok s.variableDataFile.getSize)
    zoom hashPart (DataFile.rewind (leafPosition numKernels))
    modify fun s =>
      { s with
        variableDataFile := (s.variableDataFile.rewind rawSize).getD s.variableDataFile }
    zoom offsetPart (DataFile.rewind numKernels)

/-- `KernelMMR::Commit`. -/
def commit (s : KernelStorage) : KernelStorage :=
  if s.storageFormat = .fixed then
    { s with hashFile := s.hashFile.commit, fixedDataFile := s.fixedDataFile.commit }
  else
    { s with
      hashFile := s.hashFile.commit
      variableDataFile := s.variableDataFile.flush
      offsetFile := s.offsetFile.commit }

/-- `KernelMMR::Rollback`. -/
def rollback (s : KernelStorage) : KernelStorage :=
  if s.storageFormat = .fixed then
    { s with hashFile := s.hashFile.rollback, fixedDataFile := s.fixedDataFile.rollback }
  else
    { s with
      hashFile := s.hashFile.rollback
      variableDataFile := s.variableDataFile.discard
      offsetFile := s.offsetFile.rollback }

/-- One operation on a storage. -/
inductive Operation
  | applyKernel (kernel : TransactionKernel)
  | rewind (numKernels : ℕ)
  | commit
  | rollback
deriving DecidableEq

/-- The state after an operation, whether it returned or threw. -/
def step (op : Operation) (s : KernelStorage) : KernelStorage :=
  match op with
  | .applyKernel kernel => (run (applyKernel G kernel) s).2
  | .rewind numKernels => (run (rewind numKernels) s).2
  | .commit => s.commit
  | .rollback => s.rollback

/-- The state after some operations. -/
def steps (ops : List Operation) (s : KernelStorage) : KernelStorage :=
  ops.foldl (fun s op => step G op s) s

/-! ### What a storage holds -/

/-- The raw bytes of the variable format. -/
def rawBytes (kernels : List TransactionKernel) : List UInt8 :=
  kernels.flatMap fun kernel => kernel.serialized .v2

/-- The offsets of the variable format: each is the size of the records in front. -/
def offsets (kernels : List TransactionKernel) : List ℕ :=
  (List.range kernels.length).map fun i => (rawBytes (kernels.take i)).length

theorem rawBytes_append (kernels kernels' : List TransactionKernel) :
    rawBytes (kernels ++ kernels') = rawBytes kernels ++ rawBytes kernels' :=
  List.flatMap_append ..

theorem rawBytes_singleton (kernel : TransactionKernel) :
    rawBytes [kernel] = kernel.serialized .v2 := by
  simp [rawBytes]

/-- The raw bytes of the first kernels are the first raw bytes. -/
theorem take_rawBytes (kernels : List TransactionKernel) (n : ℕ) :
    (rawBytes kernels).take (rawBytes (kernels.take n)).length = rawBytes (kernels.take n) := by
  have h := rawBytes_append (kernels.take n) (kernels.drop n)
  rw [List.take_append_drop] at h
  rw [h, List.take_left]

@[simp] theorem length_offsets (kernels : List TransactionKernel) :
    (offsets kernels).length = kernels.length := by
  simp [offsets]

theorem getElem?_offsets {kernels : List TransactionKernel} {i : ℕ} (h : i < kernels.length) :
    (offsets kernels)[i]? = some (rawBytes (kernels.take i)).length := by
  rw [offsets, List.getElem?_map, List.getElem?_range h, Option.map_some]

theorem offsets_append_singleton (kernels : List TransactionKernel) (kernel : TransactionKernel) :
    offsets (kernels ++ [kernel]) = offsets kernels ++ [(rawBytes kernels).length] := by
  rw [offsets, offsets, List.length_append, List.length_singleton, List.range_succ,
    List.map_append]
  congr 1
  · refine List.map_congr_left fun i hi => ?_
    rw [List.take_append_of_le_length (List.mem_range.mp hi).le]
  · simp

theorem take_offsets (kernels : List TransactionKernel) (n : ℕ) :
    (offsets kernels).take n = offsets (kernels.take n) := by
  rw [offsets, offsets, ← List.map_take, List.take_range, List.length_take]
  refine List.map_congr_left fun i hi => ?_
  have hlt := List.mem_range.mp hi
  rw [List.take_take, Nat.min_eq_left (by omega)]

/-- **The invariant**: in its files the storage holds `kernels`, on the disk it holds
`committed`, in the way of its format. -/
structure Stores (s : KernelStorage) (kernels committed : List TransactionKernel) : Prop where
  /-- The hashes are the range of the kernels … -/
  range : IsRangeOf G s.hashFile.contents (kernels.map TransactionKernel.serialize)
  /-- … and on the disk of the committed ones. -/
  range_committed :
    IsRangeOf G s.hashFile.committed (committed.map TransactionKernel.serialize)
  /-- The fixed format has a record for each kernel. -/
  fixed : s.storageFormat = .fixed →
    s.fixedDataFile.contents = kernels.map record ∧
      s.fixedDataFile.committed = committed.map record
  /-- The variable format has the raw bytes … -/
  raw : s.storageFormat = .variable →
    s.variableDataFile.contents = rawBytes kernels ∧
      s.variableDataFile.mapped = rawBytes committed
  /-- … and the offsets. -/
  offset : s.storageFormat = .variable →
    s.offsetFile.contents = offsets kernels ∧ s.offsetFile.committed = offsets committed

variable {G} {s : KernelStorage} {kernels committed : List TransactionKernel}

theorem KernelStorageFormat.cases_ne {format : KernelStorageFormat} (h : format ≠ .fixed) :
    format = .variable := by
  cases format
  · exact absurd rfl h
  · rfl

theorem stores_empty (format : KernelStorageFormat) : Stores G (empty format) [] [] where
  range := isRange_nil
  range_committed := isRange_nil
  fixed _ := ⟨DataFile.contents_load [], rfl⟩
  raw _ := ⟨AppendOnlyFile.contents_load [], rfl⟩
  offset _ := ⟨DataFile.contents_load [], rfl⟩

theorem Stores.getNumKernels_eq (h : Stores G s kernels committed) :
    s.getNumKernels = kernels.length := by
  rw [getNumKernels]
  split
  · next hf => rw [DataFile.getSize_eq, (h.fixed hf).1, List.length_map]
  · next hf =>
    rw [DataFile.getSize_eq, (h.offset (KernelStorageFormat.cases_ne hf)).1, length_offsets]

/-! ### What the operations do -/

theorem run_addHashes {f : DataFile Hash} {leaves : List (List UInt8)}
    (h : IsRangeOf G f.contents leaves) (leaf : List UInt8) :
    ∃ f', run (addHashes G leaf) f = (.ok (), f') ∧
      IsRangeOf G f'.contents (leaves ++ [leaf]) ∧ f'.committed = f.committed := by
  obtain ⟨file, hfile, hrange, hprefix⟩ := addHashes_ok h leaf
  obtain ⟨new, rfl⟩ := hprefix
  have hrun := run_update_ok (ε := Exc) (s := f) (t := f.addData new)
    (f := fun f => do
      let file ← MMRHashUtil.addHashes G f.contents leaf none
      .ok (f.addData (file.drop f.contents.length)))
    (by rw [hfile]; exact congrArg (fun l => Except.ok (f.addData l)) List.drop_left)
  refine ⟨f.addData new, hrun, ?_, DataFile.committed_addData new⟩
  rwa [DataFile.contents_addData]

/-- `ApplyKernel` adds the kernel, in both formats. -/
theorem Stores.run_applyKernel (h : Stores G s kernels committed) (kernel : TransactionKernel) :
    ∃ s', run (applyKernel G kernel) s = (.ok (), s') ∧ s'.storageFormat = s.storageFormat ∧
      Stores G s' (kernels ++ [kernel]) committed := by
  obtain ⟨hashes, hhashes, hrange, hcommitted⟩ := run_addHashes h.range kernel.serialize
  rw [← List.map_singleton (f := TransactionKernel.serialize), ← List.map_append] at hrange
  rw [applyKernel, run_bind_ok (run_get s)]
  split
  · next hf =>
    refine ⟨{ s with
        hashFile := hashes
        fixedDataFile := s.fixedDataFile.addData [record kernel] }, ?_, rfl, ?_⟩
    · rw [run_bind_ok (run_modify _ _), run_zoom]
      dsimp only [hashPart]
      rw [hhashes]
    · refine ⟨hrange, hcommitted ▸ h.range_committed, fun _ => ⟨?_, ?_⟩, ?_, ?_⟩
      · rw [DataFile.contents_addData, (h.fixed hf).1, List.map_append]
        rfl
      · exact (DataFile.committed_addData _).trans (h.fixed hf).2
      · exact fun hv => absurd (hf.symm.trans hv) nofun
      · exact fun hv => absurd (hf.symm.trans hv) nofun
  · next hf =>
    have hv := KernelStorageFormat.cases_ne hf
    have hsize : s.variableDataFile.getSize = (rawBytes kernels).length := by
      rw [← AppendOnlyFile.length_contents, (h.raw hv).1]
    refine ⟨{ s with
        hashFile := hashes
        variableDataFile := s.variableDataFile.append (kernel.serialized .v2)
        offsetFile := s.offsetFile.addData [s.variableDataFile.getSize] }, ?_, rfl, ?_⟩
    · dsimp only
      rw [run_bind_ok (run_modify _ _), run_bind_ok (run_modify _ _), run_zoom]
      dsimp only [hashPart]
      rw [hhashes]
    · refine ⟨hrange, hcommitted ▸ h.range_committed, ?_, fun _ => ⟨?_, ?_⟩, fun _ => ⟨?_, ?_⟩⟩
      · exact fun hf' => absurd hf' hf
      · rw [AppendOnlyFile.contents_append, (h.raw hv).1, rawBytes_append, rawBytes_singleton]
      · exact (AppendOnlyFile.mapped_append _).trans (h.raw hv).2
      · rw [DataFile.contents_addData, (h.offset hv).1, offsets_append_singleton, hsize]
      · exact (DataFile.committed_addData _).trans (h.offset hv).2

/-- The offset at which a rewind cuts the raw file. -/
theorem Stores.rawSize_eq (h : Stores G s kernels committed) (hv : s.storageFormat = .variable)
    {n : ℕ} (hn : n ≤ kernels.length) :
    (if n < s.getNumKernels then s.getKernelOffset n else .ok s.variableDataFile.getSize) =
      .ok (rawBytes (kernels.take n)).length := by
  have hne : s.storageFormat ≠ .fixed := by rw [hv]; decide
  rw [h.getNumKernels_eq]
  split
  · next hlt =>
    have hsize : s.offsetFile.getSize = kernels.length := by
      rw [DataFile.getSize_eq, (h.offset hv).1, length_offsets]
    rw [getKernelOffset, if_neg hne, if_neg (by omega)]
    refine DataFile.getDataAt_eq ?_
    rw [(h.offset hv).1]
    exact getElem?_offsets hlt
  · next hge =>
    rw [← AppendOnlyFile.length_contents, (h.raw hv).1, List.take_of_length_le (by omega)]

/-- `Rewind` drops the last kernels. -/
theorem Stores.run_rewind_of_le (h : Stores G s kernels committed) {n : ℕ}
    (hn : n ≤ kernels.length) :
    ∃ s', run (rewind n) s = (.ok (), s') ∧ s'.storageFormat = s.storageFormat ∧
      Stores G s' (kernels.take n) committed := by
  have hlen : s.hashFile.contents.length = leafPos kernels.length := by
    rw [h.range.length_eq, List.length_map]
  obtain ⟨hashes, hrun, hcontents, hcommitted⟩ :=
    DataFile.run_rewind_of_le (f := s.hashFile) (n := leafPosition n)
      (by rw [hlen]; exact leafPos_strictMono.monotone hn)
  have hrange : IsRangeOf G hashes.contents
      ((kernels.take n).map TransactionKernel.serialize) := by
    rw [hcontents, List.map_take]
    exact h.range.take n (by rwa [List.length_map])
  have hrange' : IsRangeOf G hashes.committed (committed.map TransactionKernel.serialize) :=
    hcommitted ▸ h.range_committed
  have hzoom : run (zoom hashPart (DataFile.rewind (leafPosition n))) s =
      (.ok (), { s with hashFile := hashes }) := by
    rw [run_zoom]
    dsimp only [hashPart]
    rw [hrun]
  rw [rewind, run_bind_ok (run_get s)]
  split
  · next hf =>
    obtain ⟨data, hdata, hcontents, hcommitted⟩ :=
      DataFile.run_rewind_of_le (f := s.fixedDataFile) (n := n)
        (by rw [(h.fixed hf).1, List.length_map]; exact hn)
    rw [run_bind_ok hzoom, run_zoom]
    dsimp only [fixedDataPart]
    rw [hdata]
    refine ⟨_, rfl, rfl, hrange, hrange', fun _ => ⟨?_, ?_⟩, ?_, ?_⟩
    · rw [hcontents, (h.fixed hf).1, List.map_take]
    · exact hcommitted.trans (h.fixed hf).2
    · exact fun hv => absurd (hf.symm.trans hv) nofun
    · exact fun hv => absurd (hf.symm.trans hv) nofun
  · next hf =>
    have hv := KernelStorageFormat.cases_ne hf
    obtain ⟨offsetFile, hoffset, hoffsets, hoffsets'⟩ :=
      DataFile.run_rewind_of_le (f := s.offsetFile) (n := n)
        (by rw [(h.offset hv).1, length_offsets]; exact hn)
    have hraw := take_rawBytes kernels n
    obtain ⟨raw, hrewind⟩ : ∃ raw,
        s.variableDataFile.rewind (rawBytes (kernels.take n)).length = some raw := by
      refine Option.ne_none_iff_exists'.mp fun hnone => ?_
      rw [AppendOnlyFile.rewind_eq_none, ← AppendOnlyFile.length_contents, (h.raw hv).1] at hnone
      have := congrArg List.length hraw
      rw [List.length_take] at this
      omega
    obtain ⟨hrawContents, hrawMapped⟩ := AppendOnlyFile.contents_of_rewind hrewind
    rw [h.rawSize_eq hv hn, run_bind_ok (run_ofExcept _ s), run_bind_ok hzoom,
      run_bind_ok (run_modify _ _), run_zoom]
    dsimp only [offsetPart]
    rw [hoffset, hrewind]
    refine ⟨_, rfl, rfl, hrange, hrange', ?_, fun _ => ⟨?_, ?_⟩, fun _ => ⟨?_, ?_⟩⟩
    · exact fun hf' => absurd hf' hf
    · exact (hrawContents.trans (by rw [(h.raw hv).1])).trans hraw
    · exact hrawMapped.trans (h.raw hv).2
    · rw [hoffsets, (h.offset hv).1, take_offsets]
    · exact hoffsets'.trans (h.offset hv).2

/-- `Rewind` drops the last kernels; beyond the end it throws and drops nothing. -/
theorem Stores.run_rewind (h : Stores G s kernels committed) (n : ℕ) :
    (run (rewind n) s).2.storageFormat = s.storageFormat ∧
      Stores G (run (rewind n) s).2 (kernels.take n) committed := by
  have hlen : s.hashFile.contents.length = leafPos kernels.length := by
    rw [h.range.length_eq, List.length_map]
  rcases Nat.lt_or_ge kernels.length n with hlt | hn
  · -- The hash file refuses first, in both formats.
    obtain ⟨e, hashes, hrun, hcontents, hcommitted⟩ :=
      DataFile.run_rewind_of_lt (f := s.hashFile) (n := leafPosition n)
        (by rw [hlen]; exact leafPos_strictMono hlt)
    have hzoom : run (zoom hashPart (DataFile.rewind (leafPosition n))) s =
        (.error e, { s with hashFile := hashes }) := by
      rw [run_zoom]
      dsimp only [hashPart]
      rw [hrun]
    have hstores : Stores G { s with hashFile := hashes } (kernels.take n) committed := by
      rw [List.take_of_length_le hlt.le]
      exact ⟨hcontents ▸ h.range, hcommitted ▸ h.range_committed, h.fixed, h.raw, h.offset⟩
    rw [rewind, run_bind_ok (run_get s)]
    split
    · rw [run_bind_error hzoom]
      exact ⟨rfl, hstores⟩
    · rw [h.getNumKernels_eq, if_neg (by omega), run_bind_ok (run_ofExcept _ s),
        run_bind_error hzoom]
      exact ⟨rfl, hstores⟩
  · obtain ⟨s', hrun, hformat, hstores⟩ := h.run_rewind_of_le hn
    rw [hrun]
    exact ⟨hformat, hstores⟩

/-- `Commit` brings the kernels to the disk. -/
theorem Stores.commit (h : Stores G s kernels committed) :
    s.commit.storageFormat = s.storageFormat ∧ Stores G s.commit kernels kernels := by
  rw [KernelStorage.commit]
  split
  · next hf =>
    refine ⟨rfl, ?_, ?_, fun _ => ⟨?_, ?_⟩, ?_, ?_⟩
    · rw [DataFile.contents_commit]
      exact h.range
    · rw [DataFile.committed_commit]
      exact h.range
    · rw [DataFile.contents_commit, (h.fixed hf).1]
    · rw [DataFile.committed_commit, (h.fixed hf).1]
    · exact fun hv => absurd (hf.symm.trans hv) nofun
    · exact fun hv => absurd (hf.symm.trans hv) nofun
  · next hf =>
    have hv := KernelStorageFormat.cases_ne hf
    refine ⟨rfl, ?_, ?_, fun hf' => absurd hf' hf, fun _ => ⟨?_, ?_⟩, fun _ => ⟨?_, ?_⟩⟩
    · rw [DataFile.contents_commit]
      exact h.range
    · rw [DataFile.committed_commit]
      exact h.range
    · rw [AppendOnlyFile.contents_flush, (h.raw hv).1]
    · rw [AppendOnlyFile.mapped_flush, (h.raw hv).1]
    · rw [DataFile.contents_commit, (h.offset hv).1]
    · rw [DataFile.committed_commit, (h.offset hv).1]

/-- `Rollback` brings back the kernels on the disk, through different code in the two
formats. -/
theorem Stores.rollback (h : Stores G s kernels committed) :
    s.rollback.storageFormat = s.storageFormat ∧ Stores G s.rollback committed committed := by
  rw [KernelStorage.rollback]
  split
  · next hf =>
    refine ⟨rfl, ?_, ?_, fun _ => ⟨?_, ?_⟩, ?_, ?_⟩
    · rw [DataFile.contents_rollback]
      exact h.range_committed
    · rw [DataFile.committed_rollback]
      exact h.range_committed
    · rw [DataFile.contents_rollback, (h.fixed hf).2]
    · rw [DataFile.committed_rollback, (h.fixed hf).2]
    · exact fun hv => absurd (hf.symm.trans hv) nofun
    · exact fun hv => absurd (hf.symm.trans hv) nofun
  · next hf =>
    have hv := KernelStorageFormat.cases_ne hf
    refine ⟨rfl, ?_, ?_, fun hf' => absurd hf' hf, fun _ => ⟨?_, ?_⟩, fun _ => ⟨?_, ?_⟩⟩
    · rw [DataFile.contents_rollback]
      exact h.range_committed
    · rw [DataFile.committed_rollback]
      exact h.range_committed
    · rw [AppendOnlyFile.contents_discard, (h.raw hv).2]
    · rw [AppendOnlyFile.mapped_discard, (h.raw hv).2]
    · rw [DataFile.contents_rollback, (h.offset hv).2]
    · rw [DataFile.committed_rollback, (h.offset hv).2]

/-! ### Runs -/

/-- What the operations are about: the kernels, and those that are on the disk. -/
structure Ledger where
  /-- The kernels. -/
  kernels : List TransactionKernel
  /-- The kernels on the disk. -/
  committed : List TransactionKernel

/-- An operation on the kernels themselves. -/
def Ledger.step (op : Operation) (l : Ledger) : Ledger :=
  match op with
  | .applyKernel kernel => ⟨l.kernels ++ [kernel], l.committed⟩
  | .rewind numKernels => ⟨l.kernels.take numKernels, l.committed⟩
  | .commit => ⟨l.kernels, l.kernels⟩
  | .rollback => ⟨l.committed, l.committed⟩

/-- Some operations on the kernels themselves. -/
def Ledger.steps (ops : List Operation) (l : Ledger) : Ledger :=
  ops.foldl (fun l op => l.step op) l

/-- **One step**: the storage does to its files what the operation does to the kernels. -/
theorem Stores.step {l : Ledger} (h : Stores G s l.kernels l.committed) (op : Operation) :
    (step G op s).storageFormat = s.storageFormat ∧
      Stores G (KernelStorage.step G op s) (l.step op).kernels (l.step op).committed := by
  match op with
  | .applyKernel kernel =>
    obtain ⟨s', hrun, hformat, hstores⟩ := h.run_applyKernel kernel
    rw [KernelStorage.step, hrun]
    exact ⟨hformat, hstores⟩
  | .rewind numKernels => exact h.run_rewind numKernels
  | .commit => exact h.commit
  | .rollback => exact h.rollback

/-- **A run**: both formats store the same kernels. -/
theorem Stores.steps {l : Ledger} (h : Stores G s l.kernels l.committed) (ops : List Operation) :
    (steps G ops s).storageFormat = s.storageFormat ∧
      Stores G (KernelStorage.steps G ops s) (l.steps ops).kernels (l.steps ops).committed := by
  induction ops generalizing s l with
  | nil => exact ⟨rfl, h⟩
  | cons op ops ih =>
    obtain ⟨hformat, hstores⟩ := h.step op
    obtain ⟨hformat', hstores'⟩ := ih hstores
    exact ⟨hformat'.trans hformat, hstores'⟩

/-- The kernels of a run are kernels that were applied. -/
theorem mem_steps (ops : List Operation) (l : Ledger) {kernel : TransactionKernel}
    (h : kernel ∈ (l.steps ops).kernels ∨ kernel ∈ (l.steps ops).committed) :
    .applyKernel kernel ∈ ops ∨ kernel ∈ l.kernels ∨ kernel ∈ l.committed := by
  induction ops generalizing l with
  | nil => exact .inr h
  | cons op ops ih =>
    rcases ih (l.step op) h with hmem | hmem
    · exact .inl (List.mem_cons_of_mem _ hmem)
    · match op with
      | .applyKernel k =>
        rw [Ledger.step, List.mem_append, List.mem_singleton] at hmem
        rcases hmem with (hmem | rfl) | hmem
        · exact .inr (.inl hmem)
        · exact .inl (List.mem_cons_self ..)
        · exact .inr (.inr hmem)
      | .rewind n =>
        rw [Ledger.step] at hmem
        exact .inr (hmem.imp_left List.mem_of_mem_take)
      | .commit =>
        rw [Ledger.step, or_self] at hmem
        exact .inr (.inl hmem)
      | .rollback =>
        rw [Ledger.step, or_self] at hmem
        exact .inr (.inr hmem)

/-! ### Reading a kernel -/

/-- Behind the last kernel there is none. -/
theorem Stores.getKernelAt_of_le (h : Stores G s kernels committed) {i : ℕ}
    (hi : kernels.length ≤ i) : s.getKernelAt i = .ok none := by
  rw [getKernelAt, h.getNumKernels_eq, if_pos hi]

/-- **The fixed format gives back the kernel.** -/
theorem Stores.getKernelAt_fixed (h : Stores G s kernels committed)
    (hf : s.storageFormat = .fixed) {i : ℕ} {kernel : TransactionKernel}
    (hi : kernels[i]? = some kernel) (hvalid : kernel.RelativeHeightValid) :
    s.getKernelAt i = .ok (some kernel) := by
  have hlt : i < kernels.length := (List.getElem?_eq_some_iff.mp hi).1
  have hsize : s.getKernelRecordSize i = .ok 114 := by
    have hstart : s.getKernelOffset i = .ok (i * 114) := by rw [getKernelOffset, if_pos hf]
    have hend : s.getEndOffset i = .ok ((i + 1) * 114) := by
      rw [getEndOffset, h.getNumKernels_eq, if_pos hf]
      split
      · rw [getKernelOffset, if_pos hf]
      · rw [show kernels.length = i + 1 by omega]
    have hsub : sub64 ((i + 1) * 114) (i * 114) = 114 := by
      rw [sub64, if_pos (by omega)]
      omega
    rw [getKernelRecordSize, hstart, ok_bind, hend, ok_bind, hsub]
  have hdata : s.fixedDataFile.getDataAt i = .ok (record kernel) := by
    refine DataFile.getDataAt_eq ?_
    rw [(h.fixed hf).1, List.getElem?_map, hi, Option.map_some]
  have hread : deserializeKernel (record kernel).bytes .v1 = .ok kernel := by
    have hrun := TransactionKernel.run_deserialize_v1 hvalid []
    rw [List.append_nil] at hrun
    exact congrArg Prod.fst hrun
  rw [getKernelAt, h.getNumKernels_eq, if_neg (by omega), hsize, ok_bind, if_neg (by decide),
    if_pos hf, hdata, ok_bind, hread, ok_bind]

/-- The variable format reads the record of the second form. -/
theorem Stores.getKernelAt_variable (h : Stores G s kernels committed)
    (hv : s.storageFormat = .variable) {i : ℕ} {kernel : TransactionKernel}
    (hi : kernels[i]? = some kernel) :
    s.getKernelAt i = (deserializeKernel (kernel.serialized .v2) .v2).map some := by
  have hne : s.storageFormat ≠ .fixed := by rw [hv]; decide
  obtain ⟨hlt, hget⟩ := List.getElem?_eq_some_iff.mp hi
  have hstart : s.getKernelOffset i = .ok (rawBytes (kernels.take i)).length := by
    have := h.rawSize_eq hv hlt.le
    rwa [h.getNumKernels_eq, if_pos hlt] at this
  have hsplit : rawBytes (kernels.take (i + 1)) =
      rawBytes (kernels.take i) ++ kernel.serialized .v2 := by
    rw [List.take_add_one, hi, rawBytes_append]
    exact congrArg _ (rawBytes_singleton kernel)
  have hpos := kernel.length_serialized_pos .v2
  have hsize : s.getKernelRecordSize i = .ok (kernel.serialized .v2).length := by
    have hend : s.getEndOffset i = .ok (rawBytes (kernels.take (i + 1))).length := by
      rw [getEndOffset, if_neg hne]
      exact h.rawSize_eq hv hlt
    have hsub : sub64 (rawBytes (kernels.take (i + 1))).length (rawBytes (kernels.take i)).length =
        (kernel.serialized .v2).length := by
      rw [hsplit, List.length_append, sub64, if_pos (by omega)]
      omega
    rw [getKernelRecordSize, hstart, ok_bind, hend, ok_bind, hsub]
  have hraw : rawBytes kernels = rawBytes (kernels.take i) ++
      (kernel.serialized .v2 ++ rawBytes (kernels.drop (i + 1))) := by
    rw [← List.append_assoc, ← hsplit, ← rawBytes_append, List.take_append_drop]
  have hread : s.variableDataFile.read (rawBytes (kernels.take i)).length
      (kernel.serialized .v2).length = some (kernel.serialized .v2) := by
    rw [AppendOnlyFile.read_eq, (h.raw hv).1, hraw, List.drop_left, List.take_left]
    rw [← AppendOnlyFile.length_contents, (h.raw hv).1, hraw, List.length_append,
      List.length_append]
    omega
  rw [getKernelAt, h.getNumKernels_eq, if_neg (by omega), hsize, ok_bind, if_neg (by omega),
    if_neg hne, hstart, ok_bind, hread]
  dsimp only
  rcases deserializeKernel (kernel.serialized .v2) .v2 with e | k
  · rfl
  · rfl

/-- Of a kernel with named features the variable format gives back the part that matters. -/
theorem deserializeKernel_stripped {kernel : TransactionKernel}
    (hvalid : kernel.RelativeHeightValid) (hknown : kernel.features.value.toNat ≤ 3) :
    deserializeKernel (kernel.serialized .v2) .v2 = .ok kernel.stripped := by
  have hrun := TransactionKernel.run_deserialize_v2 hvalid hknown []
  rw [List.append_nil] at hrun
  exact congrArg Prod.fst hrun

/-- Of any other kernel it gives back nothing. -/
theorem deserializeKernel_unknown {kernel : TransactionKernel}
    (hunknown : 3 < kernel.features.value.toNat) :
    deserializeKernel (kernel.serialized .v2) .v2 = .error ByteBuffer.pastEnd := by
  obtain ⟨rest, hrun⟩ := TransactionKernel.run_deserialize_unknown hunknown
  exact congrArg Prod.fst hrun

/-! ### The formats are interchangeable on canonical kernels -/

variable (G) in
/-- Two storages that nothing tells apart: the number of kernels, the roots, and the hashes of
the kernels. -/
structure Agree (s t : KernelStorage) : Prop where
  /-- There are as many kernels. -/
  getNumKernels_eq : s.getNumKernels = t.getNumKernels
  /-- The roots are the same at every size. -/
  root_eq : ∀ size, s.root G size = t.root G size
  /-- The kernels are equal, by their hashes. -/
  getKernelAt_eq : ∀ i, (s.getKernelAt i).map (Option.map (·.getHash G)) =
    (t.getKernelAt i).map (Option.map (·.getHash G))

variable (G) in
/-- The two formats, started empty, agree after each of some operations. -/
def Interchangeable (ops : List Operation) : Prop :=
  ∀ front, front <+: ops →
    Agree G (steps G front (empty .fixed)) (steps G front (empty .variable))

section Interchangeable

variable {t : KernelStorage} {committed' : List TransactionKernel}

/-- A kernel is read alike in both formats when it is canonical. -/
theorem Stores.getKernelAt_eq (hs : Stores G s kernels committed)
    (ht : Stores G t kernels committed') (hf : s.storageFormat = .fixed)
    (hv : t.storageFormat = .variable) {i : ℕ} {kernel : TransactionKernel}
    (hi : kernels[i]? = some kernel) (hvalid : kernel.RelativeHeightValid)
    (hcanonical : kernel.Canonical) : s.getKernelAt i = t.getKernelAt i := by
  rw [hs.getKernelAt_fixed hf hi hvalid, ht.getKernelAt_variable hv hi,
    deserializeKernel_stripped hvalid hcanonical.known, hcanonical.stripped_eq]
  rfl

/-- And only then, unless two kernels have the same hash. -/
theorem Stores.canonical_of_getKernelAt (hG : G.InjectiveOnBytes)
    (hs : Stores G s kernels committed) (ht : Stores G t kernels committed')
    (hf : s.storageFormat = .fixed) (hv : t.storageFormat = .variable) {i : ℕ}
    {kernel : TransactionKernel} (hi : kernels[i]? = some kernel)
    (hvalid : kernel.RelativeHeightValid)
    (h : (s.getKernelAt i).map (Option.map (·.getHash G)) =
      (t.getKernelAt i).map (Option.map (·.getHash G))) : kernel.Canonical := by
  rw [hs.getKernelAt_fixed hf hi hvalid, ht.getKernelAt_variable hv hi] at h
  rcases Nat.lt_or_ge 3 kernel.features.value.toNat with hunknown | hknown
  · rw [deserializeKernel_unknown hunknown] at h
    cases h
  · rw [deserializeKernel_stripped hvalid hknown] at h
    have hhash : kernel.getHash G = kernel.stripped.getHash G :=
      Option.some.inj (Except.ok.inj h)
    have heq := TransactionKernel.serialize_injective (hG _ _ hhash)
    exact TransactionKernel.canonical_of_stripped hknown heq.symm

/-- Storages of the same canonical kernels agree. -/
theorem Stores.agree (hs : Stores G s kernels committed) (ht : Stores G t kernels committed')
    (hf : s.storageFormat = .fixed) (hv : t.storageFormat = .variable)
    (hkernels : ∀ kernel ∈ kernels, kernel.RelativeHeightValid ∧ kernel.Canonical) :
    Agree G s t where
  getNumKernels_eq := by rw [hs.getNumKernels_eq, ht.getNumKernels_eq]
  root_eq := by
    intro size
    rw [root, root, hs.range.unique ht.range]
  getKernelAt_eq := by
    intro i
    rcases hi : kernels[i]? with _ | kernel
    · have hle : kernels.length ≤ i := List.getElem?_eq_none_iff.mp hi
      rw [hs.getKernelAt_of_le hle, ht.getKernelAt_of_le hle]
    · have hkernel := hkernels kernel (List.mem_of_getElem? hi)
      rw [hs.getKernelAt_eq ht hf hv hi hkernel.1 hkernel.2]

theorem stores_steps (format : KernelStorageFormat) (ops : List Operation) :
    (steps G ops (empty format)).storageFormat = format ∧
      Stores G (steps G ops (empty format)) ((⟨[], []⟩ : Ledger).steps ops).kernels
        ((⟨[], []⟩ : Ledger).steps ops).committed :=
  Stores.steps (l := ⟨[], []⟩) (stores_empty format) ops

/-- Right after a kernel was applied it is the last one of both storages, so they only agree
when it is canonical. -/
theorem canonical_of_agree (hG : G.InjectiveOnBytes) (before : List Operation)
    {kernel : TransactionKernel} (hvalid : kernel.RelativeHeightValid)
    (h : Agree G (steps G (before ++ [.applyKernel kernel]) (empty .fixed))
      (steps G (before ++ [.applyKernel kernel]) (empty .variable))) : kernel.Canonical := by
  obtain ⟨hf, hs⟩ := stores_steps (G := G) .fixed (before ++ [.applyKernel kernel])
  obtain ⟨hv, ht⟩ := stores_steps (G := G) .variable (before ++ [.applyKernel kernel])
  refine hs.canonical_of_getKernelAt hG ht hf hv
    (i := ((⟨[], []⟩ : Ledger).steps before).kernels.length) ?_ hvalid (h.getKernelAt_eq _)
  rw [Ledger.steps, List.foldl_append]
  exact List.getElem?_concat_length

/-- **When the formats are interchangeable.** On accepted kernels they are when every kernel
is canonical; and only then, as long as no two kernels have the same hash. -/
theorem interchangeable_iff {ops : List Operation}
    (haccepted : ∀ kernel, .applyKernel kernel ∈ ops → kernel.Accepted) :
    ((∀ kernel, .applyKernel kernel ∈ ops → kernel.Canonical) → Interchangeable G ops) ∧
      (G.InjectiveOnBytes → Interchangeable G ops →
        ∀ kernel, .applyKernel kernel ∈ ops → kernel.Canonical) := by
  constructor
  · rintro hcanonical front hfront
    obtain ⟨hf, hs⟩ := stores_steps (G := G) .fixed front
    obtain ⟨hv, ht⟩ := stores_steps (G := G) .variable front
    refine hs.agree ht hf hv fun kernel hkernel => ?_
    rcases mem_steps front ⟨[], []⟩ (.inl hkernel) with hmem | hmem | hmem
    · have hmem' := hfront.subset hmem
      exact ⟨(haccepted kernel hmem').relativeHeightValid, hcanonical kernel hmem'⟩
    · cases hmem
    · cases hmem
  · rintro hG hinter kernel hmem
    obtain ⟨before, rest, rfl⟩ := List.append_of_mem hmem
    have hagree := hinter (before ++ [.applyKernel kernel]) ⟨rest, by simp⟩
    exact canonical_of_agree hG before (haccepted kernel hmem).relativeHeightValid hagree

open SmallNet in
/-- A kernel is stored, committed, dropped and brought back. -/
theorem interchangeable_coinbaseKernel :
    Interchangeable (smallNet .mainnet)
      [.applyKernel (coinbaseKernel 1), .commit, .rewind 0, .rollback] ∧
      (coinbaseKernel 1).Canonical := by
  have hone : ∀ kernel, Operation.applyKernel kernel ∈
      [.applyKernel (coinbaseKernel 1), .commit, .rewind 0, .rollback] →
        kernel = coinbaseKernel 1 := by
    rintro kernel hmem
    simpa using hmem
  have hvalid : (coinbaseKernel 1).RelativeHeightValid := fun h => absurd h (by decide)
  have haccepted : ∀ kernel, Operation.applyKernel kernel ∈
      [.applyKernel (coinbaseKernel 1), .commit, .rewind 0, .rollback] → kernel.Accepted :=
    fun kernel hmem => hone kernel hmem ▸ hvalid.accepted
  have h := interchangeable_iff (G := smallNet .mainnet) haccepted
  have hinter := h.1 fun kernel hmem => hone kernel hmem ▸ (by decide)
  exact ⟨hinter, h.2 (injectiveOnBytes .mainnet) hinter _ (List.mem_cons_self ..)⟩

open SmallNet in
/-- A plain kernel with a lock height, as the first form can have it. -/
def lockedPlainKernel : TransactionKernel :=
  { coinbaseKernel 1 with features := .defaultKernel, lockHeight := 1 }

/-- The kernel is accepted, and the variable format gives back another one. -/
theorem not_agree_lockedPlainKernel :
    lockedPlainKernel.Accepted ∧
      ¬Agree (smallNet .mainnet)
        (steps (smallNet .mainnet) [.applyKernel lockedPlainKernel] (empty .fixed))
        (steps (smallNet .mainnet) [.applyKernel lockedPlainKernel] (empty .variable)) := by
  have hvalid : lockedPlainKernel.RelativeHeightValid := fun h => absurd h (by decide)
  refine ⟨hvalid.accepted, fun hagree => ?_⟩
  have hcanonical := canonical_of_agree (SmallNet.injectiveOnBytes .mainnet) [] hvalid hagree
  exact absurd hcanonical (by decide)

end Interchangeable

end KernelStorage

end GrinPlusPlus
