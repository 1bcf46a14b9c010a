import GrinPlusPlus.Core.Global
import GrinPlusPlus.Lib.Exec

/-!
# Append-only files

`AppendOnlyFile` keeps what is written in a buffer behind the part of the mapped file that
still counts; a rewind into the mapped part drops the buffer and moves the place where it
would start. `DataFile` is such a file of entries of one size, with the mark of
`IBatchable`.

To the reader both are a list, `GrinPlusPlus.AppendOnlyFile.contents`, together with the list
that is on the disk. One lemma for each operation says what it does to these two:

* appending adds at the end, rewinding drops from the end
  (`GrinPlusPlus.AppendOnlyFile.contents_append`,
  `GrinPlusPlus.AppendOnlyFile.contents_of_rewind`);
* flushing brings the contents to the disk and discarding brings them back
  (`GrinPlusPlus.AppendOnlyFile.mapped_flush`, `GrinPlusPlus.AppendOnlyFile.contents_discard`);
* a read sees the contents, whichever side of the buffer it falls on
  (`GrinPlusPlus.AppendOnlyFile.read_eq`).
-/

namespace GrinPlusPlus

open Exec

/-- `AppendOnlyFile`, over bytes or over entries of one size. -/
structure AppendOnlyFile (β : Type) where
  /-- `m_pMappedFile`, of `m_fileSize` entries. -/
  mapped : List β
  /-- `m_bufferIndex`. -/
  bufferIndex : ℕ
  /-- `m_buffer`. -/
  buffer : List β
  /-- The buffer starts within the mapped file or right behind it. -/
  bufferIndex_le : bufferIndex ≤ mapped.length

namespace AppendOnlyFile

variable {β : Type}

/-- `AppendOnlyFile::Load`, of a file with these entries. -/
def load (file : List β) : AppendOnlyFile β :=
  ⟨file, file.length, [], le_rfl⟩

/-- `AppendOnlyFile::GetSize`. -/
def getSize (f : AppendOnlyFile β) : ℕ :=
  f.bufferIndex + f.buffer.length

/-- `AppendOnlyFile::Flush`: the file is cut where the buffer starts, and the buffer is written
behind. The test whether the buffer starts behind the file is `bufferIndex_le`. -/
def flush (f : AppendOnlyFile β) : AppendOnlyFile β :=
  if f.mapped.length = f.bufferIndex ∧ f.buffer.isEmpty then f
  else load (f.mapped.take f.bufferIndex ++ f.buffer)

/-- `AppendOnlyFile::Append`. -/
def append (data : List β) (f : AppendOnlyFile β) : AppendOnlyFile β :=
  { f with buffer := f.buffer ++ data }

/-- `AppendOnlyFile::Rewind`; nothing when it returns false. -/
def rewind (nextPosition : ℕ) (f : AppendOnlyFile β) : Option (AppendOnlyFile β) :=
  if f.bufferIndex + f.buffer.length < nextPosition then none
  else if h : nextPosition ≤ f.bufferIndex then
    some { f with
      buffer := []
      bufferIndex := nextPosition
      bufferIndex_le := h.trans f.bufferIndex_le }
  else some { f with buffer := f.buffer.take (nextPosition - f.bufferIndex) }

/-- `AppendOnlyFile::Discard`, which is also `AppendOnlyFile::Rollback`. -/
def discard (f : AppendOnlyFile β) : AppendOnlyFile β :=
  load f.mapped

/-- `AppendOnlyFile::Read`; nothing when it returns false. -/
def read (position numBytes : ℕ) (f : AppendOnlyFile β) : Option (List β) :=
  if numBytes = 0 then some []
  else if f.getSize < position ∨ f.getSize - position < numBytes then none
  else if position < f.bufferIndex then
    let mappedBytes := min numBytes (f.bufferIndex - position)
    let mappedData := (f.mapped.drop position).take mappedBytes
    if mappedBytes = numBytes then some mappedData
    else if f.buffer.length < numBytes - mappedBytes then none
    else some (mappedData ++ f.buffer.take (numBytes - mappedBytes))
  else
    let firstBufferIndex := position - f.bufferIndex
    if f.buffer.length < firstBufferIndex ∨ f.buffer.length - firstBufferIndex < numBytes then
      none
    else some ((f.buffer.drop firstBufferIndex).take numBytes)

/-! ### The contents -/

/-- What the reader sees: the part of the mapped file that counts, and the buffer. -/
def contents (f : AppendOnlyFile β) : List β :=
  f.mapped.take f.bufferIndex ++ f.buffer

variable {f f' : AppendOnlyFile β}

@[simp] theorem length_contents : f.contents.length = f.getSize := by
  rw [contents, getSize, List.length_append, List.length_take, Nat.min_eq_left f.bufferIndex_le]

@[simp] theorem contents_load (file : List β) : (load file).contents = file := by
  rw [contents, load, List.take_length, List.append_nil]

@[simp] theorem mapped_load (file : List β) : (load file).mapped = file := rfl

@[simp] theorem contents_append (data : List β) :
    (f.append data).contents = f.contents ++ data :=
  (List.append_assoc ..).symm

@[simp] theorem mapped_append (data : List β) : (f.append data).mapped = f.mapped := rfl

theorem contents_eq_of_rest (h : f.mapped.length = f.bufferIndex ∧ f.buffer.isEmpty) :
    f.contents = f.mapped := by
  rw [contents, ← h.1, List.take_length, List.isEmpty_iff.mp h.2, List.append_nil]

@[simp] theorem contents_flush : f.flush.contents = f.contents := by
  rw [flush]
  split
  · rfl
  · exact contents_load _

@[simp] theorem mapped_flush : f.flush.mapped = f.contents := by
  rw [flush]
  split
  · next h => exact (contents_eq_of_rest h).symm
  · rfl

@[simp] theorem contents_discard : f.discard.contents = f.mapped :=
  contents_load _

@[simp] theorem mapped_discard : f.discard.mapped = f.mapped := rfl

/-- A rewind is refused only beyond the end. -/
theorem rewind_eq_none {n : ℕ} : f.rewind n = none ↔ f.getSize < n := by
  rw [rewind, getSize]
  split
  · next h => exact ⟨fun _ => h, fun _ => rfl⟩
  · next h =>
    split
    · exact ⟨nofun, fun hlt => absurd hlt h⟩
    · exact ⟨nofun, fun hlt => absurd hlt h⟩

/-- A rewind drops from the end. -/
theorem contents_of_rewind {n : ℕ} (h : f.rewind n = some f') :
    f'.contents = f.contents.take n ∧ f'.mapped = f.mapped := by
  have hlen : (f.mapped.take f.bufferIndex).length = f.bufferIndex := by
    rw [List.length_take, Nat.min_eq_left f.bufferIndex_le]
  rw [rewind] at h
  split at h
  · cases h
  · split at h
    · next hle =>
      cases h
      refine ⟨?_, rfl⟩
      rw [contents, contents, List.append_nil, List.take_append_of_le_length (by omega),
        List.take_take, Nat.min_eq_left hle]
    · next hle =>
      cases h
      refine ⟨?_, rfl⟩
      rw [contents, contents, List.take_append, hlen,
        List.take_of_length_le (by omega : (f.mapped.take f.bufferIndex).length ≤ n)]

/-- **A read sees the contents.** -/
theorem read_eq {i n : ℕ} (h : i + n ≤ f.getSize) :
    f.read i n = some ((f.contents.drop i).take n) := by
  have hlen : (f.mapped.take f.bufferIndex).length = f.bufferIndex := by
    rw [List.length_take, Nat.min_eq_left f.bufferIndex_le]
  have hsize : f.getSize = f.bufferIndex + f.buffer.length := rfl
  rw [read]
  split
  · next h0 => rw [h0, List.take_zero]
  · rw [if_neg (by omega)]
    split
    · next hlt =>
      have hdrop : f.contents.drop i =
          (f.mapped.drop i).take (f.bufferIndex - i) ++ f.buffer := by
        rw [contents, List.drop_append_of_le_length (by omega), List.drop_take]
      have hlen' : ((f.mapped.drop i).take (f.bufferIndex - i)).length =
          f.bufferIndex - i := by
        have := f.bufferIndex_le
        rw [List.length_take, List.length_drop]
        omega
      rw [hdrop]
      by_cases hle : n ≤ f.bufferIndex - i
      · -- All of it is mapped.
        rw [Nat.min_eq_left hle]
        dsimp only
        rw [if_pos rfl, List.take_append_of_le_length (by omega), List.take_take,
          Nat.min_eq_left hle]
      · -- It goes on in the buffer.
        rw [Nat.min_eq_right (by omega)]
        dsimp only
        rw [if_neg (by omega), if_neg (by omega), List.take_append, hlen',
          List.take_of_length_le (by omega : (List.take _ _).length ≤ n)]
    · next hge =>
      dsimp only
      rw [if_neg (by omega), contents, List.drop_append, hlen,
        List.drop_eq_nil_of_le (by omega : (List.take _ _).length ≤ i), List.nil_append]

end AppendOnlyFile

/-! ### Files of entries -/

/-- `DataFile`: a file of entries of one size, with the mark that it was changed. Whether a
commit or a rollback looks at the file at all depends on the mark; the last field says that
this does not matter. -/
structure DataFile (α : Type) where
  /-- `m_pFile`. -/
  file : AppendOnlyFile α
  /-- `IsDirty`. -/
  dirty : Bool
  /-- Without the mark the file is as it is on the disk. -/
  clean : dirty = false → file.contents = file.mapped

namespace DataFile

variable {α : Type}

/-- `DataFile::Load`. -/
def load (file : List α) : DataFile α :=
  ⟨.load file, false, fun _ => AppendOnlyFile.contents_load file⟩

/-- `DataFile::Commit`. -/
def commit (f : DataFile α) : DataFile α :=
  if f.dirty then
    { file := f.file.flush
      dirty := false
      clean := fun _ => by rw [AppendOnlyFile.contents_flush, AppendOnlyFile.mapped_flush] }
  else f

/-- `DataFile::Rollback`. -/
def rollback (f : DataFile α) : DataFile α :=
  if f.dirty then
    { file := f.file.discard
      dirty := false
      clean := fun _ => by
        rw [AppendOnlyFile.contents_discard, AppendOnlyFile.mapped_discard] }
  else f

/-- `DataFile::Rewind`: the mark is set before the file refuses. -/
def rewind (size : ℕ) : Exec Exc (DataFile α) Unit :=
  ofRun fun f =>
    match f.file.rewind size with
    | some file => (.ok (), ⟨file, true, nofun⟩)
    | none =>
      (.error (.file ("Failed to rewind to size " ++ toString size)), ⟨f.file, true, nofun⟩)

/-- `DataFile::GetSize`. -/
def getSize (f : DataFile α) : ℕ :=
  f.file.getSize

/-- `DataFile::GetDataAt`. -/
def getDataAt (position : ℕ) (f : DataFile α) : Except Exc α :=
  match f.file.read position 1 with
  | some (data :: _) => .ok data
  | _ => .error (.file ("Failed to read data at position " ++ toString position))

/-- `DataFile::AddData`, for entry after entry. -/
def addData (data : List α) (f : DataFile α) : DataFile α :=
  ⟨f.file.append data, true, nofun⟩

/-- What the reader sees. -/
def contents (f : DataFile α) : List α :=
  f.file.contents

/-- What is on the disk. -/
def committed (f : DataFile α) : List α :=
  f.file.mapped

variable {f : DataFile α}

@[simp] theorem contents_load (file : List α) : (load file).contents = file :=
  AppendOnlyFile.contents_load file

@[simp] theorem committed_load (file : List α) : (load file).committed = file := rfl

theorem getSize_eq : f.getSize = f.contents.length :=
  AppendOnlyFile.length_contents.symm

@[simp] theorem contents_addData (data : List α) :
    (f.addData data).contents = f.contents ++ data :=
  AppendOnlyFile.contents_append data

@[simp] theorem committed_addData (data : List α) : (f.addData data).committed = f.committed :=
  rfl

@[simp] theorem contents_commit : f.commit.contents = f.contents := by
  rw [commit]
  split
  · exact AppendOnlyFile.contents_flush
  · rfl

/-- **A commit brings the contents to the disk**, marked or not. -/
@[simp] theorem committed_commit : f.commit.committed = f.contents := by
  rw [commit]
  split
  · exact AppendOnlyFile.mapped_flush
  · next h => exact (f.clean (Bool.eq_false_iff.mpr h)).symm

/-- **A rollback brings the contents back**, marked or not. -/
@[simp] theorem contents_rollback : f.rollback.contents = f.committed := by
  rw [rollback]
  split
  · exact AppendOnlyFile.contents_discard
  · next h => exact f.clean (Bool.eq_false_iff.mpr h)

@[simp] theorem committed_rollback : f.rollback.committed = f.committed := by
  rw [rollback]
  split
  · rfl
  · rfl

theorem run_rewind_of_le {n : ℕ} (h : n ≤ f.contents.length) :
    ∃ f', run (rewind n) f = (.ok (), f') ∧ f'.contents = f.contents.take n ∧
      f'.committed = f.committed := by
  rw [rewind, run_ofRun]
  rcases hr : f.file.rewind n with _ | file
  · rw [AppendOnlyFile.rewind_eq_none, ← AppendOnlyFile.length_contents] at hr
    exact absurd h (Nat.not_le.mpr hr)
  · obtain ⟨hcontents, hmapped⟩ := AppendOnlyFile.contents_of_rewind hr
    exact ⟨_, rfl, hcontents, hmapped⟩

theorem run_rewind_of_lt {n : ℕ} (h : f.contents.length < n) :
    ∃ e f', run (rewind n) f = (.error e, f') ∧ f'.contents = f.contents ∧
      f'.committed = f.committed := by
  have hr : f.file.rewind n = none := by
    rw [AppendOnlyFile.rewind_eq_none, ← AppendOnlyFile.length_contents]
    exact h
  rw [rewind, run_ofRun, hr]
  exact ⟨_, _, rfl, rfl, rfl⟩

theorem getDataAt_eq {i : ℕ} {a : α} (h : f.contents[i]? = some a) : f.getDataAt i = .ok a := by
  have hlt : i < f.contents.length := (List.getElem?_eq_some_iff.mp h).1
  have hread := AppendOnlyFile.read_eq (f := f.file) (i := i) (n := 1)
    (by rw [← AppendOnlyFile.length_contents]; exact hlt)
  have hdrop : f.contents.drop i = a :: f.contents.drop (i + 1) := by
    rw [List.drop_eq_getElem_cons hlt]
    exact congrArg (· :: _) (List.getElem?_eq_some_iff.mp h).2
  rw [getDataAt, hread, show f.file.contents.drop i = _ from hdrop]
  rfl

end DataFile

end GrinPlusPlus
