import GrinPlusPlus.Core.File

/-!
# Append-only files over a mapped file

`AppendOnlyFile` as it is written: the bytes on the disk, the mapping that `MappedFile::Read`
makes of them when it first needs one and that `MappedFile::Write` drops, the size
`m_fileSize` that the file believes the disk to have, and the buffer that starts at
`m_bufferIndex`. `GrinPlusPlus.AppendOnlyFile` is the list the reader sees, and
`GrinPlusPlus.OnDisk.Lists` says what the file is for: the bytes that are committed, and the
current ones.

* `GrinPlusPlus.OnDisk.step_refines` – every operation does to the two lists what
  it should, and leaves the mapping, if there is one, in agreement with the disk;
* `GrinPlusPlus.OnDisk.run_refines` – hence so does every sequence of operations
  whose writes succeed.

The delicate part is an empty file, which cannot be mapped: a read of no bytes returns before
it looks at anything, so that it also succeeds behind the end of the file.
-/

namespace GrinPlusPlus.OnDisk

/-! ### The mapped file -/

/-- `MappedFile`, with the file at its path. -/
structure MappedFile where
  /-- The bytes on the disk. -/
  disk : List UInt8
  /-- `m_mmap`: the bytes it shows, when it is mapped. -/
  mmap : Option (List UInt8)

namespace MappedFile

/-- `FileUtil::TruncateFile`: what is missing is filled up with zeros. -/
def truncateFile (disk : List UInt8) (size : ℕ) : List UInt8 :=
  disk.take size ++ List.replicate (size - disk.length) 0

/-- `MappedFile::Write`. The stream appends, whatever position it is set to; `opens` says whether
it could be opened. -/
def write (startIndex : ℕ) (data : List UInt8) (opens : Bool) (f : MappedFile) :
    Bool × MappedFile :=
  let disk := truncateFile f.disk startIndex
  if data.isEmpty then (true, ⟨disk, none⟩)
  else if opens then (true, ⟨disk ++ data, none⟩)
  else (false, ⟨disk, none⟩)

/-- `MappedFile::Map`: an empty file cannot be mapped. -/
def map (f : MappedFile) : Option MappedFile :=
  if f.disk.isEmpty then none else some { f with mmap := some f.disk }

/-- `MappedFile::Read`: nothing when the file cannot be mapped, or when it would copy bytes from
behind the mapping. -/
def read (position numBytes : ℕ) (f : MappedFile) : Option (List UInt8 × MappedFile) := do
  let f ← if f.mmap.isSome then some f else f.map
  let bytes ← f.mmap
  if position + numBytes ≤ bytes.length then some ((bytes.drop position).take numBytes, f)
  else none

/-- The mapping shows what is on the disk. -/
def Fresh (f : MappedFile) : Prop :=
  ∀ bytes ∈ f.mmap, bytes = f.disk

/-- **A read within the file** finds its bytes, and leaves the disk alone. -/
theorem read_eq {f : MappedFile} (h : f.Fresh) {i n : ℕ} (hpos : i < f.disk.length)
    (hend : i + n ≤ f.disk.length) :
    ∃ f', f.read i n = some ((f.disk.drop i).take n, f') ∧ f'.disk = f.disk ∧ f'.Fresh := by
  have hdisk : f.disk.isEmpty = false := by
    cases hcontents : f.disk with
    | nil => rw [hcontents] at hpos; cases hpos
    | cons b bytes => rfl
  cases hmap : f.mmap with
  | none =>
    refine ⟨{ f with mmap := some f.disk }, ?_, rfl, fun bytes hbytes => ?_⟩
    · simp [read, hmap, map, hdisk, hend]
    · exact (Option.mem_some.1 hbytes).symm
  | some bytes =>
    obtain rfl : bytes = f.disk := h bytes hmap
    exact ⟨f, by simp [read, hmap, hend], rfl, h⟩

end MappedFile

/-! ### The append-only file -/

/-- `AppendOnlyFile`. -/
structure AppendOnlyFile where
  /-- `m_bufferIndex`. -/
  bufferIndex : ℕ
  /-- `m_fileSize`. -/
  fileSize : ℕ
  /-- `m_buffer`. -/
  buffer : List UInt8
  /-- `m_pMappedFile`. -/
  mappedFile : MappedFile

namespace AppendOnlyFile

/-- `AppendOnlyFile::Load`, of a file with these bytes. -/
def load (disk : List UInt8) : AppendOnlyFile :=
  ⟨disk.length, disk.length, [], ⟨disk, none⟩⟩

/-- `AppendOnlyFile::Flush`. -/
def flush (opens : Bool) (f : AppendOnlyFile) : Bool × AppendOnlyFile :=
  if f.fileSize = f.bufferIndex ∧ f.buffer.isEmpty then (true, f)
  else if f.fileSize < f.bufferIndex then (false, f)
  else
    let (written, mappedFile) := f.mappedFile.write f.bufferIndex f.buffer opens
    if written then
      (true, ⟨f.bufferIndex + f.buffer.length, f.bufferIndex + f.buffer.length, [], mappedFile⟩)
    else (false, { f with mappedFile := mappedFile })

/-- `AppendOnlyFile::Append`. -/
def append (data : List UInt8) (f : AppendOnlyFile) : AppendOnlyFile :=
  { f with buffer := f.buffer ++ data }

/-- `AppendOnlyFile::Rewind`. -/
def rewind (nextPosition : ℕ) (f : AppendOnlyFile) : Bool × AppendOnlyFile :=
  if f.bufferIndex + f.buffer.length < nextPosition then (false, f)
  else if nextPosition ≤ f.bufferIndex then
    (true, { f with buffer := [], bufferIndex := nextPosition })
  else (true, { f with buffer := f.buffer.take (nextPosition - f.bufferIndex) })

/-- `AppendOnlyFile::Discard`, which is also `AppendOnlyFile::Rollback`. -/
def discard (f : AppendOnlyFile) : AppendOnlyFile :=
  { f with bufferIndex := f.fileSize, buffer := [] }

/-- `AppendOnlyFile::GetSize`. -/
def getSize (f : AppendOnlyFile) : ℕ :=
  f.bufferIndex + f.buffer.length

/-- `AppendOnlyFile::Read`: no bytes when it returns false, and nothing at all when the mapped
file cannot be read. -/
def read (position numBytes : ℕ) (f : AppendOnlyFile) :
    Option (Option (List UInt8) × AppendOnlyFile) :=
  if numBytes = 0 then some (some [], f)
  else if f.getSize < position ∨ f.getSize - position < numBytes then some (none, f)
  else if position < f.bufferIndex then do
    let mappedBytes := min numBytes (f.bufferIndex - position)
    let (mappedData, mappedFile) ← f.mappedFile.read position mappedBytes
    let f := { f with mappedFile := mappedFile }
    if mappedBytes = numBytes then some (some mappedData, f)
    else
      let remainingBytes := numBytes - mappedBytes
      if f.buffer.length < remainingBytes then some (none, f)
      else some (some (mappedData ++ f.buffer.take remainingBytes), f)
  else
    let firstBufferIndex := position - f.bufferIndex
    if f.buffer.length < firstBufferIndex ∨ f.buffer.length - firstBufferIndex < numBytes then
      some (none, f)
    else some (some ((f.buffer.drop firstBufferIndex).take numBytes), f)

/-! ### What the file is for -/

/-- Between operations: the sizes are right, and so is the mapping. -/
structure Sound (f : AppendOnlyFile) : Prop where
  fileSize_eq : f.fileSize = f.mappedFile.disk.length
  bufferIndex_le : f.bufferIndex ≤ f.mappedFile.disk.length
  fresh : f.mappedFile.Fresh

/-- The list of entries the file stands for. -/
def Sound.view {f : AppendOnlyFile} (h : f.Sound) : GrinPlusPlus.AppendOnlyFile UInt8 :=
  ⟨f.mappedFile.disk, f.bufferIndex, f.buffer, h.bufferIndex_le⟩

theorem sound_load (disk : List UInt8) : (load disk).Sound :=
  ⟨rfl, le_rfl, nofun⟩

variable {f : AppendOnlyFile}

theorem Sound.append (h : f.Sound) (data : List UInt8) : (f.append data).Sound :=
  ⟨h.fileSize_eq, h.bufferIndex_le, h.fresh⟩

theorem Sound.rewind (h : f.Sound) (n : ℕ) : (f.rewind n).2.Sound := by
  rw [AppendOnlyFile.rewind]
  split
  · exact h
  · split
    · next hle => exact ⟨h.fileSize_eq, hle.trans h.bufferIndex_le, h.fresh⟩
    · exact ⟨h.fileSize_eq, h.bufferIndex_le, h.fresh⟩

theorem Sound.discard (h : f.Sound) : f.discard.Sound :=
  ⟨h.fileSize_eq, h.fileSize_eq.le, h.fresh⟩

theorem Sound.view_append (h : f.Sound) (data : List UInt8) :
    (h.append data).view = h.view.append data := rfl

theorem Sound.view_discard (h : f.Sound) : h.discard.view = h.view.discard := by
  simp [view, GrinPlusPlus.AppendOnlyFile.discard, GrinPlusPlus.AppendOnlyFile.load,
    AppendOnlyFile.discard, h.fileSize_eq]

/-- A rewind of the file is one of the list. -/
theorem Sound.view_rewind (h : f.Sound) (n : ℕ) :
    h.view.rewind n = if (f.rewind n).1 then some (h.rewind n).view else none := by
  rw [GrinPlusPlus.AppendOnlyFile.rewind]
  by_cases hbehind : f.bufferIndex + f.buffer.length < n
  · simp [view, AppendOnlyFile.rewind, hbehind]
  · by_cases hmapped : n ≤ f.bufferIndex
    · simp [view, AppendOnlyFile.rewind, hbehind, hmapped]
    · simp [view, AppendOnlyFile.rewind, hbehind, hmapped]

/-- What a flush does when its write succeeds: the file is as if it were loaded again. -/
theorem Sound.flush_eq (h : f.Sound) : f.flush true =
    (true, if f.fileSize = f.bufferIndex ∧ f.buffer.isEmpty then f else load h.view.contents) := by
  have hle := h.bufferIndex_le
  have hsize := h.fileSize_eq
  have hcontents : h.view.contents = f.mappedFile.disk.take f.bufferIndex ++ f.buffer := rfl
  have htruncate : MappedFile.truncateFile f.mappedFile.disk f.bufferIndex =
      f.mappedFile.disk.take f.bufferIndex := by
    rw [MappedFile.truncateFile, Nat.sub_eq_zero_of_le hle, List.replicate_zero, List.append_nil]
  have hlength : (f.mappedFile.disk.take f.bufferIndex ++ f.buffer).length =
      f.bufferIndex + f.buffer.length := by
    rw [List.length_append, List.length_take, Nat.min_eq_left hle]
  rw [hcontents, AppendOnlyFile.flush]
  split
  · rfl
  · rw [if_neg (by omega), MappedFile.write, htruncate, load, hlength]
    by_cases hempty : f.buffer.isEmpty
    · rw [if_pos hempty, List.isEmpty_iff.1 hempty, List.append_nil]
      rfl
    · rw [if_neg hempty]
      rfl

theorem Sound.flush (h : f.Sound) : (f.flush true).2.Sound := by
  rw [h.flush_eq]
  dsimp only
  split
  · exact h
  · exact sound_load _

theorem Sound.view_flush (h : f.Sound) : h.flush.view = h.view.flush := by
  have hrest : f.fileSize = f.bufferIndex ∧ f.buffer.isEmpty ↔
      h.view.mapped.length = h.view.bufferIndex ∧ h.view.buffer.isEmpty := by
    rw [h.fileSize_eq]
    rfl
  rw [GrinPlusPlus.AppendOnlyFile.flush]
  split
  · next hclean =>
    simp only [view, h.flush_eq, if_pos (hrest.2 hclean)]
  · next hdirty =>
    simp only [view, h.flush_eq, if_neg fun hclean => hdirty (hrest.1 hclean)]
    rfl

/-- **A failed write** returns false, and cuts the file on the disk although the buffer and the
sizes are kept: what is current can still be read, but not what was committed. -/
theorem Sound.flush_of_not_opens (h : f.Sound) (hbuffer : ¬f.buffer.isEmpty) :
    f.flush false =
      (false, { f with mappedFile := ⟨f.mappedFile.disk.take f.bufferIndex, none⟩ }) := by
  have hle := h.bufferIndex_le
  have hsize := h.fileSize_eq
  have htruncate : MappedFile.truncateFile f.mappedFile.disk f.bufferIndex =
      f.mappedFile.disk.take f.bufferIndex := by
    rw [MappedFile.truncateFile, Nat.sub_eq_zero_of_le hle, List.replicate_zero, List.append_nil]
  rw [AppendOnlyFile.flush, if_neg fun hrest => hbuffer hrest.2, if_neg (by omega),
    MappedFile.write, htruncate, if_neg hbuffer]
  rfl

/-- **A read** succeeds where the list is read, and leaves everything else as it is. -/
theorem Sound.read (h : f.Sound) (position numBytes : ℕ) :
    ∃ (f' : AppendOnlyFile) (h' : f'.Sound), h'.view = h.view ∧
      f.read position numBytes = some (h.view.read position numBytes, f') := by
  have hview : h.view.bufferIndex = f.bufferIndex ∧ h.view.buffer = f.buffer ∧
      h.view.getSize = f.getSize ∧ h.view.mapped = f.mappedFile.disk := ⟨rfl, rfl, rfl, rfl⟩
  obtain ⟨hindex, hbuffer, hsize, hmapped⟩ := hview
  rw [AppendOnlyFile.read, GrinPlusPlus.AppendOnlyFile.read, hindex, hbuffer, hsize, hmapped]
  split
  · exact ⟨f, h, rfl, rfl⟩
  split
  · exact ⟨f, h, rfl, rfl⟩
  split
  · -- the mapped part: the file is not empty, so that it can be mapped
    next hpos =>
    have hle := h.bufferIndex_le
    obtain ⟨mappedFile, hread, hdisk, hfresh⟩ :=
      MappedFile.read_eq h.fresh (i := position) (n := min numBytes (f.bufferIndex - position))
        (by omega) (by omega)
    have hsound : ({ f with mappedFile := mappedFile } : AppendOnlyFile).Sound :=
      ⟨h.fileSize_eq.trans (by rw [hdisk]), hle.trans (by rw [hdisk]), hfresh⟩
    refine ⟨_, hsound, ?_, ?_⟩
    · simp only [view, hdisk]
    · simp only [hread, Option.bind_eq_bind, Option.bind_some]
      split
      · rfl
      · split
        · rfl
        · rfl
  · dsimp only
    split
    · exact ⟨f, h, rfl, rfl⟩
    · exact ⟨f, h, rfl, rfl⟩

end AppendOnlyFile

/-! ### Runs -/

/-- The operations of a file. A write comes with the answer whether its stream could be opened. -/
inductive Operation
  | append (data : List UInt8)
  | rewind (nextPosition : ℕ)
  | flush (opens : Bool)
  | commit (opens : Bool)
  | discard
  | rollback
  | read (position numBytes : ℕ)

/-- The write of the operation, if it has one, succeeds. -/
def Operation.Writes : Operation → Prop
  | flush opens => opens = true
  | commit opens => opens = true
  | _ => True

/-- What an operation answers. -/
inductive Answer
  | done
  | returned (success : Bool)
  | bytes (data : Option (List UInt8))
  | threw
deriving DecidableEq

/-- One operation of `AppendOnlyFile`. -/
def AppendOnlyFile.step (f : AppendOnlyFile) : Operation → Answer × AppendOnlyFile
  | .append data => (.done, f.append data)
  | .rewind nextPosition => ((.returned (f.rewind nextPosition).1), (f.rewind nextPosition).2)
  | .flush opens => (.returned (f.flush opens).1, (f.flush opens).2)
  | .commit opens => (if (f.flush opens).1 then .done else .threw, (f.flush opens).2)
  | .discard => (.done, f.discard)
  | .rollback => (.done, f.discard)
  | .read position numBytes =>
    match f.read position numBytes with
    | some (data, f') => (.bytes data, f')
    | none => (.threw, f)

/-- **What the file is for**: the bytes that are committed, and the current ones. -/
structure Lists where
  /-- The bytes that a rollback brings back. -/
  committed : List UInt8
  /-- The bytes the file has now. -/
  current : List UInt8

/-- One operation on the two lists. -/
def Lists.step (l : Lists) : Operation → Answer × Lists
  | .append data => (.done, { l with current := l.current ++ data })
  | .rewind n =>
    if l.current.length < n then (.returned false, l)
    else (.returned true, { l with current := l.current.take n })
  | .flush _ => (.returned true, { l with committed := l.current })
  | .commit _ => (.done, { l with committed := l.current })
  | .discard => (.done, { l with current := l.committed })
  | .rollback => (.done, { l with current := l.committed })
  | .read i n =>
    (.bytes (if n = 0 ∨ i + n ≤ l.current.length then some ((l.current.drop i).take n) else none),
      l)

/-- A sequence of operations, with their answers. -/
def run {S : Type} (step : S → Operation → Answer × S) : List Operation → S → List Answer × S
  | [], s => ([], s)
  | operation :: operations, s =>
    let first := step s operation
    let rest := run step operations first.2
    (first.1 :: rest.1, rest.2)

/-- The file holds the two lists. -/
structure Holds (f : AppendOnlyFile) (l : Lists) : Prop where
  sound : f.Sound
  committed : f.mappedFile.disk = l.committed
  current : sound.view.contents = l.current

variable {f : AppendOnlyFile} {l : Lists}

theorem holds_load (disk : List UInt8) : Holds (.load disk) ⟨disk, disk⟩ :=
  ⟨AppendOnlyFile.sound_load disk, rfl, GrinPlusPlus.AppendOnlyFile.contents_load disk⟩

theorem Holds.getSize_eq (h : Holds f l) : f.getSize = l.current.length := by
  rw [← h.current, GrinPlusPlus.AppendOnlyFile.length_contents]
  rfl

/-- **Reading the current list**: no bytes can be read anywhere. -/
theorem Holds.read (h : Holds f l) (i n : ℕ) : ∃ f', Holds f' l ∧ f.read i n =
    some (if n = 0 ∨ i + n ≤ l.current.length then some ((l.current.drop i).take n) else none,
      f') := by
  obtain ⟨f', hf', hview, hread⟩ := h.sound.read i n
  have hlength : h.sound.view.contents.length = h.sound.view.getSize :=
    GrinPlusPlus.AppendOnlyFile.length_contents
  refine ⟨f', ⟨hf', ?_, by rw [hview, h.current]⟩, ?_⟩
  · exact (congrArg GrinPlusPlus.AppendOnlyFile.mapped hview).trans h.committed
  · rw [hread, ← h.current]
    congr 2
    rcases Nat.eq_zero_or_pos n with rfl | hpos
    · rw [if_pos (.inl rfl), GrinPlusPlus.AppendOnlyFile.read, if_pos rfl, List.take_zero]
    · by_cases hle : i + n ≤ h.sound.view.contents.length
      · rw [if_pos (.inr hle), GrinPlusPlus.AppendOnlyFile.read_eq (hlength ▸ hle)]
      · rw [if_neg (by omega), GrinPlusPlus.AppendOnlyFile.read, if_neg (by omega),
          if_pos (by omega)]

theorem Holds.append (h : Holds f l) (data : List UInt8) :
    Holds (f.append data) ⟨l.committed, l.current ++ data⟩ where
  sound := h.sound.append data
  committed := h.committed
  current := by
    rw [h.sound.view_append, GrinPlusPlus.AppendOnlyFile.contents_append, h.current]

theorem Holds.discard (h : Holds f l) : Holds f.discard ⟨l.committed, l.committed⟩ where
  sound := h.sound.discard
  committed := h.committed
  current := by
    rw [h.sound.view_discard, GrinPlusPlus.AppendOnlyFile.contents_discard]
    exact h.committed

theorem Holds.flush (h : Holds f l) : Holds (f.flush true).2 ⟨l.current, l.current⟩ where
  sound := h.sound.flush
  committed := by
    have hmapped := congrArg GrinPlusPlus.AppendOnlyFile.mapped h.sound.view_flush
    rw [GrinPlusPlus.AppendOnlyFile.mapped_flush, h.current] at hmapped
    exact hmapped
  current := by
    rw [h.sound.view_flush, GrinPlusPlus.AppendOnlyFile.contents_flush, h.current]

/-- A rewind beyond the end changes nothing, and the others cut the current list. -/
theorem Holds.rewind (h : Holds f l) (n : ℕ) :
    (f.rewind n).1 = decide (n ≤ l.current.length) ∧
      Holds (f.rewind n).2 ⟨l.committed, l.current.take n⟩ := by
  have hsize := h.getSize_eq
  have hview := h.sound.view_rewind n
  by_cases hbehind : l.current.length < n
  · have hrefused : f.rewind n = (false, f) := by
      rw [AppendOnlyFile.rewind, if_pos]
      rwa [← hsize] at hbehind
    rw [hrefused, List.take_of_length_le (by omega), decide_eq_false (by omega)]
    exact ⟨rfl, h⟩
  · have hdone : (f.rewind n).1 = true := by
      rw [AppendOnlyFile.rewind, if_neg]
      · split
        · rfl
        · rfl
      · rwa [← hsize] at hbehind
    rw [hdone, if_pos rfl] at hview
    obtain ⟨hcontents, hmapped⟩ := GrinPlusPlus.AppendOnlyFile.contents_of_rewind hview
    rw [hdone, decide_eq_true (by omega)]
    exact ⟨rfl, h.sound.rewind n, hmapped.trans h.committed, hcontents.trans (by rw [h.current])⟩

/-- **One operation** does to the two lists what it should. -/
theorem step_refines (h : Holds f l) {operation : Operation} (hwrites : operation.Writes) :
    (f.step operation).1 = (l.step operation).1 ∧
      Holds (f.step operation).2 (l.step operation).2 := by
  cases operation with
  | append data => exact ⟨rfl, h.append data⟩
  | rewind n =>
    obtain ⟨hanswer, hholds⟩ := h.rewind n
    rw [AppendOnlyFile.step, Lists.step, hanswer]
    split
    · next hbehind =>
      rw [decide_eq_false (by omega)]
      rw [List.take_of_length_le (by omega)] at hholds
      exact ⟨rfl, hholds⟩
    · next hwithin =>
      rw [decide_eq_true (by omega)]
      exact ⟨rfl, hholds⟩
  | flush opens =>
    obtain rfl : opens = true := hwrites
    refine ⟨?_, h.flush⟩
    rw [AppendOnlyFile.step, h.sound.flush_eq]
    rfl
  | commit opens =>
    obtain rfl : opens = true := hwrites
    refine ⟨?_, h.flush⟩
    rw [AppendOnlyFile.step, h.sound.flush_eq]
    rfl
  | discard => exact ⟨rfl, h.discard⟩
  | rollback => exact ⟨rfl, h.discard⟩
  | read i n =>
    obtain ⟨f', hholds, hread⟩ := h.read i n
    rw [AppendOnlyFile.step, hread]
    exact ⟨rfl, hholds⟩

/-- A sequence of operations whose writes succeed, from any state. -/
theorem run_holds (h : Holds f l) {operations : List Operation}
    (hwrites : ∀ operation ∈ operations, operation.Writes) :
    (run AppendOnlyFile.step operations f).1 = (run Lists.step operations l).1 ∧
      Holds (run AppendOnlyFile.step operations f).2 (run Lists.step operations l).2 := by
  induction operations generalizing f l with
  | nil => exact ⟨rfl, h⟩
  | cons operation operations ih =>
    obtain ⟨hfirst, hrest⟩ := List.forall_mem_cons.1 hwrites
    obtain ⟨hanswer, hholds⟩ := step_refines h hfirst
    obtain ⟨hanswers, hend⟩ := ih hholds hrest
    rw [run, run, hanswer, hanswers]
    exact ⟨rfl, hend⟩

/-- **An append-only file is a byte list with commit and rollback**: the operations answer as the
two lists do, and afterwards the size is that of the current list, a read sees it, and the disk
has the committed one. -/
theorem run_refines (disk : List UInt8) {operations : List Operation}
    (hwrites : ∀ operation ∈ operations, operation.Writes) :
    (run AppendOnlyFile.step operations (.load disk)).1 =
        (run Lists.step operations ⟨disk, disk⟩).1 ∧
      (run AppendOnlyFile.step operations (.load disk)).2.getSize =
        (run Lists.step operations ⟨disk, disk⟩).2.current.length ∧
      (run AppendOnlyFile.step operations (.load disk)).2.mappedFile.disk =
        (run Lists.step operations ⟨disk, disk⟩).2.committed ∧
      ∀ i n, ((run AppendOnlyFile.step operations (.load disk)).2.read i n).map Prod.fst =
        some (if n = 0 ∨ i + n ≤ (run Lists.step operations ⟨disk, disk⟩).2.current.length then
          some (((run Lists.step operations ⟨disk, disk⟩).2.current.drop i).take n)
        else none) := by
  obtain ⟨hanswers, hholds⟩ := run_holds (holds_load disk) hwrites
  refine ⟨hanswers, hholds.getSize_eq, hholds.committed, fun i n => ?_⟩
  obtain ⟨f', -, hread⟩ := hholds.read i n
  rw [hread]
  rfl

/-- A rewind into the file, an append and a commit. -/
theorem run_refines_rewound :
    (run AppendOnlyFile.step [.rewind 1, .append [7, 8], .commit true, .read 0 3]
      (.load [1, 2])).1 =
    (run Lists.step [.rewind 1, .append [7, 8], .commit true, .read 0 3] ⟨[1, 2], [1, 2]⟩).1 :=
  (run_refines [1, 2] (by simp [Operation.Writes])).1

/-- A read of no bytes behind the end of an empty file succeeds. -/
theorem not_read_iff : ¬∀ (disk : List UInt8) (operations : List Operation),
    (∀ operation ∈ operations, operation.Writes) → ∀ i n,
      ((∃ data f', (run AppendOnlyFile.step operations (.load disk)).2.read i n =
        some (some data, f')) ↔
      i + n ≤ (run Lists.step operations ⟨disk, disk⟩).2.current.length) := by
  intro hall
  have hiff := hall [] [] (by simp) 1 0
  have hlt := hiff.1 ⟨[], _, rfl⟩
  cases hlt

end GrinPlusPlus.OnDisk
