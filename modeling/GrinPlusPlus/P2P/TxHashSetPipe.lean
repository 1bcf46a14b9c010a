import GrinPlusPlus.Core.SmallNet

/-!
# The transfer of a state archive

`TxHashSetPipe::SendTxHashSet` and `TxHashSetPipe::Thread_SendTxHashSet`, which answer a request
for the state, and the loop of `TxHashSetPipe::Thread_ProcessTxHashSet`, which receives the answer.
Both sides cut the archive into buffers of one size. The receiver counts bytes and ends with a
buffer that is not full; the sender goes on while a *whole* buffer was read, and what is left over
of the file is never sent.

While the archive is under way no other message may be sent, so `SendTxHashSet` disables them on
the connection. The thread enables them in one place only.
-/

namespace GrinPlusPlus

namespace TxHashSetPipe

/-- `BUFFER_SIZE`. -/
def bufferSize : ℕ := 128 * 1024

theorem bufferSize_pos : 0 < bufferSize := by decide

/-! ### Sending -/

/-- A zip file: it is not empty, and its size is a number of 64 bits. -/
structure ArchiveFile where
  /-- The bytes. -/
  bytes : List UInt8
  /-- There are some. -/
  pos : 0 < bytes.length
  /-- Their number has 64 bits. -/
  length_lt : bytes.length < 2 ^ 64

/-- What the sender finds when it answers a request. The stream is reliable, so all that is sent
arrives. -/
structure SendAnswers where
  /-- The header of the block that is asked for. -/
  headerOpt : Option BlockHeader
  /-- The snapshot was taken. -/
  snapshotTaken : Bool
  /-- The file of the snapshot, when it can be opened. -/
  fileOpt : Option ArchiveFile
  /-- `Global::IsRunning`, behind each buffer that is sent. -/
  isRunning : ℕ → Bool

/-- What the sender keeps of a connection. -/
structure SendConnection where
  /-- `Connection::m_sendingDisabled`. -/
  sendingDisabled : Bool
  /-- The peer is banned. -/
  banned : Bool
  /-- `Peer::GetLastTxHashSetRequest`, in seconds. -/
  lastTxHashSetRequest : ℤ

/-- `TxHashSetArchiveMessage`. -/
structure TxHashSetArchiveMessage where
  /-- The hash of the block. -/
  blockHash : Hash
  /-- The height of the block. -/
  blockHeight : UInt64
  /-- The size of the archive. -/
  zippedSize : UInt64

/-- What was sent, and the connection. -/
structure SentArchive where
  /-- The connection. -/
  connection : SendConnection
  /-- The message. -/
  message : Option TxHashSetArchiveMessage
  /-- The bytes behind the message. -/
  written : List UInt8

/-- The loop `while (file.read(buffer, BUFFER_SIZE))`, within a number of rounds, on what is left
of the file: the bytes it sends, and whether it came to its end. A read that finds less than a
whole buffer fails. -/
def sendLoop (isRunning : ℕ → Bool) : ℕ → ℕ → List UInt8 → List UInt8 × Bool
  | 0, _, _ => ([], false)
  | rounds + 1, i, file =>
    if bufferSize ≤ file.length then
      if isRunning i then
        let rest := sendLoop isRunning rounds (i + 1) (file.drop bufferSize)
        (file.take bufferSize ++ rest.1, rest.2)
      else (file.take bufferSize, false)
    else ([], true)

variable (G : Global)

/-- `TxHashSetPipe::Thread_SendTxHashSet`. -/
def threadSendTxHashSet (answers : SendAnswers) (connection : SendConnection) : SentArchive :=
  match answers.headerOpt with
  | none => ⟨connection, none, []⟩
  | some header =>
    if answers.snapshotTaken = false then ⟨connection, none, []⟩
    else
      match answers.fileOpt with
      | none => ⟨connection, none, []⟩
      | some file =>
        let sent := sendLoop answers.isRunning (file.bytes.length + 1) 0 file.bytes
        ⟨if sent.2 then { connection with sendingDisabled := false } else connection,
          some ⟨header.getHash G, header.height, UInt64.ofNat file.bytes.length⟩, sent.1⟩

/-- `TxHashSetPipe::SendTxHashSet`: a second request within two hours bans the peer. -/
def sendTxHashSet (now : ℤ) (answers : SendAnswers) (connection : SendConnection) : SentArchive :=
  if now - 7200 < connection.lastTxHashSetRequest then
    ⟨{ connection with banned := true }, none, []⟩
  else
    threadSendTxHashSet G answers
      { connection with lastTxHashSetRequest := now, sendingDisabled := true }

/-! ### Receiving -/

/-- The loop of `TxHashSetPipe::Thread_ProcessTxHashSet`, within a number of rounds: the file that
was written so far and the stream that is not read yet. A receive that does not get all of its
bytes ends the transfer. -/
def receiveLoop (isRunning : ℕ → Bool) (zippedSize : ℕ) :
    ℕ → ℕ → List UInt8 → List UInt8 → Option (List UInt8 × List UInt8)
  | 0, _, _, _ => none
  | rounds + 1, i, file, stream =>
    if file.length < zippedSize then
      let bytesToRead := min (zippedSize - file.length) bufferSize
      if stream.length < bytesToRead ∨ isRunning i = false then none
      else
        receiveLoop isRunning zippedSize rounds (i + 1) (file ++ stream.take bytesToRead)
          (stream.drop bytesToRead)
    else some (file, stream)

/-- `TxHashSetPipe::Thread_ProcessTxHashSet`, as far as the archive is received: the file, and what
is left of the stream. -/
def receiveTxHashSet (isRunning : ℕ → Bool) (zippedSize : UInt64) (stream : List UInt8) :
    Option (List UInt8 × List UInt8) :=
  if zippedSize = 0 then none
  else receiveLoop isRunning zippedSize.toNat (zippedSize.toNat + 1) 0 [] stream

/-! ### What the loops do -/

section Loops

variable {isRunning : ℕ → Bool}

/-- **The sender sends whole buffers only**: as many as there are in the file, as long as the node
is running. -/
theorem sendLoop_eq {rounds i : ℕ} {file : List UInt8} (hrounds : file.length < rounds)
    (hrunning : ∀ j, j < file.length / bufferSize → isRunning (i + j) = true) :
    sendLoop isRunning rounds i file =
      (file.take (bufferSize * (file.length / bufferSize)), true) := by
  induction rounds generalizing i file with
  | zero => exact absurd hrounds (Nat.not_lt_zero _)
  | succ rounds ih =>
    have hpos := bufferSize_pos
    rw [sendLoop]
    split
    · next hwhole =>
      -- One buffer is sent, and the file has one less.
      have hcount : file.length / bufferSize = (file.drop bufferSize).length / bufferSize + 1 := by
        rw [List.length_drop, ← Nat.div_eq_sub_div hpos hwhole]
      have hfirst : isRunning i = true := by
        have hzero := hrunning 0 (by rw [hcount]; exact Nat.succ_pos _)
        rwa [Nat.add_zero] at hzero
      have hlater : ∀ j, j < (file.drop bufferSize).length / bufferSize →
          isRunning (i + 1 + j) = true := by
        intro j hj
        rw [Nat.add_assoc, Nat.add_comm 1 j]
        exact hrunning (j + 1) (by rw [hcount]; exact Nat.succ_lt_succ hj)
      have hshorter : (file.drop bufferSize).length < rounds := by
        rw [List.length_drop]
        omega
      rw [if_pos hfirst, ih hshorter hlater, hcount, Nat.mul_succ, Nat.add_comm _ bufferSize,
        List.take_add]
    · next hshort =>
      rw [Nat.div_eq_of_lt (by omega), Nat.mul_zero, List.take_zero]

/-- The loop comes to its end only while the node is running. -/
theorem isRunning_of_sendLoop {rounds i : ℕ} {file : List UInt8} (hrounds : file.length < rounds)
    (hend : (sendLoop isRunning rounds i file).2 = true) :
    ∀ j, j < file.length / bufferSize → isRunning (i + j) = true := by
  induction rounds generalizing i file with
  | zero => exact absurd hrounds (Nat.not_lt_zero _)
  | succ rounds ih =>
    have hpos := bufferSize_pos
    rw [sendLoop] at hend
    intro j hj
    have hwhole : bufferSize ≤ file.length := by
      by_contra hshort
      rw [Nat.div_eq_of_lt (by omega)] at hj
      exact Nat.not_lt_zero _ hj
    rw [if_pos hwhole] at hend
    split at hend
    · next hfirst =>
      cases j with
      | zero => exact hfirst
      | succ j =>
        rw [Nat.div_eq_sub_div hpos hwhole, ← List.length_drop] at hj
        have hshorter : (file.drop bufferSize).length < rounds := by
          rw [List.length_drop]
          omega
        have hlater := ih hshorter hend j (Nat.lt_of_succ_lt_succ hj)
        rwa [Nat.add_assoc, Nat.add_comm 1 j] at hlater
    · cases hend

/-- The receiver gets what it counts. -/
theorem receiveLoop_eq {zippedSize rounds i : ℕ} {file stream later : List UInt8}
    (hrunning : ∀ j, isRunning j = true) (hsize : file.length + stream.length = zippedSize)
    (hrounds : stream.length < rounds) :
    receiveLoop isRunning zippedSize rounds i file (stream ++ later) =
      some (file ++ stream, later) := by
  induction rounds generalizing i file stream with
  | zero => exact absurd hrounds (Nat.not_lt_zero _)
  | succ rounds ih =>
    have hpos := bufferSize_pos
    rw [receiveLoop]
    split
    · next hmore =>
      generalize hread : min (zippedSize - file.length) bufferSize = bytesToRead
      have hle : bytesToRead ≤ stream.length := by
        rw [← hread, ← hsize]
        omega
      have hreads : 0 < bytesToRead := by
        rw [← hread]
        omega
      have henough : ¬((stream ++ later).length < bytesToRead ∨ isRunning i = false) := by
        rw [List.length_append, hrunning i]
        rintro (hshort | hstopped)
        · omega
        · cases hstopped
      dsimp only
      rw [if_neg henough, List.take_append_of_le_length hle, List.drop_append_of_le_length hle]
      rw [ih (by rw [List.length_append, List.length_take, List.length_drop]; omega)
        (by rw [List.length_drop]; omega), List.append_assoc, List.take_append_drop]
    · next hall =>
      have hnil : stream = [] := List.length_eq_zero_iff.mp (by omega)
      rw [hnil, List.nil_append, List.append_nil]

/-- **The receiver ends with the archive**, whatever follows it in the stream. -/
theorem receiveTxHashSet_eq (hrunning : ∀ j, isRunning j = true) (file : ArchiveFile)
    (later : List UInt8) :
    receiveTxHashSet isRunning (UInt64.ofNat file.bytes.length) (file.bytes ++ later) =
      some (file.bytes, later) := by
  have hsize : (UInt64.ofNat file.bytes.length).toNat = file.bytes.length :=
    UInt64.toNat_ofNat_of_lt' file.length_lt
  have hne : UInt64.ofNat file.bytes.length ≠ 0 := by
    intro hzero
    rw [hzero, UInt64.toNat_zero] at hsize
    exact file.pos.ne hsize
  rw [receiveTxHashSet, if_neg hne, hsize]
  exact receiveLoop_eq hrunning (Nat.zero_add _) (Nat.lt_succ_self _)

end Loops

/-! ### The transfer -/

/-- The archive that there is to send. -/
def SendAnswers.archive (answers : SendAnswers) : Option (BlockHeader × ArchiveFile) :=
  match answers.headerOpt, answers.fileOpt with
  | some header, some file => if answers.snapshotTaken then some (header, file) else none
  | _, _ => none

/-- **The transfer delivers the archive**: it is announced with its size and sent behind the
message, so that the receiver ends with it; and whenever no byte of it is outstanding, other
messages can be sent again. -/
structure Delivers (answers : SendAnswers) (sent : SentArchive) : Prop where
  /-- The archive is announced … -/
  announced : ∀ header file, answers.archive = some (header, file) →
    sent.message = some ⟨header.getHash G, header.height, UInt64.ofNat file.bytes.length⟩
  /-- … its bytes are sent … -/
  written : ∀ header file, answers.archive = some (header, file) → sent.written = file.bytes
  /-- … and the receiver gets them, whatever is sent behind them. -/
  received : ∀ header file, answers.archive = some (header, file) → ∀ isRunning later,
    (∀ j, isRunning j = true) →
    receiveTxHashSet isRunning (UInt64.ofNat file.bytes.length) (sent.written ++ later) =
      some (file.bytes, later)
  /-- When all of the archive was sent, or there is none, sends are enabled. -/
  enabled : (∀ header file, answers.archive = some (header, file) → sent.written = file.bytes) →
    sent.connection.sendingDisabled = false

variable {G} {answers : SendAnswers} {connection : SendConnection}

/-- Without an archive nothing is sent, and the connection stays as it is. -/
theorem threadSendTxHashSet_of_none (hnone : answers.archive = none) :
    threadSendTxHashSet G answers connection = ⟨connection, none, []⟩ := by
  rw [SendAnswers.archive] at hnone
  rw [threadSendTxHashSet]
  cases hheader : answers.headerOpt with
  | none => rfl
  | some header =>
    cases hsnapshot : answers.snapshotTaken with
    | false => rfl
    | true =>
      cases hfile : answers.fileOpt with
      | none => rfl
      | some file =>
        rw [hheader, hfile, hsnapshot] at hnone
        cases hnone

/-- With an archive the loop runs. -/
theorem threadSendTxHashSet_of_some {header : BlockHeader} {file : ArchiveFile}
    (hsome : answers.archive = some (header, file)) :
    threadSendTxHashSet G answers connection =
      ⟨if (sendLoop answers.isRunning (file.bytes.length + 1) 0 file.bytes).2 then
          { connection with sendingDisabled := false } else connection,
        some ⟨header.getHash G, header.height, UInt64.ofNat file.bytes.length⟩,
        (sendLoop answers.isRunning (file.bytes.length + 1) 0 file.bytes).1⟩ := by
  rw [SendAnswers.archive] at hsome
  rw [threadSendTxHashSet]
  cases hheader : answers.headerOpt with
  | none =>
    rw [hheader] at hsome
    cases hsome
  | some header' =>
    cases hfile : answers.fileOpt with
    | none =>
      rw [hheader, hfile] at hsome
      cases hsome
    | some file' =>
      rw [hheader, hfile] at hsome
      dsimp only at hsome
      split at hsome
      · next hsnapshot =>
        cases hsome
        rw [hsnapshot]
        rfl
      · cases hsome

/-- Whole buffers are all of a file when its size is a multiple of theirs. -/
theorem take_whole_eq_iff (bytes : List UInt8) :
    bytes.take (bufferSize * (bytes.length / bufferSize)) = bytes ↔
      bufferSize ∣ bytes.length := by
  rw [Nat.dvd_iff_mod_eq_zero]
  have hdiv := Nat.div_add_mod bytes.length bufferSize
  constructor
  · intro hall
    have hlength := congrArg List.length hall
    rw [List.length_take] at hlength
    omega
  · intro hmod
    exact List.take_of_length_le (by omega)

end TxHashSetPipe

open TxHashSetPipe in
/-- **When the transfer delivers the archive**: exactly when there is one, its size is a multiple of
that of the buffer, and the node is running until the last buffer is sent. -/
theorem delivers_iff {G : Global} {now : ℤ} {answers : SendAnswers} {connection : SendConnection}
    (hrequest : connection.lastTxHashSetRequest ≤ now - 7200) :
    Delivers G answers (sendTxHashSet G now answers connection) ↔
      ∃ header file, answers.archive = some (header, file) ∧
        bufferSize ∣ file.bytes.length ∧
        ∀ i, i < file.bytes.length / bufferSize → answers.isRunning i = true := by
  rw [sendTxHashSet, if_neg (by omega)]
  cases harchive : answers.archive with
  | none =>
    rw [threadSendTxHashSet_of_none harchive]
    constructor
    · intro hdelivers
      have henabled := hdelivers.enabled (by rw [harchive]; rintro _ _ ⟨⟩)
      cases henabled
    · rintro ⟨_, _, ⟨⟩, -⟩
  | some archive =>
    obtain ⟨header, file⟩ := archive
    rw [threadSendTxHashSet_of_some harchive]
    constructor
    · intro hdelivers
      have hwritten := hdelivers.written header file harchive
      have henabled := hdelivers.enabled (by
        intro header' file' harchive'
        rw [harchive] at harchive'
        cases harchive'
        exact hwritten)
      dsimp only at hwritten henabled
      -- Sends are enabled behind the loop only, so it came to its end.
      have hend : (sendLoop answers.isRunning (file.bytes.length + 1) 0 file.bytes).2 = true := by
        by_contra hstopped
        rw [if_neg hstopped] at henabled
        cases henabled
      have hrunning := isRunning_of_sendLoop (Nat.lt_succ_self _) hend
      rw [sendLoop_eq (Nat.lt_succ_self _) hrunning] at hwritten
      refine ⟨header, file, rfl, (take_whole_eq_iff file.bytes).mp hwritten, ?_⟩
      intro i hi
      have hi := hrunning i hi
      rwa [Nat.zero_add] at hi
    · rintro ⟨header', file', hsome, hdvd, hrunning⟩
      cases hsome
      have hloop : sendLoop answers.isRunning (file.bytes.length + 1) 0 file.bytes =
          (file.bytes, true) := by
        rw [sendLoop_eq (Nat.lt_succ_self _) (by simpa using hrunning),
          (take_whole_eq_iff file.bytes).mpr hdvd]
      rw [hloop]
      refine ⟨?_, ?_, ?_, fun _ => rfl⟩
      · rintro header' file' harchive'
        rw [harchive] at harchive'
        cases harchive'
        rfl
      · rintro header' file' harchive'
        rw [harchive] at harchive'
        cases harchive'
        rfl
      · rintro header' file' harchive' isRunning later hreceiver
        rw [harchive] at harchive'
        cases harchive'
        exact receiveTxHashSet_eq hreceiver file later

namespace SmallNet

open TxHashSetPipe

theorem length_pos_byte : 0 < [(0 : UInt8)].length := Nat.one_pos

theorem length_lt_byte : [(0 : UInt8)].length < 2 ^ 64 := Nat.one_lt_two_pow (by decide)

theorem length_pos_buffer : 0 < (List.replicate bufferSize (0 : UInt8)).length := by
  rw [List.length_replicate]
  exact bufferSize_pos

theorem length_lt_buffer : (List.replicate bufferSize (0 : UInt8)).length < 2 ^ 64 := by
  rw [List.length_replicate]
  decide

/-- An archive of one byte. -/
def byteArchive : ArchiveFile := ⟨[0], length_pos_byte, length_lt_byte⟩

/-- An archive of one buffer. -/
def bufferArchive : ArchiveFile :=
  ⟨List.replicate bufferSize 0, length_pos_buffer, length_lt_buffer⟩

/-- The answers of a running node that has an archive. -/
def sendAnswers (file : ArchiveFile) : SendAnswers where
  headerOpt := some genesisHeader
  snapshotTaken := true
  fileOpt := some file
  isRunning := fun _ => true

/-- A connection to a peer that did not ask before. -/
def sendConnection : SendConnection where
  sendingDisabled := false
  banned := false
  lastTxHashSetRequest := 0

end SmallNet

open TxHashSetPipe SmallNet

/-- An archive of one buffer is delivered. -/
theorem delivers_iff_oneBuffer :
    Delivers (smallNet .mainnet) (sendAnswers bufferArchive)
      (sendTxHashSet (smallNet .mainnet) 7200 (sendAnswers bufferArchive) sendConnection) := by
  refine (delivers_iff (by decide)).mpr ⟨genesisHeader, bufferArchive, rfl, ?_, fun _ _ => rfl⟩
  exact Dvd.intro_left 1 (by rw [Nat.one_mul]; exact (List.length_replicate ..).symm)

/-- Of an archive of one byte nothing is sent. -/
theorem not_delivers_oneByte :
    ¬Delivers (smallNet .mainnet) (sendAnswers byteArchive)
      (sendTxHashSet (smallNet .mainnet) 7200 (sendAnswers byteArchive) sendConnection) := by
  intro hdelivers
  have hwritten := hdelivers.written genesisHeader byteArchive rfl
  have hnothing : (sendTxHashSet (smallNet .mainnet) 7200 (sendAnswers byteArchive)
      sendConnection).written = [] := by
    decide
  rw [hnothing] at hwritten
  cases hwritten

end GrinPlusPlus
