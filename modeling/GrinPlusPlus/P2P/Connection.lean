import GrinPlusPlus.Core.KernelCodec
import GrinPlusPlus.Lib.Overtaking
import GrinPlusPlus.P2P.Messages

/-!
# Connections

A `Connection` on its two sides. The sender queues messages: one is being written, and those behind
it wait by their priority, so that the answer to a request for a state overtakes gossip. The
receiver reads a header of eleven bytes, then as many bytes as it announces, and so on.

Messages may overtake each other, but they are **never mixed**: the one that is being written stays
in front. So every run of the queue hands over the messages one by one, each once, and those of one
priority in the order in which they were sent (`GrinPlusPlus.Socket.delivers`). Whatever arrives
from a peer, on the other hand, is cut into frames that announce their own length, and none of them
is longer than four times what its type allows (`GrinPlusPlus.Connection.receive_frames`).
-/

namespace GrinPlusPlus

open Exec ByteBuffer Codec

/-! ### Frames -/

/-- `P2PConfig::GetMagicBytes`. -/
def Global.getMagicBytes (G : Global) : UInt8 × UInt8 :=
  if G.env = .mainnet then (97, 61) else (83, 59)

/-- `MessageHeader`. -/
structure MessageHeader where
  /-- `m_type`. -/
  type : EMessageType
  /-- `m_length`. -/
  length : UInt64
deriving DecidableEq

/-- `RawMessage`. -/
structure RawMessage where
  /-- `m_header`. -/
  header : MessageHeader
  /-- `m_payload`. -/
  payload : List UInt8
deriving DecidableEq

/-- `MessageHeader::Serialize`. -/
def MessageHeader.serialize (G : Global) (h : MessageHeader) : List UInt8 :=
  [G.getMagicBytes.1, G.getMagicBytes.2, h.type.value] ++ beBytes 8 h.length.toNat

/-- `MessageHeader::Deserialize`. -/
def MessageHeader.deserialize (G : Global) : ByteBuffer MessageHeader := do
  let magicByte1 ← readU8
  let magicByte2 ← readU8
  if (magicByte1, magicByte2) ≠ G.getMagicBytes then
    throw (.deserialization "Message header is invalid. Bad magic bytes.")
  else do
    let messageType ← readU8
    let messageLength ← readU64
    if EMessageType.getMaximumSize ⟨messageType⟩ * 4 < messageLength.toNat then
      throw (.deserialization "Message header is invalid. Message length too long")
    else pure ⟨⟨messageType⟩, messageLength⟩

/-- The bytes of a raw message. -/
def RawMessage.bytes (G : Global) (m : RawMessage) : List UInt8 :=
  m.header.serialize G ++ m.payload

/-- `IMessage::Serialize`. -/
def Message.serialize (G : Global) (version : EProtocolVersion) (m : Message) : List UInt8 :=
  [G.getMagicBytes.1, G.getMagicBytes.2, m.getMessageType.value] ++
    (beBytes 8 (m.serializeBody version).length ++ m.serializeBody version)

/-- What a message must be to be accepted: it can be read back, and is not too long. -/
structure Message.Sendable (G : Global) (coinView : Commitment → Except Exc OutputFeatures)
    (version : EProtocolVersion) (m : Message) : Prop where
  /-- It can be read back. -/
  fits : m.Fits G coinView version
  /-- It announces no archive. -/
  not_archive : m.getMessageType ≠ .txHashSetArchive
  /-- It is not too long for its type. -/
  length_le : (m.serializeBody version).length ≤ m.getMessageType.getMaximumSize * 4

namespace Connection

/-- `Connection::HandleReceivedHeader` and `Connection::HandleReceivedBody`, up to the processing:
the next message of the stream, once it is there. A header that is refused closes the
connection. -/
def nextRaw (G : Global) (stream : List UInt8) : Option (RawMessage × List UInt8) :=
  match run (MessageHeader.deserialize G) stream with
  | (.error _, _) => none
  | (.ok header, rest) =>
    if rest.length < header.length.toNat then none
    else some (⟨header, rest.take header.length.toNat⟩, rest.drop header.length.toNat)

section

variable {G : Global} (sort : BodySort G) (coinView : Commitment → Except Exc OutputFeatures)
  (version : EProtocolVersion)

/-- What `MessageProcessor::ProcessMessage` reads. What follows an announced archive is no message
but is left to `TxHashSetPipe::ReceiveTxHashSet`. Of the errors two kinds are only held against the
peer; any other disconnects. -/
def processMessage (raw : RawMessage) : Option (Except Exc (Option Message)) :=
  if raw.header.type = .txHashSetArchive then none
  else
    match (run (Message.deserialize sort coinView version raw.header.type) raw.payload).1 with
    | .error (.badData reason message) => some (.error (.badData reason message))
    | .error (.blockChain message) => some (.error (.blockChain message))
    | .error _ => none
    | .ok message => some (.ok message)

/-- The next message and what is read of it. -/
def nextMessage (stream : List UInt8) :
    Option ((RawMessage × Except Exc (Option Message)) × List UInt8) :=
  match nextRaw G stream with
  | none => none
  | some (raw, rest) =>
    (processMessage sort coinView version raw).map fun result => ((raw, result), rest)

/-- What is received of a stream, and what is left of it. -/
def receive (stream : List UInt8) :
    List (RawMessage × Except Exc (Option Message)) × List UInt8 :=
  cut (nextMessage sort coinView version) stream

end

end Connection

/-! ### Sending -/

/-- `GetAsyncSendPriority`. -/
def getAsyncSendPriority (messageType : EMessageType) : UInt8 :=
  if messageType = .outputBitmapSegment then 4
  else if messageType = .kernelSegment ∨ messageType = .outputSegment ∨
      messageType = .rangeProofSegment then 2
  else 0

/-- `Socket::QueuedWrite`. -/
structure QueuedWrite where
  /-- `bytes`. -/
  bytes : List UInt8
  /-- `priority`. -/
  priority : UInt8
deriving DecidableEq

/-- `Socket`: the queue, how far its front is written, and everything that was written. -/
structure Socket where
  /-- `m_writeQueue`. -/
  writeQueue : List QueuedWrite
  /-- The bytes of the front that `asio::async_write` has written. -/
  transferred : ℕ
  /-- The bytes that were written to the stream. -/
  wire : List UInt8
deriving DecidableEq

namespace Socket

/-- An open socket. -/
def empty : Socket :=
  ⟨[], 0, []⟩

/-- The loop of `Socket::SendAsync` that looks for the place of a message. -/
def insertByPriority (queuedWrite : QueuedWrite) : List QueuedWrite → List QueuedWrite
  | [] => [queuedWrite]
  | other :: waiting =>
    if queuedWrite.priority ≤ other.priority then
      other :: insertByPriority queuedWrite waiting
    else queuedWrite :: other :: waiting

/-- `Socket::SendAsync`. -/
def sendAsync (message : List UInt8) (priority : UInt8) (s : Socket) : Socket :=
  match s.writeQueue with
  | [] => { s with writeQueue := [⟨message, priority⟩] }
  | front :: waiting =>
    if 0 < priority then
      { s with writeQueue := front :: insertByPriority ⟨message, priority⟩ waiting }
    else { s with writeQueue := front :: (waiting ++ [⟨message, priority⟩]) }

/-- `asio::async_write` writes some more bytes of the front. -/
def transfer (numBytes : ℕ) (s : Socket) : Socket :=
  match s.writeQueue with
  | [] => s
  | front :: _ =>
    let piece := (front.bytes.drop s.transferred).take numBytes
    { s with
      transferred := s.transferred + piece.length
      wire := s.wire ++ piece }

/-- `Socket::HandleSent`, which `asio::async_write` calls when the front is written. -/
def handleSent (s : Socket) : Socket :=
  match s.writeQueue with
  | [] => s
  | front :: waiting =>
    if s.transferred = front.bytes.length then { s with
      writeQueue := waiting
      transferred := 0 }
    else s

/-- What happens to a socket. -/
inductive Op
  | sendAsync (message : Message)
  | transfer (numBytes : ℕ)
  | handleSent

/-- One step. The first is `Connection::SendAsync`. -/
def step (G : Global) (version : EProtocolVersion) (s : Socket) : Op → Socket
  | .sendAsync message =>
    s.sendAsync (message.serialize G version) (getAsyncSendPriority message.getMessageType)
  | .transfer numBytes => s.transfer numBytes
  | .handleSent => s.handleSent

/-- A run. -/
def run (G : Global) (version : EProtocolVersion) (ops : List Op) (s : Socket) : Socket :=
  ops.foldl (step G version) s

/-- The messages that a run was asked to send. -/
def sent (ops : List Op) : List Message :=
  ops.filterMap fun op =>
    match op with
    | .sendAsync message => some message
    | _ => none

end Socket

/-! ### Frames are taken whole -/

theorem EMessageType.getMaximumSize_lt (type : EMessageType) :
    type.getMaximumSize * 4 < 2 ^ 64 := by
  rw [getMaximumSize]
  split <;> decide

namespace MessageHeader

variable {G : Global} {h : MessageHeader}

theorem length_serialize : (h.serialize G).length = 11 := by
  rw [serialize, List.length_append, length_beBytes]
  rfl

/-- **A header is read back** unless it announces too much. -/
theorem reads (hle : h.length.toNat ≤ h.type.getMaximumSize * 4) :
    Reads (deserialize G) (h.serialize G) h := by
  refine (reads_u8 G.getMagicBytes.1).bind ((reads_u8 G.getMagicBytes.2).bind ?_)
  rw [if_neg (not_not.2 rfl)]
  refine (reads_u8 h.type.value).bind ((?_ : Reads _ _ h))
  rw [← List.append_nil (beBytes 8 h.length.toNat)]
  refine (reads_u64 h.length).bind ?_
  rw [if_neg (Nat.not_lt_of_le hle)]
  exact reads_pure _

/-- What is taken for a header is one, and it does not announce too much. -/
theorem of_run_deserialize {stream rest : List UInt8}
    (hrun : run (deserialize G) stream = (.ok h, rest)) :
    stream = h.serialize G ++ rest ∧ h.length.toNat ≤ h.type.getMaximumSize * 4 := by
  obtain ⟨magicByte1, s₁, h1, hrun⟩ := of_run_bind_ok hrun
  obtain ⟨magicByte2, s₂, h2, hrun⟩ := of_run_bind_ok hrun
  split at hrun
  · cases hrun
  · next hmagic =>
    rw [not_not] at hmagic
    obtain ⟨messageType, s₃, h3, hrun⟩ := of_run_bind_ok hrun
    obtain ⟨messageLength, s₄, h4, hrun⟩ := of_run_bind_ok hrun
    split at hrun
    · cases hrun
    · next hle =>
      cases hrun
      rw [of_run_readU8 h1, of_run_readU8 h2, of_run_readU8 h3, of_run_readU64 h4, serialize,
        ← hmagic]
      exact ⟨rfl, Nat.le_of_not_lt hle⟩

end MessageHeader

/-- A message as its header announces it. -/
structure RawMessage.WellFormed (raw : RawMessage) : Prop where
  /-- It is as long as announced. -/
  length_payload : raw.payload.length = raw.header.length.toNat
  /-- It is not too long for its type. -/
  length_le : raw.header.length.toNat ≤ raw.header.type.getMaximumSize * 4

namespace Message

variable {G : Global} {version : EProtocolVersion} {m : Message}

/-- The raw form of a message. -/
def raw (version : EProtocolVersion) (m : Message) : RawMessage :=
  ⟨⟨m.getMessageType, UInt64.ofNat (m.serializeBody version).length⟩, m.serializeBody version⟩

theorem toNat_length_raw
    (hle : (m.serializeBody version).length ≤ m.getMessageType.getMaximumSize * 4) :
    (m.raw version).header.length.toNat = (m.serializeBody version).length :=
  UInt64.toNat_ofNat_of_lt' (hle.trans_lt m.getMessageType.getMaximumSize_lt)

/-- A message that is not too long is written as its raw form. -/
theorem serialize_eq
    (hle : (m.serializeBody version).length ≤ m.getMessageType.getMaximumSize * 4) :
    m.serialize G version = (m.raw version).bytes G := by
  rw [RawMessage.bytes, MessageHeader.serialize, toNat_length_raw hle, serialize,
    List.append_assoc]
  rfl

theorem wellFormed_raw
    (hle : (m.serializeBody version).length ≤ m.getMessageType.getMaximumSize * 4) :
    (m.raw version).WellFormed :=
  ⟨(toNat_length_raw hle).symm, (toNat_length_raw hle).trans_le hle⟩

end Message

/-! ### Receiving -/

namespace Message

/-- What is read is of one type, if it is a message at all. -/
def Yields (type : EMessageType) (read : ByteBuffer (Option Message)) : Prop :=
  ∀ stream rest m, run read stream = (.ok (some m), rest) → m.getMessageType = type

variable {type : EMessageType}

theorem yields_pure {m : Message} (h : m.getMessageType = type) :
    Yields type (pure (some m)) := by
  intro stream rest m' hrun
  cases hrun
  exact h

theorem yields_none : Yields type (pure none) :=
  fun _ _ _ hrun => nomatch hrun

theorem Yields.bind {α : Type} {x : ByteBuffer α} {f : α → ByteBuffer (Option Message)}
    (h : ∀ a, Yields type (f a)) : Yields type (x >>= f) := by
  intro stream rest m hrun
  obtain ⟨a, s, -, hrun⟩ := of_run_bind_ok hrun
  exact h a s rest m hrun

end Message

namespace Connection

variable {G : Global} {sort : BodySort G} {coinView : Commitment → Except Exc OutputFeatures}
  {version : EProtocolVersion} {m : Message} {raw : RawMessage} {stream rest : List UInt8}

/-- **The next message** is a whole one, and is what the stream begins with. -/
theorem nextRaw_eq_some :
    nextRaw G stream = some (raw, rest) ↔ raw.WellFormed ∧ stream = raw.bytes G ++ rest := by
  constructor
  · intro h
    rw [nextRaw] at h
    split at h
    · cases h
    · next header rest' hrun =>
      obtain ⟨rfl, hle⟩ := MessageHeader.of_run_deserialize hrun
      split at h
      · cases h
      · next hlength =>
        cases h
        refine ⟨⟨?_, hle⟩, ?_⟩
        · exact List.length_take_of_le (Nat.le_of_not_lt hlength)
        · rw [RawMessage.bytes, List.append_assoc, List.take_append_drop]
  · rintro ⟨hraw, rfl⟩
    have hlength : ¬(raw.payload ++ rest).length < raw.header.length.toNat := by
      rw [List.length_append, hraw.length_payload]
      omega
    rw [nextRaw, RawMessage.bytes, List.append_assoc, MessageHeader.reads hraw.length_le]
    dsimp only
    rw [if_neg hlength, ← hraw.length_payload, List.take_left, List.drop_left]

theorem nextMessage_eq_some {result : Except Exc (Option Message)} :
    nextMessage sort coinView version stream = some ((raw, result), rest) ↔
      raw.WellFormed ∧ processMessage sort coinView version raw = some result ∧
        stream = raw.bytes G ++ rest := by
  rw [nextMessage]
  constructor
  · intro h
    split at h
    · cases h
    · next raw' rest' hraw =>
      obtain ⟨result', hresult, heq⟩ := Option.map_eq_some_iff.1 h
      cases heq
      obtain ⟨hwf, rfl⟩ := nextRaw_eq_some.1 hraw
      exact ⟨hwf, hresult, rfl⟩
  · rintro ⟨hwf, hresult, rfl⟩
    rw [nextRaw_eq_some.2 ⟨hwf, rfl⟩]
    dsimp only
    rw [hresult, Option.map_some]

theorem framed : Framed (nextMessage sort coinView version) where
  length_lt := by
    rintro stream ⟨raw, result⟩ rest h
    obtain ⟨-, -, rfl⟩ := nextMessage_eq_some.1 h
    rw [List.length_append, RawMessage.bytes, List.length_append, MessageHeader.length_serialize]
    omega
  append := by
    rintro stream ⟨raw, result⟩ rest h more
    obtain ⟨hwf, hresult, rfl⟩ := nextMessage_eq_some.1 h
    exact nextMessage_eq_some.2 ⟨hwf, hresult, List.append_assoc ..⟩

/-- What is read of a body is of the type that the header names. -/
theorem yields_deserialize (type : EMessageType) :
    Message.Yields type (Message.deserialize sort coinView version type) := by
  have hvalue : ∀ {n : ℕ}, type.value.toNat = n → ∀ t : EMessageType, t.value.toNat = n →
      t = type := by
    rintro n rfl ⟨value⟩ h
    cases type
    exact congrArg EMessageType.mk (UInt8.toNat_inj.1 h)
  rw [Message.deserialize]
  split
  all_goals first
    | exact Message.yields_none
    | exact .bind fun _ => .bind fun _ => Message.yields_none
    | next h => exact .bind fun _ => Message.yields_pure (hvalue h _ rfl)
    | next h => exact .bind fun _ => .bind fun _ => Message.yields_pure (hvalue h _ rfl)
    | next h => exact .bind fun _ => .bind fun _ => .bind fun _ =>
        Message.yields_pure (hvalue h _ rfl)

theorem of_processMessage (h : processMessage sort coinView version raw = some (.ok (some m))) :
    m.getMessageType = raw.header.type := by
  rw [processMessage] at h
  split at h
  · cases h
  · split at h
    · cases h
    · cases h
    · cases h
    · next hrun =>
      cases h
      exact yields_deserialize _ _ _ _ (Prod.ext hrun rfl)

/-- **Whatever a peer sends is cut into frames.** They are what the stream begins with, each has the
length that it announces and is no longer than four times what its type allows, and what is read of
it is of that type. It does not matter in which pieces the stream arrives. -/
theorem receive_frames (stream more : List UInt8) :
    stream = ((receive sort coinView version stream).1.flatMap fun frame => frame.1.bytes G) ++
        (receive sort coinView version stream).2 ∧
      (∀ frame ∈ (receive sort coinView version stream).1,
        frame.1.payload.length = frame.1.header.length.toNat ∧
        frame.1.payload.length ≤ frame.1.header.type.getMaximumSize * 4 ∧
        ∀ m, frame.2 = .ok (some m) → m.getMessageType = frame.1.header.type) ∧
      receive sort coinView version (stream ++ more) =
        ((receive sort coinView version stream).1 ++
          (receive sort coinView version ((receive sort coinView version stream).2 ++ more)).1,
        (receive sort coinView version ((receive sort coinView version stream).2 ++ more)).2) := by
  have hframed : Framed (nextMessage sort coinView version) := framed
  obtain ⟨hstream, hframes⟩ := hframed.of_cut (fun frame => frame.1.bytes G)
    (fun frame => frame.1.WellFormed ∧
      processMessage sort coinView version frame.1 = some frame.2)
    (fun h => ⟨(nextMessage_eq_some.1 h).2.2, (nextMessage_eq_some.1 h).1,
      (nextMessage_eq_some.1 h).2.1⟩) stream
  refine ⟨hstream, fun frame hframe => ?_, hframed.cut_append stream more⟩
  obtain ⟨hwf, hresult⟩ := hframes frame hframe
  refine ⟨hwf.length_payload, hwf.length_payload.trans_le hwf.length_le, fun m hm => ?_⟩
  exact of_processMessage (hm ▸ hresult)

/-- A message that was sent is the next one. -/
theorem nextMessage_serialize (hG : G.InjectiveOnBytes) (h : m.Sendable G coinView version) :
    nextMessage sort coinView version (m.serialize G version) =
      some ((m.raw version, .ok (some m)), []) := by
  have hread := Message.reads_deserialize sort hG h.fits []
  rw [List.append_nil] at hread
  refine nextMessage_eq_some.2 ⟨Message.wellFormed_raw h.length_le, ?_, ?_⟩
  · rw [Message.raw, processMessage, if_neg h.not_archive]
    dsimp only
    rw [hread]
  · rw [Message.serialize_eq h.length_le, List.append_nil]

variable (sort) in
/-- **Messages that were sent come back**, and part of another is left. -/
theorem receive_serialize (hG : G.InjectiveOnBytes) {messages : List Message}
    (h : ∀ m ∈ messages, m.Sendable G coinView version) {last : List UInt8} (k : ℕ)
    (hlast : last = [] ∨ ∃ m : Message, m.Sendable G coinView version ∧
      k < (m.serialize G version).length ∧ last = (m.serialize G version).take k) :
    receive sort coinView version (messages.flatMap (fun m => m.serialize G version) ++ last) =
      (messages.map fun m => (m.raw version, .ok (some m)), last) := by
  have hcut : cut (nextMessage sort coinView version) last = ([], last) := by
    rcases hlast with rfl | ⟨m, hm, hk, rfl⟩
    · rfl
    · exact framed.cut_take (nextMessage_serialize hG hm) hk
  rw [receive, framed.cut_flatMap (fun m hm => nextMessage_serialize hG (h m hm)), hcut,
    List.append_nil]

end Connection

/-! ### The queue of a socket -/

namespace Socket

/-- What a message comes to in the queue. -/
def queued (G : Global) (version : EProtocolVersion) (m : Message) : QueuedWrite :=
  ⟨m.serialize G version, getAsyncSendPriority m.getMessageType⟩

/-- The priority of a message. -/
def priority (m : Message) : ℕ :=
  (getAsyncSendPriority m.getMessageType).toNat

/-- The bytes of a message in front. -/
def frontBytes (G : Global) (version : EProtocolVersion) : List Message → List UInt8
  | [] => []
  | m :: _ => m.serialize G version

/-- Which messages were handed over, and which are still in the queue. -/
structure Writes (G : Global) (version : EProtocolVersion) (sent done pending : List Message)
    (s : Socket) : Prop where
  /-- They are those that were sent, and no priority is out of order. -/
  serves : Overtaking.Serves priority sent done pending
  /-- The queue holds those that are pending. -/
  writeQueue : s.writeQueue = pending.map (queued G version)
  /-- The others were written, and the front in part. -/
  wire : s.wire = done.flatMap (fun m => m.serialize G version) ++
    (frontBytes G version pending).take s.transferred
  /-- So much of the front is written. -/
  transferred : s.transferred ≤ (frontBytes G version pending).length

/-- The loop of the source takes the place behind all that have at least the priority. -/
theorem insertByPriority_eq (w : QueuedWrite) (waiting : List QueuedWrite) :
    insertByPriority w waiting =
      Overtaking.enter (fun w => w.priority.toNat) w waiting := by
  induction waiting with
  | nil => rfl
  | cons other waiting ih =>
    rw [insertByPriority, Overtaking.enter_cons, ih]
    by_cases h : other.priority.toNat < w.priority.toNat
    · rw [if_pos h, if_neg (by
        rw [UInt8.le_iff_toNat_le]
        omega)]
    · rw [if_neg h, if_pos (by
        rw [UInt8.le_iff_toNat_le]
        omega)]

/-- Both branches of the source put a message where its priority puts it. -/
theorem writeQueue_sendAsync (s : Socket) (message : List UInt8) (p : UInt8) :
    (s.sendAsync message p).writeQueue =
      Overtaking.arrive (fun w => w.priority.toNat) ⟨message, p⟩ s.writeQueue := by
  rw [sendAsync]
  cases s.writeQueue with
  | nil => rfl
  | cons front waiting =>
    dsimp only
    rw [Overtaking.arrive]
    split
    · rw [insertByPriority_eq]
    · next hzero =>
      rw [Overtaking.enter_of_le fun w _ => ?_]
      rw [UInt8.lt_iff_toNat_lt] at hzero
      exact (Nat.le_zero.1 (Nat.le_of_not_lt hzero)).trans_le (Nat.zero_le _)

namespace Writes

variable {G : Global} {version : EProtocolVersion} {sent done pending : List Message} {s : Socket}

theorem empty : Writes G version [] [] [] Socket.empty :=
  ⟨.nil, rfl, rfl, le_rfl⟩

theorem sendAsync (h : Writes G version sent done pending s) (m : Message) :
    Writes G version (sent ++ [m]) done (Overtaking.arrive priority m pending)
      (s.sendAsync (m.serialize G version) (getAsyncSendPriority m.getMessageType)) := by
  have hqueue := writeQueue_sendAsync s (m.serialize G version)
    (getAsyncSendPriority m.getMessageType)
  have hwire : (s.sendAsync (m.serialize G version)
      (getAsyncSendPriority m.getMessageType)).wire = s.wire ∧
      (s.sendAsync (m.serialize G version)
        (getAsyncSendPriority m.getMessageType)).transferred = s.transferred := by
    rw [Socket.sendAsync]
    split
    · exact ⟨rfl, rfl⟩
    · split
      · exact ⟨rfl, rfl⟩
      · exact ⟨rfl, rfl⟩
  refine ⟨h.serves.arrive m, ?_, ?_, ?_⟩
  -- the bytes are queued where the message is
  · rw [hqueue, h.writeQueue]
    cases pending with
    | nil => rfl
    | cons front waiting =>
      have henter : (Overtaking.enter priority m waiting).map (queued G version) =
          Overtaking.enter (fun w => w.priority.toNat) (queued G version m)
            (waiting.map (queued G version)) := Overtaking.map_enter fun _ => rfl
      rw [List.map_cons, Overtaking.arrive, Overtaking.arrive, List.map_cons, henter]
      rfl
  -- the front does not change, so what was written of it stays
  · rw [hwire.1, hwire.2, h.wire]
    cases pending with
    | nil =>
      have hzero : s.transferred = 0 := Nat.le_zero.1 h.transferred
      rw [hzero, List.take_zero, List.take_zero]
    | cons front waiting => rfl
  · rw [hwire.2]
    cases pending with
    | nil => exact h.transferred.trans (Nat.zero_le _)
    | cons front waiting => exact h.transferred

theorem transfer (h : Writes G version sent done pending s) (numBytes : ℕ) :
    Writes G version sent done pending (s.transfer numBytes) := by
  cases pending with
  | nil =>
    rw [Socket.transfer, h.writeQueue]
    exact h
  | cons front waiting =>
    have hqueue := h.writeQueue
    rw [List.map_cons] at hqueue
    rw [Socket.transfer, hqueue]
    dsimp only
    have hpiece := List.prefix_iff_eq_take.1
      (List.take_prefix numBytes ((frontBytes G version (front :: waiting)).drop s.transferred))
    refine ⟨h.serves, rfl, ?_, ?_⟩
    · dsimp only
      rw [h.wire, List.append_assoc, List.take_add]
      exact congrArg _ (congrArg _ hpiece)
    · have hle := List.length_take_le numBytes
        ((frontBytes G version (front :: waiting)).drop s.transferred)
      have hlength := h.transferred
      dsimp only [queued, frontBytes] at hle hlength ⊢
      rw [List.length_take, List.length_drop]
      omega

theorem handleSent (h : Writes G version sent done pending s) :
    ∃ done' pending', Writes G version sent done' pending' s.handleSent := by
  cases pending with
  | nil =>
    rw [Socket.handleSent, h.writeQueue]
    exact ⟨done, [], h⟩
  | cons front waiting =>
    have hqueue := h.writeQueue
    rw [List.map_cons] at hqueue
    rw [Socket.handleSent, hqueue]
    dsimp only
    split
    -- only a message that was written as a whole leaves the queue
    · next hwhole =>
      refine ⟨done ++ [front], waiting, h.serves.serve, rfl, ?_, Nat.zero_le _⟩
      dsimp only
      rw [h.wire, hwhole, List.take_zero, List.append_nil, List.flatMap_append,
        List.flatMap_singleton]
      exact congrArg _ List.take_length
    · exact ⟨done, front :: waiting, h⟩

theorem step {op : Op} (h : Writes G version sent done pending s) :
    ∃ done' pending', Writes G version (sent ++ Socket.sent [op]) done' pending'
      (s.step G version op) := by
  cases op with
  | sendAsync m => exact ⟨done, _, h.sendAsync m⟩
  | transfer numBytes =>
    rw [Socket.sent, List.filterMap_cons_none rfl, List.filterMap_nil, List.append_nil]
    exact ⟨done, pending, h.transfer numBytes⟩
  | handleSent =>
    rw [Socket.sent, List.filterMap_cons_none rfl, List.filterMap_nil, List.append_nil]
    exact h.handleSent

variable (G version) in
/-- **At any time of any run** it is known which messages were handed over. -/
theorem run (ops : List Op) :
    ∃ done pending, Writes G version (Socket.sent ops) done pending
      (Socket.run G version ops Socket.empty) := by
  induction ops using List.reverseRecOn with
  | nil => exact ⟨[], [], empty⟩
  | append_singleton ops op ih =>
    obtain ⟨done, pending, h⟩ := ih
    rw [Socket.sent, List.filterMap_append, Socket.run, List.foldl_append]
    exact h.step

end Writes

/-- What a peer has of the messages that were sent: some were received, the others wait. -/
structure Delivered {G : Global} (sort : BodySort G)
    (coinView : Commitment → Except Exc OutputFeatures) (version : EProtocolVersion)
    (messages received waiting : List Message) (s : Socket) : Prop where
  /-- The peer reads those that were received, each as it was sent. -/
  receive : Connection.receive sort coinView version s.wire =
    (received.map fun m => (m.raw version, .ok (some m)),
      (Connection.receive sort coinView version s.wire).2)
  /-- No message is lost, and none is received twice. -/
  perm : (received ++ waiting).Perm messages
  /-- Those of one priority keep their order. -/
  filter : ∀ p, (received ++ waiting).filter (fun m => priority m = p) =
    messages.filter fun m => priority m = p
  /-- What else has arrived is how the next one begins. -/
  rest : (Connection.receive sort coinView version s.wire).2 <+: frontBytes G version waiting
  /-- When nothing is left in the queue, nothing waits. -/
  done : s.writeQueue = [] → waiting = []

/-- **Every message is delivered once, and in the order of its priority.** At any time of any run
of a socket, the peer can read the messages that were written, each as it was sent and none mixed
with another; those that wait are the others, and those of one priority keep their order. -/
theorem delivers {G : Global} (hG : G.InjectiveOnBytes) (sort : BodySort G)
    {coinView : Commitment → Except Exc OutputFeatures} {version : EProtocolVersion} (ops : List Op)
    (h : ∀ m ∈ sent ops, m.Sendable G coinView version) :
    ∃ received waiting, Delivered sort coinView version (sent ops) received waiting
      (run G version ops empty) := by
  obtain ⟨done, pending, hwrites⟩ := Writes.run G version ops
  have hsendable : ∀ m ∈ done ++ pending, m.Sendable G coinView version :=
    fun m hm => h m (hwrites.serves.perm.mem_iff.1 hm)
  have hdone : ∀ m ∈ done, m.Sendable G coinView version :=
    fun m hm => hsendable m (List.mem_append_left _ hm)
  have hqueue := hwrites.writeQueue
  have hwire := hwrites.wire
  cases pending with
  | nil =>
    have hreceive := Connection.receive_serialize sort hG hdone 0 (.inl rfl)
    rw [frontBytes, List.take_nil] at hwire
    rw [← hwire] at hreceive
    refine ⟨done, [], ?_, hwrites.serves.perm, hwrites.serves.filter, ?_, fun _ => rfl⟩
    · rw [hreceive]
    · rw [hreceive]
      exact List.nil_prefix
  | cons front waiting =>
    have hfront := hsendable front (List.mem_append_right _ List.mem_cons_self)
    rw [frontBytes] at hwire
    by_cases hwhole : (run G version ops empty).transferred < (front.serialize G version).length
    · have hreceive := Connection.receive_serialize sort hG hdone _
        (.inr ⟨front, hfront, hwhole, rfl⟩)
      rw [← hwire] at hreceive
      refine ⟨done, front :: waiting, ?_, hwrites.serves.perm, hwrites.serves.filter, ?_,
        fun hnil => ?_⟩
      · rw [hreceive]
      · rw [hreceive]
        exact List.take_prefix _ _
      · rw [hqueue, List.map_cons] at hnil
        exact absurd hnil (List.cons_ne_nil _ _)
    -- the front was written as a whole, but is still in the queue
    · have hserves := hwrites.serves.serve
      have hreceive := Connection.receive_serialize sort hG
        (show ∀ m ∈ done ++ [front], m.Sendable G coinView version from fun m hm => by
          rcases List.mem_append.1 hm with hm | hm
          · exact hdone m hm
          · rwa [List.mem_singleton.1 hm]) 0 (.inl rfl)
      rw [List.flatMap_append, List.flatMap_singleton, List.append_nil] at hreceive
      rw [List.take_of_length_le (Nat.le_of_not_lt hwhole)] at hwire
      rw [← hwire] at hreceive
      refine ⟨done ++ [front], waiting, ?_, hserves.perm, hserves.filter, ?_, fun hnil => ?_⟩
      · rw [hreceive]
      · rw [hreceive]
        exact List.nil_prefix
      · rw [hqueue, List.map_cons] at hnil
        exact absurd hnil (List.cons_ne_nil _ _)

end Socket

end GrinPlusPlus
