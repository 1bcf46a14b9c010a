import GrinPlusPlus.BlockChain.CompactBlock
import GrinPlusPlus.Core.WireCodec
import GrinPlusPlus.Lib.Codec
import GrinPlusPlus.P2P.BlockLocator
import GrinPlusPlus.Pmmr.BitmapCodec

/-!
# Messages between peers

`IMessage` and its thirty kinds, each with `SerializeBody` and `Deserialize`, and the header that
announces how long a body is.

A body depends on the protocol version at the innermost level only, in the inputs and the kernels
(`GrinPlusPlus.Core.WireCodec`). From the third version on an input is written without its
features, and whoever reads it looks them up: **that the reader knows the coin is part of what makes
a transaction readable** (`GrinPlusPlus.Message.Fits`).

Counts are cast to the width of their field, and positions of a segment are written one higher than
they are; both are read back as long as they fit (`GrinPlusPlus.Message.reads_deserialize`).
-/

namespace GrinPlusPlus

open Exec ByteBuffer Codec

/-! ### Types -/

/-- `EMessageType`. A header may carry a value without a name. -/
structure EMessageType where
  /-- The value. -/
  value : UInt8
deriving DecidableEq

namespace EMessageType

/-- `MessageTypes::Error`. -/
def error : EMessageType := ⟨0⟩
/-- `MessageTypes::Hand`. -/
def hand : EMessageType := ⟨1⟩
/-- `MessageTypes::Shake`. -/
def shake : EMessageType := ⟨2⟩
/-- `MessageTypes::Ping`. -/
def ping : EMessageType := ⟨3⟩
/-- `MessageTypes::Pong`. -/
def pong : EMessageType := ⟨4⟩
/-- `MessageTypes::GetPeerAddrs`. -/
def getPeerAddrs : EMessageType := ⟨5⟩
/-- `MessageTypes::PeerAddrs`. -/
def peerAddrs : EMessageType := ⟨6⟩
/-- `MessageTypes::GetHeaders`. -/
def getHeaders : EMessageType := ⟨7⟩
/-- `MessageTypes::Header`. -/
def header : EMessageType := ⟨8⟩
/-- `MessageTypes::Headers`. -/
def headers : EMessageType := ⟨9⟩
/-- `MessageTypes::GetBlock`. -/
def getBlock : EMessageType := ⟨10⟩
/-- `MessageTypes::Block`. -/
def block : EMessageType := ⟨11⟩
/-- `MessageTypes::GetCompactBlock`. -/
def getCompactBlock : EMessageType := ⟨12⟩
/-- `MessageTypes::CompactBlockMsg`. -/
def compactBlockMsg : EMessageType := ⟨13⟩
/-- `MessageTypes::StemTransaction`. -/
def stemTransaction : EMessageType := ⟨14⟩
/-- `MessageTypes::TransactionMsg`. -/
def transactionMsg : EMessageType := ⟨15⟩
/-- `MessageTypes::TxHashSetRequest`. -/
def txHashSetRequest : EMessageType := ⟨16⟩
/-- `MessageTypes::TxHashSetArchive`. -/
def txHashSetArchive : EMessageType := ⟨17⟩
/-- `MessageTypes::BanReasonMsg`. -/
def banReasonMsg : EMessageType := ⟨18⟩
/-- `MessageTypes::GetTransactionMsg`. -/
def getTransactionMsg : EMessageType := ⟨19⟩
/-- `MessageTypes::TransactionKernelMsg`. -/
def transactionKernelMsg : EMessageType := ⟨20⟩
/-- `MessageTypes::GetOutputBitmapSegment`. -/
def getOutputBitmapSegment : EMessageType := ⟨21⟩
/-- `MessageTypes::OutputBitmapSegment`. -/
def outputBitmapSegment : EMessageType := ⟨22⟩
/-- `MessageTypes::GetOutputSegment`. -/
def getOutputSegment : EMessageType := ⟨23⟩
/-- `MessageTypes::OutputSegment`. -/
def outputSegment : EMessageType := ⟨24⟩
/-- `MessageTypes::GetRangeProofSegment`. -/
def getRangeProofSegment : EMessageType := ⟨25⟩
/-- `MessageTypes::RangeProofSegment`. -/
def rangeProofSegment : EMessageType := ⟨26⟩
/-- `MessageTypes::GetKernelSegment`. -/
def getKernelSegment : EMessageType := ⟨27⟩
/-- `MessageTypes::KernelSegment`. -/
def kernelSegment : EMessageType := ⟨28⟩
/-- `MessageTypes::GetHeaderSegment`. -/
def getHeaderSegment : EMessageType := ⟨29⟩
/-- `MessageTypes::HeaderSegment`. -/
def headerSegment : EMessageType := ⟨30⟩

end EMessageType

namespace P2P

/-- `P2P::MAX_BLOCK_SIZE`. -/
def maxBlockSize : ℕ := Consensus.maxBlockWeight / Consensus.outputWeight * 708

/-- `P2P::MAX_PEER_ADDRS`. -/
def maxPeerAddrs : ℕ := 256

end P2P

/-- `MessageTypes::GetMaximumSize`. -/
def EMessageType.getMaximumSize (type : EMessageType) : ℕ :=
  match type.value.toNat with
  | 1 => 128
  | 2 => 88
  | 3 => 16
  | 4 => 16
  | 5 => 4
  | 6 => 4 + (1 + 16 + 2) * P2P.maxPeerAddrs
  | 7 => 1 + 32 * P2P.maxLocators
  | 8 => 365
  | 9 => 2 + 365 * P2P.maxBlockHeaders
  | 10 => 32
  | 11 => P2P.maxBlockSize
  | 12 => 32
  | 13 => P2P.maxBlockSize / 10
  | 14 => P2P.maxBlockSize
  | 15 => P2P.maxBlockSize
  | 16 => 40
  | 17 => 64
  | 18 => 64
  | 19 => 32
  | 20 => 32
  | 21 => 41
  | 22 => 2 * P2P.maxBlockSize
  | 23 => 41
  | 24 => 2 * P2P.maxBlockSize
  | 25 => 41
  | 26 => 2 * P2P.maxBlockSize
  | 27 => 41
  | 28 => 2 * P2P.maxBlockSize
  | 29 => 9
  | 30 => 11 + 365 * P2P.maxBlockHeaders
  | _ => 0

/-! ### The parts of messages -/

/-- `IPAddress`. -/
inductive IPAddress
  | v4 (bytes : CBigInteger 4)
  | v6 (bytes : CBigInteger 16)
deriving DecidableEq

/-- `SocketAddress`. -/
structure SocketAddress where
  /-- `m_ipAddress`. -/
  ipAddress : IPAddress
  /-- `m_port`. -/
  port : UInt16
deriving DecidableEq

/-- `IPAddress::Serialize`. -/
def IPAddress.serialize : IPAddress → List UInt8
  | .v4 bytes => 0 :: bytes.bytes
  | .v6 bytes => 1 :: bytes.bytes

/-- `IPAddress::Deserialize`. -/
def IPAddress.deserialize : ByteBuffer IPAddress := do
  let ipAddressFamily ← readU8
  if ipAddressFamily = 0 then do
    let bytes ← readBigInteger 4
    pure (.v4 bytes)
  else if ipAddressFamily = 1 then do
    let bytes ← readBigInteger 16
    pure (.v6 bytes)
  else
    throw (.deserialization
      ("Invalid IP address family: " ++ toString ipAddressFamily.toNat))

/-- `SocketAddress::Serialize`. -/
def SocketAddress.serialize (a : SocketAddress) : List UInt8 :=
  a.ipAddress.serialize ++ beBytes 2 a.port.toNat

/-- `SocketAddress::Deserialize`. -/
def SocketAddress.deserialize : ByteBuffer SocketAddress := do
  let ipAddress ← IPAddress.deserialize
  let port ← readU16
  pure ⟨ipAddress, port⟩

/-- `Serializer::AppendVarStr`. -/
def varStr (string : List UInt8) : List UInt8 :=
  beBytes 8 string.length ++ string

/-- `ByteBuffer::ReadVarStr`. -/
def ByteBuffer.readVarStr : ByteBuffer (List UInt8) := do
  let stringLength ← readU64
  if stringLength = 0 then pure [] else readVector stringLength.toNat

/-- `ShortId::Deserialize`. -/
def ShortId.deserialize : ByteBuffer ShortId :=
  readBigInteger 6

/-- `CompactBlock::Serialize`. -/
def CompactBlock.serialized (b : CompactBlock) (version : EProtocolVersion) : List UInt8 :=
  b.header.serialized ++ (beBytes 8 b.nonce.toNat ++ (beBytes 8 b.outputs.length ++
    (beBytes 8 b.kernels.length ++ (beBytes 8 b.shortIds.length ++
      (b.outputs.flatMap TransactionOutput.serialized ++
        (b.kernels.flatMap (fun k => k.serialized version) ++
          b.shortIds.flatMap CBigInteger.bytes))))))

/-- `CompactBlock::Deserialize`. -/
def CompactBlock.deserialize (version : EProtocolVersion) : ByteBuffer CompactBlock := do
  let header ← BlockHeader.deserialize
  let nonce ← readU64
  let numOutputs ← readU64
  let numKernels ← readU64
  let numShortIds ← readU64
  let outputs ← readCounted numOutputs TransactionOutput.deserialize
  let kernels ← readCounted numKernels (TransactionKernel.deserialize version)
  let shortIds ← readCounted numShortIds ShortId.deserialize
  pure ⟨header, nonce, outputs, kernels, shortIds⟩

/-- `OutputIdentifier::Deserialize`. -/
def OutputIdentifier.deserialize : ByteBuffer OutputIdentifier := do
  let features ← readU8
  let commitment ← readBigInteger 33
  pure ⟨⟨features⟩, commitment⟩

namespace Segment

variable {α : Type}

/-- `Segment::Serialize`. -/
def serialize (leafBytes : α → List UInt8) (s : Segment α) : List UInt8 :=
  s.id.serialize ++ (beBytes 8 s.hashPos.length ++
    (s.hashPos.flatMap (fun pos => beBytes 8 (pos + 1)) ++ (s.hashes.flatMap Hash.getData ++
      (beBytes 8 s.leafPos.length ++ (s.leafPos.flatMap (fun pos => beBytes 8 (pos + 1)) ++
        (s.leaves.flatMap leafBytes ++ s.proof.serialize))))))

/-- The loops of `Segment::Deserialize` over the positions. -/
def readPositions (unsorted : Exc) : ℕ → UInt64 → ByteBuffer (List ℕ)
  | 0, _ => pure []
  | n + 1, lastWirePos => do
    let wirePos ← readU64
    if wirePos ≤ lastWirePos then throw unsorted
    else do
      let positions ← readPositions unsorted n wirePos
      pure ((wirePos.toNat - 1) :: positions)

/-- `Segment::Deserialize`. -/
def deserialize (readLeaf : ByteBuffer α) : ByteBuffer (Segment α) := do
  let segmentId ← SegmentIdentifier.deserialize
  let numHashes ← readU64
  let hashPos ← readPositions
    (.deserialization "Segment hash positions are not strictly sorted.") numHashes.toNat 0
  let hashes ← readMany readHash numHashes.toNat
  let numLeaves ← readU64
  let leafPos ← readPositions
    (.deserialization "Segment leaf positions are not strictly sorted.") numLeaves.toNat 0
  let leaves ← readMany readLeaf numLeaves.toNat
  let segmentProof ← SegmentProof.deserialize
  pure ⟨segmentId, hashPos, hashes, leafPos, leaves, segmentProof⟩

end Segment

/-! ### Messages -/

/-- `HandMessage`. -/
structure HandMessage where
  /-- `m_version`. -/
  version : UInt32
  /-- `m_capabilities`. -/
  capabilities : UInt32
  /-- `m_nonce`. -/
  nonce : UInt64
  /-- `m_hash`. -/
  hash : Hash
  /-- `m_totalDifficulty`. -/
  totalDifficulty : UInt64
  /-- `m_senderAddress`. -/
  senderAddress : SocketAddress
  /-- `m_receiverAddress`. -/
  receiverAddress : SocketAddress
  /-- `m_userAgent`. -/
  userAgent : List UInt8
deriving DecidableEq

/-- `ShakeMessage`. -/
structure ShakeMessage where
  /-- `m_version`. -/
  version : UInt32
  /-- `m_capabilities`. -/
  capabilities : UInt32
  /-- `m_hash`. -/
  hash : Hash
  /-- `m_totalDifficulty`. -/
  totalDifficulty : UInt64
  /-- `m_userAgent`. -/
  userAgent : List UInt8
deriving DecidableEq

/-- `IMessage`: the messages that a node sends. -/
inductive Message
  | hand (message : HandMessage)
  | shake (message : ShakeMessage)
  | ping (totalDifficulty height : UInt64)
  | pong (totalDifficulty height : UInt64)
  | getPeerAddrs (capabilities : UInt32)
  | peerAddrs (peerAddresses : List SocketAddress)
  | getHeaders (hashes : List Hash)
  | header (header : BlockHeader)
  | headers (headers : List BlockHeader)
  | getBlock (hash : Hash)
  | block (block : FullBlock)
  | getCompactBlock (hash : Hash)
  | compactBlock (block : CompactBlock)
  | stemTransaction (transaction : Transaction)
  | transaction (transaction : Transaction)
  | txHashSetRequest (blockHash : Hash) (blockHeight : UInt64)
  | txHashSetArchive (blockHash : Hash) (blockHeight zippedSize : UInt64)
  | banReason (banReason : UInt32)
  | getTransaction (kernelHash : Hash)
  | transactionKernel (kernelHash : Hash)
  | getOutputBitmapSegment (blockHash : Hash) (identifier : SegmentIdentifier)
  | outputBitmapSegment (blockHash : Hash) (segment : BitmapSegment) (outputRoot : Hash)
  | getOutputSegment (blockHash : Hash) (identifier : SegmentIdentifier)
  | outputSegment (blockHash : Hash) (segment : Segment OutputIdentifier) (bitmapRoot : Hash)
  | getRangeProofSegment (blockHash : Hash) (identifier : SegmentIdentifier)
  | rangeProofSegment (blockHash : Hash) (segment : Segment RangeProof)
  | getKernelSegment (blockHash : Hash) (identifier : SegmentIdentifier)
  | kernelSegment (blockHash : Hash) (segment : Segment TransactionKernel)
  | getHeaderSegment (identifier : SegmentIdentifier)
  | headerSegment (identifier : SegmentIdentifier) (headers : List BlockHeader)

/-- `HandMessage::SerializeBody`. -/
def HandMessage.serializeBody (m : HandMessage) : List UInt8 :=
  beBytes 4 m.version.toNat ++ (beBytes 4 m.capabilities.toNat ++ (beBytes 8 m.nonce.toNat ++
    (beBytes 8 m.totalDifficulty.toNat ++ (m.senderAddress.serialize ++
      (m.receiverAddress.serialize ++ (varStr m.userAgent ++ m.hash.getData))))))

/-- `HandMessage::Deserialize`. -/
def HandMessage.deserialize : ByteBuffer HandMessage := do
  let version ← readU32
  let capabilities ← readU32
  let nonce ← readU64
  let totalDifficulty ← readU64
  let senderAddress ← SocketAddress.deserialize
  let receiverAddress ← SocketAddress.deserialize
  let userAgent ← readVarStr
  let hash ← readHash
  pure ⟨version, capabilities, nonce, hash, totalDifficulty, senderAddress, receiverAddress,
    userAgent⟩

/-- `ShakeMessage::SerializeBody`. -/
def ShakeMessage.serializeBody (m : ShakeMessage) : List UInt8 :=
  beBytes 4 m.version.toNat ++ (beBytes 4 m.capabilities.toNat ++
    (beBytes 8 m.totalDifficulty.toNat ++ (varStr m.userAgent ++ m.hash.getData)))

/-- `ShakeMessage::Deserialize`. -/
def ShakeMessage.deserialize : ByteBuffer ShakeMessage := do
  let version ← readU32
  let capabilities ← readU32
  let totalDifficulty ← readU64
  let userAgent ← readVarStr
  let hash ← readHash
  pure ⟨version, capabilities, hash, totalDifficulty, userAgent⟩

namespace Message

/-- `IMessage::GetMessageType`. -/
def getMessageType : Message → EMessageType
  | hand _ => .hand
  | shake _ => .shake
  | ping .. => .ping
  | pong .. => .pong
  | getPeerAddrs _ => .getPeerAddrs
  | peerAddrs _ => .peerAddrs
  | getHeaders _ => .getHeaders
  | header _ => .header
  | headers _ => .headers
  | getBlock _ => .getBlock
  | block _ => .block
  | getCompactBlock _ => .getCompactBlock
  | compactBlock _ => .compactBlockMsg
  | stemTransaction _ => .stemTransaction
  | transaction _ => .transactionMsg
  | txHashSetRequest .. => .txHashSetRequest
  | txHashSetArchive .. => .txHashSetArchive
  | banReason _ => .banReasonMsg
  | getTransaction _ => .getTransactionMsg
  | transactionKernel _ => .transactionKernelMsg
  | getOutputBitmapSegment .. => .getOutputBitmapSegment
  | outputBitmapSegment .. => .outputBitmapSegment
  | getOutputSegment .. => .getOutputSegment
  | outputSegment .. => .outputSegment
  | getRangeProofSegment .. => .getRangeProofSegment
  | rangeProofSegment .. => .rangeProofSegment
  | getKernelSegment .. => .getKernelSegment
  | kernelSegment .. => .kernelSegment
  | getHeaderSegment _ => .getHeaderSegment
  | headerSegment .. => .headerSegment

/-- `IMessage::SerializeBody`. -/
def serializeBody (version : EProtocolVersion) : Message → List UInt8
  | hand message => message.serializeBody
  | shake message => message.serializeBody
  | ping totalDifficulty height =>
    beBytes 8 totalDifficulty.toNat ++ beBytes 8 height.toNat
  | pong totalDifficulty height =>
    beBytes 8 totalDifficulty.toNat ++ beBytes 8 height.toNat
  | getPeerAddrs capabilities => beBytes 4 capabilities.toNat
  | peerAddrs peerAddresses =>
    beBytes 4 peerAddresses.length ++ peerAddresses.flatMap SocketAddress.serialize
  | getHeaders hashes => beBytes 1 hashes.length ++ hashes.flatMap Hash.getData
  | header h => h.serialized
  | headers hs => beBytes 2 hs.length ++ hs.flatMap BlockHeader.serialized
  | getBlock hash => hash.getData
  | block b => b.serialized version
  | getCompactBlock hash => hash.getData
  | compactBlock b => b.serialized version
  | stemTransaction tx => tx.serialized version
  | transaction tx => tx.serialized version
  | txHashSetRequest blockHash blockHeight => blockHash.getData ++ beBytes 8 blockHeight.toNat
  | txHashSetArchive blockHash blockHeight zippedSize =>
    blockHash.getData ++ (beBytes 8 blockHeight.toNat ++ beBytes 8 zippedSize.toNat)
  | banReason reason => beBytes 4 reason.toNat
  | getTransaction kernelHash => kernelHash.getData
  | transactionKernel kernelHash => kernelHash.getData
  | getOutputBitmapSegment blockHash identifier => blockHash.getData ++ identifier.serialize
  | outputBitmapSegment blockHash segment outputRoot =>
    blockHash.getData ++ (segment.serialize ++ outputRoot.getData)
  | getOutputSegment blockHash identifier => blockHash.getData ++ identifier.serialize
  | outputSegment blockHash segment bitmapRoot =>
    blockHash.getData ++
      (segment.serialize OutputIdentifier.serialize ++ bitmapRoot.getData)
  | getRangeProofSegment blockHash identifier => blockHash.getData ++ identifier.serialize
  | rangeProofSegment blockHash segment =>
    blockHash.getData ++ segment.serialize RangeProof.serialize
  | getKernelSegment blockHash identifier => blockHash.getData ++ identifier.serialize
  | kernelSegment blockHash segment =>
    blockHash.getData ++ segment.serialize fun k => k.serialized version
  | getHeaderSegment identifier => identifier.serialize
  | headerSegment identifier hs =>
    identifier.serialize ++ (beBytes 2 hs.length ++ hs.flatMap BlockHeader.serialized)

section

variable {G : Global} (sort : BodySort G) (coinView : Commitment → Except Exc OutputFeatures)
  (version : EProtocolVersion)

/-- `SegmentRequestMessage::Deserialize`, of each of its four types. -/
def deserializeSegmentRequest (message : Hash → SegmentIdentifier → Message) :
    ByteBuffer (Option Message) := do
  let blockHash ← readHash
  let identifier ← SegmentIdentifier.deserialize
  pure (some (message blockHash identifier))

/-- `SegmentResponseMessage::Deserialize`, of its two types. -/
def deserializeSegmentResponse {α : Type} (readLeaf : ByteBuffer α)
    (message : Hash → Segment α → Message) : ByteBuffer (Option Message) := do
  let blockHash ← readHash
  let segment ← Segment.deserialize readLeaf
  pure (some (message blockHash segment))

/-- A message that is nothing but a hash. -/
def deserializeHash (message : Hash → Message) : ByteBuffer (Option Message) := do
  let hash ← readHash
  pure (some (message hash))

/-- `PingMessage::Deserialize` and `PongMessage::Deserialize`. -/
def deserializePing (message : UInt64 → UInt64 → Message) : ByteBuffer (Option Message) := do
  let totalDifficulty ← readU64
  let height ← readU64
  pure (some (message totalDifficulty height))

/-- What `MessageProcessor::ProcessMessageInternal` reads for a type. An error is logged; the
messages of a handshake and values without a name are ignored. -/
def deserialize (type : EMessageType) : ByteBuffer (Option Message) :=
  match type.value.toNat with
  | 0 => do
    let _ ← readU32
    let _ ← readVarStr
    pure none
  | 3 => deserializePing ping
  | 4 => deserializePing pong
  | 5 => do
    let capabilities ← readU32
    pure (some (getPeerAddrs capabilities))
  | 6 => do
    let numAddresses ← readU32
    let peerAddresses ← readMany SocketAddress.deserialize numAddresses.toNat
    pure (some (peerAddrs peerAddresses))
  | 7 => do
    let numHashes ← readU8
    let hashes ← readMany readHash numHashes.toNat
    pure (some (getHeaders hashes))
  | 8 => do
    let h ← BlockHeader.deserialize
    pure (some (header h))
  | 9 => do
    let numHeaders ← readU16
    let hs ← readMany BlockHeader.deserialize numHeaders.toNat
    pure (some (headers hs))
  | 10 => deserializeHash getBlock
  | 11 => do
    let b ← FullBlock.deserialize sort coinView version
    pure (some (block b))
  | 12 => deserializeHash getCompactBlock
  | 13 => do
    let b ← CompactBlock.deserialize version
    pure (some (compactBlock b))
  | 14 => do
    let tx ← Transaction.deserialize sort coinView version
    pure (some (stemTransaction tx))
  | 15 => do
    let tx ← Transaction.deserialize sort coinView version
    pure (some (transaction tx))
  | 16 => do
    let blockHash ← readHash
    let blockHeight ← readU64
    pure (some (txHashSetRequest blockHash blockHeight))
  | 17 => do
    let blockHash ← readHash
    let blockHeight ← readU64
    let zippedDataSize ← readU64
    pure (some (txHashSetArchive blockHash blockHeight zippedDataSize))
  | 18 => do
    let reason ← readU32
    pure (some (banReason reason))
  | 19 => deserializeHash getTransaction
  | 20 => deserializeHash transactionKernel
  | 21 => deserializeSegmentRequest getOutputBitmapSegment
  | 22 => do
    let blockHash ← readHash
    let segment ← BitmapSegment.deserialize
    let outputRoot ← readHash
    pure (some (outputBitmapSegment blockHash segment outputRoot))
  | 23 => deserializeSegmentRequest getOutputSegment
  | 24 => do
    let blockHash ← readHash
    let segment ← Segment.deserialize OutputIdentifier.deserialize
    let bitmapRoot ← readHash
    pure (some (outputSegment blockHash segment bitmapRoot))
  | 25 => deserializeSegmentRequest getRangeProofSegment
  | 26 => deserializeSegmentResponse RangeProof.deserialize rangeProofSegment
  | 27 => deserializeSegmentRequest getKernelSegment
  | 28 => deserializeSegmentResponse (TransactionKernel.deserialize version) kernelSegment
  | 29 => do
    let identifier ← SegmentIdentifier.deserialize
    pure (some (getHeaderSegment identifier))
  | 30 => do
    let identifier ← SegmentIdentifier.deserialize
    let numHeaders ← readU16
    let hs ← readMany BlockHeader.deserialize numHeaders.toNat
    pure (some (headerSegment identifier hs))
  | _ => pure none

end

end Message

/-! ### What was written is read back -/

/-- A hash has 32 bytes. -/
def Hash.Fits (h : Hash) : Prop :=
  h.value < 256 ^ 32

theorem reads_u8 (n : UInt8) : Reads readU8 [n] n :=
  run_readU8 n

theorem reads_u16 (n : UInt16) : Reads readU16 (beBytes 2 n.toNat) n :=
  run_readU16_self n

theorem reads_u32 (n : UInt32) : Reads readU32 (beBytes 4 n.toNat) n :=
  run_readU32_self n

theorem reads_u64 (n : UInt64) : Reads readU64 (beBytes 8 n.toNat) n :=
  run_readU64 n

theorem reads_hash {h : Hash} (hfits : h.Fits) : Reads readHash h.getData h :=
  run_readHash hfits

theorem reads_bigInteger {n : ℕ} (b : CBigInteger n) :
    Reads (readBigInteger n) b.bytes b :=
  run_readBigInteger b

theorem reads_segmentIdentifier (id : SegmentIdentifier) :
    Reads SegmentIdentifier.deserialize id.serialize id :=
  SegmentIdentifier.run_deserialize id

theorem reads_count8 (n : ℕ) : Reads readU8 (beBytes 1 n) (UInt8.ofNat n) := by
  have hread := reads_u8 (UInt8.ofNat n)
  rwa [beBytes_succ, pow_zero, Nat.div_one, beBytes, List.range_zero, List.map_nil]

theorem reads_count16 {n : ℕ} (h : n < 2 ^ 16) : Reads readU16 (beBytes 2 n) (UInt16.ofNat n) :=
  run_readU16_of_lt h

theorem reads_count32 {n : ℕ} (h : n < 2 ^ 32) :
    Reads readU32 (beBytes 4 n) (UInt32.ofNat n) := by
  have hread := reads_u32 (UInt32.ofNat n)
  rwa [UInt32.toNat_ofNat_of_lt' h] at hread

theorem reads_count64 {n : ℕ} (h : n < 2 ^ 64) : Reads readU64 (beBytes 8 n) (UInt64.ofNat n) :=
  run_readU64_of_lt h

section Lists

variable {α : Type} {read : ByteBuffer α} {bytes : α → List UInt8} {l : List α}

theorem reads_many (h : ∀ a ∈ l, Reads read (bytes a) a) {n : ℕ} (hn : n = l.length) :
    Reads (readMany read n) (l.flatMap bytes) l :=
  hn ▸ run_readMany h

theorem reads_counted (h : ∀ a ∈ l, Reads read (bytes a) a) (hlength : l.length < 2 ^ 31) :
    Reads (readCounted (UInt64.ofNat l.length) read) (l.flatMap bytes) l :=
  run_readCounted hlength h

end Lists

theorem reads_varStr {string : List UInt8} (h : string.length < 2 ^ 64) :
    Reads readVarStr (varStr string) string := by
  have hcount : (UInt64.ofNat string.length).toNat = string.length :=
    UInt64.toNat_ofNat_of_lt' h
  refine (reads_count64 h).bind ?_
  split
  · next hzero =>
    rw [hzero] at hcount
    obtain rfl := List.eq_nil_of_length_eq_zero hcount.symm
    exact reads_pure _
  · rw [hcount]
    exact (reads_bigInteger (⟨string, rfl⟩ : CBigInteger string.length)).map _

theorem SocketAddress.reads (a : SocketAddress) :
    Reads SocketAddress.deserialize a.serialize a := by
  have hip : Reads IPAddress.deserialize a.ipAddress.serialize a.ipAddress := by
    cases a.ipAddress with
    | v4 bytes => exact (reads_u8 0).bind ((reads_bigInteger bytes).map IPAddress.v4)
    | v6 bytes => exact (reads_u8 1).bind ((reads_bigInteger bytes).map IPAddress.v6)
  exact hip.bind ((reads_u16 a.port).map _)

/-! ### Transactions and blocks under every version -/

/-- **An input is read back** by whoever knows its coin, or is told the features. -/
theorem TransactionInput.reads {coinView : Commitment → Except Exc OutputFeatures}
    {version : EProtocolVersion} {i : TransactionInput}
    (h : version ≠ .v1 → version ≠ .v2 → coinView i.commitment = .ok i.features) :
    Reads (TransactionInput.deserialize coinView version) (i.serialized version) i := by
  rw [TransactionInput.deserialize, TransactionInput.serialized]
  split
  · exact (reads_u8 i.features.value).bind
      ((reads_bigInteger i.commitment).map _)
  · next hversion =>
    rw [not_or] at hversion
    have hfeatures : Reads (Exec.ofExcept (coinView i.commitment) : ByteBuffer OutputFeatures) []
        i.features := by
      rw [h hversion.1 hversion.2]
      exact reads_pure _
    rw [List.nil_append, ← List.append_nil i.commitment.bytes]
    exact (reads_bigInteger i.commitment).bind (hfeatures.map _)

/-- From the second version on the form of a kernel is the same. -/
theorem TransactionKernel.reads {version : EProtocolVersion} {k : TransactionKernel}
    (hcanonical : k.Canonical) (hheight : k.RelativeHeightValid) :
    Reads (TransactionKernel.deserialize version) (k.serialized version) k := by
  by_cases hversion : version = .v1
  · rw [hversion]
    exact roundTrips hcanonical hheight .v1 (.inl rfl)
  · have hread : TransactionKernel.deserialize version = TransactionKernel.deserialize .v2 := by
      simp [TransactionKernel.deserialize, readFee, readLockHeight, hversion]
    have hwrite : k.serialized version = k.serialized .v2 := by
      simp [serialized, hversion]
    rw [hread, hwrite]
    exact roundTrips hcanonical hheight .v2 (.inr rfl)

section Bodies

variable {G : Global} (hG : G.InjectiveOnBytes) (sort : BodySort G)
  {coinView : Commitment → Except Exc OutputFeatures} {version : EProtocolVersion}

/-- What a body must be to be read back under a version. -/
structure TransactionBody.Readable (G : Global) (coinView : Commitment → Except Exc OutputFeatures)
    (version : EProtocolVersion) (b : TransactionBody) : Prop where
  /-- It is well formed. -/
  wellFormed : b.WellFormed
  /-- It is sorted. -/
  sorted : b.Sorted G
  /-- The reader knows the coins that are spent. -/
  known : version ≠ .v1 → version ≠ .v2 →
    ∀ i ∈ b.inputs, coinView i.commitment = .ok i.features

include hG in
theorem TransactionBody.Readable.reads {b : TransactionBody} (h : b.Readable G coinView version) :
    Reads (TransactionBody.deserialize sort coinView version) (b.serialized version) b := by
  have hword : 2 ^ 31 < 2 ^ 64 := by decide
  have hinputs := reads_counted (fun i hi => TransactionInput.reads (i := i)
    fun h1 h2 => h.known h1 h2 i hi) h.wellFormed.length_inputs
  have houtputs := reads_counted (fun o _ => TransactionOutput.run_deserialize o)
    h.wellFormed.length_outputs
  have hkernels := reads_counted (fun k hk => @TransactionKernel.reads version k
    (h.wellFormed.canonical k hk) (h.wellFormed.relativeHeight k hk)) h.wellFormed.length_kernels
  have hbody : Reads (TransactionBody.deserialize sort coinView version) (b.serialized version)
      (sort.body (sort.inputs b.inputs) (sort.outputs b.outputs) (sort.kernels b.kernels)) :=
    (reads_count64 (h.wellFormed.length_inputs.trans hword)).bind
    ((reads_count64 (h.wellFormed.length_outputs.trans hword)).bind
      ((reads_count64 (h.wellFormed.length_kernels.trans hword)).bind
        (hinputs.bind (houtputs.bind (hkernels.map _)))))
  rwa [h.wellFormed.body_eq hG h.sorted sort] at hbody

include hG in
theorem Transaction.reads {tx : Transaction} (h : tx.body.Readable G coinView version) :
    Reads (Transaction.deserialize sort coinView version) (tx.serialized version) tx :=
  (reads_bigInteger tx.offset).bind ((h.reads hG sort).map _)

theorem BlockHeader.reads {h : BlockHeader} (hfit : h.HashesFit) (hclean : h.CleanCycle) :
    Reads BlockHeader.deserialize h.serialized h := by
  have hread := run_deserialize hfit
  rwa [hclean.reload_eq] at hread

include hG in
theorem FullBlock.reads {b : FullBlock} (hfit : b.header.HashesFit) (hclean : b.header.CleanCycle)
    (h : b.body.Readable G coinView version) :
    Reads (FullBlock.deserialize sort coinView version) (b.serialized version) b :=
  (BlockHeader.reads hfit hclean).bind ((h.reads hG sort).map _)

end Bodies

/-- What a compact block must be to be read back. -/
structure CompactBlock.Readable (b : CompactBlock) : Prop where
  /-- The hashes of the header have 32 bytes. -/
  hashesFit : b.header.HashesFit
  /-- Its cycle is clean. -/
  cleanCycle : b.header.CleanCycle
  /-- The kernels are well formed for their features. -/
  canonical : ∀ k ∈ b.kernels, k.Canonical
  /-- Relative heights are within a week. -/
  relativeHeight : ∀ k ∈ b.kernels, k.RelativeHeightValid
  /-- The outputs can be counted in an `int`. -/
  length_outputs : b.outputs.length < 2 ^ 31
  /-- So can the kernels. -/
  length_kernels : b.kernels.length < 2 ^ 31
  /-- So can the short ids. -/
  length_shortIds : b.shortIds.length < 2 ^ 31

theorem CompactBlock.Readable.reads {b : CompactBlock} (h : b.Readable)
    (version : EProtocolVersion) :
    Reads (CompactBlock.deserialize version) (b.serialized version) b := by
  have hword : 2 ^ 31 < 2 ^ 64 := by decide
  have houtputs := reads_counted (fun o _ => TransactionOutput.run_deserialize o) h.length_outputs
  have hkernels := reads_counted (fun k hk => @TransactionKernel.reads version k
    (h.canonical k hk) (h.relativeHeight k hk)) h.length_kernels
  have hshortIds := reads_counted (fun id _ => reads_bigInteger id) h.length_shortIds
  exact (BlockHeader.reads h.hashesFit h.cleanCycle).bind ((reads_u64 b.nonce).bind
    ((reads_count64 (h.length_outputs.trans hword)).bind
      ((reads_count64 (h.length_kernels.trans hword)).bind
        ((reads_count64 (h.length_shortIds.trans hword)).bind
          (houtputs.bind (hkernels.bind (hshortIds.map _)))))))

/-! ### Segments -/

namespace Segment

variable {α : Type} {s : Segment α}

theorem reads_positions (unsorted : Exc) {positions : List ℕ}
    (hsorted : positions.Pairwise (· < ·)) (hfit : ∀ p ∈ positions, p + 1 < 2 ^ 64)
    {lastWirePos : UInt64} (hlast : ∀ p ∈ positions, lastWirePos.toNat < p + 1) :
    Reads (readPositions unsorted positions.length lastWirePos)
      (positions.flatMap fun pos => beBytes 8 (pos + 1)) positions := by
  induction positions generalizing lastWirePos with
  | nil => exact reads_pure _
  | cons p positions ih =>
    rw [List.pairwise_cons] at hsorted
    have hp := hfit p List.mem_cons_self
    have hword : (UInt64.ofNat (p + 1)).toNat = p + 1 := UInt64.toNat_ofNat_of_lt' hp
    rw [List.flatMap_cons]
    refine (reads_count64 hp).bind ?_
    rw [if_neg (by
      have := hlast p List.mem_cons_self
      rw [UInt64.le_iff_toNat_le]
      omega)]
    rw [hword, Nat.add_sub_cancel]
    refine Reads.map (ih hsorted.2 (fun q hq => hfit q (List.mem_cons_of_mem _ hq))
      fun q hq => ?_) _
    have := hsorted.1 q hq
    omega

/-- What a segment must be to be read back. -/
structure Readable (s : Segment α) : Prop where
  /-- The positions ascend, and there are as many as values. -/
  deserialized : s.Deserialized
  /-- The positions of the hashes fit. -/
  hashPos_lt : ∀ p ∈ s.hashPos, p + 1 < 2 ^ 64
  /-- So do those of the leaves. -/
  leafPos_lt : ∀ p ∈ s.leafPos, p + 1 < 2 ^ 64
  /-- The hashes have 32 bytes. -/
  hashes : ∀ h ∈ s.hashes, h.Fits
  /-- So do those of the proof. -/
  proof : ∀ h ∈ s.proof.hashes, h.Fits
  /-- The hashes can be counted. -/
  length_hashPos : s.hashPos.length < 2 ^ 64
  /-- So can the leaves. -/
  length_leafPos : s.leafPos.length < 2 ^ 64
  /-- So can the hashes of the proof. -/
  length_proof : s.proof.hashes.length < 2 ^ 64

/-- **A segment is read back** with its leaves. -/
theorem Readable.reads (h : s.Readable) {leafBytes : α → List UInt8} {readLeaf : ByteBuffer α}
    (hleaf : ∀ leaf ∈ s.leaves, Reads readLeaf (leafBytes leaf) leaf) :
    Reads (deserialize readLeaf) (s.serialize leafBytes) s := by
  have hzero : ∀ positions : List ℕ, ∀ p ∈ positions, (0 : UInt64).toNat < p + 1 :=
    fun _ p _ => Nat.succ_pos p
  have hnumHashes : (UInt64.ofNat s.hashPos.length).toNat = s.hashPos.length :=
    UInt64.toNat_ofNat_of_lt' h.length_hashPos
  have hnumLeaves : (UInt64.ofNat s.leafPos.length).toNat = s.leafPos.length :=
    UInt64.toNat_ofNat_of_lt' h.length_leafPos
  refine (reads_segmentIdentifier s.id).bind ((reads_count64 h.length_hashPos).bind ?_)
  rw [hnumHashes]
  refine (reads_positions _ h.deserialized.hashPos_sorted h.hashPos_lt (hzero _)).bind
    ((reads_many (fun hash hhash => reads_hash (h.hashes hash hhash))
      h.deserialized.length_hashes).bind ((reads_count64 h.length_leafPos).bind ?_))
  rw [hnumLeaves]
  exact (reads_positions _ h.deserialized.leafPos_sorted h.leafPos_lt (hzero _)).bind
    ((reads_many hleaf h.deserialized.length_leaves).bind
      (Reads.map (SegmentProof.run_deserialize h.proof h.length_proof) _))

end Segment

theorem OutputIdentifier.reads (o : OutputIdentifier) :
    Reads OutputIdentifier.deserialize o.serialize o :=
  (reads_u8 o.features.value).bind ((reads_bigInteger o.commitment).map _)

/-- What a segment of the bitmap must be to be read back. -/
structure BitmapSegment.Readable (b : BitmapSegment) : Prop where
  /-- The blocks were made of chunks. -/
  blocks : ∀ block ∈ b.blocks, ∃ chunks : List BitmapChunk, chunks.length ≤ 64 ∧
    block = BitmapSegmentBlock.fromChunks chunks
  /-- The blocks can be counted in 16 bits. -/
  length_blocks : b.blocks.length < 2 ^ 16
  /-- The hashes of the proof have 32 bytes. -/
  proof : ∀ h ∈ b.proof.hashes, h.Fits
  /-- They can be counted. -/
  length_proof : b.proof.hashes.length < 2 ^ 64

theorem BitmapSegment.Readable.reads {b : BitmapSegment} (h : b.Readable) :
    Reads BitmapSegment.deserialize b.serialize b := by
  have hblocks : ∀ block ∈ b.blocks,
      Reads BitmapSegmentBlock.deserialize block.serialize block := by
    intro block hblock
    obtain ⟨chunks, hchunks, rfl⟩ := h.blocks block hblock
    exact BitmapSegmentBlock.run_deserialize hchunks
  have hcount : (UInt16.ofNat b.blocks.length).toNat = b.blocks.length :=
    UInt16.toNat_ofNat_of_lt' h.length_blocks
  exact (reads_segmentIdentifier b.identifier).bind ((reads_count16 h.length_blocks).bind
    ((reads_many hblocks hcount).bind
      (Reads.map (SegmentProof.run_deserialize h.proof h.length_proof) _)))

/-! ### Messages come back -/

namespace HandMessage

/-- What the first message of a handshake must be to be read back. -/
structure Fits (m : HandMessage) : Prop where
  /-- The hash has 32 bytes. -/
  hash : m.hash.Fits
  /-- The user agent has a length. -/
  userAgent : m.userAgent.length < 2 ^ 64

theorem Fits.reads {m : HandMessage} (h : m.Fits) :
    Reads HandMessage.deserialize m.serializeBody m :=
  (reads_u32 m.version).bind ((reads_u32 m.capabilities).bind
    ((reads_u64 m.nonce).bind ((reads_u64 m.totalDifficulty).bind
      (m.senderAddress.reads.bind (m.receiverAddress.reads.bind
        ((reads_varStr h.userAgent).bind ((reads_hash h.hash).map _)))))))

end HandMessage

namespace ShakeMessage

/-- What the second message of a handshake must be to be read back. -/
structure Fits (m : ShakeMessage) : Prop where
  /-- The hash has 32 bytes. -/
  hash : m.hash.Fits
  /-- The user agent has a length. -/
  userAgent : m.userAgent.length < 2 ^ 64

theorem Fits.reads {m : ShakeMessage} (h : m.Fits) :
    Reads ShakeMessage.deserialize m.serializeBody m :=
  (reads_u32 m.version).bind ((reads_u32 m.capabilities).bind
    ((reads_u64 m.totalDifficulty).bind
      ((reads_varStr h.userAgent).bind ((reads_hash h.hash).map _))))

end ShakeMessage

/-- The headers of a list can be read back. -/
def HeadersFit (headers : List BlockHeader) : Prop :=
  ∀ h ∈ headers, h.HashesFit ∧ h.CleanCycle

namespace Message

/-- What a message must be to be read back under a version. The messages of a handshake are none
of those that are read later. -/
def Fits (G : Global) (coinView : Commitment → Except Exc OutputFeatures)
    (version : EProtocolVersion) : Message → Prop
  | hand _ => False
  | shake _ => False
  | ping .. => True
  | pong .. => True
  | getPeerAddrs _ => True
  | peerAddrs peerAddresses => peerAddresses.length < 2 ^ 32
  | getHeaders hashes => hashes.length < 2 ^ 8 ∧ ∀ h ∈ hashes, h.Fits
  | header h => HeadersFit [h]
  | headers hs => hs.length < 2 ^ 16 ∧ HeadersFit hs
  | getBlock hash => hash.Fits
  | block b => HeadersFit [b.header] ∧ b.body.Readable G coinView version
  | getCompactBlock hash => hash.Fits
  | compactBlock b => b.Readable
  | stemTransaction tx => tx.body.Readable G coinView version
  | transaction tx => tx.body.Readable G coinView version
  | txHashSetRequest blockHash _ => blockHash.Fits
  | txHashSetArchive blockHash _ _ => blockHash.Fits
  | banReason _ => True
  | getTransaction kernelHash => kernelHash.Fits
  | transactionKernel kernelHash => kernelHash.Fits
  | getOutputBitmapSegment blockHash _ => blockHash.Fits
  | outputBitmapSegment blockHash segment outputRoot =>
    blockHash.Fits ∧ segment.Readable ∧ outputRoot.Fits
  | getOutputSegment blockHash _ => blockHash.Fits
  | outputSegment blockHash segment bitmapRoot =>
    blockHash.Fits ∧ segment.Readable ∧ bitmapRoot.Fits
  | getRangeProofSegment blockHash _ => blockHash.Fits
  | rangeProofSegment blockHash segment => blockHash.Fits ∧ segment.Readable
  | getKernelSegment blockHash _ => blockHash.Fits
  | kernelSegment blockHash segment => blockHash.Fits ∧ segment.Readable ∧
    ∀ k ∈ segment.leaves, k.Canonical ∧ k.RelativeHeightValid
  | getHeaderSegment _ => True
  | headerSegment _ hs => hs.length < 2 ^ 16 ∧ HeadersFit hs

section Readers

theorem reads_deserializeHash {message : Hash → Message} {hash : Hash} (h : hash.Fits) :
    Reads (deserializeHash message) hash.getData (some (message hash)) :=
  (reads_hash h).map _

theorem reads_deserializePing (message : UInt64 → UInt64 → Message)
    (totalDifficulty height : UInt64) :
    Reads (deserializePing message)
      (beBytes 8 totalDifficulty.toNat ++ beBytes 8 height.toNat)
      (some (message totalDifficulty height)) :=
  (reads_u64 totalDifficulty).bind ((reads_u64 height).map _)

theorem reads_deserializeSegmentRequest {message : Hash → SegmentIdentifier → Message}
    {blockHash : Hash} (h : blockHash.Fits) (identifier : SegmentIdentifier) :
    Reads (deserializeSegmentRequest message) (blockHash.getData ++ identifier.serialize)
      (some (message blockHash identifier)) :=
  (reads_hash h).bind ((reads_segmentIdentifier identifier).map _)

theorem reads_headers {hs : List BlockHeader} (h : HeadersFit hs) {n : ℕ} (hn : n = hs.length) :
    Reads (readMany BlockHeader.deserialize n) (hs.flatMap BlockHeader.serialized) hs :=
  reads_many (fun header hheader =>
    BlockHeader.reads (h header hheader).1 (h header hheader).2) hn

end Readers

variable {G : Global} {sort : BodySort G} {coinView : Commitment → Except Exc OutputFeatures}
  {version : EProtocolVersion}

variable (sort) in
/-- **A message is read back** from its body, by what its type says. -/
theorem reads_deserialize (hG : G.InjectiveOnBytes) {message : Message}
    (h : message.Fits G coinView version) :
    Reads (deserialize sort coinView version message.getMessageType)
      (message.serializeBody version) (some message) := by
  cases message with
  | hand _ => exact h.elim
  | shake _ => exact h.elim
  | ping totalDifficulty height => exact reads_deserializePing ping totalDifficulty height
  | pong totalDifficulty height => exact reads_deserializePing pong totalDifficulty height
  | getPeerAddrs capabilities => exact (reads_u32 capabilities).map _
  | peerAddrs peerAddresses =>
    exact (reads_count32 h).bind ((reads_many (fun a _ => a.reads)
      (UInt32.toNat_ofNat_of_lt' h)).map _)
  | getHeaders hashes =>
    exact (reads_count8 _).bind ((reads_many (fun hash hhash => reads_hash (h.2 hash hhash))
      (UInt8.toNat_ofNat_of_lt' h.1)).map _)
  | header header =>
    exact (BlockHeader.reads (h _ List.mem_cons_self).1 (h _ List.mem_cons_self).2).map _
  | headers hs =>
    exact (reads_count16 h.1).bind ((reads_headers h.2 (UInt16.toNat_ofNat_of_lt' h.1)).map _)
  | getBlock hash => exact reads_deserializeHash h
  | block b =>
    exact (FullBlock.reads hG sort (h.1 _ List.mem_cons_self).1 (h.1 _ List.mem_cons_self).2
      h.2).map _
  | getCompactBlock hash => exact reads_deserializeHash h
  | compactBlock b => exact (h.reads version).map _
  | stemTransaction tx => exact (Transaction.reads hG sort h).map _
  | transaction tx => exact (Transaction.reads hG sort h).map _
  | txHashSetRequest blockHash blockHeight =>
    exact (reads_hash h).bind ((reads_u64 blockHeight).map _)
  | txHashSetArchive blockHash blockHeight zippedSize =>
    exact (reads_hash h).bind
      ((reads_u64 blockHeight).bind ((reads_u64 zippedSize).map _))
  | banReason reason => exact (reads_u32 reason).map _
  | getTransaction kernelHash => exact reads_deserializeHash h
  | transactionKernel kernelHash => exact reads_deserializeHash h
  | getOutputBitmapSegment blockHash identifier =>
    exact reads_deserializeSegmentRequest h identifier
  | outputBitmapSegment blockHash segment outputRoot =>
    exact (reads_hash h.1).bind (h.2.1.reads.bind ((reads_hash h.2.2).map _))
  | getOutputSegment blockHash identifier => exact reads_deserializeSegmentRequest h identifier
  | outputSegment blockHash segment bitmapRoot =>
    exact (reads_hash h.1).bind ((h.2.1.reads fun o _ => o.reads).bind
      ((reads_hash h.2.2).map _))
  | getRangeProofSegment blockHash identifier =>
    exact reads_deserializeSegmentRequest h identifier
  | rangeProofSegment blockHash segment =>
    exact (reads_hash h.1).bind (Reads.map (h.2.reads fun p _ => p.run_deserialize) _)
  | getKernelSegment blockHash identifier => exact reads_deserializeSegmentRequest h identifier
  | kernelSegment blockHash segment =>
    exact (reads_hash h.1).bind (Reads.map (h.2.1.reads fun k hk =>
      TransactionKernel.reads (h.2.2 k hk).1 (h.2.2 k hk).2) _)
  | getHeaderSegment identifier => exact (reads_segmentIdentifier identifier).map _
  | headerSegment identifier hs =>
    exact (reads_segmentIdentifier identifier).bind ((reads_count16 h.1).bind
      ((reads_headers h.2 (UInt16.toNat_ofNat_of_lt' h.1)).map _))

end Message

end GrinPlusPlus
