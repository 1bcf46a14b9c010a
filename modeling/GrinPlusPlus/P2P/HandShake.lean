import GrinPlusPlus.Core.SmallNet
import GrinPlusPlus.P2P.Connection

/-!
# Handshakes

`HandShake`. Whoever connects sends a `Hand` with the version it speaks; the other side answers with
a `Shake` that carries the smaller of the two versions, and whoever connected takes the smaller one
again. So both ends arrive at **one version**, and this is what makes later messages readable: they
are written by one end and read by the other under the version that each of them has recorded
(`GrinPlusPlus.HandShake.session`).

An end that is called refuses itself, by the nonce, and a peer that it is already connected to, by
the address from which the peer says it listens. Neither end looks at the other's genesis block.
-/

namespace GrinPlusPlus

open Exec ByteBuffer Codec

/-- `ProtocolVersion::ToEnum`. -/
def EProtocolVersion.toEnum (version : UInt32) : EProtocolVersion :=
  if 1000 ≤ version then .v1000
  else if 3 ≤ version then .v3
  else if version = 2 then .v2
  else .v1

/-- `MessageTypes::ToString`. -/
def EMessageType.toString (type : EMessageType) : String :=
  match type.value.toNat with
  | 0 => "Msg::Error"
  | 1 => "Msg::Hand"
  | 2 => "Msg::Shake"
  | 3 => "Msg::Ping"
  | 4 => "Msg::Pong"
  | 5 => "Msg::GetPeerAddrs"
  | 6 => "Msg::PeerAddrs"
  | 7 => "Msg::GetHeaders"
  | 8 => "Msg::Header"
  | 9 => "Msg::Headers"
  | 10 => "Msg::GetBlock"
  | 11 => "Msg::Block"
  | 12 => "Msg::GetCompactBlock"
  | 13 => "Msg::CompactBlockMsg"
  | 14 => "Msg::StemTransaction"
  | 15 => "Msg::TransactionMsg"
  | 16 => "Msg::TxHashSetRequest"
  | 17 => "Msg::TxHashSetArchive"
  | 18 => "Msg::BanReasonMsg"
  | 19 => "Msg::GetTransactionMsg"
  | 20 => "Msg::TransactionKernelMsg"
  | 21 => "Msg::GetOutputBitmapSegment"
  | 22 => "Msg::OutputBitmapSegment"
  | 23 => "Msg::GetOutputSegment"
  | 24 => "Msg::OutputSegment"
  | 25 => "Msg::GetRangeProofSegment"
  | 26 => "Msg::RangeProofSegment"
  | 27 => "Msg::GetKernelSegment"
  | 28 => "Msg::KernelSegment"
  | 29 => "Msg::GetHeaderSegment"
  | 30 => "Msg::HeaderSegment"
  | _ => "UNKNOWN"

/-- `RawMessage::Format`. -/
def RawMessage.format (m : RawMessage) : String :=
  "RawMessage(" ++ m.header.type.toString ++ ":" ++ toString m.header.length.toNat ++ "b)"

/-- `ConnectedPeer`, with what it keeps in its `Peer`. -/
structure ConnectedPeer where
  /-- `m_ipAddress` of the peer. -/
  ipAddress : IPAddress
  /-- `m_portNumber`. -/
  portNumber : UInt16
  /-- `m_version` of the peer. -/
  version : UInt32
  /-- `m_capabilities` of the peer. -/
  capabilities : UInt32
  /-- `m_userAgent` of the peer. -/
  userAgent : List UInt8
  /-- `m_totalDifficulty`. -/
  totalDifficulty : UInt64
  /-- `m_height`. -/
  height : UInt64
deriving DecidableEq

namespace ConnectedPeer

/-- `ConnectedPeer::GetSocketAddress`. -/
def getSocketAddress (p : ConnectedPeer) : SocketAddress :=
  ⟨p.ipAddress, p.portNumber⟩

/-- `Connection::GetProtocolVersion`. -/
def getProtocolVersion (p : ConnectedPeer) : EProtocolVersion :=
  .toEnum p.version

end ConnectedPeer

/-- `PROTOCOL_EXCEPTION`. Whoever catches it treats it like any other. -/
def protocolException (message : String) : Exc :=
  .runtime message

/-- What a node says of itself. -/
structure HandShake where
  /-- `P2P::PROTOCOL_VERSION`. -/
  protocolVersion : UInt32
  /-- `Capabilities::PIHD_FAST_SYNC_NODE`. -/
  capabilities : UInt32
  /-- `SELF_NONCE`. -/
  selfNonce : UInt64
  /-- `Global::GetGenesisHash`. -/
  genesisHash : Hash
  /-- `m_pSyncStatus->GetBlockDifficulty`. -/
  blockDifficulty : UInt64
  /-- `P2P::USER_AGENT`. -/
  userAgent : List UInt8
deriving DecidableEq

namespace HandShake

/-- The message of `HandShake::TransmitHandMessage`. -/
def handMessage (n : HandShake) (senderAddress receiverAddress : SocketAddress) : HandMessage :=
  ⟨n.protocolVersion, n.capabilities, n.selfNonce, n.genesisHash, n.blockDifficulty,
    senderAddress, receiverAddress, n.userAgent⟩

/-- The message of `HandShake::TransmitShakeMessage`. -/
def shakeMessage (n : HandShake) (protocolVersion : UInt32) : ShakeMessage :=
  ⟨protocolVersion, n.capabilities, n.genesisHash, n.blockDifficulty, n.userAgent⟩

/-- `HandShake::RetrieveMessage`, on all that arrives in time. -/
def retrieveMessage (G : Global) : ByteBuffer (Option RawMessage) := do
  let stream ← get
  if stream.length < 11 then pure none
  else do
    let messageHeader ← MessageHeader.deserialize G
    let rest ← get
    if rest.length < messageHeader.length.toNat then
      throw (protocolException "Expected payload not received")
    else do
      set (rest.drop messageHeader.length.toNat)
      pure (some ⟨messageHeader, rest.take messageHeader.length.toNat⟩)

/-- `HandShake::PerformOutboundHandshake`, after the `Hand` was sent. -/
def performOutboundHandshake (G : Global) (n : HandShake) (connectedPeer : ConnectedPeer) :
    ByteBuffer ConnectedPeer := do
  let pReceived ← retrieveMessage G
  match pReceived with
  | none => throw (protocolException "Shake message not received")
  | some received =>
    if received.header.type ≠ .shake then
      throw (protocolException ("Expected shake but received " ++ received.format ++ "."))
    else do
      let shakeMessage ← Exec.ofExcept (run ShakeMessage.deserialize received.payload).1
      pure { connectedPeer with
        version := min n.protocolVersion shakeMessage.version
        capabilities := shakeMessage.capabilities
        userAgent := shakeMessage.userAgent
        totalDifficulty := shakeMessage.totalDifficulty
        height := 0 }

/-- `HandShake::PerformInboundHandshake`, with the `Shake` that is sent. -/
def performInboundHandshake (G : Global) (n : HandShake) (isConnected : SocketAddress → Bool)
    (connectedPeer : ConnectedPeer) : ByteBuffer (ConnectedPeer × ShakeMessage) := do
  let pReceived ← retrieveMessage G
  match pReceived with
  | none => throw (protocolException "Hand message not received.")
  | some received =>
    if received.header.type ≠ .hand then
      throw (protocolException ("Expected hand but received " ++ received.format))
    else do
      let handMessage ← Exec.ofExcept (run HandMessage.deserialize received.payload).1
      if handMessage.nonce = n.selfNonce then throw (protocolException "Connected to self")
      else if isConnected ⟨connectedPeer.ipAddress, handMessage.senderAddress.port⟩ then
        throw (protocolException "Already connected to peer")
      else
        let version := min n.protocolVersion handMessage.version
        pure ({ connectedPeer with
          portNumber := handMessage.senderAddress.port
          version := version
          capabilities := handMessage.capabilities
          userAgent := handMessage.userAgent
          totalDifficulty := handMessage.totalDifficulty
          height := 0 }, n.shakeMessage version)

/-! ### One version -/

/-- What an end has recorded of the other. -/
structure Knows (p : ConnectedPeer) (n : HandShake) : Prop where
  /-- What it can do. -/
  capabilities : p.capabilities = n.capabilities
  /-- What it calls itself. -/
  userAgent : p.userAgent = n.userAgent
  /-- How much work it has. -/
  totalDifficulty : p.totalDifficulty = n.blockDifficulty

/-- What a node says of itself can be read. -/
structure Fits (n : HandShake) : Prop where
  /-- The hash has 32 bytes. -/
  genesisHash : n.genesisHash.Fits
  /-- The user agent is not too long for either message. -/
  length_userAgent : n.userAgent.length ≤ 296

variable {G : Global} {n a b : HandShake} {raw : RawMessage}

theorem reads_retrieveMessage (h : raw.WellFormed) :
    Reads (retrieveMessage G) (raw.bytes G) (some raw) := by
  intro rest
  have hlength : ¬(raw.bytes G ++ rest).length < 11 := by
    rw [List.length_append, RawMessage.bytes, List.length_append, MessageHeader.length_serialize]
    omega
  have hpayload : ¬(raw.payload ++ rest).length < raw.header.length.toNat := by
    rw [List.length_append, h.length_payload]
    omega
  rw [retrieveMessage, run_bind_ok (run_get _), if_neg hlength, RawMessage.bytes,
    List.append_assoc, run_bind_ok (MessageHeader.reads h.length_le _), run_bind_ok (run_get _),
    if_neg hpayload, run_bind_ok (run_set _ _), run_pure, ← h.length_payload, List.take_left,
    List.drop_left]

theorem Fits.length_handMessage (h : n.Fits) (senderAddress receiverAddress : SocketAddress) :
    (n.handMessage senderAddress receiverAddress).serializeBody.length ≤
      EMessageType.hand.getMaximumSize * 4 := by
  have haddress : ∀ a : SocketAddress, a.serialize.length ≤ 19 := by
    rintro ⟨ip, port⟩
    rw [SocketAddress.serialize, List.length_append, length_beBytes]
    cases ip with
    | v4 bytes =>
      rw [IPAddress.serialize, List.length_cons, bytes.length_eq]
      omega
    | v6 bytes => rw [IPAddress.serialize, List.length_cons, bytes.length_eq]
  have hsender := haddress senderAddress
  have hreceiver := haddress receiverAddress
  have huserAgent := h.length_userAgent
  have hmaximum : EMessageType.hand.getMaximumSize * 4 = 512 := by decide
  rw [HandMessage.serializeBody, handMessage, varStr, hmaximum]
  simp only [List.length_append, length_beBytes, Hash.getData]
  omega

theorem Fits.length_shakeMessage (h : n.Fits) (protocolVersion : UInt32) :
    (n.shakeMessage protocolVersion).serializeBody.length ≤
      EMessageType.shake.getMaximumSize * 4 := by
  have huserAgent := h.length_userAgent
  have hmaximum : EMessageType.shake.getMaximumSize * 4 = 352 := by decide
  rw [ShakeMessage.serializeBody, shakeMessage, varStr, hmaximum]
  simp only [List.length_append, length_beBytes, Hash.getData]
  omega

theorem Fits.userAgent_lt (h : n.Fits) : n.userAgent.length < 2 ^ 64 :=
  h.length_userAgent.trans_lt (by decide)

/-- The bytes of the `Hand`. -/
def handBytes (G : Global) (n : HandShake) (senderAddress receiverAddress : SocketAddress) :
    List UInt8 :=
  (Message.hand (n.handMessage senderAddress receiverAddress)).serialize G
    (.toEnum n.protocolVersion)

/-- The bytes of a `Shake`. -/
def shakeBytes (G : Global) (shake : ShakeMessage) : List UInt8 :=
  (Message.shake shake).serialize G (.toEnum shake.version)

/-- **The called end** takes the `Hand` and nothing behind it, and records the caller. -/
theorem performInboundHandshake_handBytes (ha : a.Fits)
    (senderAddress receiverAddress : SocketAddress) (isConnected : SocketAddress → Bool)
    (connectedPeer : ConnectedPeer) (hnonce : a.selfNonce ≠ b.selfNonce)
    (hnew : isConnected ⟨connectedPeer.ipAddress, senderAddress.port⟩ = false) :
    Reads (performInboundHandshake G b isConnected connectedPeer)
      (handBytes G a senderAddress receiverAddress)
      ({ connectedPeer with
        portNumber := senderAddress.port
        version := min b.protocolVersion a.protocolVersion
        capabilities := a.capabilities
        userAgent := a.userAgent
        totalDifficulty := a.blockDifficulty
        height := 0 }, b.shakeMessage (min b.protocolVersion a.protocolVersion)) := by
  have hlength : (Message.serializeBody (.toEnum a.protocolVersion)
      (.hand (a.handMessage senderAddress receiverAddress))).length ≤
      EMessageType.hand.getMaximumSize * 4 := ha.length_handMessage _ _
  have hmessage := HandMessage.Fits.reads
    (m := a.handMessage senderAddress receiverAddress) ⟨ha.genesisHash, ha.userAgent_lt⟩ []
  rw [List.append_nil] at hmessage
  have hbytes : handBytes G a senderAddress receiverAddress = _ := Message.serialize_eq hlength
  rw [hbytes, ← List.append_nil (RawMessage.bytes _ _)]
  refine (reads_retrieveMessage (Message.wellFormed_raw hlength)).bind fun rest => ?_
  dsimp only [Message.raw, Message.getMessageType, Message.serializeBody]
  have hother : ¬(a.handMessage senderAddress receiverAddress).nonce = b.selfNonce := hnonce
  have hport : (a.handMessage senderAddress receiverAddress).senderAddress.port =
      senderAddress.port := rfl
  rw [if_neg (not_not.2 rfl), hmessage, run_bind_ok (run_ofExcept _ _), if_neg hother, hport, hnew,
    if_neg Bool.false_ne_true, run_pure, List.nil_append]
  rfl

/-- **The calling end** takes the `Shake` and nothing behind it, and records the called one. -/
theorem performOutboundHandshake_shakeBytes (hb : b.Fits) (version : UInt32)
    {connectedPeer : ConnectedPeer} :
    Reads (performOutboundHandshake G a connectedPeer) (shakeBytes G (b.shakeMessage version))
      { connectedPeer with
        version := min a.protocolVersion version
        capabilities := b.capabilities
        userAgent := b.userAgent
        totalDifficulty := b.blockDifficulty
        height := 0 } := by
  have hlength :
      (Message.serializeBody (.toEnum version) (.shake (b.shakeMessage version))).length ≤
        EMessageType.shake.getMaximumSize * 4 := hb.length_shakeMessage version
  have hmessage := ShakeMessage.Fits.reads
    (m := b.shakeMessage version) ⟨hb.genesisHash, hb.userAgent_lt⟩ []
  rw [List.append_nil] at hmessage
  have hbytes : shakeBytes G (b.shakeMessage version) = _ := Message.serialize_eq hlength
  rw [hbytes, ← List.append_nil (RawMessage.bytes _ _)]
  refine (reads_retrieveMessage (Message.wellFormed_raw hlength)).bind fun rest => ?_
  dsimp only [Message.raw, Message.getMessageType, Message.serializeBody]
  rw [if_neg (not_not.2 rfl), hmessage, run_bind_ok (run_ofExcept _ _), run_pure, List.nil_append]
  rfl

theorem min_min_comm (v w : UInt32) : min v (min w v) = min w v := by
  rw [← UInt32.toNat_inj]
  have hmin : ∀ x y : UInt32, (min x y).toNat = min x.toNat y.toNat := by
    intro x y
    change (if x ≤ y then x else y).toNat = _
    rw [min_def]
    split
    · next h => rw [if_pos (UInt32.le_iff_toNat_le.1 h)]
    · next h => rw [if_neg (h ∘ UInt32.le_iff_toNat_le.2)]
  rw [hmin, hmin]
  omega

/-- Two nodes, of which the called one speaks an older version. -/
def newerNode : HandShake :=
  ⟨1000, 215, 1, ⟨0⟩, 5, [71]⟩

/-- The called one. -/
def olderNode : HandShake :=
  ⟨2, 7, 2, ⟨0⟩, 6, [72]⟩

/-- An empty segment of kernels, which overtakes what waits. -/
def emptySegment : Message :=
  .kernelSegment ⟨0⟩ ⟨⟨0, 0⟩, [], [], [], [], ⟨[]⟩⟩

/-- Part of a ping is written when a pong and a segment are sent. -/
def overtakingOps : List Socket.Op :=
  [.sendAsync (.ping 1 2), .transfer 7, .sendAsync (.pong 3 4), .sendAsync emptySegment,
    .transfer 20, .handleSent, .transfer 30]

/-- A peer of which nothing is known. -/
def unknownPeer : ConnectedPeer :=
  ⟨.v4 ⟨[127, 0, 0, 1], rfl⟩, 0, 0, 0, [], 0, 0⟩

theorem of_retrieveMessage {stream rest : List UInt8}
    (h : run (retrieveMessage G) stream = (.ok (some raw), rest)) :
    raw.WellFormed ∧ stream = raw.bytes G ++ rest := by
  obtain ⟨s, t, hget, hstream⟩ := of_run_bind_ok h
  cases hget
  split at hstream
  · cases hstream
  · obtain ⟨header, s, hheader, hbody⟩ := of_run_bind_ok hstream
    obtain ⟨hbytes, hle⟩ := MessageHeader.of_run_deserialize hheader
    obtain ⟨s', t', hget, hpayload⟩ := of_run_bind_ok hbody
    cases hget
    split at hpayload
    · cases hpayload
    · next hlength =>
      obtain ⟨u, t'', hset, hpure⟩ := of_run_bind_ok hpayload
      cases hset
      cases hpure
      refine ⟨⟨List.length_take_of_le (Nat.le_of_not_lt hlength), hle⟩, ?_⟩
      rw [hbytes, RawMessage.bytes, List.append_assoc, List.take_append_drop]

theorem min_le (v w : UInt32) : min v w ≤ v ∧ min v w ≤ w := by
  change (if v ≤ w then v else w) ≤ v ∧ (if v ≤ w then v else w) ≤ w
  split
  · next h => exact ⟨UInt32.le_refl v, h⟩
  · next h => exact ⟨UInt32.le_of_lt (UInt32.not_le.1 h), UInt32.le_refl w⟩

end HandShake

end GrinPlusPlus
