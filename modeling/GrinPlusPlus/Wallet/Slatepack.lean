import GrinPlusPlus.Core.Base58
import GrinPlusPlus.Wallet.SlateCodec

/-!
# Slatepacks

A slatepack is a serialised slate in an envelope: a version, whether it is encrypted, the address
of the sender and the slate. A plaintext slatepack names its sender in a field of its own, which
is left out when there is no sender; an encrypted one names the sender in the metadata that are
encrypted together with the slate, sender or not.

The parts that do not come from the repository are `GrinPlusPlus.SlatepackCrypto`: the text form
of an address, the conversion of its key, the encryption, the hash. That they invert each other as
they should is `GrinPlusPlus.SlatepackCrypto.Inverts`, and what an envelope needs beyond that to be
opened again is only that the address in it can be read:
`GrinPlusPlus.SlatepackMessage.decrypt_encrypt`.
-/

namespace GrinPlusPlus

open Exec ByteBuffer

/-! ### Keys and addresses -/

/-- `x25519_public_key_t`. -/
abbrev X25519PublicKey := CBigInteger 32

/-- `x25519_keypair_t`. -/
structure X25519KeyPair where
  /-- The secret key. -/
  seckey : SecretKey
  /-- The public key. -/
  pubkey : X25519PublicKey
deriving DecidableEq

theorem length_zeros_32 : (List.replicate 32 (0 : UInt8)).length = 32 := rfl

/-- `SlatepackAddress`: a key of the curve Ed25519. -/
structure SlatepackAddress where
  /-- The key. -/
  pubkey : Ed25519PublicKey
deriving DecidableEq

namespace SlatepackAddress

/-- The address without a key, of the default constructor. -/
def null : SlatepackAddress := ⟨⟨List.replicate 32 0, length_zeros_32⟩⟩

/-- `SlatepackAddress::IsNull`. -/
def isNull (a : SlatepackAddress) : Bool := a = null

end SlatepackAddress

/-- What slatepacks use of the libraries. The encryption draws random numbers; it is the function
that it is for the numbers it drew. -/
structure SlatepackCrypto extends SignatureForms where
  /-- `Hasher::SHA256`. -/
  sha256 : List UInt8 → CBigInteger 32
  /-- `Bech32Address::ToString`, of a key with the prefix `grin`. -/
  bech32 : Ed25519PublicKey → List UInt8
  /-- `Bech32Address::Parse`, the data. -/
  parseBech32 : List UInt8 → Except Exc (List UInt8)
  /-- `ED25519::IsValid`. -/
  isValid : Ed25519PublicKey → Bool
  /-- `Curve25519::ToX25519`, of a public key. -/
  toX25519 : Ed25519PublicKey → Except Exc X25519PublicKey
  /-- The public key of a secret key. -/
  x25519Public : SecretKey → X25519PublicKey
  /-- `Age::Encrypt`. -/
  ageEncrypt : List X25519PublicKey → List UInt8 → List UInt8
  /-- `Age::Decrypt`. -/
  ageDecrypt : X25519KeyPair → List UInt8 → Except Exc (List UInt8)

/-- **What the two sides of each library function have to do with each other.** -/
structure SlatepackCrypto.Inverts (K : SlatepackCrypto) : Prop where
  /-- The text of an address is parsed. -/
  parse_bech32 : ∀ key, K.parseBech32 (K.bech32 key) = .ok key.bytes
  /-- It consists of `grin1`, 52 symbols of data and six of a checksum. -/
  length_bech32 : ∀ key, (K.bech32 key).length = 63
  /-- The key of any recipient opens what was encrypted. -/
  decrypt_encrypt : ∀ keys bytes kp, kp.pubkey = K.x25519Public kp.seckey → kp.pubkey ∈ keys →
    K.ageDecrypt kp (K.ageEncrypt keys bytes) = .ok bytes
  /-- The size of what was encrypted is a number of 64 bits. -/
  length_encrypt : ∀ keys bytes, bytes.length < 2 ^ 32 → (K.ageEncrypt keys bytes).length < 2 ^ 64
  /-- The two forms of a signature. -/
  toCompact_parse : ∀ sig, K.toCompact (K.parseCompactSignature sig) = sig

namespace SlatepackAddress

variable (K : SlatepackCrypto)

/-- `ED25519::ToPubKey`. -/
def toPubKey (bytes : List UInt8) : Except Exc Ed25519PublicKey :=
  if h : bytes.length = 32 then
    if K.isValid ⟨bytes, h⟩ then .ok ⟨bytes, h⟩ else .error stdException
  else .error stdException

/-- `SlatepackAddress::Parse`. -/
def parse (address : List UInt8) : Except Exc SlatepackAddress := do
  let data ← K.parseBech32 address
  let pubkey ← toPubKey K data
  pure ⟨pubkey⟩

/-- `SlatepackAddress::Serialize`. -/
def serialize (a : SlatepackAddress) : List UInt8 :=
  UInt8.ofNat (K.bech32 a.pubkey).length :: K.bech32 a.pubkey

/-- `SlatepackAddress::Deserialize`. -/
def deserialize : ByteBuffer SlatepackAddress := do
  let size ← readU8
  let str ← readVector size.toNat
  Exec.ofExcept (parse K str)

end SlatepackAddress

/-! ### Messages -/

/-- `SlatepackMessage::EMode`: any byte is cast to it. -/
structure EMode where
  /-- The byte. -/
  value : UInt8
deriving DecidableEq

namespace EMode

/-- `EMode::PLAINTEXT`. -/
def plaintext : EMode := ⟨0⟩

/-- `EMode::ENCRYPTED`. -/
def encrypted : EMode := ⟨1⟩

end EMode

/-- `SlatepackMessage`. -/
structure SlatepackMessage where
  /-- The version, major and minor. -/
  version : UInt8 × UInt8
  /-- Whether the payload is encrypted. -/
  mode : EMode
  /-- The sender. -/
  sender : SlatepackAddress
  /-- The recipients that the metadata name. -/
  recipients : List SlatepackAddress
  /-- The payload. -/
  payload : List UInt8
deriving DecidableEq

/-- `SlatepackMessage::Metadata`. -/
structure Metadata where
  /-- The sender. -/
  sender : SlatepackAddress
  /-- The recipients. -/
  recipients : List SlatepackAddress
deriving DecidableEq

section

variable (K : SlatepackCrypto)

/-- `Metadata::Deserialize`, of the bytes that the size in front of them says. -/
def Metadata.deserializeInner : ByteBuffer Metadata := do
  let optFlags ← readU16
  let sender ← readIf (optFlags &&& 0x01 = 0x01) (SlatepackAddress.deserialize K) .null
  let recipients ←
    if optFlags &&& 0x02 = 0x02 then do
      let numRecipients ← readU16
      readMany (SlatepackAddress.deserialize K) numRecipients.toNat
    else pure []
  pure ⟨sender, recipients⟩

/-- `Metadata::Deserialize`. -/
def Metadata.deserialize : ByteBuffer Metadata := do
  let size ← readU32
  let inner ← readVector size.toNat
  Exec.ofExcept (run (deserializeInner K) inner).1

namespace SlatepackMessage

/-- The keys that `SlatepackMessage::EncryptPayload` encrypts for. -/
def recipientKeys (recipients : List SlatepackAddress) : Except Exc (List X25519PublicKey) :=
  recipients.mapM fun address => K.toX25519 address.pubkey

/-- The bytes that `SlatepackMessage::EncryptPayload` encrypts. -/
def toEncrypt (m : SlatepackMessage) : List UInt8 :=
  let flags := if m.recipients = [] then 0x01 else 0x01 ||| 0x02
  let inner := beBytes 2 flags ++ (m.sender.serialize K ++
    if m.recipients = [] then []
    else beBytes 2 m.recipients.length ++ m.recipients.flatMap (SlatepackAddress.serialize K))
  beBytes 4 inner.length ++ (inner ++ m.payload)

/-- `SlatepackMessage::EncryptPayload`. -/
def encryptPayload (m : SlatepackMessage) (recipients : List SlatepackAddress) :
    Except Exc (List UInt8) := do
  let recipientPubkeys ← recipientKeys K recipients
  pure (K.ageEncrypt recipientPubkeys (m.toEncrypt K))

/-- `SlatepackMessage::Encrypt`. -/
def encrypt (m : SlatepackMessage) (recipients : List SlatepackAddress) :
    Except Exc (List UInt8) := do
  let includeSender : Bool := m.mode = .plaintext ∧ m.sender.isNull = false
  let optFields := bytesIf includeSender (m.sender.serialize K)
  let payload ← if m.mode = .plaintext then pure m.payload else m.encryptPayload K recipients
  pure (m.version.1 :: m.version.2 :: m.mode.value ::
    (beBytes 2 (if includeSender then 0x01 else 0x00) ++ (beBytes 4 optFields.length ++
      (optFields ++ (beBytes 8 payload.length ++ payload)))))

/-- `SlatepackMessage::DecryptPayload`. -/
def decryptPayload (m : SlatepackMessage) (decryptKeypair : X25519KeyPair) :
    Except Exc SlatepackMessage := do
  let decrypted ← K.ageDecrypt decryptKeypair m.payload
  match run (Metadata.deserialize K) decrypted with
  | (.ok metadata, rest) =>
    pure { m with
      sender := metadata.sender
      recipients := metadata.recipients
      payload := rest }
  | (.error e, _) => .error e

/-- `SlatepackMessage::Decrypt`, up to the payload. -/
def deserialize : ByteBuffer SlatepackMessage := do
  let major ← readU8
  let minor ← readU8
  let mode ← readU8
  let optFlags ← readU16
  let optFieldsLen ← readU32
  let optFields ← readVector optFieldsLen.toNat
  let sender ← Exec.ofExcept
    (run (readIf (optFlags &&& 0x01 = 0x01) (SlatepackAddress.deserialize K) .null) optFields).1
  let payloadSize ← readU64
  let payload ← readVector payloadSize.toNat
  pure ⟨(major, minor), ⟨mode⟩, sender, [], payload⟩

/-- `SlatepackMessage::Decrypt`. -/
def decrypt (encrypted : List UInt8) (decryptKeypair : X25519KeyPair) :
    Except Exc SlatepackMessage := do
  let slatepack ← (run (deserialize K) encrypted).1
  if slatepack.mode = .encrypted then slatepack.decryptPayload K decryptKeypair
  else pure slatepack

end SlatepackMessage

end

/-! ### What was packed is unpacked -/

namespace ByteBuffer

theorem reads_readVector {bytes : List UInt8} {n : ℕ} (h : bytes.length = n) :
    Reads (readVector n) bytes bytes :=
  fun rest => run_readVector ⟨bytes, h⟩ rest

/-- Bytes behind their length, the length a number of 32 bits. -/
theorem reads_length_32 {bytes : List UInt8} (h : bytes.length < 2 ^ 32) :
    Reads readU32 (beBytes 4 bytes.length) (UInt32.ofNat bytes.length) := by
  have hread := reads_readU32 (UInt32.ofNat bytes.length)
  rwa [UInt32.toNat_ofNat_of_lt' h] at hread

/-- Bytes behind their length, the length a number of 64 bits. -/
theorem reads_length_64 {bytes : List UInt8} (h : bytes.length < 2 ^ 64) :
    Reads readU64 (beBytes 8 bytes.length) (UInt64.ofNat bytes.length) := by
  have hread := reads_readU64 (UInt64.ofNat bytes.length)
  rwa [UInt64.toNat_ofNat_of_lt' h] at hread

end ByteBuffer

section

variable {K : SlatepackCrypto} (hK : K.Inverts)

include hK

namespace SlatepackAddress

/-- An address is parsed from its text if its key is valid, and not otherwise. -/
theorem parse_bech32 (a : SlatepackAddress) :
    parse K (K.bech32 a.pubkey) =
      if K.isValid a.pubkey then .ok a else .error stdException := by
  rw [parse, hK.parse_bech32, Exec.ok_bind, toPubKey, dif_pos a.pubkey.length_eq]
  split
  · rfl
  · rfl

/-- The same for what was serialised. -/
theorem run_deserialize (a : SlatepackAddress) (rest : List UInt8) :
    run (deserialize K) (a.serialize K ++ rest) =
      (if K.isValid a.pubkey then .ok a else .error stdException, rest) := by
  have hlength := hK.length_bech32 a.pubkey
  have hsize : (UInt8.ofNat (K.bech32 a.pubkey).length).toNat = (K.bech32 a.pubkey).length := by
    rw [hlength]
    rfl
  rw [serialize, deserialize, List.cons_append, run_bind_ok (run_readU8 _ _), hsize,
    run_bind_ok (reads_readVector rfl rest), run_ofExcept, parse_bech32 hK]

theorem length_serialize (a : SlatepackAddress) : (a.serialize K).length = 64 := by
  rw [serialize, List.length_cons, hK.length_bech32]

end SlatepackAddress

/-- The metadata of a slatepack: they name a sender, and no recipients. -/
theorem Metadata.run_deserialize (a : SlatepackAddress) (rest : List UInt8) :
    run (Metadata.deserialize K)
        (beBytes 4 (beBytes 2 0x01 ++ a.serialize K).length ++
          ((beBytes 2 0x01 ++ a.serialize K) ++ rest)) =
      (if K.isValid a.pubkey then .ok ⟨a, []⟩ else .error stdException, rest) := by
  have hlength : (beBytes 2 0x01 ++ a.serialize K).length = 66 := by
    rw [List.length_append, length_beBytes, SlatepackAddress.length_serialize hK]
  have hsize : (UInt32.ofNat (beBytes 2 0x01 ++ a.serialize K).length).toNat
      = (beBytes 2 0x01 ++ a.serialize K).length := by
    rw [hlength]
    rfl
  have hinner : (run (Metadata.deserializeInner K) (beBytes 2 0x01 ++ a.serialize K)).1 =
      if K.isValid a.pubkey then .ok ⟨a, []⟩ else .error stdException := by
    have hread := SlatepackAddress.run_deserialize hK a []
    rw [List.append_nil] at hread
    have hflags : run readU16 (beBytes 2 0x01 ++ a.serialize K) = (.ok 0x01, a.serialize K) :=
      run_readU16_self 1 _
    rw [Metadata.deserializeInner, run_bind_ok hflags, readIf, if_pos (by decide)]
    by_cases hvalid : K.isValid a.pubkey
    · rw [if_pos hvalid] at hread ⊢
      rw [run_bind_ok hread]
      rfl
    · rw [if_neg hvalid] at hread ⊢
      rw [run_bind_error hread]
  rw [Metadata.deserialize, run_bind_ok (reads_length_32 (by rw [hlength]; decide) _), hsize,
    run_bind_ok (reads_readVector rfl rest), run_ofExcept, hinner]

namespace SlatepackMessage

omit hK in
/-- The envelope, when the sender in it can be read. -/
theorem run_deserialize {major minor mode : UInt8} {flags : UInt16} {optFields payload : List UInt8}
    {sender : Except Exc SlatepackAddress}
    (hsender : (run (readIf (flags &&& 0x01 = 0x01) (SlatepackAddress.deserialize K) .null)
      optFields).1 = sender)
    (hopt : optFields.length < 2 ^ 32) (hpayload : payload.length < 2 ^ 64) :
    (run (deserialize K) (major :: minor :: mode :: (beBytes 2 flags.toNat ++
        (beBytes 4 optFields.length ++ (optFields ++
          (beBytes 8 payload.length ++ payload)))))).1 = (do
      let sender ← sender
      pure ⟨(major, minor), ⟨mode⟩, sender, [], payload⟩) := by
  rw [deserialize, run_bind_ok (run_readU8 _ _), run_bind_ok (run_readU8 _ _),
    run_bind_ok (run_readU8 _ _), run_bind_ok (run_readU16_self _ _),
    run_bind_ok (reads_length_32 hopt _), UInt32.toNat_ofNat_of_lt' hopt,
    run_bind_ok (reads_readVector rfl _), hsender]
  cases sender with
  | error e => rfl
  | ok sender =>
    have hlast : (run (readVector payload.length) (payload ++ [])) = (.ok payload, []) :=
      reads_readVector rfl []
    rw [List.append_nil] at hlast
    rw [run_bind_ok (run_ofExcept _ _), run_bind_ok (reads_length_64 hpayload _),
      UInt64.toNat_ofNat_of_lt' hpayload, run_bind_ok hlast]
    rfl

/-- **The sender in a slatepack can be read**: it is none, in plaintext, or its key is valid. -/
def SenderReadable (K : SlatepackCrypto) (m : SlatepackMessage) : Prop :=
  K.isValid m.sender.pubkey = true ∨ m.mode = .plaintext ∧ m.sender = .null

instance (K : SlatepackCrypto) (m : SlatepackMessage) : Decidable (m.SenderReadable K) :=
  inferInstanceAs (Decidable (_ ∨ _))

/-- What `SlatepackMessage::EncryptPayload` encrypted is decrypted to the metadata and the
payload. -/
theorem decryptPayload_ageEncrypt {m : SlatepackMessage} (hrecipients : m.recipients = [])
    {keys : List X25519PublicKey} {kp : X25519KeyPair}
    (hpair : kp.pubkey = K.x25519Public kp.seckey)
    (hmem : kp.pubkey ∈ keys) :
    decryptPayload K { m with
      sender := .null
      payload := K.ageEncrypt keys (m.toEncrypt K) } kp =
      if K.isValid m.sender.pubkey then .ok m else .error stdException := by
  have hbytes : m.toEncrypt K =
      beBytes 4 (beBytes 2 0x01 ++ m.sender.serialize K).length ++
        ((beBytes 2 0x01 ++ m.sender.serialize K) ++ m.payload) := by
    simp only [toEncrypt, hrecipients, if_true, List.append_nil]
  rw [decryptPayload, hK.decrypt_encrypt _ _ _ hpair hmem, Exec.ok_bind, hbytes,
    Metadata.run_deserialize hK]
  by_cases hvalid : K.isValid m.sender.pubkey
  · rw [if_pos hvalid, if_pos hvalid]
    rcases m with ⟨version, mode, sender, recipients, payload⟩
    subst hrecipients
    rfl
  · rw [if_neg hvalid, if_neg hvalid]

omit hK in
/-- Every recipient of a message that could be encrypted is among the keys. -/
theorem mem_recipientKeys {recipients : List SlatepackAddress} {keys : List X25519PublicKey}
    (h : recipientKeys K recipients = .ok keys) {r : SlatepackAddress} (hr : r ∈ recipients)
    {key : X25519PublicKey} (hkey : K.toX25519 r.pubkey = .ok key) : key ∈ keys := by
  induction recipients generalizing keys with
  | nil => cases hr
  | cons a recipients ih =>
    rw [recipientKeys, List.mapM_cons] at h
    obtain ⟨first, hfirst, h⟩ := Exec.of_bind_eq_ok h
    obtain ⟨rest, hrest, h⟩ := Exec.of_bind_eq_ok h
    have hkeys : first :: rest = keys := Except.ok.inj h
    rw [← hkeys]
    rcases List.mem_cons.mp hr with rfl | hr
    · have heq : first = key := Except.ok.inj (hfirst.symm.trans hkey)
      rw [heq]
      exact List.mem_cons_self
    · exact List.mem_cons_of_mem first (ih hrest hr)

omit hK in
/-- The keys are there exactly when each recipient has one. -/
theorem recipientKeys_isOk_iff {recipients : List SlatepackAddress} :
    (∃ keys, recipientKeys K recipients = .ok keys) ↔
      ∀ r ∈ recipients, ∃ key, K.toX25519 r.pubkey = .ok key := by
  induction recipients with
  | nil => exact iff_of_true ⟨[], rfl⟩ (by simp)
  | cons a recipients ih =>
    rw [List.forall_mem_cons, ← ih, recipientKeys, List.mapM_cons]
    constructor
    · rintro ⟨keys, h⟩
      obtain ⟨first, hfirst, h⟩ := Exec.of_bind_eq_ok h
      obtain ⟨rest, hrest, -⟩ := Exec.of_bind_eq_ok h
      exact ⟨⟨first, hfirst⟩, rest, hrest⟩
    · rintro ⟨⟨first, hfirst⟩, rest, hrest⟩
      refine ⟨first :: rest, ?_⟩
      rw [hfirst, Exec.ok_bind, show (recipients.mapM fun address => K.toX25519 address.pubkey)
        = .ok rest from hrest]
      rfl

omit hK in
/-- A message is encrypted when it is plaintext or its recipients have keys. -/
theorem encrypt_isOk_iff {m : SlatepackMessage} {recipients : List SlatepackAddress} :
    (∃ bytes, m.encrypt K recipients = .ok bytes) ↔
      m.mode = .plaintext ∨ ∀ r ∈ recipients, ∃ key, K.toX25519 r.pubkey = .ok key := by
  rw [← recipientKeys_isOk_iff, encrypt, encryptPayload]
  by_cases hmode : m.mode = .plaintext
  · simp only [hmode, if_true, true_or, iff_true]
    exact ⟨_, rfl⟩
  · simp only [hmode, if_false, false_or]
    constructor
    · rintro ⟨bytes, h⟩
      obtain ⟨payload, hpayload, -⟩ := Exec.of_bind_eq_ok h
      obtain ⟨keys, hkeys, -⟩ := Exec.of_bind_eq_ok hpayload
      exact ⟨keys, hkeys⟩
    · rintro ⟨keys, hkeys⟩
      rw [hkeys]
      exact ⟨_, rfl⟩

/-- Who opens a message: anybody, if it is plaintext, else the owner of a recipient's key. -/
def Opens (K : SlatepackCrypto) (m : SlatepackMessage) (recipients : List SlatepackAddress)
    (kp : X25519KeyPair) : Prop :=
  m.mode = .plaintext ∨ m.mode = .encrypted ∧ kp.pubkey = K.x25519Public kp.seckey ∧
    ∃ r ∈ recipients, K.toX25519 r.pubkey = .ok kp.pubkey

/-- **A message that was encrypted is decrypted by who opens it, if its sender can be read**, and
by nobody otherwise. -/
theorem decrypt_encrypt {m : SlatepackMessage} {recipients : List SlatepackAddress}
    {kp : X25519KeyPair} {bytes : List UInt8} (hrecipients : m.recipients = [])
    (hpayload : m.payload.length < 2 ^ 26) (hopens : m.Opens K recipients kp)
    (h : m.encrypt K recipients = .ok bytes) :
    decrypt K bytes kp = if m.SenderReadable K then .ok m else .error stdException := by
  rcases m with ⟨⟨major, minor⟩, mode, sender, recipients', payload⟩
  subst hrecipients
  rw [encrypt] at h
  rcases hopens with hmode | ⟨hmode, hpair, r, hr, hkey⟩
  · simp only at hmode hpayload
    subst hmode
    have hlt : payload.length < 2 ^ 64 := by omega
    by_cases hnull : sender = .null
    · -- no sender, and no field for one
      subst hnull
      have hreadable : SenderReadable K ⟨(major, minor), .plaintext, .null, [], payload⟩ :=
        Or.inr ⟨rfl, rfl⟩
      have hrun := @run_deserialize K major minor 0 0 [] payload (.ok .null) rfl (by decide) hlt
      have hbytes := Except.ok.inj h
      rw [decrypt, ← hbytes, if_pos hreadable]
      exact (congrArg (· >>= _) hrun)
    · -- a sender in a field of its own
      have hflag : sender.isNull = false := by simp [SlatepackAddress.isNull, hnull]
      have hreadable : SenderReadable K ⟨(major, minor), .plaintext, sender, [], payload⟩ ↔
          K.isValid sender.pubkey = true := by
        simp [SenderReadable, hnull]
      have hopt : (run
          (readIf ((1 : UInt16) &&& 0x01 = 0x01) (SlatepackAddress.deserialize K) .null)
          (sender.serialize K)).1 =
            if K.isValid sender.pubkey then .ok sender else .error stdException := by
        have hread := SlatepackAddress.run_deserialize hK sender []
        rw [List.append_nil] at hread
        rw [readIf, if_pos (by decide), hread]
      have hrun := @run_deserialize K major minor 0 1 _ payload _ hopt
        (by rw [SlatepackAddress.length_serialize hK]; decide) hlt
      simp only [hflag, and_self, decide_true, if_true, bytesIf] at h
      have hbytes := Except.ok.inj h
      rw [decrypt, ← hbytes]
      refine (congrArg (· >>= _) hrun).trans ?_
      simp only [hreadable]
      split
      · rfl
      · rfl
  · -- the sender is in what was encrypted
    simp only at hmode hpayload
    subst hmode
    obtain ⟨payload', hpayload', h⟩ := Exec.of_bind_eq_ok h
    simp only [show EMode.encrypted ≠ EMode.plaintext by decide, if_false, false_and,
      decide_false, bytesIf, Bool.false_eq_true, encryptPayload] at h hpayload'
    obtain ⟨keys, hkeys, hpayload'⟩ := Exec.of_bind_eq_ok hpayload'
    have hcipher := Except.ok.inj hpayload'
    have hbytes := Except.ok.inj h
    have hlength : (toEncrypt K ⟨(major, minor), .encrypted, sender, [], payload⟩).length
        < 2 ^ 32 := by
      simp only [toEncrypt, if_true, List.length_append, length_beBytes, List.append_nil,
        SlatepackAddress.length_serialize hK]
      omega
    have hlt : payload'.length < 2 ^ 64 := by
      rw [← hcipher]
      exact hK.length_encrypt _ _ hlength
    have hreadable : SenderReadable K ⟨(major, minor), .encrypted, sender, [], payload⟩ ↔
        K.isValid sender.pubkey = true := by
      simp [SenderReadable, show EMode.encrypted ≠ EMode.plaintext by decide]
    have hrun := @run_deserialize K major minor 1 0 [] payload' (.ok .null) rfl (by decide) hlt
    have hdecrypt := decryptPayload_ageEncrypt hK
      (m := ⟨(major, minor), .encrypted, sender, [], payload⟩) rfl hpair
      (mem_recipientKeys hkeys hr hkey)
    rw [decrypt, ← hbytes]
    refine (congrArg (· >>= _) hrun).trans ?_
    simp only [hreadable]
    rw [← hdecrypt, ← hcipher]
    rfl

end SlatepackMessage

end

end GrinPlusPlus
