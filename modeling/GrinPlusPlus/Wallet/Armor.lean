import GrinPlusPlus.Wallet.Slatepack

/-!
# Armored slatepacks

`Armor::Pack` writes a slatepack as text that people pass on: the envelope in base 58 with a
checksum, cut into words and lines, between a header and a footer. `Armor::Unpack` undoes it.

Five layers lie on top of each other, and the text comes through all of them but one: the
checksum stands in front of the envelope, and base 58 without a version does not keep leading
zeros. So one slatepack in 256 cannot be unpacked, by anybody. What else must hold is about the
values that go in, and `GrinPlusPlus.Armor.Survives` lists it; the main theorem,
`GrinPlusPlus.Armor.roundTrips_survives`, says that slatepacks with this come back as they were,
and that no other does – unless the checksum happens to match bytes that it was not made for.
-/

namespace GrinPlusPlus

namespace Armor

open Exec ByteBuffer

/-! ### Packing and unpacking -/

/-- `HEADER`. -/
def header : List Char :=
  ['B', 'E', 'G', 'I', 'N', 'S', 'L', 'A', 'T', 'E', 'P', 'A', 'C', 'K']

/-- `FOOTER`. -/
def footer : List Char :=
  ['E', 'N', 'D', 'S', 'L', 'A', 'T', 'E', 'P', 'A', 'C', 'K']

/-- `WORD_LENGTH`. -/
def wordLength : ℕ := 15

/-- `WORDS_PER_LINE`. -/
def wordsPerLine : ℕ := 200

/-- `IsWhitespace`. -/
def isWhitespace (c : Char) : Bool :=
  c = ' ' || c = '\x0c' || c = '\n' || c = '\x0d' || c = '\t' || c = '\x0b'

/-- What `FormatSpacing` writes in front of the character at an index. -/
def spacing (i : ℕ) : List Char :=
  if i ≠ 0 ∧ i % wordLength = 0 then
    if i % (wordLength * wordsPerLine) = 0 then ['\n'] else [' ']
  else []

/-- `Armor::FormatSpacing`. -/
def formatSpacing (data : List Char) : List Char :=
  data.zipIdx.flatMap fun p => spacing p.2 ++ [p.1]

/-- `StringUtil::Split`, at a delimiter of one character: the parts that are not empty. -/
def split (str : List Char) (delimiter : Char) : List (List Char) :=
  (str.splitOnP fun c => c = delimiter).filter fun part => part ≠ []

section

variable (K : SlatepackCrypto)

/-- The message that `Armor::Pack` makes: plaintext if there are no recipients, else encrypted. -/
def message (sender : SlatepackAddress) (slate : Slate) (recipients : List SlatepackAddress) :
    SlatepackMessage where
  version := (1, 0)
  mode := if recipients = [] then .plaintext else .encrypted
  sender := sender
  recipients := []
  payload := slate.serialize K.toSignatureForms

/-- `Armor::Pack`. -/
def pack (sender : SlatepackAddress) (slate : Slate) (recipients : List SlatepackAddress) :
    Except Exc (List Char) := do
  let serialized ← (message K sender slate recipients).encrypt K recipients
  let base58Encoded := Base58.simpleEncodeCheck K.sha256 serialized
  pure (header ++ '.' :: ' ' :: (formatSpacing base58Encoded ++ '.' :: ' ' :: (footer ++ ['.'])))

/-- `Armor::Unpack`. -/
def unpack (armored : List Char) (decryptKeypair : X25519KeyPair) :
    Except Exc SlatepackMessage :=
  match split (armored.filter fun c => !isWhitespace c) '.' with
  | first :: data :: last :: _ =>
    if first ≠ header ∨ last ≠ footer then .error stdException
    else do
      let base58Decoded ← Base58.simpleDecodeCheck K.sha256 data
      SlatepackMessage.decrypt K base58Decoded decryptKeypair
  | _ => .error stdException

/-! ### The armor -/

theorem filter_spacing (i : ℕ) : (spacing i).filter (fun c => !isWhitespace c) = [] := by
  rw [spacing]
  split
  · split
    · decide
    · decide
  · rfl

/-- The words and lines are gone when the white space is. -/
theorem filter_formatSpacing {data : List Char} (h : ∀ c ∈ data, isWhitespace c = false) :
    (formatSpacing data).filter (fun c => !isWhitespace c) = data := by
  have hfrom : ∀ n, ((data.zipIdx n).flatMap fun p => spacing p.2 ++ [p.1]).filter
      (fun c => !isWhitespace c) = data := by
    induction data with
    | nil => exact fun n => rfl
    | cons c data ih =>
      intro n
      have hc := h c List.mem_cons_self
      have htail := ih (fun x hx => h x (List.mem_cons_of_mem c hx)) (n + 1)
      rw [List.zipIdx_cons, List.flatMap_cons, List.filter_append, List.filter_append,
        filter_spacing, htail]
      simp [hc]
  exact hfrom 0

/-- The three parts of a text between dots are found again. -/
theorem split_armored {data : List Char} (hne : data ≠ []) (hdot : ∀ c ∈ data, c ≠ '.') :
    split (header ++ '.' :: (data ++ '.' :: (footer ++ ['.']))) '.' = [header, data, footer] := by
  have hheader : ∀ c ∈ header, (decide (c = '.')) = false := by simp [header]
  have hfooter : ∀ c ∈ footer, (decide (c = '.')) = false := by simp [footer]
  have hdata : ∀ c ∈ data, (decide (c = '.')) = false := fun c hc => by simpa using hdot c hc
  rw [split, List.splitOnP_append_cons_of_forall_mem hheader _ rfl,
    List.splitOnP_append_cons_of_forall_mem hdata _ rfl,
    List.splitOnP_append_cons_of_forall_mem hfooter _ rfl, List.splitOnP_nil]
  simp [hne, header, footer]

/-- **The armor adds nothing to base 58**: what is unpacked is what its decoding gives. -/
theorem unpack_armored {serialized : List UInt8} (hne : serialized.head? = some 1)
    (kp : X25519KeyPair) :
    unpack K (header ++ '.' :: ' ' :: (formatSpacing (Base58.simpleEncodeCheck K.sha256 serialized)
        ++ '.' :: ' ' :: (footer ++ ['.']))) kp = (do
      let decoded ← Base58.simpleDecodeCheck K.sha256
        (Base58.simpleEncodeCheck K.sha256 serialized)
      SlatepackMessage.decrypt K decoded kp) := by
  have hplain := Base58.encode_plain (Base58.checksum K.sha256 serialized ++ serialized)
  have hnil : Base58.simpleEncodeCheck K.sha256 serialized ≠ [] := by
    refine Base58.encode_ne_nil (b := 1) (List.mem_append_right _ ?_) (by decide)
    exact List.mem_of_mem_head? hne
  have hheader : header.filter (fun c => !isWhitespace c) = header := by decide
  have hfooter : footer.filter (fun c => !isWhitespace c) = footer := by decide
  have hspace : ∀ c ∈ Base58.simpleEncodeCheck K.sha256 serialized, isWhitespace c = false :=
    fun c hc => (hplain c hc).1
  have hcleaned : (header ++ '.' :: ' ' ::
      (formatSpacing (Base58.simpleEncodeCheck K.sha256 serialized)
        ++ '.' :: ' ' :: (footer ++ ['.']))).filter (fun c => !isWhitespace c) =
      header ++ '.' :: (Base58.simpleEncodeCheck K.sha256 serialized ++
        '.' :: (footer ++ ['.'])) := by
    have hblank : (!isWhitespace ' ') = false := rfl
    have hpoint : (!isWhitespace '.') = true := rfl
    simp only [List.filter_append, List.filter_cons, List.filter_nil, hheader, hfooter, hblank,
      hpoint, filter_formatSpacing hspace, if_true, Bool.false_eq_true, if_false]
  rw [unpack, hcleaned, split_armored hnil fun c hc => (hplain c hc).2]
  simp only [ne_eq, not_true_eq_false, or_self, if_false]

/-! ### Which slatepacks come back -/

variable (sender : SlatepackAddress) (slate : Slate) (recipients : List SlatepackAddress)

/-- **The slatepack comes back** to somebody with a key: the text is unpacked, the sender is
there, and the slate that is read from the payload is equal to the one that was packed. -/
def RoundTrips (kp : X25519KeyPair) : Prop :=
  ∃ armored slatepack slate', pack K sender slate recipients = .ok armored ∧
    unpack K armored kp = .ok slatepack ∧ slatepack.sender = sender ∧
    (run (Slate.deserialize K.toSignatureForms) slatepack.payload).1 = .ok slate' ∧
    slate'.Agrees slate

/-- The holder of a key can open the slatepack: there are no recipients, or it is the key of
one. -/
def CanOpen (kp : X25519KeyPair) : Prop :=
  recipients = [] ∨ kp.pubkey = K.x25519Public kp.seckey ∧
    ∃ r ∈ recipients, K.toX25519 r.pubkey = .ok kp.pubkey

/-- **What a slatepack needs to come back.** -/
structure Survives : Prop where
  /-- The recipients can be encrypted for. -/
  recipients_have_keys : ∀ r ∈ recipients, ∃ key, K.toX25519 r.pubkey = .ok key
  /-- The address of the sender is that of a key, or there is no sender and no encryption. -/
  sender_readable : K.isValid sender.pubkey = true ∨ recipients = [] ∧ sender = .null
  /-- The slate has a stage. -/
  stage_ne : slate.stage ≠ .none
  /-- The lock height is one that is written. -/
  lockHeight_written : slate.kernelFeatures = .heightLocked ∨ slate.getLockHeight = 0
  /-- **The first byte of the checksum is not zero.** -/
  leadingByte_kept : ∀ serialized, (message K sender slate recipients).encrypt K recipients
    = .ok serialized → Base58.LeadingByteKept K.sha256 serialized

/-- The checksum, its leading zeros lost, matches bytes that it was not made for. -/
def ChecksumCollides : Prop :=
  ∃ serialized decoded, (message K sender slate recipients).encrypt K recipients
      = .ok serialized ∧ decoded ≠ serialized ∧
    Base58.simpleDecodeCheck K.sha256 (Base58.simpleEncodeCheck K.sha256 serialized)
      = .ok decoded

variable {K sender slate recipients}

theorem head_encrypt {m : SlatepackMessage} {serialized : List UInt8}
    (h : m.encrypt K recipients = .ok serialized) : serialized.head? = some m.version.1 := by
  rw [SlatepackMessage.encrypt] at h
  split at h
  · rw [← Except.ok.inj h]
    rfl
  · obtain ⟨payload, -, h⟩ := Exec.of_bind_eq_ok h
    rw [← Except.ok.inj h]
    rfl

theorem opens_of_canOpen {kp : X25519KeyPair} (h : CanOpen K recipients kp) :
    (message K sender slate recipients).Opens K recipients kp := by
  rcases h with hnil | ⟨hpair, r, hr, hkey⟩
  · exact Or.inl (if_pos hnil)
  · exact Or.inr ⟨if_neg (List.ne_nil_of_mem hr), hpair, r, hr, hkey⟩

theorem mode_eq_plaintext_iff :
    (message K sender slate recipients).mode = .plaintext ↔ recipients = [] := by
  by_cases h : recipients = []
  · simp [message, h]
  · simp [message, h, show EMode.encrypted ≠ EMode.plaintext by decide]

/-- The sender in the message can be read exactly when its address can. -/
theorem senderReadable_iff : (message K sender slate recipients).SenderReadable K ↔
    K.isValid sender.pubkey = true ∨ recipients = [] ∧ sender = .null :=
  or_congr_right (and_congr_left' mode_eq_plaintext_iff)

/-- What is packed, when it is, and what is made of it when it is unpacked. -/
theorem unpack_pack {armored : List Char} (h : pack K sender slate recipients = .ok armored)
    (kp : X25519KeyPair) : ∃ serialized,
      (message K sender slate recipients).encrypt K recipients = .ok serialized ∧
      unpack K armored kp = (do
        let decoded ← Base58.simpleDecodeCheck K.sha256
          (Base58.simpleEncodeCheck K.sha256 serialized)
        SlatepackMessage.decrypt K decoded kp) := by
  obtain ⟨serialized, hserialized, h⟩ := Exec.of_bind_eq_ok h
  refine ⟨serialized, hserialized, ?_⟩
  rw [← Except.ok.inj h]
  exact unpack_armored K (head_encrypt hserialized) kp

section

variable (hK : K.Inverts) (hsigs : slate.sigs.length ≤ 255)
  (hcoms : slate.commitments.length ≤ 65535) (hshift : slate.fee.shift.toNat < 16)
  (hfee : slate.fee.fee.toNat < 2 ^ 40)

include hK hsigs hcoms hshift hfee

theorem roundTrips_of_survives {kp : X25519KeyPair} (hopen : CanOpen K recipients kp)
    (h : Survives K sender slate recipients) : RoundTrips K sender slate recipients kp := by
  obtain ⟨serialized, hserialized⟩ := SlatepackMessage.encrypt_isOk_iff.mpr
    (Or.inr h.recipients_have_keys : (message K sender slate recipients).mode = .plaintext ∨ _)
  obtain ⟨armored, hpack⟩ : ∃ armored, pack K sender slate recipients = .ok armored := by
    rw [pack, hserialized]
    exact ⟨_, rfl⟩
  obtain ⟨serialized', hserialized', hunpack⟩ := unpack_pack hpack kp
  obtain rfl : serialized' = serialized := Except.ok.inj (hserialized'.symm.trans hserialized)
  have hdecode := (Base58.simpleDecodeCheck_simpleEncodeCheck_iff K.sha256 serialized').mpr
    (h.leadingByte_kept serialized' hserialized)
  have hdecrypt := SlatepackMessage.decrypt_encrypt hK (m := message K sender slate recipients) rfl
    (Slate.length_serialize_lt slate hsigs hcoms) (opens_of_canOpen hopen) hserialized
  rw [if_pos (senderReadable_iff.mpr h.sender_readable)] at hdecrypt
  have hslate := Slate.reads hK.toCompact_parse slate hsigs hcoms h.stage_ne []
  rw [List.append_nil] at hslate
  refine ⟨armored, message K sender slate recipients, slate.reload, hpack, ?_, rfl, ?_, ?_⟩
  · rw [hunpack, hdecode]
    exact hdecrypt
  · exact congrArg Prod.fst hslate
  · exact (Slate.reload_agrees_iff hshift hfee).mpr h.lockHeight_written

theorem survives_of_roundTrips {kp : X25519KeyPair} (hopen : CanOpen K recipients kp)
    (h : RoundTrips K sender slate recipients kp) :
    Survives K sender slate recipients ∨ ChecksumCollides K sender slate recipients := by
  obtain ⟨armored, slatepack, slate', hpack, hunpacked, -, hslate, hagrees⟩ := h
  obtain ⟨serialized, hserialized, hunpack⟩ := unpack_pack hpack kp
  rw [hunpacked] at hunpack
  obtain ⟨decoded, hdecode, hdecrypt⟩ := Exec.of_bind_eq_ok hunpack.symm
  by_cases hsame : decoded = serialized
  · left
    rw [hsame] at hdecode hdecrypt
    rw [SlatepackMessage.decrypt_encrypt hK rfl (Slate.length_serialize_lt slate hsigs hcoms)
      (opens_of_canOpen hopen) hserialized] at hdecrypt
    split at hdecrypt
    · next hreadable =>
      have hmessage : message K sender slate recipients = slatepack := Except.ok.inj hdecrypt
      have hstage : slate.stage ≠ .none := by
        intro hnone
        have hrun := Slate.run_deserialize_none (F := K.toSignatureForms) hnone []
        rw [List.append_nil] at hrun
        rw [← hmessage] at hslate
        cases hrun.symm.trans hslate
      have hread := Slate.reads hK.toCompact_parse slate hsigs hcoms hstage []
      rw [List.append_nil] at hread
      rw [← hmessage] at hslate
      have hreload : slate.reload = slate' :=
        Except.ok.inj ((congrArg Prod.fst hread).symm.trans hslate)
      rw [← hreload, Slate.reload_agrees_iff hshift hfee] at hagrees
      refine ⟨?_, senderReadable_iff.mp hreadable, hstage, hagrees, ?_⟩
      · rcases SlatepackMessage.encrypt_isOk_iff.mp ⟨serialized, hserialized⟩ with hmode | hkeys
        · rw [mode_eq_plaintext_iff.mp hmode]
          simp
        · exact hkeys
      · intro serialized' hserialized'
        obtain rfl : serialized' = serialized :=
          Except.ok.inj (hserialized'.symm.trans hserialized)
        exact (Base58.simpleDecodeCheck_simpleEncodeCheck_iff K.sha256 serialized').mp hdecode
    · cases hdecrypt
  · exact Or.inr ⟨serialized, decoded, hserialized, hsame, hdecode⟩

/-- **Which slatepacks come back.** To everybody who can open it a slatepack comes back as it was
if what it consists of survives, in particular if its checksum does not begin with a zero byte;
one that does not survive comes back at most by a checksum that matches other bytes. -/
theorem roundTrips_survives {kp : X25519KeyPair} (hopen : CanOpen K recipients kp) :
    (Survives K sender slate recipients → RoundTrips K sender slate recipients kp) ∧
      (RoundTrips K sender slate recipients kp →
        Survives K sender slate recipients ∨ ChecksumCollides K sender slate recipients) :=
  ⟨roundTrips_of_survives hK hsigs hcoms hshift hfee hopen,
    survives_of_roundTrips hK hsigs hcoms hshift hfee hopen⟩

end

end

end Armor

/-!
### Two slatepacks

Two new slates differ in their identifier only. Packed in plaintext and without a sender, one has
a checksum that begins with a zero byte. The hash function is SHA-256 for the two messages and for
their hashes; anywhere else it is not followed.
-/

namespace SmallSlatepack

theorem length_lostId : [0, 0, 0, 0, 0, 0, 0, 0, 0, 0, 0, 0, 0, 0, (0x02 : UInt8), 0x72].length
    = 16 := rfl

theorem length_keptId : (List.replicate 16 (0 : UInt8)).length = 16 := rfl

/-- The identifier of the slate whose checksum loses a byte. -/
def lostId : SlateId := ⟨[0, 0, 0, 0, 0, 0, 0, 0, 0, 0, 0, 0, 0, 0, 0x02, 0x72], length_lostId⟩

/-- The identifier of the slate whose checksum does not. -/
def keptId : SlateId := ⟨List.replicate 16 0, length_keptId⟩

/-- A slate as its constructor makes it. -/
def slate (id : SlateId) : Slate where
  slateId := id
  stage := .standardSent
  version := 4
  blockVersion := 5
  numParticipants := 2
  ttl := 0
  kernelFeatures := .defaultKernel
  featureArgsOpt := none
  offset := ⟨List.replicate 32 0, length_zeros_32⟩
  amount := 0
  fee := ⟨0, 0⟩
  sigs := []
  commitments := []
  proofOpt := none

/-- The signatures of a slate that has none. -/
def forms : SignatureForms where
  parseCompactSignature := id
  toCompact := id

/-- The message of a slate, 73 bytes. -/
def messageBytes (id : SlateId) : List UInt8 :=
  [1, 0, 0, 0, 0, 0, 0, 0, 0, 0, 0, 0, 0, 0, 0, 0, 56] ++ (slate id).serialize forms

/-- The hash of the first message. -/
def lostHash : List UInt8 :=
  [0x43, 0x0a, 0xd7, 0xae, 0xe0, 0xbd, 0xd7, 0xd0, 0xdb, 0xfd, 0xf7, 0x67, 0x89, 0x47, 0x6b, 0x77,
    0x69, 0x05, 0x01, 0xd7, 0x15, 0x38, 0x4d, 0xb7, 0x97, 0x10, 0x84, 0xab, 0x0a, 0x82, 0xcf, 0xd8]

/-- The hash of that hash. -/
def lostHash₂ : List UInt8 :=
  [0x00, 0xf7, 0x10, 0x09, 0xb0, 0x47, 0xe0, 0xd6, 0x3c, 0x40, 0xa0, 0xd4, 0xe4, 0x34, 0xa5, 0x89,
    0x3d, 0x26, 0xd7, 0x7e, 0xc1, 0x78, 0xba, 0xfd, 0xa0, 0x1a, 0xe7, 0x24, 0x6a, 0x54, 0x71, 0x32]

/-- The hash of the second message. -/
def keptHash : List UInt8 :=
  [0x36, 0x10, 0x5b, 0x47, 0xee, 0x51, 0xeb, 0xfd, 0xbf, 0xc0, 0xce, 0xe8, 0xed, 0xd9, 0xb7, 0x52,
    0x38, 0xe1, 0x30, 0x31, 0x99, 0x67, 0x36, 0xfa, 0xf4, 0xc0, 0xd4, 0xd6, 0x2d, 0x72, 0x6d, 0xa7]

/-- The hash of that hash. -/
def keptHash₂ : List UInt8 :=
  [0xf0, 0xc5, 0x6d, 0x95, 0xe9, 0x94, 0xcc, 0x4b, 0xe9, 0x23, 0x47, 0xdb, 0x41, 0x19, 0x40, 0x83,
    0xe7, 0xdd, 0x32, 0x07, 0xde, 0x73, 0x04, 0x0e, 0x77, 0xb6, 0x19, 0xfe, 0xbc, 0x34, 0x38, 0x02]

theorem length_lostHash : lostHash.length = 32 := rfl

theorem length_lostHash₂ : lostHash₂.length = 32 := rfl

theorem length_keptHash : keptHash.length = 32 := rfl

theorem length_keptHash₂ : keptHash₂.length = 32 := rfl

/-- The hash function. -/
def sha256 (bytes : List UInt8) : CBigInteger 32 :=
  if bytes = messageBytes lostId then ⟨lostHash, length_lostHash⟩
  else if bytes = lostHash then ⟨lostHash₂, length_lostHash₂⟩
  else if bytes = messageBytes keptId then ⟨keptHash, length_keptHash⟩
  else if bytes = keptHash then ⟨keptHash₂, length_keptHash₂⟩
  else ⟨List.replicate 32 0, length_zeros_32⟩

/-- The hash, and functions that invert each other. -/
def crypto : SlatepackCrypto where
  toSignatureForms := forms
  sha256 := sha256
  bech32 := fun key => key.bytes ++ List.replicate 31 0
  parseBech32 := fun address => .ok (address.take 32)
  isValid := fun key => decide (key ≠ SlatepackAddress.null.pubkey)
  toX25519 := fun key => .ok key
  x25519Public := id
  ageEncrypt := fun _ bytes => bytes
  ageDecrypt := fun _ bytes => .ok bytes

theorem crypto_inverts : crypto.Inverts where
  parse_bech32 key := congrArg Except.ok (List.take_left' key.length_eq)
  length_bech32 key := by
    rw [crypto, List.length_append, key.length_eq, List.length_replicate]
  decrypt_encrypt _ _ _ _ _ := rfl
  length_encrypt _ bytes h := by
    have hlt : bytes.length < 2 ^ 64 := by omega
    exact hlt
  toCompact_parse _ := rfl

/-- Somebody without a key. -/
def nobody : X25519KeyPair where
  seckey := ⟨List.replicate 32 0, length_zeros_32⟩
  pubkey := ⟨List.replicate 32 0, length_zeros_32⟩

theorem encrypt_message {id : SlateId} (h : id = lostId ∨ id = keptId) :
    (Armor.message crypto .null (slate id) []).encrypt crypto [] = .ok (messageBytes id) := by
  rcases h with rfl | rfl
  · rfl
  · rfl

theorem survives_keptId : Armor.Survives crypto .null (slate keptId) [] where
  recipients_have_keys _ h := by cases h
  sender_readable := Or.inr ⟨rfl, rfl⟩
  stage_ne := by decide
  lockHeight_written := Or.inr rfl
  leadingByte_kept serialized h := by
    obtain rfl : messageBytes keptId = serialized :=
      Except.ok.inj ((encrypt_message (Or.inr rfl)).symm.trans h)
    decide +kernel

end SmallSlatepack

/-- A slatepack that comes back, to somebody without a key. -/
theorem Armor.roundTrips_keptId :
    Armor.RoundTrips SmallSlatepack.crypto .null (SmallSlatepack.slate SmallSlatepack.keptId) []
      SmallSlatepack.nobody :=
  (Armor.roundTrips_survives SmallSlatepack.crypto_inverts (by decide) (by decide) (by decide)
    (by decide) (Or.inl rfl)).1 SmallSlatepack.survives_keptId

/-- **A slatepack that nobody can unpack.** Its functions invert each other, its lists are empty
and its fee is nothing; only the checksum begins with a zero byte. -/
theorem Armor.not_roundTrips_lostId :
    SmallSlatepack.crypto.Inverts ∧
      Armor.CanOpen SmallSlatepack.crypto [] SmallSlatepack.nobody ∧
      ¬ Armor.RoundTrips SmallSlatepack.crypto .null
        (SmallSlatepack.slate SmallSlatepack.lostId) [] SmallSlatepack.nobody := by
  refine ⟨SmallSlatepack.crypto_inverts, Or.inl rfl, ?_⟩
  rintro ⟨armored, slatepack, slate', hpack, hunpacked, -, -, -⟩
  obtain ⟨serialized, hserialized, hunpack⟩ := Armor.unpack_pack hpack SmallSlatepack.nobody
  obtain rfl : SmallSlatepack.messageBytes SmallSlatepack.lostId = serialized :=
    Except.ok.inj ((SmallSlatepack.encrypt_message (Or.inl rfl)).symm.trans hserialized)
  have hdecode : Base58.simpleDecodeCheck SmallSlatepack.sha256
      (Base58.simpleEncodeCheck SmallSlatepack.sha256
        (SmallSlatepack.messageBytes SmallSlatepack.lostId)) = .error stdException := by
    rw [Base58.simpleDecodeCheck_simpleEncodeCheck]
    decide +kernel
  have hfailed := hunpack.trans (congrArg (· >>= _) hdecode)
  cases hunpacked.symm.trans hfailed

end GrinPlusPlus
