import GrinPlusPlus.BlockChain.BlockSums
import GrinPlusPlus.Lib.Schnorr
import GrinPlusPlus.Wallet.SendValue

/-!
# The arithmetic of a payment

What the cryptography of a wallet promises, in the terms of two groups: blinding factors are
scalars, the commitment to `v` with the blinding factor `r` is `v • H` and what `r` makes public,
the public key of `x` is what `x` makes public, and a partial signature is the response of Schnorr
(`GrinPlusPlus.SchnorrGroup`). A wallet whose keys are scalars and whose range proofs are accepted
is a `GrinPlusPlus.SoundWallet`.

The rest of the module is what the pieces of the slate builders compute in these terms: the keys of
a participant are the blinding factors of its outputs less those of its inputs and its part of the
offset, and **two partial signatures over the same sums make one that is accepted**. At the end, the
small wallets are seen to keep the promises.
-/

namespace GrinPlusPlus

/-! ### What is promised -/

/-- The groups of a payment: the commitments (`GrinPlusPlus.CommitmentGroup`), the blinding factors,
the keys and the signatures. -/
structure SchnorrGroup (G : Global) (C : Crypto) (F A : Type) [AddCommGroup F]
    [AddCommGroup A] extends CommitmentGroup G A where
  /-- What a scalar makes public. -/
  reveal : F →+ A
  /-- The blinding factors that are scalars. -/
  Valid : BlindingFactor → Prop
  /-- The scalar of a blinding factor. -/
  scalar : BlindingFactor → F
  /-- The empty blinding factor is zero. -/
  scalar_of_isNull : ∀ b, BlindingFactor.isNull b = true → scalar b = 0
  /-- `AddBlindingFactors` is the sum. -/
  addBlindingFactors : ∀ positive negative, (∀ b ∈ positive, Valid b) → (∀ b ∈ negative, Valid b) →
    ∃ b, G.addBlindingFactors positive negative = some b ∧ Valid b ∧
      scalar b = (positive.map scalar).sum - (negative.map scalar).sum
  /-- `CommitBlinded` adds the value to what the blinding factor makes public. -/
  commitBlinded : ∀ value b, value < 2 ^ 64 → Valid b →
    ∃ c, G.commitBlinded value b = some c ∧ val c = value • base + reveal (scalar b)
  /-- The element of a public key. -/
  point : PublicKey → A
  /-- Public keys are equal when their elements are. -/
  point_injective : ∀ P Q, point P = point Q → P = Q
  /-- `CalculatePublicKey` returns, unless the key would be zero. -/
  calculatePublicKey : ∀ x, Valid x → reveal (scalar x) ≠ 0 →
    ∃ P, C.calculatePublicKey x = some P
  /-- It makes the key public, which is not zero. -/
  point_calculatePublicKey : ∀ x P, Valid x → C.calculatePublicKey x = some P →
    point P = reveal (scalar x) ∧ reveal (scalar x) ≠ 0
  /-- `AddPublicKeys` is the sum, unless this is zero. -/
  addPublicKeys : ∀ keys, (keys.map point).sum ≠ 0 →
    ∃ P, C.addPublicKeys keys = some P ∧ point P = (keys.map point).sum
  /-- `ToCommitment` keeps the element. -/
  toCommitment : ∀ P, ∃ c, C.toCommitment P = some c ∧ val c = point P
  /-- The challenge: of the sum of the public keys, the sum of the public nonces, and the
  message. -/
  challenge : PublicKey → PublicKey → Hash → ℤ
  /-- The factor with which the signers take their nonces, by the sum of the public nonces. -/
  nonceFactor : PublicKey → ℤ
  /-- The response of a partial signature. -/
  response : CompactSignature → F
  /-- `CalculatePartialSignature` answers the challenge. -/
  calculatePartialSignature : ∀ x k P R m, Valid x → Valid k → reveal (scalar x) ≠ 0 →
    reveal (scalar k) ≠ 0 → ∃ s, C.calculatePartialSignature x k P R m = some s ∧
      response s = nonceFactor R • scalar k + challenge P R m • scalar x
  /-- `VerifyPartialSignature` accepts what was signed, with the public key of the signer. -/
  verifyPartialSignature : ∀ x k X P R m s, Valid x → Valid k →
    C.calculatePartialSignature x k P R m = some s → C.calculatePublicKey x = some X →
    C.verifyPartialSignature s X P R m = true
  /-- `AggregateSignatures` returns a signature … -/
  aggregateSignatures : ∀ sigs R, sigs ≠ [] → ∃ s, C.aggregateSignatures sigs R = some s
  /-- … which `VerifyAggregateSignature` accepts if the sum of the responses fits. -/
  verifyAggregateSignature : ∀ sigs R s P m k, C.aggregateSignatures sigs R = some s →
    point R = reveal k →
    Schnorr.Verifies reveal (sigs.map response).sum (nonceFactor R • point R) (point P)
      (challenge P R m) → C.verifyAggregateSignature s P m = true
  /-- `VerifyKernelSignatures` accepts signatures that are accepted with the public keys of the
  excesses. -/
  verifyKernelSignatures : ∀ sigs : List (Signature × Commitment × Hash),
    (∀ s ∈ sigs, ∃ P, C.toCommitment P = some s.2.1 ∧
      C.verifyAggregateSignature s.1 P s.2.2 = true) → G.verifyKernelSignatures sigs = true
  /-- `VerifyRangeProofs` accepts proofs that are accepted one by one. -/
  verifyRangeProofs : ∀ proofs : List (Commitment × RangeProof),
    (∀ p ∈ proofs, G.verifyRangeProofs [p] = true) → G.verifyRangeProofs proofs = true

variable {G : Global} {C : Crypto} {F A : Type} [AddCommGroup F] [AddCommGroup A]

/-- A wallet whose keys are scalars, whose range proofs are accepted, and whose addresses sign. -/
structure SoundWallet (S : SchnorrGroup G C F A) (W : WalletImpl G) : Prop where
  /-- The keys. -/
  derivePrivateKey : ∀ path amount b, W.keyChain.derivePrivateKey path amount = some b → S.Valid b
  /-- The range proofs. -/
  generateRangeProof : ∀ path amount c b proof,
    W.keyChain.generateRangeProof path amount c b = some proof →
      G.commitBlinded amount.toNat b = some c → G.verifyRangeProofs [(c, proof)] = true
  /-- The signatures of payment proofs. -/
  signED25519 : ∀ index message,
    C.verifyED25519 (W.keyChain.deriveED25519Key index).publicKey
      (C.signED25519 (W.keyChain.deriveED25519Key index).secretKey message) message = true

namespace SchnorrGroup

variable (S : SchnorrGroup G C F A)

/-! ### Outputs that open -/

/-- An output is the commitment to its amount with its blinding factor. -/
structure Opens (o : OutputDataEntity) : Prop where
  /-- The blinding factor is a scalar. -/
  valid : S.Valid o.blindingFactor
  /-- The commitment. -/
  val_eq : S.val o.getCommitment = o.amount.toNat • S.base + S.reveal (S.scalar o.blindingFactor)

/-- The sum of the blinding factors of some outputs. -/
def blinds (outputs : List OutputDataEntity) : F :=
  (outputs.map fun o => S.scalar o.blindingFactor).sum

variable {S}

theorem Opens.reload {o : OutputDataEntity} (h : S.Opens o) : S.Opens o.reload :=
  ⟨h.valid, h.val_eq⟩

theorem blinds_map_reload (outputs : List OutputDataEntity) :
    S.blinds (outputs.map OutputDataEntity.reload) = S.blinds outputs := by
  rw [blinds, blinds, List.map_map]
  rfl

/-- **Outputs that open add up** to their value and their blinding factors. -/
theorem sum_commitments {outputs : List OutputDataEntity} (h : ∀ o ∈ outputs, S.Opens o) :
    S.sum (outputs.map OutputDataEntity.getCommitment) =
      coinValue outputs • S.base + S.reveal (S.blinds outputs) := by
  induction outputs with
  | nil => rw [blinds, List.map_nil, List.map_nil, S.sum_nil, coinValue_nil, zero_smul,
      List.sum_nil, map_zero, add_zero]
  | cons o outputs ih =>
    have hblinds : S.blinds (o :: outputs) = S.scalar o.blindingFactor + S.blinds outputs := by
      rw [blinds, blinds, List.map_cons, List.sum_cons]
    rw [List.map_cons, S.sum_cons, (h o List.mem_cons_self).val_eq,
      ih fun p hp => h p (List.mem_cons_of_mem _ hp), hblinds, coinValue_cons, map_add, add_smul]
    abel

/-- **An output that a wallet makes** opens, and its range proof is accepted. -/
theorem of_createBlindedOutput {W : WalletImpl G} (hW : SoundWallet S W) {amount : UInt64}
    {path : KeyChainPath} {walletTxId : UInt32} {o : OutputDataEntity}
    (h : createBlindedOutput G W amount path walletTxId = .ok o) :
    S.Opens o ∧ o.amount = amount ∧ o.getFeatures = .default ∧
      G.verifyRangeProofs [(o.getCommitment, o.output.rangeProof)] = true := by
  obtain ⟨blindingFactor, commitment, rangeProof, hkey, hcommit, hproof, rfl⟩ :=
    createBlindedOutput_eq_ok h
  have hvalid := hW.derivePrivateKey _ _ _ hkey
  obtain ⟨c, hc, hval⟩ := S.commitBlinded amount.toNat blindingFactor amount.toNat_lt hvalid
  have hcommitted : G.commitBlinded amount.toNat blindingFactor = some commitment :=
    orThrow_eq_ok.1 hcommit
  obtain rfl : c = commitment := Option.some.inj (hc.symm.trans hcommitted)
  exact ⟨⟨hvalid, hval⟩, rfl, rfl, hW.generateRangeProof _ _ _ _ _ hproof hcommitted⟩

/-! ### Keys -/

/-- The keys of a participant, by its secrets. -/
structure Keys (S : SchnorrGroup G C F A) (x k : F) (keys : SigningKeys) : Prop where
  /-- The secret key is a scalar … -/
  validKey : S.Valid keys.secretKey
  /-- … and it is this one. -/
  scalar_key : S.scalar keys.secretKey = x
  /-- The secret nonce is a scalar … -/
  validNonce : S.Valid keys.secretNonce
  /-- … and it is this one. -/
  scalar_nonce : S.scalar keys.secretNonce = k
  /-- The public key. -/
  publicKey : C.calculatePublicKey keys.secretKey = some keys.publicKey
  /-- The public nonce. -/
  publicNonce : C.calculatePublicKey keys.secretNonce = some keys.publicNonce

theorem Keys.point_key {x k : F} {keys : SigningKeys} (h : S.Keys x k keys) :
    S.point keys.publicKey = S.reveal x ∧ S.reveal x ≠ 0 :=
  h.scalar_key ▸ S.point_calculatePublicKey _ _ h.validKey h.publicKey

theorem Keys.point_nonce {x k : F} {keys : SigningKeys} (h : S.Keys x k keys) :
    S.point keys.publicNonce = S.reveal k ∧ S.reveal k ≠ 0 :=
  h.scalar_nonce ▸ S.point_calculatePublicKey _ _ h.validNonce h.publicNonce

/-- The sum of blinding factors, with its scalar. -/
theorem addBlindingFactors_ok (positive negative : List BlindingFactor)
    (hpositive : ∀ b ∈ positive, S.Valid b) (hnegative : ∀ b ∈ negative, S.Valid b) :
    ∃ b, GrinPlusPlus.addBlindingFactors G positive negative = .ok b ∧ S.Valid b ∧
      S.scalar b = (positive.map S.scalar).sum - (negative.map S.scalar).sum := by
  obtain ⟨b, hb, hvalid, hscalar⟩ := S.addBlindingFactors positive negative hpositive hnegative
  exact ⟨b, orFail_eq_ok_iff.2 hb, hvalid, hscalar⟩

/-- **The secret key of a participant**: the blinding factors of its outputs less those of its
inputs and its part of the offset. -/
theorem secretKey_ok {inputs outputs : List OutputDataEntity} {txOffset : BlindingFactor}
    (hinputs : ∀ o ∈ inputs, S.Opens o) (houtputs : ∀ o ∈ outputs, S.Opens o)
    (hoffset : S.Valid txOffset) (secretNonce : SecretKey) :
    ∃ secretKey, S.Valid secretKey ∧
      S.scalar secretKey = S.blinds outputs - S.blinds inputs - S.scalar txOffset ∧
      calculateSigningKeys G C inputs outputs txOffset secretNonce = (do
        let publicKey ← GrinPlusPlus.calculatePublicKey C secretKey
        let publicNonce ← GrinPlusPlus.calculatePublicKey C secretNonce
        .ok ⟨secretKey, publicKey, secretNonce, publicNonce⟩) := by
  have hblinds : ∀ {l : List OutputDataEntity}, (∀ o ∈ l, S.Opens o) →
      ∀ b ∈ l.map OutputDataEntity.blindingFactor, S.Valid b := by
    intro l hl b hb
    obtain ⟨o, ho, rfl⟩ := List.mem_map.1 hb
    exact (hl o ho).valid
  have hsum : ∀ l : List OutputDataEntity,
      ((l.map OutputDataEntity.blindingFactor).map S.scalar).sum = S.blinds l := by
    intro l
    rw [blinds, List.map_map]
    rfl
  have hone : ∀ {b : BlindingFactor}, S.Valid b → ∀ c ∈ [b], S.Valid c :=
    fun hb c hc => (List.mem_singleton.1 hc).symm ▸ hb
  obtain ⟨inSum, hin, hinValid, hinScalar⟩ :=
    addBlindingFactors_ok _ _ (hblinds hinputs) (List.forall_mem_nil S.Valid)
  obtain ⟨outSum, hout, houtValid, houtScalar⟩ :=
    addBlindingFactors_ok _ _ (hblinds houtputs) (List.forall_mem_nil S.Valid)
  obtain ⟨total, htotal, htotalValid, htotalScalar⟩ :=
    addBlindingFactors_ok _ _ (hone houtValid) (hone hinValid)
  obtain ⟨key, hkey, hkeyValid, hkeyScalar⟩ :=
    addBlindingFactors_ok _ _ (hone htotalValid) (hone hoffset)
  refine ⟨key, hkeyValid, ?_, ?_⟩
  · rw [List.map_singleton, List.map_singleton, List.sum_singleton, List.sum_singleton]
      at htotalScalar hkeyScalar
    rw [hkeyScalar, htotalScalar, houtScalar, hinScalar, hsum, hsum, List.map_nil, List.sum_nil,
      sub_zero, sub_zero]
  · rw [calculateSigningKeys, hin, Exec.ok_bind, hout, Exec.ok_bind, htotal, Exec.ok_bind, hkey,
      Exec.ok_bind]

/-- The keys that were calculated. -/
theorem of_calculateSigningKeys {inputs outputs : List OutputDataEntity}
    {txOffset : BlindingFactor} {secretNonce : SecretKey} {keys : SigningKeys}
    (hinputs : ∀ o ∈ inputs, S.Opens o) (houtputs : ∀ o ∈ outputs, S.Opens o)
    (hoffset : S.Valid txOffset) (hnonce : S.Valid secretNonce)
    (h : calculateSigningKeys G C inputs outputs txOffset secretNonce = .ok keys) :
    S.Keys (S.blinds outputs - S.blinds inputs - S.scalar txOffset) (S.scalar secretNonce)
      keys := by
  obtain ⟨key, hvalid, hscalar, hkeys⟩ := secretKey_ok hinputs houtputs hoffset secretNonce
  rw [hkeys] at h
  obtain ⟨publicKey, hpublicKey, h⟩ := Exec.of_bind_eq_ok h
  obtain ⟨publicNonce, hpublicNonce, h⟩ := Exec.of_bind_eq_ok h
  cases h
  exact ⟨hvalid, hscalar, hnonce, rfl, orFail_eq_ok_iff.1 hpublicKey,
    orFail_eq_ok_iff.1 hpublicNonce⟩

/-- Keys that are not zero are calculated. -/
theorem calculateSigningKeys_ok {inputs outputs : List OutputDataEntity}
    {txOffset : BlindingFactor} {secretNonce : SecretKey}
    (hinputs : ∀ o ∈ inputs, S.Opens o) (houtputs : ∀ o ∈ outputs, S.Opens o)
    (hoffset : S.Valid txOffset) (hnonce : S.Valid secretNonce)
    (hkeyNe : S.reveal (S.blinds outputs - S.blinds inputs - S.scalar txOffset) ≠ 0)
    (hnonceNe : S.reveal (S.scalar secretNonce) ≠ 0) :
    ∃ keys, calculateSigningKeys G C inputs outputs txOffset secretNonce = .ok keys := by
  obtain ⟨key, hvalid, hscalar, hkeys⟩ := secretKey_ok hinputs houtputs hoffset secretNonce
  obtain ⟨publicKey, hpublicKey⟩ := S.calculatePublicKey key hvalid (hscalar.symm ▸ hkeyNe)
  obtain ⟨publicNonce, hpublicNonce⟩ := S.calculatePublicKey secretNonce hnonce hnonceNe
  refine ⟨⟨key, publicKey, secretNonce, publicNonce⟩, ?_⟩
  rw [hkeys, GrinPlusPlus.calculatePublicKey, GrinPlusPlus.calculatePublicKey, hpublicKey,
    hpublicNonce]
  rfl

/-! ### Signatures -/

/-- **A participant signs**, and its signature is accepted with its own key. -/
theorem Keys.sign {x k : F} {keys : SigningKeys} (h : S.Keys x k keys) (P R : PublicKey)
    (m : Hash) :
    ∃ s, C.calculatePartialSignature keys.secretKey keys.secretNonce P R m = some s ∧
      S.response s = S.nonceFactor R • k + S.challenge P R m • x ∧
      C.verifyPartialSignature s keys.publicKey P R m = true := by
  obtain ⟨s, hs, hresponse⟩ := S.calculatePartialSignature keys.secretKey keys.secretNonce P R m
    h.validKey h.validNonce (h.scalar_key.symm ▸ h.point_key.2)
    (h.scalar_nonce.symm ▸ h.point_nonce.2)
  refine ⟨s, hs, ?_, S.verifyPartialSignature _ _ _ P R m s h.validKey h.validNonce hs h.publicKey⟩
  rw [hresponse, h.scalar_key, h.scalar_nonce]

/-- **Two partial signatures make one** that is accepted with the sum of the keys. -/
theorem aggregate_ok {x k x' k' : F} {P R : PublicKey} {m : Hash} {s s' : CompactSignature}
    (hP : S.point P = S.reveal x + S.reveal x') (hR : S.point R = S.reveal k + S.reveal k')
    (hs : S.response s = S.nonceFactor R • k + S.challenge P R m • x)
    (hs' : S.response s' = S.nonceFactor R • k' + S.challenge P R m • x') :
    ∃ signature, C.aggregateSignatures [s, s'] R = some signature ∧
      C.verifyAggregateSignature signature P m = true := by
  obtain ⟨signature, hsignature⟩ := S.aggregateSignatures [s, s'] R (List.cons_ne_nil _ _)
  refine ⟨signature, hsignature, S.verifyAggregateSignature _ R _ P m (k + k') hsignature ?_ ?_⟩
  · rw [hR, map_add]
  · have hfits := (Schnorr.verifies_answer S.reveal (S.nonceFactor R) (S.challenge P R m) k x).add
      (Schnorr.verifies_answer S.reveal (S.nonceFactor R) (S.challenge P R m) k' x')
    rw [← hs, ← hs', ← smul_add, ← hR, ← hP] at hfits
    rwa [List.map_cons, List.map_singleton, List.sum_cons, List.sum_singleton]

/-- The sums of the public keys and of the public nonces of two participants. -/
structure Sums (S : SchnorrGroup G C F A) (keys keys' : SigningKeys) (P R : PublicKey) :
    Prop where
  /-- The public keys are added. -/
  addKeys : C.addPublicKeys [keys.publicKey, keys'.publicKey] = some P
  /-- The public nonces are added. -/
  addNonces : C.addPublicKeys [keys.publicNonce, keys'.publicNonce] = some R
  /-- The sum of the public keys. -/
  point_key : S.point P = S.point keys.publicKey + S.point keys'.publicKey
  /-- The sum of the public nonces. -/
  point_nonce : S.point R = S.point keys.publicNonce + S.point keys'.publicNonce
  /-- The sum of the public keys is not zero. -/
  key_ne : S.point P ≠ 0
  /-- The sum of the public nonces is not zero. -/
  nonce_ne : S.point R ≠ 0

/-- Two public keys are added, unless their sum is zero. -/
theorem addPublicKeys_pair {X Y : PublicKey} (h : S.point X + S.point Y ≠ 0) :
    ∃ P, C.addPublicKeys [X, Y] = some P ∧ S.point P = S.point X + S.point Y := by
  have hsum : ([X, Y].map S.point).sum = S.point X + S.point Y := by
    rw [List.map_cons, List.map_singleton, List.sum_cons, List.sum_singleton]
  rw [← hsum] at h ⊢
  exact S.addPublicKeys [X, Y] h

theorem exists_sums {x k x' k' : F} {keys keys' : SigningKeys} (h : S.Keys x k keys)
    (h' : S.Keys x' k' keys') (hkey : S.reveal (x + x') ≠ 0) (hnonce : S.reveal (k + k') ≠ 0) :
    ∃ P R, S.Sums keys keys' P R := by
  rw [map_add, ← h.point_key.1, ← h'.point_key.1] at hkey
  rw [map_add, ← h.point_nonce.1, ← h'.point_nonce.1] at hnonce
  obtain ⟨P, hP, hPval⟩ := addPublicKeys_pair hkey
  obtain ⟨R, hR, hRval⟩ := addPublicKeys_pair hnonce
  exact ⟨P, R, hP, hR, hPval, hRval, hPval ▸ hkey, hRval ▸ hnonce⟩

/-- **The order of the participants makes no difference.** -/
theorem Sums.symm {keys keys' : SigningKeys} {P R : PublicKey} (h : S.Sums keys keys' P R) :
    S.Sums keys' keys P R := by
  have hswap : ∀ {X Y Z : PublicKey}, S.point Z = S.point X + S.point Y → S.point Z ≠ 0 →
      C.addPublicKeys [Y, X] = some Z := by
    intro X Y Z hZ hne
    rw [hZ, add_comm] at hne
    obtain ⟨Z', hadd, hval⟩ := addPublicKeys_pair hne
    rwa [S.point_injective Z' Z (hval.trans ((add_comm _ _).trans hZ.symm))] at hadd
  exact ⟨hswap h.point_key h.key_ne, hswap h.point_nonce h.nonce_ne,
    h.point_key.trans (add_comm _ _), h.point_nonce.trans (add_comm _ _), h.key_ne, h.nonce_ne⟩

end SchnorrGroup

/-! ### The small wallets -/

namespace SmallNet

open BlockSums

/-- The number of blinding factors that make different things public. -/
def order : ℕ := 2 ^ 200

theorem modulus_eq : modulus = 2 ^ 64 * order := by
  rw [← two_pow_eq_modulus, order, ← pow_add]

theorem pow_256_32 : 256 ^ 32 = 2 ^ 256 := by norm_num

theorem number_scalar (n : ℕ) : number (scalar n) = n % 2 ^ 256 := by
  rw [number, scalar, foldl_beBytes, Nat.zero_mul, Nat.zero_add, pow_256_32]

theorem cast_mod_order (n : ℕ) : ((n % 2 ^ 256 : ℕ) : ZMod order) = n := by
  have hdvd : order ∣ 2 ^ 256 := pow_dvd_pow 2 (by decide)
  refine (ZMod.natCast_eq_natCast_iff' _ _ _).2 ?_
  exact Nat.mod_mod_of_dvd n hdvd

theorem zmultiples_order :
    zmultiplesHom (ZMod modulus) ((2 ^ 64 : ℕ) : ZMod modulus) order = 0 := by
  rw [zmultiplesHom_apply, natCast_zsmul, nsmul_eq_mul, ← Nat.cast_mul, Nat.mul_comm, ← modulus_eq,
    ZMod.natCast_self]

/-- What a scalar makes public: it is shifted behind the value. -/
def reveal : ZMod order →+ ZMod modulus :=
  ZMod.lift order ⟨zmultiplesHom (ZMod modulus) ((2 ^ 64 : ℕ) : ZMod modulus), zmultiples_order⟩

theorem reveal_natCast (n : ℕ) : reveal n = ((2 ^ 64 * n : ℕ) : ZMod modulus) := by
  have h := ZMod.lift_coe order
    ⟨zmultiplesHom (ZMod modulus) ((2 ^ 64 : ℕ) : ZMod modulus), zmultiples_order⟩ (n : ℤ)
  rw [Int.cast_natCast] at h
  rw [reveal, h]
  dsimp only
  rw [zmultiplesHom_apply, natCast_zsmul, nsmul_eq_mul, ← Nat.cast_mul, Nat.mul_comm]

theorem cast_number_commit (value : ℕ) (blind : BlindingFactor) :
    (number (commit value blind) : ZMod modulus) =
      value + reveal (number blind : ZMod order) := by
  rw [commit, cast_number_commitment, reveal_natCast, Nat.cast_add]

theorem commitment_eq_iff (m n : ℕ) :
    commitment m = commitment n ↔ (m : ZMod modulus) = n := by
  rw [ZMod.natCast_eq_natCast_iff', ← number_commitment, ← number_commitment]
  exact ⟨congrArg number, number_injective⟩

theorem commitment_number (c : Commitment) : commitment (number c) = c := by
  apply number_injective
  rw [number_commitment, Nat.mod_eq_of_lt (number_lt c)]

/-- What scalars make public is a multiple of the shift. -/
theorem dvd_number_of_reveal {c : Commitment} {k : ZMod order}
    (h : (number c : ZMod modulus) = reveal k) : 2 ^ 64 ∣ number c := by
  have horder : NeZero order := ⟨pow_ne_zero 200 two_ne_zero⟩
  rw [← ZMod.natCast_zmod_val k, reveal_natCast, ZMod.natCast_eq_natCast_iff',
    Nat.mod_eq_of_lt (number_lt c)] at h
  rw [h, Nat.dvd_mod_iff (modulus_eq ▸ Nat.dvd_mul_right _ _)]
  exact Nat.dvd_mul_right _ _

theorem schnorrResponse_schnorr (nonce : PublicKey) (response : ℕ) :
    (schnorrResponse (schnorr nonce response) : ZMod order) = response := by
  rw [schnorrResponse, schnorr, List.drop_left' (length_beBytes 32 _), foldl_beBytes,
    Nat.zero_mul, Nat.zero_add, pow_256_32, cast_mod_order]

theorem schnorrNonce_schnorr {nonce : PublicKey} (h : 2 ^ 64 ∣ number nonce) (response : ℕ) :
    schnorrNonce (schnorr nonce response) = nonce := by
  have hlt : number nonce / 2 ^ 64 < 256 ^ 32 := by
    have hnumber := number_lt nonce
    rw [modulus_eq] at hnumber
    refine (Nat.div_lt_of_lt_mul hnumber).trans ?_
    rw [order, pow_256_32]
    exact Nat.pow_lt_pow_right (by decide) (by decide)
  rw [schnorrNonce, schnorr, List.take_left' (length_beBytes 32 _), foldl_beBytes, Nat.zero_mul,
    Nat.zero_add, Nat.mod_eq_of_lt hlt, Nat.mul_div_cancel' h, commitment_number]

/-- **The small signatures are those of Schnorr.** -/
theorem verifySchnorr_iff {signature : CBigInteger 64} {publicKey P R : PublicKey} {m : Hash} :
    verifySchnorr signature publicKey P R m = true ↔
      Schnorr.Verifies reveal (schnorrResponse signature : ZMod order)
        (number (schnorrNonce signature) : ZMod modulus) (number publicKey : ZMod modulus)
        (challenge P R m) := by
  rw [verifySchnorr, decide_eq_true_iff, commitment_eq_iff, ← reveal_natCast, Schnorr.Verifies,
    natCast_zsmul, nsmul_eq_mul, Nat.cast_add, Nat.cast_mul]

theorem number_eq_zero_of_isNull {b : BlindingFactor} (h : BlindingFactor.isNull b = true) :
    number b = 0 := by
  have hzero : ∀ bytes : List UInt8, bytes.all (fun b => decide (b = 0)) = true →
      bytes.foldl (fun m b => 256 * m + b.toNat) 0 = 0 := by
    intro bytes
    induction bytes with
    | nil => exact fun _ => rfl
    | cons b bytes ih =>
      intro hall
      rw [List.all_cons, Bool.and_eq_true, decide_eq_true_iff] at hall
      rw [List.foldl_cons, hall.1]
      exact ih hall.2
  exact hzero b.bytes h

theorem sum_number_scalar_le (blinds : List BlindingFactor) :
    (blinds.map number).sum ≤ 2 ^ 256 * blinds.length := by
  induction blinds with
  | nil => rfl
  | cons b blinds ih =>
    have hlt : number b < 2 ^ 256 := by
      have h := Nat.ofDigits_lt_base_pow_length (by decide : 1 < 256)
        (digits_lt b.bytes.reverse)
      rw [List.length_map, List.length_reverse, b.length_eq, ← number_eq_ofDigits] at h
      rwa [pow_256_32] at h
    rw [List.map_cons, List.sum_cons, List.length_cons, Nat.mul_succ]
    omega

theorem cast_sum_number_order (blinds : List BlindingFactor) :
    (((blinds.map number).sum : ℕ) : ZMod order) =
      (blinds.map fun b => (number b : ZMod order)).sum := by
  rw [Nat.cast_list_sum, List.map_map]
  rfl

theorem number_nonzeroPoint {c P : Commitment} (h : nonzeroPoint c = some P) :
    P = c ∧ (number c : ZMod modulus) ≠ 0 := by
  rw [nonzeroPoint] at h
  split at h
  · cases h
  · next hne =>
    refine ⟨(Option.some_inj.1 h).symm, fun hzero => hne ?_⟩
    rw [ZMod.natCast_eq_zero_iff] at hzero
    exact Nat.eq_zero_of_dvd_of_lt hzero (number_lt c)

theorem nonzeroPoint_of_ne {c : Commitment} (h : (number c : ZMod modulus) ≠ 0) :
    nonzeroPoint c = some c := by
  refine if_neg fun hzero => h ?_
  rw [hzero, Nat.cast_zero]

/-- The commitments of the network of the small wallets. -/
def walletGroup : CommitmentGroup smallWalletNet (ZMod modulus) where
  val := (smallGroup .mainnet).val
  val_injective := (smallGroup .mainnet).val_injective
  addCommitments := (smallGroup .mainnet).addCommitments
  base := (smallGroup .mainnet).base
  commitTransparent := (smallGroup .mainnet).commitTransparent

theorem number_addBlindingFactors (positive negative : List BlindingFactor) :
    ∃ b, smallWalletNet.addBlindingFactors positive negative = some b ∧
      (number b : ZMod order) = (positive.map fun b => (number b : ZMod order)).sum -
        (negative.map fun b => (number b : ZMod order)).sum := by
  refine ⟨_, rfl, ?_⟩
  have hle := sum_number_scalar_le negative
  have hzero : ((2 ^ 256 : ℕ) : ZMod order) = 0 :=
    (ZMod.natCast_eq_zero_iff _ _).2 (pow_dvd_pow 2 (by decide))
  rw [number_scalar, cast_mod_order, Nat.cast_sub (hle.trans (Nat.le_add_left _ _)), Nat.cast_add,
    Nat.cast_mul, hzero, zero_mul, add_zero, cast_sum_number_order, cast_sum_number_order]

/-- The public key of a blinding factor. -/
theorem number_commit_zero (b : BlindingFactor) :
    (number (commit 0 b) : ZMod modulus) = reveal (number b : ZMod order) := by
  rw [cast_number_commit, Nat.cast_zero, zero_add]

end SmallNet

open SmallNet BlockSums in
/-- **The small wallets keep the promises.** -/
def smallSchnorr : SchnorrGroup smallWalletNet smallCrypto (ZMod order) (ZMod modulus) where
  toCommitmentGroup := walletGroup
  reveal := reveal
  Valid _ := True
  scalar b := number b
  scalar_of_isNull b h := by rw [number_eq_zero_of_isNull h, Nat.cast_zero]
  addBlindingFactors positive negative _ _ := by
    obtain ⟨b, hb, hnumber⟩ := number_addBlindingFactors positive negative
    exact ⟨b, hb, trivial, hnumber⟩
  commitBlinded value b _ _ := by
    refine ⟨_, rfl, ?_⟩
    exact (cast_number_commit value b).trans (congrArg (· + _) (nsmul_one value).symm)
  point P := number P
  point_injective P Q h := by
    rw [← commitment_number P, ← commitment_number Q]
    exact (commitment_eq_iff _ _).2 h
  calculatePublicKey x _ h :=
    ⟨_, nonzeroPoint_of_ne ((number_commit_zero x).symm ▸ h)⟩
  point_calculatePublicKey x P _ h := by
    obtain ⟨rfl, hne⟩ := number_nonzeroPoint h
    exact ⟨number_commit_zero x, number_commit_zero x ▸ hne⟩
  addPublicKeys keys h := by
    rw [← cast_sum_number, ← cast_number_commitment] at h
    refine ⟨_, nonzeroPoint_of_ne h, ?_⟩
    rw [cast_number_commitment, cast_sum_number]
  toCommitment P := ⟨P, rfl, rfl⟩
  challenge P R m := SmallNet.challenge P R m
  nonceFactor _ := 1
  response s := schnorrResponse s
  calculatePartialSignature x k P R m _ _ _ _ := by
    refine ⟨_, rfl, ?_⟩
    rw [schnorrResponse_schnorr, one_zsmul, natCast_zsmul, nsmul_eq_mul, Nat.cast_add,
      Nat.cast_mul]
  verifyPartialSignature x k X P R m s _ _ hs hX := by
    obtain rfl := Option.some_inj.1 hs
    obtain ⟨rfl, -⟩ := number_nonzeroPoint hX
    refine verifySchnorr_iff.2 ?_
    rw [schnorrNonce_schnorr (dvd_number_of_reveal (number_commit_zero k)), number_commit_zero,
      number_commit_zero, schnorrResponse_schnorr]
    have h := Schnorr.verifies_answer reveal 1 (SmallNet.challenge P R m) (number k : ZMod order)
      (number x : ZMod order)
    rwa [one_zsmul, one_zsmul, natCast_zsmul, nsmul_eq_mul, ← Nat.cast_mul, ← Nat.cast_add] at h
  aggregateSignatures sigs R _ := ⟨_, rfl⟩
  verifyAggregateSignature sigs R s P m k hs hR h := by
    obtain rfl := Option.some_inj.1 hs
    refine verifySchnorr_iff.2 ?_
    rw [schnorrNonce_schnorr (dvd_number_of_reveal hR), schnorrResponse_schnorr, Nat.cast_list_sum,
      List.map_map]
    rwa [one_zsmul] at h
  verifyKernelSignatures sigs h := by
    refine List.all_eq_true.2 fun s hs => ?_
    obtain ⟨P, hP, hverified⟩ := h s hs
    obtain rfl := Option.some_inj.1 hP
    exact hverified
  verifyRangeProofs _ _ := rfl

/-- The small wallets are sound. -/
theorem soundWallet_smallWallet (seed : ℕ) : SoundWallet smallSchnorr (smallWallet seed) :=
  ⟨fun _ _ _ _ => trivial, fun _ _ _ _ _ _ _ => rfl, fun _ _ => rfl⟩

end GrinPlusPlus
