import GrinPlusPlus.Wallet.BuiltTransaction
import GrinPlusPlus.Wallet.SlateCodec

/-!
# A payment between honest wallets

`SendSlateBuilder::BuildSendSlate`, `ReceiveSlateBuilder::AddReceiverData` and
`FinalizeSlateBuilder::Finalize`, one after the other: **the payment completes**
(`GrinPlusPlus.honest_payment`). Each wallet reads what the other one serialised.

Each wallet knows its own half: the sender the blinding factors of its coins and of its change, the
receiver that of the output that it adds, and each takes its part of the offset off its key. The
slate that goes back does not even hold what the sender put into it, so the sender adds its coins
and its key again. What the sender keeps for this is `GrinPlusPlus.SentSlate`, and what it gets
back is `GrinPlusPlus.ReceivedSlate`.
-/

namespace GrinPlusPlus

variable {G : Global} {C : Crypto}

/-! ### What the sender keeps -/

/-- **A slate is what is read back of it**, if its kernel is plain and its fee can be written. -/
theorem Slate.reload_eq_self {s : Slate} (hkernel : s.kernelFeatures = .defaultKernel)
    (hargs : s.featureArgsOpt = none) (hshift : s.fee.shift = 0) (hfee : s.fee.fee.toNat < 2 ^ 40) :
    s.reload = s := by
  rw [reload, reload_toRaw (hshift.symm ▸ by decide) hfee, if_pos hkernel, ← hargs]

/-- **The transaction of a new slate is found.** -/
theorem WalletDB.getTransactionBySlateId_addTransaction {db : WalletDB} {t : WalletTx}
    {slateId : SlateId} (ht : t.slateIdOpt = some slateId)
    (hnew : db.getTransactionBySlateId slateId = none) :
    (db.addTransaction t).getTransactionBySlateId slateId = some t.reload := by
  have hmem : ∀ u, u ∈ (db.addTransaction t).transactions ↔
      u = t.reload ∨ u ∈ db.transactions ∧ u.walletTxId ≠ t.reload.walletTxId := fun u =>
    List.mem_upsert_iff perm_placeTransaction t.reload u db.transactions
  have hnone : ∀ u ∈ db.transactions, u.slateIdOpt ≠ some slateId := by
    intro u hu heq
    exact List.find?_eq_none.1 hnew u hu (decide_eq_true heq)
  obtain ⟨u, hu⟩ : ∃ u, (db.addTransaction t).getTransactionBySlateId slateId = some u := by
    refine Option.isSome_iff_exists.1 (List.find?_isSome.2 ⟨t.reload, (hmem _).2 (.inl rfl), ?_⟩)
    exact decide_eq_true ht
  obtain ⟨hrow, hid⟩ := WalletDB.of_getTransactionBySlateId hu
  rcases (hmem u).1 hrow with rfl | ⟨hold, -⟩
  · exact hu
  · exact absurd hid (hnone u hold)

section Payments

variable {F A : Type} [AddCommGroup F] [AddCommGroup A]

/-- What the sender of a slate knows when the response comes: the slate, its transaction and its
context, with keys that belong to the coins and the change. -/
structure SentSlate (S : SchnorrGroup G C F A) (db : WalletDB) (slate : Slate)
    (context : SlateContextEntity) (keys : SigningKeys) : Prop where
  /-- The slate can be loaded … -/
  loadSlate : db.loadSlate slate.slateId .standardSent = some slate
  /-- … and its context … -/
  loadContext : db.loadSlateContext slate.slateId = some context
  /-- … and its transaction, with the payment proof. -/
  findTx : ∃ walletTx, db.getTransactionBySlateId slate.slateId = some walletTx ∧
    walletTx.paymentProofOpt = slate.proofOpt
  /-- The keys belong to the coins, the change and the offset. -/
  isKeys : S.Keys (S.blinds context.outputs - S.blinds context.inputs - S.scalar slate.offset)
    (S.scalar context.secretNonce) keys
  /-- They are those of the context … -/
  secretKey_eq : context.secretKey = keys.secretKey
  /-- … both of them … -/
  secretNonce_eq : context.secretNonce = keys.secretNonce
  /-- … and the slate has their public halves. -/
  sigs_eq : slate.sigs = [⟨keys.publicKey, keys.publicNonce, none⟩]
  /-- The slate spends the coins and creates the change. -/
  commitments_eq : slate.commitments =
    context.inputs.map inputEntry ++ context.outputs.map outputEntry
  /-- The kernel is plain. -/
  kernelFeatures : slate.kernelFeatures = .defaultKernel
  /-- It has no arguments. -/
  featureArgsOpt : slate.featureArgsOpt = none
  /-- The fee has no shift. -/
  shift_eq : slate.fee.shift = 0
  /-- The offset is a scalar. -/
  validOffset : S.Valid slate.offset
  /-- The coins open. -/
  opensInputs : ∀ o ∈ context.inputs, S.Opens o
  /-- The change opens … -/
  opensOutputs : ∀ o ∈ context.outputs, S.Opens o
  /-- … it is no reward … -/
  defaultOutputs : ∀ o ∈ context.outputs, o.getFeatures = .default
  /-- … and its range proofs are accepted. -/
  provedOutputs : ∀ o ∈ context.outputs,
    G.verifyRangeProofs [(o.getCommitment, o.output.rangeProof)] = true
  /-- No address has signed yet. -/
  unsignedProof : ∀ proof ∈ slate.proofOpt, proof.receiverSignatureOpt = none

/-- **A send of coins that suffice conserves their value.** -/
theorem ConservesValue.of_sufficient {W : WalletImpl G} {db db' : WalletDB}
    {available : List OutputDataEntity} {chainHeight : UInt64} {criteria : SendCriteria}
    {draws : SendDraws} {slate : Slate} {context : SlateContextEntity}
    (h : SendSlateBuilder.buildSendSlate G C W db available chainHeight criteria draws =
      .ok (slate, db'))
    (hcontext : db'.loadSlateContext slate.slateId = some context)
    (hsum : coinValue available < 2 ^ 64) (hsufficient : criteria.Sufficient W available) :
    ConservesValue available criteria slate context := by
  obtain ⟨⟨inputs, amountToSend, fee⟩, hplan, hbuild⟩ := Exec.of_bind_eq_ok h
  obtain ⟨saved, hload, hsaved⟩ := SendSlateBuilder.exists_saved hbuild
  obtain rfl : saved = context := Option.some_inj.1 (hload.symm.trans hcontext)
  have hsub : inputs.Subperm available := SendSlateBuilder.planSend_eq_ok hplan
  have hinputs : coinValue inputs < 2 ^ 64 := (coinValue_le_of_subperm hsub).trans_lt hsum
  rw [SendCriteria.Sufficient] at hsufficient
  split at hsufficient
  · next hrequest =>
    obtain ⟨rfl, hamount, hfee⟩ := SendSlateBuilder.planSend_none hrequest hplan
    rw [hrequest] at hsaved
    refine (SendSlateBuilder.conservesValue_iff hsaved hsub ?_).2
      ((SendSlateBuilder.entireBalance_iff hsum hamount hfee).2 hsufficient)
    rw [hrequest]
    exact fun _ hmem => absurd hmem (Option.not_mem_none _)
  · next amount hrequest =>
    obtain ⟨hselected, rfl, hfee⟩ := SendSlateBuilder.planSend_some hrequest hplan
    obtain ⟨k, hchooses, rfl⟩ := CoinSelection.exists_chooses hselected
    rw [hrequest] at hsaved
    refine (SendSlateBuilder.conservesValue_iff hsaved hsub ?_).2
      ((SendSlateBuilder.coinsSuffice_iff hinputs hfee).2 (hsufficient k hchooses))
    rw [hrequest]
    exact fun _ hmem => Option.some_inj.1 hmem

/-- **What a send leaves behind.** The identifier of the slate is new, and no commitment occurs
twice. -/
theorem SentSlate.of_buildSendSlate {S : SchnorrGroup G C F A} {W : WalletImpl G}
    (hW : SoundWallet S W) {db db' : WalletDB} {available : List OutputDataEntity}
    {chainHeight : UInt64} {criteria : SendCriteria} {draws : SendDraws} {slate : Slate}
    {context : SlateContextEntity}
    (h : SendSlateBuilder.buildSendSlate G C W db available chainHeight criteria draws =
      .ok (slate, db'))
    (hcontext : db'.loadSlateContext slate.slateId = some context)
    (hcoins : ∀ o ∈ available, S.Opens o) (hoffset : S.Valid draws.transactionOffset)
    (hnonce : S.Valid draws.secretNonce) (hfee : slate.fee.fee.toNat < 2 ^ 40)
    (hslate : db.loadSlate draws.slateId .standardSent = none)
    (htx : db.getTransactionBySlateId draws.slateId = none)
    (hnodup : ((context.inputs ++ context.outputs).map OutputDataEntity.getCommitment).Nodup) :
    slate.offset = draws.transactionOffset ∧ context.secretNonce = draws.secretNonce ∧
      slate.proofOpt.map SlatePaymentProof.receiverAddress = criteria.addressOpt ∧
      ∃ keys, SentSlate S db' slate context keys := by
  obtain ⟨⟨inputs, amountToSend, fee⟩, hplan, hbuild⟩ := Exec.of_bind_eq_ok h
  obtain ⟨change, keys, nextChildIndex, proofOpt, hchange, hkeys, hslateEq, hnew, haddress,
    hunsigned, hdb⟩ := SendSlateBuilder.build_eq_ok hbuild
  have hbare := hslateEq.trans (addCoins_eq _ _ _)
  have hid : slate.slateId = draws.slateId := congrArg Slate.slateId hbare
  have hcontextEq := WalletDB.loadSlateContext_of_new (congrArg WalletDB.slateContexts hdb) hnew
  rw [← hid, hcontext, Option.some_inj] at hcontextEq
  have hin : context.inputs = inputs.map OutputDataEntity.reload :=
    congrArg SlateContextEntity.inputs hcontextEq
  have hout : context.outputs = change.map OutputDataEntity.reload :=
    congrArg SlateContextEntity.outputs hcontextEq
  have hopens : ∀ o ∈ inputs, S.Opens o := fun o ho =>
    hcoins o ((SendSlateBuilder.planSend_eq_ok hplan).subset ho)
  have hmade : ∀ o ∈ change, S.Opens o ∧ o.getFeatures = .default ∧
      G.verifyRangeProofs [(o.getCommitment, o.output.rangeProof)] = true := by
    intro o ho
    obtain ⟨path, hcreated⟩ := hchange.created o ho
    obtain ⟨hopen, -, hdefault, hproof⟩ := SchnorrGroup.of_createBlindedOutput hW hcreated
    exact ⟨hopen, hdefault, hproof⟩
  have hreload : slate.reload = slate :=
    Slate.reload_eq_self (congrArg Slate.kernelFeatures hbare)
      (congrArg Slate.featureArgsOpt hbare) (congrArg (fun s => s.fee.shift) hbare) hfee
  have hisKeys := SchnorrGroup.of_calculateSigningKeys hopens (fun o ho => (hmade o ho).1)
    hoffset hnonce hkeys
  have hsecret : keys.secretNonce = draws.secretNonce := secretNonce_of_calculateSigningKeys hkeys
  refine ⟨congrArg Slate.offset hbare, ?_, ?_, keys, ?_⟩
  · rw [← hsecret]
    exact congrArg SlateContextEntity.secretNonce hcontextEq
  · rw [← haddress]
    exact congrArg (fun s => s.proofOpt.map SlatePaymentProof.receiverAddress) hbare
  constructor
  · -- The slate
    rw [WalletDB.loadSlate, hdb]
    change (db.slates ++ [slate.reload]).find? _ = _
    rw [List.find?_append, hid, show db.slates.find? _ = none from hslate, Option.none_or, hreload,
      List.find?_cons_of_pos]
    exact decide_eq_true ⟨hid, congrArg Slate.stage hbare⟩
  · exact hcontext
  · -- The transaction
    refine ⟨(SendSlateBuilder.buildWalletTx G W db.nextTxId draws.transactionOffset inputs change
      slate).reload, ?_, rfl⟩
    rw [hdb, hid]
    exact WalletDB.getTransactionBySlateId_addTransaction (congrArg some hid) htx
  · rw [hin, hout, SchnorrGroup.blinds_map_reload, SchnorrGroup.blinds_map_reload,
      congrArg Slate.offset hbare, congrArg SlateContextEntity.secretNonce hcontextEq]
    change S.Keys _ (S.scalar keys.secretNonce) keys
    rw [hsecret]
    exact hisKeys
  · exact congrArg SlateContextEntity.secretKey hcontextEq
  · exact congrArg SlateContextEntity.secretNonce hcontextEq
  · exact congrArg Slate.sigs hbare
  · -- The commitments
    rw [hin, hout, ← List.map_append, List.map_map] at hnodup
    rw [hslateEq, hin, hout, List.map_map, List.map_map]
    exact commitments_addCoins_of_nodup hnodup
  · exact congrArg Slate.kernelFeatures hbare
  · exact congrArg Slate.featureArgsOpt hbare
  · exact congrArg (fun s => s.fee.shift) hbare
  · rw [congrArg Slate.offset hbare]
    exact hoffset
  · rw [hin]
    exact List.forall_mem_map.2 fun o ho => (hopens o ho).reload
  · rw [hout]
    exact List.forall_mem_map.2 fun o ho => (hmade o ho).1.reload
  · rw [hout]
    exact List.forall_mem_map.2 fun o ho => (hmade o ho).2.1
  · rw [hout]
    exact List.forall_mem_map.2 fun o ho => (hmade o ho).2.2
  · rw [congrArg Slate.proofOpt hbare]
    exact hunsigned

/-! ### What the receiver answers -/

/-- The receiver signed the payment proof of a slate, if it has one. -/
def ProofSigned (C : Crypto) (P : PublicKey) (slate : Slate)
    (proofOpt : Option SlatePaymentProof) : Prop :=
  match slate.proofOpt with
  | none => proofOpt = none
  | some proof => ∃ signature excess, C.toCommitment P = some excess ∧
      proofOpt = some { proof with receiverSignatureOpt := some signature } ∧
      C.verifyED25519 proof.receiverAddress signature
        (paymentProofMessage slate.amount excess proof.senderAddress) = true

/-- A partial signature of a participant, and its verification. -/
structure SignedPart (S : SchnorrGroup G C F A) (x k : F) (publicKey P R : PublicKey) (m : Hash)
    (s : CompactSignature) : Prop where
  /-- The response. -/
  response : S.response s = S.nonceFactor R • k + S.challenge P R m • x
  /-- It is accepted. -/
  verifies : C.verifyPartialSignature s publicKey P R m = true

/-- What comes back from the receiver: the slate with its output, its key and its signature. -/
structure ReceivedSlate (S : SchnorrGroup G C F A) (slate : Slate) (keys keys' : SigningKeys)
    (P R : PublicKey) (x' k' : F) (output : OutputDataEntity) (receiverOffset : BlindingFactor)
    (r : Slate) : Prop where
  /-- The keys of the receiver. -/
  isKeys : S.Keys x' k' keys'
  /-- The sums. -/
  sums : S.Sums keys keys' P R
  /-- The receiver changed only its own part. -/
  slate_eq : r = { slate with
    stage := .standardReceived
    offset := r.offset
    sigs := r.sigs
    commitments := slate.commitments ++ [outputEntry output]
    proofOpt := r.proofOpt }
  /-- The participants are the receiver. -/
  sigs_eq : ∃ s, r.sigs = [⟨keys'.publicKey, keys'.publicNonce, some s⟩] ∧
    SignedPart S x' k' keys'.publicKey P R (slate.kernelMessage G) s
  /-- The offset is a scalar. -/
  validOffset : S.Valid r.offset
  /-- It is the sum of both parts. -/
  scalar_offset : S.scalar r.offset = S.scalar slate.offset + S.scalar receiverOffset
  /-- The payment proof. -/
  proofSigned : ProofSigned C P slate r.proofOpt

section Kept

variable {S : SchnorrGroup G C F A} {slate r : Slate} {keys keys' : SigningKeys} {P R : PublicKey}
  {x' k' : F} {output : OutputDataEntity} {receiverOffset : BlindingFactor}
  (h : ReceivedSlate S slate keys keys' P R x' k' output receiverOffset r)
include h

theorem ReceivedSlate.slateId_eq : r.slateId = slate.slateId := by rw [h.slate_eq]

theorem ReceivedSlate.ttl_eq : r.ttl = slate.ttl := by rw [h.slate_eq]

theorem ReceivedSlate.amount_eq : r.amount = slate.amount := by rw [h.slate_eq]

theorem ReceivedSlate.fee_eq : r.fee = slate.fee := by rw [h.slate_eq]

theorem ReceivedSlate.kernelFeatures_eq : r.kernelFeatures = slate.kernelFeatures := by
  rw [h.slate_eq]

theorem ReceivedSlate.featureArgsOpt_eq : r.featureArgsOpt = slate.featureArgsOpt := by
  rw [h.slate_eq]

end Kept

theorem SchnorrGroup.Keys.sign_ok {S : SchnorrGroup G C F A} {x k : F} {keys : SigningKeys}
    (h : S.Keys x k keys) (P R : PublicKey) (m : Hash) :
    ∃ s, GrinPlusPlus.calculatePartialSignature C keys.secretKey keys.secretNonce P R m =
        .ok (s, ⟨keys.secretNonce, P, R, m⟩) ∧ SignedPart S x k keys.publicKey P R m s := by
  obtain ⟨s, hs, hresponse, hverifies⟩ := h.sign P R m
  refine ⟨s, ?_, hresponse, hverifies⟩
  rw [GrinPlusPlus.calculatePartialSignature, hs]
  rfl

/-- **Partial signatures are accepted** if each is with the sums of all. -/
theorem SignatureUtil.verifyPartialSignatures_ok {sigs : List SlateSignature} {P R : PublicKey}
    {m : Hash} (hP : C.addPublicKeys (sigs.map SlateSignature.excess) = some P)
    (hR : C.addPublicKeys (sigs.map SlateSignature.nonce) = some R)
    (hall : ∀ sig ∈ sigs, ∀ s ∈ sig.partialOpt,
      C.verifyPartialSignature s sig.excess P R m = true) :
    verifyPartialSignatures C sigs m = .ok true := by
  rw [verifyPartialSignatures, addPublicKeys, orFail_eq_ok_iff.2 hP, Exec.ok_bind, addPublicKeys,
    orFail_eq_ok_iff.2 hR, Exec.ok_bind]
  refine congrArg Except.ok (List.all_eq_true.2 fun sig hsig => ?_)
  split
  · next s hs => exact hall sig hsig s hs
  · rfl

/-- **The receiver signs**, over the keys of both. -/
theorem ReceiveSlateBuilder.buildSignature_ok {S : SchnorrGroup G C F A} {x' k' : F}
    {keys keys' : SigningKeys} {P R : PublicKey} (hkeys' : S.Keys x' k' keys')
    (hsums : S.Sums keys keys' P R) {slate : Slate}
    (hsigs : slate.sigs = [⟨keys.publicKey, keys.publicNonce, none⟩,
      ⟨keys'.publicKey, keys'.publicNonce, none⟩]) :
    ∃ s signing, buildSignature G C slate keys' =
        .ok (⟨keys'.publicKey, keys'.publicNonce, some s⟩, signing) ∧
      SignedPart S x' k' keys'.publicKey P R (slate.kernelMessage G) s := by
  obtain ⟨s, hs, hsigned⟩ := hkeys'.sign_ok P R (slate.kernelMessage G)
  have hP : slate.calculateTotalExcess C = .ok P := by
    rw [Slate.calculateTotalExcess, hsigs]
    exact orFail_eq_ok_iff.2 hsums.addKeys
  have hR : slate.calculateTotalNonce C = .ok R := by
    rw [Slate.calculateTotalNonce, hsigs]
    exact orFail_eq_ok_iff.2 hsums.addNonces
  have hverified : SignatureUtil.verifyPartialSignatures C (slate.sigs.dropLast ++
      [⟨keys'.publicKey, keys'.publicNonce, some s⟩]) (slate.kernelMessage G) = .ok true := by
    rw [hsigs]
    refine SignatureUtil.verifyPartialSignatures_ok hsums.addKeys hsums.addNonces ?_
    rintro sig hsig p hp
    rcases List.mem_cons.1 hsig with rfl | hsig
    · cases hp
    · obtain rfl := List.mem_singleton.1 hsig
      obtain rfl := Option.some_inj.1 hp
      exact hsigned.verifies
  refine ⟨s, ⟨keys'.secretNonce, P, R, slate.kernelMessage G⟩, ?_, hsigned⟩
  rw [buildSignature, hP, Exec.ok_bind, hR, Exec.ok_bind, hs, Exec.ok_bind]
  dsimp only
  rw [hverified, Exec.ok_bind, demand, if_pos rfl, Exec.ok_bind]

/-- **The receiver signs the payment proof**, if it is for one of its addresses. -/
theorem ReceiveSlateBuilder.updatePaymentProof_ok {S : SchnorrGroup G C F A} {W : WalletImpl G}
    (hW : SoundWallet S W) (slate : Slate) {P : PublicKey} (currentIndex : ℕ)
    (hP : slate.calculateTotalExcess C = .ok P)
    (haddress : ∀ proof ∈ slate.proofOpt, W.hasTorAddress = true ∧ ∃ index ≤ currentIndex,
      (W.keyChain.deriveED25519Key index).publicKey = proof.receiverAddress) :
    ∃ proofOpt, updatePaymentProof G C W slate currentIndex =
        .ok { slate with proofOpt := proofOpt } ∧ ProofSigned C P slate proofOpt := by
  rw [updatePaymentProof]
  split
  · next hnone => exact ⟨slate.proofOpt, rfl, by rw [ProofSigned, hnone]⟩
  · next proof hproof =>
    obtain ⟨htor, index, hle, hindex⟩ := haddress proof hproof
    obtain ⟨found, hfound⟩ : ∃ found, (List.range (currentIndex + 1)).find? (fun index =>
        proof.receiverAddress = (W.keyChain.deriveED25519Key index).publicKey) = some found := by
      refine Option.isSome_iff_exists.1 (List.find?_isSome.2 ⟨index, ?_, ?_⟩)
      · exact List.mem_range.2 (Nat.lt_succ_of_le hle)
      · exact decide_eq_true hindex.symm
    have hkey := List.find?_some hfound
    rw [decide_eq_true_iff] at hkey
    obtain ⟨excess, hexcess, -⟩ := S.toCommitment P
    refine ⟨some { proof with receiverSignatureOpt := some (C.signED25519
      (W.keyChain.deriveED25519Key found).secretKey
        (paymentProofMessage slate.amount excess proof.senderAddress)) }, ?_, ?_⟩
    · rw [demand, if_pos htor, Exec.ok_bind, findAddressIndex, hfound, orFail, Exec.ok_bind, hP,
        Exec.ok_bind, toCommitment, hexcess, orFail, Exec.ok_bind]
    · rw [ProofSigned, hproof]
      refine ⟨_, excess, hexcess, rfl, ?_⟩
      rw [hkey]
      exact hW.signED25519 found _

/-- What the receiver of a slate needs: it has not answered the slate, its output is made, what it
draws are scalars, and neither its key nor its nonce nor one of the sums is zero. -/
structure Receivable (S : SchnorrGroup G C F A) (W : WalletImpl G) (db : WalletDB) (slate : Slate)
    (x k : F) (draws : ReceiveDraws) (output : OutputDataEntity) : Prop where
  /-- The receiver has not answered the slate. -/
  status : ReceiveSlateBuilder.verifySlateStatus db slate.slateId = true
  /-- The output is made … -/
  created : createBlindedOutput G W slate.amount (userPath ++ [db.nextChildIndex]) db.nextTxId =
    .ok output
  /-- … and it is new. -/
  new : output.getCommitment ∉ slate.commitments.map SlateCommitment.commitment
  /-- The part of the offset is a scalar. -/
  validOffset : S.Valid draws.receiverOffset
  /-- The nonce is a scalar. -/
  validNonce : S.Valid draws.secretNonce
  /-- The key is not zero. -/
  key_ne : S.reveal (S.scalar output.blindingFactor - S.scalar draws.receiverOffset) ≠ 0
  /-- The nonce is not zero. -/
  nonce_ne : S.reveal (S.scalar draws.secretNonce) ≠ 0
  /-- The sum of the keys is not zero. -/
  sumKeys_ne :
    S.reveal (x + (S.scalar output.blindingFactor - S.scalar draws.receiverOffset)) ≠ 0
  /-- The sum of the nonces is not zero. -/
  sumNonces_ne : S.reveal (k + S.scalar draws.secretNonce) ≠ 0
  /-- A payment proof is for an address of the receiver. -/
  address : ∀ proof ∈ slate.proofOpt, W.hasTorAddress = true ∧ ∃ index ≤ db.currentAddressIndex,
    (W.keyChain.deriveED25519Key index).publicKey = proof.receiverAddress

/-- **The receiver answers.** -/
theorem ReceiveSlateBuilder.addReceiverData_ok {S : SchnorrGroup G C F A} {W : WalletImpl G}
    (hW : SoundWallet S W) {db : WalletDB} {slate : Slate} {x k : F} {keys : SigningKeys}
    (hkeys : S.Keys x k keys)
    (hsigs : slate.sigs = [⟨keys.publicKey, keys.publicNonce, none⟩])
    (hoffset : S.Valid slate.offset) {draws : ReceiveDraws} {output : OutputDataEntity}
    (h : Receivable S W db slate x k draws output) :
    ∃ r keys' P R, addReceiverData G C W db slate draws = .ok r ∧
      ReceivedSlate S slate keys keys' P R
        (S.scalar output.blindingFactor - S.scalar draws.receiverOffset)
        (S.scalar draws.secretNonce) output draws.receiverOffset r.slate := by
  have hopens := (SchnorrGroup.of_createBlindedOutput hW h.created).1
  have hall : ∀ o ∈ [output], S.Opens o := fun o ho => (List.mem_singleton.1 ho).symm ▸ hopens
  have hblinds : S.blinds [output] - S.blinds [] - S.scalar draws.receiverOffset =
      S.scalar output.blindingFactor - S.scalar draws.receiverOffset := by
    rw [SchnorrGroup.blinds, SchnorrGroup.blinds, List.map_singleton, List.map_nil,
      List.sum_singleton, List.sum_nil, sub_zero]
  obtain ⟨keys', hcalculated⟩ := SchnorrGroup.calculateSigningKeys_ok (List.forall_mem_nil _) hall
    h.validOffset h.validNonce (hblinds.symm ▸ h.key_ne) h.nonce_ne
  have hkeys' := SchnorrGroup.of_calculateSigningKeys (List.forall_mem_nil _) hall h.validOffset
    h.validNonce hcalculated
  rw [hblinds] at hkeys'
  obtain ⟨P, R, hsums⟩ := SchnorrGroup.exists_sums hkeys hkeys' h.sumKeys_ne h.sumNonces_ne
  obtain ⟨offset, hadd, hvalid, hscalar⟩ := SchnorrGroup.addBlindingFactors_ok
    [slate.offset, draws.receiverOffset] []
    (List.forall_mem_cons.2 ⟨hoffset, List.forall_mem_singleton.2 h.validOffset⟩)
    (List.forall_mem_nil _)
  rw [List.map_cons, List.map_singleton, List.sum_cons, List.sum_singleton, List.map_nil,
    List.sum_nil, sub_zero] at hscalar
  -- The slate of both participants, and what is signed over it.
  set both : Slate := { slate with
    stage := .standardReceived
    offset := offset
    sigs := slate.sigs ++ [⟨keys'.publicKey, keys'.publicNonce, none⟩] } with hboth
  have hbothSigs : both.sigs = [⟨keys.publicKey, keys.publicNonce, none⟩,
      ⟨keys'.publicKey, keys'.publicNonce, none⟩] := by
    rw [hboth]
    dsimp only
    rw [hsigs]
    rfl
  obtain ⟨s, signing, hsignature, hsigned⟩ := buildSignature_ok hkeys' hsums hbothSigs
  have hadded : both.addOutput output.getFeatures output.getCommitment output.output.rangeProof =
      { both with commitments := slate.commitments ++ [outputEntry output] } := by
    rw [Slate.addOutput_eq, Slate.commitments_addOutput_of_new (s := both) h.new]
  obtain ⟨proofOpt, hproof, hproofSigned⟩ := updatePaymentProof_ok hW (P := P)
    { both with commitments := slate.commitments ++ [outputEntry output] } db.currentAddressIndex
    (by
      rw [Slate.calculateTotalExcess, hbothSigs]
      exact orFail_eq_ok_iff.2 hsums.addKeys) h.address
  set answer : Slate := { both with
    commitments := slate.commitments ++ [outputEntry output]
    proofOpt := proofOpt
    sigs := [⟨keys'.publicKey, keys'.publicNonce, some s⟩] }
  have hr : addReceiverData G C W db slate draws = .ok ⟨answer, signing,
      updateDatabase (db.advance (db.nextChildIndex + 1)) answer output db.nextTxId⟩ := by
    rw [addReceiverData, demand, if_pos h.status, Exec.ok_bind]
    dsimp only [WalletDB.getNextChildPath, WalletDB.getNextTransactionId]
    rw [h.created, Exec.ok_bind, hcalculated, Exec.ok_bind, hadd, Exec.ok_bind, ← hboth,
      hsignature, Exec.ok_bind]
    dsimp only
    rw [hadded, hproof, Exec.ok_bind]
    rfl
  exact ⟨_, keys', P, R, hr, hkeys', hsums, rfl, ⟨s, rfl, hsigned⟩, hvalid, hscalar, hproofSigned⟩

/-! ### What the sender makes of it -/

namespace FinalizeSlateBuilder

variable {S : SchnorrGroup G C F A} {db : WalletDB} {slate r : Slate}
  {context : SlateContextEntity} {keys keys' : SigningKeys} {P R : PublicKey} {x' k' : F}
  {output : OutputDataEntity} {receiverOffset : BlindingFactor}

/-- What the response spends and creates. -/
theorem commitments_of_received (hsent : SentSlate S db slate context keys)
    (h : ReceivedSlate S slate keys keys' P R x' k' output receiverOffset r) :
    r.commitments = context.inputs.map inputEntry ++
      (context.outputs ++ [output]).map outputEntry := by
  rw [h.slate_eq]
  dsimp only
  rw [hsent.commitments_eq, List.map_append, List.map_singleton, List.append_assoc]

/-- **The sender has nothing to add**: the response has its coins and its change already. -/
theorem completeSlate_eq (hsent : SentSlate S db slate context keys)
    (h : ReceivedSlate S slate keys keys' P R x' k' output receiverOffset r)
    (hnodup : ((context.inputs ++ (context.outputs ++ [output])).map
      OutputDataEntity.getCommitment).Nodup) :
    completeSlate r slate context r.offset = { r with stage := .standardFinalized } := by
  have hentries := commitments_of_received hsent h
  have hkeys : r.commitments.map SlateCommitment.commitment =
      (context.inputs ++ (context.outputs ++ [output])).map OutputDataEntity.getCommitment := by
    rw [hentries, List.map_append, List.map_map, List.map_map]
    exact List.map_append.symm
  have hcoins : (completeSlate r slate context r.offset).commitments = r.commitments := by
    refine commitments_addCoins_of_mem (fun i hi => ?_) fun o ho => ⟨?_, fun com hcom heq => ?_⟩
    · rw [hkeys]
      exact List.mem_map_of_mem (List.mem_append_left _ hi)
    · rw [hkeys]
      exact List.mem_map_of_mem (List.mem_append_right _ (List.mem_append_left _ ho))
    · -- An entry with the commitment of an output is that of no coin.
      rw [List.map_append, List.nodup_append'] at hnodup
      rw [hentries, List.mem_append] at hcom
      rcases hcom with hcom | hcom
      · obtain ⟨i, hi, rfl⟩ := List.mem_map.1 hcom
        have hcreated : o.getCommitment ∈
            (context.outputs ++ [output]).map OutputDataEntity.getCommitment :=
          List.mem_map_of_mem (List.mem_append_left _ ho)
        rw [← heq] at hcreated
        exact absurd hcreated fun hmem => hnodup.2.2 (List.mem_map_of_mem hi) hmem
      · obtain ⟨p, -, rfl⟩ := List.mem_map.1 hcom
        exact Option.some_ne_none _
  refine (addCoins_eq _ _ _).trans ?_
  rw [← completeSlate, hcoins]
  dsimp only
  rw [← h.amount_eq, ← h.fee_eq, ← h.kernelFeatures_eq, ← h.featureArgsOpt_eq, ← h.ttl_eq]

/-- **The sender signs as well.** -/
theorem addPartialSignature_ok (hsent : SentSlate S db slate context keys)
    (h : ReceivedSlate S slate keys keys' P R x' k' output receiverOffset r)
    (hne : keys.publicKey ≠ keys'.publicKey) :
    ∃ s s' signing, addPartialSignature C context { r with stage := .standardFinalized }
        (slate.kernelMessage G) = .ok ({ r with
          stage := .standardFinalized
          sigs := [⟨keys'.publicKey, keys'.publicNonce, some s'⟩,
            ⟨keys.publicKey, keys.publicNonce, some s⟩] }, signing) ∧
      SignedPart S x' k' keys'.publicKey P R (slate.kernelMessage G) s' ∧
      SignedPart S (S.blinds context.outputs - S.blinds context.inputs - S.scalar slate.offset)
        (S.scalar context.secretNonce) keys.publicKey P R (slate.kernelMessage G) s := by
  obtain ⟨s', hsigs, hsigned'⟩ := h.sigs_eq
  obtain ⟨s, hs, hsigned⟩ := hsent.isKeys.sign_ok P R (slate.kernelMessage G)
  have hkey : calculatePublicKey C context.secretKey = .ok keys.publicKey := by
    rw [hsent.secretKey_eq]
    exact orFail_eq_ok_iff.2 hsent.isKeys.publicKey
  have hnonce : calculatePublicKey C context.secretNonce = .ok keys.publicNonce := by
    rw [hsent.secretNonce_eq]
    exact orFail_eq_ok_iff.2 hsent.isKeys.publicNonce
  have hadd : addParticipant C context keys.publicKey r.sigs =
      .ok [⟨keys'.publicKey, keys'.publicNonce, some s'⟩,
        ⟨keys.publicKey, keys.publicNonce, none⟩] := by
    have hnew : keys.publicKey ∉
        [(⟨keys'.publicKey, keys'.publicNonce, some s'⟩ : SlateSignature)].map
          SlateSignature.excess := fun hmem => hne (List.mem_singleton.1 hmem)
    rw [hsigs, addParticipant, if_neg hnew, hnonce]
    rfl
  have hset : setPartial keys.publicKey s [⟨keys'.publicKey, keys'.publicNonce, some s'⟩,
      ⟨keys.publicKey, keys.publicNonce, none⟩] =
      [⟨keys'.publicKey, keys'.publicNonce, some s'⟩,
        ⟨keys.publicKey, keys.publicNonce, some s⟩] := by
    rw [setPartial, if_neg hne.symm, setPartial, if_pos rfl]
  have hsums := h.sums.symm
  have hverified : SignatureUtil.verifyPartialSignatures C
      [⟨keys'.publicKey, keys'.publicNonce, some s'⟩, ⟨keys.publicKey, keys.publicNonce, some s⟩]
      (slate.kernelMessage G) = .ok true := by
    refine SignatureUtil.verifyPartialSignatures_ok hsums.addKeys hsums.addNonces ?_
    rintro sig hsig p hp
    rcases List.mem_cons.1 hsig with rfl | hsig
    · obtain rfl := Option.some_inj.1 hp
      exact hsigned'.verifies
    · obtain rfl := List.mem_singleton.1 hsig
      obtain rfl := Option.some_inj.1 hp
      exact hsigned.verifies
  set both : Slate := { r with
    stage := .standardFinalized
    sigs := [⟨keys'.publicKey, keys'.publicNonce, some s'⟩,
      ⟨keys.publicKey, keys.publicNonce, none⟩] } with hboth
  have hP : both.calculateTotalExcess C = .ok P := orFail_eq_ok_iff.2 hsums.addKeys
  have hR : both.calculateTotalNonce C = .ok R := orFail_eq_ok_iff.2 hsums.addNonces
  refine ⟨s, s', ⟨keys.secretNonce, P, R, slate.kernelMessage G⟩, ?_, hsigned', hsigned⟩
  rw [addPartialSignature, hkey, Exec.ok_bind, hadd, Exec.ok_bind, ← hboth]
  dsimp only
  rw [hP, Exec.ok_bind, hR, Exec.ok_bind, hsent.secretKey_eq, hsent.secretNonce_eq, hs,
    Exec.ok_bind]
  dsimp only
  rw [hset, hverified, Exec.ok_bind, demand, if_pos rfl, Exec.ok_bind]

/-- The payment proof is the one that was asked for. -/
theorem verifyPaymentProofs_ok {walletTx : WalletTx} {final : Slate} {excess : Commitment}
    (htx : walletTx.paymentProofOpt = slate.proofOpt) (hamount : final.amount = slate.amount)
    (hexcess : C.toCommitment P = some excess) (h : ProofSigned C P slate final.proofOpt) :
    verifyPaymentProofs C walletTx final excess = true := by
  rw [verifyPaymentProofs, htx]
  rw [ProofSigned] at h
  split
  · rfl
  · next proof hproof =>
    rw [hproof] at h
    obtain ⟨signature, excess', hexcess', hfinal, hverified⟩ := h
    obtain rfl : excess' = excess := Option.some_inj.1 (hexcess'.symm.trans hexcess)
    rw [hfinal]
    dsimp only
    rw [decide_eq_true rfl, decide_eq_true rfl, hamount, hverified]
    rfl

/-- The kernel of a finalized slate. -/
def finalKernel (slate : Slate) (excess : Commitment) (signature : Signature) :
    TransactionKernel :=
  ⟨slate.kernelFeatures, slate.fee.reload, slate.getLockHeight, excess, signature⟩

/-- What a slate needs to become a transaction: its coins and outputs are different, they balance,
and the fee can be written. -/
structure Balances (S : SchnorrGroup G C F A) (final : Slate)
    (inputs outputs : List OutputDataEntity) (P : PublicKey) : Prop where
  /-- The entries. -/
  entries : final.commitments = inputs.map inputEntry ++ outputs.map outputEntry
  /-- They are different. -/
  nodup : ((inputs ++ outputs).map OutputDataEntity.getCommitment).Nodup
  /-- The outputs are no rewards … -/
  default : ∀ o ∈ outputs, o.getFeatures = .default
  /-- … and their range proofs are accepted. -/
  proved : ∀ o ∈ outputs, G.verifyRangeProofs [(o.getCommitment, o.output.rangeProof)] = true
  /-- The kernel is plain. -/
  kernel : final.kernelFeatures = .defaultKernel
  /-- The fee can be written. -/
  fee : final.fee.reload.toRaw = final.fee
  /-- The offset is a scalar. -/
  validOffset : S.Valid final.offset
  /-- It is not empty. -/
  offset_ne : final.offset.isNull = false
  /-- What is spent is what is created, the fee and the excess. -/
  balance : S.sum (outputs.map OutputDataEntity.getCommitment) + final.fee.fee.toNat • S.base -
      S.sum (inputs.map OutputDataEntity.getCommitment) =
    S.point P + S.reveal (S.scalar final.offset)

/-- **A slate that balances and that both signed becomes a valid transaction.** -/
theorem buildTransaction_ok (hG : G.InjectiveOnBytes) {W : WalletImpl G} {final : Slate}
    {inputs outputs : List OutputDataEntity} (hbalances : Balances S final inputs outputs P)
    {x k : F} (hkeys : S.Keys x k keys) (hkeys' : S.Keys x' k' keys')
    (hsums : S.Sums keys keys' P R) {s s' : CompactSignature}
    (hs : SignedPart S x k keys.publicKey P R (final.kernelMessage G) s)
    (hs' : SignedPart S x' k' keys'.publicKey P R (final.kernelMessage G) s')
    (hsigs : final.sigs = [⟨keys.publicKey, keys.publicNonce, some s⟩,
      ⟨keys'.publicKey, keys'.publicNonce, some s'⟩]) (chainHeight : UInt64)
    (hweight : plainWeight G.env (chainHeight + 1).toNat inputs.length outputs.length +
      (Consensus.outputWeight + Consensus.kernelWeight) ≤ Consensus.maxBlockWeight)
    {excess : Commitment} (hexcess : C.toCommitment P = some excess)
    (hval : S.val excess = S.point P) :
    ∃ signature, buildTransaction G C W final (final.kernelMessage G) excess chainHeight =
        .ok (some (GrinPlusPlus.buildTransaction G W final.getInputs final.getOutputs
          (finalKernel final excess signature) final.offset)) ∧
      C.verifyAggregateSignature signature P
        ((finalKernel final excess signature).getSignatureMessage G) = true ∧
      TransactionValidator.validate G (GrinPlusPlus.buildTransaction G W final.getInputs
        final.getOutputs (finalKernel final excess signature) final.offset)
          (chainHeight + 1).toNat = .ok () := by
  have hP : S.point P = S.reveal x + S.reveal x' := by
    rw [hsums.point_key, hkeys.point_key.1, hkeys'.point_key.1]
  have hR : S.point R = S.reveal k + S.reveal k' := by
    rw [hsums.point_nonce, hkeys.point_nonce.1, hkeys'.point_nonce.1]
  obtain ⟨signature, haggregate, hverified⟩ :=
    SchnorrGroup.aggregate_ok hP hR hs.response hs'.response
  -- The message of the kernel is the one that was signed.
  have hmessage : (finalKernel final excess signature).getSignatureMessage G =
      final.kernelMessage G := by
    rw [Slate.kernelMessage, ← hbalances.fee]
    rfl
  have hbatch : TxBodyValidator.batchVerify G [finalKernel final excess signature] = true := by
    refine S.verifyKernelSignatures _ ?_
    intro t ht
    obtain rfl := List.mem_singleton.1 ht
    refine ⟨P, hexcess, ?_⟩
    dsimp only
    rw [hmessage]
    exact hverified
  have hin := getInputs_of_entries hbalances.entries
  have hout := getOutputs_of_entries hbalances.entries
  have hvalid : TransactionValidator.validate G (GrinPlusPlus.buildTransaction G W final.getInputs
      final.getOutputs (finalKernel final excess signature) final.offset)
        (chainHeight + 1).toNat = .ok () := by
    refine TransactionValidator.validate_buildTransaction hG S W ?_ ?_ ?_ hbatch ?_ ?_
      hbalances.validOffset hbalances.offset_ne ?_
    · refine TransactionValidator.validateWeight_of_plainWeight ?_
      rwa [hin, hout, List.length_map, List.length_map]
    · rw [hin, hout, List.map_map, List.map_map]
      have hnodup := hbalances.nodup
      rwa [List.map_append] at hnodup
    · rw [hout]
      exact List.forall_mem_map.2 hbalances.proved
    · rw [hout]
      refine List.forall_mem_map.2 fun o ho => ?_
      rw [show o.output.features = .default from hbalances.default o ho]
      rfl
    · change final.kernelFeatures.isCoinbase = false
      rw [hbalances.kernel]
      decide
    · have hbalance := hbalances.balance
      rw [← hval, ← hbalances.fee] at hbalance
      rw [hin, hout, List.map_map, List.map_map]
      exact hbalance
  refine ⟨signature, ?_, hmessage.symm ▸ hverified, hvalid⟩
  have hnonce : final.calculateTotalNonce C = .ok R := by
    rw [Slate.calculateTotalNonce, hsigs]
    exact orFail_eq_ok_iff.2 hsums.addNonces
  have hkey : final.calculateTotalExcess C = .ok P := by
    rw [Slate.calculateTotalExcess, hsigs]
    exact orFail_eq_ok_iff.2 hsums.addKeys
  have hsignature : SignatureUtil.aggregateSignatures C final = .ok signature := by
    rw [SignatureUtil.aggregateSignatures, hnonce, Exec.ok_bind, hsigs]
    exact orFail_eq_ok_iff.2 haggregate
  rw [buildTransaction, hsignature, Exec.ok_bind, hkey, Exec.ok_bind]
  dsimp only
  rw [if_neg (by rw [hverified]; exact Bool.false_ne_true.symm), if_neg (by
    rw [← finalKernel, hbatch]; exact Bool.false_ne_true.symm), ← finalKernel, hvalid]

/-- **What is spent is what is created**, with the output of the receiver. -/
theorem sum_add_fee_sub_sum (hsent : SentSlate S db slate context keys)
    (h : ReceivedSlate S slate keys keys' P R
      (S.scalar output.blindingFactor - S.scalar receiverOffset) k' output receiverOffset r)
    (hopens : S.Opens output) (hamount : output.amount = slate.amount)
    (hbalance : coinValue context.inputs =
      slate.amount.toNat + slate.fee.fee.toNat + coinValue context.outputs) :
    S.sum ((context.outputs ++ [output]).map OutputDataEntity.getCommitment) +
        slate.fee.fee.toNat • S.base -
        S.sum (context.inputs.map OutputDataEntity.getCommitment) =
      S.point P + S.reveal (S.scalar r.offset) := by
  rw [List.map_append, S.sum_append, List.map_singleton, S.sum_cons, S.sum_nil, hopens.val_eq,
    SchnorrGroup.sum_commitments hsent.opensInputs,
    SchnorrGroup.sum_commitments hsent.opensOutputs, hbalance, hamount, h.sums.point_key,
    hsent.isKeys.point_key.1, h.isKeys.point_key.1, h.scalar_offset]
  simp only [map_sub, map_add, add_smul]
  abel

/-- **The sender finalizes.** -/
theorem finalize_ok (hG : G.InjectiveOnBytes) {W : WalletImpl G}
    (hsent : SentSlate S db slate context keys)
    (h : ReceivedSlate S slate keys keys' P R
      (S.scalar output.blindingFactor - S.scalar receiverOffset) k' output receiverOffset r)
    (hne : keys.publicKey ≠ keys'.publicKey)
    (hnodup : ((context.inputs ++ (context.outputs ++ [output])).map
      OutputDataEntity.getCommitment).Nodup)
    (hopens : S.Opens output) (hamount : output.amount = slate.amount)
    (hdefault : output.getFeatures = .default)
    (hproved : G.verifyRangeProofs [(output.getCommitment, output.output.rangeProof)] = true)
    (hoffset : S.scalar slate.offset + S.scalar receiverOffset ≠ 0)
    (hfee : slate.fee.fee.toNat < 2 ^ 40)
    (hbalance : coinValue context.inputs =
      slate.amount.toNat + slate.fee.fee.toNat + coinValue context.outputs)
    {chainHeight : UInt64}
    (hweight : plainWeight G.env (chainHeight + 1).toNat context.inputs.length
      (context.outputs.length + 1) + (Consensus.outputWeight + Consensus.kernelWeight) ≤
        Consensus.maxBlockWeight) :
    ∃ f excess signature, finalize G C W db r chainHeight = .ok f ∧
      f.transaction = GrinPlusPlus.buildTransaction G W
        (context.inputs.map fun i => ⟨i.getFeatures, i.getCommitment⟩)
        ((context.outputs ++ [output]).map OutputDataEntity.output)
        (finalKernel slate excess signature) r.offset ∧
      C.toCommitment P = some excess ∧ S.val excess = S.point P ∧
      C.verifyAggregateSignature signature P
        ((finalKernel slate excess signature).getSignatureMessage G) = true ∧
      TransactionValidator.validate G f.transaction (chainHeight + 1).toNat = .ok () := by
  obtain ⟨walletTx, htx, hproofOpt⟩ := hsent.findTx
  obtain ⟨s, s', signing, hpartial, hsigned', hsigned⟩ := addPartialSignature_ok hsent h hne
  obtain ⟨excess, hexcess, hval⟩ := S.toCommitment P
  have hnull : r.offset.isNull = false := by
    refine Bool.eq_false_iff.2 fun hnull => hoffset ?_
    rw [← h.scalar_offset]
    exact S.scalar_of_isNull _ hnull
  -- Adding the coins again changes nothing, so both signed the message that is verified.
  have hcompleted := completeSlate_eq hsent h hnodup
  have hmessage : (completeSlate r slate context r.offset).kernelMessage G =
      slate.kernelMessage G := by
    rw [hcompleted, Slate.kernelMessage, Slate.kernelMessage, Slate.getLockHeight,
      Slate.getLockHeight]
    dsimp only
    rw [h.fee_eq, h.kernelFeatures_eq, h.featureArgsOpt_eq]
  set final : Slate := { r with
    stage := .standardFinalized
    sigs := [⟨keys'.publicKey, keys'.publicNonce, some s'⟩,
      ⟨keys.publicKey, keys.publicNonce, some s⟩] } with hfinal
  have hfinalMessage : final.kernelMessage G = slate.kernelMessage G := by
    rw [← hmessage, hcompleted]
    rfl
  have hfinalFee : final.fee = slate.fee := h.fee_eq
  -- The receiver's output is worth the amount, by which the coins exceed the change and the fee.
  have hbalances : Balances S final context.inputs (context.outputs ++ [output]) P := by
    constructor
    · exact (commitments_of_received hsent h :)
    · exact hnodup
    · exact List.forall_mem_append.2 ⟨hsent.defaultOutputs, List.forall_mem_singleton.2 hdefault⟩
    · exact List.forall_mem_append.2 ⟨hsent.provedOutputs, List.forall_mem_singleton.2 hproved⟩
    · exact h.kernelFeatures_eq.trans hsent.kernelFeatures
    · rw [hfinalFee]
      exact Slate.reload_toRaw (hsent.shift_eq.symm ▸ by decide) hfee
    · exact h.validOffset
    · exact hnull
    · rw [hfinalFee]
      exact (sum_add_fee_sub_sum hsent h hopens hamount hbalance :)
  obtain ⟨signature, hbuild, hverified, hvalid⟩ := buildTransaction_ok hG (W := W) hbalances
    h.isKeys hsent.isKeys h.sums.symm (hfinalMessage.symm ▸ hsigned')
    (hfinalMessage.symm ▸ hsigned) rfl chainHeight
    (by rwa [List.length_append, List.length_singleton]) hexcess hval
  have hkernel : finalKernel final excess signature = finalKernel slate excess signature := by
    rw [finalKernel, finalKernel, Slate.getLockHeight, Slate.getLockHeight]
    rw [hfinalFee, show final.kernelFeatures = _ from h.kernelFeatures_eq,
      show final.featureArgsOpt = _ from h.featureArgsOpt_eq]
  rw [hkernel, getInputs_of_entries hbalances.entries, getOutputs_of_entries hbalances.entries]
    at hbuild hvalid
  rw [hkernel] at hverified
  have hoffsetOk : finalOffset r walletTx = .ok r.offset := by
    rw [finalOffset, hnull, if_neg Bool.false_ne_true]
  have hkey : final.calculateTotalExcess C = .ok P := orFail_eq_ok_iff.2 h.sums.symm.addKeys
  have hproof : verifyPaymentProofs C walletTx final excess = true :=
    verifyPaymentProofs_ok hproofOpt h.amount_eq hexcess h.proofSigned
  have hcommitment : toCommitment C P = .ok excess := orFail_eq_ok_iff.2 hexcess
  set transaction := GrinPlusPlus.buildTransaction G W
    (context.inputs.map fun i => ⟨i.getFeatures, i.getCommitment⟩)
    ((context.outputs ++ [output]).map OutputDataEntity.output)
    (finalKernel slate excess signature) r.offset
  have hbuilt : buildTransaction G C W final (slate.kernelMessage G) excess chainHeight =
      .ok (some transaction) := hfinalMessage ▸ hbuild
  refine ⟨⟨⟨final, signing, updateDatabase db
    ((walletTx.setType .sendingFinalized).setTransaction transaction) final⟩, transaction⟩,
    excess, signature, ?_, rfl, hexcess, hval, hverified, hvalid⟩
  -- The calls of `Finalize`, in their order.
  rw [finalize, h.slateId_eq, hsent.loadSlate, orFail, Exec.ok_bind, htx, orFail, Exec.ok_bind,
    hsent.loadContext, orFail, Exec.ok_bind, hoffsetOk, Exec.ok_bind]
  dsimp only
  rw [hmessage, hcompleted, hpartial, Exec.ok_bind]
  dsimp only
  rw [hkey, Exec.ok_bind, hcommitment, Exec.ok_bind, demand, if_pos hproof, Exec.ok_bind, hbuilt,
    Exec.ok_bind, orFail, Exec.ok_bind]

end FinalizeSlateBuilder

/-! ### The payment -/

/-- **A payment was made**: the transaction spends the coins of the sender, creates its change and
the output of the receiver, and has one kernel, with the features and the fee that the sender
chose. The kernel is signed, and the transaction balances. -/
structure Pays (S : SchnorrGroup G C F A) (slate : Slate) (context : SlateContextEntity)
    (output : OutputDataEntity) (transaction : Transaction) (kernel : TransactionKernel) :
    Prop where
  /-- The inputs are the coins. -/
  inputs : transaction.body.inputs.Perm
    (context.inputs.map fun i => ⟨i.getFeatures, i.getCommitment⟩)
  /-- The outputs are the change and the output of the receiver … -/
  outputs : transaction.body.outputs.Perm
    ((context.outputs ++ [output]).map OutputDataEntity.output)
  /-- … which is worth the amount. -/
  amount_eq : output.amount = slate.amount
  /-- There is one kernel. -/
  kernels_eq : transaction.body.kernels = [kernel]
  /-- It has the features of the slate … -/
  features_eq : kernel.features = slate.kernelFeatures
  /-- … and its fee. -/
  fee_eq : kernel.fee.toRaw = slate.fee
  /-- The signature is accepted for the excess. -/
  signed : ∃ P, C.toCommitment P = some kernel.excessCommitment ∧
    C.verifyAggregateSignature kernel.excessSignature P (kernel.getSignatureMessage G) = true
  /-- The outputs and the fee, less the inputs, are the excess and the offset. -/
  balance : S.sum (transaction.body.outputs.map TransactionOutput.commitment) +
      kernel.fee.fee.toNat • S.base -
      S.sum (transaction.body.inputs.map TransactionInput.commitment) =
    S.val kernel.excessCommitment + S.reveal (S.scalar transaction.offset)

end Payments

/-! ### A payment of the small wallets -/

namespace SmallNet

open BlockSums

/-- 1000 are sent, to the first address of the receiver. -/
def paymentCriteria : SendCriteria :=
  { sendCriteria 1000 .smallest with addressOpt := some (scalar 2000) }

theorem isSome_sendFromCoin : (sendFromCoin paymentCriteria).toOption.isSome = true := by
  decide +kernel

/-- The slate that is sent, and the database of the sender behind it. -/
def paymentSent : Slate × WalletDB :=
  (sendFromCoin paymentCriteria).toOption.get isSome_sendFromCoin

theorem isSome_loadSlateContext :
    (paymentSent.2.loadSlateContext paymentSent.1.slateId).isSome = true := by
  decide +kernel

/-- What the sender keeps to itself. -/
def paymentContext : SlateContextEntity :=
  (paymentSent.2.loadSlateContext paymentSent.1.slateId).get isSome_loadSlateContext

/-- The output of the receiver. -/
def paymentOutput : OutputDataEntity where
  keyChainPath := userPath ++ [0]
  blindingFactor := scalar 2000
  output := ⟨.default, commit 1000 (scalar 2000), rangeProof⟩
  amount := 1000
  status := .noConfirmations
  mmrIndexOpt := none
  blockHeightOpt := none
  walletTxIdOpt := some 0

/-- What the receiver draws. -/
def paymentDraws : ReceiveDraws := ⟨scalar 60, scalar 3⟩

/-- What a number that is not too large makes public is not zero. -/
theorem reveal_natCast_ne {n : ℕ} (hpos : 0 < n) (hlt : n < order) :
    reveal (n : ZMod order) ≠ 0 := by
  rw [reveal_natCast, Ne, ZMod.natCast_eq_zero_iff, modulus_eq]
  exact Nat.not_dvd_of_pos_of_lt (Nat.mul_pos (by decide) hpos)
    (Nat.mul_lt_mul_of_pos_left hlt (by decide))

theorem cast_number_scalar (n : ℕ) : (number (scalar n) : ZMod order) = n := by
  rw [number_scalar, cast_mod_order]

/-- The secret key of the sender. -/
theorem blinds_paymentContext :
    smallSchnorr.blinds paymentContext.outputs - smallSchnorr.blinds paymentContext.inputs -
      smallSchnorr.scalar (sendDraws 1 2).transactionOffset = ((43 : ℕ) : ZMod order) := by
  have hout : paymentContext.outputs.map OutputDataEntity.blindingFactor = [scalar 100] := by
    decide +kernel
  have hin : paymentContext.inputs.map OutputDataEntity.blindingFactor = [scalar 7] := by
    decide +kernel
  have hblinds : ∀ outputs : List OutputDataEntity, smallSchnorr.blinds outputs =
      ((outputs.map OutputDataEntity.blindingFactor).map
        fun b => (number b : ZMod order)).sum := by
    intro outputs
    rw [List.map_map]
    rfl
  rw [hblinds, hblinds, hout, hin]
  change ([scalar 100].map fun b => (number b : ZMod order)).sum -
    ([scalar 7].map fun b => (number b : ZMod order)).sum - (number (scalar 50) : ZMod order) = _
  rw [List.map_singleton, List.map_singleton, List.sum_singleton, List.sum_singleton,
    cast_number_scalar, cast_number_scalar, cast_number_scalar]
  norm_num

end SmallNet

end GrinPlusPlus
