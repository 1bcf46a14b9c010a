import GrinPlusPlus.Lib.Exec
import GrinPlusPlus.Wallet.SlateBuilder

/-!
# What the slate builders did when they returned

One theorem for each builder, in the direction in which the rest of the development uses it: from
a result, the values that were read and computed on the way, and the database as a sequence of
writes (`GrinPlusPlus.SendSlateBuilder.build_eq_ok`,
`GrinPlusPlus.ReceiveSlateBuilder.addReceiverData_eq_ok`,
`GrinPlusPlus.FinalizeSlateBuilder.finalize_eq_ok`). No other proof looks into a builder.

Before them stands what the loops over a slate do to the commitments it spends and creates.
-/

namespace GrinPlusPlus

variable {G : Global} {C : Crypto} {W : WalletImpl G}

/-! ### What a slate spends and creates -/

namespace Slate

/-- A slate has a commitment as an input. -/
def Spends (s : Slate) (c : Commitment) : Prop :=
  ∃ com ∈ s.commitments, com.commitment = c ∧ com.proofOpt = none

/-- A slate has a commitment as an output. -/
def Creates (s : Slate) (c : Commitment) : Prop :=
  ∃ com ∈ s.commitments, com.commitment = c ∧ com.proofOpt ≠ none

theorem mem_getInputs_iff (s : Slate) (c : Commitment) :
    c ∈ s.getInputs.map TransactionInput.commitment ↔ s.Spends c := by
  rw [getInputs, Spends, List.mem_map]
  constructor
  · rintro ⟨i, hi, rfl⟩
    rw [List.mem_filterMap] at hi
    obtain ⟨com, hcom, hi⟩ := hi
    split at hi
    · next hnone =>
      cases hi
      exact ⟨com, hcom, rfl, by simpa using hnone⟩
    · cases hi
  · rintro ⟨com, hcom, rfl, hnone⟩
    refine ⟨⟨com.features, com.commitment⟩, List.mem_filterMap.mpr ⟨com, hcom, ?_⟩, rfl⟩
    rw [hnone]
    rfl

theorem mem_getOutputs_iff (s : Slate) (c : Commitment) :
    c ∈ s.getOutputs.map TransactionOutput.commitment ↔ s.Creates c := by
  rw [getOutputs, Creates, List.mem_map]
  constructor
  · rintro ⟨o, ho, rfl⟩
    rw [List.mem_filterMap] at ho
    obtain ⟨com, hcom, ho⟩ := ho
    rw [Option.map_eq_some_iff] at ho
    obtain ⟨proof, hproof, rfl⟩ := ho
    exact ⟨com, hcom, rfl, by simp [hproof]⟩
  · rintro ⟨com, hcom, rfl, hsome⟩
    obtain ⟨proof, hproof⟩ := Option.ne_none_iff_exists'.mp hsome
    refine ⟨⟨com.features, com.commitment, proof⟩, List.mem_filterMap.mpr ⟨com, hcom, ?_⟩, rfl⟩
    rw [hproof]
    rfl

/-- A commitment of a slate is spent or created. -/
theorem mem_commitments_iff (s : Slate) (c : Commitment) :
    c ∈ s.commitments.map SlateCommitment.commitment ↔ s.Spends c ∨ s.Creates c := by
  rw [List.mem_map]
  constructor
  · rintro ⟨com, hcom, rfl⟩
    by_cases hproof : com.proofOpt = none
    · exact .inl ⟨com, hcom, rfl, hproof⟩
    · exact .inr ⟨com, hcom, rfl, hproof⟩
  · rintro (⟨com, hcom, hc, -⟩ | ⟨com, hcom, hc, -⟩)
    · exact ⟨com, hcom, hc⟩
    · exact ⟨com, hcom, hc⟩

/-! ### Everything but the commitments -/

/-- A slate without its commitments. -/
def bare (s : Slate) : Slate := { s with commitments := [] }

theorem eq_of_bare_eq {s t : Slate} (h : s.bare = t.bare) :
    s = { t with commitments := s.commitments } := by
  cases s
  cases t
  simp only [bare, Slate.mk.injEq] at h ⊢
  simp [h]

@[simp] theorem bare_addInput (s : Slate) (features : OutputFeatures) (c : Commitment) :
    (s.addInput features c).bare = s.bare := by
  rw [addInput]
  split <;> rfl

@[simp] theorem bare_addOutput (s : Slate) (features : OutputFeatures) (c : Commitment)
    (proof : RangeProof) : (s.addOutput features c proof).bare = s.bare := by
  rw [addOutput]
  split <;> rfl

theorem addOutput_eq (s : Slate) (features : OutputFeatures) (c : Commitment)
    (proof : RangeProof) : s.addOutput features c proof =
      { s with commitments := (s.addOutput features c proof).commitments } :=
  eq_of_bare_eq (bare_addOutput s features c proof)

/-- What is added depends on the commitments only. -/
theorem commitments_addInput {s t : Slate} (h : s.commitments = t.commitments)
    (features : OutputFeatures) (c : Commitment) :
    (s.addInput features c).commitments = (t.addInput features c).commitments := by
  unfold addInput
  rw [h]
  split
  · exact h
  · rfl

theorem commitments_addOutput {s t : Slate} (h : s.commitments = t.commitments)
    (features : OutputFeatures) (c : Commitment) (proof : RangeProof) :
    (s.addOutput features c proof).commitments = (t.addOutput features c proof).commitments := by
  unfold addOutput
  rw [h]
  split <;> rfl

/-! ### Adding an input -/

theorem spends_addInput_iff (s : Slate) (features : OutputFeatures) (c d : Commitment) :
    (s.addInput features c).Spends d ↔ s.Spends d ∨ (d = c ∧ ¬s.Creates c) := by
  rw [addInput]
  split
  · next hmem =>
    refine ⟨.inl, ?_⟩
    rintro (h | ⟨rfl, hnot⟩)
    · exact h
    · exact ((s.mem_commitments_iff d).mp hmem).resolve_right hnot
  · next hnew =>
    rw [s.mem_commitments_iff, not_or] at hnew
    simp only [Spends, List.mem_append, List.mem_singleton]
    constructor
    · rintro ⟨com, hcom | rfl, hc, hproof⟩
      · exact .inl ⟨com, hcom, hc, hproof⟩
      · exact .inr ⟨hc.symm, hnew.2⟩
    · rintro (⟨com, hcom, hc, hproof⟩ | ⟨rfl, -⟩)
      · exact ⟨com, .inl hcom, hc, hproof⟩
      · exact ⟨_, .inr rfl, rfl, rfl⟩

theorem creates_addInput_iff (s : Slate) (features : OutputFeatures) (c d : Commitment) :
    (s.addInput features c).Creates d ↔ s.Creates d := by
  rw [addInput]
  split
  · exact Iff.rfl
  · simp only [Creates, List.mem_append, List.mem_singleton]
    constructor
    · rintro ⟨com, hcom | rfl, hc, hproof⟩
      · exact ⟨com, hcom, hc, hproof⟩
      · exact absurd rfl hproof
    · rintro ⟨com, hcom, hc, hproof⟩
      exact ⟨com, .inl hcom, hc, hproof⟩

/-! ### Adding an output -/

/-- An entry of the list with the proof attached is one of the list, or the one that got the
proof. -/
theorem mem_attachProof {c : Commitment} {proof : RangeProof} {coms : List SlateCommitment}
    {com : SlateCommitment} (h : com ∈ attachProof c proof coms) :
    com ∈ coms ∨ (com.commitment = c ∧ com.proofOpt ≠ none) := by
  induction coms with
  | nil => cases h
  | cons head coms ih =>
    rw [attachProof] at h
    split at h
    · next hc =>
      rcases List.mem_cons.mp h with rfl | h
      · right
        split
        · exact ⟨hc, by simp⟩
        · next hproof => exact ⟨hc, by simpa using hproof⟩
      · exact .inl (List.mem_cons_of_mem _ h)
    · rcases List.mem_cons.mp h with rfl | h
      · exact .inl (List.mem_cons_self ..)
      · exact (ih h).imp_left (List.mem_cons_of_mem _)

/-- An entry with a proof, or of another commitment, stays. -/
theorem mem_attachProof_of_mem {c : Commitment} {proof : RangeProof}
    {coms : List SlateCommitment} {com : SlateCommitment} (h : com ∈ coms)
    (hkeep : com.commitment ≠ c ∨ com.proofOpt ≠ none) : com ∈ attachProof c proof coms := by
  induction coms with
  | nil => cases h
  | cons head coms ih =>
    rw [attachProof]
    rcases List.mem_cons.mp h with rfl | h
    · split
      · next hc =>
        have hproof := hkeep.resolve_left (not_not.mpr hc)
        rw [if_neg (by simpa using hproof)]
        exact List.mem_cons_self ..
      · exact List.mem_cons_self ..
    · split
      · exact List.mem_cons_of_mem _ h
      · exact List.mem_cons_of_mem _ (ih h)

/-- The commitment to which a proof is attached is created. -/
theorem exists_mem_attachProof {c : Commitment} {proof : RangeProof}
    {coms : List SlateCommitment} (h : c ∈ coms.map SlateCommitment.commitment) :
    ∃ com ∈ attachProof c proof coms, com.commitment = c ∧ com.proofOpt ≠ none := by
  induction coms with
  | nil => cases h
  | cons head coms ih =>
    rw [attachProof]
    split
    · next hc =>
      refine ⟨_, List.mem_cons_self .., ?_⟩
      split
      · exact ⟨hc, by simp⟩
      · next hproof => exact ⟨hc, by simpa using hproof⟩
    · next hc =>
      rw [List.map_cons, List.mem_cons] at h
      obtain ⟨com, hcom, hrest⟩ := ih (h.resolve_left (Ne.symm hc))
      exact ⟨com, List.mem_cons_of_mem _ hcom, hrest⟩

/-- **Adding an output** adds no input, and takes away at most the one with its commitment. -/
theorem spends_of_addOutput {s : Slate} {features : OutputFeatures} {c d : Commitment}
    {proof : RangeProof} (h : (s.addOutput features c proof).Spends d) : s.Spends d := by
  rw [addOutput] at h
  split at h
  · obtain ⟨com, hcom, hd, hproof⟩ := h
    rcases mem_attachProof hcom with hcom | ⟨-, hsome⟩
    · exact ⟨com, hcom, hd, hproof⟩
    · exact absurd hproof hsome
  · obtain ⟨com, hcom, hd, hproof⟩ := h
    rcases List.mem_append.mp hcom with hcom | hcom
    · exact ⟨com, hcom, hd, hproof⟩
    · rw [List.mem_singleton] at hcom
      rw [hcom] at hproof
      cases hproof

theorem spends_addOutput_of_ne {s : Slate} {features : OutputFeatures} {c d : Commitment}
    {proof : RangeProof} (h : s.Spends d) (hne : d ≠ c) :
    (s.addOutput features c proof).Spends d := by
  obtain ⟨com, hcom, hd, hproof⟩ := h
  rw [addOutput]
  split
  · exact ⟨com, mem_attachProof_of_mem hcom (.inl (hd.trans_ne hne)), hd, hproof⟩
  · exact ⟨com, List.mem_append_left _ hcom, hd, hproof⟩

theorem creates_addOutput {s : Slate} {features : OutputFeatures} {c : Commitment}
    {proof : RangeProof} : (s.addOutput features c proof).Creates c := by
  rw [addOutput]
  split
  · next hmem => exact exists_mem_attachProof hmem
  · exact ⟨_, List.mem_append_right _ (List.mem_singleton_self _), rfl, by simp⟩

theorem creates_addOutput_of_creates {s : Slate} {features : OutputFeatures} {c d : Commitment}
    {proof : RangeProof} (h : s.Creates d) : (s.addOutput features c proof).Creates d := by
  obtain ⟨com, hcom, hd, hproof⟩ := h
  rw [addOutput]
  split
  · exact ⟨com, mem_attachProof_of_mem hcom (.inr hproof), hd, hproof⟩
  · exact ⟨com, List.mem_append_left _ hcom, hd, hproof⟩

end Slate

/-! ### Adding the coins of the sender -/

section AddCoins

variable (inputs outputs : List OutputDataEntity) (s : Slate)

theorem addCoins_cons (input : OutputDataEntity) :
    addCoins (input :: inputs) outputs s =
      addCoins inputs outputs (s.addInput input.getFeatures input.getCommitment) := rfl

theorem addCoins_nil_cons (output : OutputDataEntity) :
    addCoins [] (output :: outputs) s =
      addCoins [] outputs
        (s.addOutput output.getFeatures output.getCommitment output.output.rangeProof) := rfl

/-- **Only the commitments change.** -/
theorem addCoins_eq :
    addCoins inputs outputs s =
      { s with commitments := (addCoins inputs outputs s).commitments } := by
  refine Slate.eq_of_bare_eq ?_
  induction inputs generalizing s with
  | nil =>
    induction outputs generalizing s with
    | nil => rfl
    | cons output outputs ih =>
      rw [addCoins_nil_cons, ih, Slate.bare_addOutput]
  | cons input inputs ih => rw [addCoins_cons, ih, Slate.bare_addInput]

theorem commitments_addCoins {s t : Slate} (h : s.commitments = t.commitments) :
    (addCoins inputs outputs s).commitments = (addCoins inputs outputs t).commitments := by
  induction inputs generalizing s t with
  | nil =>
    induction outputs generalizing s t with
    | nil => exact h
    | cons output outputs ih =>
      rw [addCoins_nil_cons, addCoins_nil_cons]
      exact ih (Slate.commitments_addOutput h _ _ _)
  | cons input inputs ih =>
    rw [addCoins_cons, addCoins_cons]
    exact ih (Slate.commitments_addInput h _ _)

/-- What is spent was spent before, or is a coin of the sender. -/
theorem of_spends_addCoins {c : Commitment} (h : (addCoins inputs outputs s).Spends c) :
    s.Spends c ∨ c ∈ inputs.map OutputDataEntity.getCommitment := by
  induction inputs generalizing s with
  | nil =>
    left
    induction outputs generalizing s with
    | nil => exact h
    | cons output outputs ih =>
      rw [addCoins_nil_cons] at h
      exact Slate.spends_of_addOutput (ih _ h)
  | cons input inputs ih =>
    rw [addCoins_cons] at h
    rw [List.map_cons, List.mem_cons]
    rcases ih _ h with h | h
    · rcases (s.spends_addInput_iff _ _ c).mp h with h | ⟨rfl, -⟩
      · exact .inl h
      · exact .inr (.inl rfl)
    · exact .inr (.inr h)

/-- **The coins of the sender are spent**, unless the slate has one of them as an output. -/
theorem spends_addCoins {c : Commitment}
    (h : s.Spends c ∨ (c ∈ inputs.map OutputDataEntity.getCommitment ∧ ¬s.Creates c))
    (hout : c ∉ outputs.map OutputDataEntity.getCommitment) :
    (addCoins inputs outputs s).Spends c := by
  induction inputs generalizing s with
  | nil =>
    have hspends : s.Spends c := h.resolve_right fun h => List.not_mem_nil h.1
    clear h
    induction outputs generalizing s with
    | nil => exact hspends
    | cons output outputs ih =>
      rw [List.map_cons, List.mem_cons, not_or] at hout
      exact ih hout.2 _ (Slate.spends_addOutput_of_ne hspends hout.1)
  | cons input inputs ih =>
    refine ih _ ?_
    rw [Slate.spends_addInput_iff, Slate.creates_addInput_iff]
    rcases h with h | ⟨h, hnot⟩
    · exact .inl (.inl h)
    · rw [List.map_cons, List.mem_cons] at h
      rcases h with rfl | h
      · exact .inl (.inr ⟨rfl, hnot⟩)
      · exact .inr ⟨h, hnot⟩

theorem creates_addCoins_of_creates {c : Commitment} (h : s.Creates c) :
    (addCoins inputs outputs s).Creates c := by
  induction inputs generalizing s with
  | nil =>
    induction outputs generalizing s with
    | nil => exact h
    | cons output outputs ih => exact ih _ (Slate.creates_addOutput_of_creates h)
  | cons input inputs ih => exact ih _ ((s.creates_addInput_iff _ _ c).mpr h)

/-- The change of the sender is created. -/
theorem creates_addCoins {c : Commitment}
    (h : c ∈ outputs.map OutputDataEntity.getCommitment) :
    (addCoins inputs outputs s).Creates c := by
  induction inputs generalizing s with
  | nil =>
    induction outputs generalizing s with
    | nil => cases h
    | cons output outputs ih =>
      rw [List.map_cons, List.mem_cons] at h
      rcases h with rfl | h
      · exact creates_addCoins_of_creates [] outputs _ Slate.creates_addOutput
      · exact ih h _
  | cons input inputs ih => exact ih _

end AddCoins

/-! ### Keys -/

/-- The secret nonce of the keys is the one that was drawn. -/
theorem secretNonce_of_calculateSigningKeys {inputs outputs : List OutputDataEntity}
    {txOffset : BlindingFactor} {secretNonce : SecretKey} {keys : SigningKeys}
    (h : calculateSigningKeys G C inputs outputs txOffset secretNonce = .ok keys) :
    keys.secretNonce = secretNonce := by
  obtain ⟨_, -, h⟩ := Exec.of_bind_eq_ok h
  obtain ⟨_, -, h⟩ := Exec.of_bind_eq_ok h
  obtain ⟨_, -, h⟩ := Exec.of_bind_eq_ok h
  obtain ⟨_, -, h⟩ := Exec.of_bind_eq_ok h
  obtain ⟨_, -, h⟩ := Exec.of_bind_eq_ok h
  obtain ⟨_, -, h⟩ := Exec.of_bind_eq_ok h
  cases h
  rfl

/-! ### The outputs of the wallet -/

/-- **What `CreateBlindedOutput` made**: an output without confirmations. -/
theorem createBlindedOutput_eq_ok {amount : UInt64} {path : KeyChainPath} {walletTxId : UInt32}
    {o : OutputDataEntity} (h : createBlindedOutput G W amount path walletTxId = .ok o) :
    ∃ blindingFactor commitment rangeProof,
      W.keyChain.derivePrivateKey path amount = some blindingFactor ∧
      commitBlinded G amount.toNat blindingFactor = .ok commitment ∧
      W.keyChain.generateRangeProof path amount commitment blindingFactor = some rangeProof ∧
      o = ⟨path, blindingFactor, ⟨.default, commitment, rangeProof⟩, amount, .noConfirmations,
        none, none, some walletTxId⟩ := by
  obtain ⟨blindingFactor, hblind, h⟩ := Exec.of_bind_eq_ok h
  obtain ⟨commitment, hcommit, h⟩ := Exec.of_bind_eq_ok h
  obtain ⟨rangeProof, hproof, h⟩ := Exec.of_bind_eq_ok h
  cases h
  exact ⟨blindingFactor, commitment, rangeProof, orFail_eq_ok_iff.mp hblind,
    callCore_eq_ok_iff.mp hcommit, orFail_eq_ok_iff.mp hproof, rfl⟩

/-- A new output has no confirmations. -/
theorem status_of_createBlindedOutput {amount : UInt64} {path : KeyChainPath} {walletTxId : UInt32}
    {o : OutputDataEntity} (h : createBlindedOutput G W amount path walletTxId = .ok o) :
    o.status = .noConfirmations := by
  obtain ⟨_, _, _, -, -, -, rfl⟩ := createBlindedOutput_eq_ok h
  rfl

/-- **What `CreateOutputs` made**: outputs of the given amounts, and of the database only the
index of the next key is another. -/
theorem createOutputs_eq_ok {db db' : WalletDB} {total : UInt64} {walletTxId : UInt32} {n : UInt8}
    {outputs : List OutputDataEntity}
    (h : createOutputs G W db total walletTxId n = .ok (outputs, db')) :
    outputs.map OutputDataEntity.amount = (List.range n.toNat).map (coinAmount total n) ∧
      (∀ o ∈ outputs, ∃ path, createBlindedOutput G W o.amount path walletTxId = .ok o) ∧
      db' = { db with nextChildIndex := db'.nextChildIndex } := by
  -- The loop, from any accumulator.
  have key : ∀ (is : List ℕ) (made : List OutputDataEntity) (db : WalletDB),
      is.foldlM
        (fun (acc : List OutputDataEntity × WalletDB) i => do
          let output ← createBlindedOutput G W (coinAmount total n i)
            (acc.2.getNextChildPath userPath).1 walletTxId
          .ok (acc.1 ++ [output], (acc.2.getNextChildPath userPath).2))
        (made, db) = .ok (outputs, db') →
      ∃ new, outputs = made ++ new ∧
        new.map OutputDataEntity.amount = is.map (coinAmount total n) ∧
        (∀ o ∈ new, ∃ path, createBlindedOutput G W o.amount path walletTxId = .ok o) ∧
        db' = { db with nextChildIndex := db'.nextChildIndex } := by
    intro is
    induction is with
    | nil =>
      intro made db h
      cases h
      exact ⟨[], (List.append_nil outputs).symm, rfl, by simp, rfl⟩
    | cons i is ih =>
      intro made db h
      rw [List.foldlM_cons] at h
      obtain ⟨acc, hacc, h⟩ := Exec.of_bind_eq_ok h
      obtain ⟨output, houtput, hacc⟩ := Exec.of_bind_eq_ok hacc
      cases hacc
      obtain ⟨new, rfl, hamounts, hnew, hdb⟩ := ih _ _ h
      have hamount : output.amount = coinAmount total n i := by
        obtain ⟨_, _, _, -, -, -, rfl⟩ := createBlindedOutput_eq_ok houtput
        rfl
      refine ⟨output :: new, by simp, by rw [List.map_cons, List.map_cons, hamount, hamounts],
        ?_, hdb⟩
      intro o ho
      rcases List.mem_cons.mp ho with rfl | ho
      · exact ⟨_, hamount ▸ houtput⟩
      · exact hnew o ho
  obtain ⟨new, rfl, hamounts, hnew, hdb⟩ := key _ _ _ h
  exact ⟨hamounts, hnew, hdb⟩

/-! ### Sending -/

/-- The transaction number is taken, and keys are derived. -/
def WalletDB.advance (db : WalletDB) (nextChildIndex : UInt32) : WalletDB :=
  { db with nextTxId := db.nextTxId + 1, nextChildIndex := nextChildIndex }

/-- The change of a slate that is sent: outputs of the wallet without confirmations. -/
structure ChangeOutputs (W : WalletImpl G) (walletTxId : UInt32) (total : UInt64) (n : UInt8)
    (outputs : List OutputDataEntity) : Prop where
  /-- The amounts. -/
  amounts : outputs.map OutputDataEntity.amount = (List.range n.toNat).map (coinAmount total n)
  /-- The outputs were made by the wallet. -/
  created : ∀ o ∈ outputs, ∃ path, createBlindedOutput G W o.amount path walletTxId = .ok o

/-- **What `SendSlateBuilder::Build` did.** -/
theorem SendSlateBuilder.build_eq_ok {db db' : WalletDB} {chainHeight amountToSend fee : UInt64}
    {n : UInt8} {inputs : List OutputDataEntity} {addressOpt : Option Ed25519PublicKey}
    {slateVersion : UInt16} {draws : SendDraws} {slate : Slate}
    (h : build G C W db chainHeight amountToSend fee n inputs addressOpt slateVersion draws =
      .ok (slate, db')) :
    ∃ changeOutputs keys nextChildIndex proofOpt,
      ChangeOutputs W db.nextTxId (totalAmount inputs - (amountToSend + fee)) n changeOutputs ∧
      calculateSigningKeys G C inputs changeOutputs draws.transactionOffset draws.secretNonce =
        .ok keys ∧
      slate = addCoins inputs changeOutputs (newSlate G draws.slateId slateVersion
        (chainHeight + 1) amountToSend fee proofOpt keys draws.transactionOffset) ∧
      draws.slateId ∉ db.slateContexts.map Prod.fst ∧
      (proofOpt.map SlatePaymentProof.receiverAddress = addressOpt) ∧
      (∀ proof ∈ proofOpt, proof.receiverSignatureOpt = none) ∧
      db' = ((((({ db.advance nextChildIndex with
          slateContexts := db.slateContexts ++ [(draws.slateId,
            (⟨keys.secretKey, keys.secretNonce, inputs, changeOutputs⟩ :
              SlateContextEntity).reload)] } : WalletDB).saveSlate slate).addOutputs
            changeOutputs).addOutputs
              (inputs.map fun coin => coin.setStatus .locked)).addTransaction
                (buildWalletTx G W db.nextTxId draws.transactionOffset inputs changeOutputs
                  slate)) := by
  rw [build] at h
  obtain ⟨⟨changeOutputs, changed⟩, hchange, h⟩ := Exec.of_bind_eq_ok h
  obtain ⟨keys, hkeys, h⟩ := Exec.of_bind_eq_ok h
  obtain ⟨updated, hupdated, h⟩ := Exec.of_bind_eq_ok h
  obtain ⟨saved, hsaved, hupdated⟩ := Exec.of_bind_eq_ok hupdated
  cases h
  cases hupdated
  have hmade : ChangeOutputs W db.nextTxId (totalAmount inputs - (amountToSend + fee)) n
      changeOutputs ∧ changed = db.advance changed.nextChildIndex := by
    split at hchange
    · obtain ⟨hamounts, hcreated, hdb⟩ := createOutputs_eq_ok hchange
      exact ⟨⟨hamounts, hcreated⟩, hdb⟩
    · next hzero =>
      cases hchange
      have hn : n.toNat = 0 := by
        rw [UInt8.lt_iff_toNat_lt] at hzero
        simpa using hzero
      exact ⟨⟨by rw [hn]; rfl, by simp⟩, rfl⟩
  obtain ⟨houtputs, hchanged⟩ := hmade
  obtain ⟨hnew, rfl⟩ := WalletDB.saveSlateContext_eq_ok_iff.mp hsaved
  rw [hchanged] at hnew ⊢
  have hid : ∀ proofOpt, (addCoins inputs changeOutputs (newSlate G draws.slateId slateVersion
      (chainHeight + 1) amountToSend fee proofOpt keys draws.transactionOffset)).slateId =
        draws.slateId := by
    intro proofOpt
    rw [addCoins_eq]
    rfl
  rw [hid] at hnew ⊢
  refine ⟨changeOutputs, keys, changed.nextChildIndex, _, houtputs, hkeys, rfl, ?_, ?_, ?_, ?_⟩
  · exact hnew
  · cases addressOpt <;> rfl
  · cases addressOpt <;> simp
  · rfl

/-- The loop takes coins from the front. -/
theorem CoinSelection.takeCoins_eq_ok {amount feeBase : UInt64} {numOutputs numKernels : ℕ}
    {coins selected result : List OutputDataEntity} {amountFound : UInt64}
    (h : takeCoins amount feeBase numOutputs numKernels coins amountFound selected = .ok result) :
    ∃ k, result = selected ++ coins.take k := by
  induction coins generalizing amountFound selected with
  | nil => cases h
  | cons coin coins ih =>
    rw [takeCoins] at h
    split at h
    · cases h
      exact ⟨1, by simp⟩
    · obtain ⟨k, rfl⟩ := ih h
      exact ⟨k + 1, by simp⟩

/-- **Coins are selected among those that are available**, each at most once. -/
theorem CoinSelection.selectCoinsToSpend_eq_ok {available result : List OutputDataEntity}
    {amount feeBase : UInt64} {strategy : ESelectionStrategy} {inputs : List Commitment}
    {numOutputs numKernels : ℕ}
    (h : selectCoinsToSpend G W available amount feeBase strategy inputs numOutputs numKernels =
      .ok result) : result.Subperm available := by
  cases strategy with
  | smallest =>
    obtain ⟨k, rfl⟩ := takeCoins_eq_ok h
    exact ((List.take_sublist k _).subperm).trans (W.coinSort.perm available).subperm
  | fewestInputs =>
    obtain ⟨k, rfl⟩ := takeCoins_eq_ok h
    have hperm : (W.coinSort.sort available.reverse).reverse.Perm available :=
      (List.reverse_perm _).trans ((W.coinSort.perm _).trans (List.reverse_perm _))
    exact ((List.take_sublist k _).subperm).trans hperm.subperm
  | custom =>
    dsimp only [selectCoinsToSpend, selectUsingCustomInputs] at h
    split at h
    · cases h
      exact List.filter_sublist.subperm
    · cases h
  | all =>
    dsimp only [selectCoinsToSpend, selectUsingAllInputs] at h
    split at h
    · cases h
      exact List.Subperm.refl _
    · cases h

theorem SendSlateBuilder.planSend_eq_ok {available inputs : List OutputDataEntity}
    {criteria : SendCriteria} {amountToSend fee : UInt64}
    (h : planSend G W available criteria = .ok (inputs, amountToSend, fee)) :
    inputs.Subperm available := by
  obtain ⟨selected, hselected, h⟩ := Exec.of_bind_eq_ok h
  cases h
  split at hselected
  · cases hselected
    exact List.Subperm.refl _
  · exact CoinSelection.selectCoinsToSpend_eq_ok hselected

/-! ### Receiving -/

/-- Only the payment proof changes. -/
theorem ReceiveSlateBuilder.updatePaymentProof_eq_ok {slate slate' : Slate} {currentIndex : ℕ}
    (h : updatePaymentProof G C W slate currentIndex = .ok slate') :
    slate' = { slate with proofOpt := slate'.proofOpt } := by
  rw [updatePaymentProof] at h
  split at h
  · cases h
    rfl
  · obtain ⟨_, -, h⟩ := Exec.of_bind_eq_ok h
    obtain ⟨_, -, h⟩ := Exec.of_bind_eq_ok h
    obtain ⟨_, -, h⟩ := Exec.of_bind_eq_ok h
    obtain ⟨_, -, h⟩ := Exec.of_bind_eq_ok h
    cases h
    rfl

/-- **What `ReceiveSlateBuilder::AddReceiverData` did.** -/
theorem ReceiveSlateBuilder.addReceiverData_eq_ok {db : WalletDB} {sendSlate : Slate}
    {draws : ReceiveDraws} {r : SignedSlate}
    (h : addReceiverData G C W db sendSlate draws = .ok r) :
    ∃ outputData keys,
      createBlindedOutput G W sendSlate.amount (userPath ++ [db.nextChildIndex]) db.nextTxId =
        .ok outputData ∧
      calculateSigningKeys G C [] [outputData] draws.receiverOffset draws.secretNonce = .ok keys ∧
      r.signing.secretNonce = draws.secretNonce ∧
      r.slate.slateId = sendSlate.slateId ∧
      r.slate.stage = .standardReceived ∧
      r.db = updateDatabase (db.advance (db.nextChildIndex + 1)) r.slate outputData
        db.nextTxId := by
  obtain ⟨_, -, h⟩ := Exec.of_bind_eq_ok h
  obtain ⟨outputData, houtput, h⟩ := Exec.of_bind_eq_ok h
  obtain ⟨keys, hkeys, h⟩ := Exec.of_bind_eq_ok h
  obtain ⟨offset, -, h⟩ := Exec.of_bind_eq_ok h
  obtain ⟨⟨signature, signing⟩, hsign, h⟩ := Exec.of_bind_eq_ok h
  obtain ⟨proved, hproved, h⟩ := Exec.of_bind_eq_ok h
  cases h
  have hnonce : signing.secretNonce = draws.secretNonce := by
    obtain ⟨_, -, hsign⟩ := Exec.of_bind_eq_ok hsign
    obtain ⟨_, -, hsign⟩ := Exec.of_bind_eq_ok hsign
    obtain ⟨_, hpartial, hsign⟩ := Exec.of_bind_eq_ok hsign
    obtain ⟨_, -, hsign⟩ := Exec.of_bind_eq_ok hsign
    obtain ⟨_, -, hsign⟩ := Exec.of_bind_eq_ok hsign
    obtain ⟨_, -, hpartial⟩ := Exec.of_bind_eq_ok hpartial
    cases hpartial
    cases hsign
    exact secretNonce_of_calculateSigningKeys hkeys
  have hslate : proved.slateId = sendSlate.slateId ∧ proved.stage = .standardReceived := by
    rw [updatePaymentProof_eq_ok hproved, Slate.addOutput_eq]
    exact ⟨rfl, rfl⟩
  exact ⟨outputData, keys, houtput, hkeys, hnonce, hslate.1, hslate.2, rfl⟩

/-! ### Finalizing -/

namespace FinalizeSlateBuilder

/-- A partial signature changes neither the keys nor the nonces of the participants. -/
theorem map_setPartial {α : Type} (f : SlateSignature → α)
    (hf : ∀ sig p, f { sig with partialOpt := p } = f sig) (excess : PublicKey)
    (partialSignature : CompactSignature) (sigs : List SlateSignature) :
    (setPartial excess partialSignature sigs).map f = sigs.map f := by
  induction sigs with
  | nil => rfl
  | cons sig sigs ih =>
    rw [setPartial]
    split
    · rw [List.map_cons, List.map_cons, hf]
    · rw [List.map_cons, List.map_cons, ih]

/-- What `Finalize` read and computed on the way. -/
structure Finalizes (G : Global) (C : Crypto) (W : WalletImpl G) (db : WalletDB) (rcvSlate : Slate)
    (chainHeight : UInt64) (r : FinalizedSlate) (sendSlate : Slate) (walletTx : WalletTx)
    (context : SlateContextEntity) : Prop where
  /-- The slate that was sent. -/
  loadSlate : db.loadSlate rcvSlate.slateId .standardSent = some sendSlate
  /-- The transaction of the slate. -/
  findTx : db.getTransactionBySlateId rcvSlate.slateId = some walletTx
  /-- The context of the slate. -/
  loadContext : db.loadSlateContext rcvSlate.slateId = some context
  /-- The identifier is kept. -/
  slateId : r.slate.slateId = rcvSlate.slateId
  /-- The stage. -/
  stage : r.slate.stage = .standardFinalized
  /-- The coins of the sender were added. -/
  commitments : r.slate.commitments = (addCoins context.inputs context.outputs rcvSlate).commitments
  /-- The sender is one of the participants. -/
  participants : ∃ excess sigs, calculatePublicKey C context.secretKey = .ok excess ∧
    addParticipant C context excess rcvSlate.sigs = .ok sigs ∧
    r.slate.sigs.map SlateSignature.excess = sigs.map SlateSignature.excess ∧
    r.slate.sigs.map SlateSignature.nonce = sigs.map SlateSignature.nonce
  /-- The secret nonce is the one of the context. -/
  secretNonce : r.signing.secretNonce = context.secretNonce
  /-- The challenge: the public keys … -/
  sumPubKeys : r.slate.calculateTotalExcess C = .ok r.signing.sumPubKeys
  /-- … the public nonces … -/
  sumPubNonces : r.slate.calculateTotalNonce C = .ok r.signing.sumPubNonces
  /-- … and the message of the slate that was sent. -/
  message : r.signing.message = sendSlate.kernelMessage G
  /-- The transaction is that of the slate … -/
  transaction : ∃ kernel, r.transaction =
    GrinPlusPlus.buildTransaction G W r.slate.getInputs r.slate.getOutputs kernel r.slate.offset
  /-- … and valid. -/
  valid : TransactionValidator.validate G r.transaction (chainHeight + 1).toNat = .ok ()
  /-- The writes. -/
  db : r.db = updateDatabase db
    ((walletTx.setType .sendingFinalized).setTransaction r.transaction) r.slate

/-- **What `FinalizeSlateBuilder::Finalize` did.** -/
theorem finalize_eq_ok {db : WalletDB} {rcvSlate : Slate} {chainHeight : UInt64}
    {r : FinalizedSlate} (h : finalize G C W db rcvSlate chainHeight = .ok r) :
    ∃ sendSlate walletTx context,
      Finalizes G C W db rcvSlate chainHeight r sendSlate walletTx context := by
  obtain ⟨sendSlate, hsend, h⟩ := Exec.of_bind_eq_ok h
  obtain ⟨walletTx, htx, h⟩ := Exec.of_bind_eq_ok h
  obtain ⟨context, hcontext, h⟩ := Exec.of_bind_eq_ok h
  obtain ⟨offset, -, h⟩ := Exec.of_bind_eq_ok h
  obtain ⟨⟨slate, signing⟩, hsign, h⟩ := Exec.of_bind_eq_ok h
  obtain ⟨totalExcess, -, h⟩ := Exec.of_bind_eq_ok h
  obtain ⟨finalExcess, -, h⟩ := Exec.of_bind_eq_ok h
  obtain ⟨_, -, h⟩ := Exec.of_bind_eq_ok h
  obtain ⟨transactionOpt, hbuild, h⟩ := Exec.of_bind_eq_ok h
  obtain ⟨transaction, hsome, h⟩ := Exec.of_bind_eq_ok h
  cases h
  obtain rfl := orFail_eq_ok_iff.mp hsome
  -- The signature.
  obtain ⟨excess, hexcess, hsign⟩ := Exec.of_bind_eq_ok hsign
  obtain ⟨sigs, hsigs, hsign⟩ := Exec.of_bind_eq_ok hsign
  obtain ⟨sumPubKeys, hkeys, hsign⟩ := Exec.of_bind_eq_ok hsign
  obtain ⟨sumPubNonces, hnonces, hsign⟩ := Exec.of_bind_eq_ok hsign
  obtain ⟨⟨partialSignature, signed⟩, hpartial, hsign⟩ := Exec.of_bind_eq_ok hsign
  obtain ⟨_, -, hsign⟩ := Exec.of_bind_eq_ok hsign
  obtain ⟨_, -, hsign⟩ := Exec.of_bind_eq_ok hsign
  obtain ⟨_, -, hpartial⟩ := Exec.of_bind_eq_ok hpartial
  cases hpartial
  cases hsign
  rw [buildTransaction] at hbuild
  obtain ⟨aggSignature, -, hbuild⟩ := Exec.of_bind_eq_ok hbuild
  obtain ⟨_, -, hbuild⟩ := Exec.of_bind_eq_ok hbuild
  rw [Except.ok.injEq] at hbuild
  split at hbuild
  · cases hbuild
  split at hbuild
  · cases hbuild
  split at hbuild
  rotate_left
  · cases hbuild
  next hvalid =>
  cases hbuild
  have hcompleted : completeSlate rcvSlate sendSlate context offset =
      { rcvSlate with
        stage := .standardFinalized
        offset := offset
        amount := sendSlate.amount
        fee := sendSlate.fee
        kernelFeatures := sendSlate.kernelFeatures
        featureArgsOpt := sendSlate.featureArgsOpt
        ttl := sendSlate.ttl
        commitments := (completeSlate rcvSlate sendSlate context offset).commitments } :=
    addCoins_eq _ _ _
  have hexcesses := map_setPartial SlateSignature.excess (fun _ _ => rfl) excess partialSignature
    sigs
  have hnonces' := map_setPartial SlateSignature.nonce (fun _ _ => rfl) excess partialSignature
    sigs
  refine ⟨sendSlate, walletTx, context, ?_⟩
  constructor
  · exact orFail_eq_ok_iff.mp hsend
  · exact orFail_eq_ok_iff.mp htx
  · exact orFail_eq_ok_iff.mp hcontext
  · rw [hcompleted]
  · rw [hcompleted]
  · exact commitments_addCoins _ _ rfl
  · refine ⟨excess, sigs, hexcess, ?_, hexcesses, hnonces'⟩
    rw [hcompleted] at hsigs
    exact hsigs
  · rfl
  · rw [Slate.calculateTotalExcess] at hkeys ⊢
    rw [hexcesses]
    exact hkeys
  · rw [Slate.calculateTotalNonce] at hnonces ⊢
    rw [hnonces']
    exact hnonces
  · rw [hcompleted]
    rfl
  · exact ⟨_, rfl⟩
  · exact hvalid
  · rfl

end FinalizeSlateBuilder

end GrinPlusPlus
