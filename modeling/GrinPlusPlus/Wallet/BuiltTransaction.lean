import GrinPlusPlus.Pmmr.DistinctCommitments
import GrinPlusPlus.Wallet.PaymentModel

/-!
# Transactions that wallets build

What it takes for the transaction of a slate to be valid, in the terms of the coins and the outputs
that the slate was made of. A slate keeps both in one list; as long as the commitments are
different, they come out again as they were put in. A body of different things that is sorted is
valid when its proofs and its signature are, and its sums are accepted when they balance in the
group (`GrinPlusPlus.TransactionValidator.validate_buildTransaction`).

The offset must not be the empty one, which the code leaves out of the sum and for which a wallet
takes another.
-/

namespace GrinPlusPlus

variable {G : Global} {C : Crypto}

/-! ### What the slates spend and create -/

/-- A coin among the commitments of a slate. -/
def inputEntry (o : OutputDataEntity) : SlateCommitment :=
  ⟨o.getFeatures, o.getCommitment, none⟩

/-- An output among the commitments of a slate. -/
def outputEntry (o : OutputDataEntity) : SlateCommitment :=
  ⟨o.getFeatures, o.getCommitment, some o.output.rangeProof⟩

@[simp] theorem commitment_inputEntry (o : OutputDataEntity) :
    (inputEntry o).commitment = o.getCommitment := rfl

@[simp] theorem commitment_outputEntry (o : OutputDataEntity) :
    (outputEntry o).commitment = o.getCommitment := rfl

namespace Slate

theorem commitments_addInput_of_new {s : Slate} {o : OutputDataEntity}
    (h : o.getCommitment ∉ s.commitments.map SlateCommitment.commitment) :
    (s.addInput o.getFeatures o.getCommitment).commitments = s.commitments ++ [inputEntry o] := by
  rw [addInput, if_neg h]
  rfl

theorem commitments_addOutput_of_new {s : Slate} {o : OutputDataEntity}
    (h : o.getCommitment ∉ s.commitments.map SlateCommitment.commitment) :
    (s.addOutput o.getFeatures o.getCommitment o.output.rangeProof).commitments =
      s.commitments ++ [outputEntry o] := by
  rw [addOutput, if_neg h]
  rfl

/-- A commitment that has a proof keeps it. -/
theorem attachProof_eq_self {c : Commitment} {proof : RangeProof} {coms : List SlateCommitment}
    (h : ∀ com ∈ coms, com.commitment = c → com.proofOpt ≠ none) :
    attachProof c proof coms = coms := by
  induction coms with
  | nil => rfl
  | cons com coms ih =>
    rw [attachProof]
    split
    · next hc =>
      have hsome := h com List.mem_cons_self hc
      rw [if_neg (by rwa [Option.isNone_iff_eq_none])]
    · rw [ih fun d hd => h d (List.mem_cons_of_mem _ hd)]

end Slate

/-- **Coins that are new** are added one behind the other. -/
theorem commitments_addCoins_of_nodup {inputs outputs : List OutputDataEntity} {s : Slate}
    (h : (s.commitments.map SlateCommitment.commitment ++
      (inputs ++ outputs).map OutputDataEntity.getCommitment).Nodup) :
    (addCoins inputs outputs s).commitments =
      s.commitments ++ inputs.map inputEntry ++ outputs.map outputEntry := by
  induction inputs generalizing s with
  | nil =>
    rw [List.map_nil, List.append_nil]
    induction outputs generalizing s with
    | nil => rw [List.map_nil, List.append_nil]; rfl
    | cons o outputs ih =>
      have hnew : o.getCommitment ∉ s.commitments.map SlateCommitment.commitment := fun hmem =>
        (List.nodup_append'.1 h).2.2 hmem List.mem_cons_self
      have hadd := Slate.commitments_addOutput_of_new hnew
      rw [addCoins_nil_cons, ih, hadd, List.map_cons, List.append_assoc, List.singleton_append]
      rwa [hadd, List.map_append, List.append_assoc]
  | cons i inputs ih =>
    have hnew : i.getCommitment ∉ s.commitments.map SlateCommitment.commitment := fun hmem =>
      (List.nodup_append'.1 h).2.2 hmem List.mem_cons_self
    have hadd := Slate.commitments_addInput_of_new hnew
    rw [addCoins_cons, ih, hadd, List.map_cons, List.append_assoc, List.append_assoc,
      List.append_assoc, List.singleton_append, List.cons_append]
    rwa [hadd, List.map_append, List.append_assoc]

/-- **Coins that are there** are not added again. -/
theorem commitments_addCoins_of_mem {inputs outputs : List OutputDataEntity} {s : Slate}
    (hinputs : ∀ i ∈ inputs, i.getCommitment ∈ s.commitments.map SlateCommitment.commitment)
    (houtputs : ∀ o ∈ outputs, o.getCommitment ∈ s.commitments.map SlateCommitment.commitment ∧
      ∀ com ∈ s.commitments, com.commitment = o.getCommitment → com.proofOpt ≠ none) :
    (addCoins inputs outputs s).commitments = s.commitments := by
  induction inputs with
  | nil =>
    induction outputs generalizing s with
    | nil => rfl
    | cons o outputs ih =>
      obtain ⟨hmem, hproof⟩ := houtputs o List.mem_cons_self
      have hadd : (s.addOutput o.getFeatures o.getCommitment o.output.rangeProof).commitments =
          s.commitments := by
        rw [Slate.addOutput, if_pos hmem]
        exact Slate.attachProof_eq_self hproof
      rw [addCoins_nil_cons, ih, hadd]
      · rw [hadd]
        exact fun p hp => houtputs p (List.mem_cons_of_mem _ hp)
      · exact List.forall_mem_nil _
  | cons i inputs ih =>
    rw [addCoins_cons, Slate.addInput, if_pos (hinputs i List.mem_cons_self)]
    exact ih fun j hj => hinputs j (List.mem_cons_of_mem _ hj)

/-- The inputs of a slate, by its entries. -/
theorem getInputs_of_entries {s : Slate} {inputs outputs : List OutputDataEntity}
    (h : s.commitments = inputs.map inputEntry ++ outputs.map outputEntry) :
    s.getInputs = inputs.map fun i => ⟨i.getFeatures, i.getCommitment⟩ := by
  rw [Slate.getInputs, h, List.filterMap_append, List.filterMap_map, List.filterMap_map]
  have hin : ∀ l : List OutputDataEntity, l.filterMap ((fun com : SlateCommitment =>
      if com.proofOpt.isNone then some (⟨com.features, com.commitment⟩ : TransactionInput)
      else none) ∘ inputEntry) = l.map fun i => ⟨i.getFeatures, i.getCommitment⟩ := by
    intro l
    rw [← List.filterMap_eq_map]
    rfl
  have hout : ∀ l : List OutputDataEntity, l.filterMap ((fun com : SlateCommitment =>
      if com.proofOpt.isNone then some (⟨com.features, com.commitment⟩ : TransactionInput)
      else none) ∘ outputEntry) = [] :=
    fun l => List.filterMap_eq_nil_iff.2 fun _ _ => rfl
  rw [hin, hout, List.append_nil]

/-- The outputs of a slate, by its entries. -/
theorem getOutputs_of_entries {s : Slate} {inputs outputs : List OutputDataEntity}
    (h : s.commitments = inputs.map inputEntry ++ outputs.map outputEntry) :
    s.getOutputs = outputs.map OutputDataEntity.output := by
  rw [Slate.getOutputs, h, List.filterMap_append, List.filterMap_map, List.filterMap_map]
  have hin : ∀ l : List OutputDataEntity, l.filterMap ((fun com : SlateCommitment =>
      com.proofOpt.map fun proof => (⟨com.features, com.commitment, proof⟩ : TransactionOutput)) ∘
        inputEntry) = [] :=
    fun l => List.filterMap_eq_nil_iff.2 fun _ _ => rfl
  have hout : ∀ l : List OutputDataEntity, l.filterMap ((fun com : SlateCommitment =>
      com.proofOpt.map fun proof => (⟨com.features, com.commitment, proof⟩ : TransactionOutput)) ∘
        outputEntry) = l.map OutputDataEntity.output := by
    intro l
    rw [← List.filterMap_eq_map]
    rfl
  rw [hin, hout, List.nil_append]

/-! ### A valid body -/

section Bodies

open TxBodyValidator

theorem isSorted_of_pairwise_le {α : Type} {getHash : α → Hash} {values : List α}
    (h : values.Pairwise fun a b => (getHash a).value ≤ (getHash b).value) :
    isSorted getHash values = true :=
  isSorted_iff.2 (List.Pairwise.isChain (h.imp fun hle => Nat.not_lt_of_le hle))

/-- Nothing that occurs once has a neighbour that counts as equal. -/
theorem hasDuplicate_of_nodup {α β : Type} {eq : α → α → Bool} (key : α → β) {values : List α}
    (h : (values.map key).Nodup) (heq : ∀ a b, eq b a = true → key a = key b) :
    hasDuplicate eq values = false := by
  have hpairwise : values.Pairwise fun a b => eq b a = false :=
    (List.pairwise_map.1 h).imp fun {a b} hne =>
      Bool.eq_false_iff.2 fun htrue => hne (heq a b htrue)
  exact hasDuplicate_eq_false_iff.2 (List.Pairwise.isChain hpairwise)

/-- **A body that is made of different things is valid**, if its proofs and its signature are. -/
theorem TxBodyValidator.validate_body (hG : G.InjectiveOnBytes) (sort : BodySort G)
    {inputs : List TransactionInput} {outputs : List TransactionOutput}
    {kernel : TransactionKernel}
    (hnodup : (inputs.map TransactionInput.commitment ++
      outputs.map TransactionOutput.commitment).Nodup)
    (hproofs : ∀ proofs : List (Commitment × RangeProof),
      (∀ p ∈ proofs, p ∈ outputs.map fun o => (o.commitment, o.rangeProof)) →
        G.verifyRangeProofs proofs = true)
    (hsignature : batchVerify G [kernel] = true) :
    TxBodyValidator.validate G (sort.body inputs outputs [kernel]) = .ok () := by
  have hin : (sort.inputs inputs).Perm inputs := sort.sorts_inputs.perm inputs
  have hout : (sort.outputs outputs).Perm outputs := sort.sorts_outputs.perm outputs
  have hkernel : sort.kernels [kernel] = [kernel] :=
    List.perm_singleton.1 (sort.sorts_kernels.perm [kernel])
  obtain ⟨hinNodup, houtNodup, hdisjoint⟩ := List.nodup_append'.1 hnodup
  have hinputs : hasDuplicate (fun a b => decide (a = b)) (sort.inputs inputs) = false := by
    refine hasDuplicate_of_nodup TransactionInput.commitment
      ((hin.map _).nodup_iff.2 hinNodup) fun a b h => ?_
    rw [of_decide_eq_true h]
  have houtputs : hasDuplicate (fun a b => decide (a.getHash G = b.getHash G))
      (sort.outputs outputs) = false := by
    refine hasDuplicate_of_nodup TransactionOutput.commitment
      ((hout.map _).nodup_iff.2 houtNodup) fun a b h => ?_
    have hidentifier := OutputIdentifier.serialize_injective (hG _ _ (of_decide_eq_true h))
    exact (congrArg OutputIdentifier.commitment hidentifier).symm
  have hcut : ¬∃ i ∈ sort.inputs inputs,
      i.commitment ∈ (sort.outputs outputs).map TransactionOutput.commitment := by
    rintro ⟨i, hi, hmem⟩
    exact hdisjoint (List.mem_map_of_mem (hin.mem_iff.1 hi)) ((hout.map _).mem_iff.1 hmem)
  have hranges : G.verifyRangeProofs ((sort.outputs outputs).map
      fun o => (o.commitment, o.rangeProof)) = true :=
    hproofs _ fun p hp => (hout.map _).mem_iff.1 hp
  have hall : (isSorted (TransactionInput.getHash G) (sort.inputs inputs) &&
      isSorted (TransactionOutput.getHash G) (sort.outputs outputs) &&
      isSorted (TransactionKernel.getHash G) (sort.kernels [kernel])) = true := by
    rw [isSorted_of_pairwise_le (sort.sorts_inputs.sorted inputs),
      isSorted_of_pairwise_le (sort.sorts_outputs.sorted outputs),
      isSorted_of_pairwise_le (sort.sorts_kernels.sorted [kernel])]
    rfl
  rw [TxBodyValidator.validate, verifySorted, BodySort.body]
  dsimp only
  rw [hall, hinputs, houtputs, hkernel, verifyCutThrough, require_of _ hcut,
    TxBodyValidator.verifyRangeProofs, require_of _ hranges, require_of _ hsignature]
  rfl

end Bodies

section Transactions

variable {F A : Type} [AddCommGroup F] [AddCommGroup A]

theorem CommitmentGroup.sum_perm (S : CommitmentGroup G A) {cs ds : List Commitment}
    (h : cs.Perm ds) : S.sum cs = S.sum ds :=
  (h.map S.val).sum_eq

/-- **Sums that balance are accepted.** The offset must not be empty. -/
theorem KernelSumValidator.validateCommitmentSums_of_balance (S : SchnorrGroup G C F A)
    (inputs outputs : List Commitment) {excess : Commitment} {fee : ℕ} (hfee : fee < 2 ^ 64)
    {offset : BlindingFactor} (hvalid : S.Valid offset) (hnull : offset.isNull = false)
    (hbalance : S.sum outputs + fee • S.base - S.sum inputs =
      S.val excess + S.reveal (S.scalar offset)) :
    ∃ sums, validateCommitmentSums G inputs outputs [excess] fee offset none = .ok sums := by
  obtain ⟨offsetCommit, hoffset, hoffsetVal⟩ := S.commitBlinded 0 offset (by decide) hvalid
  obtain ⟨sum, hsum, hsumVal⟩ := S.addCommitments_ok [excess, offsetCommit] []
  refine ⟨⟨sum, excess⟩, (validateCommitmentSums_eq_ok_iff S.toCommitmentGroup
    (by rwa [Int.natAbs_natCast])).2 ⟨?_, ?_, ?_⟩⟩
  · rw [hsumVal, S.sum_cons, S.sum_cons, S.sum_nil, hoffsetVal, zero_smul, zero_add, add_zero,
      sub_zero, ← hbalance, Option.map_none, Option.toList_none, S.sum_nil, natCast_zsmul]
    abel
  · rw [S.sum_cons, S.sum_nil, Option.map_none, Option.toList_none, S.sum_nil, add_zero, add_zero]
  · have hnonempty : ¬offset.bytes.all (fun b => decide (b = 0)) = true := by
      rw [BlindingFactor.isNull] at hnull
      rw [hnull]
      exact Bool.false_ne_true
    rw [addKernelOffset, if_neg hnonempty, GrinPlusPlus.commitBlinded, hoffset]
    exact hsum

/-- The weight of a transaction with one kernel. -/
def plainWeight (env : Environment) (blockHeight numInputs numOutputs : ℕ) : ℕ :=
  if Consensus.getHeaderVersion env blockHeight < 5 then
    Consensus.calculateWeightV4 numInputs numOutputs 1
  else Consensus.calculateWeightV5 numInputs numOutputs 1

section Body

variable {W : WalletImpl G} {inputs : List TransactionInput} {outputs : List TransactionOutput}
  {kernel : TransactionKernel} {offset : BlindingFactor}

/-- A transaction that is built has the inputs … -/
theorem perm_inputs_buildTransaction :
    (buildTransaction G W inputs outputs kernel offset).body.inputs.Perm inputs :=
  (W.bodySort.sorts_inputs.perm _).trans (W.bodySort.sorts_inputs.perm _)

/-- … the outputs … -/
theorem perm_outputs_buildTransaction :
    (buildTransaction G W inputs outputs kernel offset).body.outputs.Perm outputs :=
  (W.bodySort.sorts_outputs.perm _).trans (W.bodySort.sorts_outputs.perm _)

/-- … and the kernel that it is built of. -/
theorem kernels_buildTransaction :
    (buildTransaction G W inputs outputs kernel offset).body.kernels = [kernel] :=
  List.perm_singleton.1
    ((W.bodySort.sorts_kernels.perm _).trans (W.bodySort.sorts_kernels.perm _))

end Body

theorem TransactionValidator.validateWeight_of_plainWeight {W : WalletImpl G}
    {inputs : List TransactionInput} {outputs : List TransactionOutput}
    {kernel : TransactionKernel} {offset : BlindingFactor} {blockHeight : ℕ}
    (h : plainWeight G.env blockHeight inputs.length outputs.length +
      (Consensus.outputWeight + Consensus.kernelWeight) ≤ Consensus.maxBlockWeight) :
    validateWeight G (buildTransaction G W inputs outputs kernel offset).body blockHeight =
      .ok () := by
  have hweight : (buildTransaction G W inputs outputs kernel offset).body.calcWeight G.env
      blockHeight = plainWeight G.env blockHeight inputs.length outputs.length := by
    rw [TransactionBody.calcWeight, plainWeight, perm_inputs_buildTransaction.length_eq,
      perm_outputs_buildTransaction.length_eq, kernels_buildTransaction]
    rfl
  rw [validateWeight, hweight]
  exact if_pos h

/-- **A transaction that is built of different things and balances is valid.** -/
theorem TransactionValidator.validate_buildTransaction (hG : G.InjectiveOnBytes)
    (S : SchnorrGroup G C F A) (W : WalletImpl G) {inputs : List TransactionInput}
    {outputs : List TransactionOutput} {kernel : TransactionKernel} {offset : BlindingFactor}
    {blockHeight : ℕ}
    (hweight : validateWeight G (buildTransaction G W inputs outputs kernel offset).body
      blockHeight = .ok ())
    (hnodup : (inputs.map TransactionInput.commitment ++
      outputs.map TransactionOutput.commitment).Nodup)
    (hproofs : ∀ o ∈ outputs, G.verifyRangeProofs [(o.commitment, o.rangeProof)] = true)
    (hsignature : TxBodyValidator.batchVerify G [kernel] = true)
    (houtputs : ∀ o ∈ outputs, o.features.isCoinbase = false)
    (hkernel : kernel.features.isCoinbase = false)
    (hvalid : S.Valid offset) (hnull : offset.isNull = false)
    (hbalance : S.sum (outputs.map TransactionOutput.commitment) +
        kernel.fee.fee.toNat • S.base - S.sum (inputs.map TransactionInput.commitment) =
      S.val kernel.excessCommitment + S.reveal (S.scalar offset)) :
    validate G (buildTransaction G W inputs outputs kernel offset) blockHeight = .ok () := by
  have hkernels : W.bodySort.kernels [kernel] = [kernel] :=
    List.perm_singleton.1 (W.bodySort.sorts_kernels.perm _)
  have hbody : TxBodyValidator.validate G
      (buildTransaction G W inputs outputs kernel offset).body = .ok () := by
    rw [buildTransaction, hkernels]
    refine TxBodyValidator.validate_body hG W.bodySort ?_ (fun proofs hall => ?_) hsignature
    · refine (List.Perm.nodup_iff (List.Perm.append ?_ ?_)).2 hnodup
      · exact (W.bodySort.sorts_inputs.perm inputs).map _
      · exact (W.bodySort.sorts_outputs.perm outputs).map _
    · refine S.verifyRangeProofs proofs fun p hp => ?_
      obtain ⟨o, ho, rfl⟩ := List.mem_map.1 (hall p hp)
      exact hproofs o ((W.bodySort.sorts_outputs.perm outputs).mem_iff.1 ho)
  have hfeatures : validateFeatures (buildTransaction G W inputs outputs kernel offset).body =
      .ok () := by
    have hnone : ((buildTransaction G W inputs outputs kernel offset).body.outputs.any
        fun o => o.features.isCoinbase) = false := by
      refine List.any_eq_false.2 fun o ho => ?_
      rw [houtputs o (perm_outputs_buildTransaction.mem_iff.1 ho)]
      exact Bool.false_ne_true
    have hone : ((buildTransaction G W inputs outputs kernel offset).body.kernels.any
        fun k => k.features.isCoinbase) = false := by
      rw [kernels_buildTransaction, List.any_cons, hkernel]
      rfl
    rw [validateFeatures, hnone, hone]
    rfl
  obtain ⟨sums, hsums⟩ := KernelSumValidator.validateCommitmentSums_of_balance S
    ((buildTransaction G W inputs outputs kernel offset).body.inputs.map
      TransactionInput.commitment)
    ((buildTransaction G W inputs outputs kernel offset).body.outputs.map
      TransactionOutput.commitment)
    (kernel.fee.fee.toNat_lt) hvalid hnull
    (by rw [S.sum_perm (perm_inputs_buildTransaction.map _),
      S.sum_perm (perm_outputs_buildTransaction.map _), hbalance])
  have hkernelSums : validateKernelSums G (buildTransaction G W inputs outputs kernel offset) =
      .ok () := by
    rw [validateKernelSums, KernelSumValidator.validateKernelSums, kernels_buildTransaction,
      List.foldl_cons, List.foldl_nil, zero_add, List.map_singleton]
    rw [show (buildTransaction G W inputs outputs kernel offset).offset = offset from rfl, hsums]
    rfl
  rw [validate, hweight, hbody, hfeatures]
  exact hkernelSums

end Transactions

end GrinPlusPlus
