import GrinPlusPlus.Pmmr.DistinctCommitments
import GrinPlusPlus.Pmmr.PrunedRange

/-!
# The rules of the pool and of the block

`TxHashSet::IsValid` decides whether a transaction may enter the pool, `TxHashSet::ApplyBlock`
whether a block may extend the chain. The first only looks: an input must have a position with an
unspent output of the same commitment, that is mature if it is a coinbase output, and an output
must not have one. The second changes what it looks at: it does not compare the commitment, it
clears the leaves of the inputs before it looks at the outputs, and it writes the position of an
output before it looks at the next one.

The main result, `GrinPlusPlus.TxHashSet.applyBlock_eq_isValid`, is that nothing of this matters
while the position table maps exactly the unspent commitments and the body repeats none. What makes
it go through is that **each look-up of a loop finds what the state before the loop has**: the
cleared leaves and the new positions belong to other commitments.
-/

namespace GrinPlusPlus

open PostOrder Exec

/-- The ranges of the three components have the shape of ranges, and the same leaves are
unspent in two of them. -/
structure UtxoState.Sound (s : UtxoState) (n m : ℕ) : Prop where
  /-- The outputs. -/
  outputs : s.txHashSet.outputPMMR.current.Sound n
  /-- The range proofs. -/
  rangeProofs : s.txHashSet.rangeProofPMMR.current.Sound n
  /-- The kernels. -/
  kernels : s.txHashSet.kernelMMR.current.Shape m
  /-- An output and its range proof are spent together. -/
  leafSet : s.txHashSet.rangeProofPMMR.current.leafSet =
    s.txHashSet.outputPMMR.current.leafSet

namespace TxHashSet

variable {G : Global} {s : UtxoState} {n m : ℕ}

/-! ### What the pool looks at -/

/-- The check of one input in `TxHashSet::IsValid`. -/
def inputValid (maximumBlockHeight : ℕ) (s : UtxoState) (input : TransactionInput) : Bool :=
  match s.blockDB.getOutputPosition input.commitment with
  | none => false
  | some position =>
    match s.txHashSet.outputPMMR.current.getAt position.leafIndex with
    | none => false
    | some output =>
      decide (output.commitment = input.commitment) &&
        !(output.features.isCoinbase && decide (maximumBlockHeight < position.blockHeight))

/-- The check of one output in `TxHashSet::IsValid`. -/
def outputValid (s : UtxoState) (output : TransactionOutput) : Bool :=
  match s.blockDB.getOutputPosition output.commitment with
  | none => true
  | some position =>
    match s.txHashSet.outputPMMR.current.getAt position.leafIndex with
    | none => true
    | some o => decide (o.commitment ≠ output.commitment)

theorem isValid_eq (tx : Transaction) :
    s.txHashSet.isValid G s.blockDB tx =
      (tx.body.inputs.all (inputValid (Consensus.getMaxCoinbaseHeight G.env
          (s.txHashSet.blockHeader.getHeight + 1)) s) &&
        tx.body.outputs.all (outputValid s)) :=
  rfl

/-- Where every position is that of an unspent output with the commitment, an output is new when
its commitment has no position. -/
theorem outputValid_eq (h : PointsToUnspent s) (output : TransactionOutput) :
    outputValid s output = (s.blockDB.getOutputPosition output.commitment).isNone := by
  rcases hposition : s.blockDB.getOutputPosition output.commitment with _ | position
  · simp [outputValid, hposition]
  · obtain ⟨o, hget, hcommitment⟩ := h output.commitment position hposition
    simp [outputValid, hposition, hget, hcommitment]

/-- An input is looked up in the same way when another leaf is cleared. -/
theorem inputValid_congr {maximumBlockHeight : ℕ} {s s' : UtxoState} {input : TransactionInput}
    (hposition : s'.blockDB.getOutputPosition input.commitment =
      s.blockDB.getOutputPosition input.commitment)
    (hget : ∀ l, s.blockDB.getOutputPosition input.commitment = some l →
      s'.txHashSet.outputPMMR.current.getAt l.leafIndex =
        s.txHashSet.outputPMMR.current.getAt l.leafIndex) :
    inputValid maximumBlockHeight s' input = inputValid maximumBlockHeight s input := by
  rw [inputValid, inputValid, hposition]
  rcases hl : s.blockDB.getOutputPosition input.commitment with _ | l
  · rfl
  · dsimp only
    rw [hget l hl]

/-! ### What the loops of the block look at -/

theorem leafSet_of_getAt {α : Type} {f : PruneableFiles α} {i : ℕ} {a : α}
    (h : f.getAt i = some a) : f.leafSet i = true := by
  rw [PruneableFiles.getAt] at h
  split at h
  · next hunpruned =>
    rw [PruneableFiles.isUnpruned, Bool.and_eq_true] at hunpruned
    exact hunpruned.2
  · cases h

/-- The inputs that have a position have an unspent output of their commitment there, with a
range proof. -/
def FindsUnspent (s : UtxoState) (inputs : List TransactionInput) : Prop :=
  ∀ i ∈ inputs, ∀ l, s.blockDB.getOutputPosition i.commitment = some l →
    s.txHashSet.rangeProofPMMR.current.leafSet l.leafIndex = true ∧
      ∃ o, s.txHashSet.outputPMMR.current.getAt l.leafIndex = some o ∧
        o.commitment = i.commitment

/-- What the inputs of other commitments find is not what was spent. -/
theorem FindsUnspent.leafIndex_ne {input : TransactionInput} {inputs : List TransactionInput}
    {position : OutputLocation} (h : FindsUnspent s (input :: inputs))
    (hposition : s.blockDB.getOutputPosition input.commitment = some position)
    (hnodup : ((input :: inputs).map TransactionInput.commitment).Nodup) :
    ∀ i ∈ inputs, ∀ l, s.blockDB.getOutputPosition i.commitment = some l →
      l.leafIndex ≠ position.leafIndex := by
  rintro i hi l hl heq
  rw [List.map_cons, List.nodup_cons] at hnodup
  obtain ⟨-, o, hget, hcommitment⟩ := h input List.mem_cons_self position hposition
  obtain ⟨-, o', hget', hcommitment'⟩ := h i (List.mem_cons_of_mem _ hi) l hl
  rw [heq, hget, Option.some_inj] at hget'
  subst hget'
  exact hnodup.1 (List.mem_map.mpr ⟨i, hi, hcommitment'.symm.trans hcommitment⟩)

/-- **The loop over the inputs** goes through when each of them passes the check of the pool. -/
theorem run_pruneInputs_eq (maximumBlockHeight : ℕ) {inputs : List TransactionInput}
    (hnodup : (inputs.map TransactionInput.commitment).Nodup) (hfinds : FindsUnspent s inputs)
    (spent : List SpentOutput) :
    ∃ spent' s', run (pruneInputs maximumBlockHeight inputs spent) s = (.ok spent', s') ∧
      spent'.isSome = inputs.all (inputValid maximumBlockHeight s) := by
  induction inputs generalizing s spent with
  | nil => exact ⟨some spent, s, rfl, rfl⟩
  | cons input inputs ih =>
    rw [pruneInputs, run_bind_ok (run_get s), List.all_cons]
    rcases hposition : s.blockDB.getOutputPosition input.commitment with _ | position
    · refine ⟨none, s, rfl, ?_⟩
      simp [inputValid, hposition]
    · obtain ⟨hproof, output, hget, hcommitment⟩ :=
        hfinds input List.mem_cons_self position hposition
      dsimp only
      rw [hget]
      dsimp only
      split_ifs with himmature
      · refine ⟨none, s, rfl, ?_⟩
        simp [inputValid, hposition, hget, himmature]
      · have hother := hfinds.leafIndex_ne hposition hnodup
        rw [List.map_cons, List.nodup_cons] at hnodup
        -- the other inputs find in the new state what they found in the old one
        have hsame : ∀ i ∈ inputs, ∀ l, s.blockDB.getOutputPosition i.commitment = some l →
            (spendLeaf s position.leafIndex).txHashSet.outputPMMR.current.getAt l.leafIndex =
              s.txHashSet.outputPMMR.current.getAt l.leafIndex :=
          fun i hi l hl => getAt_remove_of_ne (hother i hi l hl)
        have hfinds' : FindsUnspent (spendLeaf s position.leafIndex) inputs := by
          intro i hi l hl
          obtain ⟨hset, o, ho⟩ := hfinds i (List.mem_cons_of_mem _ hi) l hl
          refine ⟨?_, o, ?_, ho.2⟩
          · exact (Function.update_of_ne (hother i hi l hl) _ _).trans hset
          · rw [hsame i hi l hl]
            exact ho.1
        obtain ⟨spent', s', hrun, hspent⟩ :=
          ih hnodup.2 hfinds' (spent ++ [⟨input.commitment, position⟩])
        refine ⟨spent', s', ?_, ?_⟩
        · rw [run_spend (leafSet_of_getAt hget) hproof]
          exact hrun
        · have hall : inputs.all (inputValid maximumBlockHeight
              (spendLeaf s position.leafIndex)) =
              inputs.all (inputValid maximumBlockHeight s) := by
            rw [List.all_eq, List.all_eq]
            refine decide_eq_decide.mpr (forall₂_congr fun i hi => ?_)
            rw [@inputValid_congr _ s (spendLeaf s position.leafIndex) _ rfl (hsame i hi)]
          have hfirst : inputValid maximumBlockHeight s input = true := by
            simpa [inputValid, hposition, hget, hcommitment, imp_iff_not_or] using himmature
          rw [hspent, hall, hfirst, Bool.true_and]

/-- The outputs that have a position have an unspent leaf there. -/
def FindsSpot (s : UtxoState) (outputs : List TransactionOutput) : Prop :=
  ∀ o ∈ outputs, ∀ l, s.blockDB.getOutputPosition o.commitment = some l →
    s.txHashSet.outputPMMR.current.leafSet l.leafIndex = true

/-- **The loop over the outputs** goes through when no commitment has a position. -/
theorem run_appendOutputs_eq (height : ℕ) {outputs : List TransactionOutput}
    (houtputs : s.txHashSet.outputPMMR.current.Sound n)
    (hproofs : s.txHashSet.rangeProofPMMR.current.Sound n)
    (hnodup : (outputs.map TransactionOutput.commitment).Nodup) (hspot : FindsSpot s outputs) :
    ∃ s', run (appendOutputs G height outputs) s =
        (.ok (outputs.all fun o => (s.blockDB.getOutputPosition o.commitment).isNone), s') ∧
      s'.txHashSet.kernelMMR = s.txHashSet.kernelMMR := by
  induction outputs generalizing s n with
  | nil => exact ⟨s, rfl, rfl⟩
  | cons output outputs ih =>
    rw [appendOutputs, run_bind_ok (run_get s), List.all_cons]
    rcases hposition : s.blockDB.getOutputPosition output.commitment with _ | position
    · rw [List.map_cons, List.nodup_cons] at hnodup
      obtain ⟨files, hfiles, hsound⟩ := @PruneableFiles.Sound.append_ok _ G
        OutputIdentifier.serialize _ _ houtputs (OutputIdentifier.fromOutput output)
      obtain ⟨proofs, hproofs', hsound'⟩ := @PruneableFiles.Sound.append_ok _ G
        RangeProof.serialize _ _ hproofs output.rangeProof
      have hindex : Index.calculateLeafIndex s.txHashSet.outputPMMR.current.getSize = n := by
        rw [houtputs.size, calculateLeafIndex_leafPos]
      obtain ⟨-, -, -, hset⟩ := houtputs.toShape.of_append hfiles
      have hspot' : ∀ o ∈ outputs, ∀ l, s.blockDB.getOutputPosition o.commitment = some l →
          files.leafSet l.leafIndex = true := by
        intro o ho l hl
        rw [hset, LeafSet.add]
        by_cases heq : l.leafIndex = n
        · rw [heq, Function.update_self]
        · rw [Function.update_of_ne heq]
          exact hspot o (List.mem_cons_of_mem _ ho) l hl
      -- the positions of the other commitments are the old ones
      have hother : ∀ o ∈ outputs,
          (s.blockDB.addOutputPosition output.commitment ⟨n, height⟩).getOutputPosition
            o.commitment = s.blockDB.getOutputPosition o.commitment := by
        intro o ho
        have hne : o.commitment ≠ output.commitment :=
          fun heq => hnodup.1 (List.mem_map.mpr ⟨o, ho, heq⟩)
        simp [BlockDB.getOutputPosition, BlockDB.addOutputPosition, hne]
      obtain ⟨s', hrun, hkernels⟩ := @ih
        { blockDB := s.blockDB.addOutputPosition output.commitment ⟨n, height⟩
          txHashSet :=
            { s.txHashSet with
              outputPMMR := s.txHashSet.outputPMMR.write fun _ => files
              rangeProofPMMR := s.txHashSet.rangeProofPMMR.write fun _ => proofs } }
        (n + 1) hsound hsound' hnodup.2
        (fun o ho l hl => hspot' o ho l ((hother o ho).symm.trans hl))
      refine ⟨s', ?_, hkernels⟩
      have hall : (outputs.all fun o => ((s.blockDB.addOutputPosition output.commitment
          ⟨n, height⟩).getOutputPosition o.commitment).isNone) =
          outputs.all fun o => (s.blockDB.getOutputPosition o.commitment).isNone := by
        rw [List.all_eq, List.all_eq]
        refine decide_eq_decide.mpr (forall₂_congr fun o ho => ?_)
        rw [hother o ho]
      dsimp only
      rw [if_neg Bool.false_ne_true, hindex, Option.isNone_none, Bool.true_and, ← hall]
      refine (run_bind_ok (run_updateOutputPMMR hfiles)).trans ?_
      refine (run_bind_ok (run_updateRangeProofPMMR (by exact hproofs'))).trans ?_
      exact (run_bind_ok (run_modify _ _)).trans hrun
    · refine ⟨s, ?_, rfl⟩
      have hset := hspot output List.mem_cons_self position hposition
      dsimp only
      rw [houtputs.isUnpruned_eq, hset]
      rfl

/-- The kernels are these files, the rest is that of another state. -/
structure OnlyKernels (s s' : UtxoState) (kernels : KernelFiles) : Prop where
  /-- The kernels. -/
  kernels_eq : s'.txHashSet.kernelMMR.current = kernels
  /-- The outputs. -/
  outputs_eq : s'.txHashSet.outputPMMR = s.txHashSet.outputPMMR
  /-- The range proofs. -/
  rangeProofs_eq : s'.txHashSet.rangeProofPMMR = s.txHashSet.rangeProofPMMR
  /-- The header. -/
  header_eq : s'.txHashSet.blockHeader = s.txHashSet.blockHeader
  /-- The database. -/
  blockDB_eq : s'.blockDB = s.blockDB

/-- **The loop over the kernels** appends them. -/
theorem run_applyKernels_of {kernels : List TransactionKernel} {files : KernelFiles}
    (h : s.txHashSet.kernelMMR.current.applyAll G kernels = .ok files) :
    ∃ s', run (applyKernels G kernels) s = (.ok (), s') ∧ OnlyKernels s s' files := by
  rw [applyKernels]
  induction kernels generalizing s with
  | nil =>
    cases h
    exact ⟨s, rfl, ⟨rfl, rfl, rfl, rfl, rfl⟩⟩
  | cons kernel kernels ih =>
    rw [KernelFiles.applyAll] at h
    obtain ⟨files₁, hfiles₁, h⟩ := of_bind_eq_ok h
    obtain ⟨s', hrun, hs'⟩ := @ih
      { s with
        txHashSet := { s.txHashSet with
          kernelMMR := s.txHashSet.kernelMMR.write fun _ => files₁ } } h
    refine ⟨s', ?_, ⟨hs'.kernels_eq, hs'.outputs_eq, hs'.rangeProofs_eq, hs'.header_eq,
      hs'.blockDB_eq⟩⟩
    rw [run_forM_cons]
    exact (run_bind_ok (run_updateKernelMMR hfiles₁)).trans hrun

/-- Each leaf that was spent has an input. -/
theorem Pruned.exists_input {s' : UtxoState} {inputs : List TransactionInput}
    {locations : List OutputLocation} (h : Pruned s s' inputs locations) {l : OutputLocation}
    (hl : l ∈ locations) :
    ∃ i ∈ inputs, s.blockDB.getOutputPosition i.commitment = some l := by
  obtain ⟨hlength, hget⟩ := List.forall₂_iff_get.mp h.found
  obtain ⟨k, hk, rfl⟩ := List.getElem_of_mem hl
  exact ⟨inputs[k], List.getElem_mem _, hget k (by omega) hk⟩

/-- **What the inputs spend is not in the way of the outputs** when no commitment is on both
sides. -/
theorem Pruned.findsSpot {s' : UtxoState} {tx : Transaction} {locations : List OutputLocation}
    (h : Pruned s s' tx.body.inputs locations) (hpoints : PointsToUnspent s)
    (hdistinct : TxBodyValidator.DistinctCommitments tx.body) :
    FindsSpot s' tx.body.outputs := by
  intro o ho l hl
  rw [h.blockDB] at hl
  obtain ⟨u, hget, hcommitment⟩ := hpoints o.commitment l hl
  have hkept : l.leafIndex ∉ locations.map OutputLocation.leafIndex := by
    rintro hmem
    obtain ⟨l', hl', heq⟩ := List.mem_map.mp hmem
    obtain ⟨i, hi, hposition⟩ := h.exists_input hl'
    obtain ⟨u', hget', hcommitment'⟩ := hpoints i.commitment l' hposition
    rw [heq, hget, Option.some_inj] at hget'
    subst hget'
    exact hdistinct.disjoint i hi o ho (hcommitment'.symm.trans hcommitment)
  rw [h.outputs]
  simpa [PruneableFiles.removeAll, leafSet_of_getAt hget] using hkept

/-! ### The two agree -/

/-- **The pool and the block agree**: while the position table maps exactly the unspent
commitments, a block at the next height whose inputs and outputs are those of a transaction
without repetitions is applied when the pool accepts the transaction, and refused when it does
not. Neither fails in another way. -/
theorem applyBlock_eq_isValid (hsound : s.Sound n m) (hmaps : MapsUnspent s) {tx : Transaction}
    {block : FullBlock} (hdistinct : TxBodyValidator.DistinctCommitments tx.body)
    (hinputs : block.body.inputs = tx.body.inputs)
    (houtputs : block.body.outputs = tx.body.outputs)
    (hheight : block.getHeight = s.txHashSet.blockHeader.getHeight + 1) :
    (run (applyBlock G block) s).1 = .ok (s.txHashSet.isValid G s.blockDB tx) := by
  have hfinds : FindsUnspent s tx.body.inputs := by
    intro i _ l hl
    obtain ⟨o, hget, hcommitment⟩ := hmaps.points i.commitment l hl
    refine ⟨?_, o, hget, hcommitment⟩
    rw [hsound.leafSet]
    exact leafSet_of_getAt hget
  have hnew : tx.body.outputs.all (outputValid s) =
      tx.body.outputs.all fun o => (s.blockDB.getOutputPosition o.commitment).isNone := by
    rw [funext (outputValid_eq hmaps.points)]
  obtain ⟨spent, s₁, hprune, hspent⟩ := run_pruneInputs_eq
    (Consensus.getMaxCoinbaseHeight G.env (s.txHashSet.blockHeader.getHeight + 1))
    hdistinct.inputs hfinds []
  rw [applyBlock, hinputs, houtputs, hheight, run_bind_ok hprune, isValid_eq, hnew, ← hspent]
  rcases spent with _ | spent
  · rfl
  · obtain ⟨locations, hp, -⟩ := of_run_pruneInputs hprune
    obtain ⟨s₂, happend, hkernels⟩ := @run_appendOutputs_eq G
      { s₁ with blockDB := s₁.blockDB.addSpentPositions (block.getHash G) spent } n
      (s.txHashSet.blockHeader.getHeight + 1) tx.body.outputs
      (hp.outputs ▸ hsound.outputs.removeAll _) (hp.rangeProofs ▸ hsound.rangeProofs.removeAll _)
      hdistinct.outputs (hp.findsSpot hmaps.points hdistinct)
    change run (appendOutputs G (s.txHashSet.blockHeader.getHeight + 1) tx.body.outputs) _ =
      (.ok (tx.body.outputs.all fun o => (s₁.blockDB.getOutputPosition o.commitment).isNone), s₂)
      at happend
    dsimp only [Option.isSome_some]
    rw [Bool.true_and, ← hp.blockDB]
    refine (congrArg Prod.fst (run_bind_ok (run_modify _ _))).trans ?_
    refine (congrArg Prod.fst (run_bind_ok happend)).trans ?_
    cases tx.body.outputs.all fun o => (s₁.blockDB.getOutputPosition o.commitment).isNone with
    | false => rfl
    | true =>
      have hshape : s₂.txHashSet.kernelMMR.current.Shape m := by
        rw [hkernels]
        change s₁.txHashSet.kernelMMR.current.Shape m
        rw [hp.kernels]
        exact hsound.kernels
      obtain ⟨files, hfiles, -⟩ := hshape.applyAll_ok (G := G) block.body.kernels
      obtain ⟨s₃, hkernels', -⟩ := @run_applyKernels_of G
        { s₂ with
          blockDB := s₂.blockDB.removeOutputPositions
            (tx.body.inputs.map TransactionInput.commitment) } block.body.kernels files hfiles
      rw [if_pos rfl]
      refine (congrArg Prod.fst (run_bind_ok (run_modify _ _))).trans ?_
      exact congrArg Prod.fst (run_bind_ok hkernels')

/-- **A block that is applied keeps the ranges sound.** -/
theorem sound_of_applied {s' : UtxoState} {block : FullBlock} {locations : List OutputLocation}
    (hsound : s.Sound n m) (h : Applied G s s' n block locations) :
    s'.Sound (n + block.body.outputs.length) (m + block.body.kernels.length) := by
  obtain ⟨outputs, houtputs, hsound₁⟩ := @PruneableFiles.Sound.appendAll_ok _ G
    OutputIdentifier.serialize _ _
    (hsound.outputs.removeAll (locations.map OutputLocation.leafIndex))
    (block.body.outputs.map OutputIdentifier.fromOutput)
  obtain ⟨proofs, hproofs, hsound₂⟩ := @PruneableFiles.Sound.appendAll_ok _ G
    RangeProof.serialize _ _
    (hsound.rangeProofs.removeAll (locations.map OutputLocation.leafIndex))
    (block.body.outputs.map TransactionOutput.rangeProof)
  obtain ⟨kernels, hkernels, hshape⟩ := hsound.kernels.applyAll_ok (G := G) block.body.kernels
  obtain rfl := Except.ok.inj (houtputs.symm.trans h.outputs)
  obtain rfl := Except.ok.inj (hproofs.symm.trans h.rangeProofs)
  obtain rfl := Except.ok.inj (hkernels.symm.trans h.kernels)
  rw [List.length_map] at hsound₁ hsound₂
  refine ⟨hsound₁, hsound₂, hshape, ?_⟩
  obtain ⟨-, -, -, hset₁⟩ := (hsound.outputs.removeAll _).toShape.of_appendAll h.outputs
  obtain ⟨-, -, -, hset₂⟩ := (hsound.rangeProofs.removeAll _).toShape.of_appendAll h.rangeProofs
  funext i
  rw [hset₁, hset₂, PruneableFiles.removeAll, PruneableFiles.removeAll, hsound.leafSet,
    List.length_map, List.length_map]

/-! ### An example -/

open SmallNet

theorem sound_plainState {header : BlockHeader} : (plainState n header).Sound n 0 where
  outputs := ⟨shape_plainOutputs, PruneList.apart_empty⟩
  rangeProofs := ⟨shape_plainRangeProofs, PruneList.apart_empty⟩
  kernels := ⟨rfl, rfl⟩
  leafSet := rfl

/-- The transaction with the inputs and the outputs of the small block. -/
def smallBlockTransaction : Transaction where
  offset := noBlind
  body := smallBlock.body

theorem distinctCommitments_smallBlockTransaction :
    TxBodyValidator.DistinctCommitments smallBlockTransaction.body where
  inputs := List.nodup_singleton _
  outputs := List.nodup_singleton _
  disjoint := by decide +kernel

theorem isValid_smallBlockTransaction :
    (plainState 1 (sizedHeader 3)).txHashSet.isValid (smallNet .automatedTesting)
      (plainState 1 (sizedHeader 3)).blockDB smallBlockTransaction = true := by
  decide +kernel

/-- The pool accepts the transaction, so the block is applied. -/
theorem applyBlock_eq_isValid_smallBlock :
    (run (applyBlock (smallNet .automatedTesting) smallBlock) (plainState 1 (sizedHeader 3))).1 =
      .ok true := by
  have h := @applyBlock_eq_isValid (smallNet .automatedTesting)
    (plainState 1 (sizedHeader 3)) 1 0 sound_plainState TxBodyValidator.mapsUnspent_plainState
    smallBlockTransaction smallBlock distinctCommitments_smallBlockTransaction rfl rfl rfl
  rwa [isValid_smallBlockTransaction] at h

end TxHashSet

end GrinPlusPlus
