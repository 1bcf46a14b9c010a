import GrinPlusPlus.Core.Serialization
import GrinPlusPlus.Pmmr.MempoolRules
import GrinPlusPlus.Pmmr.OutputBitmap

/-!
# The roots for a new block

`TxHashSet::GetRoots` returns what the roots and the sizes of the three ranges are once a body has
been applied. It replays the body by loops of its own, in another order than
`TxHashSet::ApplyBlock` does: the kernels first, then the inputs, then the outputs, without a look
at the position of an output and without writing one. It reads the sizes off the header and the
body, not off the files.

Two things are proved. The replay leaves **the same files** as the block
(`GrinPlusPlus.TxHashSet.run_replayBody`), because the three components are independent. So a
header with these roots and sizes passes `TxHashSet::ValidateRoots`
(`GrinPlusPlus.TxHashSet.validateRoots_of_getRoots`), with one proviso: from version 3 on, a header
does not have the root of the output range itself but the one merged with the root of the unspent
outputs, which is left to the caller to do. The proviso is needed
(`GrinPlusPlus.TxHashSet.not_rootsSuffice`).
-/

namespace GrinPlusPlus

open PostOrder MMRHashUtil Exec

/-- `MMRInfo`. -/
structure MMRInfo where
  /-- `root`. -/
  root : Hash
  /-- `size`. -/
  size : ℕ
deriving DecidableEq

/-- `TxHashSetRoots`. -/
structure TxHashSetRoots where
  /-- `m_kernelInfo`. -/
  kernelInfo : MMRInfo
  /-- `m_outputInfo`. -/
  outputInfo : MMRInfo
  /-- `m_rangeProofInfo`. -/
  rangeProofInfo : MMRInfo
deriving DecidableEq

namespace TxHashSet

variable (G : Global)

/-! ### `GetRoots` -/

/-- The second loop of `TxHashSet::GetRoots`, one pass. -/
def removeInput (input : TransactionInput) : Exec Exc UtxoState Unit := do
  let s ← get
  match s.blockDB.getOutputPosition input.commitment with
  | none => throw (.runtime ("Output position not found for input Commitment\x7b" ++
      input.commitment.toHex ++ "\x7d"))
  | some position => do
    updateOutputPMMR fun f => f.remove position.leafIndex
    updateRangeProofPMMR fun f => f.remove position.leafIndex

/-- The third loop of `TxHashSet::GetRoots`, one pass. -/
def appendOutput (output : TransactionOutput) : Exec Exc UtxoState Unit := do
  updateOutputPMMR fun f =>
    f.append G OutputIdentifier.serialize (OutputIdentifier.fromOutput output)
  updateRangeProofPMMR fun f => f.append G RangeProof.serialize output.rangeProof

/-- The three loops of `TxHashSet::GetRoots`. -/
def replayBody (body : TransactionBody) : Exec Exc UtxoState Unit := do
  applyKernels G body.kernels
  body.inputs.forM removeInput
  body.outputs.forM (appendOutput G)

/-- `TxHashSet::GetRoots`. -/
def getRoots (body : TransactionBody) : Exec Exc UtxoState TxHashSetRoots := do
  replayBody G body
  let s ← get
  let numKernels := s.txHashSet.blockHeader.getNumKernels + body.kernels.length
  let kernelSize := leafPosition numKernels
  let kernelRoot ← Exec.ofExcept (s.txHashSet.kernelMMR.current.root G kernelSize)
  let numOutputs := s.txHashSet.blockHeader.getNumOutputs + body.outputs.length
  let outputSize := leafPosition numOutputs
  let outputRoot ← Exec.ofExcept (s.txHashSet.outputPMMR.current.root G outputSize)
  let proofRoot ← Exec.ofExcept (s.txHashSet.rangeProofPMMR.current.root G outputSize)
  pure ⟨⟨kernelRoot, kernelSize⟩, ⟨outputRoot, outputSize⟩, ⟨proofRoot, outputSize⟩⟩

variable {G} {s s' : UtxoState} {n m : ℕ}

/-! ### The same files -/

/-- The outputs and range proofs are these files, the rest is that of another state. -/
structure OnlyOutputs (s s' : UtxoState) (outputs : PruneableFiles OutputIdentifier)
    (rangeProofs : PruneableFiles RangeProof) : Prop where
  /-- The outputs. -/
  outputs_eq : s'.txHashSet.outputPMMR.current = outputs
  /-- The range proofs. -/
  rangeProofs_eq : s'.txHashSet.rangeProofPMMR.current = rangeProofs
  /-- The kernels. -/
  kernels_eq : s'.txHashSet.kernelMMR = s.txHashSet.kernelMMR
  /-- The header. -/
  header_eq : s'.txHashSet.blockHeader = s.txHashSet.blockHeader
  /-- The database. -/
  blockDB_eq : s'.blockDB = s.blockDB

theorem run_removeInput {input : TransactionInput} {l : OutputLocation}
    (hposition : s.blockDB.getOutputPosition input.commitment = some l)
    (hset : s.txHashSet.outputPMMR.current.leafSet l.leafIndex = true)
    (hproof : s.txHashSet.rangeProofPMMR.current.leafSet l.leafIndex = true) :
    run (removeInput input) s = (.ok (), spendLeaf s l.leafIndex) := by
  rw [removeInput, run_bind_ok (run_get s), hposition]
  refine (run_bind_ok (run_updateOutputPMMR (by
    rw [PruneableFiles.remove, if_pos hset]))).trans ?_
  exact run_updateRangeProofPMMR (by rw [PruneableFiles.remove, if_pos (by exact hproof)])

/-- **The loop over the inputs** clears the leaves of the inputs. -/
theorem run_removeInputs {inputs : List TransactionInput} {locations : List OutputLocation}
    (hfound : List.Forall₂ (fun i l => s.blockDB.getOutputPosition i.commitment = some l) inputs
      locations)
    (hset : ∀ l ∈ locations, s.txHashSet.outputPMMR.current.leafSet l.leafIndex = true)
    (hproof : ∀ l ∈ locations, s.txHashSet.rangeProofPMMR.current.leafSet l.leafIndex = true)
    (hnodup : (locations.map OutputLocation.leafIndex).Nodup) :
    ∃ s', run (inputs.forM removeInput) s = (.ok (), s') ∧
      OnlyOutputs s s'
        (s.txHashSet.outputPMMR.current.removeAll (locations.map OutputLocation.leafIndex))
        (s.txHashSet.rangeProofPMMR.current.removeAll
          (locations.map OutputLocation.leafIndex)) := by
  induction inputs generalizing s locations with
  | nil =>
    cases hfound
    refine ⟨s, rfl, ⟨?_, ?_, rfl, rfl, rfl⟩⟩
    · exact (PruneableFiles.removeAll_nil _).symm
    · exact (PruneableFiles.removeAll_nil _).symm
  | cons input inputs ih =>
    obtain ⟨l, locations, hposition, hrest, rfl⟩ := List.forall₂_cons_left_iff.mp hfound
    rw [List.forall_mem_cons] at hset hproof
    rw [List.map_cons, List.nodup_cons] at hnodup
    have hne : ∀ l' ∈ locations, l'.leafIndex ≠ l.leafIndex :=
      fun l' hl' heq => hnodup.1 (List.mem_map.mpr ⟨l', hl', heq⟩)
    obtain ⟨s', hrun, hs'⟩ := @ih (spendLeaf s l.leafIndex) locations hrest
      (fun l' hl' => (Function.update_of_ne (hne l' hl') _ _).trans (hset.2 l' hl'))
      (fun l' hl' => (Function.update_of_ne (hne l' hl') _ _).trans (hproof.2 l' hl')) hnodup.2
    refine ⟨s', ?_, ⟨?_, ?_, hs'.kernels_eq, hs'.header_eq, hs'.blockDB_eq⟩⟩
    · rw [run_forM_cons, run_bind_ok (run_removeInput hposition hset.1 hproof.1)]
      exact hrun
    · rw [List.map_cons, PruneableFiles.removeAll_cons]
      exact hs'.outputs_eq
    · rw [List.map_cons, PruneableFiles.removeAll_cons]
      exact hs'.rangeProofs_eq

/-- **The loop over the outputs** appends them. -/
theorem run_appendOutputs_of {created : List TransactionOutput}
    {outputs : PruneableFiles OutputIdentifier} {rangeProofs : PruneableFiles RangeProof}
    (houtputs : s.txHashSet.outputPMMR.current.appendAll G OutputIdentifier.serialize
      (created.map OutputIdentifier.fromOutput) = .ok outputs)
    (hproofs : s.txHashSet.rangeProofPMMR.current.appendAll G RangeProof.serialize
      (created.map TransactionOutput.rangeProof) = .ok rangeProofs) :
    ∃ s', run (created.forM (appendOutput G)) s = (.ok (), s') ∧
      OnlyOutputs s s' outputs rangeProofs := by
  induction created generalizing s with
  | nil =>
    cases houtputs
    cases hproofs
    exact ⟨s, rfl, ⟨rfl, rfl, rfl, rfl, rfl⟩⟩
  | cons output created ih =>
    rw [List.map_cons, PruneableFiles.appendAll] at houtputs hproofs
    obtain ⟨files, hfiles, houtputs⟩ := of_bind_eq_ok houtputs
    obtain ⟨proofs, hproofs', hproofs⟩ := of_bind_eq_ok hproofs
    obtain ⟨s', hrun, hs'⟩ := @ih
      { s with
        txHashSet :=
          { s.txHashSet with
            outputPMMR := s.txHashSet.outputPMMR.write fun _ => files
            rangeProofPMMR := s.txHashSet.rangeProofPMMR.write fun _ => proofs } }
      houtputs hproofs
    refine ⟨s', ?_, ⟨hs'.outputs_eq, hs'.rangeProofs_eq, hs'.kernels_eq, hs'.header_eq,
      hs'.blockDB_eq⟩⟩
    have hstep : run (appendOutput G output) s =
        (.ok (), { s with
          txHashSet :=
            { s.txHashSet with
              outputPMMR := s.txHashSet.outputPMMR.write fun _ => files
              rangeProofPMMR := s.txHashSet.rangeProofPMMR.write fun _ => proofs } }) := by
      refine (run_bind_ok (run_updateOutputPMMR (by exact hfiles))).trans ?_
      exact run_updateRangeProofPMMR (by exact hproofs')
    rw [run_forM_cons, run_bind_ok hstep]
    exact hrun

/-- The two hash sets have the same files. -/
structure SameFiles (t t' : TxHashSet) : Prop where
  /-- The kernels. -/
  kernels : t'.kernelMMR.current = t.kernelMMR.current
  /-- The outputs. -/
  outputs : t'.outputPMMR.current = t.outputPMMR.current
  /-- The range proofs. -/
  rangeProofs : t'.rangeProofPMMR.current = t.rangeProofPMMR.current

/-- **The replay leaves the files that the block leaves**, and nothing else changes. -/
theorem run_replayBody {block : FullBlock} {locations : List OutputLocation}
    (h : Applied G s s' n block locations) :
    ∃ t, run (replayBody G block.body) s = (.ok (), t) ∧ SameFiles s'.txHashSet t.txHashSet ∧
      t.txHashSet.blockHeader = s.txHashSet.blockHeader ∧ t.blockDB = s.blockDB := by
  obtain ⟨s₁, hrun₁, h₁⟩ := run_applyKernels_of h.kernels
  have hset : ∀ l ∈ locations, s₁.txHashSet.outputPMMR.current.leafSet l.leafIndex = true := by
    intro l hl
    obtain ⟨o, ho⟩ := Option.isSome_iff_exists.mp (h.unspent l hl)
    rw [h₁.outputs_eq]
    exact leafSet_of_getAt ho
  obtain ⟨s₂, hrun₂, h₂⟩ := @run_removeInputs s₁ block.body.inputs locations
    (h₁.blockDB_eq ▸ h.found) hset (h₁.rangeProofs_eq ▸ h.unspentProof) h.nodup
  have houtputs := h.outputs
  have hproofs := h.rangeProofs
  rw [← h₁.outputs_eq, ← h₂.outputs_eq] at houtputs
  rw [← h₁.rangeProofs_eq, ← h₂.rangeProofs_eq] at hproofs
  obtain ⟨s₃, hrun₃, h₃⟩ := run_appendOutputs_of houtputs hproofs
  refine ⟨s₃, ?_, ⟨?_, h₃.outputs_eq, h₃.rangeProofs_eq⟩, ?_, ?_⟩
  · rw [replayBody, run_bind_ok hrun₁, run_bind_ok hrun₂]
    exact hrun₃
  · rw [h₃.kernels_eq, h₂.kernels_eq]
    exact h₁.kernels_eq
  · rw [h₃.header_eq, h₂.header_eq, h₁.header_eq]
  · rw [h₃.blockDB_eq, h₂.blockDB_eq, h₁.blockDB_eq]

/-! ### The header of the block -/

/-- The header is built from the roots and sizes that were returned. Its output root is the one
that was returned, up to version 2; from version 3 on it is that one merged with the root of the
unspent outputs, in the state in which the roots were taken. -/
structure BuiltFrom (G : Global) (header : BlockHeader) (roots : TxHashSetRoots)
    (t : TxHashSet) : Prop where
  /-- The kernel root. -/
  kernelRoot : header.kernelRoot = roots.kernelInfo.root
  /-- The size of the kernels. -/
  kernelMMRSize : header.getKernelMMRSize = roots.kernelInfo.size
  /-- The size of the outputs and range proofs. -/
  outputMMRSize : header.getOutputMMRSize = roots.outputInfo.size
  /-- The output root, up to version 2, … -/
  outputRoot : header.version < 3 → header.outputRoot = roots.outputInfo.root
  /-- … and from version 3 on. -/
  mergedRoot : 3 ≤ header.version → ∀ ubmt,
    t.outputPMMR.current.ubmtRoot G header.getNumOutputs = .ok ubmt →
      header.outputRoot =
        hashParentWithIndex G roots.outputInfo.root ubmt header.getOutputMMRSize
  /-- The range proof root. -/
  rangeProofRoot : header.rangeProofRoot = roots.rangeProofInfo.root

/-- What was returned are the roots of the files at the sizes that were returned. -/
structure RootsOf (G : Global) (t : TxHashSet) (roots : TxHashSetRoots) : Prop where
  /-- The outputs and the range proofs have one size. -/
  size_eq : roots.rangeProofInfo.size = roots.outputInfo.size
  /-- The kernel root. -/
  kernels : t.kernelMMR.current.root G roots.kernelInfo.size = .ok roots.kernelInfo.root
  /-- The output root. -/
  outputs : t.outputPMMR.current.root G roots.outputInfo.size = .ok roots.outputInfo.root
  /-- The range proof root. -/
  rangeProofs : t.rangeProofPMMR.current.root G roots.outputInfo.size =
    .ok roots.rangeProofInfo.root

/-- **What `GetRoots` returns** for a body that can be applied are the roots of the files that
the block leaves. -/
theorem run_getRoots {block : FullBlock} {locations : List OutputLocation}
    (hsound : s.Sound s.txHashSet.blockHeader.getNumOutputs s.txHashSet.blockHeader.getNumKernels)
    (h : Applied G s s' s.txHashSet.blockHeader.getNumOutputs block locations) :
    ∃ roots t, run (getRoots G block.body) s = (.ok roots, t) ∧
      SameFiles s'.txHashSet t.txHashSet ∧ RootsOf G s'.txHashSet roots := by
  obtain ⟨t, hrun, hfiles, hheader, -⟩ := run_replayBody h
  have hafter := sound_of_applied hsound h
  obtain ⟨kernelRoot, hkernel⟩ := hafter.kernels.root_ok (G := G)
  obtain ⟨outputRoot, houtput⟩ := hafter.outputs.root_ok (G := G)
  obtain ⟨proofRoot, hproof⟩ := hafter.rangeProofs.root_ok (G := G)
  refine ⟨⟨⟨kernelRoot, leafPosition _⟩, ⟨outputRoot, leafPosition _⟩,
    ⟨proofRoot, leafPosition _⟩⟩, t, ?_, hfiles, rfl, hkernel, houtput, hproof⟩
  rw [← hfiles.kernels, ← hheader] at hkernel
  rw [← hfiles.outputs, ← hheader] at houtput
  rw [← hfiles.rangeProofs, ← hheader] at hproof
  rw [getRoots, run_bind_ok hrun, run_bind_ok (run_get t), ← hheader]
  refine (run_bind_ok (congrArg (·, t) hkernel)).trans ?_
  refine (run_bind_ok (congrArg (·, t) houtput)).trans ?_
  exact run_bind_ok (congrArg (·, t) hproof)

/-- **A header that is built from the roots that were returned passes the check** once the block
has been applied. -/
theorem validateRoots_of_builtFrom {header : BlockHeader} {roots : TxHashSetRoots}
    {t t' : TxHashSet} (hroots : RootsOf G t' roots) (hfiles : SameFiles t' t)
    (h : BuiltFrom G header roots t) : t'.validateRoots G header = .ok true := by
  rw [validateRoots, h.kernelMMRSize, hroots.kernels, ok_bind, if_neg (not_not.mpr
    h.kernelRoot.symm), h.outputMMRSize, hroots.outputs, ok_bind]
  have hvalid : outputRootValid G t' header roots.outputInfo.root = .ok true := by
    rw [outputRootValid]
    split_ifs with hversion
    · rw [h.outputRoot hversion]
      simp
    · -- the root of the unspent outputs is that of the state in which the roots were taken
      have hubmt := LeafSet.root_eq (G := G) t'.outputPMMR.current.leafSet header.getNumOutputs
      rw [PruneableFiles.ubmtRoot, hubmt, ok_bind, h.mergedRoot (Nat.le_of_not_lt hversion) _ (by
        rw [PruneableFiles.ubmtRoot, hfiles.outputs, hubmt])]
      simp
  rw [hvalid, ok_bind, if_neg (by simp), hroots.rangeProofs, ok_bind, h.rangeProofRoot]
  simp

theorem steps_getRoots (body : TransactionBody) :
    Steps (Same UtxoState.permanent) (getRoots G body) := by
  have hreplay : Steps (Same UtxoState.permanent) (replayBody G body) := by
    refine steps_bind (steps_forM _ fun _ _ => steps_updateKernelMMR _) fun _ => ?_
    refine steps_bind (steps_forM _ fun input _ => ?_) fun _ => ?_
    · refine steps_bind steps_get fun s => ?_
      split
      · exact steps_throw _
      · exact steps_bind (steps_updateOutputPMMR _) fun _ => steps_updateRangeProofPMMR _
    · refine steps_forM _ fun output _ => ?_
      exact steps_bind (steps_updateOutputPMMR _) fun _ => steps_updateRangeProofPMMR _
  refine steps_bind hreplay fun _ => ?_
  refine steps_bind steps_get fun s => ?_
  refine steps_bind (steps_ofExcept _) fun _ => ?_
  refine steps_bind (steps_ofExcept _) fun _ => ?_
  exact steps_bind (steps_ofExcept _) fun _ => steps_pure _

/-- **The roots for a new block**: for a body that can be applied they are returned, a rollback
then gives the hash set back, and a block with the body and a header built from them has the
roots that are checked. -/
theorem validateRoots_of_getRoots {block : FullBlock}
    (hsound : s.Sound s.txHashSet.blockHeader.getNumOutputs s.txHashSet.blockHeader.getNumKernels)
    (happly : run (applyBlock G block) s = (.ok true, s')) :
    ∃ roots t, run (getRoots G block.body) s = (.ok roots, t) ∧
      (s.txHashSet.AtRest → t.txHashSet.rollback = s.txHashSet) ∧
      (BuiltFrom G block.header roots t.txHashSet →
        s'.txHashSet.validateRoots G block.header = .ok true) := by
  obtain ⟨locations, h⟩ := of_run_applyBlock hsound.outputs.toShape happly
  obtain ⟨roots, t, hrun, hfiles, hroots⟩ := run_getRoots hsound h
  refine ⟨roots, t, hrun, fun hrest => ?_, validateRoots_of_builtFrom hroots hfiles⟩
  have hpermanent : t.permanent = s.permanent := by
    have hsteps := steps_getRoots (G := G) block.body s
    rwa [hrun] at hsteps
  exact rollback_eq hrest (congrArg (fun p => p.2.2) hpermanent)

/-! ### From version 3 on -/

section Versions

open SmallNet

/-- The header has the roots and sizes that were returned. -/
structure HasRoots (header : BlockHeader) (roots : TxHashSetRoots) : Prop where
  /-- The kernel root. -/
  kernelRoot : header.kernelRoot = roots.kernelInfo.root
  /-- The size of the kernels. -/
  kernelMMRSize : header.getKernelMMRSize = roots.kernelInfo.size
  /-- The output root. -/
  outputRoot : header.outputRoot = roots.outputInfo.root
  /-- The size of the outputs and range proofs. -/
  outputMMRSize : header.getOutputMMRSize = roots.outputInfo.size
  /-- The range proof root. -/
  rangeProofRoot : header.rangeProofRoot = roots.rangeProofInfo.root

/-- Every block at the next height that can be applied and whose header has the version of that
height and the roots that were returned for its body passes the check. -/
def RootsSuffice (G : Global) (s : UtxoState) : Prop :=
  ∀ block s' roots t, block.getHeight = s.txHashSet.blockHeader.getHeight + 1 →
    block.header.version.toNat = Consensus.getHeaderVersion G.env block.getHeight →
    run (applyBlock G block) s = (.ok true, s') →
    run (getRoots G block.body) s = (.ok roots, t) → HasRoots block.header roots →
    s'.txHashSet.validateRoots G block.header = .ok true

/-- The header in front of the third version. -/
def forkHeader : BlockHeader :=
  { genesisHeader with height := 524159, version := 2, outputMMRSize := 1, kernelMMRSize := 0 }

/-- One unspent output in front of the third version. -/
def forkState : UtxoState :=
  plainState 1 forkHeader

/-- The roots for a body that spends it and creates another one. -/
def offeredRoots : TxHashSetRoots :=
  (run (getRoots (smallNet .automatedTesting) smallBlock.body) forkState).1.toOption.getD
    ⟨⟨Hash.zero, 0⟩, ⟨Hash.zero, 0⟩, ⟨Hash.zero, 0⟩⟩

/-- The state in which they are taken. -/
def offeredState : UtxoState :=
  (run (getRoots (smallNet .automatedTesting) smallBlock.body) forkState).2

theorem run_getRoots_forkState :
    run (getRoots (smallNet .automatedTesting) smallBlock.body) forkState =
      (.ok offeredRoots, offeredState) := by
  have hok : (run (getRoots (smallNet .automatedTesting) smallBlock.body) forkState).1 =
      .ok offeredRoots := by
    decide +kernel
  exact Prod.ext hok rfl

/-- The block of the third version with some roots. -/
def blockWith (kernelRoot outputRoot rangeProofRoot : Hash) : FullBlock where
  header := { forkHeader with
    height := 524160
    version := 3
    kernelRoot := kernelRoot
    kernelMMRSize := 1
    outputRoot := outputRoot
    outputMMRSize := 3
    rangeProofRoot := rangeProofRoot }
  body := smallBlock.body

/-- The block with the kernel and range proof roots that were returned. -/
def forkBlock (outputRoot : Hash) : FullBlock :=
  blockWith offeredRoots.kernelInfo.root outputRoot offeredRoots.rangeProofInfo.root

theorem roots_blockWith (kernelRoot outputRoot rangeProofRoot : Hash) :
    (blockWith kernelRoot outputRoot rangeProofRoot).header.kernelRoot = kernelRoot ∧
      (blockWith kernelRoot outputRoot rangeProofRoot).header.outputRoot = outputRoot ∧
      (blockWith kernelRoot outputRoot rangeProofRoot).header.rangeProofRoot = rangeProofRoot :=
  ⟨rfl, rfl, rfl⟩

/-- Its state when it is applied. -/
def forkBlockState (outputRoot : Hash) : UtxoState :=
  (run (applyBlock (smallNet .automatedTesting) (forkBlock outputRoot)) forkState).2

theorem sound_forkState :
    forkState.Sound forkState.txHashSet.blockHeader.getNumOutputs
      forkState.txHashSet.blockHeader.getNumKernels := by
  have houtputs : forkState.txHashSet.blockHeader.getNumOutputs = 1 := by decide +kernel
  have hkernels : forkState.txHashSet.blockHeader.getNumKernels = 0 := by decide +kernel
  rw [houtputs, hkernels]
  exact sound_plainState

/-- The output root with that of the unspent outputs. -/
def mergedRoot : Hash :=
  hashParentWithIndex (smallNet .automatedTesting) offeredRoots.outputInfo.root
    ((offeredState.txHashSet.outputPMMR.current.ubmtRoot
      (smallNet .automatedTesting) 2).toOption.getD Hash.zero) 3

/-- The block with the merged root passes the check. -/
theorem validateRoots_of_getRoots_forkBlock :
    (forkBlockState mergedRoot).txHashSet.validateRoots (smallNet .automatedTesting)
      (forkBlock mergedRoot).header = .ok true := by
  have happly : run (applyBlock (smallNet .automatedTesting) (forkBlock mergedRoot)) forkState =
      (.ok true, forkBlockState mergedRoot) := by
    have hok : (run (applyBlock (smallNet .automatedTesting) (forkBlock mergedRoot))
        forkState).1 = .ok true := by
      decide +kernel
    exact Prod.ext hok rfl
  obtain ⟨roots, t, hrun, -, hvalid⟩ := validateRoots_of_getRoots sound_forkState happly
  obtain ⟨hroots, rfl⟩ := Prod.ext_iff.mp (hrun.symm.trans run_getRoots_forkState)
  obtain rfl := Except.ok.inj hroots
  refine hvalid ⟨(roots_blockWith _ _ _).1, by decide +kernel, by decide +kernel, ?_, ?_,
    (roots_blockWith _ _ _).2.2⟩
  · rintro hversion
    exact absurd hversion (by decide)
  · rintro - ubmt hubmt
    have hnum : (forkBlock mergedRoot).header.getNumOutputs = 2 := by decide +kernel
    have hsize : (forkBlock mergedRoot).header.getOutputMMRSize = 3 := by decide +kernel
    rw [hnum] at hubmt
    refine (roots_blockWith _ _ _).2.1.trans ?_
    rw [hsize, mergedRoot, hubmt]
    rfl

/-- **The output root itself is refused** from version 3 on. -/
theorem not_rootsSuffice :
    forkState.Sound forkState.txHashSet.blockHeader.getNumOutputs
        forkState.txHashSet.blockHeader.getNumKernels ∧
      ¬ RootsSuffice (smallNet .automatedTesting) forkState := by
  refine ⟨sound_forkState, fun h => ?_⟩
  have hok : (run (applyBlock (smallNet .automatedTesting)
      (forkBlock offeredRoots.outputInfo.root)) forkState).1 = .ok true := by
    decide +kernel
  have hvalid := h (forkBlock offeredRoots.outputInfo.root)
    (forkBlockState offeredRoots.outputInfo.root) offeredRoots offeredState (by decide +kernel)
    (by decide +kernel) (Prod.ext hok rfl) run_getRoots_forkState
    ⟨(roots_blockWith _ _ _).1, by decide +kernel, (roots_blockWith _ _ _).2.1, by decide +kernel,
      (roots_blockWith _ _ _).2.2⟩
  have hinvalid : (forkBlockState offeredRoots.outputInfo.root).txHashSet.validateRoots
      (smallNet .automatedTesting) (forkBlock offeredRoots.outputInfo.root).header =
        .ok false := by
    decide +kernel
  rw [hvalid] at hinvalid
  cases hinvalid

end Versions

end TxHashSet

end GrinPlusPlus
