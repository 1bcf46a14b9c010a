import GrinPlusPlus.Core.Validation
import GrinPlusPlus.Database.BlockDB
import GrinPlusPlus.Lib.Exec
import GrinPlusPlus.Pmmr.PruneableMMR

/-!
# The transaction hash set

`TxHashSet`: the ranges of the kernels, outputs and range proofs, and the header they are
at. Its methods read and write the block database as well, so they run on the pair of the
two (`GrinPlusPlus.UtxoState`), and a method that fails leaves what it did so far.

* `GrinPlusPlus.TxHashSet.applyBlock` – `ApplyBlock`;
* `GrinPlusPlus.TxHashSet.validateNRDKernelRules`, `GrinPlusPlus.TxHashSet.validateRoots` –
  the two checks that follow it;
* `GrinPlusPlus.TxHashSet.rewind` – `Rewind`, block by block;
* `GrinPlusPlus.TxHashSet.saveOutputPositions` – the position table of a range that was
  downloaded.

`Exec.Steps` lemmas say that none of them touches what is permanent
(`GrinPlusPlus.UtxoState.permanent`).
-/

namespace GrinPlusPlus

open MMRHashUtil

/-- `TxHashSet`. -/
structure TxHashSet where
  /-- `m_pKernelMMR`. -/
  kernelMMR : KernelMMR
  /-- `m_pOutputPMMR`. -/
  outputPMMR : OutputPMMR
  /-- `m_pRangeProofPMMR`. -/
  rangeProofPMMR : RangeProofPMMR
  /-- `m_pBlockHeader`. -/
  blockHeader : BlockHeader
  /-- `m_pBlockHeaderBackup`. -/
  blockHeaderBackup : BlockHeader

/-- The block database and the transaction hash set. -/
structure UtxoState where
  /-- The database. -/
  blockDB : BlockDB
  /-- The hash set. -/
  txHashSet : TxHashSet

namespace TxHashSet

/-- `TxHashSet::Commit`. -/
def commit (t : TxHashSet) : TxHashSet where
  kernelMMR := t.kernelMMR.commit
  outputPMMR := t.outputPMMR.commit
  rangeProofPMMR := t.rangeProofPMMR.commit
  blockHeader := t.blockHeader
  blockHeaderBackup := t.blockHeader

/-- `TxHashSet::Rollback`. -/
def rollback (t : TxHashSet) : TxHashSet where
  kernelMMR := t.kernelMMR.rollback
  outputPMMR := t.outputPMMR.rollback
  rangeProofPMMR := t.rangeProofPMMR.rollback
  blockHeader := t.blockHeaderBackup
  blockHeaderBackup := t.blockHeaderBackup

/-- Nothing is pending. -/
structure AtRest (t : TxHashSet) : Prop where
  /-- No kernels … -/
  kernelMMR : t.kernelMMR.AtRest
  /-- … no outputs … -/
  outputPMMR : t.outputPMMR.AtRest
  /-- … no range proofs … -/
  rangeProofPMMR : t.rangeProofPMMR.AtRest
  /-- … and no header. -/
  blockHeader : t.blockHeader = t.blockHeaderBackup

/-- `TxHashSet::GetFlushedBlockHeader`. -/
def getFlushedBlockHeader (t : TxHashSet) : BlockHeader := t.blockHeaderBackup

/-! ### The components -/

/-- Change the output range. -/
def updateOutputPMMR (f : PruneableFiles OutputIdentifier →
    Except Exc (PruneableFiles OutputIdentifier)) : Exec Exc UtxoState Unit :=
  Exec.update fun s => do
    let files ← f s.txHashSet.outputPMMR.current
    .ok { s with
      txHashSet :=
        { s.txHashSet with outputPMMR := s.txHashSet.outputPMMR.write fun _ => files } }

/-- Change the range proof range. -/
def updateRangeProofPMMR (f : PruneableFiles RangeProof → Except Exc (PruneableFiles RangeProof)) :
    Exec Exc UtxoState Unit :=
  Exec.update fun s => do
    let files ← f s.txHashSet.rangeProofPMMR.current
    .ok { s with
      txHashSet :=
        { s.txHashSet with rangeProofPMMR := s.txHashSet.rangeProofPMMR.write fun _ => files } }

/-- Change the kernel range. -/
def updateKernelMMR (f : KernelFiles → Except Exc KernelFiles) : Exec Exc UtxoState Unit :=
  Exec.update fun s => do
    let files ← f s.txHashSet.kernelMMR.current
    .ok { s with
      txHashSet := { s.txHashSet with kernelMMR := s.txHashSet.kernelMMR.write fun _ => files } }

/-- Change the database. -/
def modifyDB (f : BlockDB → BlockDB) : Exec Exc UtxoState Unit :=
  modify fun s => { s with blockDB := f s.blockDB }

/-- Replace `m_pBlockHeader`. -/
def setBlockHeader (header : BlockHeader) : Exec Exc UtxoState Unit :=
  modify fun s => { s with txHashSet := { s.txHashSet with blockHeader := header } }

variable (G : Global)

/-! ### `ApplyBlock` -/

/-- The first loop of `TxHashSet::ApplyBlock`: the spent outputs, or `none` where the source
returns `false`. The source asserts that the output is there; the assertion is compiled
out. -/
def pruneInputs (maximumBlockHeight : ℕ) : List TransactionInput → List SpentOutput →
    Exec Exc UtxoState (Option (List SpentOutput))
  | [], spentPositions => pure (some spentPositions)
  | input :: inputs, spentPositions => do
    let s ← get
    match s.blockDB.getOutputPosition input.commitment with
    | none => pure none
    | some position =>
      match s.txHashSet.outputPMMR.current.getAt position.leafIndex with
      | none => throw .undefined
      | some output =>
        if output.features.isCoinbase = true ∧ maximumBlockHeight < position.blockHeight then
          pure none
        else do
          updateOutputPMMR fun f => f.remove position.leafIndex
          updateRangeProofPMMR fun f => f.remove position.leafIndex
          pruneInputs maximumBlockHeight inputs
            (spentPositions ++ [⟨input.commitment, position⟩])

/-- The second loop of `TxHashSet::ApplyBlock`. -/
def appendOutputs (blockHeight : ℕ) : List TransactionOutput → Exec Exc UtxoState Bool
  | [] => pure true
  | output :: outputs => do
    let s ← get
    let exists_ :=
      match s.blockDB.getOutputPosition output.commitment with
      | some position => s.txHashSet.outputPMMR.current.isUnpruned position.leafIndex
      | none => false
    if exists_ then pure false
    else do
      let leafIndex := Index.calculateLeafIndex s.txHashSet.outputPMMR.current.getSize
      updateOutputPMMR fun f =>
        f.append G OutputIdentifier.serialize (OutputIdentifier.fromOutput output)
      updateRangeProofPMMR fun f => f.append G RangeProof.serialize output.rangeProof
      modifyDB (BlockDB.addOutputPosition output.commitment ⟨leafIndex, blockHeight⟩)
      appendOutputs blockHeight outputs

/-- The third loop of `TxHashSet::ApplyBlock`. -/
def applyKernels (kernels : List TransactionKernel) : Exec Exc UtxoState Unit :=
  kernels.forM fun kernel => updateKernelMMR fun f => f.applyKernel G kernel

/-- `TxHashSet::ApplyBlock`. -/
def applyBlock (block : FullBlock) : Exec Exc UtxoState Bool := do
  let spent ←
    pruneInputs (Consensus.getMaxCoinbaseHeight G.env block.getHeight) block.body.inputs []
  match spent with
  | none => pure false
  | some spentPositions => do
    modifyDB (BlockDB.addSpentPositions (block.getHash G) spentPositions)
    let appended ← appendOutputs G block.getHeight block.body.outputs
    if appended then do
      modifyDB (BlockDB.removeOutputPositions
        (block.body.inputs.map TransactionInput.commitment))
      applyKernels G block.body.kernels
      setBlockHeader block.header
      pure true
    else pure false

/-! ### The checks -/

/-- The no-recent-duplicate kernels of a block with their relative heights, or `none` when
one of them is invalid. -/
def blockNRDKernels : List TransactionKernel → List (Commitment × ℕ) →
    Option (List (Commitment × ℕ))
  | [], found => some found
  | kernel :: kernels, found =>
    if kernel.features ≠ .noRecentDuplicate then blockNRDKernels kernels found
    else if kernel.lockHeight.toNat = 0 ∨ Consensus.weekHeight < kernel.lockHeight.toNat then none
    else if kernel.excessCommitment ∈ found.map Prod.fst then none
    else
      blockNRDKernels kernels (found ++ [(kernel.excessCommitment, kernel.lockHeight.toNat)])

/-- The headers from one hash back over `n` more heights, the lowest first. -/
def headersBack (db : BlockDB) : ℕ → ℕ → Hash → List BlockHeader → Option (List BlockHeader)
  | n, expectedHeight, hash, headers =>
    match db.getBlockHeader hash with
    | none => none
    | some header =>
      if header.getHeight ≠ expectedHeight then none
      else
        match n with
        | 0 => some (header :: headers)
        | n + 1 =>
          headersBack db n (expectedHeight - 1) header.previousHash (header :: headers)

/-- No kernel of a header repeats one of the block too soon. -/
def nrdKernelsValid (kernels : KernelFiles) (found : List (Commitment × ℕ)) (distance : ℕ)
    (previousNumKernels currentNumKernels : ℕ) : Bool :=
  (List.range' previousNumKernels (currentNumKernels - previousNumKernels)).all fun i =>
    match kernels.getKernelAt i with
    | none => false
    | some kernel =>
      kernel.features ≠ .noRecentDuplicate ||
        match found.find? (fun e => e.1 = kernel.excessCommitment) with
        | some (_, relativeHeight) => decide (relativeHeight ≤ distance)
        | none => true

/-- The scan over the headers. -/
def nrdHeadersValid (kernels : KernelFiles) (found : List (Commitment × ℕ)) (currentHeight : ℕ) :
    ℕ → List BlockHeader → Bool
  | _, [] => true
  | previousNumKernels, header :: headers =>
    decide (previousNumKernels ≤ header.getNumKernels) &&
      nrdKernelsValid kernels found (currentHeight - header.getHeight) previousNumKernels
        header.getNumKernels &&
      nrdHeadersValid kernels found currentHeight header.getNumKernels headers

/-- `TxHashSet::ValidateNRDKernelRules`. -/
def validateNRDKernelRules (db : BlockDB) (t : TxHashSet) (block : FullBlock) : Bool :=
  match blockNRDKernels block.body.kernels [] with
  | none => false
  | some [] => true
  | some found =>
    let maxRelativeHeight := (found.map Prod.snd).foldl max 0
    let currentHeight := block.getHeight
    let startHeight :=
      if maxRelativeHeight < currentHeight then currentHeight - maxRelativeHeight + 1 else 0
    let firstHeaderHeight := startHeight - 1
    if currentHeight = 0 then true
    else
      match headersBack db (currentHeight - 1 - firstHeaderHeight) (currentHeight - 1)
        block.getPreviousHash [] with
      | none => false
      | some headers =>
        if 0 < startHeight then
          match headers with
          | [] => true
          | first :: rest =>
            nrdHeadersValid t.kernelMMR.current found currentHeight first.getNumKernels rest
        else nrdHeadersValid t.kernelMMR.current found currentHeight 0 headers

/-- The check of the output root: from version 3 on it is merged with the root of the
unspent outputs. -/
def outputRootValid (t : TxHashSet) (header : BlockHeader) (outputRoot : Hash) :
    Except Exc Bool :=
  if header.version < 3 then .ok (decide (outputRoot = header.outputRoot))
  else do
    let ubmt ← t.outputPMMR.current.ubmtRoot G header.getNumOutputs
    .ok (decide
      (hashParentWithIndex G outputRoot ubmt header.getOutputMMRSize = header.outputRoot))

/-- `TxHashSet::ValidateRoots`. -/
def validateRoots (t : TxHashSet) (header : BlockHeader) : Except Exc Bool := do
  let kernelRoot ← t.kernelMMR.current.root G header.getKernelMMRSize
  if kernelRoot ≠ header.kernelRoot then .ok false
  else do
    let outputRoot ← t.outputPMMR.current.root G header.getOutputMMRSize
    let outputsValid ← outputRootValid G t header outputRoot
    if outputsValid = false then .ok false
    else do
      let rangeProofRoot ← t.rangeProofPMMR.current.root G header.getOutputMMRSize
      .ok (decide (rangeProofRoot = header.rangeProofRoot))

/-- `TxHashSet::IsValid`. -/
def isValid (db : BlockDB) (t : TxHashSet) (tx : Transaction) : Bool :=
  let maximumBlockHeight := Consensus.getMaxCoinbaseHeight G.env (t.blockHeader.getHeight + 1)
  (tx.body.inputs.all fun input =>
    match db.getOutputPosition input.commitment with
    | none => false
    | some position =>
      match t.outputPMMR.current.getAt position.leafIndex with
      | none => false
      | some output =>
        decide (output.commitment = input.commitment) &&
          !(output.features.isCoinbase && decide (maximumBlockHeight < position.blockHeight))) &&
  tx.body.outputs.all fun output =>
    match db.getOutputPosition output.commitment with
    | none => true
    | some position =>
      match t.outputPMMR.current.getAt position.leafIndex with
      | none => true
      | some o => decide (o.commitment ≠ output.commitment)

/-! ### `Rewind` -/

/-- The inner loop of `TxHashSet::Rewind`: the spent outputs get their positions back. -/
def restoreInputs (spentOutputs : List SpentOutput) :
    List TransactionInput → List ℕ → Exec Exc UtxoState (List ℕ)
  | [], leavesToAdd => pure leavesToAdd
  | input :: inputs, leavesToAdd =>
    match spentOutputs.find? (fun o => o.commitment = input.commitment) with
    | none => throw (.txHashSet "Spent output not found")
    | some spent => do
      modifyDB (BlockDB.addOutputPosition input.commitment spent.location)
      restoreInputs spentOutputs inputs (leavesToAdd ++ [spent.location.leafIndex])

/-- One pass of the loop of `TxHashSet::Rewind`. A previous header that is missing is
dereferenced by the loop condition. -/
def rewindBlock (leavesToAdd : List ℕ) : Exec Exc UtxoState (List ℕ) := do
  let s ← get
  match s.blockDB.getBlock (s.txHashSet.blockHeader.getHash G) with
  | none => throw (.txHashSet "Block not found")
  | some block => do
    let spentOutputs ←
      Exec.ofExcept (s.blockDB.getSpentPositions (s.txHashSet.blockHeader.getHash G))
    modifyDB (BlockDB.removeOutputPositions
      (block.body.outputs.map TransactionOutput.commitment))
    let leavesToAdd ← restoreInputs spentOutputs block.body.inputs leavesToAdd
    match s.blockDB.getBlockHeader s.txHashSet.blockHeader.previousHash with
    | none => throw .undefined
    | some previous => do
      setBlockHeader previous
      pure leavesToAdd

/-- The loop of `TxHashSet::Rewind`. -/
def rewindBlocks (header : BlockHeader) : ℕ → List ℕ → Exec Exc UtxoState (List ℕ)
  | 0, _ => throw .hang
  | passes + 1, leavesToAdd => do
    let s ← get
    if s.txHashSet.blockHeader.getHash G = header.getHash G then pure leavesToAdd
    else do
      let leavesToAdd ← rewindBlock G leavesToAdd
      rewindBlocks header passes leavesToAdd

/-- `TxHashSet::Rewind`. -/
def rewind (header : BlockHeader) : Exec Exc UtxoState Unit := do
  let leavesToAdd ← rewindBlocks G header G.loopBound []
  updateKernelMMR fun f => f.rewind header.getNumKernels
  updateOutputPMMR fun f => f.rewind header.getNumOutputs leavesToAdd
  updateRangeProofPMMR fun f => f.rewind header.getNumOutputs leavesToAdd

/-! ### `SaveOutputPositions` -/

/-- The position of one leaf, when it is unspent. -/
def saveOutputPosition (t : TxHashSet) (height : ℕ) (db : BlockDB) (leafIndex : ℕ) : BlockDB :=
  match t.outputPMMR.current.getAt leafIndex with
  | some output => db.addOutputPosition output.commitment ⟨leafIndex, height⟩
  | none => db

/-- The leaves that the header of a height is the first to cover. -/
def saveOutputPositionsAt (chain : Chain) (t : TxHashSet) (leafIndex : ℕ) (db : BlockDB)
    (height : ℕ) : ℕ × BlockDB :=
  match (chain.getByHeight height).bind db.getBlockHeader with
  | none => (leafIndex, db)
  | some header =>
    (max leafIndex header.getNumOutputs,
      (List.range' leafIndex (header.getNumOutputs - leafIndex)).foldl
        (saveOutputPosition t header.getHeight) db)

/-- `TxHashSet::SaveOutputPositions`. -/
def saveOutputPositions (chain : Chain) (t : TxHashSet) (db : BlockDB) : BlockDB :=
  ((List.range (t.blockHeader.getHeight + 1)).foldl
    (fun p height => saveOutputPositionsAt chain t p.1 p.2 height) (0, db)).2

/-- The two databases differ in the positions of outputs at most. -/
structure OnlyPositions (db db' : BlockDB) : Prop where
  /-- The same cache. -/
  headersCache : db'.headersCache = db.headersCache
  /-- The same headers of the batch. -/
  uncommitted : db'.uncommitted = db.uncommitted
  /-- The same permanent tables. -/
  committed : db'.tables.committed = db.tables.committed
  /-- The same other tables. -/
  current : db'.tables.current =
    { db.tables.current with outputPos := db'.tables.current.outputPos }

theorem OnlyPositions.refl (db : BlockDB) : OnlyPositions db db :=
  ⟨rfl, rfl, rfl, rfl⟩

theorem OnlyPositions.trans {a b c : BlockDB} (hab : OnlyPositions a b)
    (hbc : OnlyPositions b c) : OnlyPositions a c where
  headersCache := hbc.headersCache.trans hab.headersCache
  uncommitted := hbc.uncommitted.trans hab.uncommitted
  committed := hbc.committed.trans hab.committed
  current := by rw [hbc.current, hab.current]

theorem OnlyPositions.foldl {β : Type} {f : BlockDB → β → BlockDB}
    (hf : ∀ db b, OnlyPositions db (f db b)) (l : List β) (db : BlockDB) :
    OnlyPositions db (l.foldl f db) := by
  induction l generalizing db with
  | nil => exact .refl db
  | cons b l ih => exact (hf db b).trans (ih _)

theorem OnlyPositions.getBlockHeader {db db' : BlockDB} (h : OnlyPositions db db') (k : Hash) :
    db'.getBlockHeader k = db.getBlockHeader k := by
  rw [BlockDB.getBlockHeader, BlockDB.getBlockHeader, h.headersCache, h.current]

theorem onlyPositions_saveOutputPosition (t : TxHashSet) (height : ℕ) (db : BlockDB)
    (leafIndex : ℕ) : OnlyPositions db (saveOutputPosition t height db leafIndex) := by
  rw [saveOutputPosition]
  split
  · exact ⟨rfl, rfl, rfl, rfl⟩
  · exact .refl db

theorem onlyPositions_saveOutputPositionsAt (chain : Chain) (t : TxHashSet) (leafIndex : ℕ)
    (db : BlockDB) (height : ℕ) :
    OnlyPositions db (saveOutputPositionsAt chain t leafIndex db height).2 := by
  rw [saveOutputPositionsAt]
  split
  · exact .refl db
  · exact .foldl (onlyPositions_saveOutputPosition t _) _ db

/-- **`SaveOutputPositions` only writes positions.** -/
theorem onlyPositions_saveOutputPositions (chain : Chain) (t : TxHashSet) (db : BlockDB) :
    OnlyPositions db (saveOutputPositions chain t db) := by
  have key : ∀ (heights : List ℕ) (p : ℕ × BlockDB), OnlyPositions p.2
      (heights.foldl (fun p height => saveOutputPositionsAt chain t p.1 p.2 height) p).2 := by
    intro heights
    induction heights with
    | nil => exact fun p => .refl p.2
    | cons height heights ih =>
      exact fun p => (onlyPositions_saveOutputPositionsAt chain t p.1 p.2 height).trans (ih _)
  exact key _ (0, db)

/-! ### What is permanent

Every method above changes the open batch only, also when it fails. -/

/-- What the last commit made permanent. -/
structure Permanent where
  /-- The kernels. -/
  kernelFiles : KernelFiles
  /-- The outputs. -/
  outputFiles : PruneableFiles OutputIdentifier
  /-- The range proofs. -/
  rangeProofFiles : PruneableFiles RangeProof
  /-- The header. -/
  header : BlockHeader

/-- The permanent part of a hash set. -/
def permanent (t : TxHashSet) : Permanent :=
  ⟨t.kernelMMR.committed, t.outputPMMR.committed, t.rangeProofPMMR.committed,
    t.blockHeaderBackup⟩

/-- Committing and rolling back a hash set without changes does nothing. -/
theorem rollback_commit_of_atRest {t : TxHashSet} (ht : t.AtRest) : t.commit.rollback = t := by
  cases t
  simp only [commit, rollback, Batch.commit_of_atRest ht.kernelMMR,
    Batch.commit_of_atRest ht.outputPMMR, Batch.commit_of_atRest ht.rangeProofPMMR,
    Batch.rollback_of_atRest ht.kernelMMR, Batch.rollback_of_atRest ht.outputPMMR,
    Batch.rollback_of_atRest ht.rangeProofPMMR]
  exact congrArg _ ht.blockHeader

/-- A rolled back hash set is the one from before the batch. -/
theorem rollback_eq {t t' : TxHashSet} (ht : t.AtRest) (h : t'.permanent = t.permanent) :
    t'.rollback = t := by
  simp only [permanent, Permanent.mk.injEq] at h
  obtain ⟨hk, ho, hr, hh⟩ := h
  rw [rollback, Batch.rollback_eq ht.kernelMMR hk, Batch.rollback_eq ht.outputPMMR ho,
    Batch.rollback_eq ht.rangeProofPMMR hr, hh]
  nth_rewrite 1 [← ht.blockHeader]
  rfl

end TxHashSet

namespace UtxoState

/-- The permanent part of the database and of the hash set, with the header cache. -/
def permanent (s : UtxoState) : Tables × Cache Hash BlockHeader × TxHashSet.Permanent :=
  (s.blockDB.tables.committed, s.blockDB.headersCache, s.txHashSet.permanent)

end UtxoState

namespace TxHashSet

open Exec

variable {G : Global}

variable (G) in
/-- The methods change the state through a few changes only: to a range, to the tables, to the
header. A relation that each of them respects is one that every method respects. -/
structure KeptByParts (R : UtxoState → UtxoState → Prop) : Prop where
  /-- An output is spent. -/
  removeOutput : ∀ i, Steps R (updateOutputPMMR fun f => f.remove i)
  /-- An output is added. -/
  appendOutput : ∀ output,
    Steps R (updateOutputPMMR fun f => f.append G OutputIdentifier.serialize output)
  /-- The outputs are rewound. -/
  rewindOutputs : ∀ n leavesToAdd, Steps R (updateOutputPMMR fun f => f.rewind n leavesToAdd)
  /-- The range proofs change. -/
  rangeProofs : ∀ f, Steps R (updateRangeProofPMMR f)
  /-- The kernels change. -/
  kernels : ∀ f, Steps R (updateKernelMMR f)
  /-- The tables change. -/
  writeTables : ∀ f, Steps R (modifyDB (BlockDB.writeTables f))
  /-- The header changes. -/
  header : ∀ header, Steps R (setBlockHeader header)

section KeptByParts

variable {R : UtxoState → UtxoState → Prop} [Std.Refl R] [IsTrans UtxoState R]

theorem KeptByParts.pruneInputs (h : KeptByParts G R) (maximumBlockHeight : ℕ)
    (inputs : List TransactionInput) (spent : List SpentOutput) :
    Steps R (pruneInputs maximumBlockHeight inputs spent) := by
  induction inputs generalizing spent with
  | nil => exact steps_pure _
  | cons input inputs ih =>
    refine steps_bind steps_get fun s => ?_
    split
    · exact steps_pure _
    · split
      · exact steps_throw _
      · refine steps_ite (fun _ => steps_pure _) fun _ => ?_
        refine steps_bind (h.removeOutput _) fun _ => ?_
        exact steps_bind (h.rangeProofs _) fun _ => ih _

theorem KeptByParts.appendOutputs (h : KeptByParts G R) (blockHeight : ℕ)
    (outputs : List TransactionOutput) : Steps R (appendOutputs G blockHeight outputs) := by
  induction outputs with
  | nil => exact steps_pure _
  | cons output outputs ih =>
    refine steps_bind steps_get fun s => ?_
    refine steps_ite (fun _ => steps_pure _) fun _ => ?_
    refine steps_bind (h.appendOutput _) fun _ => ?_
    refine steps_bind (h.rangeProofs _) fun _ => ?_
    exact steps_bind (h.writeTables _) fun _ => ih

theorem KeptByParts.applyBlock (h : KeptByParts G R) (block : FullBlock) :
    Steps R (applyBlock G block) := by
  refine steps_bind (h.pruneInputs _ _ _) fun spent => ?_
  cases spent with
  | none => exact steps_pure _
  | some spentPositions =>
    refine steps_bind (h.writeTables _) fun _ => ?_
    refine steps_bind (h.appendOutputs _ _) fun appended => ?_
    refine steps_ite (fun _ => ?_) fun _ => steps_pure _
    refine steps_bind (h.writeTables _) fun _ => ?_
    refine steps_bind (steps_forM _ fun _ _ => h.kernels _) fun _ => ?_
    exact steps_bind (h.header _) fun _ => steps_pure _

theorem KeptByParts.restoreInputs (h : KeptByParts G R) (spent : List SpentOutput)
    (inputs : List TransactionInput) (leavesToAdd : List ℕ) :
    Steps R (restoreInputs spent inputs leavesToAdd) := by
  induction inputs generalizing leavesToAdd with
  | nil => exact steps_pure _
  | cons input inputs ih =>
    rw [TxHashSet.restoreInputs]
    split
    · exact steps_throw _
    · exact steps_bind (h.writeTables _) fun _ => ih _

theorem KeptByParts.rewindBlock (h : KeptByParts G R) (leavesToAdd : List ℕ) :
    Steps R (rewindBlock G leavesToAdd) := by
  refine steps_bind steps_get fun s => ?_
  split
  · exact steps_throw _
  · refine steps_bind (steps_ofExcept _) fun spent => ?_
    refine steps_bind (h.writeTables _) fun _ => ?_
    refine steps_bind (h.restoreInputs _ _ _) fun leaves => ?_
    split
    · exact steps_throw _
    · exact steps_bind (h.header _) fun _ => steps_pure _

theorem KeptByParts.rewindBlocks (h : KeptByParts G R) (header : BlockHeader) (passes : ℕ)
    (leavesToAdd : List ℕ) : Steps R (rewindBlocks G header passes leavesToAdd) := by
  induction passes generalizing leavesToAdd with
  | zero => exact steps_throw _
  | succ passes ih =>
    refine steps_bind steps_get fun s => ?_
    refine steps_ite (fun _ => steps_pure _) fun _ => ?_
    exact steps_bind (h.rewindBlock _) fun leaves => ih _

theorem KeptByParts.rewind (h : KeptByParts G R) (header : BlockHeader) :
    Steps R (rewind G header) := by
  refine steps_bind (h.rewindBlocks _ _ _) fun leaves => ?_
  refine steps_bind (h.kernels _) fun _ => ?_
  exact steps_bind (h.rewindOutputs _ _) fun _ => h.rangeProofs _

end KeptByParts

theorem steps_updateOutputPMMR (f : PruneableFiles OutputIdentifier →
    Except Exc (PruneableFiles OutputIdentifier)) :
    Steps (Same UtxoState.permanent) (updateOutputPMMR f) := by
  refine steps_update fun s t h => ?_
  obtain ⟨files, -, h⟩ := of_bind_eq_ok h
  cases h
  rfl

theorem steps_updateRangeProofPMMR (f : PruneableFiles RangeProof →
    Except Exc (PruneableFiles RangeProof)) :
    Steps (Same UtxoState.permanent) (updateRangeProofPMMR f) := by
  refine steps_update fun s t h => ?_
  obtain ⟨files, -, h⟩ := of_bind_eq_ok h
  cases h
  rfl

theorem steps_updateKernelMMR (f : KernelFiles → Except Exc KernelFiles) :
    Steps (Same UtxoState.permanent) (updateKernelMMR f) := by
  refine steps_update fun s t h => ?_
  obtain ⟨files, -, h⟩ := of_bind_eq_ok h
  cases h
  rfl

theorem steps_writeTables (f : Tables → Tables) :
    Steps (Same UtxoState.permanent) (modifyDB (BlockDB.writeTables f)) :=
  steps_modify fun _ => rfl

/-- Nothing that is permanent is touched. -/
theorem keptByParts_permanent : KeptByParts G (Same UtxoState.permanent) where
  removeOutput _ := steps_updateOutputPMMR _
  appendOutput _ := steps_updateOutputPMMR _
  rewindOutputs _ _ := steps_updateOutputPMMR _
  rangeProofs := steps_updateRangeProofPMMR
  kernels := steps_updateKernelMMR
  writeTables := steps_writeTables
  header _ := steps_modify fun _ => rfl

theorem steps_applyBlock (block : FullBlock) :
    Steps (Same UtxoState.permanent) (applyBlock G block) :=
  keptByParts_permanent.applyBlock block

theorem steps_rewind (header : BlockHeader) :
    Steps (Same UtxoState.permanent) (rewind G header) :=
  keptByParts_permanent.rewind header

end TxHashSet

end GrinPlusPlus
