import GrinPlusPlus.BlockChain.BlockFaults

/-!
# Valid blocks of a chain from genesis

A block is *valid* when it extends a chain of valid blocks from the genesis block on by the rules
(`GrinPlusPlus.Valid`, `GrinPlusPlus.ChainOf`, `GrinPlusPlus.ValidBlock`). A node that received
other blocks as well has other headers, and the blocks of other forks; the checks of the block
come out as on the chain alone when the node has the same headers before it
(`GrinPlusPlus.HeadersBehind`) and the same unspent outputs (`GrinPlusPlus.SameUtxo`).
-/

namespace GrinPlusPlus

open Exec

/-! ### What the rules of a header read -/

/-- The header some steps back from a hash. -/
def ancestor (lookup : HeaderLookup) : ℕ → Hash → Option BlockHeader
  | 0, hash => lookup hash
  | n + 1, hash => (lookup hash).bind fun header => ancestor lookup n header.previousHash

/-- The headers from a hash back are the same. -/
def SameAncestors (lookup lookup' : HeaderLookup) (hash : Hash) : Prop :=
  ∀ n, ancestor lookup n hash = ancestor lookup' n hash

namespace SameAncestors

variable {G : Global} {now : ℤ} {lookup lookup' : HeaderLookup} {hash : Hash}

theorem lookup_eq (h : SameAncestors lookup lookup' hash) : lookup hash = lookup' hash := h 0

theorem previous (h : SameAncestors lookup lookup' hash) {header : BlockHeader}
    (hheader : lookup hash = some header) : SameAncestors lookup lookup' header.previousHash := by
  intro n
  have hn := h (n + 1)
  rwa [ancestor, ancestor, ← h.lookup_eq, hheader] at hn

theorem load_eq (h : SameAncestors lookup lookup' hash) (n : ℕ) :
    DifficultyLoader.load lookup n (lookup hash) =
      DifficultyLoader.load lookup' n (lookup' hash) := by
  induction n generalizing hash with
  | zero => rfl
  | succ n ih =>
    rw [← h.lookup_eq]
    cases hheader : lookup hash with
    | none => rfl
    | some header =>
      have hprevious := h.previous hheader
      rw [DifficultyLoader.load, DifficultyLoader.load, ih hprevious, hprevious.lookup_eq]

variable {header previous : BlockHeader}

theorem calculateNextDifficulty_eq (h : SameAncestors lookup lookup' header.previousHash)
    (env : Environment) :
    DifficultyCalculator.calculateNextDifficulty env lookup header =
      DifficultyCalculator.calculateNextDifficulty env lookup' header := by
  have hdata : DifficultyLoader.loadDifficultyData lookup header =
      DifficultyLoader.loadDifficultyData lookup' header := by
    rw [DifficultyLoader.loadDifficultyData, h.load_eq, DifficultyLoader.loadDifficultyData]
  have hwtema : DifficultyCalculator.nextWTEMA env lookup header =
      DifficultyCalculator.nextWTEMA env lookup' header := by
    rw [DifficultyCalculator.nextWTEMA, DifficultyCalculator.nextWTEMA, ← h.lookup_eq]
    cases hlast : lookup header.previousHash with
    | none => rfl
    | some last =>
      rw [orThrow, ok_bind, ok_bind, (h.previous hlast).lookup_eq]
  rw [DifficultyCalculator.calculateNextDifficulty, DifficultyCalculator.calculateNextDifficulty,
    DifficultyCalculator.nextDMA, DifficultyCalculator.nextDMA, hdata, hwtema]

/-- **The rules of a header** read the headers before it and the header MMR. -/
theorem validate_eq (h : SameAncestors lookup lookup' header.previousHash) {m m' : HeaderMMR}
    (hm : m.current = m'.current) :
    BlockHeaderValidator.validate G now lookup m header previous =
      BlockHeaderValidator.validate G now lookup' m' header previous := by
  have hroot : ∀ i, m.root G i = m'.root G i := by
    intro i
    rw [HeaderMMR.root, HeaderMMR.root, hm]
  have hpow : BlockHeaderValidator.isPoWValid G lookup header previous =
      BlockHeaderValidator.isPoWValid G lookup' header previous := by
    rw [BlockHeaderValidator.isPoWValid, BlockHeaderValidator.isPoWValid, PoWValidator.isPoWValid,
      PoWValidator.isPoWValid, h.calculateNextDifficulty_eq]
  rw [BlockHeaderValidator.validate, BlockHeaderValidator.validate, hpow, hroot]

end SameAncestors

/-! ### What the rules of a block read -/

/-- Two states of the hash set and the database have the same unspent outputs, the same kernels
and the same past, from a hash back. -/
structure SameUtxo (hash : Hash) (x y : UtxoState) : Prop where
  /-- The outputs … -/
  outputs : x.txHashSet.outputPMMR.current = y.txHashSet.outputPMMR.current
  /-- … the range proofs … -/
  rangeProofs : x.txHashSet.rangeProofPMMR.current = y.txHashSet.rangeProofPMMR.current
  /-- … the kernels … -/
  kernels : x.txHashSet.kernelMMR.current = y.txHashSet.kernelMMR.current
  /-- … the positions of the outputs … -/
  positions : x.blockDB.tables.current.outputPos = y.blockDB.tables.current.outputPos
  /-- … the headers … -/
  headers : SameAncestors x.blockDB.getBlockHeader y.blockDB.getBlockHeader hash
  /-- … and the block sums. -/
  sums : x.blockDB.getBlockSums hash = y.blockDB.getBlockSums hash

namespace SameUtxo

variable {G : Global} {hash : Hash} {x y : UtxoState}

theorem alike_updateOutputPMMR (h : SameUtxo hash x y)
    (f : PruneableFiles OutputIdentifier → Except Exc (PruneableFiles OutputIdentifier)) :
    Alike (SameUtxo hash) (TxHashSet.updateOutputPMMR f) (TxHashSet.updateOutputPMMR f) x y := by
  refine alike_update h ?_
  rw [← h.outputs]
  cases f x.txHashSet.outputPMMR.current with
  | error e => exact .inl ⟨e, rfl, rfl⟩
  | ok files =>
    exact .inr ⟨_, _, rfl, rfl, rfl, h.rangeProofs, h.kernels, h.positions, h.headers, h.sums⟩

theorem alike_updateRangeProofPMMR (h : SameUtxo hash x y)
    (f : PruneableFiles RangeProof → Except Exc (PruneableFiles RangeProof)) :
    Alike (SameUtxo hash) (TxHashSet.updateRangeProofPMMR f) (TxHashSet.updateRangeProofPMMR f)
      x y := by
  refine alike_update h ?_
  rw [← h.rangeProofs]
  cases f x.txHashSet.rangeProofPMMR.current with
  | error e => exact .inl ⟨e, rfl, rfl⟩
  | ok files =>
    exact .inr ⟨_, _, rfl, rfl, h.outputs, rfl, h.kernels, h.positions, h.headers, h.sums⟩

theorem alike_updateKernelMMR (h : SameUtxo hash x y)
    (f : KernelFiles → Except Exc KernelFiles) :
    Alike (SameUtxo hash) (TxHashSet.updateKernelMMR f) (TxHashSet.updateKernelMMR f) x y := by
  refine alike_update h ?_
  rw [← h.kernels]
  cases f x.txHashSet.kernelMMR.current with
  | error e => exact .inl ⟨e, rfl, rfl⟩
  | ok files =>
    exact .inr ⟨_, _, rfl, rfl, h.outputs, h.rangeProofs, rfl, h.positions, h.headers, h.sums⟩

theorem alike_setBlockHeader (h : SameUtxo hash x y) (header : BlockHeader) :
    Alike (SameUtxo hash) (TxHashSet.setBlockHeader header) (TxHashSet.setBlockHeader header)
      x y :=
  alike_modify ⟨h.outputs, h.rangeProofs, h.kernels, h.positions, h.headers, h.sums⟩

/-- A change of the positions that does not read anything else. -/
theorem alike_writePositions (h : SameUtxo hash x y)
    (f : (Commitment → Option OutputLocation) → Commitment → Option OutputLocation) :
    Alike (SameUtxo hash)
      (TxHashSet.modifyDB (BlockDB.writeTables fun t => { t with outputPos := f t.outputPos }))
      (TxHashSet.modifyDB (BlockDB.writeTables fun t => { t with outputPos := f t.outputPos }))
      x y :=
  alike_modify ⟨h.outputs, h.rangeProofs, h.kernels, congrArg f h.positions, h.headers, h.sums⟩

theorem alike_addSpentPositions (h : SameUtxo hash x y) (k : Hash) (spent : List SpentOutput) :
    Alike (SameUtxo hash) (TxHashSet.modifyDB (BlockDB.addSpentPositions k spent))
      (TxHashSet.modifyDB (BlockDB.addSpentPositions k spent)) x y :=
  alike_modify ⟨h.outputs, h.rangeProofs, h.kernels, h.positions, h.headers, h.sums⟩

theorem alike_addBlock (h : SameUtxo hash x y) (block : FullBlock) :
    Alike (SameUtxo hash) (TxHashSet.modifyDB (BlockDB.addBlock G block))
      (TxHashSet.modifyDB (BlockDB.addBlock G block)) x y :=
  alike_modify ⟨h.outputs, h.rangeProofs, h.kernels, h.positions, h.headers, h.sums⟩

theorem alike_addBlockSums (h : SameUtxo hash x y) (k : Hash) (sums : BlockSums) :
    Alike (SameUtxo hash) (TxHashSet.modifyDB (BlockDB.addBlockSums k sums))
      (TxHashSet.modifyDB (BlockDB.addBlockSums k sums)) x y := by
  refine alike_modify ⟨h.outputs, h.rangeProofs, h.kernels, h.positions, h.headers, ?_⟩
  have hsums := h.sums
  rw [BlockDB.getBlockSums, BlockDB.getBlockSums] at hsums ⊢
  dsimp only [BlockDB.addBlockSums, BlockDB.writeTables, Batch.write]
  rw [Function.update_apply, Function.update_apply, hsums]

theorem alike_pruneInputs (h : SameUtxo hash x y) (maximumBlockHeight : ℕ)
    (inputs : List TransactionInput) (spent : List SpentOutput) :
    Alike (SameUtxo hash) (TxHashSet.pruneInputs maximumBlockHeight inputs spent)
      (TxHashSet.pruneInputs maximumBlockHeight inputs spent) x y := by
  induction inputs generalizing x y spent with
  | nil => exact alike_pure h _
  | cons input inputs ih =>
    have hposition : y.blockDB.getOutputPosition input.commitment =
        x.blockDB.getOutputPosition input.commitment := (congrFun h.positions _).symm
    refine alike_get ?_
    rw [hposition, ← h.outputs]
    split
    · exact alike_pure h _
    · split
      · exact alike_throw h _
      · refine alike_ite (fun _ => alike_pure h _) fun _ => ?_
        refine alike_bind (h.alike_updateOutputPMMR _) fun _ u v huv => ?_
        exact alike_bind (huv.alike_updateRangeProofPMMR _) fun _ u v huv => ih huv _

theorem alike_appendOutputs (h : SameUtxo hash x y) (blockHeight : ℕ)
    (outputs : List TransactionOutput) :
    Alike (SameUtxo hash) (TxHashSet.appendOutputs G blockHeight outputs)
      (TxHashSet.appendOutputs G blockHeight outputs) x y := by
  induction outputs generalizing x y with
  | nil => exact alike_pure h _
  | cons output outputs ih =>
    have hposition : y.blockDB.getOutputPosition output.commitment =
        x.blockDB.getOutputPosition output.commitment := (congrFun h.positions _).symm
    refine alike_get ?_
    rw [hposition, ← h.outputs]
    refine alike_ite (fun _ => alike_pure h _) fun _ => ?_
    refine alike_bind (h.alike_updateOutputPMMR _) fun _ u v huv => ?_
    refine alike_bind (huv.alike_updateRangeProofPMMR _) fun _ u v huv => ?_
    refine alike_bind ?_ fun _ u v huv => ih huv
    exact huv.alike_writePositions fun positions =>
      Function.update positions output.commitment _

theorem alike_applyBlock (h : SameUtxo hash x y) (block : FullBlock) :
    Alike (SameUtxo hash) (TxHashSet.applyBlock G block) (TxHashSet.applyBlock G block) x y := by
  refine alike_bind (h.alike_pruneInputs _ _ _) fun spent u v huv => ?_
  cases spent with
  | none => exact alike_pure huv _
  | some spentPositions =>
    refine alike_bind (huv.alike_addSpentPositions _ _) fun _ u v huv => ?_
    refine alike_bind (huv.alike_appendOutputs _ _) fun appended u v huv => ?_
    refine alike_ite (fun _ => ?_) fun _ => alike_pure huv _
    refine alike_bind ?_ fun _ u v huv => ?_
    · exact huv.alike_writePositions fun positions c =>
        if (block.body.inputs.map TransactionInput.commitment).contains c then none
        else positions c
    refine alike_bind ?_ fun _ u v huv => ?_
    · exact alike_forM (fun kernel s t hst => hst.alike_updateKernelMMR _) _ huv
    · exact alike_bind (huv.alike_setBlockHeader _) fun _ u v huv => alike_pure huv _

/-- The headers of the check of the kernels without recent duplicates. -/
theorem headersBack_eq {db db' : BlockDB} {k : Hash}
    (h : SameAncestors db.getBlockHeader db'.getBlockHeader k) (n expectedHeight : ℕ)
    (headers : List BlockHeader) :
    TxHashSet.headersBack db n expectedHeight k headers =
      TxHashSet.headersBack db' n expectedHeight k headers := by
  induction n generalizing k expectedHeight headers with
  | zero =>
    rw [TxHashSet.headersBack, TxHashSet.headersBack, h.lookup_eq]
  | succ n ih =>
    rw [TxHashSet.headersBack, TxHashSet.headersBack, ← h.lookup_eq]
    cases hheader : db.getBlockHeader k with
    | none => rfl
    | some header => simp only [ih (h.previous hheader)]

theorem validateNRDKernelRules_eq {block : FullBlock} (h : SameUtxo block.getPreviousHash x y) :
    x.txHashSet.validateNRDKernelRules x.blockDB block =
      y.txHashSet.validateNRDKernelRules y.blockDB block := by
  simp only [TxHashSet.validateNRDKernelRules, headersBack_eq h.headers, h.kernels]

theorem validateRoots_eq (h : SameUtxo hash x y) (header : BlockHeader) :
    x.txHashSet.validateRoots G header = y.txHashSet.validateRoots G header := by
  simp only [TxHashSet.validateRoots, TxHashSet.outputRootValid, h.kernels, h.outputs,
    h.rangeProofs]

/-- **The rules of a block** read the unspent outputs, the kernels and the past. -/
theorem alike_applyAndValidate {block : FullBlock} (h : SameUtxo block.getPreviousHash x y) :
    Alike (SameUtxo block.getPreviousHash) (BlockProcessor.applyAndValidate G block)
      (BlockProcessor.applyAndValidate G block) x y := by
  refine alike_bind (h.alike_applyBlock block) fun applied u v huv => ?_
  refine alike_ite (fun _ => alike_throw huv _) fun _ => ?_
  refine alike_get ?_
  rw [← huv.validateNRDKernelRules_eq]
  refine alike_ite (fun _ => alike_throw huv _) fun _ => ?_
  refine alike_bind (alike_ofExcept huv rfl) fun _ u' v' huv' => ?_
  refine alike_bind (alike_ofExcept huv' (huv.validateRoots_eq _)) fun rootsValid u' v' huv' => ?_
  refine alike_ite (fun _ => alike_throw huv' _) fun _ => ?_
  rw [← huv.sums]
  split
  · exact alike_throw huv' _
  · refine alike_bind (alike_ofExcept huv' rfl) fun sums u' v' huv' => ?_
    refine alike_bind (huv'.alike_addBlockSums _ _) fun _ u' v' huv' => ?_
    exact huv'.alike_addBlock block

end SameUtxo

/-! ### Valid blocks -/

section Valid

variable (G : Global) (now : ℤ)

/-- **The block extends the chain of a state by the rules.** -/
structure Valid (v : ChainState) (block : FullBlock) : Prop where
  /-- It is the next block … -/
  next : v.confirmed.getTipHash = block.getPreviousHash
  /-- … and has the next height. -/
  height : block.getHeight = v.confirmed.getHeight + 1
  /-- Its header follows the one before it. -/
  header : ∃ previous, v.blockDB.getBlockHeader block.getPreviousHash = some previous ∧
    BlockHeaderValidator.validate G now v.blockDB.getBlockHeader v.headerMMR block.header previous =
      .ok ()
  /-- It is consistent in itself. -/
  selfConsistent : BlockValidator.verifySelfConsistent G block = .ok ()
  /-- It applies to the unspent outputs. -/
  applies : ∃ a, v.txHashSet = some a ∧
    (run (BlockProcessor.applyAndValidate G block) ⟨v.blockDB, a⟩).1 = .ok ()

/-- A chain of valid blocks from the genesis block on, and the state that it leads to. -/
inductive ChainOf : List FullBlock → ChainState → Prop
  | genesis {s : ChainState} (h : ChainState.create G = .ok s) : ChainOf [] s
  | next {blocks : List FullBlock} {block : FullBlock} {v t : ChainState} {now : ℤ}
    (h : ChainOf blocks v) (hvalid : Valid G now v block)
    (hrun : run (BlockProcessor.processBlock G now block) v = (.ok .success, t)) :
    ChainOf (blocks ++ [block]) t

/-- **A valid block** of a chain that descends from genesis. -/
def ValidBlock (block : FullBlock) : Prop :=
  ∃ blocks v, ChainOf G blocks v ∧ Valid G now v block

end Valid

/-! ### The own ancestors -/

/-- Behind a header, two states have the same headers. -/
structure HeadersBehind (v : ChainState) (previous : BlockHeader) (hash : Hash) (u : ChainState) :
    Prop where
  /-- The header is stored. -/
  stored : v.blockDB.getBlockHeader hash = some previous
  /-- The headers before it are the same. -/
  ancestors : SameAncestors u.blockDB.getBlockHeader v.blockDB.getBlockHeader hash
  /-- The header MMRs are the same. -/
  headerMMR : u.headerMMR.current = v.headerMMR.current

/-- Behind a block, two states have the same unspent outputs. -/
structure OutputsBehind (v : ChainState) (hash : Hash) (u : ChainState) : Prop where
  /-- The confirmed chains have the same height. -/
  height : u.confirmed.getHeight = v.confirmed.getHeight
  /-- The unspent outputs are the same. -/
  utxo : ∀ a b, u.txHashSet = some a → v.txHashSet = some b →
    SameUtxo hash ⟨u.blockDB, a⟩ ⟨v.blockDB, b⟩

variable {G : Global} {now : ℤ} {s : ChainState} {block : FullBlock}

namespace BlockHeaderProcessor

variable (G now) in
/-- The headers that are in place before a valid block are those of its own chain. -/
def OwnAncestors (s : ChainState) (block : FullBlock) : Prop :=
  ∀ blocks v, ChainOf G blocks v → Valid G now v block → ∀ previous u,
    run (placeAncestors G now block.header) s = (.ok (some previous), u) →
      HeadersBehind v previous block.getPreviousHash u

/-- **A header that is refused behind its own ancestors** is not the header of a valid block. -/
theorem not_validBlock_of_refused (hown : OwnAncestors G now s block)
    (h : Refused G now s block.header) : ¬ValidBlock G now block := by
  rintro ⟨blocks, v, hchain, hvalid⟩
  obtain ⟨previous, u, hplace, e, he⟩ := h
  have hsame := hown blocks v hchain hvalid previous u hplace
  obtain ⟨previous', hprevious', hok⟩ := hvalid.header
  obtain rfl : previous = previous' := Option.some_inj.mp (hsame.stored.symm.trans hprevious')
  have hancestors : SameAncestors u.blockDB.getBlockHeader v.blockDB.getBlockHeader
      block.header.previousHash := hsame.ancestors
  rw [hancestors.validate_eq hsame.headerMMR, hok] at he
  cases he

end BlockHeaderProcessor

namespace BlockProcessor

variable (G now) in
/-- The blocks that are in place before a valid block are those of its own chain. -/
def OwnAncestors (s : ChainState) (block : FullBlock) : Prop :=
  ∀ blocks v, ChainOf G blocks v → Valid G now v block → ∀ u,
    run (placeAncestors G block) s = (.ok true, u) → OutputsBehind v block.getPreviousHash u

/-- **A block that is refused behind its own ancestors** is not valid. -/
theorem not_validBlock_of_refused (hown : OwnAncestors G now s block)
    (h : Refused G s block) : ¬ValidBlock G now block := by
  rintro ⟨blocks, v, hchain, hvalid⟩
  obtain ⟨u, hplace, -, hrefused⟩ := h
  have hsame := hown blocks v hchain hvalid u hplace
  rcases hrefused with hheight | ⟨a, ha, e, he⟩
  · exact hheight (by rw [hvalid.height, hsame.height])
  · obtain ⟨b, hb, hok⟩ := hvalid.applies
    obtain ⟨hresult, -⟩ := (hsame.utxo a b ha hb).alike_applyAndValidate (G := G)
    rw [he, hok] at hresult
    cases hresult

end BlockProcessor

end GrinPlusPlus
