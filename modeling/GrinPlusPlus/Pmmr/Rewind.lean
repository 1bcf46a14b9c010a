import GrinPlusPlus.Core.SmallNet
import GrinPlusPlus.Pmmr.ApplyBlock
import Mathlib.Data.List.Chain
import Mathlib.Data.List.Nodup

/-!
# A rewind undoes the blocks

`TxHashSet::Rewind` walks back from the current header to an earlier one. Block by block it
takes the new outputs out of the position table and puts the spent ones back, from the list
that `ApplyBlock` stored; the files are cut to the sizes of the earlier header at the end, and
the bits of all the spent leaves are set again.

The position table is undone **block by block**: `GrinPlusPlus.TxHashSet.Undo` collects what
one pass of the loop needs, `GrinPlusPlus.TxHashSet.run_rewindBlock` is the pass, and
`GrinPlusPlus.TxHashSet.run_rewindBlocks` the loop. The files are undone **at once**, since
blocks only append to them (`GrinPlusPlus.PruneableFiles.Shape.rewind_eq`).
`GrinPlusPlus.TxHashSet.of_run_applyBlocks` derives both from the run of the blocks, and
`GrinPlusPlus.TxHashSet.rewind_applyBlocks` puts them together.
-/

namespace GrinPlusPlus

open PostOrder MMRHashUtil Exec

namespace TxHashSet

/-- A position table. -/
abbrev Positions := Commitment → Option OutputLocation

/-- The commitments a block spends. -/
def spentCommitments (block : FullBlock) : List Commitment :=
  block.body.inputs.map TransactionInput.commitment

/-- The commitments a block creates. -/
def createdCommitments (block : FullBlock) : List Commitment :=
  block.body.outputs.map TransactionOutput.commitment

variable {G : Global}

/-! ### One pass of the loop -/

/-- What one pass needs to find in the database, and how the table moved. -/
structure Undo (G : Global) (db : BlockDB) (before after : Positions) (previous : BlockHeader)
    (block : FullBlock) (locations : List OutputLocation) : Prop where
  /-- The block is stored. -/
  stored : db.getBlock (block.getHash G) = some block.reload
  /-- Its spent outputs are stored. -/
  spent : db.getSpentPositions (block.getHash G) =
    .ok (spentOutputs block.body.inputs locations)
  /-- The header before it is stored. -/
  previous : db.getBlockHeader block.getPreviousHash = some previous
  /-- The spent outputs had these positions. -/
  found : List.Forall₂ (fun i l => before i.commitment = some l) block.body.inputs locations
  /-- None was spent twice. -/
  nodup : (spentCommitments block).Nodup
  /-- The new outputs had no position, unless they were spent. -/
  fresh : ∀ c ∈ createdCommitments block, before c = none ∨ c ∈ spentCommitments block
  /-- The other positions did not change. -/
  kept : ∀ c, c ∉ spentCommitments block → c ∉ createdCommitments block → after c = before c

/-- A state in the middle of the loop: the table and the header were moved, nothing else that
the loop reads. -/
structure Reads (db : BlockDB) (t : TxHashSet) (positions : Positions) (header : BlockHeader)
    (s : UtxoState) : Prop where
  /-- The positions. -/
  positions : s.blockDB.tables.current.outputPos = positions
  /-- The header. -/
  header : s.txHashSet.blockHeader = header
  /-- The blocks are the same. -/
  block : s.blockDB.tables.current.block = db.tables.current.block
  /-- The spent outputs are the same. -/
  spentOutputs : s.blockDB.tables.current.spentOutputs = db.tables.current.spentOutputs
  /-- The headers are the same. -/
  headers : ∀ k, s.blockDB.getBlockHeader k = db.getBlockHeader k
  /-- The kernels are the same. -/
  kernelMMR : s.txHashSet.kernelMMR = t.kernelMMR
  /-- The outputs are the same. -/
  outputPMMR : s.txHashSet.outputPMMR = t.outputPMMR
  /-- The range proofs are the same. -/
  rangeProofPMMR : s.txHashSet.rangeProofPMMR = t.rangeProofPMMR

variable {db : BlockDB} {t : TxHashSet} {header : BlockHeader}

/-- A change of the positions alone. -/
theorem Reads.write {positions : Positions} {s : UtxoState} (h : Reads db t positions header s)
    (f : Positions → Positions) :
    Reads db t (f positions) header
      { s with
        blockDB := s.blockDB.writeTables fun t => { t with outputPos := f t.outputPos } } where
  positions := by rw [← h.positions]; rfl
  header := h.header
  block := h.block
  spentOutputs := h.spentOutputs
  headers := fun k => by
    rw [BlockDB.getBlockHeader_writeTables _ rfl]
    exact h.headers k
  kernelMMR := h.kernelMMR
  outputPMMR := h.outputPMMR
  rangeProofPMMR := h.rangeProofPMMR

theorem getBlock_addBlock (db : BlockDB) (block : FullBlock) :
    (db.addBlock G block).getBlock (block.getHash G) = some block.reload :=
  Function.update_self ..

theorem run_modifyDB (f : BlockDB → BlockDB) (s : UtxoState) :
    run (modifyDB f) s = (.ok (), { s with blockDB := f s.blockDB }) := rfl

/-- **The inner loop** puts the spent outputs back. -/
theorem run_restoreInputs {spent : List SpentOutput} {before now : Positions}
    {inputs : List TransactionInput} {locations : List OutputLocation}
    (hspent : List.Forall₂ (fun i l =>
      spent.find? (fun o => o.commitment = i.commitment) = some ⟨i.commitment, l⟩) inputs locations)
    (hfound : List.Forall₂ (fun i l => before i.commitment = some l) inputs locations)
    (hnow : ∀ c, c ∉ inputs.map TransactionInput.commitment → now c = before c) {s : UtxoState}
    (hs : Reads db t now header s) (leavesToAdd : List ℕ) :
    ∃ s', run (restoreInputs spent inputs leavesToAdd) s =
        (.ok (leavesToAdd ++ locations.map OutputLocation.leafIndex), s') ∧
      Reads db t before header s' := by
  induction hspent generalizing now s leavesToAdd with
  | nil =>
    have heq : now = before := funext fun c => hnow c (by simp)
    subst heq
    refine ⟨s, ?_, hs⟩
    rw [restoreInputs, List.map_nil, List.append_nil]
    rfl
  | @cons input location inputs locations hfind _ ih =>
    obtain ⟨hposition, hfound⟩ := List.forall₂_cons.mp hfound
    have hs₁ := hs.write fun p => Function.update p input.commitment (some location)
    obtain ⟨s', hrun, hs'⟩ := ih hfound (fun c hc => by
      by_cases heq : c = input.commitment
      · rw [heq, Function.update_self, hposition]
      · rw [Function.update_of_ne heq]
        exact hnow c (by simpa [heq] using hc)) hs₁ (leavesToAdd ++ [location.leafIndex])
    refine ⟨s', ?_, hs'⟩
    rw [List.append_assoc, List.singleton_append] at hrun
    rw [restoreInputs, hfind]
    exact hrun

/-- The stored list has the location of each input. -/
theorem find?_spentOutputs {inputs : List TransactionInput} {locations : List OutputLocation}
    (hlen : inputs.length = locations.length)
    (hnodup : (inputs.map TransactionInput.commitment).Nodup) :
    List.Forall₂ (fun i l => (spentOutputs inputs locations).find?
      (fun o => o.commitment = i.commitment) = some ⟨i.commitment, l⟩) inputs locations := by
  induction inputs generalizing locations with
  | nil =>
    rcases locations with _ | ⟨location, locations⟩
    · exact .nil
    · cases hlen
  | cons input inputs ih =>
    rcases locations with _ | ⟨location, locations⟩
    · cases hlen
    · rw [List.map_cons, List.nodup_cons] at hnodup
      refine .cons ?_ ?_
      · rw [spentOutputs, List.zipWith_cons_cons, List.find?_cons]
        simp
      · obtain ⟨hlen', hrest⟩ := List.forall₂_iff_get.mp (ih (Nat.succ.inj hlen) hnodup.2)
        refine List.forall₂_iff_get.mpr ⟨hlen', fun i hi hi' => ?_⟩
        have hne : input.commitment ≠ (inputs.get ⟨i, hi⟩).commitment := fun heq =>
          hnodup.1 (List.mem_map.mpr ⟨_, List.get_mem _ _, heq.symm⟩)
        rw [spentOutputs, List.zipWith_cons_cons, List.find?_cons, decide_eq_false hne]
        exact hrest i hi hi'

/-- **One pass of the loop** undoes one block. -/
theorem run_rewindBlock {before after : Positions} {previous : BlockHeader} {block : FullBlock}
    {locations : List OutputLocation} (hundo : Undo G db before after previous block locations)
    {s : UtxoState} (hs : Reads db t after block.header s) (leavesToAdd : List ℕ) :
    ∃ s', run (rewindBlock G leavesToAdd) s =
        (.ok (leavesToAdd ++ locations.map OutputLocation.leafIndex), s') ∧
      Reads db t before previous s' := by
  have hblock : s.blockDB.getBlock (s.txHashSet.blockHeader.getHash G) = some block.reload := by
    rw [BlockDB.getBlock, hs.block, hs.header]
    exact hundo.stored
  have hspent : s.blockDB.getSpentPositions (s.txHashSet.blockHeader.getHash G) =
      .ok (TxHashSet.spentOutputs block.body.inputs locations) := by
    rw [BlockDB.getSpentPositions, hs.spentOutputs, hs.header]
    exact hundo.spent
  have hprevious : s.blockDB.getBlockHeader s.txHashSet.blockHeader.previousHash =
      some previous := by
    rw [hs.headers, hs.header]
    exact hundo.previous
  -- Without the new outputs, the table differs from the old one at the spent ones only.
  have hremoved := hs.write fun p c =>
    if (createdCommitments block).contains c then none else p c
  obtain ⟨s₁, hrun, hs₁⟩ := run_restoreInputs (find?_spentOutputs hundo.found.length_eq hundo.nodup)
    hundo.found (fun c hc => by
      by_cases hcreated : c ∈ createdCommitments block
      · rw [if_pos (by simpa using hcreated)]
        rcases hundo.fresh c hcreated with hnone | hspent
        · exact hnone.symm
        · exact absurd hspent hc
      · rw [if_neg (by simpa using hcreated)]
        exact hundo.kept c hc hcreated) hremoved leavesToAdd
  refine ⟨{ s₁ with txHashSet := { s₁.txHashSet with blockHeader := previous } }, ?_,
    ⟨hs₁.positions, rfl, hs₁.block, hs₁.spentOutputs, hs₁.headers, hs₁.kernelMMR,
      hs₁.outputPMMR, hs₁.rangeProofPMMR⟩⟩
  rw [rewindBlock, run_bind_ok (run_get s), hblock]
  dsimp only
  rw [run_bind_ok (by rw [run_ofExcept, hspent]), run_bind_ok (run_modifyDB ..)]
  refine (run_bind_ok hrun).trans ?_
  rw [hprevious]
  rfl

/-! ### The loop -/

/-- The blocks of a run, each with the locations it spent. -/
inductive Undoes (G : Global) (db : BlockDB) : Positions → BlockHeader →
    List (FullBlock × List OutputLocation) → Positions → BlockHeader → Prop
  /-- No block. -/
  | nil (positions : Positions) (header : BlockHeader) :
      Undoes G db positions header [] positions header
  /-- A first block, and the others. -/
  | cons {before middle after : Positions} {previous last : BlockHeader} {block : FullBlock}
      {locations : List OutputLocation} {rest : List (FullBlock × List OutputLocation)} :
      Undo G db before middle previous block locations →
      Undoes G db middle block.header rest after last →
      Undoes G db before previous ((block, locations) :: rest) after last

/-- The leaves of the spent outputs, in the order of the loop. -/
def spentLeaves (history : List (FullBlock × List OutputLocation)) : List ℕ :=
  history.reverse.flatMap fun e => e.2.map OutputLocation.leafIndex

theorem spentLeaves_cons (e : FullBlock × List OutputLocation)
    (history : List (FullBlock × List OutputLocation)) :
    spentLeaves (e :: history) =
      spentLeaves history ++ e.2.map OutputLocation.leafIndex := by
  rw [spentLeaves, List.reverse_cons, List.flatMap_append]
  simp [spentLeaves]

/-- The loop undoes the blocks that are not the target, last block first. -/
theorem run_rewindBlocks {before after : Positions} {first last target : BlockHeader}
    {history : List (FullBlock × List OutputLocation)}
    (hhistory : Undoes G db before first history after last)
    (htarget : ∀ e ∈ history, e.1.getHash G ≠ target.getHash G) {s : UtxoState}
    (hs : Reads db t after last s) (passes : ℕ) (leavesToAdd : List ℕ) :
    ∃ s', Reads db t before first s' ∧
      run (rewindBlocks G target (passes + history.length) leavesToAdd) s =
        run (rewindBlocks G target passes (leavesToAdd ++ spentLeaves history)) s' := by
  induction hhistory generalizing s passes leavesToAdd with
  | nil positions header =>
    refine ⟨s, hs, ?_⟩
    simp [spentLeaves]
  | @cons before middle after previous last block locations rest hundo _ ih =>
    obtain ⟨hne, hrest⟩ := List.forall_mem_cons.mp htarget
    obtain ⟨s₁, hs₁, hrun₁⟩ := ih hrest hs (passes + 1) leavesToAdd
    obtain ⟨s₂, hrun₂, hs₂⟩ :=
      run_rewindBlock hundo hs₁ (leavesToAdd ++ spentLeaves rest)
    refine ⟨s₂, hs₂, ?_⟩
    have hhash : ¬ s₁.txHashSet.blockHeader.getHash G = target.getHash G := by
      rw [hs₁.header]
      exact hne
    rw [List.length_cons, show passes + (rest.length + 1) = passes + 1 + rest.length by omega,
      hrun₁, rewindBlocks, run_bind_ok (run_get s₁), if_neg hhash, run_bind_ok hrun₂,
      spentLeaves_cons, List.append_assoc]

/-! ### The run of the blocks -/

variable (G) in
/-- Block after block is applied and stored. -/
def applyBlocks : List FullBlock → Exec Exc UtxoState Bool
  | [] => pure true
  | block :: blocks => do
    let applied ← applyBlock G block
    if applied then do
      modifyDB (BlockDB.addBlock G block)
      applyBlocks blocks
    else pure false

/-- Every position is that of an unspent leaf, and no two commitments share one. -/
structure Separate (s : UtxoState) : Prop where
  /-- The leaf is unspent. -/
  unspent : ∀ c l, s.blockDB.getOutputPosition c = some l →
    s.txHashSet.outputPMMR.current.leafSet l.leafIndex = true
  /-- No leaf has two commitments. -/
  unique : ∀ c c' l l', s.blockDB.getOutputPosition c = some l →
    s.blockDB.getOutputPosition c' = some l' → l.leafIndex = l'.leafIndex → c = c'

theorem outputPos_addOutputPositions {height n : ℕ} {outputs : List TransactionOutput}
    {db : BlockDB} {c : Commitment} (hc : c ∉ outputs.map TransactionOutput.commitment) :
    (db.addOutputPositions height n outputs).getOutputPosition c = db.getOutputPosition c := by
  induction outputs generalizing db n with
  | nil => rfl
  | cons output outputs ih =>
    rw [List.map_cons, List.mem_cons, not_or] at hc
    rw [BlockDB.addOutputPositions, ih hc.2, BlockDB.addOutputPosition,
      BlockDB.getOutputPosition, BlockDB.writeTables_current]
    exact Function.update_of_ne hc.1 _ _

/-- A position of a new output is behind the old leaves. -/
theorem of_outputPos_addOutputPositions {height n : ℕ} {outputs : List TransactionOutput}
    {db : BlockDB} {c : Commitment} {l : OutputLocation}
    (hnodup : (outputs.map TransactionOutput.commitment).Nodup)
    (h : (db.addOutputPositions height n outputs).getOutputPosition c = some l) :
    (c ∉ outputs.map TransactionOutput.commitment ∧ db.getOutputPosition c = some l) ∨
      ∃ k, ∃ hk : k < outputs.length, outputs[k].commitment = c ∧ l = ⟨n + k, height⟩ := by
  induction outputs generalizing db n with
  | nil => exact .inl ⟨by simp, h⟩
  | cons output outputs ih =>
    rw [List.map_cons, List.nodup_cons] at hnodup
    by_cases heq : c = output.commitment
    · rw [heq, BlockDB.addOutputPositions, outputPos_addOutputPositions hnodup.1,
        BlockDB.addOutputPosition, BlockDB.getOutputPosition, BlockDB.writeTables_current] at h
      dsimp only at h
      rw [Function.update_self, Option.some_inj] at h
      exact .inr ⟨0, Nat.succ_pos _, heq.symm, h.symm⟩
    · rcases ih hnodup.2 h with ⟨hnot, hold⟩ | ⟨k, hk, hc, hl⟩
      · refine .inl ⟨by simp [heq, hnot], ?_⟩
        rw [BlockDB.addOutputPosition, BlockDB.getOutputPosition,
          BlockDB.writeTables_current] at hold
        dsimp only at hold
        rwa [Function.update_of_ne heq] at hold
      · refine .inr ⟨k + 1, Nat.succ_lt_succ hk, hc, ?_⟩
        rw [hl, show n + 1 + k = n + (k + 1) by omega]

variable {s s' : UtxoState} {n : ℕ} {block : FullBlock} {locations : List OutputLocation}

/-- The positions after a block that was applied. -/
theorem Applied.getOutputPosition_eq (h : Applied G s s' n block locations) (c : Commitment) :
    s'.blockDB.getOutputPosition c =
      if c ∈ spentCommitments block then none
      else (s.blockDB.addOutputPositions block.getHeight n block.body.outputs).getOutputPosition
        c := by
  have hspent : ∀ (outputs : List TransactionOutput) (k : ℕ) (db db' : BlockDB),
      db.tables.current.outputPos = db'.tables.current.outputPos →
      (db.addOutputPositions block.getHeight k outputs).tables.current.outputPos =
        (db'.addOutputPositions block.getHeight k outputs).tables.current.outputPos := by
    intro outputs
    induction outputs with
    | nil => exact fun k db db' hdb => hdb
    | cons output outputs ih =>
      intro k db db' hdb
      refine ih (k + 1) _ _ ?_
      simp only [BlockDB.addOutputPosition, BlockDB.writeTables_current, hdb]
  rw [h.blockDB, BlockDB.removeOutputPositions, BlockDB.getOutputPosition,
    BlockDB.writeTables_current]
  dsimp only
  by_cases hc : c ∈ spentCommitments block
  · rw [if_pos hc, if_pos (by simpa [spentCommitments] using hc)]
  · rw [if_neg hc, if_neg (by simpa [spentCommitments] using hc)]
    exact congrFun (hspent _ _ (s.blockDB.addSpentPositions _ _) s.blockDB rfl) c

/-- Inputs whose positions are different leaves are different. -/
theorem nodup_commitments_of_found {positions : Positions} {inputs : List TransactionInput}
    {locations : List OutputLocation}
    (hfound : List.Forall₂ (fun i l => positions i.commitment = some l) inputs locations)
    (hnodup : (locations.map OutputLocation.leafIndex).Nodup) :
    (inputs.map TransactionInput.commitment).Nodup := by
  induction hfound with
  | nil => exact List.nodup_nil
  | @cons input location inputs locations hposition hrest ih =>
    rw [List.map_cons, List.nodup_cons] at hnodup
    rw [List.map_cons, List.nodup_cons]
    refine ⟨fun hin => hnodup.1 ?_, ih hnodup.2⟩
    obtain ⟨other, hother, heq⟩ := List.mem_map.mp hin
    obtain ⟨i, hi, rfl⟩ := List.getElem_of_mem hother
    have hi' : i < locations.length := hrest.length_eq ▸ hi
    have hget := (List.forall₂_iff_get.mp hrest).2 i hi hi'
    rw [List.get_eq_getElem, List.get_eq_getElem, heq, hposition, Option.some_inj] at hget
    exact List.mem_map.mpr ⟨_, List.getElem_mem hi', by rw [hget]⟩

/-- The inputs of a block that was applied are distinct. -/
theorem Applied.nodup_spentCommitments (h : Applied G s s' n block locations) :
    (spentCommitments block).Nodup :=
  nodup_commitments_of_found h.found h.nodup

/-- The location of an input. -/
theorem Applied.mem_spentCommitments (h : Applied G s s' n block locations)
    {l : OutputLocation} (hl : l ∈ locations) :
    ∃ c ∈ spentCommitments block, s.blockDB.getOutputPosition c = some l := by
  obtain ⟨i, hi, rfl⟩ := List.getElem_of_mem hl
  have hi' : i < block.body.inputs.length := h.found.length_eq ▸ hi
  refine ⟨_, List.mem_map.mpr ⟨_, List.getElem_mem hi', rfl⟩, ?_⟩
  exact (List.forall₂_iff_get.mp h.found).2 i hi' hi

theorem onlyPositions_addOutputPositions (height n : ℕ) (outputs : List TransactionOutput)
    (db : BlockDB) : OnlyPositions db (db.addOutputPositions height n outputs) := by
  induction outputs generalizing db n with
  | nil => exact .refl db
  | cons output outputs ih =>
    have hstep : OnlyPositions db (db.addOutputPosition output.commitment ⟨n, height⟩) :=
      ⟨rfl, rfl, rfl, rfl⟩
    exact hstep.trans (ih _ _)

/-- Besides the positions, a block only writes its spent outputs. -/
theorem Applied.onlyPositions (h : Applied G s s' n block locations) :
    OnlyPositions (s.blockDB.addSpentPositions (block.getHash G)
      (spentOutputs block.body.inputs locations)) s'.blockDB := by
  have hremove : ∀ (db : BlockDB) (cs : List Commitment),
      OnlyPositions db (db.removeOutputPositions cs) := fun db cs => ⟨rfl, rfl, rfl, rfl⟩
  rw [h.blockDB]
  exact (onlyPositions_addOutputPositions ..).trans (hremove _ _)

theorem Applied.block_eq (h : Applied G s s' n block locations) :
    s'.blockDB.tables.current.block = s.blockDB.tables.current.block := by
  rw [h.onlyPositions.current]
  rfl

theorem Applied.spentOutputs_eq (h : Applied G s s' n block locations)
    (hlen : block.body.inputs.length < 2 ^ 16) :
    s'.blockDB.tables.current.spentOutputs =
      Function.update s.blockDB.tables.current.spentOutputs (block.getHash G)
        (some (spentOutputs block.body.inputs locations)) := by
  have hlength : (TxHashSet.spentOutputs block.body.inputs locations).length =
      block.body.inputs.length := by
    rw [TxHashSet.spentOutputs, List.length_zipWith, ← h.found.length_eq, Nat.min_self]
  rw [h.onlyPositions.current]
  simp only [BlockDB.addSpentPositions, BlockDB.writeTables_current, hlength,
    Nat.mod_eq_of_lt hlen]
  rw [← hlength, List.take_length]

theorem Applied.getBlockHeader_eq (h : Applied G s s' n block locations) (k : Hash) :
    s'.blockDB.getBlockHeader k = s.blockDB.getBlockHeader k := by
  rw [h.onlyPositions.getBlockHeader]
  exact BlockDB.getBlockHeader_writeTables _ rfl k

/-- The commitment of a leaf that a block spends is one of its inputs. -/
theorem Applied.mem_of_leafIndex_mem (h : Applied G s s' n block locations) (hsep : Separate s)
    {c : Commitment} {l : OutputLocation} (hc : s.blockDB.getOutputPosition c = some l)
    (hl : l.leafIndex ∈ locations.map OutputLocation.leafIndex) : c ∈ spentCommitments block := by
  obtain ⟨l', hl', heq⟩ := List.mem_map.mp hl
  obtain ⟨c', hc', hpos⟩ := h.mem_spentCommitments hl'
  rwa [hsep.unique c c' l l' hc hpos heq.symm]

/-- The bits of the outputs after a block that was applied. -/
theorem Applied.leafSet_eq (h : Applied G s s' n block locations)
    (hshape : s.txHashSet.outputPMMR.current.Shape n) (i : ℕ) :
    s'.txHashSet.outputPMMR.current.leafSet i =
      ((s.txHashSet.outputPMMR.current.leafSet i &&
        !(locations.map OutputLocation.leafIndex).contains i) ||
        decide (n ≤ i ∧ i < n + block.body.outputs.length)) := by
  have hbits := ((hshape.removeAll _).of_appendAll h.outputs).2.2.2 i
  rw [List.length_map] at hbits
  exact hbits

/-- A position after a block is an old one that was not spent, or that of a new leaf. -/
theorem Applied.of_getOutputPosition (h : Applied G s s' n block locations) {c : Commitment}
    {l : OutputLocation} (hc : s'.blockDB.getOutputPosition c = some l) :
    (c ∉ spentCommitments block ∧ s.blockDB.getOutputPosition c = some l) ∨
      ∃ k, ∃ hk : k < block.body.outputs.length,
        block.body.outputs[k].commitment = c ∧ l.leafIndex = n + k := by
  rw [h.getOutputPosition_eq] at hc
  split at hc
  · cases hc
  · next hnot =>
    rcases of_outputPos_addOutputPositions h.nodupOutputs hc with ⟨-, hold⟩ | ⟨k, hk, hout, rfl⟩
    · exact .inl ⟨hnot, hold⟩
    · exact .inr ⟨k, hk, hout, rfl⟩

/-- **The positions stay separate.** -/
theorem Applied.separate (h : Applied G s s' n block locations) (hsep : Separate s)
    (hshape : s.txHashSet.outputPMMR.current.Shape n) : Separate s' := by
  have hold_lt : ∀ c l, s.blockDB.getOutputPosition c = some l → l.leafIndex < n :=
    fun c l hc => hshape.leafSet_lt _ (hsep.unspent c l hc)
  constructor
  · intro c l hc
    rw [h.leafSet_eq hshape, Bool.or_eq_true, Bool.and_eq_true, decide_eq_true_eq]
    rcases h.of_getOutputPosition hc with ⟨hnot, hold⟩ | ⟨k, hk, -, heq⟩
    · refine .inl ⟨hsep.unspent c l hold, ?_⟩
      rw [Bool.not_eq_true', List.contains_eq_mem, decide_eq_false_iff_not]
      exact fun hin => hnot (h.mem_of_leafIndex_mem hsep hold hin)
    · exact .inr (by omega)
  · intro c c' l l' hc hc' heq
    rcases h.of_getOutputPosition hc with ⟨-, hold⟩ | ⟨k, hk, hout, hl⟩
    · rcases h.of_getOutputPosition hc' with ⟨-, hold'⟩ | ⟨k', -, -, hl'⟩
      · exact hsep.unique c c' l l' hold hold' heq
      · have := hold_lt c l hold
        omega
    · rcases h.of_getOutputPosition hc' with ⟨-, hold'⟩ | ⟨k', hk', hout', hl'⟩
      · have := hold_lt c' l' hold'
        omega
      · obtain rfl : k = k' := by omega
        rw [← hout, ← hout']

/-- **A block that was applied can be undone**, as long as the number of its inputs fits the
16 bits in which it is stored. -/
theorem Applied.undo (h : Applied G s s' n block locations) (hsep : Separate s)
    (hlen : block.body.inputs.length < 2 ^ 16) {db : BlockDB} {previous : BlockHeader}
    (hstored : db.getBlock (block.getHash G) = some block.reload)
    (hspent : db.tables.current.spentOutputs (block.getHash G) =
      s'.blockDB.tables.current.spentOutputs (block.getHash G))
    (hprevious : db.getBlockHeader block.getPreviousHash = some previous) :
    Undo G db s.blockDB.tables.current.outputPos s'.blockDB.tables.current.outputPos previous
      block locations where
  stored := hstored
  spent := by
    rw [BlockDB.getSpentPositions, hspent, h.spentOutputs_eq hlen, Function.update_self]
    rfl
  previous := hprevious
  found := h.found
  nodup := h.nodup_spentCommitments
  fresh := by
    intro c hc
    obtain ⟨o, ho, rfl⟩ := List.mem_map.mp hc
    rcases hpos : s.blockDB.tables.current.outputPos o.commitment with _ | l
    · exact .inl rfl
    · rcases h.fresh o ho l hpos with hfalse | hin
      · have := hsep.unspent _ _ hpos
        rw [hfalse] at this
        cases this
      · exact .inr (h.mem_of_leafIndex_mem hsep hpos hin)
  kept := by
    intro c hspent hcreated
    refine (h.getOutputPosition_eq c).trans ?_
    rw [if_neg hspent]
    exact outputPos_addOutputPositions hcreated

/-- The second files have the first ones in front, and of the first leaves the spent ones lost
their bits. -/
structure Grown {α : Type} (f f' : PruneableFiles α) (n : ℕ) (spent : List ℕ) : Prop where
  /-- The files only grew. -/
  isExtension : PruneableFiles.Extends f f'
  /-- The bits that are missing are those of the spent leaves. -/
  bits : ∀ i < n, f.leafSet i = (f'.leafSet i || spent.contains i)

/-- Files that have grown are found again by a rewind. -/
theorem Grown.rewind_eq {α : Type} {f f' : PruneableFiles α} {spent : List ℕ}
    (h : Grown f f' n spent) (hshape : f.Shape n) : f'.rewind n spent = .ok f := by
  rw [hshape.rewind_eq h.isExtension]
  congr 1
  -- Only the bits are not literally the same.
  have hbits : LeafSet.rewind n spent f'.leafSet = f.leafSet := by
    funext i
    rw [LeafSet.rewind]
    by_cases hi : i < n
    · rw [decide_eq_true hi, Bool.true_and, h.bits i hi]
    · rw [decide_eq_false hi, Bool.false_and]
      cases hset : f.leafSet i with
      | false => rfl
      | true => exact absurd (hshape.leafSet_lt i hset) hi
  rw [hbits]

/-- A block that was applied, in front of others. -/
theorem Grown.of_applied {α : Type} {serialized : α → List UInt8} {f f₁ f' : PruneableFiles α}
    {n : ℕ} {leaves spent : List ℕ} {objects : List α} (hshape : f.Shape n)
    (hf : (f.removeAll leaves).appendAll G serialized objects = .ok f₁)
    (hleaves : ∀ i ∈ leaves, f.leafSet i = true) {k : ℕ} (hk : n ≤ k)
    (h : Grown f₁ f' k spent) : Grown f f' n (spent ++ leaves) := by
  obtain ⟨-, hext, -, hbits⟩ := (hshape.removeAll leaves).of_appendAll hf
  refine ⟨⟨hext.hashFile.trans h.isExtension.hashFile,
    hext.dataFile.trans h.isExtension.dataFile,
    h.isExtension.pruneList.trans hext.pruneList⟩, fun i hi => ?_⟩
  have h₁ := h.bits i (by omega)
  rw [hbits i, decide_eq_false (by omega), Bool.or_false, PruneableFiles.removeAll] at h₁
  rw [List.contains_eq_mem, decide_eq_decide.mpr List.mem_append, Bool.decide_or,
    ← List.contains_eq_mem, ← List.contains_eq_mem, ← Bool.or_assoc, ← h₁]
  by_cases hin : i ∈ leaves
  · rw [hleaves i hin, List.contains_eq_mem, decide_eq_true hin, Bool.or_true]
  · simp [hin]

/-- What a run of blocks did. -/
structure Ran (G : Global) (s s' : UtxoState) (n : ℕ) (blocks : List FullBlock)
    (history : List (FullBlock × List OutputLocation)) : Prop where
  /-- The history is that of the blocks. -/
  blocks_eq : history.map Prod.fst = blocks
  /-- The positions can be undone. -/
  undoes : Undoes G s'.blockDB s.blockDB.tables.current.outputPos s.txHashSet.blockHeader history
    s'.blockDB.tables.current.outputPos s'.txHashSet.blockHeader
  /-- The outputs have grown. -/
  outputs : Grown s.txHashSet.outputPMMR.current s'.txHashSet.outputPMMR.current n
    (spentLeaves history)
  /-- The range proofs have grown. -/
  rangeProofs : Grown s.txHashSet.rangeProofPMMR.current s'.txHashSet.rangeProofPMMR.current n
    (spentLeaves history)
  /-- The hashes of the kernels have grown. -/
  kernelHashes : s.txHashSet.kernelMMR.current.hashFile <+: s'.txHashSet.kernelMMR.current.hashFile
  /-- The kernels have grown. -/
  kernels : s.txHashSet.kernelMMR.current.dataFile <+: s'.txHashSet.kernelMMR.current.dataFile
  /-- Blocks with other hashes were not touched. -/
  block : ∀ k, k ∉ blocks.map (FullBlock.getHash G) →
    s'.blockDB.tables.current.block k = s.blockDB.tables.current.block k
  /-- Spent outputs of blocks with other hashes were not touched. -/
  spentOutputs : ∀ k, k ∉ blocks.map (FullBlock.getHash G) →
    s'.blockDB.tables.current.spentOutputs k = s.blockDB.tables.current.spentOutputs k
  /-- The headers were not touched. -/
  headers : ∀ k, s'.blockDB.getBlockHeader k = s.blockDB.getBlockHeader k

theorem Applied.unspent_leaves (h : Applied G s s' n block locations) :
    ∀ i ∈ locations.map OutputLocation.leafIndex,
      s.txHashSet.outputPMMR.current.leafSet i = true := by
  intro i hi
  obtain ⟨l, hl, rfl⟩ := List.mem_map.mp hi
  have hsome := h.unspent l hl
  rw [PruneableFiles.getAt, PruneableFiles.isUnpruned] at hsome
  split at hsome
  · next hcond => exact ((Bool.and_eq_true _ _).mp hcond).2
  · cases hsome

/-- **The run of the blocks.** -/
theorem of_run_applyBlocks {blocks : List FullBlock} {m : ℕ}
    (hkernels : s.txHashSet.kernelMMR.current.Shape m)
    (houtputs : s.txHashSet.outputPMMR.current.Shape n)
    (hproofs : s.txHashSet.rangeProofPMMR.current.Shape n) (hsep : Separate s)
    (hlinked : (s.txHashSet.blockHeader :: blocks.map FullBlock.header).IsChain
      fun a b => b.previousHash = a.getHash G)
    (hstored : ∀ h ∈ s.txHashSet.blockHeader :: blocks.map FullBlock.header,
      s.blockDB.getBlockHeader (h.getHash G) = some h)
    (hnodup : (blocks.map (FullBlock.getHash G)).Nodup)
    (hinputs : ∀ b ∈ blocks, b.body.inputs.length < 2 ^ 16)
    (h : run (applyBlocks G blocks) s = (.ok true, s')) :
    ∃ history, Ran G s s' n blocks history := by
  induction blocks generalizing s n m with
  | nil =>
    cases h
    refine ⟨[], rfl, .nil _ _, ⟨.refl _, fun i _ => ?_⟩, ⟨.refl _, fun i _ => ?_⟩,
      List.prefix_rfl, List.prefix_rfl, fun _ _ => rfl, fun _ _ => rfl, fun _ => rfl⟩
    · simp [spentLeaves]
    · simp [spentLeaves]
  | cons block blocks ih =>
    rw [applyBlocks] at h
    obtain ⟨applied, s₁, h₁, h⟩ := of_run_bind_ok h
    split at h
    rotate_left
    · cases h
    next happlied =>
    subst happlied
    rw [run_bind_ok (run_modifyDB ..)] at h
    obtain ⟨locations, ha⟩ := of_run_applyBlock houtputs h₁
    rw [List.map_cons, List.nodup_cons] at hnodup
    rw [List.map_cons, List.isChain_cons_cons] at hlinked
    rw [List.forall_mem_cons] at hstored hinputs
    -- The state in which the other blocks are applied.
    have houtputs₁ := ((houtputs.removeAll _).of_appendAll ha.outputs).1
    have hproofs₁ := ((hproofs.removeAll _).of_appendAll ha.rangeProofs).1
    rw [List.length_map] at houtputs₁ hproofs₁
    obtain ⟨hkernels₁, hhashes, hdata⟩ := hkernels.of_applyAll ha.kernels
    have hsep₁ := ha.separate hsep houtputs
    have hheaders₁ : ∀ k, (s₁.blockDB.addBlock G block).getBlockHeader k =
        s.blockDB.getBlockHeader k := fun k =>
      (BlockDB.getBlockHeader_writeTables _ rfl k).trans (ha.getBlockHeader_eq k)
    obtain ⟨history, hran⟩ := ih
      (s := { s₁ with blockDB := s₁.blockDB.addBlock G block }) hkernels₁ houtputs₁ hproofs₁
      ⟨hsep₁.unspent, hsep₁.unique⟩ (by rw [ha.header]; exact hlinked.2)
      (fun h hh => by
        rw [ha.header] at hh
        rw [hheaders₁]
        exact hstored.2 h hh) hnodup.2 hinputs.2 h
    have hblock : s'.blockDB.getBlock (block.getHash G) = some block.reload := by
      rw [BlockDB.getBlock, hran.block _ hnodup.1]
      exact getBlock_addBlock s₁.blockDB block
    have hprevious : s'.blockDB.getBlockHeader block.getPreviousHash =
        some s.txHashSet.blockHeader := by
      rw [hran.headers, hheaders₁, ← hstored.1]
      exact congrArg _ hlinked.1
    have hundo := ha.undo hsep hinputs.1 hblock (hran.spentOutputs _ hnodup.1) hprevious
    refine ⟨(block, locations) :: history, ?_, .cons hundo (ha.header ▸ hran.undoes), ?_, ?_,
      hhashes.trans hran.kernelHashes, ?_, ?_, ?_, ?_⟩
    · rw [List.map_cons, hran.blocks_eq]
    · rw [spentLeaves_cons]
      exact .of_applied houtputs ha.outputs ha.unspent_leaves (Nat.le_add_right _ _) hran.outputs
    · rw [spentLeaves_cons]
      refine .of_applied hproofs ha.rangeProofs (fun i hi => ?_) (Nat.le_add_right _ _)
        hran.rangeProofs
      obtain ⟨l, hl, rfl⟩ := List.mem_map.mp hi
      exact ha.unspentProof l hl
    · have hprefix : s.txHashSet.kernelMMR.current.dataFile <+:
          s₁.txHashSet.kernelMMR.current.dataFile := hdata ▸ List.prefix_append _ _
      exact hprefix.trans hran.kernels
    · intro k hk
      rw [List.map_cons, List.mem_cons, not_or] at hk
      rw [hran.block k hk.2, ← ha.block_eq]
      exact Function.update_of_ne hk.1 _ _
    · intro k hk
      rw [List.map_cons, List.mem_cons, not_or] at hk
      rw [hran.spentOutputs k hk.2]
      change s₁.blockDB.tables.current.spentOutputs k = _
      rw [ha.spentOutputs_eq hinputs.1, Function.update_of_ne hk.1]
    · intro k
      rw [hran.headers, hheaders₁]

/-! ### The rewind -/

/-- The files have the numbers of leaves that the current header states. -/
structure Sized (t : TxHashSet) : Prop where
  /-- The kernels. -/
  kernels : t.kernelMMR.current.Shape t.blockHeader.getNumKernels
  /-- The outputs. -/
  outputs : t.outputPMMR.current.Shape t.blockHeader.getNumOutputs
  /-- The range proofs. -/
  rangeProofs : t.rangeProofPMMR.current.Shape t.blockHeader.getNumOutputs

/-- Every position of the table is that of an unspent output with the commitment. -/
def PointsToUnspent (s : UtxoState) : Prop :=
  ∀ c l, s.blockDB.getOutputPosition c = some l →
    ∃ o, s.txHashSet.outputPMMR.current.getAt l.leafIndex = some o ∧ o.commitment = c

/-- The headers are in the database under their hashes, each names the one before, and the
heights are consecutive. -/
structure StoredChain (G : Global) (db : BlockDB) (headers : List BlockHeader) : Prop where
  /-- Each header is there. -/
  stored : ∀ h ∈ headers, db.getBlockHeader (h.getHash G) = some h
  /-- Each header names the one before. -/
  linked : headers.IsChain fun a b => b.previousHash = a.getHash G
  /-- The heights are consecutive. -/
  heights : headers.IsChain fun a b => b.getHeight = a.getHeight + 1

/-- The hash set and the position table are the ones of another state. -/
structure Restored (s s' : UtxoState) : Prop where
  /-- The kernels. -/
  kernels : s'.txHashSet.kernelMMR.current = s.txHashSet.kernelMMR.current
  /-- The outputs. -/
  outputs : s'.txHashSet.outputPMMR.current = s.txHashSet.outputPMMR.current
  /-- The range proofs. -/
  rangeProofs : s'.txHashSet.rangeProofPMMR.current = s.txHashSet.rangeProofPMMR.current
  /-- The header. -/
  header : s'.txHashSet.blockHeader = s.txHashSet.blockHeader
  /-- The positions. -/
  positions : s'.blockDB.tables.current.outputPos = s.blockDB.tables.current.outputPos

/-- When the blocks are applied and stored, the rewind to the header in front of them
succeeds, and everything is as before. -/
def RewindUndoes (G : Global) (s : UtxoState) (blocks : List FullBlock) : Prop :=
  ∀ s', run (applyBlocks G blocks) s = (.ok true, s') →
    ∃ s'', run (rewind G s.txHashSet.blockHeader) s' = (.ok (), s'') ∧ Restored s s''

theorem PointsToUnspent.separate (h : PointsToUnspent s) : Separate s where
  unspent := by
    intro c l hc
    obtain ⟨o, ho, -⟩ := h c l hc
    rw [PruneableFiles.getAt] at ho
    split at ho
    · next hcond =>
      rw [PruneableFiles.isUnpruned, Bool.and_eq_true] at hcond
      exact hcond.2
    · cases ho
  unique := by
    intro c c' l l' hc hc' heq
    obtain ⟨o, ho, rfl⟩ := h c l hc
    obtain ⟨o', ho', rfl⟩ := h c' l' hc'
    rw [heq, ho', Option.some_inj] at ho
    rw [ho]

/-- Headers of different heights are stored under different hashes. -/
theorem StoredChain.nodup {headers : List BlockHeader} (h : StoredChain G db headers) :
    (headers.map (BlockHeader.getHash G)).Nodup := by
  have hlt : headers.Pairwise fun a b => a.getHeight < b.getHeight := by
    refine List.isChain_iff_pairwise.mp (h.heights.imp fun a b hab => ?_)
    omega
  refine List.pairwise_map.mpr (hlt.imp_of_mem fun {a b} ha hb hab heq => ?_)
  have := h.stored a ha
  rw [heq, h.stored b hb, Option.some_inj] at this
  rw [this] at hab
  exact Nat.lt_irrefl _ hab

/-- **A rewind undoes the blocks**: the files, the bits, the header and the position table are
what they were in front of the blocks, if each block has fewer than 65536 inputs and the
header in front of them states the true sizes. -/
theorem rewind_applyBlocks {blocks : List FullBlock} (hsized : s.txHashSet.Sized)
    (hpositions : PointsToUnspent s)
    (hchain : StoredChain G s.blockDB
      (s.txHashSet.blockHeader :: blocks.map FullBlock.header))
    (hinputs : ∀ b ∈ blocks, b.body.inputs.length < 2 ^ 16)
    (hbound : blocks.length < G.loopBound) : RewindUndoes G s blocks := by
  intro s' h
  have hnodup := hchain.nodup
  rw [List.map_cons, List.nodup_cons, List.map_map] at hnodup
  obtain ⟨history, hran⟩ := of_run_applyBlocks hsized.kernels hsized.outputs hsized.rangeProofs
    hpositions.separate hchain.linked hchain.stored hnodup.2 hinputs h
  have hlength : history.length = blocks.length := by
    rw [← hran.blocks_eq, List.length_map]
  have htarget : ∀ e ∈ history, e.1.getHash G ≠ s.txHashSet.blockHeader.getHash G := by
    intro e he heq
    refine hnodup.1 (List.mem_map.mpr ⟨e.1, ?_, heq⟩)
    rw [← hran.blocks_eq]
    exact List.mem_map_of_mem he
  have hs' : Reads s'.blockDB s'.txHashSet s'.blockDB.tables.current.outputPos
      s'.txHashSet.blockHeader s' :=
    ⟨rfl, rfl, rfl, rfl, fun _ => rfl, rfl, rfl, rfl⟩
  obtain ⟨passes, hpasses⟩ : ∃ p, G.loopBound = p + 1 + history.length :=
    ⟨G.loopBound - 1 - history.length, by omega⟩
  obtain ⟨s₁, hs₁, hrun⟩ := run_rewindBlocks hran.undoes htarget hs' (passes + 1) []
  -- The loop stops at the header, and then the files are cut.
  have hloop : run (rewindBlocks G s.txHashSet.blockHeader G.loopBound []) s' =
      (.ok (spentLeaves history), s₁) := by
    rw [hpasses, hrun, rewindBlocks, run_bind_ok (run_get s₁), if_pos (by rw [hs₁.header]),
      List.nil_append]
    rfl
  have hkernels : s₁.txHashSet.kernelMMR.current.rewind s.txHashSet.blockHeader.getNumKernels =
      .ok s.txHashSet.kernelMMR.current := by
    rw [hs₁.kernelMMR]
    exact hsized.kernels.rewind_eq hran.kernelHashes hran.kernels
  have houtputs : s₁.txHashSet.outputPMMR.current.rewind s.txHashSet.blockHeader.getNumOutputs
      (spentLeaves history) = .ok s.txHashSet.outputPMMR.current := by
    rw [hs₁.outputPMMR]
    exact hran.outputs.rewind_eq hsized.outputs
  have hproofs : s₁.txHashSet.rangeProofPMMR.current.rewind
      s.txHashSet.blockHeader.getNumOutputs (spentLeaves history) =
        .ok s.txHashSet.rangeProofPMMR.current := by
    rw [hs₁.rangeProofPMMR]
    exact hran.rangeProofs.rewind_eq hsized.rangeProofs
  have hrewind : run (rewind G s.txHashSet.blockHeader) s' =
      (.ok (), { s₁ with
        txHashSet :=
          { s₁.txHashSet with
            kernelMMR := s₁.txHashSet.kernelMMR.write fun _ => s.txHashSet.kernelMMR.current
            outputPMMR := s₁.txHashSet.outputPMMR.write fun _ => s.txHashSet.outputPMMR.current
            rangeProofPMMR := s₁.txHashSet.rangeProofPMMR.write fun _ =>
              s.txHashSet.rangeProofPMMR.current } }) := by
    rw [rewind, run_bind_ok hloop, run_bind_ok (run_updateKernelMMR hkernels)]
    refine (run_bind_ok (run_updateOutputPMMR (by exact houtputs))).trans ?_
    exact run_updateRangeProofPMMR (by exact hproofs)
  exact ⟨_, hrewind, ⟨rfl, rfl, rfl, hs₁.header, hs₁.positions⟩⟩

/-! ### States with many outputs

A state with some unspent outputs, and blocks that spend all of them. -/

section PlainState

open SmallNet

/-- A commitment for a number of 16 bits. -/
def plainCommitment (i : ℕ) : Commitment :=
  ⟨UInt8.ofNat i :: UInt8.ofNat (i / 256) :: List.replicate 31 0, by simp⟩

theorem plainCommitment_injective {i j : ℕ} (hi : i < 65536) (hj : j < 65536)
    (h : plainCommitment i = plainCommitment j) : i = j := by
  have hbytes := congrArg CBigInteger.bytes h
  simp only [plainCommitment, List.cons.injEq, ← UInt8.toNat_inj, UInt8.toNat_ofNat'] at hbytes
  omega

/-- The header of a height that states the size of the outputs. -/
def plainHeader (height outputMMRSize : UInt64) (previousHash : Hash) : BlockHeader :=
  { genesisHeader with
    height := height
    previousHash := previousHash
    outputMMRSize := outputMMRSize
    kernelMMRSize := 0
    proofOfWork := longProofOfWork height.toNat }

/-- The header that follows it. -/
def nextPlainHeader (header : BlockHeader) : BlockHeader :=
  plainHeader 1 0 (header.getHash (smallNet .automatedTesting))

/-- The state with some unspent outputs at a header. -/
def plainState (n : ℕ) (header : BlockHeader) : UtxoState where
  blockDB :=
    { tables := Batch.of
        { header := fun hash => [header, nextPlainHeader header].find? fun h =>
            h.getHash (smallNet .automatedTesting) = hash
          block := fun _ => none
          blockSums := fun _ => none
          outputPos := fun c => ((List.range n).find? fun i => plainCommitment i = c).map (⟨·, 0⟩)
          spentOutputs := fun _ => none }
      headersCache := []
      uncommitted := [] }
  txHashSet :=
    { kernelMMR := Batch.of ⟨[], []⟩
      outputPMMR := Batch.of
        { hashFile := List.replicate (leafPos n) Hash.zero
          leafSet := fun i => decide (i < n)
          pruneList := .empty
          dataFile := (List.range n).map fun i => ⟨.default, plainCommitment i⟩ }
      rangeProofPMMR := Batch.of
        { hashFile := List.replicate (leafPos n) Hash.zero
          leafSet := fun i => decide (i < n)
          pruneList := .empty
          dataFile := List.replicate n rangeProof }
      blockHeader := header
      blockHeaderBackup := header }

variable {n : ℕ} {header : BlockHeader}

theorem shape_plainOutputs : (plainState n header).txHashSet.outputPMMR.current.Shape n where
  size := by
    change 0 + (List.replicate (leafPos n) Hash.zero).length = leafPos n
    rw [List.length_replicate, Nat.zero_add]
  roots_lt := fun r hr => by cases hr
  data := by
    change ((List.range n).map _).length + 0 = n
    rw [List.length_map, List.length_range, Nat.add_zero]
  leafSet_lt := fun i hi => of_decide_eq_true hi

theorem shape_plainRangeProofs :
    (plainState n header).txHashSet.rangeProofPMMR.current.Shape n where
  size := by
    change 0 + (List.replicate (leafPos n) Hash.zero).length = leafPos n
    rw [List.length_replicate, Nat.zero_add]
  roots_lt := fun r hr => by cases hr
  data := by
    change (List.replicate n rangeProof).length + 0 = n
    rw [List.length_replicate, Nat.add_zero]
  leafSet_lt := fun i hi => of_decide_eq_true hi

/-- Its outputs are the ones with the first numbers. -/
theorem getAt_plainState {i : ℕ} (hi : i < n) :
    (plainState n header).txHashSet.outputPMMR.current.getAt i =
      some ⟨.default, plainCommitment i⟩ := by
  have hset : (plainState n header).txHashSet.outputPMMR.current.leafSet i = true :=
    decide_eq_true hi
  rw [PruneableFiles.getAt, shape_plainOutputs.isUnpruned_eq, if_pos hset,
    PruneableFiles.getDataAt, shape_plainOutputs.size, leafPosition, if_neg]
  · change ((List.range n).map _)[i - 0]? = _
    rw [Nat.sub_zero, List.getElem?_map, List.getElem?_range hi]
    rfl
  · rintro (hle | hcompacted)
    · have := leafPos_strictMono hi
      omega
    · cases hcompacted

theorem getOutputPosition_plainState (hn : n ≤ 65536) {i : ℕ} (hi : i < n) :
    (plainState n header).blockDB.getOutputPosition (plainCommitment i) = some ⟨i, 0⟩ := by
  change ((List.range n).find? fun j => plainCommitment j = plainCommitment i).map _ = _
  rcases hfind : (List.range n).find? fun j => plainCommitment j = plainCommitment i with _ | j
  · have := List.find?_eq_none.mp hfind i (List.mem_range.mpr hi)
    simp at this
  · have hj := List.mem_range.mp (List.mem_of_find?_eq_some hfind)
    have heq : plainCommitment j = plainCommitment i := by simpa using List.find?_some hfind
    rw [plainCommitment_injective (by omega) (by omega) heq]
    rfl

/-- The positions are those of the outputs. -/
theorem pointsToUnspent_plainState : PointsToUnspent (plainState n header) := by
  intro c l hc
  change ((List.range n).find? fun j => plainCommitment j = c).map _ = some l at hc
  rw [Option.map_eq_some_iff] at hc
  obtain ⟨i, hfind, rfl⟩ := hc
  have hi := List.mem_range.mp (List.mem_of_find?_eq_some hfind)
  have heq : plainCommitment i = c := by simpa using List.find?_some hfind
  exact ⟨_, getAt_plainState hi, heq⟩

theorem getAt_remove_of_ne {α : Type} {f : PruneableFiles α} {i j : ℕ} (h : j ≠ i) :
    ({ f with leafSet := LeafSet.remove i f.leafSet } : PruneableFiles α).getAt j = f.getAt j := by
  simp only [PruneableFiles.getAt, PruneableFiles.isUnpruned, LeafSet.remove,
    Function.update_of_ne h]
  rfl

/-- The state behind an input that was spent. -/
def spendLeaf (s : UtxoState) (leafIndex : ℕ) : UtxoState :=
  { s with
    txHashSet :=
      { s.txHashSet with
        outputPMMR := s.txHashSet.outputPMMR.write fun f =>
          { f with leafSet := LeafSet.remove leafIndex f.leafSet }
        rangeProofPMMR := s.txHashSet.rangeProofPMMR.write fun f =>
          { f with leafSet := LeafSet.remove leafIndex f.leafSet } } }

/-- Spending an output clears its leaf in both ranges. -/
theorem run_spend {β : Type} {s : UtxoState} {leafIndex : ℕ} {x : Exec Exc UtxoState β}
    (hset : s.txHashSet.outputPMMR.current.leafSet leafIndex = true)
    (hproof : s.txHashSet.rangeProofPMMR.current.leafSet leafIndex = true) :
    run (do
        updateOutputPMMR fun f => f.remove leafIndex
        updateRangeProofPMMR fun f => f.remove leafIndex
        x) s =
      run x (spendLeaf s leafIndex) := by
  refine (run_bind_ok (run_updateOutputPMMR (by
    rw [PruneableFiles.remove, if_pos hset]))).trans ?_
  exact run_bind_ok (run_updateRangeProofPMMR (by
    rw [PruneableFiles.remove, if_pos (by exact hproof)]))

/-- Inputs that can be spent are spent. -/
theorem run_pruneInputs (maximumBlockHeight : ℕ) {inputs : List TransactionInput}
    {locations : List OutputLocation} {s : UtxoState}
    (hfound : List.Forall₂ (fun i l => s.blockDB.getOutputPosition i.commitment = some l) inputs
      locations)
    (hget : ∀ l ∈ locations, ∃ o, s.txHashSet.outputPMMR.current.getAt l.leafIndex = some o ∧
      o.features.isCoinbase = false)
    (hset : ∀ l ∈ locations, s.txHashSet.outputPMMR.current.leafSet l.leafIndex = true)
    (hproof : ∀ l ∈ locations, s.txHashSet.rangeProofPMMR.current.leafSet l.leafIndex = true)
    (hnodup : (locations.map OutputLocation.leafIndex).Nodup) (spent : List SpentOutput) :
    ∃ s', run (pruneInputs maximumBlockHeight inputs spent) s =
      (.ok (some (spent ++ spentOutputs inputs locations)), s') := by
  induction inputs generalizing locations s spent with
  | nil =>
    cases hfound
    refine ⟨s, ?_⟩
    rw [pruneInputs, spentOutputs, List.zipWith_nil_left, List.append_nil]
    rfl
  | cons input inputs ih =>
    obtain ⟨location, locations, hposition, hrest, rfl⟩ := List.forall₂_cons_left_iff.mp hfound
    rw [List.forall_mem_cons] at hget hset hproof
    rw [List.map_cons, List.nodup_cons] at hnodup
    obtain ⟨⟨output, houtput, hplain⟩, hget⟩ := hget
    have hne : ∀ l ∈ locations, l.leafIndex ≠ location.leafIndex := fun l hl heq =>
      hnodup.1 (List.mem_map.mpr ⟨l, hl, heq⟩)
    obtain ⟨s', hrun⟩ := @ih locations (spendLeaf s location.leafIndex) hrest
      (fun l hl => by
        obtain ⟨o, ho, hfeatures⟩ := hget l hl
        exact ⟨o, (getAt_remove_of_ne (hne l hl)).trans ho, hfeatures⟩)
      (fun l hl => (Function.update_of_ne (hne l hl) _ _).trans (hset.2 l hl))
      (fun l hl => (Function.update_of_ne (hne l hl) _ _).trans (hproof.2 l hl)) hnodup.2
      (spent ++ [⟨input.commitment, location⟩])
    refine ⟨s', ?_⟩
    rw [List.append_assoc, List.singleton_append] at hrun
    rw [pruneInputs, run_bind_ok (run_get s), hposition]
    dsimp only
    rw [houtput]
    dsimp only
    rw [if_neg (by simp [hplain]), run_spend hset.1 hproof.1]
    exact hrun

theorem isCoinbase_default : OutputFeatures.default.isCoinbase = false := by decide

/-- A block that only spends. -/
theorem run_applyBlock_of_run_pruneInputs {s s₁ : UtxoState} {header : BlockHeader}
    {inputs : List TransactionInput} {spent : List SpentOutput}
    (hrun : run (pruneInputs (Consensus.getMaxCoinbaseHeight G.env header.getHeight) inputs []) s =
      (.ok (some spent), s₁)) :
    run (applyBlock G ⟨header, ⟨inputs, [], []⟩⟩) s =
      (.ok true,
        { blockDB := (s₁.blockDB.addSpentPositions (header.getHash G) spent).removeOutputPositions
            (inputs.map TransactionInput.commitment)
          txHashSet := { s₁.txHashSet with blockHeader := header } }) := by
  rw [applyBlock]
  exact run_bind_ok hrun

/-- A spent output that was not stored stops the rewind. -/
theorem run_rewind_ne_ok {s : UtxoState} {header target : BlockHeader} {block : FullBlock}
    {spent : List SpentOutput} {input : TransactionInput} {inputs : List TransactionInput}
    (hne : header.getHash G ≠ target.getHash G) (hheader : s.txHashSet.blockHeader = header)
    (hblock : s.blockDB.getBlock (header.getHash G) = some block)
    (hspent : s.blockDB.getSpentPositions (header.getHash G) = .ok spent)
    (hinputs : block.body.inputs = input :: inputs)
    (hfind : spent.find? (fun o => o.commitment = input.commitment) = none) (s' : UtxoState) :
    run (rewind G target) s ≠ (.ok (), s') := by
  intro h
  obtain ⟨leaves, s₁, hloop, -⟩ := of_run_bind_ok h
  rcases hbound : G.loopBound with _ | passes
  · rw [hbound] at hloop
    cases hloop
  rw [hbound, rewindBlocks, run_bind_ok (run_get s), hheader, if_neg hne] at hloop
  obtain ⟨leaves', s₂, hpass, -⟩ := of_run_bind_ok hloop
  rw [rewindBlock, run_bind_ok (run_get s), hheader, hblock] at hpass
  dsimp only at hpass
  rw [hspent, run_bind_ok (run_ofExcept ..), run_bind_ok (run_modifyDB ..), hinputs,
    restoreInputs, hfind] at hpass
  cases hpass

/-- The inputs that spend the outputs of the first numbers. -/
def plainInputs (n : ℕ) : List TransactionInput :=
  (List.range n).map fun i => ⟨.default, plainCommitment i⟩

/-- All outputs of a plain state can be spent. -/
theorem run_pruneInputs_plainState (maximumBlockHeight : ℕ) (hn : n ≤ 65536) :
    ∃ s', run (pruneInputs maximumBlockHeight (plainInputs n) []) (plainState n header) =
      (.ok (some (spentOutputs (plainInputs n) ((List.range n).map fun i => ⟨i, 0⟩))), s') := by
  have hfound : List.Forall₂ (fun i l =>
      (plainState n header).blockDB.getOutputPosition i.commitment = some l)
      (plainInputs n) ((List.range n).map fun i => ⟨i, 0⟩) := by
    rw [plainInputs, List.forall₂_map_left_iff, List.forall₂_map_right_iff, List.forall₂_same]
    exact fun i hi => getOutputPosition_plainState hn (List.mem_range.mp hi)
  have hlocations : ∀ l ∈ (List.range n).map fun i => (⟨i, 0⟩ : OutputLocation),
      l.leafIndex < n := by
    intro l hl
    obtain ⟨i, hi, rfl⟩ := List.mem_map.mp hl
    exact List.mem_range.mp hi
  exact run_pruneInputs maximumBlockHeight hfound
    (fun l hl => ⟨_, getAt_plainState (hlocations l hl), isCoinbase_default⟩)
    (fun l hl => decide_eq_true (hlocations l hl))
    (fun l hl => decide_eq_true (hlocations l hl))
    (by simpa [Function.comp_def] using List.nodup_range) []

/-- The block that spends all outputs of a plain state. -/
def spendAll (n : ℕ) (header : BlockHeader) : FullBlock where
  header := nextPlainHeader header
  body := ⟨(List.range n).map fun i => ⟨.default, plainCommitment i⟩, [], []⟩

/-- **A block with a multiple of 65536 inputs cannot be undone**: none of its spent outputs
is stored. -/
theorem not_rewindUndoes_spendAll (hn : n ≤ 65536) (hpos : 0 < n) (hmod : n % 2 ^ 16 = 0)
    (hhash : (nextPlainHeader header).getHash (smallNet .automatedTesting) ≠
      header.getHash (smallNet .automatedTesting)) :
    ¬ RewindUndoes (smallNet .automatedTesting) (plainState n header) [spendAll n header] := by
  intro h
  obtain ⟨s₁, hrun⟩ := @run_pruneInputs_plainState n header
    (Consensus.getMaxCoinbaseHeight (smallNet .automatedTesting).env
      (nextPlainHeader header).getHeight) hn
  have happly := run_applyBlock_of_run_pruneInputs hrun
  obtain ⟨s₃, hrewind, -⟩ := h _ (by
    rw [applyBlocks]
    exact run_bind_ok happly)
  -- The length is stored as zero, so the list is stored as empty.
  have hempty : (spentOutputs (plainInputs n) ((List.range n).map fun i => ⟨i, 0⟩)).take
      ((spentOutputs (plainInputs n) ((List.range n).map fun i => ⟨i, 0⟩)).length % 2 ^ 16) =
        [] := by
    have hlength :
        (spentOutputs (plainInputs n) ((List.range n).map fun i => ⟨i, 0⟩)).length = n := by
      simp [spentOutputs, plainInputs]
    rw [hlength, hmod, List.take_zero]
  obtain ⟨input, inputs, hinputs⟩ : ∃ input inputs,
      (spendAll n header).reload.body.inputs = input :: inputs := by
    refine List.exists_cons_of_length_pos ?_
    simpa [FullBlock.reload, spendAll] using hpos
  refine run_rewind_ne_ok hhash rfl (getBlock_addBlock _ (spendAll n header)) ?_ hinputs
    List.find?_nil s₃ hrewind
  · simp only [BlockDB.getSpentPositions, BlockDB.addBlock, BlockDB.removeOutputPositions,
      BlockDB.addSpentPositions, BlockDB.writeTables_current, Function.update_self, hempty]
    rfl

theorem sized_plainState (houtputs : header.getNumOutputs = n)
    (hkernels : header.getNumKernels = 0) :
    (plainState n header).txHashSet.Sized where
  kernels := by
    rw [show (plainState n header).txHashSet.blockHeader = header from rfl, hkernels]
    exact ⟨rfl, rfl⟩
  outputs := by
    rw [show (plainState n header).txHashSet.blockHeader = header from rfl, houtputs]
    exact shape_plainOutputs
  rangeProofs := by
    rw [show (plainState n header).txHashSet.blockHeader = header from rfl, houtputs]
    exact shape_plainRangeProofs

theorem storedChain_plainState
    (hhash : header.getHash (smallNet .automatedTesting) ≠
      (nextPlainHeader header).getHash (smallNet .automatedTesting))
    (hheight : header.getHeight = 0) :
    StoredChain (smallNet .automatedTesting) (plainState n header).blockDB
      [header, nextPlainHeader header] where
  stored := by
    have hlookup : ∀ k, (plainState n header).blockDB.getBlockHeader k =
        [header, nextPlainHeader header].find? fun h =>
          h.getHash (smallNet .automatedTesting) = k := fun k => rfl
    refine List.forall_mem_cons.mpr ⟨?_, List.forall_mem_singleton.mpr ?_⟩
    · rw [hlookup, List.find?_cons_of_pos (by simp)]
    · rw [hlookup, List.find?_cons_of_neg (by simpa using hhash),
        List.find?_cons_of_pos (by simp)]
  linked := List.isChain_cons_cons.mpr ⟨rfl, List.isChain_singleton _⟩
  heights := by
    refine List.isChain_cons_cons.mpr ⟨?_, List.isChain_singleton _⟩
    rw [hheight]
    rfl

/-- A header that states a size. -/
def sizedHeader (outputMMRSize : UInt64) : BlockHeader :=
  plainHeader 0 outputMMRSize Hash.zero

theorem getHash_sizedHeader_ne (outputMMRSize : UInt64) :
    (sizedHeader outputMMRSize).getHash (smallNet .automatedTesting) ≠
      (nextPlainHeader (sizedHeader outputMMRSize)).getHash (smallNet .automatedTesting) := by
  intro h
  have hpow : longProofOfWork 0 = longProofOfWork 1 :=
    BlockHeader.proofOfWork_eq_of_getHash_eq (injectiveOnBytes _) h
  have := longProofOfWork_injective (by decide) (by decide) hpow
  omega

theorem getNumOutputs_sizedHeader : (sizedHeader 131071).getNumOutputs = 65536 := by
  have hsize : (sizedHeader 131071).getOutputMMRSize = leafPos 65536 := by
    rw [show (65536 : ℕ) = 2 ^ 16 from rfl, leafPos_two_pow]
    rfl
  rw [BlockHeader.getNumOutputs, hsize, calculateLeafIndex_leafPos]
  decide

/-- The state with one output behind a block that does nothing. -/
def plainState₁ : UtxoState :=
  (run (applyBlocks (smallNet .automatedTesting) [spendAll 0 (sizedHeader 0)])
    (plainState 1 (sizedHeader 0))).2

theorem run_applyBlocks_plainState₁ :
    run (applyBlocks (smallNet .automatedTesting) [spendAll 0 (sizedHeader 0)])
      (plainState 1 (sizedHeader 0)) = (.ok true, plainState₁) := rfl

/-- **Both conditions are needed.** In the first state all files have the sizes that the header
states, and the block spends 65536 outputs. In the second one the block does nothing at all,
and the header states that there are no outputs where there is one. -/
theorem not_rewindUndoes_plainState :
    ((plainState 65536 (sizedHeader 131071)).txHashSet.Sized ∧
      PointsToUnspent (plainState 65536 (sizedHeader 131071)) ∧
      StoredChain (smallNet .automatedTesting) (plainState 65536 (sizedHeader 131071)).blockDB
        [sizedHeader 131071, (spendAll 65536 (sizedHeader 131071)).header] ∧
      ¬ RewindUndoes (smallNet .automatedTesting) (plainState 65536 (sizedHeader 131071))
        [spendAll 65536 (sizedHeader 131071)]) ∧
    PointsToUnspent (plainState 1 (sizedHeader 0)) ∧
      StoredChain (smallNet .automatedTesting) (plainState 1 (sizedHeader 0)).blockDB
        [sizedHeader 0, (spendAll 0 (sizedHeader 0)).header] ∧
      ¬ RewindUndoes (smallNet .automatedTesting) (plainState 1 (sizedHeader 0))
        [spendAll 0 (sizedHeader 0)] := by
  refine ⟨⟨sized_plainState getNumOutputs_sizedHeader rfl, pointsToUnspent_plainState,
    storedChain_plainState (getHash_sizedHeader_ne _) rfl,
    not_rewindUndoes_spendAll le_rfl (by decide) (by decide) (getHash_sizedHeader_ne _).symm⟩,
    pointsToUnspent_plainState, storedChain_plainState (getHash_sizedHeader_ne _) rfl, ?_⟩
  intro h
  -- The output file of the second state is cut to nothing.
  obtain ⟨s'', hrun, hrestored⟩ := h plainState₁ run_applyBlocks_plainState₁
  have hs'' : s'' =
      (run (rewind (smallNet .automatedTesting) (sizedHeader 0)) plainState₁).2 :=
    (congrArg Prod.snd hrun).symm
  have hlength : s''.txHashSet.outputPMMR.current.dataFile.length = 1 := by
    rw [hrestored.outputs]
    rfl
  rw [hs''] at hlength
  revert hlength
  decide +kernel

/-- A block that spends an output and creates one. -/
def smallBlock : FullBlock where
  header := nextPlainHeader (sizedHeader 3)
  body := ⟨[⟨.default, plainCommitment 0⟩], [coinbaseOutput 1], [coinbaseKernel 1]⟩

theorem isSome_applyBlocks_smallBlock :
    (run (applyBlocks (smallNet .automatedTesting) [smallBlock])
      (plainState 2 (sizedHeader 3))).1.toOption = some true := by
  decide +kernel

/-- The block is applied and undone. -/
theorem rewindUndoes_smallBlock :
    (run (applyBlocks (smallNet .automatedTesting) [smallBlock])
        (plainState 2 (sizedHeader 3))).1.toOption = some true ∧
      RewindUndoes (smallNet .automatedTesting) (plainState 2 (sizedHeader 3)) [smallBlock] :=
  ⟨isSome_applyBlocks_smallBlock,
    rewind_applyBlocks (sized_plainState (by decide +kernel) rfl) pointsToUnspent_plainState
      (storedChain_plainState (getHash_sizedHeader_ne _) rfl)
      (List.forall_mem_singleton.mpr (by decide)) (by decide)⟩

end PlainState

end TxHashSet

end GrinPlusPlus
