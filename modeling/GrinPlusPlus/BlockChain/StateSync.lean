import GrinPlusPlus.BlockChain.BlockSpec
import GrinPlusPlus.BlockChain.SmallChain
import GrinPlusPlus.Pmmr.TxHashSetValidator

/-!
# State sync

`TxHashSetProcessor::ProcessTxHashSet` and `BlockChain::ProcessPIBDTransactionHashSet`: a hash
set that came from a peer is validated against an archive header, its outputs are entered
into the position table, and the confirmed chain is set to the candidate chain up to the
archive header.

Both calls install the state **on top of** what was there. The confirmed chain is only
rewound to where it leaves the candidate chain, which may be above the archive header, and
the position table is extended and never cleared. `GrinPlusPlus.StateSync.Consistent` is what
should hold after a successful call, and `GrinPlusPlus.StateSync.consistent_iff` says
**exactly** when it does, in terms of the state before the call and of the hash set
(`GrinPlusPlus.StateSync.FitsChain`, `GrinPlusPlus.StateSync.FitsTable`).
-/

namespace GrinPlusPlus

open ChainState

/-! ### The two calls -/

/-- What `Load` reads from the directory into which an archive was extracted. -/
structure Archive where
  /-- The kernels. -/
  kernels : KernelFiles
  /-- The outputs. -/
  outputs : PruneableFiles OutputIdentifier
  /-- The range proofs. -/
  rangeProofs : PruneableFiles RangeProof

namespace TxHashSetManager

/-- The ranges of an archive, rewound to a header. -/
def rewindArchive (archive : Archive) (header : BlockHeader) : Except Exc TxHashSet := do
  let kernels ← archive.kernels.rewind header.getNumKernels
  let outputs ← archive.outputs.rewind header.getNumOutputs []
  let rangeProofs ← archive.rangeProofs.rewind header.getNumOutputs []
  .ok ⟨Batch.of kernels, Batch.of outputs, Batch.of rangeProofs, header, header⟩

/-- `TxHashSetManager::LoadFromZip`; there is no archive when the extraction failed. -/
def loadFromZip (archive : Option Archive) (header : BlockHeader) : Option TxHashSet :=
  archive.bind fun a => (rewindArchive a header).toOption

/-- `TxHashSetManager::SetTxHashSet`, and `Close` for none. -/
def setTxHashSet (t : Option TxHashSet) : Exec Exc ChainState Unit :=
  modify fun s => { s with txHashSet := t }

end TxHashSetManager

namespace TxHashSetProcessor

open TxHashSetManager

variable (G : Global)

/-- The confirmed chain goes back to where it leaves the candidate chain, and then follows it
up to a height. -/
def followCandidate (height : ℕ) : Exec Exc ChainState Unit := do
  let s ← get
  let common := s.findCommonIndex
  updateConfirmed (Chain.rewind common)
  (List.range' (common + 1) (height - common)).forM fun h =>
    match s.candidate.getByHeight h with
    | none => throw .undefined
    | some hash => updateConfirmed (Chain.addBlock hash h)

/-- `TxHashSetProcessor::UpdateConfirmedChain`. -/
def updateConfirmedChain (header : BlockHeader) : Exec Exc ChainState Bool := do
  let s ← get
  match s.candidate.getByHeight header.getHeight with
  | none => throw .undefined
  | some hash =>
    if hash ≠ header.getHash G then pure false
    else do
      followCandidate header.getHeight
      pure true

/-- The sums and the positions of a hash set are entered into the database. -/
def saveTxHashSet (t : TxHashSet) (header : BlockHeader) (sums : BlockSums) :
    Exec Exc ChainState Unit := do
  modifyDB (BlockDB.addBlockSums (header.getHash G) sums)
  let s ← get
  modifyDB (TxHashSet.saveOutputPositions s.candidate t)

/-- The body of `TxHashSetProcessor::ProcessTxHashSet` under the batch lock. -/
def installTxHashSet (t : TxHashSet) (header : BlockHeader) (sums : BlockSums) :
    Exec Exc ChainState Bool := do
  saveTxHashSet G t header sums
  setTxHashSet (some t)
  let updated ← updateConfirmedChain G header
  if updated then do
    modify (ChainState.commit G)
    pure true
  else do
    setTxHashSet none
    pure false

/-- `TxHashSetProcessor::ProcessTxHashSet`. -/
def processTxHashSet (blockHash : Hash) (archive : Option Archive) :
    Exec Exc ChainState Bool := do
  let s ← get
  match s.blockDB.getBlockHeader blockHash with
  | none => pure false
  | some header => do
    setTxHashSet none
    match loadFromZip archive header with
    | none => pure false
    | some t =>
      match t.validateTxHashSet G (s.getBlockHeaderByHeight · .candidate) header with
      | none => pure false
      | some sums => batch (installTxHashSet G t header sums)

end TxHashSetProcessor

namespace BlockChain

open TxHashSetManager TxHashSetProcessor

variable (G : Global)

/-- The body of `BlockChain::ProcessPIBDTransactionHashSet` under the batch lock. -/
def installPIBDTxHashSet (t : TxHashSet) (header : BlockHeader) (sums : BlockSums) :
    Exec Exc ChainState EBlockChainStatus := do
  saveTxHashSet G t header sums
  let s ← get
  if s.candidate.getByHeight header.getHeight ≠ some (header.getHash G) then do
    setTxHashSet none
    pure .invalid
  else do
    followCandidate header.getHeight
    modify (ChainState.commit G)
    pure .success

/-- `BlockChain::ProcessPIBDTransactionHashSet`, without its `try`. -/
def processPIBDLocked (blockHash : Hash) : Exec Exc ChainState EBlockChainStatus := do
  let s ← get
  match s.blockDB.getBlockHeader blockHash with
  | none => pure .invalid
  | some header =>
    match s.txHashSet with
    | none => pure .invalid
    | some t =>
      match t.validateTxHashSet G (s.getBlockHeaderByHeight · .candidate) header with
      | none => do
        setTxHashSet none
        pure .invalid
      | some sums => batch (installPIBDTxHashSet G t header sums)

/-- `BlockChain::ProcessPIBDTransactionHashSet`. -/
def processPIBDTransactionHashSet (blockHash : Hash) : Exec Exc ChainState EBlockChainStatus :=
  Exec.ofRun fun s =>
    let r := Exec.run (processPIBDLocked G blockHash) s
    (catching r.1 (.ok .invalid), r.2)

end BlockChain

/-! ### The position table -/

namespace StateSync

open Exec

/-- The first header that covers a leaf. -/
def firstCovering (headers : List BlockHeader) (leafIndex : ℕ) : Option BlockHeader :=
  headers.find? fun h => leafIndex < h.getNumOutputs

/-- The height of the first header that covers a leaf. -/
def coverHeight (headers : List BlockHeader) (leafIndex : ℕ) : Option ℕ :=
  (firstCovering headers leafIndex).map BlockHeader.getHeight

/-- The stored headers of the candidate chain up to a height. -/
def headersUpTo (s : ChainState) (height : ℕ) : List BlockHeader :=
  (List.range (height + 1)).filterMap fun h => s.getBlockHeaderByHeight h .candidate

/-- The table maps the commitments of the unspent outputs, each to its leaf and to the height
of the header that first covers the leaf, and nothing else. -/
structure PositionsOf (headers : List BlockHeader) (outputs : PruneableFiles OutputIdentifier)
    (table : Commitment → Option OutputLocation) : Prop where
  /-- Every unspent output is there. -/
  unspent : ∀ i output, outputs.getAt i = some output → ∃ h, firstCovering headers i = some h ∧
    table output.commitment = some ⟨i, h.getHeight⟩
  /-- Only unspent outputs are there. -/
  only : ∀ c location, table c = some location → ∃ output,
    outputs.getAt location.leafIndex = some output ∧ output.commitment = c

/-- **The condition on the table**: every entry that is there already is replaced, no two
unspent outputs share a commitment, and each of them is covered by a header. -/
structure FitsTable (headers : List BlockHeader) (outputs : PruneableFiles OutputIdentifier)
    (table : Commitment → Option OutputLocation) : Prop where
  /-- The old entries are those of unspent outputs. -/
  replaced : ∀ c, (table c).isSome = true →
    ∃ i output, outputs.getAt i = some output ∧ output.commitment = c
  /-- Unspent outputs have different commitments. -/
  distinct : ∀ i j a b, outputs.getAt i = some a → outputs.getAt j = some b →
    a.commitment = b.commitment → i = j
  /-- Unspent outputs are covered. -/
  covered : ∀ i output, outputs.getAt i = some output → (firstCovering headers i).isSome = true

/-- A table after some leaves were entered, each with a height: a commitment has the position
of a leaf that was entered or, when there is none, the one it had before. -/
def Entered (outputs : PruneableFiles OutputIdentifier) (cover : ℕ → Option ℕ)
    (table table' : Commitment → Option OutputLocation) : Prop :=
  ∀ c, (∃ i output height, outputs.getAt i = some output ∧ output.commitment = c ∧
      cover i = some height ∧ table' c = some ⟨i, height⟩) ∨
    (∀ i output, outputs.getAt i = some output → output.commitment = c → cover i = none) ∧
      table' c = table c

/-- **Entering all covered leaves gives the right table exactly under the condition.** -/
theorem positionsOf_iff {headers : List BlockHeader} {outputs : PruneableFiles OutputIdentifier}
    {table table' : Commitment → Option OutputLocation}
    (h : Entered outputs (coverHeight headers) table table') :
    PositionsOf headers outputs table' ↔ FitsTable headers outputs table := by
  constructor
  · intro hpos
    refine ⟨fun c hc => ?_, fun i j a b ha hb hab => ?_, fun i output hi => ?_⟩
    · rcases h c with ⟨i, output, -, hi, hcom, -⟩ | ⟨-, heq⟩
      · exact ⟨i, output, hi, hcom⟩
      · rw [← heq] at hc
        obtain ⟨location, hloc⟩ := Option.isSome_iff_exists.mp hc
        obtain ⟨output, hout, hcom⟩ := hpos.only c location hloc
        exact ⟨_, output, hout, hcom⟩
    · obtain ⟨_, -, hta⟩ := hpos.unspent i a ha
      obtain ⟨_, -, htb⟩ := hpos.unspent j b hb
      rw [hab, htb, Option.some_inj, OutputLocation.mk.injEq] at hta
      exact hta.1.symm
    · obtain ⟨header, hcover, -⟩ := hpos.unspent i output hi
      rw [hcover]
      rfl
  · intro hfits
    refine ⟨fun i output hi => ?_, fun c location hc => ?_⟩
    · obtain ⟨header, hcover⟩ := Option.isSome_iff_exists.mp (hfits.covered i output hi)
      rcases h output.commitment with ⟨j, other, height, hj, hcom, hheight, htable⟩ | ⟨hnone, -⟩
      · obtain rfl := hfits.distinct i j output other hi hj hcom.symm
        rw [coverHeight, hcover, Option.map_some, Option.some_inj] at hheight
        exact ⟨header, hcover, by rw [htable, hheight]⟩
      · have := hnone i output hi rfl
        rw [coverHeight, hcover] at this
        cases this
    · rcases h c with ⟨i, output, height, hi, hcom, -, htable⟩ | ⟨hnone, heq⟩
      · rw [htable] at hc
        cases hc
        exact ⟨output, hi, hcom⟩
      · -- An old entry is the one of an unspent output, which was entered.
        rw [heq] at hc
        obtain ⟨i, output, hi, hcom⟩ := hfits.replaced c (by rw [hc]; rfl)
        have := hfits.covered i output hi
        have hnone := hnone i output hi hcom
        rw [coverHeight, Option.map_eq_none_iff] at hnone
        rw [hnone] at this
        cases this

variable {t : TxHashSet} {cover cover' : ℕ → Option ℕ}
  {table : Commitment → Option OutputLocation}

theorem Entered.congr {outputs : PruneableFiles OutputIdentifier}
    {table' : Commitment → Option OutputLocation} (h : Entered outputs cover table table')
    (heq : ∀ i, cover' i = cover i) : Entered outputs cover' table table' := by
  have : cover' = cover := funext heq
  rwa [this]

/-- **One leaf is entered.** -/
theorem Entered.saveOutputPosition {db : BlockDB} {height i : ℕ}
    (h : Entered t.outputPMMR.current cover table db.tables.current.outputPos) :
    Entered t.outputPMMR.current (Function.update cover i (some height)) table
      (t.saveOutputPosition height db i).tables.current.outputPos := by
  intro c
  -- Another leaf keeps its height.
  have hother : ∀ j output, t.outputPMMR.current.getAt j = some output → output.commitment = c →
      (∀ a, t.outputPMMR.current.getAt i = some a → a.commitment ≠ c) →
      Function.update cover i (some height) j = cover j := by
    intro j output hj hcom hne
    refine Function.update_of_ne (fun heq => ?_) _ _
    exact hne output (heq ▸ hj) hcom
  rw [TxHashSet.saveOutputPosition]
  rcases hget : t.outputPMMR.current.getAt i with _ | a
  · rw [hget] at hother
    rcases h c with ⟨j, output, ht, hj, hcom, hcover, htable⟩ | ⟨hnone, htable⟩
    · refine .inl ⟨j, output, ht, hj, hcom, ?_, htable⟩
      rwa [hother j output hj hcom (by simp)]
    · refine .inr ⟨fun j output hj hcom => ?_, htable⟩
      rw [hother j output hj hcom (by simp)]
      exact hnone j output hj hcom
  · by_cases hc : c = a.commitment
    · subst hc
      exact .inl ⟨i, a, height, hget, rfl, Function.update_self .., Function.update_self ..⟩
    · have hne : ∀ b, t.outputPMMR.current.getAt i = some b → b.commitment ≠ c := by
        intro b hb heq
        rw [hget, Option.some_inj] at hb
        exact hc (by rw [hb, heq])
      have hkeep : (db.addOutputPosition a.commitment ⟨i, height⟩).tables.current.outputPos c =
          db.tables.current.outputPos c := Function.update_of_ne hc ..
      rcases h c with ⟨j, output, ht, hj, hcom, hcover, htable⟩ | ⟨hnone, htable⟩
      · refine .inl ⟨j, output, ht, hj, hcom, ?_, hkeep.trans htable⟩
        rwa [hother j output hj hcom hne]
      · refine .inr ⟨fun j output hj hcom => ?_, hkeep.trans htable⟩
        rw [hother j output hj hcom hne]
        exact hnone j output hj hcom

/-- **A run of leaves is entered.** -/
theorem Entered.foldl_saveOutputPosition {db : BlockDB} {height first n : ℕ}
    (hcover : ∀ i, first ≤ i → cover i = none)
    (h : Entered t.outputPMMR.current cover table db.tables.current.outputPos) :
    Entered t.outputPMMR.current
      (fun i => if first ≤ i ∧ i < first + n then some height else cover i) table
      ((List.range' first n).foldl (t.saveOutputPosition height) db).tables.current.outputPos := by
  induction n generalizing db first cover with
  | zero => exact h.congr fun i => if_neg (by omega)
  | succ n ih =>
    rw [List.range'_succ, List.foldl_cons]
    have hstep := @Entered.saveOutputPosition t cover table db height first h
    refine (ih (fun i hi => ?_) hstep).congr fun i => ?_
    · rw [Function.update_of_ne (by omega)]
      exact hcover i (by omega)
    · by_cases heq : i = first
      · subst heq
        rw [if_pos (by omega), if_neg (by omega), Function.update_self]
      · rw [Function.update_of_ne heq]
        exact if_congr (by omega) rfl rfl

theorem coverHeight_append (headers : List BlockHeader) (header : BlockHeader) {first : ℕ}
    (hfirst : ∀ i, coverHeight headers i = none ↔ first ≤ i) (i : ℕ) :
    coverHeight (headers ++ [header]) i =
      if first ≤ i ∧ i < header.getNumOutputs then some header.getHeight
      else coverHeight headers i := by
  rw [coverHeight, firstCovering, List.find?_append]
  by_cases hi : first ≤ i
  · have hnone : headers.find? (fun h => i < h.getNumOutputs) = none :=
      Option.map_eq_none_iff.mp ((hfirst i).mpr hi)
    rw [coverHeight, firstCovering, hnone]
    by_cases hlt : i < header.getNumOutputs
    · simp [hi, hlt]
    · simp [hlt]
  · rw [if_neg (fun h => hi h.1), coverHeight, firstCovering]
    have hsome : (headers.find? fun h => i < h.getNumOutputs) ≠ none := fun hnone =>
      hi ((hfirst i).mp (Option.map_eq_none_iff.mpr hnone))
    obtain ⟨a, ha⟩ := Option.ne_none_iff_exists'.mp hsome
    rw [ha]
    rfl

/-- **All leaves that the headers cover are entered.** -/
theorem entered_saveOutputPositions (chain : Chain) (t : TxHashSet) (db : BlockDB) :
    Entered t.outputPMMR.current
      (coverHeight ((List.range (t.blockHeader.getHeight + 1)).filterMap fun h =>
        (chain.getByHeight h).bind db.getBlockHeader))
      db.tables.current.outputPos (t.saveOutputPositions chain db).tables.current.outputPos := by
  -- The induction is over the heights; the next leaf is the first one that is not covered.
  have key : ∀ (heights : List ℕ) (headers : List BlockHeader) (p : ℕ × BlockDB),
      TxHashSet.OnlyPositions db p.2 → (∀ i, coverHeight headers i = none ↔ p.1 ≤ i) →
      Entered t.outputPMMR.current (coverHeight headers) db.tables.current.outputPos
        p.2.tables.current.outputPos →
      Entered t.outputPMMR.current
        (coverHeight (headers ++ heights.filterMap fun h =>
          (chain.getByHeight h).bind db.getBlockHeader))
        db.tables.current.outputPos
        (heights.foldl (fun p height => t.saveOutputPositionsAt chain p.1 p.2 height)
          p).2.tables.current.outputPos := by
    intro heights
    induction heights with
    | nil =>
      intro headers p _ _ hent
      rwa [List.filterMap_nil, List.append_nil]
    | cons height heights ih =>
      intro headers p hdb hfirst hent
      have hlookup : (chain.getByHeight height).bind p.2.getBlockHeader =
          (chain.getByHeight height).bind db.getBlockHeader :=
        congrArg _ (funext fun k => hdb.getBlockHeader k)
      have hdb' := hdb.trans (TxHashSet.onlyPositions_saveOutputPositionsAt chain t p.1 p.2 height)
      rw [List.foldl_cons]
      rcases hheader : (chain.getByHeight height).bind db.getBlockHeader with _ | header
      · rw [List.filterMap_cons, hheader]
        refine ih headers _ hdb' ?_ ?_
        · rw [TxHashSet.saveOutputPositionsAt, hlookup, hheader]
          exact hfirst
        · rw [TxHashSet.saveOutputPositionsAt, hlookup, hheader]
          exact hent
      · rw [List.filterMap_cons, hheader]
        dsimp only
        rw [← List.singleton_append, ← List.append_assoc]
        refine ih (headers ++ [header]) _ hdb' ?_ ?_
        · intro i
          rw [TxHashSet.saveOutputPositionsAt, hlookup, hheader,
            coverHeight_append headers header hfirst]
          dsimp only
          have := hfirst i
          split
          · simp only [reduceCtorEq, false_iff]
            omega
          · rw [this]
            omega
        · rw [TxHashSet.saveOutputPositionsAt, hlookup, hheader]
          refine (hent.foldl_saveOutputPosition fun i hi => (hfirst i).mpr hi).congr fun i => ?_
          rw [coverHeight_append headers header hfirst]
          exact if_congr (by omega) rfl rfl
  refine key _ [] (0, db) (.refl db) (fun i => ⟨fun _ => Nat.zero_le i, fun _ => rfl⟩) fun c => ?_
  exact .inr ⟨fun _ _ _ _ => rfl, rfl⟩

/-! ### The confirmed chain -/

variable {G : Global} {s u v : ChainState}

theorem findCommonHeight_le (a b : Chain) (n : ℕ) : findCommonHeight a b n ≤ n := by
  induction n with
  | zero => exact le_rfl
  | succ n ih =>
    rw [findCommonHeight]
    split
    · exact le_rfl
    · exact ih.trans (Nat.le_succ n)

theorem findCommonIndex_lt (s : ChainState) :
    s.findCommonIndex < s.candidate.hashes.length ∧
      s.findCommonIndex < s.confirmed.hashes.length := by
  have h := findCommonHeight_le s.candidate s.confirmed
    (min s.candidate.getHeight s.confirmed.getHeight)
  rw [findCommonIndex, s.candidate.length_hashes, s.confirmed.length_hashes]
  omega

/-- The hashes of the candidate chain are added one after the other. -/
theorem of_run_follow {first n : ℕ} (hlen : u.confirmed.hashes.length = first)
    (h : run ((List.range' first n).forM fun i =>
      match s.candidate.getByHeight i with
      | none => throw .undefined
      | some hash => updateConfirmed (Chain.addBlock hash i)) u = (.ok (), v)) :
    v = { u with confirmed := v.confirmed } ∧
      v.confirmed.hashes =
        u.confirmed.hashes ++ (s.candidate.hashes.take (first + n)).drop first := by
  induction n generalizing first u with
  | zero =>
    cases h
    exact ⟨rfl, by simp⟩
  | succ n ih =>
    rw [List.range'_succ, run_forM_cons] at h
    obtain ⟨⟨⟩, w, hw, hrest⟩ := of_run_bind_ok h
    rcases hhash : s.candidate.getByHeight first with _ | hash
    · rw [hhash] at hw
      cases hw
    · rw [hhash] at hw
      obtain ⟨c, hc, heq⟩ := of_bind_eq_ok (of_run_update_ok hw)
      cases heq
      obtain ⟨-, hhashes, -⟩ := Chain.of_addBlock hc
      obtain ⟨heq, hfinal⟩ := ih (u := { u with confirmed := c })
        (by rw [hhashes, List.length_append, hlen, List.length_singleton]) hrest
      refine ⟨heq, ?_⟩
      obtain ⟨hlt, hget⟩ := List.getElem?_eq_some_iff.mp hhash
      have hdrop : (s.candidate.hashes.take (first + (n + 1))).drop first =
          hash :: (s.candidate.hashes.take (first + 1 + n)).drop (first + 1) := by
        rw [List.drop_eq_getElem_cons (by rw [List.length_take]; omega), List.getElem_take, hget,
          Nat.add_comm n 1, ← Nat.add_assoc]
      rw [hfinal, hhashes, hdrop, List.append_assoc, List.singleton_append]

theorem of_run_followCandidate {height : ℕ}
    (h : run (TxHashSetProcessor.followCandidate height) s = (.ok (), v)) :
    v = { s with confirmed := v.confirmed } ∧
      v.confirmed.hashes = s.confirmed.hashes.take (s.findCommonIndex + 1) ++
        (s.candidate.hashes.take (height + 1)).drop (s.findCommonIndex + 1) := by
  rw [TxHashSetProcessor.followCandidate, run_bind_ok (run_get s)] at h
  obtain ⟨⟨⟩, w, hw, hrest⟩ := of_run_bind_ok h
  obtain ⟨c, hc, heq⟩ := of_bind_eq_ok (of_run_update_ok hw)
  cases heq
  obtain ⟨hlt, hhashes, -⟩ := Chain.of_rewind hc
  obtain ⟨heq, hfinal⟩ := of_run_follow (u := { s with confirmed := c })
    (by rw [hhashes, List.length_take]; omega) hrest
  refine ⟨heq, ?_⟩
  rw [hfinal, hhashes]
  congr 1
  -- Above the height there is nothing to add.
  by_cases hle : s.findCommonIndex ≤ height
  · rw [show s.findCommonIndex + 1 + (height - s.findCommonIndex) = height + 1 by omega]
  · rw [List.drop_eq_nil_of_le (by rw [List.length_take]; omega),
      List.drop_eq_nil_of_le (by rw [List.length_take]; omega)]

/-- **The condition on the chains**: they agree up to the height at which the confirmed chain
is taken to leave the candidate chain, and this is not above the archive header. -/
structure FitsChain (s : ChainState) (height : ℕ) : Prop where
  /-- The common height is not above the archive header. -/
  common_le : s.findCommonIndex ≤ height
  /-- The chains agree up to there. -/
  agree : s.confirmed.hashes.take (s.findCommonIndex + 1) =
    s.candidate.hashes.take (s.findCommonIndex + 1)

/-- **The confirmed chain ends with the archive header exactly under the condition.** -/
theorem confirmed_iff {height : ℕ} {hash : Hash} {confirmed : Chain}
    (hhash : s.candidate.getByHeight height = some hash)
    (hhashes : confirmed.hashes = s.confirmed.hashes.take (s.findCommonIndex + 1) ++
      (s.candidate.hashes.take (height + 1)).drop (s.findCommonIndex + 1)) :
    (confirmed.getHeight = height ∧ confirmed.getTipHash = hash ∧
      confirmed.hashes <+: s.candidate.hashes) ↔ FitsChain s height := by
  obtain ⟨hcand, hconf⟩ := findCommonIndex_lt s
  obtain ⟨hlt, -⟩ := List.getElem?_eq_some_iff.mp hhash
  have hlen := congrArg List.length hhashes
  rw [confirmed.length_hashes, List.length_append, List.length_drop, List.length_take,
    List.length_take] at hlen
  constructor
  · rintro ⟨hheight, -, hfront⟩
    have hle : s.findCommonIndex ≤ height := by omega
    refine ⟨hle, ?_⟩
    have htake := congrArg (List.take (s.findCommonIndex + 1)) (List.prefix_iff_eq_take.mp hfront)
    rw [List.take_take, hhashes, List.take_left' (by rw [List.length_take]; omega)] at htake
    rw [htake, Nat.min_eq_left]
    rw [List.length_append, List.length_drop, List.length_take, List.length_take]
    omega
  · rintro ⟨hle, hagree⟩
    have htake : s.candidate.hashes.take (s.findCommonIndex + 1) =
        (s.candidate.hashes.take (height + 1)).take (s.findCommonIndex + 1) := by
      rw [List.take_take, Nat.min_eq_left (by omega)]
    have hall : confirmed.hashes = s.candidate.hashes.take (height + 1) := by
      rw [hhashes, hagree, htake, List.take_append_drop]
    have hheight : confirmed.getHeight = height := by omega
    refine ⟨hheight, ?_, hall ▸ List.take_prefix _ _⟩
    have htip := confirmed.getElem?_getHeight
    rw [hheight, hall, List.getElem?_take_of_lt (by omega)] at htip
    exact Option.some_inj.mp (htip.symm.trans hhash)

/-! ### When the installed state is consistent -/

variable (G) in
/-- **What a successful state sync should leave behind**: the confirmed chain is the candidate
chain up to the archive header, the hash set is at the archive header, and the position table
is the one of its unspent outputs. -/
structure Consistent (t : ChainState) (header : BlockHeader) : Prop where
  /-- The confirmed chain. -/
  confirmed : t.confirmed.getHeight = header.getHeight ∧
    t.confirmed.getTipHash = header.getHash G ∧ t.confirmed.hashes <+: t.candidate.hashes
  /-- The hash set and its positions. -/
  positions : ∃ a, t.txHashSet = some a ∧ a.blockHeader = header ∧
    PositionsOf (headersUpTo t header.getHeight) a.outputPMMR.current
      t.blockDB.tables.current.outputPos

/-- **The condition**, on the state before the call and on the hash set that is installed. -/
structure Fits (s : ChainState) (a : TxHashSet) (header : BlockHeader) : Prop where
  /-- The chains fit. -/
  chain : FitsChain s header.getHeight
  /-- The hash set is at the archive header. -/
  header_eq : a.blockHeader = header
  /-- The table fits. -/
  table : FitsTable (headersUpTo s header.getHeight) a.outputPMMR.current
    s.blockDB.tables.current.outputPos

variable (G) in
/-- The state that is committed. -/
structure Installed (s : ChainState) (a : TxHashSet) (header : BlockHeader) (w : ChainState) :
    Prop where
  /-- These parts change. -/
  eq : ∃ hash sums, w =
    { s with
      confirmed := w.confirmed
      blockDB := a.saveOutputPositions s.candidate (s.blockDB.addBlockSums hash sums)
      txHashSet := some a }
  /-- The archive header is on the candidate chain. -/
  onCandidate : s.candidate.getByHeight header.getHeight = some (header.getHash G)
  /-- The confirmed chain follows the candidate chain. -/
  confirmed : w.confirmed.hashes = s.confirmed.hashes.take (s.findCommonIndex + 1) ++
    (s.candidate.hashes.take (header.getHeight + 1)).drop (s.findCommonIndex + 1)

/-- The lookup of headers is not changed. -/
theorem Installed.getBlockHeader {a : TxHashSet} {header : BlockHeader} {w : ChainState}
    (hrest : s.blockDB.uncommitted = []) (h : Installed G s a header w) (k : Hash) :
    (w.blockDB.commit G).getBlockHeader k = s.blockDB.getBlockHeader k := by
  obtain ⟨hash, sums, hw⟩ := h.eq
  have honly := TxHashSet.onlyPositions_saveOutputPositions s.candidate a
    (s.blockDB.addBlockSums hash sums)
  have hsame : (w.blockDB.commit G).getBlockHeader k = w.blockDB.getBlockHeader k := by
    have huncommitted : w.blockDB.uncommitted = [] := by
      rw [hw]
      exact honly.uncommitted.trans hrest
    simp only [BlockDB.commit, BlockDB.getBlockHeader, huncommitted, List.foldl_nil,
      Batch.commit_current]
  rw [hsame, hw]
  exact honly.getBlockHeader k

theorem Installed.headersUpTo_eq {a : TxHashSet} {header : BlockHeader} {w : ChainState}
    (hrest : s.blockDB.uncommitted = []) (h : Installed G s a header w) (height : ℕ) :
    headersUpTo (w.commit G).rollback height = headersUpTo s height := by
  obtain ⟨hash, sums, hw⟩ := h.eq
  refine congrArg (List.filterMap · _) (funext fun i => ?_)
  have hchain : ((w.commit G).rollback.getChain .candidate).hashes =
      (s.getChain .candidate).hashes := by
    rw [rollback_commit, hw]
    exact congrArg Indices.hashes (Batch.commit_current _)
  rw [getBlockHeaderByHeight, getBlockHeaderByHeight, Chain.getByHeight, Chain.getByHeight, hchain,
    rollback_commit]
  exact congrArg _ (funext (h.getBlockHeader hrest))

/-- **The installed state is consistent exactly under the condition.** -/
theorem Installed.consistent_iff_fits {a : TxHashSet} {header : BlockHeader} {w : ChainState}
    (hrest : s.blockDB.uncommitted = []) (h : Installed G s a header w) :
    Consistent G (w.commit G).rollback header ↔ Fits s a header := by
  have hheaders := h.headersUpTo_eq hrest header.getHeight
  obtain ⟨hash, sums, hw⟩ := h.eq
  have hchain := @confirmed_iff s header.getHeight (header.getHash G) w.confirmed.commit
    h.onCandidate (by
    rw [Chain.hashes, Batch.commit_current]
    exact h.confirmed)
  have hcandidate : Chain.hashes w.candidate.commit = s.candidate.hashes := by
    rw [Chain.hashes, Batch.commit_current, hw]
    rfl
  have houtputs : a.commit.rollback.outputPMMR.current = a.outputPMMR.current := by
    simp only [TxHashSet.commit, TxHashSet.rollback, Batch.rollback_commit, Batch.commit_current]
  have hset : (w.txHashSet.map fun t => t.commit.rollback) = some a.commit.rollback := by
    rw [hw]
    rfl
  have htable : a.blockHeader = header →
      (PositionsOf (headersUpTo s header.getHeight) a.outputPMMR.current
        (w.blockDB.commit G).tables.current.outputPos ↔
      FitsTable (headersUpTo s header.getHeight) a.outputPMMR.current
        s.blockDB.tables.current.outputPos) := by
    intro heq
    have hentered := entered_saveOutputPositions s.candidate a
      (s.blockDB.addBlockSums hash sums)
    rw [heq] at hentered
    refine positionsOf_iff ?_
    rw [BlockDB.commit, Batch.commit_current, hw]
    exact hentered
  constructor
  · rintro ⟨hconf, b, hb, hheader, hpos⟩
    rw [hheaders] at hpos
    rw [rollback_commit] at hconf hb hpos
    obtain rfl : b = a.commit.rollback := Option.some_inj.mp (hb.symm.trans hset)
    rw [hcandidate] at hconf
    rw [houtputs] at hpos
    exact ⟨hchain.mp hconf, hheader, (htable hheader).mp hpos⟩
  · rintro ⟨hfits, hheader, hfitsTable⟩
    refine ⟨?_, a.commit.rollback, ?_, hheader, ?_⟩
    · rw [rollback_commit]
      dsimp only
      rw [hcandidate]
      exact hchain.mpr hfits
    · rw [rollback_commit]
      exact hset
    · rw [hheaders, rollback_commit, houtputs]
      exact (htable hheader).mpr hfitsTable

/-- A hash set that was downloaded as an archive. -/
theorem installed_of_installTxHashSet {a : TxHashSet} {header : BlockHeader} {sums : BlockSums}
    (h : run (TxHashSetProcessor.installTxHashSet G a header sums) s = (.ok true, v)) :
    ∃ w, Installed G s a header w ∧ v = w.commit G := by
  rw [TxHashSetProcessor.installTxHashSet] at h
  obtain ⟨⟨⟩, u, hu, h⟩ := of_run_bind_ok h
  cases hu
  obtain ⟨⟨⟩, u, hu, h⟩ := of_run_bind_ok h
  cases hu
  obtain ⟨updated, w, hw, h⟩ := of_run_bind_ok h
  rw [TxHashSetProcessor.updateConfirmedChain, run_bind_ok (run_get _)] at hw
  rcases hhash : s.candidate.getByHeight header.getHeight with _ | hash
  · dsimp only at hw
    rw [hhash] at hw
    cases hw
  · dsimp only at hw
    rw [hhash] at hw
    dsimp only at hw
    split at hw
    · cases hw
      cases h
    · next hne =>
      obtain ⟨⟨⟩, w', hw', hw⟩ := of_run_bind_ok hw
      cases hw
      obtain ⟨heq, hhashes⟩ := of_run_followCandidate hw'
      cases h
      rw [not_not] at hne
      exact ⟨w, ⟨⟨_, _, heq⟩, by rw [hhash, hne], hhashes⟩, rfl⟩

/-- A hash set that was downloaded in segments. -/
theorem installed_of_installPIBDTxHashSet {a : TxHashSet} {header : BlockHeader}
    {sums : BlockSums} (hset : s.txHashSet = some a)
    (h : run (BlockChain.installPIBDTxHashSet G a header sums) s = (.ok .success, v)) :
    ∃ w, Installed G s a header w ∧ v = w.commit G := by
  rw [BlockChain.installPIBDTxHashSet] at h
  obtain ⟨⟨⟩, u, hu, h⟩ := of_run_bind_ok h
  cases hu
  rw [run_bind_ok (run_get _)] at h
  dsimp only at h
  split at h
  · cases h
  · next hon =>
    obtain ⟨⟨⟩, w, hw, h⟩ := of_run_bind_ok h
    obtain ⟨heq, hhashes⟩ := of_run_followCandidate hw
    cases h
    rw [not_not] at hon
    rw [hset] at heq
    exact ⟨w, ⟨⟨_, _, heq⟩, hon, hhashes⟩, rfl⟩

theorem fits_of_processTxHashSet (hs : s.AtRest) {blockHash : Hash} {archive : Option Archive}
    (h : run (TxHashSetProcessor.processTxHashSet G blockHash archive) s = (.ok true, v)) :
    ∃ header a, s.blockDB.getBlockHeader blockHash = some header ∧
      TxHashSetManager.loadFromZip archive header = some a ∧
      (Consistent G v header ↔ Fits s a header) := by
  rw [TxHashSetProcessor.processTxHashSet, run_bind_ok (run_get s)] at h
  rcases hheader : s.blockDB.getBlockHeader blockHash with _ | header
  · rw [hheader] at h
    cases h
  rw [hheader] at h
  obtain ⟨⟨⟩, u, hu, h⟩ := of_run_bind_ok h
  cases hu
  rcases ha : TxHashSetManager.loadFromZip archive header with _ | a
  · rw [ha] at h
    cases h
  rw [ha] at h
  dsimp only at h
  split at h
  · cases h
  · next sums _ =>
    refine ⟨header, a, rfl, ha, ?_⟩
    rcases hbody : run (TxHashSetProcessor.installTxHashSet G a header sums)
      { s with txHashSet := none } with ⟨r, w⟩
    rw [batch, run_ofRun, hbody, Prod.mk.injEq] at h
    obtain ⟨rfl, rfl⟩ := h
    obtain ⟨w, hw, rfl⟩ := installed_of_installTxHashSet hbody
    have hrest : ({ s with txHashSet := none } : ChainState).blockDB.uncommitted = [] :=
      hs.blockDB.2
    exact (hw.consistent_iff_fits hrest).trans ⟨fun hf => ⟨⟨hf.1.1, hf.1.2⟩, hf.2, hf.3⟩,
      fun hf => ⟨⟨hf.1.1, hf.1.2⟩, hf.2, hf.3⟩⟩

theorem fits_of_processPIBDTransactionHashSet (hs : s.AtRest) {blockHash : Hash}
    (h : run (BlockChain.processPIBDTransactionHashSet G blockHash) s = (.ok .success, v)) :
    ∃ header a, s.blockDB.getBlockHeader blockHash = some header ∧ s.txHashSet = some a ∧
      (Consistent G v header ↔ Fits s a header) := by
  -- What is caught is reported as invalid.
  have hlocked : run (BlockChain.processPIBDLocked G blockHash) s = (.ok .success, v) := by
    rcases hr : run (BlockChain.processPIBDLocked G blockHash) s with ⟨e | status, w⟩
    · rw [BlockChain.processPIBDTransactionHashSet, run_ofRun, hr, Prod.mk.injEq] at h
      obtain ⟨hcatch, -⟩ := h
      dsimp only [catching] at hcatch
      split at hcatch <;> cases hcatch
    · rw [BlockChain.processPIBDTransactionHashSet, run_ofRun, hr] at h
      exact h
  rw [BlockChain.processPIBDLocked, run_bind_ok (run_get s)] at hlocked
  rcases hheader : s.blockDB.getBlockHeader blockHash with _ | header
  · rw [hheader] at hlocked
    cases hlocked
  rw [hheader] at hlocked
  rcases ha : s.txHashSet with _ | a
  · rw [ha] at hlocked
    cases hlocked
  rw [ha] at hlocked
  dsimp only at hlocked
  split at hlocked
  · cases hlocked
  · next sums _ =>
    refine ⟨header, a, rfl, rfl, ?_⟩
    rcases hbody : run (BlockChain.installPIBDTxHashSet G a header sums) s with ⟨r, w⟩
    rw [batch, run_ofRun, hbody, Prod.mk.injEq] at hlocked
    obtain ⟨rfl, rfl⟩ := hlocked
    obtain ⟨w, hw, rfl⟩ := installed_of_installPIBDTxHashSet ha hbody
    exact hw.consistent_iff_fits hs.blockDB.2

/-- **State sync installs a consistent state exactly when it fits what was there before**: the
chains agree up to the height at which the confirmed chain is rewound, which is not above the
archive header; every position that is in the table belongs to an unspent output of the new
hash set; its unspent outputs have different commitments and are covered; and – for a download
in segments – the open hash set is at the archive header. -/
theorem consistent_iff (hs : s.AtRest) (blockHash : Hash) :
    (∀ archive t,
      run (TxHashSetProcessor.processTxHashSet G blockHash archive) s = (.ok true, t) →
      ∃ header a, s.blockDB.getBlockHeader blockHash = some header ∧
        TxHashSetManager.loadFromZip archive header = some a ∧
        (Consistent G t header ↔ Fits s a header)) ∧
    ∀ t, run (BlockChain.processPIBDTransactionHashSet G blockHash) s = (.ok .success, t) →
      ∃ header a, s.blockDB.getBlockHeader blockHash = some header ∧ s.txHashSet = some a ∧
        (Consistent G t header ↔ Fits s a header) := by
  constructor
  · intro archive t h
    exact fits_of_processTxHashSet hs h
  · intro t h
    exact fits_of_processPIBDTransactionHashSet hs h

/-! ### On the small network -/

open SmallNet

theorem fits_genesis {a : TxHashSet} (ha : genesis.txHashSet = some a) :
    Fits genesis a genesisHeader := by
  have hcommon : genesis.findCommonIndex = 0 := by decide +kernel
  have hget : a.outputPMMR.current.getAt 0 =
      some (OutputIdentifier.fromOutput (coinbaseOutput 1)) := by
    have : (genesis.txHashSet.map fun a => a.outputPMMR.current.getAt 0) =
        some (some (OutputIdentifier.fromOutput (coinbaseOutput 1))) := by decide +kernel
    rwa [ha, Option.map_some, Option.some_inj] at this
  have hsize : a.outputPMMR.current.getSize = 1 := by
    have : (genesis.txHashSet.map fun a => a.outputPMMR.current.getSize) = some 1 := by
      decide +kernel
    rwa [ha, Option.map_some, Option.some_inj] at this
  have hheader : a.blockHeader = genesisHeader := by
    have : (genesis.txHashSet.map fun a => a.blockHeader) = some genesisHeader := by
      decide +kernel
    rwa [ha, Option.map_some, Option.some_inj] at this
  have htable : genesis.blockDB.tables.current.outputPos =
      Function.update (fun _ => none) (coinbaseOutput 1).commitment (some ⟨0, 0⟩) := rfl
  have hzero : ∀ i output, a.outputPMMR.current.getAt i = some output → i = 0 := by
    intro i output hi
    rw [PruneableFiles.getAt] at hi
    split at hi
    · next hunpruned =>
      rw [PruneableFiles.isUnpruned, Bool.and_eq_true, decide_eq_true_eq, hsize,
        leafPosition] at hunpruned
      have := PostOrder.le_leafPos i
      omega
    · cases hi
  refine ⟨⟨?_, ?_⟩, hheader, ⟨fun c hc => ?_, fun i j b b' hi hj _ => ?_, fun i output hi => ?_⟩⟩
  · rw [hcommon]
    exact Nat.zero_le _
  · decide +kernel
  · rw [htable] at hc
    by_cases heq : c = (coinbaseOutput 1).commitment
    · exact ⟨0, _, hget, heq.symm⟩
    · rw [Function.update_of_ne heq] at hc
      cases hc
  · rw [hzero i b hi, hzero j b' hj]
  · obtain rfl := hzero i output hi
    decide +kernel

/-- A download in segments at the genesis block gives a consistent state. -/
theorem consistent_genesis :
    ∃ t, run (BlockChain.processPIBDTransactionHashSet testNet
        (genesisHeader.getHash testNet)) genesis = (.ok .success, t) ∧
      Consistent testNet t genesisHeader := by
  have hrun : (run (BlockChain.processPIBDTransactionHashSet testNet
      (genesisHeader.getHash testNet)) genesis).1.toOption = some .success := by
    decide +kernel
  have hlookup : genesis.blockDB.getBlockHeader (genesisHeader.getHash testNet) =
      some genesisHeader := by decide +kernel
  rcases h : run (BlockChain.processPIBDTransactionHashSet testNet
    (genesisHeader.getHash testNet)) genesis with ⟨e | status, t⟩
  · rw [h] at hrun
    cases hrun
  · rw [h] at hrun
    obtain rfl : status = .success := Option.some_inj.mp hrun
    obtain ⟨header, a, hheader, ha, hiff⟩ := (consistent_iff genesis_atRest _).2 t h
    obtain rfl : genesisHeader = header := Option.some_inj.mp (hlookup.symm.trans hheader)
    exact ⟨t, rfl, hiff.mpr (fits_genesis ha)⟩

/-- An archive of the state behind the first block. -/
def archive₁ : Option Archive :=
  state₁.txHashSet.map fun t =>
    ⟨t.kernelMMR.current, t.outputPMMR.current, t.rangeProofPMMR.current⟩

/-- A valid archive for the first block, sent to a node that already has the second one: the
call succeeds, but the confirmed chain still ends with the second block. -/
theorem not_consistent_archive₁ :
    ∃ t, run (TxHashSetProcessor.processTxHashSet testNet (block₁.getHash testNet) archive₁)
        state₂ = (.ok true, t) ∧
      state₂.blockDB.getBlockHeader (block₁.getHash testNet) = some block₁.header ∧
      ¬Consistent testNet t block₁.header := by
  have hrun : (run (TxHashSetProcessor.processTxHashSet testNet (block₁.getHash testNet) archive₁)
      state₂).1.toOption = some true := by
    decide +kernel
  have hlookup : state₂.blockDB.getBlockHeader (block₁.getHash testNet) = some block₁.header := by
    decide +kernel
  have hcommon : state₂.findCommonIndex = 2 := by decide +kernel
  have hheight : block₁.header.getHeight = 1 := by decide +kernel
  have hrest : state₂.AtRest :=
    BlockProcessor.processBlock_atRest
      (BlockProcessor.processBlock_atRest genesis_atRest (run_processBlock _ _))
      (run_processBlock _ _)
  rcases h : run (TxHashSetProcessor.processTxHashSet testNet (block₁.getHash testNet) archive₁)
    state₂ with ⟨e | success, t⟩
  · rw [h] at hrun
    cases hrun
  · rw [h] at hrun
    obtain rfl : success = true := Option.some_inj.mp hrun
    obtain ⟨header, a, hheader, -, hiff⟩ := fits_of_processTxHashSet hrest h
    obtain rfl : block₁.header = header := Option.some_inj.mp (hlookup.symm.trans hheader)
    refine ⟨t, rfl, hlookup, fun hconsistent => ?_⟩
    have hle := (hiff.mp hconsistent).chain.common_le
    rw [hcommon, hheight] at hle
    omega

end StateSync

end GrinPlusPlus
