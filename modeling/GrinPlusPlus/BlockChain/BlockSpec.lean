import GrinPlusPlus.BlockChain.BlockProcessor
import GrinPlusPlus.BlockChain.HeaderSpec

/-!
# What `ProcessBlock` does

One lemma for each way in which `BlockProcessor::ProcessBlock` can end:

* it **fails**, or finds nothing to do
  (`GrinPlusPlus.BlockProcessor.fails_processBlockLocked`): the permanent state is left alone;
* it **discards a fork** (`GrinPlusPlus.BlockProcessor.run_discardReorg`): everything is rolled
  back and the blocks are stored;
* it **confirms** a block or a fork.

In front of all of them the header is processed, which never touches the blocks, the confirmed
chain or the transaction hash set (`GrinPlusPlus.BlockProcessor.HeadersOnly`).
-/

namespace GrinPlusPlus

open Exec

/-! ### What a header call leaves alone -/

/-- The second state differs from the first one in headers at most: the header table, the
header cache, the header MMR, the candidate chain and the orphan headers. -/
structure HeadersOnly (s u : ChainState) : Prop where
  /-- Only these parts change. -/
  eq : u = { s with
    candidate := u.candidate
    headerMMR := u.headerMMR
    blockDB := u.blockDB
    orphanPool := { u.orphanPool with orphans := s.orphanPool.orphans }
    accepted := u.accepted }
  /-- Of the tables, only the headers change. -/
  tables : u.blockDB.tables.current =
    { s.blockDB.tables.current with header := u.blockDB.tables.current.header }
  /-- Nothing is pending. -/
  atRest : u.AtRest

namespace BlockHeaderProcessor

open ChainState

variable {G : Global} {now : ℤ} {s t : ChainState}

/-- The blocks of the orphan pool, and the transaction pools. -/
def blockPools (s : ChainState) : List FullBlock × TransactionPool :=
  (s.orphanPool.orphans, s.txPool)

/-- The header calls change the state through a few changes only. A relation that counts these is
one that every header call moves along; the headers that may become orphans are known from the
call. -/
structure AlongCalls (G : Global) (now : ℤ) (Orphan : BlockHeader → Prop)
    (R : ChainState → ChainState → Prop) : Prop where
  /-- Nothing happens to the pools and the history. -/
  quiet : ∀ s t, t.orphanPool = s.orphanPool → t.txPool = s.txPool → t.accepted = s.accepted → R s t
  /-- An orphan header is read. -/
  touch : ∀ s hash, R s { s with orphanPool := (s.orphanPool.getOrphanHeader hash).2 }
  /-- A header becomes an orphan. -/
  orphan : ∀ s header, Orphan header →
    R s { s with orphanPool := s.orphanPool.addOrphanHeader G header }
  /-- A header is accepted. -/
  accept : ∀ s header previous,
    BlockHeaderValidator.validate G now s.blockDB.getBlockHeader s.headerMMR header previous =
      .ok () → R s { s with accepted := s.accepted ++ [header] }

/-- A relation that counts what leaves the blocks, the transactions and the history alone, and
that counts a header that was accepted. -/
structure AlongHeaders (G : Global) (now : ℤ) (R : ChainState → ChainState → Prop) : Prop where
  /-- Nothing happens to the blocks, the transactions and the history. -/
  quiet : ∀ s t, blockPools t = blockPools s → t.accepted = s.accepted → R s t
  /-- A header is accepted. -/
  accept : ∀ s header previous,
    BlockHeaderValidator.validate G now s.blockDB.getBlockHeader s.headerMMR header previous =
      .ok () → R s { s with accepted := s.accepted ++ [header] }

/-- Every header call moves along it, whatever becomes an orphan. -/
theorem AlongHeaders.calls {R : ChainState → ChainState → Prop} (h : AlongHeaders G now R) :
    AlongCalls G now (fun _ => True) R where
  quiet s t horphan htx := h.quiet s t (by rw [blockPools, horphan, htx]; rfl)
  touch s _ := h.quiet s _ rfl rfl
  orphan s _ _ := h.quiet s _ rfl rfl
  accept := h.accept

section AlongCalls

variable {Orphan : BlockHeader → Prop} {R : ChainState → ChainState → Prop}

theorem AlongCalls.updateCandidate [Std.Refl R] (h : AlongCalls G now Orphan R)
    (f : Chain → Except Exc Chain) : Steps R (updateCandidate f) := by
  refine steps_update fun s t ht => ?_
  obtain ⟨c, -, ht⟩ := of_bind_eq_ok ht
  cases ht
  exact h.quiet _ _ rfl rfl rfl

theorem AlongCalls.updateHeaderMMR [Std.Refl R] (h : AlongCalls G now Orphan R)
    (f : HeaderMMR → Except Exc HeaderMMR) : Steps R (updateHeaderMMR f) := by
  refine steps_update fun s t ht => ?_
  obtain ⟨m, -, ht⟩ := of_bind_eq_ok ht
  cases ht
  exact h.quiet _ _ rfl rfl rfl

theorem AlongCalls.validate [Std.Refl R] (h : AlongCalls G now Orphan R)
    (header previous : BlockHeader) : Steps R (validate G now header previous) := by
  intro s
  rw [BlockHeaderProcessor.validate, run_bind_ok (run_get s)]
  rcases hvalid : BlockHeaderValidator.validate G now s.blockDB.getBlockHeader s.headerMMR header
    previous with e | ⟨⟩
  · exact refl_of R s
  · exact h.accept s header previous hvalid

/-- The rollback at the end of a batch is quiet. -/
theorem AlongCalls.batch [IsTrans ChainState R] (h : AlongCalls G now Orphan R) {α : Type}
    {x : Exec Exc ChainState α} (hx : Steps R x) : Steps R (batch x) :=
  fun s => trans_of R (hx s) (h.quiet _ (run x s).2.rollback rfl rfl rfl)

variable [Std.Refl R] [IsTrans ChainState R]

theorem AlongCalls.validateHeaders (h : AlongCalls G now Orphan R) (headers : List BlockHeader) :
    Steps R (validateHeaders G now headers) := by
  have heach : ∀ (headers : List BlockHeader) (previous : BlockHeader),
      Steps R (validateEach G now headers previous) := by
    intro headers
    induction headers with
    | nil => exact fun _ => steps_pure _
    | cons header headers ih =>
      intro previous
      refine steps_bind (h.validate _ _) fun _ => ?_
      refine steps_bind (h.updateHeaderMMR _) fun _ => ?_
      refine steps_bind (steps_modify fun _ => h.quiet _ _ rfl rfl rfl) fun _ => ?_
      exact steps_bind (h.updateCandidate _) fun _ => ih _
  cases headers with
  | nil => exact steps_throw _
  | cons first rest =>
    refine steps_bind steps_get fun s => ?_
    split
    · exact steps_throw _
    · exact heach _ _

theorem AlongCalls.adoptHeaders (h : AlongCalls G now Orphan R) (headers : List BlockHeader)
    (lastDifficulty totalDifficulty : ℕ) :
    Steps R (adoptHeaders G now headers lastDifficulty totalDifficulty) := by
  cases headers with
  | nil => exact steps_throw _
  | cons first rest =>
    refine steps_bind (h.updateCandidate _) fun _ => ?_
    refine steps_bind (h.updateHeaderMMR _) fun _ => ?_
    refine steps_bind (h.validateHeaders _) fun _ => ?_
    refine steps_bind ?_ fun _ => ?_
    · rw [rollbackUnlessMore]
      exact steps_ite (fun _ => steps_modify fun _ => h.quiet _ _ rfl rfl rfl) fun _ => steps_pure _
    · exact steps_bind (steps_modify fun _ => h.quiet _ _ rfl rfl rfl) fun _ => steps_pure _

theorem AlongCalls.collectReorgHeaders (h : AlongCalls G now Orphan R) (passes : ℕ)
    (header : BlockHeader) (headers : List BlockHeader) :
    Steps R (collectReorgHeaders G passes header headers) := by
  induction passes generalizing header headers with
  | zero => exact steps_throw _
  | succ passes ih =>
    refine steps_bind steps_get fun s => ?_
    refine steps_ite (fun _ => steps_pure _) fun _ => ?_
    refine steps_bind (fun s => h.touch s _) fun orphanHeader => ?_
    cases orphanHeader with
    | some h => exact ih _ _
    | none =>
      dsimp only
      split
      · exact ih _ _
      · exact steps_pure _

/-- **A single header** moves along. -/
theorem AlongCalls.processSingleHeader (h : AlongCalls G now Orphan R) {header : BlockHeader}
    (hheader : Orphan header) : Steps R (processSingleHeader G now header) := by
  rw [BlockHeaderProcessor.processSingleHeader]
  refine steps_ite (fun _ => steps_pure _) fun _ => h.batch ?_
  refine steps_bind steps_get fun s => ?_
  refine steps_ite (fun _ => steps_pure _) fun _ => ?_
  refine steps_ite (fun _ => ?_) fun _ => ?_
  · refine steps_bind steps_get fun s => ?_
    refine steps_bind (h.collectReorgHeaders _ _ _) fun reorgHeaders => ?_
    cases reorgHeaders with
    | none =>
      exact steps_bind (steps_modify fun s => h.orphan s header hheader) fun _ => steps_pure _
    | some headers => exact h.adoptHeaders _ _ _
  · split
    · exact steps_throw _
    · refine steps_bind (h.validate _ _) fun _ => ?_
      refine steps_bind (steps_modify fun _ => h.quiet _ _ rfl rfl rfl) fun _ => ?_
      refine steps_bind (h.updateHeaderMMR _) fun _ => ?_
      refine steps_bind (h.updateCandidate _) fun _ => ?_
      exact steps_bind (steps_modify fun _ => h.quiet _ _ rfl rfl rfl) fun _ => steps_pure _

/-- **A chunk of headers** moves along. -/
theorem AlongCalls.processChunkedSyncHeaders (h : AlongCalls G now Orphan R)
    (headers : List BlockHeader) : Steps R (processChunkedSyncHeaders G now headers) := by
  refine h.batch ?_
  cases headers with
  | nil => exact steps_throw _
  | cons first rest =>
    refine steps_bind steps_get fun s => ?_
    refine steps_ite (fun _ => steps_throw _) fun _ => ?_
    split
    · exact steps_pure _
    · exact h.adoptHeaders _ _ _

/-- **A list of headers** moves along. -/
theorem AlongCalls.processSyncHeaders (h : AlongCalls G now Orphan R)
    (headers : List BlockHeader) : Steps R (processSyncHeaders G now headers) := by
  have hchunks : ∀ chunks, Steps R (processChunks G now chunks) := by
    intro chunks
    induction chunks with
    | nil => exact steps_pure _
    | cons chunk chunks ih =>
      refine steps_bind (h.processChunkedSyncHeaders chunk) fun status => ?_
      exact steps_ite (fun _ => steps_pure _) fun _ => ih
  cases headers with
  | nil => exact steps_pure _
  | cons first rest =>
    refine steps_ite (fun _ => steps_throw _) fun _ => ?_
    refine steps_ite (fun _ => steps_throw _) fun _ => ?_
    exact steps_ite (fun _ => steps_throw _) fun _ => hchunks _

theorem AlongCalls.resyncHeaders (h : AlongCalls G now Orphan R) (hashes : List Hash) (i : ℕ)
    (previous : Option BlockHeader) :
    Steps R (ChainResyncer.resyncHeaders G hashes i previous) := by
  induction hashes generalizing i previous with
  | nil => exact steps_pure _
  | cons hash hashes ih =>
    refine steps_bind steps_get fun s => ?_
    split
    · exact h.updateCandidate _
    · split
      · exact steps_throw _
      · refine steps_ite (fun _ => h.updateCandidate _) fun _ => ?_
        exact steps_bind (h.updateHeaderMMR _) fun _ => ih _ _

/-- **A resynchronisation** moves along. -/
theorem AlongCalls.resyncChain (h : AlongCalls G now Orphan R) :
    Steps R (ChainResyncer.resyncChain G) := by
  refine h.batch ?_
  refine steps_bind (steps_modify fun _ => h.quiet _ _ rfl rfl rfl) fun _ => ?_
  refine steps_bind (steps_update fun s t ht => ?_) fun _ => ?_
  · obtain ⟨c, -, ht⟩ := of_bind_eq_ok ht
    cases ht
    exact h.quiet _ _ rfl rfl rfl
  · refine steps_bind (h.updateHeaderMMR _) fun _ => ?_
    refine steps_bind steps_get fun s => ?_
    refine steps_bind (h.resyncHeaders _ _ _) fun _ => ?_
    exact steps_modify fun _ => h.quiet _ _ rfl rfl rfl

end AlongCalls

/-- The blocks and the transactions are left alone. -/
theorem alongHeaders_blockPools : AlongHeaders G now (Same blockPools) where
  quiet _ _ h _ := h
  accept _ _ _ _ := rfl

/-- **What a single header can change.** -/
theorem headersOnly_processSingleHeader {header : BlockHeader}
    {r : Except Exc EBlockChainStatus} (hs : s.AtRest)
    (h : run (processSingleHeader G now header) s = (r, t)) : HeadersOnly s t := by
  have hpools : blockPools t = blockPools s := by
    have hs : Same blockPools s (run (processSingleHeader G now header) s).2 :=
      alongHeaders_blockPools.calls.processSingleHeader trivial s
    rwa [h] at hs
  obtain ⟨horphans, htxPool⟩ := Prod.mk.inj hpools
  rcases processSingleHeader_cases hs h with ht | ⟨-, n, previous, headers, hstep, -⟩
  · refine ⟨?_, ?_, ?_⟩
    · rw [← horphans]
      rw [ht, withPoolsOf] at htxPool ⊢
      rw [show t.txPool = s.txPool from htxPool]
    · rw [ht]
      rfl
    · rw [ht]
      exact ⟨hs.1, hs.2, hs.3, hs.4, hs.5⟩
  · refine ⟨?_, ?_, hstep.atRest⟩
    · rw [← horphans]
      exact hstep.eq.trans (by rw [hstep.eq])
    · obtain ⟨table, htable⟩ := BlockDB.addBlockHeaders_current (G := G) headers s.blockDB
      have hdb : t.blockDB = (s.blockDB.addBlockHeaders G headers).commit G := by rw [hstep.eq]
      rw [hdb, BlockDB.commit, Batch.commit_current, htable]

end BlockHeaderProcessor

/-! ### When a block fails -/

namespace BlockProcessor

open ChainState

variable {G : Global} {now : ℤ} {s t : ChainState}

theorem steps_applyAndValidate (block : FullBlock) :
    Steps (Same UtxoState.permanent) (applyAndValidate G block) := by
  refine steps_bind (TxHashSet.steps_applyBlock _) fun applied => ?_
  refine steps_ite (fun _ => steps_throw _) fun _ => ?_
  refine steps_bind steps_get fun s => ?_
  refine steps_ite (fun _ => steps_throw _) fun _ => ?_
  refine steps_bind (steps_ofExcept _) fun _ => ?_
  refine steps_bind (steps_ofExcept _) fun rootsValid => ?_
  refine steps_ite (fun _ => steps_throw _) fun _ => ?_
  split
  · exact steps_throw _
  · refine steps_bind (steps_ofExcept _) fun sums => ?_
    exact steps_bind (TxHashSet.steps_writeTables _) fun _ => TxHashSet.steps_writeTables _

theorem steps_reconcileBlock (block : FullBlock) :
    Steps (Same permanent) (reconcileBlock G block) := by
  intro s
  rw [reconcileBlock, run_ofRun]
  split
  · rfl
  · rfl

theorem steps_validateAndAddBlock (block : FullBlock) :
    Steps (Same permanent) (validateAndAddBlock G block) := by
  refine steps_bind steps_get fun s => ?_
  split
  · exact steps_throw _
  · refine steps_bind (steps_onTxHashSet (steps_applyAndValidate _)) fun _ => ?_
    exact steps_bind (steps_modifyOrphanPool _) fun _ => steps_reconcileBlock _

theorem steps_applyReorg (blocks : List FullBlock) (first : FullBlock) :
    Steps (Same permanent) (applyReorg G blocks first) := by
  refine steps_bind steps_get fun s => ?_
  refine steps_ite (fun _ => steps_throw _) fun _ => ?_
  split
  · exact steps_throw _
  · refine steps_bind (steps_onTxHashSet (TxHashSet.steps_rewind _)) fun _ => ?_
    exact steps_forM _ fun _ _ => steps_validateAndAddBlock _

theorem steps_rewindConfirmed (height : ℕ) :
    Steps (Same permanent) (updateConfirmed (Chain.rewind height)) :=
  steps_updateConfirmed fun _ _ h => (Chain.of_rewind h).2.2

theorem steps_addConfirmed (hash : Hash) (height : ℕ) :
    Steps (Same permanent) (updateConfirmed (Chain.addBlock hash height)) :=
  steps_updateConfirmed fun _ _ h => (Chain.of_addBlock h).2.2

theorem fails_confirmReorg (blocks : List FullBlock) (first : FullBlock) :
    Fails (Same permanent) (confirmReorg G blocks first) := by
  refine fails_bind (steps_rewindConfirmed _) fun _ => ?_
  refine fails_bind (steps_forM _ fun _ _ => steps_addConfirmed _ _) fun _ => ?_
  exact (neverFails_modify _).fails

theorem neverFails_discardReorg (blocks : List FullBlock) :
    NeverFails (discardReorg G blocks) := by
  refine neverFails_bind (neverFails_modify _) fun _ => ?_
  refine neverFails_bind (neverFails_forM _ fun _ _ => neverFails_modify _) fun _ => ?_
  exact neverFails_modify _

theorem fails_handleReorg (blocks : List FullBlock) :
    Fails (Same permanent) (handleReorg G blocks) := by
  cases blocks with
  | nil => exact (steps_throw _).fails
  | cons first rest =>
    refine fails_bind steps_get fun s => ?_
    refine fails_bind (steps_applyReorg _ _) fun _ => ?_
    refine fails_ite (fun _ => fails_confirmReorg _ _) fun _ => ?_
    exact (neverFails_discardReorg _).fails

theorem fails_addNextBlock (block : FullBlock) :
    Fails (Same permanent) (addNextBlock G block) := by
  refine fails_bind (steps_validateAndAddBlock _) fun _ => ?_
  refine fails_bind (steps_addConfirmed _ _) fun _ => ?_
  exact (neverFails_modify _).fails

/-- **A block that fails** leaves the permanent state alone, however far it got. -/
theorem fails_processBlockLocked (block : FullBlock) :
    Fails (Same permanent) (processBlockLocked G block) := by
  refine fails_bind steps_get fun s => ?_
  refine fails_ite (fun _ => (steps_pure _).fails) fun _ => ?_
  refine fails_ite (fun _ => (steps_pure _).fails) fun _ => ?_
  refine fails_bind (steps_ofExcept _) fun info => ?_
  cases info with
  | orphan =>
    refine fails_ite (fun _ => (steps_pure _).fails) fun _ => ?_
    exact (steps_bind (steps_modifyOrphanPool _) fun _ => steps_pure _).fails
  | reorg blocks => exact fails_bind_of_neverFails (fails_handleReorg _) fun _ => neverFails_pure _
  | nextBlock => exact fails_bind_of_neverFails (fails_addNextBlock _) fun _ => neverFails_pure _

/-! ### When a fork is discarded -/

variable (G) in
/-- Store block after block. -/
def addBlocks (blocks : List FullBlock) (db : BlockDB) : BlockDB :=
  blocks.foldl (fun db b => db.addBlock G b) db

theorem run_forM_addBlock (blocks : List FullBlock) (s : ChainState) :
    run (blocks.forM fun block => modifyDB (BlockDB.addBlock G block)) s =
      (.ok (), { s with blockDB := addBlocks G blocks s.blockDB }) := by
  induction blocks generalizing s with
  | nil => rfl
  | cons block blocks ih =>
    rw [run_forM_cons, modifyDB, run_bind_ok (run_modify _ s), ih]
    rfl

/-- Storing blocks changes the table of blocks only. -/
theorem addBlocks_eq (blocks : List FullBlock) (db : BlockDB) :
    ∃ block, (addBlocks G blocks db).tables.current =
        { db.tables.current with block := block } ∧
      (addBlocks G blocks db).headersCache = db.headersCache ∧
      (addBlocks G blocks db).uncommitted = db.uncommitted := by
  induction blocks generalizing db with
  | nil => exact ⟨_, rfl, rfl, rfl⟩
  | cons b blocks ih =>
    obtain ⟨block, htables, hcache, huncommitted⟩ := ih (db.addBlock G b)
    exact ⟨block, htables, hcache, huncommitted⟩

/-- **A fork that loses**: everything is rolled back, and then the blocks are stored. -/
theorem run_discardReorg {u : ChainState} (hs : s.AtRest) (hu : u.permanent = s.permanent)
    (blocks : List FullBlock) :
    run (discardReorg G blocks) u =
      (.ok (), { u.withPoolsOf s with blockDB := (addBlocks G blocks s.blockDB).commit G }) := by
  rw [discardReorg, run_bind_ok (run_modify _ u), rollback_eq hs hu,
    run_bind_ok (run_forM_addBlock _ _)]
  rfl

/-! ### How a call ends -/

/-- The blocks of a fork end with the block that was received. -/
theorem getLast?_of_collectReorgBlocks {passes : ℕ} {forkBlock block : FullBlock}
    {reorgBlocks blocks : List FullBlock} (hlast : reorgBlocks.getLast? = some block)
    (h : collectReorgBlocks G s passes forkBlock reorgBlocks = .ok (some blocks)) :
    blocks.getLast? = some block := by
  induction passes generalizing forkBlock reorgBlocks with
  | zero => cases h
  | succ passes ih =>
    have hcons : ∀ b : FullBlock, (b :: reorgBlocks).getLast? = some block := by
      intro b
      rw [List.getLast?_cons, hlast]
      rfl
    rw [collectReorgBlocks] at h
    split at h
    · cases h
      exact hlast
    · split at h
      · exact ih (hcons _) h
      · split at h
        · exact ih (hcons _) h
        · cases h

theorem getLast?_of_determineBlockStatus {block : FullBlock} {blocks : List FullBlock}
    (h : determineBlockStatus G s block = .ok (.reorg blocks)) :
    blocks.getLast? = some block := by
  rw [determineBlockStatus] at h
  split at h
  · cases h
  split at h
  · cases h
  · obtain ⟨found, hfound, h⟩ := of_bind_eq_ok h
    cases found with
    | none => cases h
    | some l =>
      cases h
      exact getLast?_of_collectReorgBlocks rfl hfound

/-- **The ends of `ProcessBlockInternal`**: only the pools change, or the block is confirmed as
the next one, or a fork was gone through. -/
theorem processBlockInternal_cases {block : FullBlock} {r : Except Exc EBlockChainStatus}
    (hs : s.AtRest) (h : run (processBlockInternal G block) s = (r, t)) :
    (r ≠ .ok .success ∧ t = t.withPoolsOf s) ∨
      r = .ok .success ∧ ∃ w, t = w.rollback ∧
        (determineBlockStatus G s block = .ok .nextBlock ∧
            run (addNextBlock G block) s = (.ok (), w) ∨
          ∃ blocks, determineBlockStatus G s block = .ok (.reorg blocks) ∧
            run (handleReorg G blocks) s = (.ok (), w)) := by
  rcases hbody : run (processBlockLocked G block) s with ⟨r', u⟩
  have hbatch : (r', u.rollback) = (r, t) := by
    rw [← h, processBlockInternal, batch, run_ofRun, hbody]
  obtain ⟨rfl, rfl⟩ := Prod.mk.inj hbatch
  cases r' with
  | error e =>
    refine .inl ⟨(by rintro ⟨⟩), ?_⟩
    rw [rollback_eq hs (fails_processBlockLocked _ _ _ _ hbody)]
    rfl
  | ok status =>
    have hkept : status ≠ .success → u.permanent = s.permanent →
        (Except.ok status : Except Exc EBlockChainStatus) ≠ .ok .success ∧
          u.rollback = u.rollback.withPoolsOf s := by
      intro hne hp
      refine ⟨fun hr => hne (Except.ok.inj hr), ?_⟩
      rw [rollback_eq hs hp]
      rfl
    rw [processBlockLocked, run_bind_ok (run_get s)] at hbody
    split at hbody
    · cases hbody
      exact .inl (hkept (by decide) rfl)
    split at hbody
    · cases hbody
      exact .inl (hkept (by decide) rfl)
    · obtain ⟨info, u', hinfo, hrest⟩ := of_run_bind_ok hbody
      rw [run_ofExcept, Prod.mk.injEq] at hinfo
      obtain ⟨hinfo, rfl⟩ := hinfo
      cases info with
      | orphan =>
        dsimp only at hrest
        split at hrest
        · cases hrest
          exact .inl (hkept (by decide) rfl)
        · cases hrest
          exact .inl (hkept (by decide) rfl)
      | reorg blocks =>
        obtain ⟨_, w, hw, hret⟩ := of_run_bind_ok hrest
        obtain ⟨hstatus, rfl⟩ := Prod.mk.inj hret
        exact .inr ⟨hstatus.symm, w, rfl, .inr ⟨blocks, hinfo, hw⟩⟩
      | nextBlock =>
        obtain ⟨_, w, hw, hret⟩ := of_run_bind_ok hrest
        obtain ⟨hstatus, rfl⟩ := Prod.mk.inj hret
        exact .inr ⟨hstatus.symm, w, rfl, .inl ⟨hinfo, hw⟩⟩

/-- **The ends of `HandleReorg`**: the fork was applied, and then confirmed or discarded. -/
theorem of_run_handleReorg {blocks : List FullBlock} {block : FullBlock}
    (hlast : blocks.getLast? = some block) (h : run (handleReorg G blocks) s = (.ok (), t)) :
    ∃ first w, blocks.head? = some first ∧ run (applyReorg G blocks first) s = (.ok (), w) ∧
      (s.getTotalDifficulty .confirmed < block.getTotalDifficulty ∧
          run (confirmReorg G blocks first) w = (.ok (), t) ∨
        block.getTotalDifficulty ≤ s.getTotalDifficulty .confirmed ∧
          run (discardReorg G blocks) w = (.ok (), t)) := by
  cases blocks with
  | nil => cases h
  | cons first rest =>
    rw [handleReorg, run_bind_ok (run_get s), hlast] at h
    obtain ⟨_, w, hw, h⟩ := of_run_bind_ok h
    refine ⟨first, w, rfl, hw, ?_⟩
    split at h
    · next hlt => exact .inl ⟨hlt, h⟩
    · next hle => exact .inr ⟨Nat.le_of_not_lt hle, h⟩

/-- The state after a fork that lost. -/
theorem rollback_of_run_discardReorg {blocks : List FullBlock} {first : FullBlock}
    {w v : ChainState} (hs : s.AtRest) (hw : run (applyReorg G blocks first) s = (.ok (), w))
    (hv : run (discardReorg G blocks) w = (.ok (), v)) :
    v.rollback = { w.withPoolsOf s with blockDB := (addBlocks G blocks s.blockDB).commit G } := by
  have hperm : w.permanent = s.permanent := by
    have hsteps := steps_applyReorg (G := G) blocks first s
    rwa [hw] at hsteps
  rw [run_discardReorg hs hperm] at hv
  obtain ⟨-, rfl⟩ := Prod.mk.inj hv
  have htx : s.txHashSet.map TxHashSet.rollback = s.txHashSet := by
    rcases htx : s.txHashSet with _ | a
    · rfl
    · rw [Option.map_some, TxHashSet.rollback_eq (hs.txHashSet a htx) rfl]
  rw [rollback]
  simp only [withPoolsOf, Batch.rollback_of_atRest hs.candidate,
    Batch.rollback_of_atRest hs.confirmed, Batch.rollback_of_atRest hs.headerMMR, htx,
    BlockDB.rollback, BlockDB.commit, Batch.rollback_commit]

/-- **The two halves of `ProcessBlock`**: it stops before the block is looked at, or the
header was processed and the block is consistent in itself. -/
theorem processBlock_cases {block : FullBlock} {r : Except Exc EBlockChainStatus}
    (hs : s.AtRest) (h : run (processBlock G now block) s = (r, t)) :
    (HeadersOnly s t ∧ ∃ e, r = .error e) ∨
      Consensus.getHorizonHeight s.candidate.getHeight < block.getHeight ∧
      ∃ status u, run (BlockHeaderProcessor.processSingleHeader G now block.header) s =
          (.ok status, u) ∧ HeadersOnly s u ∧
        BlockValidator.verifySelfConsistent G block = .ok () ∧
        run (processBlockInternal G block) u = (r, t) := by
  rw [processBlock, run_bind_ok (run_get s)] at h
  split at h
  · obtain ⟨rfl, rfl⟩ := Prod.mk.inj h
    exact .inl ⟨⟨rfl, rfl, hs⟩, _, rfl⟩
  next hheight =>
    rcases hheader : run (BlockHeaderProcessor.processSingleHeader G now block.header) s with
      ⟨e | status, u⟩
    · have honly := BlockHeaderProcessor.headersOnly_processSingleHeader hs hheader
      rw [run_bind_error hheader] at h
      obtain ⟨rfl, rfl⟩ := Prod.mk.inj h
      exact .inl ⟨honly, e, rfl⟩
    · have honly := BlockHeaderProcessor.headersOnly_processSingleHeader hs hheader
      rw [run_bind_ok hheader] at h
      rcases hself : BlockValidator.verifySelfConsistent G block with e | _
      · rw [hself, run_bind_error (run_ofExcept _ u)] at h
        obtain ⟨rfl, rfl⟩ := Prod.mk.inj h
        exact .inl ⟨honly, e, rfl⟩
      · rw [hself, run_bind_ok (run_ofExcept _ u)] at h
        exact .inr ⟨Nat.lt_of_not_le hheight, status, u, rfl, honly, rfl, h⟩

/-- After a block nothing is pending. -/
theorem processBlock_atRest {block : FullBlock} {r : Except Exc EBlockChainStatus}
    (hs : s.AtRest) (h : run (processBlock G now block) s = (r, t)) : t.AtRest := by
  rcases processBlock_cases hs h with ⟨honly, -⟩ | ⟨-, _, u, -, -, -, hblock⟩
  · exact honly.atRest
  · have hbatch := batch_atRest (processBlockLocked G block) u
    rw [processBlockInternal] at hblock
    rwa [hblock] at hbatch

end BlockProcessor

end GrinPlusPlus
