import GrinPlusPlus.BlockChain.Atomicity

/-!
# When the pools survive a block that is not confirmed

`ValidateAndAddBlock` takes its block out of the orphan pool and reconciles the transaction
pools with it *before* the later blocks of the fork are validated and before it is decided
whether the fork wins; neither is part of the batch. So a call whose block is not confirmed can
lose transactions and orphans.

* `GrinPlusPlus.BlockProcessor.appliedBlocks` – the blocks that get as far as that;
* `GrinPlusPlus.BlockProcessor.KeepsPools` – the condition on them: reconciling with none of
  them drops a transaction, and the orphans among them are in the database;
* `GrinPlusPlus.BlockProcessor.poolsKept_iff` – the pools survive **exactly** under this
  condition.
-/

namespace GrinPlusPlus

namespace BlockProcessor

open ChainState Exec

variable {G : Global} {now : ℤ} {s t : ChainState}

/-! ### One block -/

theorem run_validateAndAddBlock_missing {block : FullBlock}
    (h : s.blockDB.getBlockHeader block.getPreviousHash = none) :
    run (validateAndAddBlock G block) s =
      (.error (.blockChain "Previous header not found."), s) := by
  rw [validateAndAddBlock, run_bind_ok (run_get s), h]
  rfl

theorem run_validateAndAddBlock_error {block : FullBlock} {a : TxHashSet} {y : UtxoState}
    {previous : BlockHeader} {e : Exc} (htx : s.txHashSet = some a)
    (h : s.blockDB.getBlockHeader block.getPreviousHash = some previous)
    (hy : run (applyAndValidate G block) ⟨s.blockDB, a⟩ = (.error e, y)) :
    run (validateAndAddBlock G block) s =
      (.error e, { s with blockDB := y.blockDB, txHashSet := some y.txHashSet }) := by
  rw [validateAndAddBlock, run_bind_ok (run_get s), h]
  exact run_bind_error (run_onTxHashSet htx hy)

/-- The block got through: the orphan and the transactions go. -/
theorem run_validateAndAddBlock_ok {block : FullBlock} {a : TxHashSet} {y : UtxoState}
    {previous : BlockHeader} (htx : s.txHashSet = some a)
    (h : s.blockDB.getBlockHeader block.getPreviousHash = some previous)
    (hy : run (applyAndValidate G block) ⟨s.blockDB, a⟩ = (.ok (), y)) :
    run (validateAndAddBlock G block) s =
      ((s.txPool.reconcileBlock G y block).1,
        { s with
          blockDB := y.blockDB
          txHashSet := some y.txHashSet
          orphanPool := s.orphanPool.removeOrphan G block.getHeight (block.getHash G)
          txPool := (s.txPool.reconcileBlock G y block).2 }) := by
  rw [validateAndAddBlock, run_bind_ok (run_get s), h]
  dsimp only
  rw [run_bind_ok (run_onTxHashSet htx hy), modifyOrphanPool, run_bind_ok (run_modify _ _)]
  rfl

/-- Without a hash set no block is applied. -/
theorem run_validateAndAddBlock_none (block : FullBlock) (htx : s.txHashSet = none) :
    ∃ e, run (validateAndAddBlock G block) s = (.error e, s) := by
  rw [validateAndAddBlock, run_bind_ok (run_get s)]
  split
  · exact ⟨_, rfl⟩
  · exact ⟨_, run_bind_error (run_onTxHashSet_none htx)⟩

/-! ### The blocks that are applied -/

variable (G) in
/-- The blocks that pass the checks of `ValidateAndAddBlock`, one after the other, each with
the database and the hash set behind it, for a pool of transactions that stays as it is. -/
def appliedBlocks (p : TransactionPool) : UtxoState → List FullBlock → List (UtxoState × FullBlock)
  | _, [] => []
  | x, block :: blocks =>
    match x.blockDB.getBlockHeader block.getPreviousHash with
    | none => []
    | some _ =>
      match run (applyAndValidate G block) x with
      | (.error _, _) => []
      | (.ok _, y) =>
        match (p.reconcileBlock G y block).1 with
        | .error _ => [(y, block)]
        | .ok _ => (y, block) :: appliedBlocks p y blocks

variable (G) in
/-- Take blocks out of the orphan pool. -/
def removeOrphans (blocks : List FullBlock) (p : OrphanPool) : OrphanPool :=
  blocks.foldl (fun p b => p.removeOrphan G b.getHeight (b.getHash G)) p

theorem mem_removeOrphans {blocks : List FullBlock} {p : OrphanPool} (hp : p.Distinct G)
    {o : FullBlock} : o ∈ (removeOrphans G blocks p).orphans ↔
      o ∈ p.orphans ∧ ∀ b ∈ blocks, OrphanPool.hasKey G b.getHeight (b.getHash G) o = false := by
  induction blocks generalizing p with
  | nil => exact ⟨fun h => ⟨h, by simp⟩, fun h => h.1⟩
  | cons b blocks ih =>
    have hstep := ih (hp.removeOrphan b.getHeight (b.getHash G))
    rw [OrphanPool.mem_removeOrphan hp, and_assoc] at hstep
    rw [List.forall_mem_cons]
    exact hstep

/-- One state has not more transactions than the other, and no new ones. -/
def PoolShrinks (s t : ChainState) : Prop :=
  s.txPool.Shrinks t.txPool

instance : Std.Refl PoolShrinks :=
  ⟨fun s => refl_of TransactionPool.Shrinks s.txPool⟩

instance : IsTrans ChainState PoolShrinks :=
  ⟨fun _ _ _ h h' => trans_of TransactionPool.Shrinks h h'⟩

theorem shrinks_validateAndAddBlock (block : FullBlock) :
    Steps PoolShrinks (validateAndAddBlock G block) := by
  intro s
  rcases htx : s.txHashSet with _ | a
  · obtain ⟨e, h⟩ := run_validateAndAddBlock_none (G := G) block htx
    rw [h]
    exact refl_of PoolShrinks s
  · rcases hprev : s.blockDB.getBlockHeader block.getPreviousHash with _ | previous
    · rw [run_validateAndAddBlock_missing hprev]
      exact refl_of PoolShrinks s
    · rcases hy : run (applyAndValidate G block) ⟨s.blockDB, a⟩ with ⟨e | u, y⟩
      · rw [run_validateAndAddBlock_error htx hprev hy]
        exact refl_of PoolShrinks s
      · rw [run_validateAndAddBlock_ok htx hprev hy]
        exact TransactionPool.shrinks_reconcileBlock y block s.txPool

/-- **The loop over the blocks of a fork**: the transactions survive exactly when reconciling
with each block that is applied keeps them; then the orphans that go are the blocks that are
applied. -/
theorem pools_of_run_forM {blocks : List FullBlock} {a : TxHashSet} {r : Except Exc Unit}
    (htx : s.txHashSet = some a) (h : run (blocks.forM (validateAndAddBlock G)) s = (r, t)) :
    (t.txPool = s.txPool ↔ ∀ e ∈ appliedBlocks G s.txPool ⟨s.blockDB, a⟩ blocks,
      (s.txPool.reconcileBlock G e.1 e.2).2 = s.txPool) ∧
    (t.txPool = s.txPool →
      t.orphanPool = removeOrphans G
        ((appliedBlocks G s.txPool ⟨s.blockDB, a⟩ blocks).map Prod.snd) s.orphanPool ∧
      (r = .ok () → (appliedBlocks G s.txPool ⟨s.blockDB, a⟩ blocks).map Prod.snd = blocks)) := by
  induction blocks generalizing s a with
  | nil =>
    obtain ⟨rfl, rfl⟩ := Prod.mk.inj h
    simp [appliedBlocks, removeOrphans]
  | cons block blocks ih =>
    rw [run_forM_cons, run_bind] at h
    rcases hprev : s.blockDB.getBlockHeader block.getPreviousHash with _ | previous
    · rw [run_validateAndAddBlock_missing hprev] at h
      obtain ⟨rfl, rfl⟩ := Prod.mk.inj h
      simp [appliedBlocks, removeOrphans, hprev]
    rcases hy : run (applyAndValidate G block) ⟨s.blockDB, a⟩ with ⟨e | u, y⟩
    · rw [run_validateAndAddBlock_error htx hprev hy] at h
      obtain ⟨rfl, rfl⟩ := Prod.mk.inj h
      simp [appliedBlocks, removeOrphans, hprev, hy]
    rw [run_validateAndAddBlock_ok htx hprev hy] at h
    rcases hq : (s.txPool.reconcileBlock G y block).1 with e | v
    · rw [hq] at h
      obtain ⟨rfl, rfl⟩ := Prod.mk.inj h
      simp [appliedBlocks, removeOrphans, hprev, hy, hq]
    · rw [hq] at h
      dsimp only at h
      have happlied : appliedBlocks G s.txPool ⟨s.blockDB, a⟩ (block :: blocks) =
          (y, block) :: appliedBlocks G s.txPool y blocks := by
        simp [appliedBlocks, hprev, hy, hq]
      rw [happlied]
      by_cases hkept : (s.txPool.reconcileBlock G y block).2 = s.txPool
      · rw [hkept] at h
        obtain ⟨hpool, horphans⟩ := ih rfl h
        refine ⟨?_, fun ht => ?_⟩
        · rw [List.forall_mem_cons]
          exact ⟨fun ht => ⟨hkept, hpool.mp ht⟩, fun hall => hpool.mpr hall.2⟩
        · obtain ⟨h1, h2⟩ := horphans ht
          refine ⟨h1, fun hr => ?_⟩
          rw [List.map_cons]
          exact congrArg _ (h2 hr)
      · -- A transaction was dropped, and nothing brings it back.
        have hne : t.txPool ≠ s.txPool := by
          intro ht
          have hsteps : Steps PoolShrinks (blocks.forM (validateAndAddBlock G)) :=
            steps_forM _ fun _ _ => shrinks_validateAndAddBlock _
          have hshrinks := hsteps { s with
            blockDB := y.blockDB
            txHashSet := some y.txHashSet
            orphanPool := s.orphanPool.removeOrphan G block.getHeight (block.getHash G)
            txPool := (s.txPool.reconcileBlock G y block).2 }
          rw [h, PoolShrinks, ht] at hshrinks
          exact hkept (TransactionPool.reconcileBlock_eq_of_shrinks y block hshrinks)
        refine ⟨⟨fun ht => absurd ht hne, fun hall => ?_⟩, fun ht => absurd ht hne⟩
        exact absurd (hall _ (List.mem_cons_self ..)) hkept

/-! ### What the rest of the call does to the pools -/

/-- The orphan pool and the transaction pools. -/
def pools (s : ChainState) : OrphanPool × TransactionPool :=
  (s.orphanPool, s.txPool)

theorem steps_pools_updateConfirmed (f : Chain → Except Exc Chain) :
    Steps (Same pools) (updateConfirmed f) := by
  refine steps_update fun s t h => ?_
  obtain ⟨c, -, h⟩ := of_bind_eq_ok h
  cases h
  rfl

theorem steps_pools_confirmReorg (blocks : List FullBlock) (first : FullBlock) :
    Steps (Same pools) (confirmReorg G blocks first) := by
  refine steps_bind (steps_pools_updateConfirmed _) fun _ => ?_
  refine steps_bind (steps_forM _ fun _ _ => steps_pools_updateConfirmed _) fun _ => ?_
  exact steps_modify fun _ => rfl

theorem steps_pools_discardReorg (blocks : List FullBlock) :
    Steps (Same pools) (discardReorg G blocks) := by
  refine steps_bind (steps_modify fun _ => rfl) fun _ => ?_
  refine steps_bind (steps_forM _ fun _ _ => steps_modify fun _ => rfl) fun _ => ?_
  exact steps_modify fun _ => rfl

/-- A fork is applied; the rest of `HandleReorg` leaves the pools alone. -/
theorem pools_run_handleReorg (first : FullBlock) (rest : List FullBlock) (s : ChainState) :
    pools (run (handleReorg G (first :: rest)) s).2 =
      pools (run (applyReorg G (first :: rest) first) s).2 := by
  rw [handleReorg, run_bind_ok (run_get s)]
  refine same_run_bind (fun _ => ?_) s
  exact steps_ite (fun _ => steps_pools_confirmReorg _ _) fun _ => steps_pools_discardReorg _

/-- The blocks of the fork are applied to the rewound hash set. -/
theorem run_applyReorg {blocks : List FullBlock} {first : FullBlock} {a : TxHashSet}
    {header : BlockHeader} {x : UtxoState} (htx : s.txHashSet = some a)
    (hheader : s.blockDB.getBlockHeader first.getPreviousHash = some header)
    (hx : run (TxHashSet.rewind G header) ⟨s.blockDB, a⟩ = (.ok (), x)) :
    run (applyReorg G blocks first) s = run (blocks.forM (validateAndAddBlock G))
      { s with blockDB := x.blockDB, txHashSet := some x.txHashSet } := by
  rw [applyReorg, run_bind_ok (run_get s), htx, if_neg (by simp), hheader]
  exact run_bind_ok (run_onTxHashSet htx hx)

/-- The next block is applied; the rest leaves the pools alone. -/
theorem pools_run_addNextBlock (block : FullBlock) (s : ChainState) :
    pools (run (addNextBlock G block) s).2 = pools (run (validateAndAddBlock G block) s).2 := by
  refine same_run_bind (fun _ => ?_) s
  exact steps_bind (steps_pools_updateConfirmed _) fun _ => steps_modify fun _ => rfl

/-! ### The condition -/

variable (G) in
/-- The call gets to the block, in the state behind its header: the block is not too old, its
header is not refused, it is consistent in itself, and it is not known yet. -/
structure Reaches (now : ℤ) (s : ChainState) (block : FullBlock) (u : ChainState) : Prop where
  /-- The block is above the horizon. -/
  horizon : Consensus.getHorizonHeight s.candidate.getHeight < block.getHeight
  /-- The header was processed. -/
  header : ∃ status, run (BlockHeaderProcessor.processSingleHeader G now block.header) s =
    (.ok status, u)
  /-- The block is consistent in itself. -/
  selfConsistent : BlockValidator.verifySelfConsistent G block = .ok ()
  /-- It is not confirmed … -/
  notConfirmed : u.confirmed.isOnChain block.getHeight (block.getHash G) = false
  /-- … and not stored. -/
  notStored : u.blockDB.getBlock (block.getHash G) = none

variable (G) in
/-- The call tries to apply these blocks to this database and hash set: the block to the
current ones, or the blocks of a fork to the rewound ones. -/
inductive Tries (now : ℤ) (s : ChainState) (block : FullBlock) :
    UtxoState → List FullBlock → Prop
  | next {u : ChainState} {a : TxHashSet} (h : Reaches G now s block u)
    (hinfo : determineBlockStatus G u block = .ok .nextBlock) (htx : u.txHashSet = some a) :
    Tries now s block ⟨u.blockDB, a⟩ [block]
  | reorg {u : ChainState} {a : TxHashSet} {blocks : List FullBlock} {first : FullBlock}
    {header : BlockHeader} {x : UtxoState} (h : Reaches G now s block u)
    (hinfo : determineBlockStatus G u block = .ok (.reorg blocks))
    (hfirst : blocks.head? = some first) (htx : u.txHashSet = some a)
    (hheader : u.blockDB.getBlockHeader first.getPreviousHash = some header)
    (hx : run (TxHashSet.rewind G header) ⟨u.blockDB, a⟩ = (.ok (), x)) :
    Tries now s block x blocks

variable (G) in
/-- The outcomes after which the block did not join the confirmed chain: an exception, which
leaves the stored blocks as they are, or a fork that loses, whose blocks are stored. -/
inductive NotJoined (now : ℤ) (s : ChainState) (block : FullBlock) :
    Except Exc EBlockChainStatus → (List FullBlock → BlockDB) → Prop
  | throws (e : Exc) (h : e.Thrown) : NotJoined now s block (.error e) fun _ => s.blockDB
  | losesFork (h : LosesFork G
      (run (BlockHeaderProcessor.processSingleHeader G now block.header) s).2 block) :
    NotJoined now s block (.ok .success) fun blocks => addBlocks G blocks s.blockDB

variable (G) in
/-- No block that is applied costs a transaction or an orphan: reconciling the pools with it
drops nothing, and an orphan with its height and hash is in the database that is left. -/
def KeepsPools (now : ℤ) (s : ChainState) (block : FullBlock)
    (store : List FullBlock → BlockDB) : Prop :=
  ∀ x blocks, Tries G now s block x blocks → ∀ e ∈ appliedBlocks G s.txPool x blocks,
    (s.txPool.reconcileBlock G e.1 e.2).2 = s.txPool ∧
      ∀ o ∈ s.orphanPool.orphans, OrphanPool.hasKey G e.2.getHeight (e.2.getHash G) o = true →
        (store blocks).getBlock (o.getHash G) = some o.reload

variable (G) in
/-- The pools survived: the transactions are all there, and an orphan is still one or can be
read from the database. -/
structure PoolsKept (s t : ChainState) : Prop where
  /-- The mempool and the stempool. -/
  txPool : t.txPool = s.txPool
  /-- The orphans. -/
  orphans : ∀ o ∈ s.orphanPool.orphans,
    o ∈ t.orphanPool.orphans ∨ t.blockDB.getBlock (o.getHash G) = some o.reload

theorem HeadersOnly.pools {u : ChainState} (h : HeadersOnly s u) :
    u.orphanPool.orphans = s.orphanPool.orphans ∧ u.txPool = s.txPool ∧
      ∀ k, u.blockDB.getBlock k = s.blockDB.getBlock k := by
  refine ⟨?_, ?_, fun k => ?_⟩
  · rw [h.eq]
  · rw [h.eq]
  · rw [BlockDB.getBlock, BlockDB.getBlock, h.tables]

/-! ### The call, once it gets to the block -/

theorem Reaches.headersOnly {block : FullBlock} {u : ChainState} (hs : s.AtRest)
    (h : Reaches G now s block u) : HeadersOnly s u := by
  obtain ⟨status, hheader⟩ := h.header
  exact BlockHeaderProcessor.headersOnly_processSingleHeader hs hheader

theorem Reaches.run_processBlock {block : FullBlock} {u : ChainState}
    (h : Reaches G now s block u) :
    run (processBlock G now block) s = run (processBlockInternal G block) u := by
  obtain ⟨status, hheader⟩ := h.header
  rw [processBlock, run_bind_ok (run_get s), if_neg (Nat.not_le.mpr h.horizon),
    run_bind_ok hheader, h.selfConsistent, run_bind_ok (run_ofExcept _ u)]

theorem Reaches.run_next {block : FullBlock} {u : ChainState} (h : Reaches G now s block u)
    (hinfo : determineBlockStatus G u block = .ok .nextBlock) :
    run (processBlockLocked G block) u =
      run (addNextBlock G block >>= fun _ => pure .success) u := by
  rw [processBlockLocked, run_bind_ok (run_get u), h.notConfirmed, if_neg Bool.false_ne_true,
    h.notStored, if_neg (by simp), hinfo, run_bind_ok (run_ofExcept _ u)]

theorem Reaches.run_reorg {block : FullBlock} {u : ChainState} {blocks : List FullBlock}
    (h : Reaches G now s block u) (hinfo : determineBlockStatus G u block = .ok (.reorg blocks)) :
    run (processBlockLocked G block) u =
      run (handleReorg G blocks >>= fun _ => pure .success) u := by
  rw [processBlockLocked, run_bind_ok (run_get u), h.notConfirmed, if_neg Bool.false_ne_true,
    h.notStored, if_neg (by simp), hinfo, run_bind_ok (run_ofExcept _ u)]

theorem Reaches.pools_next {block : FullBlock} {u : ChainState} (h : Reaches G now s block u)
    (hinfo : determineBlockStatus G u block = .ok .nextBlock) :
    pools (run (processBlockLocked G block) u).2 =
      pools (run (validateAndAddBlock G block) u).2 := by
  rw [h.run_next hinfo, ← pools_run_addNextBlock]
  exact same_run_bind (fun _ => steps_pure _) u

theorem Reaches.pools_reorg {block first : FullBlock} {u : ChainState} {rest : List FullBlock}
    (h : Reaches G now s block u)
    (hinfo : determineBlockStatus G u block = .ok (.reorg (first :: rest))) :
    pools (run (processBlockLocked G block) u).2 =
      pools (run (applyReorg G (first :: rest) first) u).2 := by
  rw [h.run_reorg hinfo, ← pools_run_handleReorg]
  exact same_run_bind (fun _ => steps_pure _) u

/-- **The blocks that are tried** are the ones that decide about the pools. -/
theorem Tries.pools {block : FullBlock} {r : Except Exc EBlockChainStatus} {x : UtxoState}
    {blocks : List FullBlock} (hs : s.AtRest) (hrun : run (processBlock G now block) s = (r, t))
    (h : Tries G now s block x blocks) :
    ∃ v w result, v.txPool = s.txPool ∧ v.orphanPool.orphans = s.orphanPool.orphans ∧
      v.blockDB = x.blockDB ∧ v.txHashSet = some x.txHashSet ∧
      run (blocks.forM (validateAndAddBlock G)) v = (result, w) ∧
      BlockProcessor.pools t = BlockProcessor.pools w ∧ (r = .ok .success → result = .ok ()) := by
  cases h with
  | next hreach hinfo htx =>
    next u a =>
    obtain ⟨horphans, htxPool, -⟩ := HeadersOnly.pools (hreach.headersOnly hs)
    rw [hreach.run_processBlock, processBlockInternal, batch, run_ofRun] at hrun
    obtain ⟨rfl, rfl⟩ := Prod.mk.inj hrun
    rcases hloop : run ([block].forM (validateAndAddBlock G)) u with ⟨result, w⟩
    refine ⟨u, w, result, htxPool, horphans, rfl, htx, hloop, ?_, fun hok => ?_⟩
    · have hone : BlockProcessor.pools (run ([block].forM (validateAndAddBlock G)) u).2 =
          BlockProcessor.pools (run (validateAndAddBlock G block) u).2 := by
        rw [run_forM_cons]
        exact same_run_bind (fun _ => steps_pure _) u
      rw [hloop] at hone
      exact (hreach.pools_next hinfo).trans hone.symm
    · rw [hreach.run_next hinfo] at hok
      obtain ⟨_, _, hadd, -⟩ := of_run_bind_ok (Prod.ext hok rfl)
      obtain ⟨_, v, hval, -⟩ := of_run_bind_ok hadd
      have hone : run ([block].forM (validateAndAddBlock G)) u = (.ok (), v) := by
        rw [run_forM_cons, run_bind_ok hval]
        rfl
      rw [hloop] at hone
      exact (Prod.mk.inj hone).1
  | reorg hreach hinfo hfirst htx hheader hx =>
    next u a first header =>
    obtain ⟨horphans, htxPool, -⟩ := HeadersOnly.pools (hreach.headersOnly hs)
    rw [hreach.run_processBlock, processBlockInternal, batch, run_ofRun] at hrun
    obtain ⟨rfl, rfl⟩ := Prod.mk.inj hrun
    obtain ⟨rest, rfl⟩ := List.head?_eq_some_iff.mp hfirst
    rcases hloop : run ((first :: rest).forM (validateAndAddBlock G))
      { u with blockDB := x.blockDB, txHashSet := some x.txHashSet } with ⟨result, w⟩
    have happly := (run_applyReorg htx hheader hx).trans hloop
    refine ⟨{ u with blockDB := x.blockDB, txHashSet := some x.txHashSet }, w, result, htxPool,
      horphans, rfl, rfl, hloop, ?_, fun hok => ?_⟩
    · have hpools := hreach.pools_reorg hinfo
      rw [happly] at hpools
      exact hpools
    · rw [hreach.run_reorg hinfo] at hok
      obtain ⟨_, _, hreorg, -⟩ := of_run_bind_ok (Prod.ext hok rfl)
      rw [handleReorg, run_bind_ok (run_get u)] at hreorg
      obtain ⟨_, _, hok', -⟩ := of_run_bind_ok hreorg
      rw [happly] at hok'
      exact (Prod.mk.inj hok').1

/-- A call that never gets to apply a block leaves the pools alone. -/
theorem pools_of_not_tries {block : FullBlock} {r : Except Exc EBlockChainStatus}
    {store : List FullBlock → BlockDB} (hs : s.AtRest)
    (hrun : run (processBlock G now block) s = (r, t)) (hr : NotJoined G now s block r store)
    (h : ¬∃ x blocks, Tries G now s block x blocks) :
    t.orphanPool.orphans = s.orphanPool.orphans ∧ t.txPool = s.txPool := by
  rcases processBlock_cases hs hrun with
    ⟨honly, -⟩ | ⟨hheight, status, u, hheader, honly, hself, hblock⟩
  · obtain ⟨h1, h2, -⟩ := HeadersOnly.pools honly
    exact ⟨h1, h2⟩
  obtain ⟨h1, h2, -⟩ := HeadersOnly.pools honly
  rw [← h1, ← h2]
  have key : BlockProcessor.pools t = BlockProcessor.pools u →
      t.orphanPool.orphans = u.orphanPool.orphans ∧ t.txPool = u.txPool := by
    intro hpools
    obtain ⟨ho, hp⟩ := Prod.mk.inj hpools
    exact ⟨by rw [ho], hp⟩
  refine key ?_
  rcases hbody : run (processBlockLocked G block) u with ⟨r', w⟩
  have hbatch : (r', w.rollback) = (r, t) := by
    rw [← hblock, processBlockInternal, batch, run_ofRun, hbody]
  obtain ⟨rfl, rfl⟩ := Prod.mk.inj hbatch
  change BlockProcessor.pools w = BlockProcessor.pools u
  by_cases hconf : u.confirmed.isOnChain block.getHeight (block.getHash G) = true
  · rw [processBlockLocked, run_bind_ok (run_get u), if_pos hconf] at hbody
    obtain ⟨rfl, rfl⟩ := Prod.mk.inj hbody
    rfl
  by_cases hstored : (u.blockDB.getBlock (block.getHash G)).isSome = true
  · rw [processBlockLocked, run_bind_ok (run_get u), if_neg hconf, if_pos hstored] at hbody
    obtain ⟨rfl, rfl⟩ := Prod.mk.inj hbody
    rfl
  have hreach : Reaches G now s block u :=
    ⟨hheight, ⟨status, hheader⟩, hself, Bool.eq_false_iff.mpr hconf,
      Option.not_isSome_iff_eq_none.mp hstored⟩
  rcases hinfo : determineBlockStatus G u block with e | info
  · rw [processBlockLocked, run_bind_ok (run_get u), if_neg hconf, if_neg hstored, hinfo,
      run_bind_error (run_ofExcept _ u)] at hbody
    obtain ⟨-, rfl⟩ := Prod.mk.inj hbody
    rfl
  cases info with
  | orphan =>
    -- The status of an orphan is none of the outcomes in question.
    rw [processBlockLocked, run_bind_ok (run_get u), if_neg hconf, if_neg hstored, hinfo,
      run_bind_ok (run_ofExcept _ u)] at hbody
    dsimp only at hbody
    split at hbody
    · obtain ⟨rfl, rfl⟩ := Prod.mk.inj hbody
      rfl
    · obtain ⟨rfl, -⟩ := Prod.mk.inj hbody
      cases hr
  | nextBlock =>
    have hpools := hreach.pools_next hinfo
    rw [hbody] at hpools
    rcases htx : u.txHashSet with _ | a
    · obtain ⟨e, hval⟩ := run_validateAndAddBlock_none (G := G) block htx
      rw [hval] at hpools
      exact hpools
    · exact absurd ⟨_, _, Tries.next hreach hinfo htx⟩ h
  | reorg blocks =>
    cases blocks with
    | nil => exact absurd (getLast?_of_determineBlockStatus hinfo) (by simp)
    | cons first rest =>
      have hpools := hreach.pools_reorg hinfo
      rw [hbody] at hpools
      refine hpools.trans ?_
      rw [applyReorg, run_bind_ok (run_get u)]
      split
      · rfl
      · next hsome =>
        obtain ⟨a, htx⟩ := Option.ne_none_iff_exists'.mp
          (fun hnone => hsome (Option.isNone_iff_eq_none.mpr hnone))
        split
        · rfl
        · next header hheader =>
          rcases hx : run (TxHashSet.rewind G header) ⟨u.blockDB, a⟩ with ⟨e | _, x⟩
          · rw [run_bind_error (run_onTxHashSet htx hx)]
            rfl
          · exact absurd ⟨_, _, Tries.reorg hreach hinfo rfl htx hheader hx⟩ h

/-! ### The stored blocks -/

/-- The blocks that can be read after blocks were stored only depend on those before. -/
theorem getBlock_addBlocks_congr {db db' : BlockDB} (h : ∀ k, db.getBlock k = db'.getBlock k)
    (blocks : List FullBlock) (k : Hash) :
    (addBlocks G blocks db).getBlock k = (addBlocks G blocks db').getBlock k := by
  induction blocks generalizing db db' with
  | nil => exact h k
  | cons block blocks ih =>
    refine ih fun j => ?_
    have hj := h j
    simp only [BlockDB.getBlock] at hj
    simp only [BlockDB.getBlock, BlockDB.addBlock, BlockDB.writeTables_current]
    by_cases heq : j = block.getHash G
    · rw [heq, Function.update_self, Function.update_self]
    · rw [Function.update_of_ne heq, Function.update_of_ne heq, hj]

/-- **The stored blocks** of a call whose block did not join the confirmed chain. -/
theorem getBlock_of_notJoined {block : FullBlock} {r : Except Exc EBlockChainStatus}
    {store : List FullBlock → BlockDB} {x : UtxoState} {blocks : List FullBlock} (hs : s.AtRest)
    (hrun : run (processBlock G now block) s = (r, t)) (hr : NotJoined G now s block r store)
    (h : Tries G now s block x blocks) (k : Hash) :
    t.blockDB.getBlock k = (store blocks).getBlock k := by
  obtain ⟨u, hreach, hinfo⟩ : ∃ u, Reaches G now s block u ∧
      (determineBlockStatus G u block = .ok .nextBlock ∨
        determineBlockStatus G u block = .ok (.reorg blocks)) := by
    cases h with
    | next hreach hinfo htx => exact ⟨_, hreach, .inl hinfo⟩
    | reorg hreach hinfo hfirst htx hheader hx => exact ⟨_, hreach, .inr hinfo⟩
  have honly := hreach.headersOnly hs
  obtain ⟨-, -, hblocks⟩ := HeadersOnly.pools honly
  rw [hreach.run_processBlock] at hrun
  cases hr with
  | throws e he =>
    rcases processBlockInternal_cases honly.atRest hrun with ⟨-, ht⟩ | ⟨habs, -⟩
    · rw [ht]
      exact hblocks k
    · cases habs
  | losesFork hlose =>
    obtain ⟨status, hheader⟩ := hreach.header
    rw [hheader] at hlose
    obtain ⟨⟨blocks', hinfo'⟩, hle⟩ := hlose
    rcases processBlockInternal_cases honly.atRest hrun with ⟨habs, -⟩ | ⟨-, w, rfl, hend⟩
    · exact absurd rfl habs
    rcases hend with ⟨hnext, -⟩ | ⟨l, hl, hw⟩
    · rw [hinfo'] at hnext
      cases hnext
    · have hblocks' : l = blocks := by
        rcases hinfo with hnext | hreorg
        · rw [hl] at hnext
          cases hnext
        · rw [hl] at hreorg
          cases hreorg
          rfl
      subst hblocks'
      obtain ⟨first, v, -, hv, hend⟩ :=
        of_run_handleReorg (getLast?_of_determineBlockStatus hl) hw
      rcases hend with ⟨hlt, -⟩ | ⟨-, hdiscard⟩
      · exact absurd hlt (Nat.not_lt.mpr hle)
      · rw [rollback_of_run_discardReorg honly.atRest hv hdiscard]
        dsimp only [BlockDB.getBlock, BlockDB.commit]
        rw [Batch.commit_current]
        exact getBlock_addBlocks_congr hblocks l k

/-! ### When the pools survive -/

/-- **The pools survive exactly when no block that is applied costs a transaction or an
orphan.** -/
theorem poolsKept_iff {block : FullBlock} {r : Except Exc EBlockChainStatus}
    {store : List FullBlock → BlockDB} (hs : s.AtRest) (hdistinct : s.orphanPool.Distinct G)
    (hrun : run (processBlock G now block) s = (r, t)) (hr : NotJoined G now s block r store) :
    PoolsKept G s t ↔ KeepsPools G now s block store := by
  by_cases htries : ∃ x blocks, Tries G now s block x blocks
  · have key : ∀ x blocks, Tries G now s block x blocks → (PoolsKept G s t ↔
        ∀ e ∈ appliedBlocks G s.txPool x blocks,
          (s.txPool.reconcileBlock G e.1 e.2).2 = s.txPool ∧
            ∀ o ∈ s.orphanPool.orphans,
              OrphanPool.hasKey G e.2.getHeight (e.2.getHash G) o = true →
                (store blocks).getBlock (o.getHash G) = some o.reload) := by
      rintro x blocks h
      obtain ⟨v, w, result, hvpool, hvorphans, hvdb, hvtx, hloop, hpools, -⟩ := h.pools hs hrun
      obtain ⟨horphans, htxPool⟩ := Prod.mk.inj hpools
      obtain ⟨hiff, hrest⟩ := pools_of_run_forM hvtx hloop
      rw [← htxPool, hvpool, hvdb] at hiff hrest
      have hdist : v.orphanPool.Distinct G := by
        rw [OrphanPool.Distinct, hvorphans]
        exact hdistinct
      have hmem : t.txPool = s.txPool → ∀ o, o ∈ t.orphanPool.orphans ↔
          o ∈ s.orphanPool.orphans ∧ ∀ e ∈ appliedBlocks G s.txPool x blocks,
            OrphanPool.hasKey G e.2.getHeight (e.2.getHash G) o = false := by
        intro ht o
        rw [horphans, (hrest ht).1, mem_removeOrphans hdist, hvorphans, List.forall_mem_map]
      have hget := getBlock_of_notJoined hs hrun hr h
      constructor
      · rintro hkept e he
        refine ⟨hiff.mp hkept.txPool e he, fun o ho hkey => ?_⟩
        rcases hkept.orphans o ho with hin | hstored
        · rw [((hmem hkept.txPool o).mp hin).2 e he] at hkey
          cases hkey
        · rw [← hget]
          exact hstored
      · intro hall
        have ht : t.txPool = s.txPool := hiff.mpr fun e he => (hall e he).1
        refine ⟨ht, fun o ho => ?_⟩
        by_cases hkey : ∃ e ∈ appliedBlocks G s.txPool x blocks,
            OrphanPool.hasKey G e.2.getHeight (e.2.getHash G) o = true
        · obtain ⟨e, he, hkey⟩ := hkey
          rw [hget]
          exact .inr ((hall e he).2 o ho hkey)
        · push Not at hkey
          exact .inl ((hmem ht o).mpr ⟨ho, fun e he => Bool.eq_false_iff.mpr (hkey e he)⟩)
    obtain ⟨x₀, blocks₀, h₀⟩ := htries
    exact ⟨fun hkept x blocks h => (key x blocks h).mp hkept,
      fun hcond => (key x₀ blocks₀ h₀).mpr (hcond x₀ blocks₀ h₀)⟩
  · -- Nothing is applied, and nothing is lost.
    obtain ⟨horphans, htxPool⟩ := pools_of_not_tries hs hrun hr htries
    refine ⟨fun _ x blocks h => absurd ⟨x, blocks, h⟩ htries, fun _ => ⟨htxPool, fun o ho => ?_⟩⟩
    rw [horphans]
    exact .inl ho

/-! ### An orphan that is lost -/

section Lost

open SmallNet

/-- The second block came first and is an orphan; then came the first block. -/
def orphanState : ChainState := after (after genesis block₂) block₁

/-- The third block, with a kernel root that is wrong. -/
def badBlock₃ : FullBlock :=
  { block₃ with header := { block₃.header with kernelRoot := Hash.zero } }

theorem orphanState_atRest : orphanState.AtRest :=
  processBlock_atRest (processBlock_atRest genesis_atRest (run_processBlock _ _))
    (run_processBlock _ _)

theorem distinct_orphanState : orphanState.orphanPool.Distinct testNet := by
  rw [OrphanPool.Distinct]
  decide +kernel

theorem notJoined_badBlock₃ : NotJoined testNet noon orphanState badBlock₃
    (outcome orphanState badBlock₃) fun _ => orphanState.blockDB := by
  have hrun : outcome orphanState badBlock₃ =
      .error (.badData .badBlock "Failed to validate TxHashSet roots for block.") := by
    decide +kernel
  rw [hrun]
  exact .throws _ (by decide)

/-- The call with the third block is one the theorem speaks of. -/
theorem poolsKept_iff_badBlock₃ :
    PoolsKept testNet orphanState (after orphanState badBlock₃) ↔
      KeepsPools testNet noon orphanState badBlock₃ fun _ => orphanState.blockDB :=
  poolsKept_iff orphanState_atRest distinct_orphanState (run_processBlock _ _) notJoined_badBlock₃

/-- The third block throws, and the second one is gone. -/
theorem not_poolsKept_badBlock₃ :
    NotJoined testNet noon orphanState badBlock₃ (outcome orphanState badBlock₃)
        (fun _ => orphanState.blockDB) ∧
      ¬PoolsKept testNet orphanState (after orphanState badBlock₃) := by
  refine ⟨notJoined_badBlock₃, fun h => ?_⟩
  have hbefore : block₂ ∈ orphanState.orphanPool.orphans := by
    decide +kernel
  have hpool : block₂ ∉ (after orphanState badBlock₃).orphanPool.orphans := by
    decide +kernel
  have hdb : (after orphanState badBlock₃).blockDB.getBlock (block₂.getHash testNet) = none := by
    decide +kernel
  rcases h.orphans block₂ hbefore with hin | hstored
  · exact hpool hin
  · rw [hdb] at hstored
    cases hstored

end Lost

end BlockProcessor

end GrinPlusPlus
