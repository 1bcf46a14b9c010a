import GrinPlusPlus.BlockChain.StateSync

/-!
# A state sync that fails

`BlockChain::ProcessTransactionHashSet` closes the open hash set before it looks at the archive:
the files of the archive replace the ones that are open. When the call then fails, the node has
no hash set any more and has to ask for another archive. Everything else is as before, also when
the archive was installed within the batch already: nothing of the batch is committed.

The call is left before the hash set is closed in one case only, when the node does not know the
header of the archive (`GrinPlusPlus.StateSync.leftBehind_of_failed`).
-/

namespace GrinPlusPlus

open ChainState

/-- `BlockChain::ProcessTransactionHashSet`. -/
def BlockChain.processTransactionHashSet (G : Global) (blockHash : Hash)
    (archive : Option Archive) : Exec Exc ChainState EBlockChainStatus :=
  Exec.ofRun fun s =>
    let r := Exec.run (TxHashSetProcessor.processTxHashSet G blockHash archive) s
    (catching (r.1.map fun success => if success then .success else .invalid) (.ok .invalid), r.2)

namespace StateSync

open Exec TxHashSetProcessor

variable {G : Global} {s u v : ChainState}

/-- The node has an open hash set, and its header is the tip of the confirmed chain. -/
def OpenAtTip (s : ChainState) : Prop :=
  ∃ t, s.txHashSet = some t ∧ s.getTipBlockHeader .confirmed = some t.blockHeader

/-- What a failed state sync leaves behind. -/
structure LeftBehind (s : ChainState) (blockHash : Hash) (s' : ChainState) : Prop where
  /-- The chains, the header MMR, the block sums and positions in the database and the pools are
  as before. -/
  rest : s' = { s with txHashSet := s'.txHashSet }
  /-- So is the hash set when the node does not know the header. -/
  unknown : s.blockDB.getBlockHeader blockHash = none → s'.txHashSet = s.txHashSet
  /-- Otherwise the hash set is closed. -/
  known : (s.blockDB.getBlockHeader blockHash).isSome = true → s'.txHashSet = none

/-! ### The confirmed chain can follow -/

/-- The hashes of the candidate chain can be added one after the other. -/
theorem run_follow_of_le {first n : ℕ} (hlen : u.confirmed.hashes.length = first)
    (hle : first + n ≤ s.candidate.hashes.length) :
    ∃ v, run ((List.range' first n).forM fun i =>
      match s.candidate.getByHeight i with
      | none => throw .undefined
      | some hash => updateConfirmed (Chain.addBlock hash i)) u = (.ok (), v) := by
  induction n generalizing first u with
  | zero => exact ⟨u, rfl⟩
  | succ n ih =>
    have hlt : first < s.candidate.hashes.length := by omega
    have hhash : s.candidate.getByHeight first = some (s.candidate.hashes[first]) :=
      List.getElem?_eq_getElem hlt
    obtain ⟨c, hc, hhashes, -⟩ := u.confirmed.addBlock_length (s.candidate.hashes[first])
    rw [hlen] at hc
    have hadd : run (updateConfirmed (Chain.addBlock (s.candidate.hashes[first]) first)) u =
        (.ok (), { u with confirmed := c }) := by
      refine run_update_ok ?_
      rw [hc, ok_bind]
    have hlen' : c.hashes.length = first + 1 := by
      rw [hhashes, List.length_append, hlen, List.length_singleton]
    obtain ⟨v, hv⟩ := @ih { u with confirmed := c } (first + 1) hlen' (by omega)
    refine ⟨v, ?_⟩
    rw [List.range'_succ, run_forM_cons, hhash]
    dsimp only
    rw [run_bind_ok hadd]
    exact hv

theorem run_followCandidate_of_lt {height : ℕ} (h : height < s.candidate.hashes.length) :
    ∃ v, run (followCandidate height) s = (.ok (), v) := by
  obtain ⟨hcand, hconf⟩ := findCommonIndex_lt s
  obtain ⟨c, hc, hhashes, -⟩ := Chain.rewind_of_lt hconf
  have hrewind : run (updateConfirmed (Chain.rewind s.findCommonIndex)) s =
      (.ok (), { s with confirmed := c }) := by
    refine run_update_ok ?_
    rw [hc, ok_bind]
  rw [followCandidate, run_bind_ok (run_get s), run_bind_ok hrewind]
  refine run_follow_of_le ?_ ?_
  · rw [hhashes, List.length_take]
    omega
  · omega

/-! ### What a validated hash set needs -/

/-- The history of the kernels is only valid when all the headers are there. -/
theorem getHeader_isSome_of_validateKernelHistory {getHeader : ℕ → Option BlockHeader}
    {kernels : KernelFiles} {heights : List ℕ}
    (h : TxHashSetValidator.validateKernelHistory G getHeader kernels heights = .ok true) :
    ∀ height ∈ heights, (getHeader height).isSome = true := by
  induction heights with
  | nil => simp
  | cons height heights ih =>
    rw [TxHashSetValidator.validateKernelHistory] at h
    split at h
    · cases h
    · next header hheader =>
      obtain ⟨root, -, h⟩ := of_bind_eq_ok h
      split at h
      · cases h
      · intro i hi
        rcases List.mem_cons.mp hi with rfl | hi
        · rw [hheader]
          rfl
        · exact ih h i hi

/-- A hash set is only valid when the candidate chain reaches its header. -/
theorem getHeader_isSome_of_validateTxHashSet {getHeader : ℕ → Option BlockHeader}
    {t : TxHashSet} {header : BlockHeader} {sums : BlockSums}
    (h : t.validateTxHashSet G getHeader header = some sums) :
    (getHeader header.getHeight).isSome = true := by
  have hvalid : TxHashSetValidator.validate G getHeader t header = .ok (some sums) := by
    rw [TxHashSet.validateTxHashSet] at h
    split at h
    · next heq => rw [heq, h]
    · cases h
  rw [TxHashSetValidator.validate] at hvalid
  split at hvalid
  · cases hvalid
  split at hvalid
  · cases hvalid
  obtain ⟨rootsValid, -, hvalid⟩ := of_bind_eq_ok hvalid
  split at hvalid
  · cases hvalid
  obtain ⟨historyValid, hhistory, hvalid⟩ := of_bind_eq_ok hvalid
  split at hvalid
  · cases hvalid
  · next hne =>
    rw [Bool.not_eq_false] at hne
    rw [hne] at hhistory
    exact getHeader_isSome_of_validateKernelHistory hhistory _
      (List.mem_range.mpr (Nat.lt_succ_self _))

/-! ### The failure -/

/-- The batch succeeds, or its rollback leaves the state as it was, without a hash set. -/
theorem run_installTxHashSet {t : TxHashSet} {header : BlockHeader} {sums : BlockSums}
    (hs : s.AtRest) (hset : s.txHashSet = none)
    (hlt : header.getHeight < s.candidate.hashes.length) :
    (∃ v, run (installTxHashSet G t header sums) s = (.ok true, v)) ∨
      ∃ v, run (installTxHashSet G t header sums) s = (.ok false, v) ∧ v.rollback = s := by
  have hhash : s.candidate.getByHeight header.getHeight =
      some (s.candidate.hashes[header.getHeight]) := List.getElem?_eq_getElem hlt
  -- What the batch writes before it updates the confirmed chain.
  let w : ChainState :=
    { s with
      blockDB := t.saveOutputPositions s.candidate
        (s.blockDB.addBlockSums (header.getHash G) sums)
      txHashSet := some t }
  have hsave : run (saveTxHashSet G t header sums) s = (.ok (), { w with txHashSet := none }) := by
    rw [← hset]
    rfl
  have hopen : run (TxHashSetManager.setTxHashSet (some t)) { w with txHashSet := none } =
      (.ok (), w) := rfl
  rw [installTxHashSet, run_bind_ok hsave, run_bind_ok hopen]
  by_cases hheader : s.candidate.hashes[header.getHeight] = header.getHash G
  · obtain ⟨v, hv⟩ := run_followCandidate_of_lt (s := w) hlt
    have hupdated : run (updateConfirmedChain G header) w = (.ok true, v) := by
      rw [updateConfirmedChain, run_bind_ok (run_get w)]
      dsimp only [w]
      rw [hhash]
      dsimp only
      rw [if_neg (not_not.mpr hheader), run_bind_ok hv]
      rfl
    left
    rw [run_bind_ok hupdated]
    exact ⟨_, rfl⟩
  · have hupdated : run (updateConfirmedChain G header) w = (.ok false, w) := by
      rw [updateConfirmedChain, run_bind_ok (run_get w)]
      dsimp only [w]
      rw [hhash]
      dsimp only
      rw [if_pos hheader]
      rfl
    right
    rw [run_bind_ok hupdated]
    refine ⟨_, rfl, ?_⟩
    have honly := TxHashSet.onlyPositions_saveOutputPositions s.candidate t
      (s.blockDB.addBlockSums (header.getHash G) sums)
    have hperm : ChainState.permanent { w with txHashSet := none } = s.permanent := by
      rw [permanent, permanent, Permanent.mk.injEq]
      refine ⟨rfl, rfl, honly.committed, honly.headersCache, rfl, ?_⟩
      rw [hset]
    exact rollback_eq hs hperm

/-- **How the call ends**: with an unknown header, with success, or without a hash set. -/
theorem run_processTxHashSet_cases (hs : s.AtRest) (blockHash : Hash) (archive : Option Archive) :
    (s.blockDB.getBlockHeader blockHash = none ∧
        run (processTxHashSet G blockHash archive) s = (.ok false, s)) ∨
      (s.blockDB.getBlockHeader blockHash).isSome = true ∧
        ((∃ v, run (processTxHashSet G blockHash archive) s = (.ok true, v)) ∨
          run (processTxHashSet G blockHash archive) s =
            (.ok false, { s with txHashSet := none })) := by
  rw [processTxHashSet, run_bind_ok (run_get s)]
  rcases s.blockDB.getBlockHeader blockHash with _ | header
  · exact .inl ⟨rfl, rfl⟩
  refine .inr ⟨rfl, ?_⟩
  have hclose : run (TxHashSetManager.setTxHashSet none) s =
      (.ok (), { s with txHashSet := none }) := rfl
  dsimp only
  rw [run_bind_ok hclose]
  rcases TxHashSetManager.loadFromZip archive header with _ | t
  · exact .inr rfl
  dsimp only
  rcases hvalid : t.validateTxHashSet G (s.getBlockHeaderByHeight · .candidate) header with
    _ | sums
  · exact .inr rfl
  -- The hash set is valid, so the candidate chain reaches the header.
  have hlt : header.getHeight < s.candidate.hashes.length := by
    have hsome := getHeader_isSome_of_validateTxHashSet hvalid
    by_contra hge
    have hnone : s.candidate.getByHeight header.getHeight = none :=
      List.getElem?_eq_none (Nat.not_lt.mp hge)
    rw [getBlockHeaderByHeight, getChain, hnone] at hsome
    cases hsome
  have hrest : ChainState.AtRest { s with txHashSet := none } :=
    ⟨hs.candidate, hs.confirmed, hs.blockDB, hs.headerMMR, by rintro a ⟨⟩⟩
  dsimp only
  rw [batch, run_ofRun]
  rcases @run_installTxHashSet G _ t header sums hrest rfl hlt with ⟨v, hv⟩ | ⟨v, hv, hrollback⟩
  · left
    rw [hv]
    exact ⟨_, rfl⟩
  · right
    rw [hv, hrollback]

/-- **What a failed state sync leaves behind**: the state as it was, without the hash set unless
the node does not know the header. -/
theorem leftBehind_of_failed (hs : s.AtRest) {blockHash : Hash} {archive : Option Archive}
    {r : Except Exc EBlockChainStatus}
    (h : run (BlockChain.processTransactionHashSet G blockHash archive) s = (r, v))
    (hr : r ≠ .ok .success) : LeftBehind s blockHash v := by
  rw [BlockChain.processTransactionHashSet, run_ofRun, Prod.mk.injEq] at h
  obtain ⟨rfl, rfl⟩ := h
  rcases run_processTxHashSet_cases (G := G) hs blockHash archive with
    ⟨hnone, hrun⟩ | ⟨hsome, ⟨v, hrun⟩ | hrun⟩
  · rw [hrun]
    refine ⟨rfl, fun _ => rfl, ?_⟩
    rintro hsome
    rw [hnone] at hsome
    cases hsome
  · rw [hrun] at hr
    exact absurd rfl hr
  · rw [hrun]
    refine ⟨rfl, ?_, fun _ => rfl⟩
    rintro hnone
    rw [hnone] at hsome
    cases hsome

open SmallNet

theorem state₂_atRest : state₂.AtRest :=
  BlockProcessor.processBlock_atRest
    (BlockProcessor.processBlock_atRest genesis_atRest (run_processBlock _ _))
    (run_processBlock _ _)

/-- A file that is no archive, sent with the hash of the first block to a node that has two. -/
theorem failed_noArchive : run (BlockChain.processTransactionHashSet testNet
      (block₁.getHash testNet) none) state₂ =
        (.ok .invalid, { state₂ with txHashSet := none }) := by
  have hknown : (state₂.blockDB.getBlockHeader (block₁.getHash testNet)).isSome = true := by
    decide +kernel
  rw [BlockChain.processTransactionHashSet, run_ofRun, processTxHashSet,
    run_bind_ok (run_get state₂)]
  obtain ⟨header, hheader⟩ := Option.isSome_iff_exists.mp hknown
  rw [hheader]
  rfl

/-- Behind that file. -/
theorem leftBehind_noArchive :
    LeftBehind state₂ (block₁.getHash testNet) { state₂ with txHashSet := none } :=
  leftBehind_of_failed state₂_atRest failed_noArchive (by decide)

/-- After that file the node, which had an open hash set at its tip, has none. -/
theorem not_openAtTip_noArchive :
    OpenAtTip state₂ ∧
      ∃ v, run (BlockChain.processTransactionHashSet testNet (block₁.getHash testNet) none)
          state₂ = (.ok .invalid, v) ∧ ¬OpenAtTip v := by
  refine ⟨?_, _, failed_noArchive, ?_⟩
  · have hset : (state₂.txHashSet.map fun t => t.blockHeader) = some block₂.header := by
      decide +kernel
    have htip : state₂.getTipBlockHeader .confirmed = some block₂.header := by decide +kernel
    obtain ⟨t, ht, hheader⟩ := Option.map_eq_some_iff.mp hset
    exact ⟨t, ht, hheader ▸ htip⟩
  · rintro ⟨t, ht, -⟩
    cases ht

end StateSync

end GrinPlusPlus
