import GrinPlusPlus.BlockChain.BlockHeaderProcessor
import Mathlib.Data.List.Chain
import Mathlib.Data.List.TakeWhile

/-!
# What the header calls do

One lemma for each method of `BlockHeaderProcessor` and `ChainResyncer`, in the two halves
that the callers need:

* **when it fails**, nothing permanent was touched
  (`GrinPlusPlus.BlockHeaderProcessor.fails_processSingleHeaderLocked`, …);
* **when it succeeds**, the state is the one these lemmas name. The central relation is
  `GrinPlusPlus.BlockHeaderProcessor.Extends`: the candidate chain, the header MMR and the
  database after a list of headers was validated and added.
-/

namespace GrinPlusPlus

open Exec MMRHashUtil

/-- The cycle of a header, as it is hashed into the header MMR. -/
def BlockHeader.cycle (h : BlockHeader) : List UInt8 :=
  h.proofOfWork.serializeCycle

@[simp] theorem BlockHeader.cycle_reload (h : BlockHeader) : h.reload.cycle = h.cycle :=
  ProofOfWork.serializeCycle_reload _

/-- A check that passed. -/
theorem of_require {c : Prop} [Decidable c] {e : Exc} {u : Unit}
    (h : require c e = .ok u) : c := by
  by_contra hc
  rw [require, if_neg hc] at h
  cases h

/-! ### Validation -/

/-- What every accepted header has in relation to the previous one. -/
structure Follows (G : Global) (previous header : BlockHeader) : Prop where
  /-- The next height. -/
  height : header.height = previous.height + 1
  /-- A later time. -/
  timestamp : previous.getTimestamp < header.getTimestamp
  /-- More total difficulty, unless the proof of work is not looked at. -/
  totalDifficulty : G.isAutomatedTesting = false →
    previous.getTotalDifficulty < header.getTotalDifficulty

theorem BlockHeaderValidator.follows_of_validate {G : Global} {now : ℤ} {lookup : HeaderLookup}
    {mmr : HeaderMMR} {header previous : BlockHeader} {u : Unit}
    (h : validate G now lookup mmr header previous = .ok u) : Follows G previous header := by
  obtain ⟨_, h1, h⟩ := of_bind_eq_ok h
  obtain ⟨_, -, h⟩ := of_bind_eq_ok h
  obtain ⟨_, -, h⟩ := of_bind_eq_ok h
  obtain ⟨_, h4, h⟩ := of_bind_eq_ok h
  obtain ⟨valid, h5, h⟩ := of_bind_eq_ok h
  obtain ⟨_, h6, -⟩ := of_bind_eq_ok h
  refine ⟨of_require h1, of_require h4, fun hauto => ?_⟩
  rw [isPoWValid, hauto, if_neg Bool.false_ne_true, of_require h6] at h5
  exact PoWValidator.totalDifficulty_lt_of_isPoWValid h5

namespace BlockHeaderProcessor

open ChainState

variable {G : Global} {now : ℤ} {s t : ChainState}

theorem of_run_validate {header previous : BlockHeader}
    (h : run (validate G now header previous) s = (.ok (), t)) :
    BlockHeaderValidator.validate G now s.blockDB.getBlockHeader s.headerMMR header previous =
        .ok () ∧
      t = { s with accepted := s.accepted ++ [header] } := by
  obtain ⟨_, u, hget, h⟩ := of_run_bind_ok h
  cases hget
  obtain ⟨_, u, hval, h⟩ := of_run_bind_ok h
  rw [run_ofExcept, Prod.mk.injEq] at hval
  obtain ⟨hval, rfl⟩ := hval
  rw [run_modify, Prod.mk.injEq] at h
  exact ⟨hval, h.2.symm⟩

theorem of_run_updateCandidate {f : Chain → Except Exc Chain}
    (h : run (updateCandidate f) s = (.ok (), t)) :
    ∃ c, f s.candidate = .ok c ∧ t = { s with candidate := c } := by
  obtain ⟨c, hc, h⟩ := of_bind_eq_ok (of_run_update_ok h)
  cases h
  exact ⟨c, hc, rfl⟩

theorem of_run_updateHeaderMMR {f : HeaderMMR → Except Exc HeaderMMR}
    (h : run (updateHeaderMMR f) s = (.ok (), t)) :
    ∃ m, f s.headerMMR = .ok m ∧ t = { s with headerMMR := m } := by
  obtain ⟨m, hm, h⟩ := of_bind_eq_ok (of_run_update_ok h)
  cases h
  exact ⟨m, hm, rfl⟩

theorem of_run_modifyDB {f : BlockDB → BlockDB} (h : run (modifyDB f) s = (.ok (), t)) :
    t = { s with blockDB := f s.blockDB } := by
  cases h
  rfl

variable (G) in
/-- The state after headers were validated and added one by one. -/
structure Extends (s : ChainState) (previous : BlockHeader) (headers : List BlockHeader)
    (t : ChainState) : Prop where
  /-- Only these parts change. -/
  eq : t = { s with
    candidate := t.candidate
    headerMMR := t.headerMMR
    blockDB := s.blockDB.addBlockHeaders G headers
    accepted := s.accepted ++ headers }
  /-- The candidate chain has their hashes at its end. -/
  hashes : t.candidate.hashes = s.candidate.hashes ++ headers.map (BlockHeader.getHash G)
  /-- The permanent candidate chain stays. -/
  candidate_committed : t.candidate.committed = s.candidate.committed
  /-- The header MMR has their cycles at its end. -/
  range : ∀ cycles, IsRangeOf G s.headerMMR.current cycles →
    IsRangeOf G t.headerMMR.current (cycles ++ headers.map BlockHeader.cycle)
  /-- The permanent header MMR stays. -/
  headerMMR_committed : t.headerMMR.committed = s.headerMMR.committed
  /-- Each one follows the one before it. -/
  follows : List.IsChain (Follows G) (previous :: headers)
  /-- Each one has the height of its place. -/
  heights : ∀ i h, headers[i]? = some h → h.getHeight = s.candidate.hashes.length + i

theorem extends_nil (previous : BlockHeader) : Extends G s previous [] s where
  eq := by simp [BlockDB.addBlockHeaders]
  hashes := by simp
  candidate_committed := rfl
  range := fun cycles hc => by simpa using hc
  headerMMR_committed := rfl
  follows := List.IsChain.singleton _
  heights := by simp

/-- One header, and the rest of them. -/
theorem extends_cons {header previous : BlockHeader} {headers : List BlockHeader}
    {m : HeaderMMR} {c : Chain}
    (hval : BlockHeaderValidator.validate G now s.blockDB.getBlockHeader s.headerMMR header
      previous = .ok ())
    (hm : s.headerMMR.addHeader G header = .ok m)
    (hc : s.candidate.addBlock (header.getHash G) header.getHeight = .ok c)
    (hrest : Extends G
      { s with
        candidate := c
        headerMMR := m
        blockDB := s.blockDB.addBlockHeader G header
        accepted := s.accepted ++ [header] } header headers t) :
    Extends G s previous (header :: headers) t := by
  obtain ⟨hheight, hhashes, hcommitted⟩ := Chain.of_addBlock hc
  refine ⟨?_, ?_, ?_, ?_, ?_, ?_, ?_⟩
  · rw [hrest.eq]
    simp only [BlockDB.addBlockHeaders_cons, List.append_assoc, List.singleton_append]
  · rw [hrest.hashes, hhashes, List.map_cons, List.append_assoc, List.singleton_append]
  · rw [hrest.candidate_committed, hcommitted]
  · intro cycles hcycles
    obtain ⟨m', hm', hrange, -⟩ := HeaderMMR.addHeader_ok hcycles header
    rw [hm] at hm'
    cases hm'
    have hall := hrest.range _ hrange
    rwa [List.append_assoc, List.singleton_append] at hall
  · rw [hrest.headerMMR_committed]
    exact HeaderMMR.committed_of_addHeader hm
  · exact List.IsChain.cons_cons (BlockHeaderValidator.follows_of_validate hval) hrest.follows
  · intro i a hi
    cases i with
    | zero =>
      cases hi
      exact hheight
    | succ i =>
      have hi' := hrest.heights i a (by simpa using hi)
      rw [hhashes, List.length_append, List.length_singleton] at hi'
      omega

/-- **`ValidateHeaders` succeeded.** -/
theorem extends_of_run_validateEach {headers : List BlockHeader} {previous : BlockHeader}
    (h : run (validateEach G now headers previous) s = (.ok (), t)) :
    Extends G s previous headers t := by
  induction headers generalizing s previous with
  | nil =>
    cases h
    exact extends_nil previous
  | cons header headers ih =>
    obtain ⟨_, s1, h1, h⟩ := of_run_bind_ok h
    obtain ⟨_, s2, h2, h⟩ := of_run_bind_ok h
    obtain ⟨_, s3, h3, h⟩ := of_run_bind_ok h
    obtain ⟨_, s4, h4, h⟩ := of_run_bind_ok h
    obtain ⟨hval, rfl⟩ := of_run_validate h1
    obtain ⟨m, hm, rfl⟩ := of_run_updateHeaderMMR h2
    obtain rfl := of_run_modifyDB h3
    obtain ⟨c, hc, rfl⟩ := of_run_updateCandidate h4
    exact extends_cons hval hm hc (ih h)

theorem extends_of_run_validateHeaders {headers : List BlockHeader}
    (h : run (validateHeaders G now headers) s = (.ok (), t)) :
    ∃ first previous, headers.head? = some first ∧
      s.blockDB.getBlockHeader first.previousHash = some previous ∧
      Extends G s previous headers t := by
  cases headers with
  | nil => cases h
  | cons first rest =>
    obtain ⟨_, u, hget, h⟩ := of_run_bind_ok h
    cases hget
    split at h
    · cases h
    · next previous hprev => exact ⟨first, previous, rfl, hprev, extends_of_run_validateEach h⟩

/-! ### When a call fails -/

theorem steps_validate (header previous : BlockHeader) :
    Steps (Same permanent) (validate G now header previous) := by
  refine steps_bind steps_get fun s => ?_
  exact steps_bind (steps_ofExcept _) fun _ => steps_modify fun _ => rfl

theorem steps_addHeader (header : BlockHeader) :
    Steps (Same permanent) (updateHeaderMMR (HeaderMMR.addHeader G header)) :=
  steps_updateHeaderMMR fun _ _ h => HeaderMMR.committed_of_addHeader h

theorem steps_rewindHeaderMMR (size : ℕ) :
    Steps (Same permanent) (updateHeaderMMR (HeaderMMR.rewind size)) :=
  steps_updateHeaderMMR fun _ _ h => (HeaderMMR.of_rewind h).2.2

theorem steps_addCandidate (hash : Hash) (height : ℕ) :
    Steps (Same permanent) (updateCandidate (Chain.addBlock hash height)) :=
  steps_updateCandidate fun _ _ h => (Chain.of_addBlock h).2.2

theorem steps_rewindCandidate (height : ℕ) :
    Steps (Same permanent) (updateCandidate (Chain.rewind height)) :=
  steps_updateCandidate fun _ _ h => (Chain.of_rewind h).2.2

theorem steps_addBlockHeader (header : BlockHeader) :
    Steps (Same permanent) (modifyDB (BlockDB.addBlockHeader G header)) :=
  steps_modifyDB fun _ => ⟨rfl, rfl⟩

theorem steps_validateEach (headers : List BlockHeader) (previous : BlockHeader) :
    Steps (Same permanent) (validateEach G now headers previous) := by
  induction headers generalizing previous with
  | nil => exact steps_pure _
  | cons header headers ih =>
    refine steps_bind (steps_validate _ _) fun _ => ?_
    refine steps_bind (steps_addHeader _) fun _ => ?_
    refine steps_bind (steps_addBlockHeader _) fun _ => ?_
    exact steps_bind (steps_addCandidate _ _) fun _ => ih _

theorem steps_validateHeaders (headers : List BlockHeader) :
    Steps (Same permanent) (validateHeaders G now headers) := by
  cases headers with
  | nil => exact steps_throw _
  | cons first rest =>
    refine steps_bind steps_get fun s => ?_
    split
    · exact steps_throw _
    · exact steps_validateEach _ _

theorem neverFails_rollbackUnlessMore (lastDifficulty totalDifficulty : ℕ) :
    NeverFails (rollbackUnlessMore lastDifficulty totalDifficulty) := by
  rw [rollbackUnlessMore]
  split
  · exact neverFails_modify _
  · exact neverFails_pure _

theorem fails_adoptHeaders (headers : List BlockHeader) (lastDifficulty totalDifficulty : ℕ) :
    Fails (Same permanent) (adoptHeaders G now headers lastDifficulty totalDifficulty) := by
  cases headers with
  | nil => exact (steps_throw _).fails
  | cons first rest =>
    refine fails_bind (steps_rewindCandidate _) fun _ => ?_
    refine fails_bind (steps_rewindHeaderMMR _) fun _ => ?_
    refine fails_bind (steps_validateHeaders _) fun _ => NeverFails.fails ?_
    refine neverFails_bind (neverFails_rollbackUnlessMore _ _) fun _ => ?_
    exact neverFails_bind (neverFails_modify _) fun _ => neverFails_pure _

theorem steps_collectReorgHeaders (passes : ℕ) (header : BlockHeader)
    (headers : List BlockHeader) :
    Steps (Same permanent) (collectReorgHeaders G passes header headers) := by
  induction passes generalizing header headers with
  | zero => exact steps_throw _
  | succ passes ih =>
    refine steps_bind steps_get fun s => ?_
    refine steps_ite (fun _ => steps_pure _) fun _ => ?_
    refine steps_bind (fun _ => rfl) fun orphanHeader => ?_
    cases orphanHeader with
    | some h => exact ih _ _
    | none =>
      dsimp only
      split
      · exact ih _ _
      · exact steps_pure _

theorem fails_processOrphan (header : BlockHeader) :
    Fails (Same permanent) (processOrphan G now header) := by
  refine fails_bind steps_get fun s => ?_
  refine fails_bind (steps_collectReorgHeaders _ _ _) fun reorgHeaders => ?_
  cases reorgHeaders with
  | none => exact (steps_bind (steps_modifyOrphanPool _) fun _ => steps_pure _).fails
  | some headers => exact fails_adoptHeaders _ _ _

/-- **A single header that is refused** leaves the permanent state alone. -/
theorem fails_processSingleHeaderLocked (header : BlockHeader) :
    Fails (Same permanent) (processSingleHeaderLocked G now header) := by
  refine fails_bind steps_get fun s => ?_
  refine fails_ite (fun _ => (steps_pure _).fails) fun _ => ?_
  refine fails_ite (fun _ => fails_processOrphan _) fun _ => ?_
  split
  · exact (steps_throw _).fails
  · refine fails_bind (steps_validate _ _) fun _ => ?_
    refine fails_bind (steps_addBlockHeader _) fun _ => ?_
    refine fails_bind (steps_addHeader _) fun _ => ?_
    refine fails_bind (steps_addCandidate _ _) fun _ => NeverFails.fails ?_
    exact neverFails_bind (neverFails_modify _) fun _ => neverFails_pure _

/-- **A chunk of headers that is refused** leaves the permanent state alone. -/
theorem fails_processChunkedSyncHeadersLocked (headers : List BlockHeader) :
    Fails (Same permanent) (processChunkedSyncHeadersLocked G now headers) := by
  cases headers with
  | nil => exact (steps_throw _).fails
  | cons first rest =>
    refine fails_bind steps_get fun s => ?_
    refine fails_ite (fun _ => (steps_throw _).fails) fun _ => ?_
    split
    · exact (steps_pure _).fails
    · exact fails_adoptHeaders _ _ _

/-! ### When a call succeeds -/

variable (G) in
/-- **A call that adopted headers**: the first `n` entries of the candidate chain and the
headers behind them were compared with the candidate chain, and the better one of the two is
the candidate chain now. The headers are stored either way. -/
structure HeaderStep (s t : ChainState) (n : ℕ) (previous : BlockHeader)
    (headers : List BlockHeader) : Prop where
  /-- Only these parts change. -/
  eq : t = { s with
    candidate := t.candidate
    headerMMR := t.headerMMR
    blockDB := (s.blockDB.addBlockHeaders G headers).commit G
    orphanPool := t.orphanPool
    accepted := s.accepted ++ headers }
  /-- There is a header … -/
  nonempty : headers ≠ []
  /-- … the previous one of the first is stored … -/
  previous_eq : ∀ first ∈ headers.head?,
    s.blockDB.getBlockHeader first.previousHash = some previous
  /-- … and each one follows the one before it. -/
  follows : List.IsChain (Follows G) (previous :: headers)
  /-- The fork starts within the candidate chain, behind the genesis block. -/
  pos : 0 < n
  /-- The fork starts within the candidate chain, behind the genesis block. -/
  le : n ≤ s.candidate.hashes.length
  /-- Each one has the height of its place. -/
  heights : ∀ i h, headers[i]? = some h → h.getHeight = n + i
  /-- The better one of the two chains stays; a header that comes next is always added. -/
  outcome :
    ((headers.getLast nonempty).getTotalDifficulty ≤ s.getTotalDifficulty .candidate ∧
      t.candidate = s.candidate ∧ t.headerMMR = s.headerMMR) ∨
    ((n = s.candidate.hashes.length ∨
        s.getTotalDifficulty .candidate < (headers.getLast nonempty).getTotalDifficulty) ∧
      t.candidate.hashes = s.candidate.hashes.take n ++ headers.map (BlockHeader.getHash G) ∧
      ∀ cycles, IsRangeOf G s.headerMMR.current cycles →
        cycles.length = s.candidate.hashes.length →
        IsRangeOf G t.headerMMR.current (cycles.take n ++ headers.map BlockHeader.cycle))
  /-- Nothing is pending. -/
  atRest : t.AtRest

/-- The headers were validated and added behind the first `n` entries. -/
theorem headerStep_of_extends {n : ℕ} {c : Chain} {m : HeaderMMR} {u : ChainState}
    {o : OrphanPool} {previous : BlockHeader} {headers : List BlockHeader} {p : Prop}
    [Decidable p] (hs : s.AtRest)
    (hc : c.hashes = s.candidate.hashes.take n) (hcc : c.committed = s.candidate.committed)
    (hm : ∀ cycles, IsRangeOf G s.headerMMR.current cycles →
      cycles.length = s.candidate.hashes.length → IsRangeOf G m.current (cycles.take n))
    (hmc : m.committed = s.headerMMR.committed) (hpos : 0 < n)
    (hle : n ≤ s.candidate.hashes.length) (hne : headers ≠ [])
    (hprev : ∀ first ∈ headers.head?,
      s.blockDB.getBlockHeader first.previousHash = some previous)
    (hext : Extends G { s with candidate := c, headerMMR := m, orphanPool := o } previous
      headers u)
    (hp : p → (headers.getLast hne).getTotalDifficulty ≤ s.getTotalDifficulty .candidate)
    (hnp : ¬p → n = s.candidate.hashes.length ∨
      s.getTotalDifficulty .candidate < (headers.getLast hne).getTotalDifficulty)
    (ht : t = ((if p
      then { u with headerMMR := u.headerMMR.rollback, candidate := u.candidate.rollback }
      else u).commit G).rollback) :
    HeaderStep G s t n previous headers ∧ (p → t.candidate = s.candidate) := by
  have hlen : c.hashes.length = n := by
    rw [hc, List.length_take, Nat.min_eq_left hle]
  have hcand : u.candidate.committed = s.candidate.committed :=
    hext.candidate_committed.trans hcc
  have hmmr : u.headerMMR.committed = s.headerMMR.committed :=
    hext.headerMMR_committed.trans hmc
  have hu := hext.eq
  have hdb : u.blockDB = s.blockDB.addBlockHeaders G headers := by rw [hu]
  have hacc : u.accepted = s.accepted ++ headers := by rw [hu]
  have hconf : u.confirmed = s.confirmed := by rw [hu]
  have htx : u.txHashSet = s.txHashSet := by rw [hu]
  have hpool : u.txPool = s.txPool := by rw [hu]
  have hatRest : t.AtRest := ht ▸ rollback_atRest _
  split at ht
  · next hlt =>
    have hroll := rollback_commit_eq (G := G) (u :=
      { u with headerMMR := u.headerMMR.rollback, candidate := u.candidate.rollback }) hs htx
    rw [hroll] at ht
    have hcand' : t.candidate = s.candidate := by
      rw [ht]
      simp only [Batch.rollback_eq hs.candidate hcand, Batch.commit_of_atRest hs.candidate]
    have hmmr' : t.headerMMR = s.headerMMR := by
      rw [ht]
      simp only [Batch.rollback_eq hs.headerMMR hmmr, Batch.commit_of_atRest hs.headerMMR]
    refine ⟨⟨?_, hne, hprev, hext.follows, hpos, hle, ?_, .inl ⟨hp hlt, hcand', hmmr'⟩, hatRest⟩,
      fun _ => hcand'⟩
    · rw [ht]
      simp only [hdb, hacc, hconf, htx, hpool, Batch.commit_of_atRest hs.confirmed]
    · intro i h hi
      rw [hext.heights i h hi, hlen]
  · next hlt =>
    rw [rollback_commit_eq hs htx] at ht
    refine ⟨⟨?_, hne, hprev, hext.follows, hpos, hle, ?_, .inr ⟨hnp hlt, ?_, ?_⟩, hatRest⟩,
      fun h => absurd h hlt⟩
    · rw [ht]
      simp only [hdb, hacc, hconf, htx, hpool, Batch.commit_of_atRest hs.confirmed]
    · intro i h hi
      rw [hext.heights i h hi, hlen]
    · rw [ht, Chain.hashes, Batch.commit_current, ← Chain.hashes, hext.hashes, hc]
    · intro cycles hcycles hlength
      rw [ht, Batch.commit_current]
      exact hext.range _ (hm cycles hcycles hlength)

theorem run_rollbackUnlessMore (lastDifficulty totalDifficulty : ℕ) (s : ChainState) :
    run (rollbackUnlessMore lastDifficulty totalDifficulty) s =
      (.ok (), if lastDifficulty ≤ totalDifficulty then
        { s with headerMMR := s.headerMMR.rollback, candidate := s.candidate.rollback }
        else s) := by
  rw [rollbackUnlessMore]
  split
  · rfl
  · rfl

/-- The common end of an orphan header and of a chunk of headers, when it succeeds: `s` is the
state the call started in, `o` the orphan pool since. -/
theorem headerStep_of_run_adoptHeaders {o : OrphanPool} {headers : List BlockHeader}
    {lastDifficulty : ℕ} {status : EBlockChainStatus} {u : ChainState} (hs : s.AtRest)
    (hne : headers ≠ [])
    (hlast : lastDifficulty = (headers.getLast hne).getTotalDifficulty)
    (h : run (adoptHeaders G now headers lastDifficulty (s.getTotalDifficulty .candidate))
      { s with orphanPool := o } = (.ok status, u)) :
    status = .success ∧ ∃ n previous, HeaderStep G s u.rollback n previous headers ∧
      (lastDifficulty ≤ s.getTotalDifficulty .candidate → u.rollback.candidate = s.candidate) := by
  obtain ⟨first, rest, rfl⟩ := List.exists_cons_of_ne_nil hne
  obtain ⟨_, s1, h1, h⟩ := of_run_bind_ok h
  obtain ⟨_, s2, h2, h⟩ := of_run_bind_ok h
  obtain ⟨_, s3, h3, h⟩ := of_run_bind_ok h
  obtain ⟨_, s4, h4, h⟩ := of_run_bind_ok h
  obtain ⟨_, s5, h5, h⟩ := of_run_bind_ok h
  obtain ⟨c, hc, rfl⟩ := of_run_updateCandidate h1
  obtain ⟨m, hm, rfl⟩ := of_run_updateHeaderMMR h2
  obtain ⟨first', previous, hfirst, hprev, hext⟩ := extends_of_run_validateHeaders h3
  obtain rfl : first = first' := Option.some_inj.mp hfirst
  rw [run_rollbackUnlessMore] at h4
  cases h4
  cases h5
  cases h
  refine ⟨rfl, first.getHeight, previous, ?_⟩
  obtain ⟨hlt, hhashes, hcommitted⟩ := Chain.of_rewind hc
  dsimp only at hlt hhashes hcommitted hm hprev
  -- The first header is added behind what is left, so its height is the length of that.
  have hheight : first.getHeight = decrement first.getHeight + 1 := by
    have h0 := hext.heights 0 first rfl
    dsimp only at h0
    rw [hhashes, List.length_take] at h0
    omega
  rw [← hheight] at hhashes
  refine headerStep_of_extends hs hhashes hcommitted (fun cycles hcycles _ => ?_)
    (HeaderMMR.of_rewind hm).2.2 (by omega) (by omega) hne ?_ hext
    (fun hle => hlast ▸ hle) (fun hlt => .inr (hlast ▸ Nat.lt_of_not_le hlt)) rfl
  · exact (HeaderMMR.isRangeOf_of_rewind hcycles hm).2
  · intro f hf
    cases hf
    exact hprev

variable (G) in
/-- A header that the walk of `ProcessOrphan` finds under a hash. -/
def Found (s : ChainState) (hash : Hash) (header : BlockHeader) : Prop :=
  (hash, header) ∈ s.orphanPool.orphanHeaders ∨ s.blockDB.getBlockHeader hash = some header

variable (G) in
/-- The walk of `ProcessOrphan`: from a header of the candidate chain on, each header is the
one that was found under the previous hash of the next one. -/
structure Walk (s : ChainState) (base : BlockHeader) (headers : List BlockHeader) : Prop where
  /-- The walk ends on the candidate chain. -/
  onChain : s.candidate.isOnChain base.getHeight (base.getHash G) = true
  /-- Each header was found under the previous hash of the next one. -/
  found : List.IsChain (fun a b => Found s b.previousHash a) (base :: headers)

/-- The walk only changes the orphan pool, and ends with the header it started from. -/
theorem of_run_collectReorgHeaders {passes : ℕ} {header : BlockHeader}
    {headers : List BlockHeader} {r : Except Exc (Option (List BlockHeader))}
    (h : run (collectReorgHeaders G passes header headers) s = (r, t)) :
    t = { s with orphanPool := t.orphanPool } ∧
      ∀ l, r = .ok (some l) → ∃ base l', l = l' ++ headers ∧ Walk G s base l' ∧
        (base :: l').getLast? = some header := by
  induction passes generalizing s header headers with
  | zero =>
    cases h
    exact ⟨rfl, fun l hl => by cases hl⟩
  | succ passes ih =>
    rw [collectReorgHeaders, run_bind_ok (run_get s)] at h
    split at h
    · next hon =>
      cases h
      refine ⟨rfl, fun l hl => ⟨header, [], ?_, ⟨hon, List.IsChain.singleton _⟩, rfl⟩⟩
      cases hl
      rfl
    · rw [run_bind_ok (run_modifyGet _ s)] at h
      have key : ∀ next, Found s header.previousHash next →
          run (collectReorgHeaders G passes next (header :: headers))
            { s with orphanPool := (s.orphanPool.getOrphanHeader header.previousHash).2 } =
              (r, t) →
          t = { s with orphanPool := t.orphanPool } ∧
            ∀ l, r = .ok (some l) → ∃ base l', l = l' ++ headers ∧ Walk G s base l' ∧
              (base :: l').getLast? = some header := by
        intro next hfound hnext
        obtain ⟨ht, hl⟩ := ih hnext
        refine ⟨ht, fun l hr => ?_⟩
        obtain ⟨base, l', hl', hwalk, hlast⟩ := hl l hr
        refine ⟨base, l' ++ [header], ?_, ⟨hwalk.onChain, ?_⟩, ?_⟩
        · rw [hl', List.append_assoc, List.singleton_append]
        · -- What the touched cache answers, the cache had before.
          have hold : List.IsChain (fun a b => Found s b.previousHash a) (base :: l') := by
            refine hwalk.found.imp fun a b hab => ?_
            exact hab.imp (fun hmem => Cache.mem_touch hmem) id
          rw [← List.cons_append, List.isChain_append]
          refine ⟨hold, List.IsChain.singleton _, fun a ha b hb => ?_⟩
          rw [hlast] at ha
          cases ha
          cases hb
          exact hfound
        · rw [← List.cons_append, List.getLast?_concat]
      dsimp only at h
      split at h
      · next next hnext => exact key next (.inl (Cache.mem_of_get? hnext)) h
      · split at h
        · next next hnext => exact key next (.inr hnext) h
        · cases h
          exact ⟨rfl, fun l hl => by cases hl⟩

variable (G) in
/-- Where the headers of a step come from: the header is the next one, or the tip of a walk. -/
inductive SingleOrigin (s : ChainState) (header : BlockHeader) : ℕ → List BlockHeader → Prop
  | next (h : s.candidate.getTipHash = header.previousHash) :
    SingleOrigin s header s.candidate.hashes.length [header]
  | walk {n : ℕ} {headers : List BlockHeader} (base : BlockHeader) (h : Walk G s base headers)
    (hlast : headers.getLast? = some header) : SingleOrigin s header n headers

/-- **A single header**: nothing but the pools changes, or headers are adopted that end with
it. -/
theorem processSingleHeader_cases {header : BlockHeader} {r : Except Exc EBlockChainStatus}
    (hs : s.AtRest) (h : run (processSingleHeader G now header) s = (r, t)) :
    t = t.withPoolsOf s ∨
      r = .ok .success ∧ ∃ n previous headers, HeaderStep G s t n previous headers ∧
        SingleOrigin G s header n headers := by
  rw [processSingleHeader] at h
  split at h
  · cases h
    exact .inl rfl
  rcases hbody : run (processSingleHeaderLocked G now header) s with ⟨r', u⟩
  have hbatch : (r', u.rollback) = (r, t) := by
    rw [← h, batch, run_ofRun, hbody]
  cases hbatch
  cases r with
  | error e =>
    left
    rw [rollback_eq hs (fails_processSingleHeaderLocked _ _ _ _ hbody)]
    rfl
  | ok status =>
    have hsame : u.permanent = s.permanent → u.rollback = u.rollback.withPoolsOf s := by
      intro hp
      rw [rollback_eq hs hp]
      rfl
    rw [processSingleHeaderLocked, run_bind_ok (run_get s)] at hbody
    split at hbody
    · cases hbody
      exact .inl (hsame rfl)
    split at hbody
    · -- An orphan: a walk back to the candidate chain, or into the orphan pool.
      rw [processOrphan, run_bind_ok (run_get s)] at hbody
      obtain ⟨reorgHeaders, s1, h1, hbody⟩ := of_run_bind_ok hbody
      obtain ⟨hs1, hl⟩ := of_run_collectReorgHeaders h1
      cases reorgHeaders with
      | none =>
        left
        obtain ⟨_, s2, h2, hbody⟩ := of_run_bind_ok hbody
        cases h2
        cases hbody
        have hperm : s1.permanent = s.permanent := by
          rw [hs1]
          rfl
        exact hsame hperm
      | some headers =>
        obtain ⟨base, l', hl', hwalk, hend⟩ := hl headers rfl
        rw [List.append_nil] at hl'
        subst hl'
        by_cases hne : headers = []
        · subst hne
          cases hbody
        · right
          rw [List.getLast?_cons_of_ne_nil hne] at hend
          rw [hs1] at hbody
          have hlast : headers.getLast hne = header := by
            rw [List.getLast?_eq_some_getLast hne] at hend
            exact Option.some_inj.mp hend
          obtain ⟨rfl, n, previous, hstep, -⟩ :=
            headerStep_of_run_adoptHeaders hs hne (by rw [hlast]) hbody
          exact ⟨rfl, n, previous, headers, hstep, .walk base hwalk hend⟩
    · next htip =>
      rw [not_not] at htip
      split at hbody
      · cases hbody
      · next previous hprev =>
        right
        obtain ⟨_, s1, h1, hbody⟩ := of_run_bind_ok hbody
        obtain ⟨_, s2, h2, hbody⟩ := of_run_bind_ok hbody
        obtain ⟨_, s3, h3, hbody⟩ := of_run_bind_ok hbody
        obtain ⟨_, s4, h4, hbody⟩ := of_run_bind_ok hbody
        obtain ⟨_, s5, h5, hbody⟩ := of_run_bind_ok hbody
        obtain ⟨hval, rfl⟩ := of_run_validate h1
        obtain rfl := of_run_modifyDB h2
        obtain ⟨m, hm, rfl⟩ := of_run_updateHeaderMMR h3
        obtain ⟨c, hc, rfl⟩ := of_run_updateCandidate h4
        cases h5
        cases hbody
        have hext := extends_cons hval hm hc (extends_nil _)
        refine ⟨rfl, s.candidate.hashes.length, previous, [header], ?_, .next htip⟩
        refine (headerStep_of_extends (p := False) (o := s.orphanPool) hs
          (List.take_length.symm) rfl (fun cycles hcycles hlength => ?_) rfl
          (List.length_pos_iff.mpr s.candidate.hashes_ne_nil) le_rfl (List.cons_ne_nil _ _) ?_
          hext False.elim (fun _ => .inl rfl) (by rw [if_neg not_false])).1
        · rw [← hlength, List.take_length]
          exact hcycles
        · intro f hf
          cases hf
          rw [← htip]
          exact hprev

variable (G) in
/-- Where the headers of a step come from: they are the end of a chunk, the rest of which is on
the candidate chain. -/
structure ChunkOrigin (s : ChainState) (chunk headers : List BlockHeader) : Prop where
  /-- The previous hash of the first header of the chunk is on the candidate chain. -/
  prepared : ∀ first ∈ chunk.head?,
    s.candidate.isOnChain (decrement first.getHeight) first.previousHash = true
  /-- The headers are the end of the chunk. -/
  known : ∃ known, chunk = known ++ headers ∧
    ∀ h ∈ known, s.candidate.isOnChain h.getHeight (h.getHash G) = true

/-- **A chunk of headers**: nothing changes, or the headers of the chunk from some place on are
adopted. -/
theorem processChunkedSyncHeaders_cases {chunk : List BlockHeader}
    {r : Except Exc EBlockChainStatus} (hs : s.AtRest)
    (h : run (processChunkedSyncHeaders G now chunk) s = (r, t)) :
    t = t.withPoolsOf s ∨
      r = .ok .success ∧ ∃ n previous headers, HeaderStep G s t n previous headers ∧
        ChunkOrigin G s chunk headers := by
  rcases hbody : run (processChunkedSyncHeadersLocked G now chunk) s with ⟨r', u⟩
  have hbatch : (r', u.rollback) = (r, t) := by
    rw [← h, processChunkedSyncHeaders, batch, run_ofRun, hbody]
  cases hbatch
  cases r with
  | error e =>
    left
    rw [rollback_eq hs (fails_processChunkedSyncHeadersLocked _ _ _ _ hbody)]
    rfl
  | ok status =>
    cases chunk with
    | nil => cases hbody
    | cons first rest =>
      rw [processChunkedSyncHeadersLocked] at hbody
      rw [run_bind_ok (run_get s)] at hbody
      split at hbody
      · cases hbody
      · next hprepared =>
        rw [Bool.not_eq_false] at hprepared
        have hsplit := List.takeWhile_append_dropWhile
          (p := fun h => s.candidate.isOnChain h.getHeight (h.getHash G)) (l := first :: rest)
        split at hbody
        · left
          cases hbody
          rw [rollback_eq hs rfl]
          rfl
        · next first' rest' hnew =>
          right
          rw [hnew] at hsplit
          have hne : first' :: rest' ≠ [] := List.cons_ne_nil _ _
          have hlast : ((first' :: rest').getLast?.map (·.getTotalDifficulty)).getD 0 =
              ((first' :: rest').getLast hne).getTotalDifficulty := by
            rw [List.getLast?_eq_some_getLast hne]
            rfl
          obtain ⟨rfl, n, previous, hstep, -⟩ :=
            headerStep_of_run_adoptHeaders (o := s.orphanPool) hs hne hlast hbody
          refine ⟨rfl, n, previous, _, hstep, ⟨?_, _, hsplit.symm, ?_⟩⟩
          · intro f hf
            cases hf
            exact hprepared
          · intro a ha
            have hon := List.mem_takeWhile_imp ha
            exact hon

/-! ### Lists of headers -/

/-- The chunks of a list are pieces of it. -/
theorem infix_of_mem_chunksFrom {index : ℕ} {begun headers chunk : List BlockHeader}
    (h : chunk ∈ chunksFrom index begun headers) : chunk <:+: begun ++ headers := by
  induction headers generalizing index begun with
  | nil => cases h
  | cons header headers ih =>
    rw [chunksFrom] at h
    split at h
    · rcases List.mem_cons.mp h with rfl | h
      · exact ⟨[], headers, by simp⟩
      · obtain ⟨a, b, hab⟩ := ih h
        exact ⟨begun ++ header :: a, b, by rw [← List.nil_append headers, ← hab]; simp⟩
    · have := ih h
      rwa [List.append_assoc, List.singleton_append] at this

/-- **The rule for lists of headers**: what every chunk keeps, the list keeps. -/
theorem processSyncHeaders_induction {P : ChainState → Prop} {headers : List BlockHeader}
    (hchunk : ∀ chunk, chunk <:+: headers → ∀ s, P s →
      P (run (processChunkedSyncHeaders G now chunk) s).2)
    (hs : P s) : P (run (processSyncHeaders G now headers) s).2 := by
  have hchunks : ∀ chunks : List (List BlockHeader), (∀ c ∈ chunks, c <:+: headers) →
      ∀ s, P s → P (run (processChunks G now chunks) s).2 := by
    intro chunks
    induction chunks with
    | nil => exact fun _ s hs => hs
    | cons chunk chunks ih =>
      intro hmem s hs
      have hP := hchunk chunk (hmem chunk (List.mem_cons_self ..)) s hs
      rw [processChunks, run_bind]
      rcases hr : run (processChunkedSyncHeaders G now chunk) s with ⟨e | status, u⟩
      · rw [hr] at hP
        exact hP
      · rw [hr] at hP
        dsimp only
        split
        · exact hP
        · exact ih (fun c hc => hmem c (List.mem_cons_of_mem _ hc)) u hP
  cases headers with
  | nil => exact hs
  | cons first rest =>
    rw [processSyncHeaders]
    split
    · exact hs
    split
    · exact hs
    split
    · exact hs
    · exact hchunks _ (fun c hc => infix_of_mem_chunksFrom hc) s hs

end BlockHeaderProcessor

/-! ### Resynchronisation -/

namespace ChainResyncer

open ChainState

variable {G : Global} {s t : ChainState}

variable (G) in
/-- The state after the loop of `ResyncChain` went through the hashes of the candidate chain
from height `i` on: the chain ends in front of the first header that is missing or is not
linked to the one before it. -/
structure Relinked (s : ChainState) (i : ℕ) (hashes : List Hash) (previous : Option BlockHeader)
    (t : ChainState) (headers : List BlockHeader) : Prop where
  /-- Only these parts change. -/
  eq : t = { s with candidate := t.candidate, headerMMR := t.headerMMR }
  /-- The headers are those of the first hashes … -/
  lookup : List.Forall₂ (fun k h => s.blockDB.getBlockHeader k = some h)
    (hashes.take headers.length) headers
  /-- … and each one is linked to the one before it. -/
  linked : ∃ p, (headers = [] ∨ previous = some p) ∧
    List.IsChain (fun a b => b.previousHash = a.getHash G) (p :: headers)
  /-- The candidate chain ends with them. -/
  candidate : t.candidate.hashes = s.candidate.hashes.take (i + headers.length)
  /-- The header MMR has their cycles at its end. -/
  range : ∀ cycles, IsRangeOf G s.headerMMR.current cycles →
    IsRangeOf G t.headerMMR.current (cycles ++ headers.map BlockHeader.cycle)

/-- The chain ends here. -/
theorem relinked_nil {i : ℕ} {hashes : List Hash} {previous : Option BlockHeader} {c : Chain}
    (hc : c.hashes = s.candidate.hashes.take i) :
    Relinked G s i hashes previous { s with candidate := c } [] where
  eq := rfl
  lookup := List.Forall₂.nil
  linked := ⟨G.genesisBlock.header, .inl rfl, .singleton _⟩
  candidate := hc
  range := fun cycles hcycles => by simpa using hcycles

/-- **The loop of `ResyncChain`.** -/
theorem of_run_resyncHeaders {hashes : List Hash} {i : ℕ} {previous : Option BlockHeader}
    (hi : 0 < i) (hlength : s.candidate.hashes.length = i + hashes.length)
    (h : run (resyncHeaders G hashes i previous) s = (.ok (), t)) :
    ∃ headers, Relinked G s i hashes previous t headers := by
  induction hashes generalizing s i previous with
  | nil =>
    cases h
    refine ⟨[], relinked_nil ?_⟩
    rw [List.length_nil, Nat.add_zero] at hlength
    rw [← hlength, List.take_length]
  | cons hash hashes ih =>
    rw [resyncHeaders, run_bind_ok (run_get s)] at h
    have hstop : run (updateCandidate (Chain.rewind (i - 1))) s = (.ok (), t) →
        ∃ headers, Relinked G s i (hash :: hashes) previous t headers := by
      intro hrun
      obtain ⟨c, hc, rfl⟩ := BlockHeaderProcessor.of_run_updateCandidate hrun
      obtain ⟨-, hhashes, -⟩ := Chain.of_rewind hc
      rw [Nat.sub_add_cancel hi] at hhashes
      exact ⟨[], relinked_nil hhashes⟩
    split at h
    · exact hstop h
    · next header hheader =>
      split at h
      · cases h
      · next p =>
        split at h
        · exact hstop h
        · next hlink =>
          rw [not_not] at hlink
          obtain ⟨_, u, hrun, h⟩ := of_run_bind_ok h
          obtain ⟨m, hm, rfl⟩ := BlockHeaderProcessor.of_run_updateHeaderMMR hrun
          rw [List.length_cons] at hlength
          obtain ⟨headers, hrest⟩ := ih (i := i + 1) (by omega) (by dsimp only; omega) h
          refine ⟨header :: headers, hrest.eq, ?_, ⟨p, .inr rfl, ?_⟩, ?_, ?_⟩
          · exact List.Forall₂.cons hheader hrest.lookup
          · obtain ⟨q, hq, hchain⟩ := hrest.linked
            refine List.IsChain.cons_cons hlink ?_
            rcases hq with rfl | hq
            · exact .singleton _
            · cases hq
              exact hchain
          · rw [hrest.candidate, List.length_cons]
            congr 1
            omega
          · intro cycles hcycles
            obtain ⟨m', hm', hr, -⟩ := HeaderMMR.addHeader_ok hcycles header
            rw [hm] at hm'
            cases hm'
            have hall := hrest.range _ hr
            rwa [List.append_assoc, List.singleton_append] at hall

theorem steps_resyncHeaders (hashes : List Hash) (i : ℕ) (previous : Option BlockHeader) :
    Steps (Same permanent) (resyncHeaders G hashes i previous) := by
  induction hashes generalizing i previous with
  | nil => exact steps_pure _
  | cons hash hashes ih =>
    refine steps_bind steps_get fun s => ?_
    split
    · exact BlockHeaderProcessor.steps_rewindCandidate _
    · split
      · exact steps_throw _
      · refine steps_ite (fun _ => BlockHeaderProcessor.steps_rewindCandidate _) fun _ => ?_
        exact steps_bind (BlockHeaderProcessor.steps_addHeader _) fun _ => ih _ _

variable (G) in
/-- The state after `ResyncChain`. -/
structure Resynced (s t : ChainState) (headers : List BlockHeader) : Prop where
  /-- Only these parts change. -/
  eq : t = { s with
    candidate := t.candidate
    confirmed := t.confirmed
    headerMMR := t.headerMMR
    blockDB := s.blockDB.clear.commit G }
  /-- The confirmed chain is the genesis block. -/
  confirmed : t.confirmed.hashes = s.confirmed.hashes.take 1
  /-- The headers are those of the candidate chain behind the genesis block … -/
  lookup : List.Forall₂ (fun k h => s.blockDB.getBlockHeader k = some h)
    (s.candidate.hashes.tail.take headers.length) headers
  /-- … and each one is linked to the one before it. -/
  linked : ∃ genesis, (headers = [] ∨ s.getBlockHeaderByHeight 0 .candidate = some genesis) ∧
    List.IsChain (fun a b => b.previousHash = a.getHash G) (genesis :: headers)
  /-- The candidate chain ends with them. -/
  candidate : t.candidate.hashes = s.candidate.hashes.take (1 + headers.length)
  /-- The header MMR is built again from them. -/
  range : ∀ cycles, IsRangeOf G s.headerMMR.current cycles →
    IsRangeOf G t.headerMMR.current (cycles.take 1 ++ headers.map BlockHeader.cycle)
  /-- Nothing is pending. -/
  atRest : t.AtRest

theorem fails_resyncChainLocked : Fails (Same permanent) (resyncChainLocked G) := by
  refine fails_bind (steps_modifyDB fun _ => ⟨rfl, rfl⟩) fun _ => ?_
  refine fails_bind (steps_updateConfirmed fun _ _ h => (Chain.of_rewind h).2.2) fun _ => ?_
  refine fails_bind (BlockHeaderProcessor.steps_rewindHeaderMMR _) fun _ => ?_
  refine fails_bind steps_get fun s => ?_
  exact fails_bind (steps_resyncHeaders _ _ _) fun _ => (neverFails_modify _).fails

/-- **`ResyncChain`**: it stops without a change, or the candidate chain is gone through
again. -/
theorem resyncChain_cases {r : Except Exc Unit} (hs : s.AtRest)
    (h : run (resyncChain G) s = (r, t)) :
    t = t.withPoolsOf s ∨ ∃ headers, Resynced G s t headers := by
  rcases hbody : run (resyncChainLocked G) s with ⟨r', u⟩
  have hbatch : (r', u.rollback) = (r, t) := by
    rw [← h, resyncChain, batch, run_ofRun, hbody]
  cases hbatch
  cases r with
  | error e =>
    left
    rw [rollback_eq hs (fails_resyncChainLocked _ _ _ hbody)]
    rfl
  | ok a =>
    right
    obtain ⟨_, s1, h1, hrest⟩ := of_run_bind_ok hbody
    obtain ⟨_, s2, h2, hrest⟩ := of_run_bind_ok hrest
    obtain ⟨_, s3, h3, hrest⟩ := of_run_bind_ok hrest
    rw [run_bind_ok (run_get s3)] at hrest
    obtain ⟨_, s5, h5, hcommit⟩ := of_run_bind_ok hrest
    obtain rfl := BlockHeaderProcessor.of_run_modifyDB h1
    obtain ⟨c, hc, h2⟩ := of_bind_eq_ok (of_run_update_ok h2)
    cases h2
    obtain ⟨m, hm, rfl⟩ := BlockHeaderProcessor.of_run_updateHeaderMMR h3
    cases hcommit
    have hlookup : ∀ k, s.blockDB.clear.getBlockHeader k = s.blockDB.getBlockHeader k :=
      fun k => BlockDB.getBlockHeader_writeTables _ rfl k
    obtain ⟨headers, hrel⟩ := of_run_resyncHeaders one_pos (by
      have := List.length_pos_iff.mpr s.candidate.hashes_ne_nil
      rw [List.length_tail]
      dsimp only
      omega) h5
    obtain ⟨-, hhashes, -⟩ := Chain.of_rewind hc
    have hu := hrel.eq
    have hroll := rollback_commit_eq (G := G) (u := s5) hs (by rw [hu])
    refine ⟨headers, ?_, ?_, ?_, ?_, ?_, ?_, rollback_atRest _⟩
    · rw [hroll, hu]
    · rw [hroll, Chain.hashes, Batch.commit_current, hu]
      exact hhashes
    · exact hrel.lookup.imp fun k a hk => (hlookup k).symm.trans hk
    · obtain ⟨p, hp, hchain⟩ := hrel.linked
      refine ⟨p, hp.imp id fun h0 => ?_, hchain⟩
      rw [← h0, getBlockHeaderByHeight, getBlockHeaderByHeight]
      exact congrArg _ (funext hlookup).symm
    · rw [hroll, Chain.hashes, Batch.commit_current]
      exact hrel.candidate
    · intro cycles hcycles
      rw [hroll, Batch.commit_current]
      exact hrel.range _ (HeaderMMR.isRangeOf_of_rewind hcycles hm).2

end ChainResyncer

end GrinPlusPlus
