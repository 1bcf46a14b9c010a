import GrinPlusPlus.BlockChain.HeaderSpec
import GrinPlusPlus.BlockChain.SmallChain

/-!
# The header MMR mirrors the candidate chain

Runs of header calls from the genesis block (`GrinPlusPlus.HeaderCall.runAll`), and the
invariant that ties the header MMR to the candidate chain. The two are rewound by different
arguments, rolled back independently and committed in a third place, so the invariant is
kept on the *hashes*: every hash of the candidate chain belongs to a cycle
(`GrinPlusPlus.CycleOf`), and the header MMR is the range of these cycles in the same order
(`GrinPlusPlus.Mirror`).

A hash has one cycle only when the hash function is injective. This is where the hypothesis
`GrinPlusPlus.Global.InjectiveOnBytes` enters: of two headers with the same hash the database
keeps the one that came last.
-/

namespace GrinPlusPlus

open Exec MMRHashUtil

/-! ### Runs of header calls -/

/-- A call that changes the candidate chain, with the time at which it is made. -/
inductive HeaderCall
  | single (now : ℤ) (header : BlockHeader)
  | sync (now : ℤ) (headers : List BlockHeader)
  | resync

namespace HeaderCall

variable (G : Global)

/-- The state after a call, whether it returned or threw. -/
def perform (s : ChainState) : HeaderCall → ChainState
  | single now header => (run (BlockHeaderProcessor.processSingleHeader G now header) s).2
  | sync now headers => (run (BlockHeaderProcessor.processSyncHeaders G now headers) s).2
  | resync => (run (ChainResyncer.resyncChain G) s).2

/-- The state after a sequence of calls. -/
def runAll (calls : List HeaderCall) (s : ChainState) : ChainState :=
  calls.foldl (perform G) s

/-- **The rule for runs**: what every call keeps, a run keeps. -/
theorem runAll_induction {G : Global} {P : ChainState → Prop} {calls : List HeaderCall}
    (hstep : ∀ call ∈ calls, ∀ s, P s → P (perform G s call)) {s : ChainState} (hs : P s) :
    P (runAll G calls s) := by
  induction calls generalizing s with
  | nil => exact hs
  | cons call calls ih =>
    refine ih (fun c hc => hstep c (List.mem_cons_of_mem _ hc)) ?_
    exact hstep call (List.mem_cons_self ..) s hs

end HeaderCall

/-! ### The invariant -/

variable {G : Global} {s t : ChainState}

variable (G) in
/-- The hash is the hash of a header with this cycle. -/
def CycleOf (hash : Hash) (cycle : List UInt8) : Prop :=
  ∃ h : BlockHeader, h.getHash G = hash ∧ h.cycle = cycle

theorem CycleOf.unique (hG : G.InjectiveOnBytes) {k : Hash} {a b : List UInt8}
    (ha : CycleOf G k a) (hb : CycleOf G k b) : a = b := by
  obtain ⟨h, rfl, rfl⟩ := ha
  obtain ⟨h', hh, rfl⟩ := hb
  rw [BlockHeader.cycle, BlockHeader.cycle, BlockHeader.proofOfWork_eq_of_getHash_eq hG hh]

variable (G) in
/-- The header MMR is the range of the cycles of the candidate chain. -/
structure Mirror (s : ChainState) : Prop where
  /-- Nothing is pending. -/
  atRest : s.AtRest
  /-- Every stored header has the cycle of its hash. -/
  headers : s.blockDB.AllHeaders fun k h => CycleOf G k h.cycle
  /-- Every header of the candidate chain is stored. -/
  stored : ∀ k ∈ s.candidate.hashes, (s.blockDB.tables.current.header k).isSome = true
  /-- The header MMR has the cycles of the candidate chain. -/
  range : ∃ cycles, IsRangeOf G s.headerMMR.current cycles ∧
    List.Forall₂ (CycleOf G) s.candidate.hashes cycles

/-- The pools do not matter. -/
theorem Mirror.of_pools (h : Mirror G s) (ht : t = t.withPoolsOf s) : Mirror G t := by
  rw [ht]
  exact ⟨⟨h.atRest.1, h.atRest.2, h.atRest.3, h.atRest.4, h.atRest.5⟩, h.headers, h.stored, h.range⟩

theorem forall₂_cycleOf_map (headers : List BlockHeader) :
    List.Forall₂ (CycleOf G) (headers.map (BlockHeader.getHash G))
      (headers.map BlockHeader.cycle) := by
  rw [List.forall₂_map_left_iff, List.forall₂_map_right_iff]
  exact List.forall₂_same.mpr fun h _ => ⟨h, rfl, rfl⟩

theorem mirror_of_created (h : ChainState.Created G s) : Mirror G s where
  atRest := h.atRest
  headers := by
    refine ⟨fun k a hk => ?_, fun k a hk => ?_⟩
    · rw [h.table] at hk
      by_cases heq : k = G.genesisBlock.header.getHash G
      · rw [heq, Function.update_self] at hk
        cases hk
        exact ⟨G.genesisBlock.header, heq.symm, (BlockHeader.cycle_reload _).symm⟩
      · rw [Function.update_of_ne heq] at hk
        cases hk
    · rw [h.cache, List.mem_singleton, Prod.mk.injEq] at hk
      exact ⟨a, hk.2 ▸ hk.1.symm, rfl⟩
  stored := by
    intro k hk
    rw [h.candidate, List.mem_singleton] at hk
    rw [h.table, hk, Function.update_self]
    rfl
  range := by
    refine ⟨_, h.range, ?_⟩
    rw [h.candidate]
    exact .cons ⟨_, rfl, rfl⟩ .nil

/-- **Adopting headers keeps the mirror**, whether they win or not. -/
theorem Mirror.headerStep {n : ℕ} {previous : BlockHeader} {headers : List BlockHeader}
    (h : Mirror G s) (hstep : BlockHeaderProcessor.HeaderStep G s t n previous headers) :
    Mirror G t := by
  have hdb : t.blockDB = (s.blockDB.addBlockHeaders G headers).commit G := by rw [hstep.eq]
  have hstored : ∀ k, k ∈ s.candidate.hashes ∨ k ∈ headers.map (BlockHeader.getHash G) →
      (t.blockDB.tables.current.header k).isSome = true := by
    intro k hk
    rw [hdb, BlockDB.commit, Batch.commit_current]
    refine BlockDB.isSome_header_addBlockHeaders (hk.imp (h.stored k) fun hmem => ?_)
    exact List.mem_map.mp hmem
  refine ⟨hstep.atRest, ?_, ?_, ?_⟩
  · rw [hdb]
    refine h.headers.commit_addBlockHeaders h.atRest.blockDB.2 fun a _ => ?_
    exact ⟨⟨a, rfl, rfl⟩, ⟨a, rfl, (BlockHeader.cycle_reload a).symm⟩⟩
  · intro k hk
    rcases hstep.outcome with ⟨-, hcand, -⟩ | ⟨-, hhashes, -⟩
    · exact hstored k (.inl (hcand ▸ hk))
    · rw [hhashes, List.mem_append] at hk
      exact hstored k (hk.imp List.mem_of_mem_take id)
  · obtain ⟨cycles, hrange, hcycles⟩ := h.range
    rcases hstep.outcome with ⟨-, hcand, hmmr⟩ | ⟨-, hhashes, hnew⟩
    · exact ⟨cycles, hmmr ▸ hrange, hcand ▸ hcycles⟩
    · refine ⟨_, hnew cycles hrange hcycles.length_eq.symm, ?_⟩
      rw [hhashes]
      exact List.rel_append (List.forall₂_take n hcycles) (forall₂_cycleOf_map headers)

/-- **A resynchronisation keeps the mirror.** -/
theorem Mirror.resynced {headers : List BlockHeader} (h : Mirror G s)
    (hstep : ChainResyncer.Resynced G s t headers) : Mirror G t := by
  have hdb : t.blockDB = s.blockDB.clear.commit G := by rw [hstep.eq]
  refine ⟨hstep.atRest, ?_, ?_, ?_⟩
  · rw [hdb]
    exact h.headers.commit_writeTables h.atRest.blockDB.2 rfl
  · intro k hk
    rw [hstep.candidate] at hk
    rw [hdb, BlockDB.commit, Batch.commit_current]
    exact h.stored k (List.mem_of_mem_take hk)
  · obtain ⟨cycles, hrange, hcycles⟩ := h.range
    refine ⟨_, hstep.range cycles hrange, ?_⟩
    have hsplit : s.candidate.hashes.take (1 + headers.length) =
        s.candidate.hashes.take 1 ++ s.candidate.hashes.tail.take headers.length := by
      rw [List.take_add, List.drop_one]
    rw [hstep.candidate, hsplit]
    refine List.rel_append (List.forall₂_take 1 hcycles) ?_
    rw [List.forall₂_map_right_iff]
    exact hstep.lookup.imp fun k a hk => h.headers.of_getBlockHeader hk

theorem Mirror.perform (h : Mirror G s) (call : HeaderCall) :
    Mirror G (call.perform G s) := by
  cases call with
  | single now header =>
    rcases BlockHeaderProcessor.processSingleHeader_cases h.atRest rfl with
      hpools | ⟨-, n, previous, headers, hstep, -⟩
    · exact h.of_pools hpools
    · exact h.headerStep hstep
  | sync now headers =>
    refine BlockHeaderProcessor.processSyncHeaders_induction (fun chunk _ u hu => ?_) h
    rcases BlockHeaderProcessor.processChunkedSyncHeaders_cases hu.atRest rfl with
      hpools | ⟨-, n, previous, headers, hstep, -⟩
    · exact hu.of_pools hpools
    · exact hu.headerStep hstep
  | resync =>
    rcases ChainResyncer.resyncChain_cases h.atRest rfl with hpools | ⟨headers, hstep⟩
    · exact h.of_pools hpools
    · exact h.resynced hstep

/-! ### What the mirror says -/

variable (G) in
/-- The header MMR has exactly the leaves of the candidate chain, which are the hashes of the
cycles of the stored headers, and its root at a height is the one over the headers up to
there. The number of leaves has 64 bits in the source. -/
structure HeaderMMRMirrors (s : ChainState) (headers : List BlockHeader) : Prop where
  /-- There is a header for every height up to the tip … -/
  length_eq : headers.length = s.candidate.getHeight + 1
  /-- … the one that is stored … -/
  stored : ∀ i, s.getBlockHeaderByHeight i .candidate = headers[i]?
  /-- … and the file is the range of their cycles. -/
  range : IsRangeOf G s.headerMMR.current (headers.map BlockHeader.cycle)
  /-- The root at a height is the root of the range of the headers up to there. -/
  root : ∀ i ≤ s.candidate.getHeight, i + 1 < 2 ^ 64 → ∃ r, s.headerMMR.root G i = .ok r ∧
    ∀ file, IsRangeOf G file ((headers.take (i + 1)).map BlockHeader.cycle) →
      MMRHashUtil.root G file file.length none = .ok r

theorem Mirror.exists_headers (h : Mirror G s) :
    ∃ headers, List.Forall₂ (fun k a => s.blockDB.getBlockHeader k = some a)
      s.candidate.hashes headers := by
  have key : ∀ hashes : List Hash,
      (∀ k ∈ hashes, (s.blockDB.tables.current.header k).isSome = true) →
      ∃ headers, List.Forall₂ (fun k a => s.blockDB.getBlockHeader k = some a) hashes headers := by
    intro hashes
    induction hashes with
    | nil => exact fun _ => ⟨[], .nil⟩
    | cons k hashes ih =>
      intro hall
      obtain ⟨headers, hh⟩ := ih fun a ha => hall a (List.mem_cons_of_mem k ha)
      obtain ⟨a, ha⟩ := Option.isSome_iff_exists.mp
        (BlockDB.isSome_getBlockHeader (hall k (List.mem_cons_self ..)))
      exact ⟨a :: headers, .cons ha hh⟩
  exact key _ h.stored

/-- The cycles of the stored headers are the cycles of the range. -/
theorem map_cycle_eq (hG : G.InjectiveOnBytes)
    (hdb : s.blockDB.AllHeaders fun k h => CycleOf G k h.cycle) {hashes : List Hash}
    {headers : List BlockHeader} {cycles : List (List UInt8)}
    (hheaders : List.Forall₂ (fun k a => s.blockDB.getBlockHeader k = some a) hashes headers)
    (hcycles : List.Forall₂ (CycleOf G) hashes cycles) :
    headers.map BlockHeader.cycle = cycles := by
  induction hheaders generalizing cycles with
  | nil =>
    cases hcycles
    rfl
  | cons hk _ ih =>
    cases hcycles with
    | cons hc hcs => rw [List.map_cons, ih hcs, (hdb.of_getBlockHeader hk).unique hG hc]

/-- The header at a height. -/
theorem getBlockHeaderByHeight_eq {chainType : EChainType} {headers : List BlockHeader}
    (h : List.Forall₂ (fun k a => s.blockDB.getBlockHeader k = some a)
      (s.getChain chainType).hashes headers) (i : ℕ) :
    s.getBlockHeaderByHeight i chainType = headers[i]? := by
  rw [ChainState.getBlockHeaderByHeight, Chain.getByHeight]
  rcases hi : headers[i]? with _ | a
  · rw [List.getElem?_eq_none_iff, ← h.length_eq] at hi
    rw [List.getElem?_eq_none hi]
    rfl
  · obtain ⟨hlt, ha⟩ := List.getElem?_eq_some_iff.mp hi
    have hlt' : i < (s.getChain chainType).hashes.length := h.length_eq ▸ hlt
    rw [List.getElem?_eq_getElem hlt', Option.bind_some]
    have hget := h.get hlt' hlt
    rw [List.get_eq_getElem, List.get_eq_getElem, ha] at hget
    exact hget

theorem Mirror.headerMMRMirrors (hG : G.InjectiveOnBytes) (h : Mirror G s) :
    ∃ headers, HeaderMMRMirrors G s headers := by
  obtain ⟨headers, hheaders⟩ := h.exists_headers
  obtain ⟨cycles, hrange, hcycles⟩ := h.range
  have hmap := map_cycle_eq hG h.headers hheaders hcycles
  have hlen : headers.length = s.candidate.getHeight + 1 := by
    rw [← hheaders.length_eq, Chain.length_hashes]
  subst hmap
  refine ⟨headers, hlen, getBlockHeaderByHeight_eq hheaders, hrange, fun i hi h64 => ?_⟩
  obtain ⟨r, hr, hall⟩ := HeaderMMR.root_eq hrange (by rw [List.length_map]; omega) h64
  refine ⟨r, hr, fun file hfile => hall file ?_⟩
  rwa [← List.map_take]

/-- **The header MMR mirrors the candidate chain** after every sequence of header calls from
the genesis block: single headers, lists of headers and resynchronisations, whether they
succeed, lose or throw. -/
theorem headerMMRMirrors_runAll (hG : G.InjectiveOnBytes) {s₀ : ChainState}
    (h₀ : ChainState.create G = .ok s₀) (calls : List HeaderCall) :
    ∃ headers, HeaderMMRMirrors G (HeaderCall.runAll G calls s₀) headers := by
  have hinit : Mirror G s₀ := mirror_of_created (ChainState.created_of_create h₀)
  have hrun : Mirror G (HeaderCall.runAll G calls s₀) :=
    HeaderCall.runAll_induction (fun call _ _ hs => hs.perform call) hinit
  exact hrun.headerMMRMirrors hG

/-- On the small network, with a header, the same header again and a resynchronisation. -/
theorem headerMMRMirrors_smallNet :
    ∃ headers, HeaderMMRMirrors SmallNet.testNet
      (HeaderCall.runAll SmallNet.testNet
        [.single 0 SmallNet.genesisHeader, .sync 0 [SmallNet.genesisHeader], .resync]
        SmallNet.genesis) headers :=
  headerMMRMirrors_runAll (SmallNet.injectiveOnBytes _) SmallNet.create_eq _

end GrinPlusPlus
