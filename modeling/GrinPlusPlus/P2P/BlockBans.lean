import GrinPlusPlus.BlockChain.SmallChain
import GrinPlusPlus.BlockChain.ValidBlocks

/-!
# Who is banned for a block

A block that a peer sends is processed at once, or waits in the queue of the block pipe while
blocks are synchronised. Either way `BlockProcessor::ProcessBlock` runs in four parts, and between
them other threads may change the chain. An exception of any part falls on the sender: on the live
path when it is a `BadDataException`, in the pipe whatever it is
(`GrinPlusPlus.BlockPath.reason`).

A ban is *just* when the block of the ban breaks a rule, and is no valid block of a chain from
genesis (`GrinPlusPlus.JustBans`). All bans are, in runs in which each part finds the ancestors of
its block in place and the node ready for it (`GrinPlusPlus.InOrder`).
-/

namespace GrinPlusPlus

open Exec

/-! ### The parts of `ProcessBlock` -/

/-- The parts of `BlockProcessor::ProcessBlock`; each is one critical section at most. -/
inductive BlockPart
  | horizon
  | header
  | selfConsistent
  | body
deriving DecidableEq

namespace BlockProcessor

variable (G : Global) (now : ℤ)

/-- The first check of `BlockProcessor::ProcessBlock`. -/
def checkHorizon (block : FullBlock) : Exec Exc ChainState Unit := do
  let s ← get
  if block.getHeight ≤ Consensus.getHorizonHeight s.candidate.getHeight then
    throw (.badData .badBlock "Can't process blocks beyond horizon.")
  else pure ()

/-- One part, and the next one or the status. -/
def runPart (block : FullBlock) : BlockPart → Exec Exc ChainState (BlockPart ⊕ EBlockChainStatus)
  | .horizon => do
    checkHorizon block
    pure (.inl .header)
  | .header => do
    let _ ← BlockHeaderProcessor.processSingleHeader G now block.header
    pure (.inl .selfConsistent)
  | .selfConsistent => do
    Exec.ofExcept (BlockValidator.verifySelfConsistent G block)
    pure (.inl .body)
  | .body => do
    let status ← processBlockInternal G block
    pure (.inr status)

/-- Part after part, from one on. -/
def runParts (block : FullBlock) : ℕ → BlockPart → Exec Exc ChainState EBlockChainStatus
  | 0, _ => throw .hang
  | rounds + 1, part => do
    let next ← runPart G now block part
    match next with
    | .inl part => runParts block rounds part
    | .inr status => pure status

/-- **The parts are `ProcessBlock`**, when nothing comes between them. -/
theorem run_runParts (block : FullBlock) (s : ChainState) :
    run (runParts G now block 4 .horizon) s = run (processBlock G now block) s := by
  simp only [runParts, runPart, checkHorizon, processBlock, bind_assoc, pure_bind, bind_pure]
  rw [run_bind_ok (run_get s), run_bind_ok (run_get s)]
  split
  · rfl
  · rfl

end BlockProcessor

/-! ### Bans -/

/-- How a block is handled: at once, by `MessageProcessor`, or by the block pipe. -/
inductive BlockPath
  | live
  | pipe
deriving DecidableEq

/-- Why the sender is banned, when a part of the processing ends: `MessageProcessor` bans for a
`BadDataException`, `BlockPipe::ProcessNewBlock` for every exception and for an invalid block. -/
def BlockPath.reason : BlockPath → Except Exc (BlockPart ⊕ EBlockChainStatus) → Option EBanReason
  | .live, .error (.badData reason _) => some reason
  | .live, _ => none
  | .pipe, .error e => if e.Thrown then some .badBlock else none
  | .pipe, .ok (.inr .invalid) => some .badBlock
  | .pipe, .ok _ => none

/-- A block that is being processed. -/
structure Handling (P : Type) where
  /-- Who sent it. -/
  peer : P
  /-- How it is handled. -/
  path : BlockPath
  /-- The block. -/
  block : FullBlock
  /-- The part that is next. -/
  part : BlockPart

/-- A ban, and what led to it. -/
structure BlockBan (P : Type) where
  /-- Who is banned. -/
  peer : P
  /-- The reason that is given. -/
  reason : EBanReason
  /-- The block. -/
  block : FullBlock
  /-- The time. -/
  now : ℤ
  /-- The chain in front of the part that failed. -/
  chain : ChainState

/-- The node, as far as the blocks of its peers are concerned. -/
structure BlockNode (P : Type) where
  /-- The chain. -/
  chain : ChainState
  /-- `m_blocksToProcess` of the block pipe. -/
  queue : List (P × FullBlock)
  /-- The blocks that are being processed. -/
  handling : List (Handling P)
  /-- All bans so far. -/
  bans : List (BlockBan P)

/-- What the node does: a block message comes in, the pipe takes the next block, the processing of
a block goes on by a part, or something else changes the chain. -/
inductive BlockAction (P : Type)
  | receive (peer : P) (path : BlockPath) (block : FullBlock)
  | pop
  | advance (now : ℤ) (i : ℕ)
  | other (chain : ChainState)

/-! ### The queue -/

/-- The place and the value of the best entry that a predicate holds of, the first one of equals:
the loop of `ConcurrentQueue::pop_best_if`. -/
def bestIndex {α : Type} (predicate : α → Bool) (comparator : α → α → Bool) (l : List α) :
    Option (ℕ × α) :=
  l.zipIdx.foldl (fun best p =>
    if predicate p.1 && best.all (fun b => comparator p.1 b.2) then some (p.2, p.1) else best) none

/-- `ConcurrentQueue::pop_best_if`. -/
def popBestIf {α : Type} (predicate : α → Bool) (comparator : α → α → Bool) (l : List α) :
    Option (α × List α) :=
  (bestIndex predicate comparator l).map fun p => (p.2, l.eraseIdx p.1)

theorem mem_of_bestIndex {α : Type} {predicate : α → Bool} {comparator : α → α → Bool}
    {l : List α} {p : ℕ × α} (h : bestIndex predicate comparator l = some p) : p.2 ∈ l := by
  have key : ∀ (rest : List (α × ℕ)) (best : Option (ℕ × α)), (∀ q ∈ rest, q.1 ∈ l) →
      (∀ q ∈ best, q.2 ∈ l) →
      ∀ q ∈ rest.foldl (fun best p =>
        if predicate p.1 && best.all (fun b => comparator p.1 b.2) then some (p.2, p.1)
        else best) best, q.2 ∈ l := by
    intro rest
    induction rest with
    | nil => exact fun best _ hbest => hbest
    | cons x rest ih =>
      intro best hrest hbest
      refine ih _ (fun q hq => hrest q (List.mem_cons_of_mem x hq)) ?_
      dsimp only
      split
      · rintro q ⟨⟩
        exact hrest x List.mem_cons_self
      · exact hbest
  exact key l.zipIdx none (fun q hq => List.fst_mem_of_mem_zipIdx hq) (by rintro q ⟨⟩) p h

theorem mem_of_popBestIf {α : Type} {predicate : α → Bool} {comparator : α → α → Bool}
    {l rest : List α} {a : α} (h : popBestIf predicate comparator l = some (a, rest)) :
    a ∈ l ∧ rest ⊆ l := by
  rw [popBestIf, Option.map_eq_some_iff] at h
  obtain ⟨p, hp, h⟩ := h
  obtain ⟨rfl, rfl⟩ := Prod.mk.inj h
  exact ⟨mem_of_bestIndex hp, List.eraseIdx_subset⟩

/-! ### The steps -/

namespace BlockNode

variable {P : Type} (G : Global)

/-- The test in `BlockPipe::AddBlockToProcess`: `BlockChain::HasBlock` or
`BlockChain::HasOrphan`. -/
def hasBlockOrOrphan (s : ChainState) (block : FullBlock) : Bool :=
  s.confirmed.isOnChain block.getHeight (block.getHash G) ||
    match s.blockDB.getBlockHeader (block.getHash G) with
    | none => false
    | some header => (s.orphanPool.getOrphanBlock G header.getHeight (block.getHash G)).isSome

/-- A block message: `MessageProcessor`, which queues the block while blocks are synchronised. -/
def receive (peer : P) (path : BlockPath) (block : FullBlock) (n : BlockNode P) : BlockNode P :=
  match path with
  | .live => { n with handling := n.handling ++ [⟨peer, .live, block, .horizon⟩] }
  | .pipe =>
    if hasBlockOrOrphan G n.chain block ||
        n.queue.any (fun entry => decide (entry.2.getHash G = block.getHash G)) then n
    else { n with queue := n.queue ++ [(peer, block)] }

/-- A round of `BlockPipe::Thread_ProcessNewBlocks`, which processes one block at a time. -/
def pop (n : BlockNode P) : BlockNode P :=
  if n.handling.any (fun h => decide (h.path = .pipe)) then n
  else
    match popBestIf (fun entry => decide (entry.2.getHeight ≤ n.chain.confirmed.getHeight + 1))
      (fun a b => decide (a.2.getHeight < b.2.getHeight)) n.queue with
    | none => n
    | some (entry, queue) =>
      { n with
        queue := queue
        handling := n.handling ++ [⟨entry.1, .pipe, entry.2, .horizon⟩] }

/-- The processing of a block goes on by one part. -/
def advance (now : ℤ) (i : ℕ) (n : BlockNode P) : BlockNode P :=
  match n.handling[i]? with
  | none => n
  | some h =>
    let r := run (BlockProcessor.runPart G now h.block h.part) n.chain
    { n with
      chain := r.2
      handling :=
        match r.1 with
        | .ok (.inl part) => n.handling.set i { h with part := part }
        | _ => n.handling.eraseIdx i
      bans :=
        match h.path.reason r.1 with
        | some reason => n.bans ++ [⟨h.peer, reason, h.block, now, n.chain⟩]
        | none => n.bans }

/-- One step. -/
def step (n : BlockNode P) : BlockAction P → BlockNode P
  | .receive peer path block => n.receive G peer path block
  | .pop => n.pop
  | .advance now i => n.advance G now i
  | .other chain => { n with chain := chain }

/-- A run. -/
def runAll (actions : List (BlockAction P)) (n : BlockNode P) : BlockNode P :=
  actions.foldl (step G) n

/-- A node that has not received anything yet. -/
def ofChain (s : ChainState) : BlockNode P := ⟨s, [], [], []⟩

end BlockNode

/-! ### Just bans -/

section

variable {P : Type} (G : Global)

/-- **The block breaks a rule**: its header is refused, or it is inconsistent in itself, or it is
refused, behind the ancestors that are in place. -/
def Violates (now : ℤ) (s : ChainState) (block : FullBlock) : Prop :=
  BlockHeaderProcessor.Refused G now s block.header ∨
    (∃ e, BlockValidator.verifySelfConsistent G block = .error e) ∨
    BlockProcessor.Refused G s block

/-- **Peers are banned for their own blocks only**: a peer that is banned sent the block of the
ban, the block breaks a rule, and it is no valid block of a chain from genesis. -/
def JustBans (actions : List (BlockAction P)) (n : BlockNode P) : Prop :=
  ∀ ban ∈ n.bans, (∃ path, BlockAction.receive ban.peer path ban.block ∈ actions) ∧
    Violates G ban.now ban.chain ban.block ∧ ¬ValidBlock G ban.now ban.block

/-- The condition on a part. -/
def PartInOrder (now : ℤ) (s : ChainState) (block : FullBlock) : BlockPart → Prop
  | .horizon => Consensus.getHorizonHeight s.candidate.getHeight < block.getHeight
  | .header =>
    BlockHeaderProcessor.Ordered G s ∧ BlockHeaderProcessor.Placeable G now s block.header ∧
      BlockHeaderProcessor.OwnAncestors G now s block
  | .selfConsistent => True
  | .body =>
    BlockProcessor.Placeable G s block ∧
      (∀ u, run (BlockProcessor.placeAncestors G block) s = (.ok true, u) →
        BlockProcessor.Ready G u block) ∧
      BlockProcessor.OwnAncestors G now s block

/-- **The condition on a step.** -/
def InOrder (n : BlockNode P) : BlockAction P → Prop
  | .advance now i => ∀ h, n.handling[i]? = some h → PartInOrder G now n.chain h.block h.part
  | _ => True

/-- Every step of a run meets the condition. -/
def AllInOrder : List (BlockAction P) → BlockNode P → Prop
  | [], _ => True
  | action :: actions, n => InOrder G n action ∧ AllInOrder actions (n.step G action)

end

/-! ### A part that fails -/

variable {P : Type} {G : Global} {now : ℤ} {s t : ChainState} {block : FullBlock}

/-- Whoever is banned is banned for an exception, or for an invalid block in the pipe. -/
theorem of_reason {path : BlockPath} {r : Except Exc (BlockPart ⊕ EBlockChainStatus)}
    {reason : EBanReason} (h : path.reason r = some reason) :
    (∃ e, r = .error e ∧ e.Thrown) ∨ r = .ok (.inr .invalid) := by
  unfold BlockPath.reason at h
  split at h
  · exact .inl ⟨_, rfl, by constructor <;> rintro ⟨⟩⟩
  · cases h
  · split at h
    · next hthrown => exact .inl ⟨_, rfl, hthrown⟩
    · cases h
  · exact .inr rfl
  · cases h

/-- `ProcessBlockInternal` does not call a block invalid: it throws. -/
theorem status_ne_invalid {status : EBlockChainStatus}
    (h : run (BlockProcessor.processBlockInternal G block) s = (.ok status, t)) :
    status ≠ .invalid := by
  rcases hbody : run (BlockProcessor.processBlockLocked G block) s with ⟨r, w⟩
  have hbatch : (r, w.rollback) = (.ok status, t) := by
    rw [← h, BlockProcessor.processBlockInternal, ChainState.batch, run_ofRun, hbody]
  obtain ⟨rfl, -⟩ := Prod.mk.inj hbatch
  rw [BlockProcessor.processBlockLocked, run_bind_ok (run_get s)] at hbody
  split at hbody
  · cases hbody
    decide
  split at hbody
  · cases hbody
    decide
  · obtain ⟨info, u, -, hbody⟩ := of_run_bind_ok hbody
    cases info with
    | orphan =>
      dsimp only at hbody
      split at hbody
      · cases hbody
        decide
      · cases hbody
        decide
    | reorg blocks =>
      obtain ⟨_, _, -, hbody⟩ := of_run_bind_ok hbody
      cases hbody
      decide
    | nextBlock =>
      obtain ⟨_, _, -, hbody⟩ := of_run_bind_ok hbody
      cases hbody
      decide

/-- **A part for which somebody is banned**: under the condition the block is to blame. -/
theorem violates_of_reason {path : BlockPath} {part : BlockPart} {reason : EBanReason}
    (hpos : part = .horizon ∨ 0 < block.getHeight) (horder : PartInOrder G now s block part)
    (h : path.reason (run (BlockProcessor.runPart G now block part) s).1 = some reason) :
    Violates G now s block ∧ ¬ValidBlock G now block := by
  rcases hrun : run (BlockProcessor.runPart G now block part) s with ⟨r, t⟩
  rw [hrun] at h
  rcases of_reason h with ⟨e, rfl, he⟩ | hr
  · cases part with
    | horizon =>
      -- The block is not beyond the horizon.
      rw [BlockProcessor.runPart, BlockProcessor.checkHorizon, bind_assoc,
        run_bind_ok (run_get s), if_neg (Nat.not_le.mpr horder)] at hrun
      cases hrun
    | header =>
      obtain ⟨hordered, hplace, hown⟩ := horder
      have hheader : 0 < block.header.getHeight := hpos.resolve_left (by decide)
      rcases of_run_bind_error hrun with hfail | ⟨_, _, -, hfail⟩
      · have hrefused :=
          BlockHeaderProcessor.refused_of_error hordered hheader hplace hfail he
        exact ⟨.inl hrefused, BlockHeaderProcessor.not_validBlock_of_refused hown hrefused⟩
      · cases hfail
    | selfConsistent =>
      rcases of_run_bind_error hrun with hfail | ⟨_, _, -, hfail⟩
      · rw [run_ofExcept, Prod.mk.injEq] at hfail
        refine ⟨.inr (.inl ⟨e, hfail.1⟩), ?_⟩
        rintro ⟨blocks, v, -, hvalid⟩
        rw [hvalid.selfConsistent] at hfail
        cases hfail.1
      · cases hfail
    | body =>
      obtain ⟨hplace, hready, hown⟩ := horder
      rcases of_run_bind_error hrun with hfail | ⟨_, _, -, hfail⟩
      · have hrefused := BlockProcessor.refused_of_error hplace hready hfail
        exact ⟨.inr (.inr hrefused), BlockProcessor.not_validBlock_of_refused hown hrefused⟩
      · cases hfail
  · -- Only the last part returns a status.
    dsimp only at hr
    subst hr
    exfalso
    cases part with
    | horizon =>
      obtain ⟨_, _, -, hend⟩ := of_run_bind_ok hrun
      cases hend
    | header =>
      obtain ⟨_, _, -, hend⟩ := of_run_bind_ok hrun
      cases hend
    | selfConsistent =>
      obtain ⟨_, _, -, hend⟩ := of_run_bind_ok hrun
      cases hend
    | body =>
      obtain ⟨status, u, hstatus, hend⟩ := of_run_bind_ok hrun
      obtain ⟨hend, -⟩ := Prod.mk.inj hend
      exact status_ne_invalid hstatus (Sum.inr.inj (Except.ok.inj hend))

/-- Only a block that is not the genesis block gets past the horizon. -/
theorem pos_of_runPart_horizon {next : BlockPart ⊕ EBlockChainStatus}
    (h : (run (BlockProcessor.runPart G now block .horizon) s).1 = .ok next) :
    0 < block.getHeight := by
  by_contra hzero
  have hle : block.getHeight ≤ Consensus.getHorizonHeight s.candidate.getHeight := by omega
  rw [BlockProcessor.runPart, BlockProcessor.checkHorizon, bind_assoc, run_bind_ok (run_get s),
    if_pos hle] at h
  cases h

/-! ### Runs -/

/-- A peer sent a block. -/
def Sent (actions : List (BlockAction P)) (peer : P) (block : FullBlock) : Prop :=
  ∃ path, BlockAction.receive peer path block ∈ actions

/-- Whatever the node has to do with a block, it knows who sent it. -/
structure Tracked (actions : List (BlockAction P)) (n : BlockNode P) : Prop where
  /-- The blocks that wait … -/
  queue : ∀ p ∈ n.queue, Sent actions p.1 p.2
  /-- … those that are processed … -/
  handling : ∀ h ∈ n.handling, Sent actions h.peer h.block
  /-- … which have got past the horizon when they are in a later part … -/
  started : ∀ h ∈ n.handling, h.part = .horizon ∨ 0 < h.block.getHeight
  /-- … and those of the bans. -/
  bans : ∀ ban ∈ n.bans, Sent actions ban.peer ban.block

namespace Tracked

variable {actions : List (BlockAction P)} {n : BlockNode P}

theorem ofChain (s : ChainState) : Tracked actions (BlockNode.ofChain s) where
  queue := by rintro p ⟨⟩
  handling := by rintro h ⟨⟩
  started := by rintro h ⟨⟩
  bans := by rintro ban ⟨⟩

/-- A block that is begun. -/
theorem begin {peer : P} {path : BlockPath} (h : Tracked actions n)
    (hsent : Sent actions peer block) {queue : List (P × FullBlock)} (hqueue : queue ⊆ n.queue) :
    Tracked actions { n with
      queue := queue
      handling := n.handling ++ [⟨peer, path, block, .horizon⟩] } where
  queue p hp := h.queue p (hqueue hp)
  handling := by
    intro g hg
    rcases List.mem_append.mp hg with hg | hg
    · exact h.handling g hg
    · rw [List.mem_singleton] at hg
      subst hg
      exact hsent
  started := by
    intro g hg
    rcases List.mem_append.mp hg with hg | hg
    · exact h.started g hg
    · rw [List.mem_singleton] at hg
      subst hg
      exact .inl rfl
  bans := h.bans

theorem receive (h : Tracked actions n) {peer : P} {path : BlockPath}
    (hsent : Sent actions peer block) : Tracked actions (n.receive G peer path block) := by
  cases path with
  | live => exact h.begin hsent (List.Subset.refl _)
  | pipe =>
    rw [BlockNode.receive]
    split
    · exact h
    · refine ⟨?_, h.handling, h.started, h.bans⟩
      intro p hp
      rcases List.mem_append.mp hp with hp | hp
      · exact h.queue p hp
      · rw [List.mem_singleton] at hp
        subst hp
        exact hsent

theorem pop (h : Tracked actions n) : Tracked actions n.pop := by
  rw [BlockNode.pop]
  split
  · exact h
  · split
    · exact h
    · next entry queue hpop =>
      obtain ⟨hentry, hqueue⟩ := mem_of_popBestIf hpop
      exact h.begin (h.queue entry hentry) hqueue

theorem advance (h : Tracked actions n) (now : ℤ) (i : ℕ) :
    Tracked actions (n.advance G now i) := by
  rw [BlockNode.advance]
  split
  · exact h
  next g hg =>
    have hmem := List.mem_of_getElem? hg
    refine ⟨h.queue, ?_, ?_, ?_⟩
    · intro g' hg'
      dsimp only at hg'
      split at hg'
      · rcases List.mem_or_eq_of_mem_set hg' with hg' | rfl
        · exact h.handling g' hg'
        · exact h.handling g hmem
      · exact h.handling g' (List.mem_of_mem_eraseIdx hg')
    · intro g' hg'
      dsimp only at hg'
      split at hg'
      · next part hpart =>
        rcases List.mem_or_eq_of_mem_set hg' with hg' | rfl
        · exact h.started g' hg'
        · refine .inr ((h.started g hmem).elim (fun hhorizon => ?_) id)
          rw [hhorizon] at hpart
          exact pos_of_runPart_horizon hpart
      · exact h.started g' (List.mem_of_mem_eraseIdx hg')
    · intro ban hban
      dsimp only at hban
      split at hban
      · rcases List.mem_append.mp hban with hban | hban
        · exact h.bans ban hban
        · rw [List.mem_singleton] at hban
          subst hban
          exact h.handling g hmem
      · exact h.bans ban hban

theorem step (h : Tracked actions n) {action : BlockAction P} (haction : action ∈ actions) :
    Tracked actions (n.step G action) := by
  cases action with
  | receive peer path block => exact h.receive ⟨path, haction⟩
  | pop => exact h.pop
  | advance now i => exact h.advance now i
  | other chain => exact ⟨h.queue, h.handling, h.started, h.bans⟩

/-- **Every run keeps track** of who sent what. -/
theorem runAll (h : Tracked actions n) {l : List (BlockAction P)} (hl : l ⊆ actions) :
    Tracked actions (n.runAll G l) := by
  induction l generalizing n with
  | nil => exact h
  | cons action l ih =>
    exact ih (h.step (hl List.mem_cons_self)) fun a ha => hl (List.mem_cons_of_mem action ha)

end Tracked

/-- **A step under the condition** makes just bans only. -/
theorem justBans_step {actions : List (BlockAction P)} {n : BlockNode P} {action : BlockAction P}
    (htracked : Tracked actions n) (hjust : JustBans G actions n) (horder : InOrder G n action) :
    JustBans G actions (n.step G action) := by
  cases action with
  | receive peer path block =>
    cases path with
    | live => exact hjust
    | pipe =>
      rw [BlockNode.step, BlockNode.receive]
      split
      · exact hjust
      · exact hjust
  | pop =>
    rw [BlockNode.step, BlockNode.pop]
    split
    · exact hjust
    · split
      · exact hjust
      · exact hjust
  | other chain => exact hjust
  | advance now i =>
    rw [BlockNode.step, BlockNode.advance]
    split
    · exact hjust
    next g hg =>
      have hmem := List.mem_of_getElem? hg
      intro ban hban
      dsimp only at hban
      split at hban
      · next reason hreason =>
        rcases List.mem_append.mp hban with hban | hban
        · exact hjust ban hban
        · rw [List.mem_singleton] at hban
          subst hban
          exact ⟨htracked.handling g hmem,
            violates_of_reason (htracked.started g hmem) (horder g hg) hreason⟩
      · exact hjust ban hban

/-- **Peers are banned for their own blocks only**, in every run in which every part finds the
node in order: whatever the peers send, by which path and in which order it is processed, and
whatever else changes the chain. -/
theorem justBans_runAll {actions : List (BlockAction P)} {s : ChainState}
    (horder : AllInOrder G actions (BlockNode.ofChain s)) :
    JustBans G actions ((BlockNode.ofChain s).runAll G actions) := by
  have key : ∀ (l : List (BlockAction P)) (n : BlockNode P), l ⊆ actions → Tracked actions n →
      JustBans G actions n → AllInOrder G l n → JustBans G actions (n.runAll G l) := by
    intro l
    induction l with
    | nil => exact fun n _ _ hjust _ => hjust
    | cons action l ih =>
      intro n hl htracked hjust horder
      have haction := hl List.mem_cons_self
      exact ih _ (fun a ha => hl (List.mem_cons_of_mem action ha)) (htracked.step haction)
        (justBans_step htracked hjust horder.1) horder.2
  exact key actions _ (List.Subset.refl _) (.ofChain s) (by rintro ban ⟨⟩) horder

/-! ### On the small chain -/

namespace SmallNet

theorem ordered_of_eq {u : ChainState} (hu : Mirror testNet u)
    (hblockDB : u.blockDB = genesis.blockDB) (hcandidate : u.candidate = genesis.candidate) :
    BlockHeaderProcessor.Ordered testNet u where
  mirror := hu
  tip := by
    intro h hh
    rw [hblockDB, hcandidate] at hh
    rw [hcandidate]
    have htip : (genesis.blockDB.getBlockHeader genesis.candidate.getTipHash).map
        BlockHeader.getHeight = some genesis.candidate.getHeight := by
      decide +kernel
    rw [hh] at htip
    exact Option.some_inj.mp htip

theorem mirror_genesis : Mirror testNet genesis :=
  mirror_of_created (ChainState.created_of_create create_eq)

/-- The small chain before its hash set is there. -/
def closedGenesis : ChainState := { genesis with txHashSet := none }

theorem mirror_closedGenesis : Mirror testNet closedGenesis where
  atRest :=
    ⟨genesis_atRest.1, genesis_atRest.2, genesis_atRest.3, genesis_atRest.4, by rintro t ⟨⟩⟩
  headers := mirror_genesis.headers
  stored := mirror_genesis.stored
  range := mirror_genesis.range

/-- A peer sends a block, which is processed at once, by a number of parts. -/
def sendLive (parts : ℕ) (block : FullBlock) : List (BlockAction ℕ) :=
  .receive 1 .live block :: List.replicate parts (.advance noon 0)

/-- The node behind it. -/
def nodeAfter (s : ChainState) (parts : ℕ) (block : FullBlock) : BlockNode ℕ :=
  (BlockNode.ofChain s).runAll testNet (sendLive parts block)

/-- The node with a block of which a part is next. -/
def processing (s : ChainState) (block : FullBlock) (part : BlockPart) : BlockNode ℕ :=
  ⟨s, [], [⟨1, .live, block, part⟩], []⟩

/-- The block gets through a part. -/
theorem advance_processing {s t : ChainState} {block : FullBlock} {part next : BlockPart}
    (h : run (BlockProcessor.runPart testNet noon block part) s = (.ok (.inl next), t)) :
    (processing s block part).advance testNet noon 0 = processing t block next := by
  simp [BlockNode.advance, processing, h, BlockPath.reason]

/-- The first block, without its kernel. -/
def withoutKernel : FullBlock := { block₁ with body := { block₁.body with kernels := [] } }

theorem verifySelfConsistent_withoutKernel :
    (BlockValidator.verifySelfConsistent testNet withoutKernel).toOption = none := by
  decide +kernel

theorem validBlock_block₁ : ValidBlock testNet noon block₁ := by
  refine ⟨[], genesis, .genesis create_eq, ?_, ?_, ?_, ?_, ?_⟩
  · decide +kernel
  · decide +kernel
  · have hheader : (genesis.blockDB.getBlockHeader block₁.getPreviousHash).map (fun previous =>
        BlockHeaderValidator.validate testNet noon genesis.blockDB.getBlockHeader genesis.headerMMR
          block₁.header previous) = some (.ok ()) := by
      decide +kernel
    obtain ⟨previous, hprevious, hvalid⟩ := Option.map_eq_some_iff.mp hheader
    exact ⟨previous, hprevious, hvalid⟩
  · decide +kernel
  · have happlies : genesis.txHashSet.map (fun a =>
        (run (BlockProcessor.applyAndValidate testNet block₁) ⟨genesis.blockDB, a⟩).1) =
          some (.ok ()) := by
      decide +kernel
    obtain ⟨a, ha, hok⟩ := Option.map_eq_some_iff.mp happlies
    exact ⟨a, ha, hok⟩

end SmallNet

open SmallNet

/-- A peer is banned for a block that is not consistent in itself. -/
theorem justBans_withoutKernel :
    (nodeAfter genesis 3 withoutKernel).bans.map (fun ban => (ban.peer, ban.reason)) =
        [(1, .badBlock)] ∧
      JustBans testNet (sendLive 3 withoutKernel) (nodeAfter genesis 3 withoutKernel) := by
  refine ⟨by decide +kernel, justBans_runAll ?_⟩
  have hhorizon : Consensus.getHorizonHeight genesis.candidate.getHeight <
      withoutKernel.getHeight := by
    decide +kernel
  have hfirst : run (BlockProcessor.runPart testNet noon withoutKernel .horizon) genesis =
      (.ok (.inl .header), genesis) := by
    rw [BlockProcessor.runPart, BlockProcessor.checkHorizon, bind_assoc,
      run_bind_ok (run_get genesis), if_neg (Nat.not_le.mpr hhorizon)]
    rfl
  obtain ⟨t, hsecond⟩ : ∃ t, run (BlockProcessor.runPart testNet noon withoutKernel .header)
      genesis = (.ok (.inl .selfConsistent), t) := by
    have hheader : (run (BlockHeaderProcessor.processSingleHeader testNet noon withoutKernel.header)
        genesis).1 = .ok .success := by
      decide +kernel
    rcases hrun : run (BlockHeaderProcessor.processSingleHeader testNet noon withoutKernel.header)
      genesis with ⟨r, t⟩
    rw [hrun] at hheader
    obtain rfl : r = .ok .success := hheader
    exact ⟨t, by rw [BlockProcessor.runPart, run_bind_ok hrun]; rfl⟩
  have hfirstPart : InOrder testNet (processing genesis withoutKernel .horizon)
      (.advance noon 0) := by
    rintro h ⟨⟩
    exact hhorizon
  have hsecondPart : InOrder testNet (processing genesis withoutKernel .header)
      (.advance noon 0) := by
    rintro h ⟨⟩
    refine ⟨ordered_of_eq mirror_genesis rfl rfl, ?_, ?_⟩
    · have hplace : (run (BlockHeaderProcessor.placeAncestors testNet noon withoutKernel.header)
          genesis).1 = .ok (genesis.blockDB.getBlockHeader genesis.candidate.getTipHash) := by
        decide +kernel
      exact ⟨_, _, Prod.ext hplace rfl⟩
    · rintro blocks v - hvalid
      have hself := verifySelfConsistent_withoutKernel
      rw [hvalid.selfConsistent] at hself
      cases hself
  have hthirdPart : InOrder testNet (processing t withoutKernel .selfConsistent)
      (.advance noon 0) := by
    rintro h ⟨⟩
    trivial
  rw [← advance_processing hfirst] at hsecondPart
  rw [← advance_processing hsecond, ← advance_processing hfirst] at hthirdPart
  exact ⟨trivial, hfirstPart, hsecondPart, hthirdPart, trivial⟩

/-- A peer is banned for a valid block, since the hash set is not there. -/
theorem not_justBans_closedGenesis :
    BlockHeaderProcessor.Ordered testNet closedGenesis ∧
      (nodeAfter closedGenesis 4 block₁).bans.map (fun ban => (ban.peer, ban.reason)) =
        [(1, .badBlock)] ∧
      ¬JustBans testNet (sendLive 4 block₁) (nodeAfter closedGenesis 4 block₁) := by
  have hbans : (nodeAfter closedGenesis 4 block₁).bans.map
      (fun ban => (ban.peer, ban.reason, ban.now)) = [(1, .badBlock, noon)] := by
    decide +kernel
  obtain ⟨ban, hban, hvalues⟩ := List.map_eq_singleton_iff.mp hbans
  obtain ⟨hpeer, hreason, hnow⟩ : ban.peer = 1 ∧ ban.reason = .badBlock ∧ ban.now = noon := by
    simpa using hvalues
  refine ⟨ordered_of_eq mirror_closedGenesis rfl rfl, ?_, fun hjust => ?_⟩
  · rw [hban, List.map_singleton, hpeer, hreason]
  · obtain ⟨⟨path, hsent⟩, -, hinvalid⟩ :=
      hjust ban (by rw [hban]; exact List.mem_singleton_self ban)
    have hblock : ban.block = block₁ := by
      simp [sendLive] at hsent
      exact hsent.2.2
    rw [hblock, hnow] at hinvalid
    exact hinvalid validBlock_block₁

end GrinPlusPlus
