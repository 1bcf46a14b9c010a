import GrinPlusPlus.Core.Consensus

/-!
# The state syncer

`StateSyncer::SyncState`: on every round of the sync thread, behind the headers and in front of
the blocks, it decides whether the node waits for a whole state or may fetch blocks. It answers
`true` to hold the blocks back.

The heights are compared with the cut-through horizon in three places, each time by a subtraction
of 64 bits. Two of them look first whether the header height has reached the horizon. The third,
on the way out, does not: on a young chain its difference wraps around, and blocks are held back
although no state is ever requested.

* `GrinPlusPlus.StateSyncer.neededInPIBD`, `GrinPlusPlus.StateSyncer.neededInDue`,
  `GrinPlusPlus.StateSyncer.neededAtEnd` – the three comparisons, and what each of them says over
  the integers;
* `GrinPlusPlus.StateSyncer.heldBack_iff` – the heights at which `SyncState` decides rightly and
  the three agree.
-/

namespace GrinPlusPlus

/-- `ESyncStatus`. -/
inductive ESyncStatus
  | syncingHeaders
  | syncingTxHashSet
  | syncingTxHashSetPIBD
  | processingTxHashSet
  | txHashSetPIBDLeafSetUpdate
  | txHashSetSetup
  | txHashSetKernelHistoryValidation
  | txHashSetNRDKernelsValidation
  | txHashSetKernelSumsValidation
  | txHashSetRangeProofsValidation
  | txHashSetKernelSignaturesValidation
  | txHashSetSave
  | txHashSetDone
  | txHashSetSyncFailed
  | syncingBlocks
  | waitingForPeers
  | notSyncing
  deriving DecidableEq, Repr

/-- `SyncStatus`, as far as the state syncer reads and writes it. -/
structure SyncStatus where
  /-- `m_syncStatus`. -/
  status : ESyncStatus
  /-- `m_headerHeight`. -/
  headerHeight : UInt64
  /-- `m_blockHeight`. -/
  blockHeight : UInt64
  /-- `m_txHashSetDownloaded`. -/
  downloaded : UInt64
  /-- `m_txHashSetProcessingCurrent`. -/
  processingCurrent : UInt64
  /-- `m_txHashSetProcessingTotal`. -/
  processingTotal : UInt64
  /-- `m_pibdErrored`. -/
  pibdErrored : Bool

/-- `SyncStatus::UpdateStatus`. -/
def SyncStatus.updateStatus (s : SyncStatus) (status : ESyncStatus) : SyncStatus :=
  { s with status := status, processingCurrent := 0, processingTotal := 0 }

/-- The statuses under which a received state is being processed. -/
def ESyncStatus.isProcessing : ESyncStatus → Bool
  | processingTxHashSet | txHashSetPIBDLeafSetUpdate | txHashSetSetup
  | txHashSetKernelHistoryValidation | txHashSetNRDKernelsValidation
  | txHashSetKernelSumsValidation | txHashSetRangeProofsValidation
  | txHashSetKernelSignaturesValidation | txHashSetSave => true
  | _ => false

namespace StateSyncer

/-- `Consensus::CUT_THROUGH_HORIZON`, as the height it becomes in a difference of heights. -/
def horizon : UInt64 := 10080

theorem toNat_horizon : horizon.toNat = Consensus.cutThroughHorizon := by decide

/-- The members of `StateSyncer` that decide whether a state is requested; the others belong to
`RequestPIBDState` alone. -/
structure Members (Peer : Type) where
  /-- `m_timeRequested`, in seconds. -/
  timeRequested : ℤ
  /-- `m_requestedHeight`. -/
  requestedHeight : UInt64
  /-- `m_pPeer`. -/
  peerOpt : Option Peer

/-- The state of a round: the members, the status, and the rest of the node. -/
structure State (Peer World : Type) where
  /-- The state syncer. -/
  members : Members Peer
  /-- The shared status. -/
  syncStatus : SyncStatus
  /-- The pipeline, the peers and the members of `RequestPIBDState`. -/
  world : World

/-- What `SyncState` asks of the rest of the node. What the calls do to the state is left open:
they send messages, choose peers and change the status, and the results hold whatever they do. -/
structure Surroundings (Peer World : Type) where
  /-- `Pipeline::IsPIBDValidationRunning`. -/
  isPIBDValidationRunning : World → Bool
  /-- The time of the system clock, in seconds. -/
  now : ℤ
  /-- The connection manager, while there is one, and its `IsConnected`. -/
  isConnectedOpt : Option (Peer → Bool)
  /-- `StateSyncer::RequestPIBDState`. -/
  requestPIBDState : State Peer World → Bool × State Peer World
  /-- `StateSyncer::RequestZipState`. -/
  requestZipState : State Peer World → Bool × State Peer World
  /-- `Pipeline::AbortPIBD`. -/
  abortPIBD : State Peer World → State Peer World

/-! ### The three comparisons -/

/-- The comparison of `SyncState` while a state is synced in segments. -/
def neededInPIBD (headerHeight blockHeight : UInt64) : Bool :=
  horizon ≤ headerHeight && blockHeight < headerHeight - horizon

/-- The two comparisons of `IsStateSyncDue`. -/
def neededInDue (headerHeight blockHeight : UInt64) : Bool :=
  if headerHeight < horizon then false
  else if headerHeight - horizon < blockHeight then false
  else true

/-- The comparison at the end of `SyncState`. -/
def neededAtEnd (headerHeight blockHeight : UInt64) : Bool :=
  blockHeight < headerHeight - horizon

section Comparisons

variable {headerHeight blockHeight : UInt64}

/-- From the horizon on the difference is that of the integers. -/
theorem toNat_sub_horizon (h : horizon ≤ headerHeight) :
    (headerHeight - horizon).toNat + Consensus.cutThroughHorizon = headerHeight.toNat := by
  have h' := UInt64.le_iff_toNat_le.1 h
  rw [UInt64.toNat_sub_of_le _ _ h, ← toNat_horizon]
  exact Nat.sub_add_cancel h'

/-- Below it the difference wraps around. -/
theorem toNat_sub_horizon_of_lt (h : headerHeight < horizon) :
    (headerHeight - horizon).toNat + Consensus.cutThroughHorizon =
      2 ^ 64 + headerHeight.toNat := by
  have h' := UInt64.lt_iff_toNat_lt.1 h
  have hlt := UInt64.toNat_lt_size horizon
  rw [UInt64.toNat_sub, ← toNat_horizon]
  have : UInt64.size = 2 ^ 64 := rfl
  omega

/-- **What the comparison of the segment sync says.** -/
theorem neededInPIBD_iff : neededInPIBD headerHeight blockHeight = true ↔
    blockHeight.toNat + Consensus.cutThroughHorizon < headerHeight.toNat := by
  rw [neededInPIBD, Bool.and_eq_true, decide_eq_true_iff, decide_eq_true_iff]
  constructor
  · rintro ⟨h, hb⟩
    have := toNat_sub_horizon h
    have := UInt64.lt_iff_toNat_lt.1 hb
    omega
  · intro hb
    have h : horizon ≤ headerHeight := by
      rw [UInt64.le_iff_toNat_le, toNat_horizon]
      omega
    have := toNat_sub_horizon h
    exact ⟨h, UInt64.lt_iff_toNat_lt.2 (by omega)⟩

/-- **What the comparisons of `IsStateSyncDue` say**: the horizon itself counts as needed. -/
theorem neededInDue_iff : neededInDue headerHeight blockHeight = true ↔
    blockHeight.toNat + Consensus.cutThroughHorizon ≤ headerHeight.toNat := by
  rw [neededInDue]
  split_ifs with h hb
  · have := UInt64.lt_iff_toNat_lt.1 h
    rw [toNat_horizon] at this
    simp only [false_iff]
    omega
  · have := toNat_sub_horizon (UInt64.not_lt.1 h)
    have := UInt64.lt_iff_toNat_lt.1 hb
    simp only [false_iff]
    omega
  · have := toNat_sub_horizon (UInt64.not_lt.1 h)
    have := UInt64.le_iff_toNat_le.1 (UInt64.not_lt.1 hb)
    simp only [true_iff]
    omega

/-- **What the comparison at the end says** from the horizon on. -/
theorem neededAtEnd_iff (h : horizon ≤ headerHeight) :
    neededAtEnd headerHeight blockHeight = true ↔
      blockHeight.toNat + Consensus.cutThroughHorizon < headerHeight.toNat := by
  have := toNat_sub_horizon h
  rw [neededAtEnd, decide_eq_true_iff, UInt64.lt_iff_toNat_lt]
  omega

/-- **What it says below the horizon**: nearly every block height is behind. -/
theorem neededAtEnd_iff_of_lt (h : headerHeight < horizon) :
    neededAtEnd headerHeight blockHeight = true ↔
      blockHeight.toNat + Consensus.cutThroughHorizon < 2 ^ 64 + headerHeight.toNat := by
  have := toNat_sub_horizon_of_lt h
  rw [neededAtEnd, decide_eq_true_iff, UInt64.lt_iff_toNat_lt]
  omega

end Comparisons

/-! ### The decision -/

section Decision

variable {Peer World : Type} (w : Surroundings Peer World)

/-- What `IsStateSyncDue` looks at once a state is needed: there is no request yet, or the last one
has come to nothing. -/
def requestDue (s : State Peer World) : Bool :=
  if s.members.requestedHeight = 0 then true
  else if s.members.timeRequested + 120 * 60 < w.now then true
  else if s.members.timeRequested + 60 < w.now && s.syncStatus.downloaded = 0 then true
  else match s.members.peerOpt with
    | none => false
    | some peer => match w.isConnectedOpt with
      | none => true
      | some isConnected => !isConnected peer

/-- `StateSyncer::IsStateSyncDue`. -/
def isStateSyncDue (s : State Peer World) : Bool :=
  if s.syncStatus.status.isProcessing then false
  else if s.syncStatus.status = .txHashSetSyncFailed then true
  else if s.syncStatus.headerHeight < horizon then false
  else if s.syncStatus.headerHeight - horizon < s.syncStatus.blockHeight then false
  else requestDue w s

/-- `StateSyncer::RequestState`. -/
def requestState (s : State Peer World) : Bool × State Peer World :=
  match w.requestPIBDState s with
  | (true, s') => (true, s')
  | (false, s') => w.requestZipState s'

/-- `StateSyncer::SyncState`, with the state it leaves. -/
def syncState (s : State Peer World) : Bool × State Peer World :=
  if w.isPIBDValidationRunning s.world then (true, s)
  else if s.syncStatus.status = .syncingTxHashSetPIBD then
    match w.requestPIBDState s with
    | (true, s') => (true, s')
    | (false, s') =>
      if s'.syncStatus.pibdErrored then
        let aborted := w.abortPIBD s'
        w.requestPIBDState { aborted with members := { aborted.members with peerOpt := none } }
      else if s'.members.peerOpt.isSome then (true, s')
      else (neededInPIBD s'.syncStatus.headerHeight s'.syncStatus.blockHeight, s')
  else if isStateSyncDue w s then
    (true, (requestState w
      { s with syncStatus := s.syncStatus.updateStatus .syncingTxHashSet }).2)
  else
    -- a state sync in progress delays the block sync
    if neededAtEnd s.syncStatus.headerHeight s.syncStatus.blockHeight then (true, s)
    else (false, s)

/-- Neither a running nor a failed state sync: no state is being validated, none is being fetched
in segments, and none has failed. -/
structure AtRest (s : State Peer World) : Prop where
  /-- No validation runs. -/
  notRunning : w.isPIBDValidationRunning s.world = false
  /-- No state comes in segments. -/
  notPIBD : s.syncStatus.status ≠ .syncingTxHashSetPIBD
  /-- None has failed. -/
  notFailed : s.syncStatus.status ≠ .txHashSetSyncFailed

/-- **Blocks are held back exactly when a state is needed**: `SyncState` lets the blocks through
within the horizon, holds them back beyond it, and the three comparisons agree. -/
structure HeldBack (s : State Peer World) : Prop where
  /-- Within the horizon blocks are synced. -/
  blocks : s.syncStatus.headerHeight.toNat <
    s.syncStatus.blockHeight.toNat + Consensus.cutThroughHorizon → (syncState w s).1 = false
  /-- Beyond it they wait. -/
  state : s.syncStatus.blockHeight.toNat + Consensus.cutThroughHorizon <
    s.syncStatus.headerHeight.toNat → (syncState w s).1 = true
  /-- The comparison of the segment sync says what `IsStateSyncDue` says. -/
  inDue : neededInPIBD s.syncStatus.headerHeight s.syncStatus.blockHeight =
    neededInDue s.syncStatus.headerHeight s.syncStatus.blockHeight
  /-- The one at the end says it as well. -/
  atEnd : neededAtEnd s.syncStatus.headerHeight s.syncStatus.blockHeight =
    neededInDue s.syncStatus.headerHeight s.syncStatus.blockHeight

variable {w} {s : State Peer World}

/-- Unless one has failed, a state is due only where it is needed. -/
theorem isStateSyncDue_eq (hs : s.syncStatus.status ≠ .txHashSetSyncFailed) :
    isStateSyncDue w s = (!s.syncStatus.status.isProcessing &&
      neededInDue s.syncStatus.headerHeight s.syncStatus.blockHeight && requestDue w s) := by
  rw [isStateSyncDue, neededInDue, if_neg hs]
  split_ifs with hp h hb <;> simp [hp]

/-- At rest `SyncState` holds the blocks back when a state is due or its last comparison says
so. -/
theorem AtRest.syncState_fst (h : AtRest w s) : (syncState w s).1 =
    (isStateSyncDue w s ||
      neededAtEnd s.syncStatus.headerHeight s.syncStatus.blockHeight) := by
  rw [syncState, h.notRunning, if_neg Bool.false_ne_true, if_neg h.notPIBD]
  split_ifs with hd he
  · simp [hd]
  · simp [he]
  · simp [hd, he]

/-- **When block sync is held back rightly.** The header height has reached the horizon and is not
exactly the horizon beyond the block height, where `IsStateSyncDue` alone asks for a state; or, on
a young chain, the block height is so near to `2 ^ 64` that the difference which wraps around
stays below it. -/
theorem heldBack_iff (h : AtRest w s) : HeldBack w s ↔
    (Consensus.cutThroughHorizon ≤ s.syncStatus.headerHeight.toNat ∧
      s.syncStatus.blockHeight.toNat + Consensus.cutThroughHorizon ≠
        s.syncStatus.headerHeight.toNat) ∨
    (s.syncStatus.headerHeight.toNat < Consensus.cutThroughHorizon ∧
      2 ^ 64 + s.syncStatus.headerHeight.toNat ≤
        s.syncStatus.blockHeight.toNat + Consensus.cutThroughHorizon) := by
  have hfst := h.syncState_fst
  rw [isStateSyncDue_eq h.notFailed] at hfst
  by_cases hlt : s.syncStatus.headerHeight < horizon
  · -- a young chain: the comparisons in front say no, the last one says what the wrap leaves of it
    have hnat := UInt64.lt_iff_toNat_lt.1 hlt
    rw [toNat_horizon] at hnat
    have hend := @neededAtEnd_iff_of_lt _ s.syncStatus.blockHeight hlt
    have hdue : neededInDue s.syncStatus.headerHeight s.syncStatus.blockHeight = false := by
      rw [neededInDue, if_pos hlt]
    rw [hdue, Bool.and_false, Bool.false_and, Bool.false_or] at hfst
    constructor
    · intro hb
      have hno : ¬ neededAtEnd s.syncStatus.headerHeight s.syncStatus.blockHeight = true := by
        rw [hb.atEnd, hdue]
        exact Bool.false_ne_true
      rw [hend] at hno
      exact .inr ⟨hnat, by omega⟩
    · intro hcond
      have hno : neededAtEnd s.syncStatus.headerHeight s.syncStatus.blockHeight = false := by
        rw [← Bool.not_eq_true, hend]
        omega
      refine ⟨fun _ => hfst.trans hno, fun hb => absurd hb (by omega), ?_, hno.trans hdue.symm⟩
      rw [hdue, ← Bool.not_eq_true, neededInPIBD_iff]
      omega
  · -- from the horizon on the three differ at one height only
    have hge := UInt64.not_lt.1 hlt
    have hnat := UInt64.le_iff_toNat_le.1 hge
    rw [toNat_horizon] at hnat
    have hend := @neededAtEnd_iff _ s.syncStatus.blockHeight hge
    constructor
    · intro hb
      refine .inl ⟨hnat, fun heq => ?_⟩
      have hdue : neededInDue s.syncStatus.headerHeight s.syncStatus.blockHeight = true :=
        neededInDue_iff.2 heq.le
      rw [← hb.atEnd, hend] at hdue
      omega
    · intro hcond
      have hagree : neededAtEnd s.syncStatus.headerHeight s.syncStatus.blockHeight =
          neededInDue s.syncStatus.headerHeight s.syncStatus.blockHeight := by
        rw [Bool.eq_iff_iff, hend, neededInDue_iff]
        omega
      refine ⟨fun hb => ?_, fun hb => ?_, ?_, hagree⟩
      · have hno : neededAtEnd s.syncStatus.headerHeight s.syncStatus.blockHeight = false := by
          rw [← Bool.not_eq_true, hend]
          omega
        rw [hfst, ← hagree, hno, Bool.and_false, Bool.false_and, Bool.false_or]
      · rw [hfst, hend.2 hb, Bool.or_true]
      · rw [← hagree, Bool.eq_iff_iff, neededInPIBD_iff, hend]

/-! ### A young chain -/

/-- A node whose requests find nobody. -/
def lonely : Surroundings ℕ Unit where
  isPIBDValidationRunning _ := false
  now := 0
  isConnectedOpt := none
  requestPIBDState s := (false, s)
  requestZipState s := (false, s)
  abortPIBD s := s

/-- A young chain: the headers have come up to height `5`, no block behind the genesis has. -/
def young : State ℕ Unit where
  members := ⟨0, 0, none⟩
  syncStatus := ⟨.syncingHeaders, 5, 0, 0, 0, 0, false⟩
  world := ()

theorem atRest_young : AtRest lonely young := ⟨rfl, by decide, by decide⟩

/-- On the young chain the blocks are held back, though the horizon lies far above. -/
theorem not_heldBack_young : AtRest lonely young ∧ ¬ HeldBack lonely young := by
  refine ⟨atRest_young, fun h => ?_⟩
  have hfalse : (syncState lonely young).1 = false := h.blocks (by decide)
  exact absurd hfalse (by decide)

/-- A chain that has outgrown the horizon: the state is needed, and blocks are held back. -/
def grown : State ℕ Unit where
  members := ⟨0, 0, none⟩
  syncStatus := ⟨.syncingHeaders, 20000, 0, 0, 0, 0, false⟩
  world := ()

theorem heldBack_grown : AtRest lonely grown ∧ HeldBack lonely grown := by
  have h : AtRest lonely grown := ⟨rfl, by decide, by decide⟩
  exact ⟨h, (heldBack_iff h).2 (.inl ⟨by decide, by decide⟩)⟩

end Decision

end StateSyncer

end GrinPlusPlus
