import GrinPlusPlus.Pmmr.Segment

/-!
# The header syncer

`HeaderSyncer` fetches headers in segments of `2 ^ 9`, from several peers at once. On every round
it drops the requests that have timed out, whose peer has gone, or that are done
(`IsHeaderSyncDue`), and sends new ones (`RequestHeaders`), with a limit on the requests in flight,
on those of one round and on those of one peer.

Which segment is requested next is read off the requests that are pending: the one behind the
*largest* of them, or the one that is needed next if that is larger. So no segment is requested
twice; but requests are dropped one by one, and a gap below the largest one is not filled.

* `GrinPlusPlus.HeaderSyncer.pendingRequests_due` – which requests a round keeps;
* `GrinPlusPlus.HeaderSyncer.Numbered` – the invariant of the requests: no two are for the same
  segment, and no index has come near the end of the 64 bits;
* `GrinPlusPlus.HeaderSyncer.needed_mem_requestHeaders` – when the needed segment is asked for;
* `GrinPlusPlus.HeaderSyncer.inFlight_run` – the rounds in which everything is asked for in time.
-/

namespace GrinPlusPlus

/-- `EHeaderSyncType`. -/
inductive EHeaderSyncType
  | unknown
  | legacy
  | pihd
  deriving DecidableEq, Repr

/-- `P2P::PIHD_HEADER_SEGMENT_HEIGHT`. -/
def P2P.pihdHeaderSegmentHeight : UInt8 := 9

namespace HeaderSyncer

/-- `PIHD_MAX_IN_FLIGHT_SEGMENTS`. -/
def pihdMaxInFlightSegments : ℕ := 8

/-- `PIHD_MAX_REQUESTS_PER_TICK`. -/
def pihdMaxRequestsPerTick : ℕ := 8

/-- `PIHD_MAX_IN_FLIGHT_SEGMENTS_PER_PEER`. -/
def pihdMaxInFlightSegmentsPerPeer : ℕ := 3

/-- `PIHD_HEADER_TIMEOUT`, in nanoseconds. -/
def pihdHeaderTimeout : ℤ := 10 * 1000000000

/-- `PIHD_STALL_RECOVERY_TIMEOUT`, in nanoseconds. -/
def pihdStallRecoveryTimeout : ℤ := 30 * 1000000000

/-- The size of a segment, `1ULL << P2P::PIHD_HEADER_SEGMENT_HEIGHT`. -/
def segmentSize : UInt64 := 512

/-! ### The state and what comes from outside -/

/-- A connected peer: its address, while it has one, its totals and whether it sends header
segments. -/
structure ConnectedPeer (Peer : Type) where
  /-- `GetPeer`. -/
  peerOpt : Option Peer
  /-- `GetHeight`. -/
  height : UInt64
  /-- `GetTotalDifficulty`. -/
  totalDifficulty : UInt64
  /-- `Capabilities::PIHD_HIST`. -/
  pihdHist : Bool

/-- `HeaderSyncer::PendingHeaderRequest`. -/
structure PendingHeaderRequest (Peer : Type) where
  /-- The peer that was asked. -/
  peerOpt : Option Peer
  /-- What it was asked for. -/
  identifier : SegmentIdentifier
  /-- When the request is given up, in nanoseconds. -/
  timeout : ℤ

/-- What the connection manager answers during one call. -/
structure ConnectionManager (Peer : Type) where
  /-- `GetMostWork`. -/
  mostWork : UInt64
  /-- `GetConnectedPeers`. -/
  connectedPeers : List (ConnectedPeer Peer)
  /-- `IsConnected`, of the address of a peer. -/
  isConnected : Peer → Bool
  /-- `SendMessageToPeer`, of the request for a segment. -/
  sendMessageToPeer : SegmentIdentifier → Option Peer → Bool
  /-- `SendMessageToMostWorkPeer`, of a request for headers. -/
  sendMessageToMostWorkPeer : Option Peer

/-- The members of `HeaderSyncer`, and the type of sync it reports. -/
structure State (Peer : Type) where
  /-- `m_lastHeight`. -/
  lastHeight : UInt64
  /-- `m_lastProgressHeight`. -/
  lastProgressHeight : UInt64
  /-- `m_lastProgressTime`, in nanoseconds. -/
  lastProgressTime : ℤ
  /-- `m_pendingRequests`. -/
  pendingRequests : List (PendingHeaderRequest Peer)
  /-- `SyncStatus::m_headerSyncType`. -/
  headerSyncType : EHeaderSyncType

/-- What a round of the sync thread meets. -/
structure Tick (Peer : Type) where
  /-- `SyncStatus::GetNetworkHeight`. -/
  networkHeight : UInt64
  /-- `SyncStatus::GetHeaderHeight`. -/
  headerHeight : UInt64
  /-- No sync has been finished yet. -/
  startup : Bool
  /-- The connection manager in `IsHeaderSyncDue`, while there is one. -/
  dueManagerOpt : Option (ConnectionManager Peer)
  /-- The time in `IsHeaderSyncDue`. -/
  dueNow : ℤ
  /-- The connection manager in `RequestHeaders`, while there is one. -/
  requestManagerOpt : Option (ConnectionManager Peer)
  /-- The time in `RequestHeaders`. -/
  requestNow : ℤ

variable {Peer : Type}

/-- `CanUsePIHD`. -/
def canUsePIHD (peer : ConnectedPeer Peer) (mostWork : UInt64) : Bool :=
  mostWork ≤ peer.totalDifficulty && peer.peerOpt.isSome && peer.pihdHist

/-- `IsPIHDIdentifier`. -/
def isPIHDIdentifier (identifier : SegmentIdentifier) : Bool :=
  identifier.height = P2P.pihdHeaderSegmentHeight

/-! ### `IsHeaderSyncDue` -/

/-- The headers of a request have come. -/
def isCompleted (height : UInt64) (identifier : SegmentIdentifier) : Bool :=
  if isPIHDIdentifier identifier then
    (identifier.getLeafOffset + identifier.getSegmentCapacity) % 2 ^ 64 ≤ height.toNat
  else identifier.getLeafOffset < height.toNat

/-- The requests that `IsHeaderSyncDue` removes one by one. -/
def isRemoved (m : ConnectionManager Peer) (now : ℤ) (height : UInt64)
    (request : PendingHeaderRequest Peer) : Bool :=
  (match request.peerOpt with
    | none => true
    | some peer => !m.isConnected peer || request.timeout < now) ||
  isCompleted height request.identifier

/-- `HeaderSyncer::IsHeaderSyncDue`, with the state it leaves. -/
def isHeaderSyncDue (height : UInt64) (managerOpt : Option (ConnectionManager Peer)) (now : ℤ)
    (s : State Peer) : Bool × State Peer :=
  if s.pendingRequests.isEmpty then (true, s)
  else match managerOpt with
  | none => (false, s)
  | some m =>
    let s := if height ≠ s.lastProgressHeight then
        { s with lastProgressHeight := height, lastProgressTime := now }
      else s
    let removedPendingRequest := s.pendingRequests.any (isRemoved m now height)
    let pendingRequests := s.pendingRequests.filter fun r => !isRemoved m now height r
    let legacyRequests := pendingRequests.filter fun r => !isPIHDIdentifier r.identifier
    let pihdPeerCount := (m.connectedPeers.filter (canUsePIHD · m.mostWork)).length
    let legacyPendingCount := legacyRequests.length
    let pihdPendingCount := pendingRequests.length - legacyPendingCount
    if 0 < pihdPendingCount ∧ height = s.lastProgressHeight ∧
        pihdStallRecoveryTimeout ≤ now - s.lastProgressTime then
      (true,
        { s with
          pendingRequests := legacyRequests
          headerSyncType := .unknown
          lastProgressTime := now })
    else if pihdPeerCount = 0 then
      if legacyPendingCount = 0 then (true, { s with pendingRequests := legacyRequests })
      else (removedPendingRequest || decide (0 < pihdPendingCount),
        { s with pendingRequests := legacyRequests })
    else if legacyPendingCount = 0 ∧
        (removedPendingRequest ∨ pihdPendingCount < pihdMaxInFlightSegments) then
      (true, { s with pendingRequests := pendingRequests })
    else (false, { s with pendingRequests := pendingRequests })

/-- What `IsHeaderSyncDue` says on a round, and the state it leaves. -/
def Tick.due (t : Tick Peer) (s : State Peer) : Bool × State Peer :=
  isHeaderSyncDue t.headerHeight t.dueManagerOpt t.dueNow s

/-! ### What `IsHeaderSyncDue` keeps -/

/-- There has been no new header for the time of recovery. -/
def Tick.isStalled (t : Tick Peer) (s : State Peer) : Bool :=
  t.headerHeight = s.lastProgressHeight &&
    decide (pihdStallRecoveryTimeout ≤ t.dueNow - s.lastProgressTime)

/-- A request stays over a round: it is not removed by itself, nor with all segment requests. -/
def Tick.stays (t : Tick Peer) (s : State Peer) (request : PendingHeaderRequest Peer) : Bool :=
  match t.dueManagerOpt with
  | none => true
  | some m => !isRemoved m t.dueNow t.headerHeight request &&
    !(isPIHDIdentifier request.identifier &&
      (t.isStalled s || (m.connectedPeers.filter (canUsePIHD · m.mostWork)).isEmpty))

/-- Requests of which none is for a segment: nothing is removed with the segments. -/
theorem filter_not_pihd {requests : List (PendingHeaderRequest Peer)}
    (h : ¬ 0 < requests.length -
      (requests.filter fun r => !isPIHDIdentifier r.identifier).length) :
    requests.filter (fun r => !isPIHDIdentifier r.identifier) = requests := by
  have hle := List.length_filter_le (fun r => !isPIHDIdentifier r.identifier) requests
  exact List.filter_sublist.eq_of_length (by omega)

/-- What stays, when there is a connection manager: the requests that are not removed, and of
those the segment requests unless all of them go. -/
theorem filter_stays {t : Tick Peer} {s : State Peer} {m : ConnectionManager Peer}
    (hm : t.dueManagerOpt = some m) :
    s.pendingRequests.filter (t.stays s) =
      if t.isStalled s = true ∨ (m.connectedPeers.filter (canUsePIHD · m.mostWork)).length = 0 then
        (s.pendingRequests.filter fun r => !isRemoved m t.dueNow t.headerHeight r).filter
          fun r => !isPIHDIdentifier r.identifier
      else s.pendingRequests.filter fun r => !isRemoved m t.dueNow t.headerHeight r := by
  split_ifs with hall
  · rw [List.filter_filter]
    refine List.filter_congr fun r _ => ?_
    have hall' : (t.isStalled s || (m.connectedPeers.filter
      (canUsePIHD · m.mostWork)).isEmpty) = true := by
      rwa [Bool.or_eq_true, List.isEmpty_iff_length_eq_zero]
    simp only [Tick.stays, hm, hall', Bool.and_true]
    exact Bool.and_comm _ _
  · refine List.filter_congr fun r _ => ?_
    have hall' : (t.isStalled s || (m.connectedPeers.filter
      (canUsePIHD · m.mostWork)).isEmpty) = false := by
      rwa [← Bool.not_eq_true, Bool.or_eq_true, List.isEmpty_iff_length_eq_zero]
    simp only [Tick.stays, hm, hall', Bool.and_false, Bool.not_false, Bool.and_true]

/-- **The requests that a round keeps.** -/
theorem pendingRequests_due (t : Tick Peer) (s : State Peer) :
    (t.due s).2.pendingRequests = s.pendingRequests.filter (t.stays s) := by
  unfold Tick.due isHeaderSyncDue
  split
  · next hempty =>
    rw [List.isEmpty_iff.1 hempty]
    rfl
  · split
    · next hm =>
      refine (List.filter_eq_self.2 fun r _ => ?_).symm
      rw [Tick.stays, hm]
    · next m hm =>
      rw [filter_stays hm]
      dsimp only
      generalize hs' : (if t.headerHeight ≠ s.lastProgressHeight then
        { s with lastProgressHeight := t.headerHeight, lastProgressTime := t.dueNow } else s) = s'
      have hpending : s'.pendingRequests = s.pendingRequests := by
        rw [← hs']
        split_ifs <;> rfl
      have hstalled : t.isStalled s = true ↔ t.headerHeight = s'.lastProgressHeight ∧
          pihdStallRecoveryTimeout ≤ t.dueNow - s'.lastProgressTime := by
        rw [← hs', Tick.isStalled]
        split_ifs with hprogress
        · simp [hprogress, pihdStallRecoveryTimeout]
        · simp
      rw [hpending]
      by_cases hall : t.isStalled s = true ∨
          (m.connectedPeers.filter (canUsePIHD · m.mostWork)).length = 0
      · rw [if_pos hall]
        split_ifs with hstall hpeers hlegacy hdue
        · rfl
        · rfl
        · rfl
        · exact (filter_not_pihd fun hpos =>
            hstall ⟨hpos, hstalled.1 (hall.resolve_right hpeers)⟩).symm
        · exact (filter_not_pihd fun hpos =>
            hstall ⟨hpos, hstalled.1 (hall.resolve_right hpeers)⟩).symm
      · rw [if_neg hall]
        split_ifs with hstall hpeers hlegacy hdue
        · exact absurd (.inl (hstalled.2 hstall.2)) hall
        · exact absurd (.inr hpeers) hall
        · exact absurd (.inr hpeers) hall
        · rfl
        · rfl

/-! ### The invariant of the requests -/

/-- **The requests are numbered**: no two are for the same segment, and the indices stay away from
the end of the 64 bits, where the first height of a segment would wrap around. -/
structure Numbered (requests : List (PendingHeaderRequest Peer)) : Prop where
  /-- No two are for the same segment. -/
  nodup : (requests.map fun r => r.identifier).Nodup
  /-- The segments end within the 64 bits. -/
  bound : ∀ r ∈ requests, isPIHDIdentifier r.identifier = true →
    r.identifier.index.toNat + 1 < 2 ^ 55

theorem numbered_nil : Numbered ([] : List (PendingHeaderRequest Peer)) :=
  ⟨List.nodup_nil, by rintro r ⟨⟩⟩

theorem Numbered.filter {requests : List (PendingHeaderRequest Peer)} (h : Numbered requests)
    (p : PendingHeaderRequest Peer → Bool) : Numbered (requests.filter p) :=
  ⟨h.nodup.sublist (List.filter_sublist.map _),
    fun r hr => h.bound r (List.mem_of_mem_filter hr)⟩

/-- The identifier of the segment that holds the next header. -/
def neededSegment (height : UInt64) : SegmentIdentifier :=
  ⟨P2P.pihdHeaderSegmentHeight, (height + 1 - 1) / segmentSize⟩

theorem toNat_neededIndex (height : UInt64) :
    (neededSegment height).index.toNat = height.toNat / 512 := by
  rw [neededSegment, UInt64.add_sub_cancel, UInt64.toNat_div]
  rfl

/-- A segment request of which the headers have not come is not in front of the needed one. -/
theorem le_of_not_isCompleted {height : UInt64} {identifier : SegmentIdentifier}
    (h : isPIHDIdentifier identifier = true) (hbound : identifier.index.toNat + 1 < 2 ^ 55)
    (hnot : isCompleted height identifier = false) :
    (neededSegment height).index.toNat ≤ identifier.index.toNat := by
  have hcapacity : identifier.getSegmentCapacity = 512 := by
    have hheight : identifier.height = P2P.pihdHeaderSegmentHeight := by
      simpa [isPIHDIdentifier] using h
    rw [SegmentIdentifier.getSegmentCapacity, hheight]
    rfl
  rw [isCompleted, if_pos h, SegmentIdentifier.getLeafOffset, hcapacity,
    decide_eq_false_iff_not] at hnot
  rw [toNat_neededIndex]
  omega

/-- Without a connection manager nothing is due, unless nothing is pending. -/
theorem pendingRequests_eq_nil_of_due {t : Tick Peer} {s : State Peer}
    (hm : t.dueManagerOpt = none) (hdue : (t.due s).1 = true) : s.pendingRequests = [] := by
  unfold Tick.due isHeaderSyncDue at hdue
  split at hdue
  · next hempty => exact List.isEmpty_iff.1 hempty
  · simp [hm] at hdue

/-- **Behind a round that is due, no segment request is in front of the needed one.** -/
theorem needed_le_of_due {t : Tick Peer} {s : State Peer} (hs : Numbered s.pendingRequests)
    (hdue : (t.due s).1 = true) {r : PendingHeaderRequest Peer}
    (hr : r ∈ (t.due s).2.pendingRequests) (hpihd : isPIHDIdentifier r.identifier = true) :
    (neededSegment t.headerHeight).index.toNat ≤ r.identifier.index.toNat := by
  rw [pendingRequests_due, List.mem_filter] at hr
  obtain ⟨hr, hstays⟩ := hr
  cases hm : t.dueManagerOpt with
  | none =>
    rw [pendingRequests_eq_nil_of_due hm hdue] at hr
    cases hr
  | some m =>
    refine le_of_not_isCompleted hpihd (hs.bound r hr hpihd) ?_
    simp only [Tick.stays, hm, isRemoved, Bool.and_eq_true, Bool.not_eq_true',
      Bool.or_eq_false_iff] at hstays
    exact hstays.1.2

/-! ### `RequestHeaders` -/

section Requests

variable [DecidableEq Peer]

/-- The variables of the loops of `RequestHeaders`. -/
structure Loop (Peer : Type) where
  /-- `m_pendingRequests`. -/
  pendingRequests : List (PendingHeaderRequest Peer)
  /-- `nextSegmentIndex`. -/
  nextSegmentIndex : UInt64
  /-- `sentCount`. -/
  sentCount : ℕ
  /-- `SyncStatus::m_headerSyncType`. -/
  headerSyncType : EHeaderSyncType

/-- `peerPendingCount`. -/
def peerPendingCount (pendingRequests : List (PendingHeaderRequest Peer))
    (peerOpt : Option Peer) : ℕ :=
  pendingRequests.countP fun r =>
    r.peerOpt.isSome && r.peerOpt = peerOpt && isPIHDIdentifier r.identifier

/-- The inner loop of `RequestHeaders`, within a number of rounds. -/
def requestFromPeer (m : ConnectionManager Peer) (timeout : ℤ) (pihdPendingCount : ℕ)
    (peer : ConnectedPeer Peer) : ℕ → Loop Peer → Loop Peer
  | 0, l => l
  | rounds + 1, l =>
    if l.sentCount < pihdMaxRequestsPerTick ∧
        pihdPendingCount + l.sentCount < pihdMaxInFlightSegments then
      if pihdMaxInFlightSegmentsPerPeer ≤ peerPendingCount l.pendingRequests peer.peerOpt then l
      else if peer.height < l.nextSegmentIndex * segmentSize + 1 then l
      else
        let identifier : SegmentIdentifier := ⟨P2P.pihdHeaderSegmentHeight, l.nextSegmentIndex⟩
        if m.sendMessageToPeer identifier peer.peerOpt then
          requestFromPeer m timeout pihdPendingCount peer rounds
            { pendingRequests := l.pendingRequests ++ [⟨peer.peerOpt, identifier, timeout⟩]
              nextSegmentIndex := l.nextSegmentIndex + 1
              sentCount := l.sentCount + 1
              headerSyncType := .pihd }
        -- the index has been counted, whether the message is sent or not
        else { l with nextSegmentIndex := l.nextSegmentIndex + 1 }
    else l

/-- The outer loop of `RequestHeaders`. A round of the inner one sends a message or is the last,
so the number of messages of a tick is enough rounds. -/
def requestFromPeers (m : ConnectionManager Peer) (timeout : ℤ) (pihdPendingCount : ℕ) :
    List (ConnectedPeer Peer) → Loop Peer → Loop Peer
  | [], l => l
  | peer :: peers, l =>
    if pihdMaxRequestsPerTick ≤ l.sentCount then l
    else if pihdMaxInFlightSegments ≤ pihdPendingCount + l.sentCount then l
    else requestFromPeers m timeout pihdPendingCount peers
      (requestFromPeer m timeout pihdPendingCount peer pihdMaxRequestsPerTick l)

/-- `nextSegmentIndex`, before the loops: the segment of the next height, or the one behind the
largest that is pending. -/
def firstSegmentIndex (height : UInt64) (pendingRequests : List (PendingHeaderRequest Peer)) :
    UInt64 :=
  pendingRequests.foldl (fun index r =>
    if isPIHDIdentifier r.identifier then max index (r.identifier.index + 1) else index)
    ((height + 1 - 1) / segmentSize)

/-- `HeaderSyncer::RequestHeaders`, with the state it leaves. -/
def requestHeaders (height : UInt64) (managerOpt : Option (ConnectionManager Peer)) (now : ℤ)
    (s : State Peer) : Bool × State Peer :=
  match managerOpt with
  | none => (false, s)
  | some m =>
    let pihdPeers := m.connectedPeers.filter (canUsePIHD · m.mostWork)
    let timeout := now + pihdHeaderTimeout
    let pihdPendingCount := s.pendingRequests.countP fun r => isPIHDIdentifier r.identifier
    let l := requestFromPeers m timeout pihdPendingCount pihdPeers
      ⟨s.pendingRequests, firstSegmentIndex height s.pendingRequests, 0, s.headerSyncType⟩
    if l.sentCount = 0 ∧ l.pendingRequests = [] then
      match m.sendMessageToMostWorkPeer with
      | none =>
        (false,
          { s with pendingRequests := l.pendingRequests, headerSyncType := l.headerSyncType })
      | some peer =>
        (true,
          { s with
            pendingRequests := [⟨some peer, ⟨0, height⟩, timeout⟩]
            headerSyncType := .legacy
            lastHeight := height })
    else
      (decide (0 < l.sentCount),
        { s with
          pendingRequests := l.pendingRequests
          headerSyncType := l.headerSyncType
          lastHeight := if 0 < l.sentCount then height else s.lastHeight })

/-! ### A round -/

/-- The condition under which `SyncHeaders` goes on asking for headers. -/
def Tick.isBehind (t : Tick Peer) : Prop :=
  t.networkHeight ≠ 0 ∧
    (t.headerHeight + 5 ≤ t.networkHeight ∨
      t.startup = true ∧ t.headerHeight < t.networkHeight)

instance (t : Tick Peer) : Decidable t.isBehind :=
  inferInstanceAs (Decidable (t.networkHeight ≠ 0 ∧ _))

/-- `RequestHeaders` on a round. -/
def Tick.request (t : Tick Peer) (s : State Peer) : State Peer :=
  (requestHeaders t.headerHeight t.requestManagerOpt t.requestNow s).2

/-- `HeaderSyncer::SyncHeaders`, with the state it leaves. -/
def syncHeaders (t : Tick Peer) (s : State Peer) : Bool × State Peer :=
  if t.networkHeight = 0 then (true, s)
  else if t.isBehind then
    if (t.due s).1 then (true, t.request (t.due s).2) else (true, (t.due s).2)
  else (false, { s with pendingRequests := [], headerSyncType := .unknown })

/-! ### The loops -/

/-- What holds between two rounds of the loops: the requests are numbered, and the next index is
behind all of them. -/
structure Loop.Numbered (l : Loop Peer) : Prop where
  /-- No two are for the same segment. -/
  nodup : (l.pendingRequests.map fun r => r.identifier).Nodup
  /-- The next index has not been used. -/
  below : ∀ r ∈ l.pendingRequests, isPIHDIdentifier r.identifier = true →
    r.identifier.index.toNat < l.nextSegmentIndex.toNat
  /-- The first height of the next segment has 64 bits. -/
  next_lt : l.nextSegmentIndex.toNat < 2 ^ 55

/-- What the loops do to their variables: requests are added, from the next index on. -/
structure Loop.Extends (l l' : Loop Peer) : Prop where
  /-- No request is taken away. -/
  keeps : ∀ r ∈ l.pendingRequests, r ∈ l'.pendingRequests
  /-- The new ones are for segments from the next index on. -/
  adds : ∀ r ∈ l'.pendingRequests, r ∈ l.pendingRequests ∨
    isPIHDIdentifier r.identifier = true ∧
      l.nextSegmentIndex.toNat ≤ r.identifier.index.toNat
  /-- The next index goes up. -/
  next_le : l.nextSegmentIndex.toNat ≤ l'.nextSegmentIndex.toNat

omit [DecidableEq Peer] in
theorem Loop.Extends.refl (l : Loop Peer) : l.Extends l :=
  ⟨fun _ h => h, fun _ h => .inl h, le_rfl⟩

omit [DecidableEq Peer] in
theorem Loop.Extends.trans {l₁ l₂ l₃ : Loop Peer} (h : l₁.Extends l₂) (h' : l₂.Extends l₃) :
    l₁.Extends l₃ := by
  refine ⟨fun r hr => h'.keeps r (h.keeps r hr), fun r hr => ?_, h.next_le.trans h'.next_le⟩
  rcases h'.adds r hr with hr | ⟨hpihd, hle⟩
  · exact h.adds r hr
  · exact .inr ⟨hpihd, h.next_le.trans hle⟩

/-- Peers do not claim heights at the end of the 64 bits. -/
def PeersBounded (peers : List (ConnectedPeer Peer)) : Prop :=
  ∀ peer ∈ peers, peer.height.toNat < 2 ^ 64 - 512

/-- The first height of a segment, while it has 64 bits. -/
theorem toNat_firstHeight {index : UInt64} (h : index.toNat < 2 ^ 55) :
    (index * segmentSize + 1).toNat = index.toNat * 512 + 1 := by
  have hsize : segmentSize.toNat = 512 := rfl
  rw [UInt64.toNat_add, UInt64.toNat_mul, hsize, UInt64.toNat_one]
  omega

section OneRound

variable {m : ConnectionManager Peer} {timeout : ℤ} {pihdPendingCount : ℕ}
  {peer : ConnectedPeer Peer}

omit [DecidableEq Peer] in
/-- The next index after one has been used or skipped. -/
theorem toNat_succ_index {l : Loop Peer} (hl : l.Numbered)
    (hpeer : peer.height.toNat < 2 ^ 64 - 512)
    (hheight : ¬ peer.height < l.nextSegmentIndex * segmentSize + 1) :
    (l.nextSegmentIndex + 1).toNat = l.nextSegmentIndex.toNat + 1 ∧
      l.nextSegmentIndex.toNat + 1 < 2 ^ 55 := by
  rw [UInt64.not_lt, UInt64.le_iff_toNat_le, toNat_firstHeight hl.next_lt] at hheight
  have hlt := hl.next_lt
  rw [UInt64.toNat_add, UInt64.toNat_one]
  omega

omit [DecidableEq Peer] in
/-- A request for the next segment, and the next index behind it. -/
theorem Loop.Numbered.push {l : Loop Peer} (hl : l.Numbered) {next : UInt64}
    (hnext : next.toNat = l.nextSegmentIndex.toNat + 1) (hlt : next.toNat < 2 ^ 55)
    (peerOpt : Option Peer) (sentCount : ℕ) (headerSyncType : EHeaderSyncType) :
    (⟨l.pendingRequests ++ [⟨peerOpt, ⟨P2P.pihdHeaderSegmentHeight, l.nextSegmentIndex⟩, timeout⟩],
        next, sentCount, headerSyncType⟩ : Loop Peer).Numbered ∧
      l.Extends ⟨l.pendingRequests ++
        [⟨peerOpt, ⟨P2P.pihdHeaderSegmentHeight, l.nextSegmentIndex⟩, timeout⟩],
        next, sentCount, headerSyncType⟩ := by
  refine ⟨⟨?_, ?_, hlt⟩, ⟨?_, ?_, by dsimp only; omega⟩⟩
  · rw [List.map_append, List.nodup_append]
    refine ⟨hl.nodup, List.nodup_singleton _, fun a ha b hb heq => ?_⟩
    obtain ⟨r, hr, rfl⟩ := List.mem_map.1 ha
    rw [List.map_singleton, List.mem_singleton] at hb
    have hid := heq.trans hb
    have hpihd : isPIHDIdentifier r.identifier = true := by
      rw [hid]
      rfl
    have hlt := hl.below r hr hpihd
    rw [hid] at hlt
    exact Nat.lt_irrefl _ hlt
  · intro r hr hpihd
    rcases List.mem_append.1 hr with hr | hr
    · have := hl.below r hr hpihd
      dsimp only
      omega
    · rw [List.mem_singleton.1 hr]
      dsimp only
      omega
  · exact fun r hr => List.mem_append_left _ hr
  · intro r hr
    rcases List.mem_append.1 hr with hr | hr
    · exact .inl hr
    · rw [List.mem_singleton.1 hr]
      exact .inr ⟨rfl, le_rfl⟩

/-- **One peer**: the variables stay numbered, and are extended. -/
theorem requestFromPeer_spec (hpeer : peer.height.toNat < 2 ^ 64 - 512) (rounds : ℕ)
    {l : Loop Peer} (hl : l.Numbered) :
    (requestFromPeer m timeout pihdPendingCount peer rounds l).Numbered ∧
      l.Extends (requestFromPeer m timeout pihdPendingCount peer rounds l) := by
  induction rounds generalizing l with
  | zero => exact ⟨hl, .refl l⟩
  | succ rounds ih =>
    unfold requestFromPeer
    dsimp only
    split_ifs with hroom hcount hheight hsent
    · exact ⟨hl, .refl l⟩
    · exact ⟨hl, .refl l⟩
    · obtain ⟨hnext, hlt⟩ := toNat_succ_index hl hpeer hheight
      obtain ⟨hnumbered, hextends⟩ := hl.push hnext (hnext ▸ hlt) peer.peerOpt
        (l.sentCount + 1) .pihd
      obtain ⟨hrest, hext⟩ := ih hnumbered
      exact ⟨hrest, hextends.trans hext⟩
    · -- the message was not sent: the index is skipped
      obtain ⟨hnext, hlt⟩ := toNat_succ_index hl hpeer hheight
      refine ⟨⟨hl.nodup, fun r hr hpihd => ?_, hnext ▸ hlt⟩, ⟨fun _ h => h, fun _ h => .inl h, ?_⟩⟩
      · have := hl.below r hr hpihd
        dsimp only
        omega
      · dsimp only
        omega
    · exact ⟨hl, .refl l⟩

/-- **All peers.** -/
theorem requestFromPeers_spec {peers : List (ConnectedPeer Peer)} (hpeers : PeersBounded peers)
    {l : Loop Peer} (hl : l.Numbered) :
    (requestFromPeers m timeout pihdPendingCount peers l).Numbered ∧
      l.Extends (requestFromPeers m timeout pihdPendingCount peers l) := by
  induction peers generalizing l with
  | nil => exact ⟨hl, .refl l⟩
  | cons peer peers ih =>
    rw [requestFromPeers]
    split_ifs with hsent hroom
    · exact ⟨hl, .refl l⟩
    · exact ⟨hl, .refl l⟩
    · obtain ⟨hone, hext⟩ := @requestFromPeer_spec _ _ m timeout pihdPendingCount peer
        (hpeers peer List.mem_cons_self) pihdMaxRequestsPerTick l hl
      obtain ⟨hrest, hext'⟩ := ih (fun p hp => hpeers p (List.mem_cons_of_mem _ hp)) hone
      exact ⟨hrest, hext.trans hext'⟩

/-- A segment is among the requests. -/
def Pending (identifier : SegmentIdentifier) (requests : List (PendingHeaderRequest Peer)) : Prop :=
  ∃ r ∈ requests, r.identifier = identifier

/-- A peer is at or above the first height of the needed segment. -/
def reaches (height : UInt64) (peer : ConnectedPeer Peer) : Bool :=
  !decide (peer.height < (neededSegment height).index * segmentSize + 1)

theorem peerPendingCount_eq_zero {requests : List (PendingHeaderRequest Peer)}
    (h : ∀ r ∈ requests, isPIHDIdentifier r.identifier = false) (peerOpt : Option Peer) :
    peerPendingCount requests peerOpt = 0 := by
  refine List.countP_eq_zero.2 fun r hr => ?_
  rw [h r hr, Bool.and_false]
  exact Bool.false_ne_true

/-- **The first peer that is high enough is asked for the needed segment**, when no segment is
pending; whether the segment is pending then, is whether the message was sent. -/
theorem pending_needed_iff {height : UInt64} {peers : List (ConnectedPeer Peer)}
    (hpeers : PeersBounded peers) {l : Loop Peer} (hl : l.Numbered)
    (hnone : ∀ r ∈ l.pendingRequests, isPIHDIdentifier r.identifier = false)
    (hnext : l.nextSegmentIndex = (neededSegment height).index) (hsent : l.sentCount = 0)
    {asked : ConnectedPeer Peer} (hasked : peers.find? (reaches height) = some asked) :
    Pending (neededSegment height)
        (requestFromPeers m timeout 0 peers l).pendingRequests ↔
      m.sendMessageToPeer (neededSegment height) asked.peerOpt = true := by
  induction peers with
  | nil => cases hasked
  | cons peer peers ih =>
    have hpeers' : PeersBounded peers := fun p hp => hpeers p (List.mem_cons_of_mem _ hp)
    rw [requestFromPeers, hsent, if_neg (by decide), if_neg (by decide)]
    by_cases hreach : reaches height peer = true
    · rw [List.find?_cons_of_pos hreach] at hasked
      obtain rfl := Option.some.inj hasked
      have hheight : ¬ peer.height < l.nextSegmentIndex * segmentSize + 1 := by
        rw [hnext]
        simpa [reaches] using hreach
      obtain ⟨hsucc, hlt⟩ := toNat_succ_index hl (hpeers peer List.mem_cons_self) hheight
      have hstep : requestFromPeer m timeout 0 peer pihdMaxRequestsPerTick l =
          if m.sendMessageToPeer (neededSegment height) peer.peerOpt then
            requestFromPeer m timeout 0 peer 7
              { pendingRequests := l.pendingRequests ++
                  [⟨peer.peerOpt, neededSegment height, timeout⟩]
                nextSegmentIndex := l.nextSegmentIndex + 1
                sentCount := l.sentCount + 1
                headerSyncType := .pihd }
          else { l with nextSegmentIndex := l.nextSegmentIndex + 1 } := by
        rw [pihdMaxRequestsPerTick, requestFromPeer, hsent, if_pos (by decide),
          peerPendingCount_eq_zero hnone, if_neg (by decide), if_neg hheight, hnext]
        rfl
      rw [hstep]
      split_ifs with hsend
      · -- the request is pending, and stays so
        refine iff_of_true ?_ hsend
        obtain ⟨hpushed, -⟩ := @Loop.Numbered.push _ timeout l hl _ hsucc (hsucc ▸ hlt)
          peer.peerOpt (l.sentCount + 1) .pihd
        have hid : (⟨P2P.pihdHeaderSegmentHeight, l.nextSegmentIndex⟩ : SegmentIdentifier) =
            neededSegment height := by
          rw [hnext]
          rfl
        rw [hid] at hpushed
        obtain ⟨hone, hext⟩ := @requestFromPeer_spec _ _ m timeout 0 peer
          (hpeers peer List.mem_cons_self) 7 _ hpushed
        obtain ⟨-, hext'⟩ := @requestFromPeers_spec _ _ m timeout 0 _ hpeers' _ hone
        exact ⟨⟨peer.peerOpt, neededSegment height, timeout⟩,
          hext'.keeps _ (hext.keeps _ (List.mem_append_right _ (List.mem_singleton.2 rfl))), rfl⟩
      · -- the index was skipped: whatever is asked for now lies behind it
        refine iff_of_false ?_ hsend
        have hskipped : (⟨l.pendingRequests, l.nextSegmentIndex + 1, l.sentCount,
            l.headerSyncType⟩ : Loop Peer).Numbered := by
          refine ⟨hl.nodup, fun r hr hpihd => ?_, hsucc ▸ hlt⟩
          rw [hnone r hr] at hpihd
          cases hpihd
        obtain ⟨-, hext⟩ := @requestFromPeers_spec _ _ m timeout 0 _ hpeers' _ hskipped
        rintro ⟨r, hr, hid⟩
        have hpihd : isPIHDIdentifier r.identifier = true := by
          rw [hid]
          rfl
        rcases hext.adds r hr with hmem | ⟨-, hle⟩
        · rw [hnone r hmem] at hpihd
          cases hpihd
        · rw [hid, ← hnext] at hle
          dsimp only at hle
          omega
    · rw [List.find?_cons_of_neg hreach] at hasked
      have hskip : requestFromPeer m timeout 0 peer pihdMaxRequestsPerTick l = l := by
        have hheight : peer.height < l.nextSegmentIndex * segmentSize + 1 := by
          rw [hnext]
          simpa [reaches] using hreach
        rw [pihdMaxRequestsPerTick, requestFromPeer, hsent, if_pos (by decide),
          peerPendingCount_eq_zero hnone, if_neg (by decide), if_pos hheight]
      rw [hskip]
      exact ih hpeers' hasked

end OneRound

/-! ### One call of `RequestHeaders` -/

omit [DecidableEq Peer] in
theorem toNat_max (a b : UInt64) : (max a b).toNat = max a.toNat b.toNat := by
  have hmax : max a b = if a ≤ b then b else a := rfl
  rw [hmax]
  split_ifs with h
  · exact (Nat.max_eq_right (UInt64.le_iff_toNat_le.1 h)).symm
  · exact (Nat.max_eq_left (Nat.le_of_not_le fun hle => h (UInt64.le_iff_toNat_le.2 hle))).symm

omit [DecidableEq Peer] in
/-- **The first index to request** is not in front of the needed one, and behind every segment
that is pending. -/
theorem firstSegmentIndex_spec {height : UInt64} {requests : List (PendingHeaderRequest Peer)}
    (h : ∀ r ∈ requests, isPIHDIdentifier r.identifier = true →
      r.identifier.index.toNat + 1 < 2 ^ 55) :
    (firstSegmentIndex height requests).toNat < 2 ^ 55 ∧
      (neededSegment height).index.toNat ≤ (firstSegmentIndex height requests).toNat ∧
      ∀ r ∈ requests, isPIHDIdentifier r.identifier = true →
        r.identifier.index.toNat < (firstSegmentIndex height requests).toNat := by
  have hfold : ∀ index : UInt64, index.toNat < 2 ^ 55 →
      (requests.foldl (fun index r =>
        if isPIHDIdentifier r.identifier then max index (r.identifier.index + 1) else index)
        index).toNat < 2 ^ 55 ∧
      index.toNat ≤ (requests.foldl (fun index r =>
        if isPIHDIdentifier r.identifier then max index (r.identifier.index + 1) else index)
        index).toNat ∧
      ∀ r ∈ requests, isPIHDIdentifier r.identifier = true →
        r.identifier.index.toNat < (requests.foldl (fun index r =>
          if isPIHDIdentifier r.identifier then max index (r.identifier.index + 1) else index)
          index).toNat := by
    induction requests with
    | nil => exact fun index hlt => ⟨hlt, le_rfl, by rintro r ⟨⟩⟩
    | cons r requests ih =>
      intro index hlt
      have ih' := ih fun r' hr' => h r' (List.mem_cons_of_mem _ hr')
      rw [List.foldl_cons]
      split_ifs with hpihd
      · have hr := h r List.mem_cons_self hpihd
        have hsucc : (r.identifier.index + 1).toNat = r.identifier.index.toNat + 1 := by
          rw [UInt64.toNat_add, UInt64.toNat_one]
          omega
        obtain ⟨hres, hle, hall⟩ := ih' (max index (r.identifier.index + 1)) (by
          rw [toNat_max, hsucc]
          omega)
        rw [toNat_max, hsucc] at hle
        refine ⟨hres, by omega, fun r' hr' hpihd' => ?_⟩
        rcases List.mem_cons.1 hr' with rfl | hr'
        · omega
        · exact hall r' hr' hpihd'
      · obtain ⟨hres, hle, hall⟩ := ih' index hlt
        refine ⟨hres, hle, fun r' hr' hpihd' => ?_⟩
        rcases List.mem_cons.1 hr' with rfl | hr'
        · exact absurd hpihd' hpihd
        · exact hall r' hr' hpihd'
  refine hfold _ ?_
  have hneeded := toNat_neededIndex height
  have hheight := height.toNat_lt
  rw [neededSegment] at hneeded
  dsimp only at hneeded
  omega

omit [DecidableEq Peer] in
/-- Without a segment pending it is the needed one. -/
theorem firstSegmentIndex_of_none {height : UInt64} {requests : List (PendingHeaderRequest Peer)}
    (h : ∀ r ∈ requests, isPIHDIdentifier r.identifier = false) :
    firstSegmentIndex height requests = (neededSegment height).index := by
  have hfold : ∀ index : UInt64, requests.foldl (fun index r =>
      if isPIHDIdentifier r.identifier then max index (r.identifier.index + 1) else index)
      index = index := by
    induction requests with
    | nil => exact fun index => rfl
    | cons r requests ih =>
      intro index
      have hr := h r List.mem_cons_self
      rw [List.foldl_cons, hr, if_neg Bool.false_ne_true]
      exact ih (fun r' hr' => h r' (List.mem_cons_of_mem _ hr')) index
  exact hfold _

/-- The variables of the loops, before them. -/
def startLoop (height : UInt64) (s : State Peer) : Loop Peer :=
  ⟨s.pendingRequests, firstSegmentIndex height s.pendingRequests, 0, s.headerSyncType⟩

omit [DecidableEq Peer] in
theorem numbered_startLoop (height : UInt64) {s : State Peer} (hs : Numbered s.pendingRequests) :
    (startLoop height s).Numbered :=
  have h := @firstSegmentIndex_spec _ height _ hs.bound
  ⟨hs.nodup, h.2.2, h.1⟩

omit [DecidableEq Peer] in
theorem Loop.Numbered.pendingRequests {l : Loop Peer} (h : l.Numbered) :
    HeaderSyncer.Numbered l.pendingRequests := by
  refine ⟨h.nodup, fun r hr hpihd => ?_⟩
  have hbelow := h.below r hr hpihd
  have hlt := h.next_lt
  omega

/-- The requests behind a call: those of the loops, or one for headers when there are none. -/
theorem pendingRequests_requestHeaders (height : UInt64) (m : ConnectionManager Peer) (now : ℤ)
    (s : State Peer) :
    ∃ l, l = requestFromPeers m (now + pihdHeaderTimeout)
        (s.pendingRequests.countP fun r => isPIHDIdentifier r.identifier)
        (m.connectedPeers.filter (canUsePIHD · m.mostWork)) (startLoop height s) ∧
      ((requestHeaders height (some m) now s).2.pendingRequests = l.pendingRequests ∨
        l.pendingRequests = [] ∧ ∃ peer timeout,
          (requestHeaders height (some m) now s).2.pendingRequests =
            [⟨some peer, ⟨0, height⟩, timeout⟩]) := by
  refine ⟨_, rfl, ?_⟩
  unfold requestHeaders startLoop
  dsimp only
  split
  · next hlegacy =>
    split
    · exact .inl rfl
    · next peer hpeer => exact .inr ⟨hlegacy.2, peer, _, rfl⟩
  · exact .inl rfl

/-- **A call keeps the requests numbered.** -/
theorem Numbered.requestHeaders {height : UInt64} {managerOpt : Option (ConnectionManager Peer)}
    {now : ℤ} {s : State Peer} (hs : Numbered s.pendingRequests)
    (hpeers : ∀ m, managerOpt = some m → PeersBounded m.connectedPeers) :
    Numbered (requestHeaders height managerOpt now s).2.pendingRequests := by
  cases managerOpt with
  | none => exact hs
  | some m =>
    obtain ⟨l, hl, hcases⟩ := pendingRequests_requestHeaders height m now s
    have hbounded : PeersBounded (m.connectedPeers.filter (canUsePIHD · m.mostWork)) :=
      fun peer hpeer => hpeers m rfl peer (List.mem_of_mem_filter hpeer)
    obtain ⟨hnumbered, -⟩ := @requestFromPeers_spec _ _ m (now + pihdHeaderTimeout)
      (s.pendingRequests.countP fun r => isPIHDIdentifier r.identifier) _ hbounded _
      (numbered_startLoop height hs)
    rw [← hl] at hnumbered
    rcases hcases with h | ⟨-, peer, timeout, h⟩
    · rw [h]
      exact hnumbered.pendingRequests
    · rw [h]
      refine ⟨List.nodup_singleton _, fun r hr hpihd => ?_⟩
      rw [List.mem_singleton.1 hr] at hpihd
      cases hpihd

/-- The peer that is asked for the needed segment first. -/
def firstAsked (height : UInt64) (m : ConnectionManager Peer) : Option (ConnectedPeer Peer) :=
  (m.connectedPeers.filter (canUsePIHD · m.mostWork)).find? (reaches height)

/-- **When the needed segment is asked for.** When it is not in front of any segment that is
pending, it is pending behind a call exactly if it was before; when nothing is pending that lies
behind it, exactly if the message to the first peer that is high enough is sent. -/
theorem needed_mem_requestHeaders {height : UInt64} {m : ConnectionManager Peer} {now : ℤ}
    {s : State Peer} (hs : Numbered s.pendingRequests) (hpeers : PeersBounded m.connectedPeers)
    (hfront : ∀ r ∈ s.pendingRequests, isPIHDIdentifier r.identifier = true →
      (neededSegment height).index.toNat ≤ r.identifier.index.toNat)
    {asked : ConnectedPeer Peer} (hasked : firstAsked height m = some asked) :
    Pending (neededSegment height) (requestHeaders height (some m) now s).2.pendingRequests ↔
      Pending (neededSegment height) s.pendingRequests ∨
        (∀ r ∈ s.pendingRequests, isPIHDIdentifier r.identifier = false) ∧
          m.sendMessageToPeer (neededSegment height) asked.peerOpt = true := by
  obtain ⟨l, hl, hcases⟩ := pendingRequests_requestHeaders height m now s
  have hbounded : PeersBounded (m.connectedPeers.filter (canUsePIHD · m.mostWork)) :=
    fun peer hpeer => hpeers peer (List.mem_of_mem_filter hpeer)
  have hloop : Pending (neededSegment height)
      (HeaderSyncer.requestHeaders height (some m) now s).2.pendingRequests ↔
        Pending (neededSegment height) l.pendingRequests := by
    rcases hcases with h | ⟨hnil, peer, timeout, h⟩
    · rw [h]
    · rw [h, hnil]
      refine iff_of_false ?_ (by rintro ⟨r, ⟨⟩, -⟩)
      rintro ⟨r, hr, hid⟩
      rw [List.mem_singleton.1 hr] at hid
      cases hid
  rw [hloop, hl]
  by_cases hnone : ∀ r ∈ s.pendingRequests, isPIHDIdentifier r.identifier = false
  · have hcount : (s.pendingRequests.countP fun r => isPIHDIdentifier r.identifier) = 0 :=
      List.countP_eq_zero.2 fun r hr => by rw [hnone r hr]; exact Bool.false_ne_true
    have hnot : ¬ Pending (neededSegment height) s.pendingRequests := by
      rintro ⟨r, hr, hid⟩
      have hpihd := hnone r hr
      rw [hid] at hpihd
      cases hpihd
    rw [hcount, pending_needed_iff hbounded (numbered_startLoop height hs) hnone
      (firstSegmentIndex_of_none hnone) rfl hasked]
    exact ⟨fun h => .inr ⟨hnone, h⟩, fun h => (h.resolve_left hnot).2⟩
  · -- a segment is pending: the next index lies behind it
    obtain ⟨r, hr, hpihd⟩ : ∃ r ∈ s.pendingRequests, isPIHDIdentifier r.identifier = true := by
      simpa using hnone
    obtain ⟨-, hext⟩ := @requestFromPeers_spec _ _ m (now + pihdHeaderTimeout)
      (s.pendingRequests.countP fun r => isPIHDIdentifier r.identifier) _ hbounded _
      (numbered_startLoop height hs)
    have hbehind := (@firstSegmentIndex_spec _ height _ hs.bound).2.2 r hr hpihd
    have hle := hfront r hr hpihd
    constructor
    · rintro ⟨r', hr', hid⟩
      rcases hext.adds r' hr' with hmem | ⟨-, hnext⟩
      · exact .inl ⟨r', hmem, hid⟩
      · rw [hid] at hnext
        have hstart : (startLoop height s).nextSegmentIndex =
            firstSegmentIndex height s.pendingRequests := rfl
        rw [hstart] at hnext
        omega
    · rintro (⟨r', hr', hid⟩ | ⟨hall, -⟩)
      · exact ⟨r', hext.keeps r' hr', hid⟩
      · exact absurd hall hnone

/-! ### Runs -/

/-- No peer claims a height at the end of the 64 bits. -/
def Tick.Bounded (t : Tick Peer) : Prop :=
  ∀ m, t.requestManagerOpt = some m → PeersBounded m.connectedPeers

/-- On this round `RequestHeaders` is called. -/
def Tick.Requests (t : Tick Peer) (s : State Peer) : Prop :=
  t.isBehind ∧ (t.due s).1 = true

/-- There is a peer that could be asked for the next header: it sends segments, it has free
capacity, and it is at or above the height of that header. -/
def Tick.Servable (t : Tick Peer) (s : State Peer) : Prop :=
  ∃ m, t.requestManagerOpt = some m ∧ ∃ peer ∈ m.connectedPeers,
    canUsePIHD peer m.mostWork = true ∧
      peerPendingCount (t.due s).2.pendingRequests peer.peerOpt <
        pihdMaxInFlightSegmentsPerPeer ∧
      t.headerHeight.toNat + 1 ≤ peer.height.toNat

/-- **The round fills no gap and leaves none**: the request for the needed segment stays, or no
segment request stays and the message for the needed segment can be sent. -/
def Tick.Ready (t : Tick Peer) (s : State Peer) : Prop :=
  (∃ r ∈ s.pendingRequests, r.identifier = neededSegment t.headerHeight ∧ t.stays s r = true) ∨
    (∀ r ∈ s.pendingRequests, isPIHDIdentifier r.identifier = true → t.stays s r = false) ∧
      ∀ m asked, t.requestManagerOpt = some m → firstAsked t.headerHeight m = some asked →
        m.sendMessageToPeer (neededSegment t.headerHeight) asked.peerOpt = true

/-- A header syncer that has just been made. -/
def State.initial (now : ℤ) : State Peer :=
  ⟨0, 0, now, [], .unknown⟩

/-- A run: rounds, one after the other. -/
def run (ticks : List (Tick Peer)) (s : State Peer) : State Peer :=
  ticks.foldl (fun s t => (syncHeaders t s).2) s

/-- What is pending behind a round. -/
theorem numbered_syncHeaders {t : Tick Peer} (ht : t.Bounded) {s : State Peer}
    (hs : Numbered s.pendingRequests) : Numbered (syncHeaders t s).2.pendingRequests := by
  have hdue : Numbered (t.due s).2.pendingRequests := by
    rw [pendingRequests_due]
    exact hs.filter _
  rw [syncHeaders]
  split_ifs
  · exact hs
  · exact hdue.requestHeaders ht
  · exact hdue
  · exact numbered_nil

theorem numbered_run {ticks : List (Tick Peer)} (ht : ∀ t ∈ ticks, t.Bounded) {s : State Peer}
    (hs : Numbered s.pendingRequests) : Numbered (run ticks s).pendingRequests := by
  induction ticks generalizing s with
  | nil => exact hs
  | cons t ticks ih =>
    exact ih (fun t' ht' => ht t' (List.mem_cons_of_mem _ ht'))
      (numbered_syncHeaders (ht t List.mem_cons_self) hs)

omit [DecidableEq Peer] in
/-- A peer at or above the next height is one that is asked for the needed segment. -/
theorem exists_firstAsked {height : UInt64} {m : ConnectionManager Peer}
    {peer : ConnectedPeer Peer} (hpeer : peer ∈ m.connectedPeers)
    (hpihd : canUsePIHD peer m.mostWork = true) (hheight : height.toNat + 1 ≤ peer.height.toNat) :
    ∃ asked, firstAsked height m = some asked := by
  refine Option.isSome_iff_exists.1 (List.find?_isSome.2 ⟨peer, ?_, ?_⟩)
  · exact List.mem_filter.2 ⟨hpeer, hpihd⟩
  · have hneeded := toNat_neededIndex height
    have hlt := height.toNat_lt
    rw [reaches, Bool.not_eq_true', decide_eq_false_iff_not, UInt64.lt_iff_toNat_lt,
      toNat_firstHeight (by omega)]
    omega

/-- **When the needed segment is in flight behind a round.** -/
theorem pending_syncHeaders_iff {t : Tick Peer} (ht : t.Bounded) {s : State Peer}
    (hs : Numbered s.pendingRequests) (hreq : t.Requests s) (hserve : t.Servable s) :
    Pending (neededSegment t.headerHeight) (syncHeaders t s).2.pendingRequests ↔ t.Ready s := by
  obtain ⟨hbehind, hdue⟩ := hreq
  obtain ⟨m, hm, peer, hpeer, hpihd, -, hheight⟩ := hserve
  obtain ⟨asked, hasked⟩ := exists_firstAsked hpeer hpihd hheight
  have hnumbered : Numbered (t.due s).2.pendingRequests := by
    rw [pendingRequests_due]
    exact hs.filter _
  rw [syncHeaders, if_neg hbehind.1, if_pos hbehind, if_pos hdue]
  dsimp only
  rw [Tick.request, hm, needed_mem_requestHeaders hnumbered (ht m hm)
    (fun r hr hpihd => needed_le_of_due hs hdue hr hpihd) hasked,
    pendingRequests_due, Tick.Ready]
  have hstays : Pending (neededSegment t.headerHeight) (s.pendingRequests.filter (t.stays s)) ↔
      ∃ r ∈ s.pendingRequests, r.identifier = neededSegment t.headerHeight ∧
        t.stays s r = true := by
    constructor
    · rintro ⟨r, hr, hid⟩
      obtain ⟨hr, hstays⟩ := List.mem_filter.1 hr
      exact ⟨r, hr, hid, hstays⟩
    · rintro ⟨r, hr, hid, hstays⟩
      exact ⟨r, List.mem_filter.2 ⟨hr, hstays⟩, hid⟩
  have hnone : (∀ r ∈ s.pendingRequests.filter (t.stays s),
      isPIHDIdentifier r.identifier = false) ↔
        ∀ r ∈ s.pendingRequests, isPIHDIdentifier r.identifier = true → t.stays s r = false := by
    constructor
    · intro h r hr hpihd
      by_contra hstays
      have hfalse := h r (List.mem_filter.2 ⟨hr, by simpa using hstays⟩)
      exact Bool.false_ne_true (hfalse.symm.trans hpihd)
    · intro h r hr
      obtain ⟨hr, hstays⟩ := List.mem_filter.1 hr
      by_contra hpihd
      have hfalse := h r hr (by simpa using hpihd)
      exact Bool.false_ne_true (hfalse.symm.trans hstays)
  rw [hstays, hnone]
  refine or_congr_right (and_congr_right fun _ => ⟨fun h m' asked' hm' hasked' => ?_, fun h => ?_⟩)
  · obtain rfl := Option.some.inj (hm.symm.trans hm')
    obtain rfl := Option.some.inj (hasked.symm.trans hasked')
    exact h
  · exact h m asked hm hasked

/-- **Header sync over a run.** In every run in which no peer claims a height at the end of the
64 bits, no segment is pending twice; and behind every call of `RequestHeaders` for which there is
a peer to ask, the segment of the next header is pending exactly if the round was ready for it. -/
theorem inFlight_run (now : ℤ) (ticks : List (Tick Peer)) (ht : ∀ t ∈ ticks, t.Bounded) :
    ((run ticks (.initial now)).pendingRequests.map fun r => r.identifier).Nodup ∧
      ∀ before t after, ticks = before ++ t :: after →
        t.Requests (run before (.initial now)) → t.Servable (run before (.initial now)) →
          (Pending (neededSegment t.headerHeight)
              (run (before ++ [t]) (.initial now)).pendingRequests ↔
            t.Ready (run before (.initial now))) := by
  refine ⟨(numbered_run ht numbered_nil).nodup, fun before t after heq hreq hserve => ?_⟩
  have hbefore : ∀ t' ∈ before, t'.Bounded := fun t' ht' =>
    ht t' (heq ▸ List.mem_append_left _ ht')
  have hlast : t.Bounded := ht t (heq ▸ List.mem_append_right _ List.mem_cons_self)
  have hrun : run (before ++ [t]) (.initial now) =
      (syncHeaders t (run before (.initial now))).2 := by
    rw [run, List.foldl_append]
    rfl
  rw [hrun]
  exact pending_syncHeaders_iff hlast (numbered_run hbefore numbered_nil) hreq hserve

end Requests

/-! ### A gap that is not filled -/

/-- A peer that sends segments, at height 5000. -/
def fastPeer (n : ℕ) : ConnectedPeer ℕ :=
  ⟨some n, 5000, 100, true⟩

/-- Some such peers, to which every message is sent. -/
def fastPeers (peers : List ℕ) : ConnectionManager ℕ where
  mostWork := 100
  connectedPeers := peers.map fastPeer
  isConnected peer := peers.contains peer
  sendMessageToPeer _ _ := true
  sendMessageToMostWorkPeer := none

/-- A round at the genesis block, while the network is at height 6000. -/
def roundWith (peers : List ℕ) : Tick ℕ where
  networkHeight := 6000
  headerHeight := 0
  startup := false
  dueManagerOpt := some (fastPeers peers)
  dueNow := 0
  requestManagerOpt := some (fastPeers peers)
  requestNow := 0

theorem bounded_roundWith (peers : List ℕ) : (roundWith peers).Bounded := by
  intro m hm peer hpeer
  obtain rfl := Option.some.inj hm
  obtain ⟨n, -, rfl⟩ := List.mem_map.1 hpeer
  show (5000 : UInt64).toNat < 2 ^ 64 - 512
  decide

/-- The third peer could be asked on the second round. -/
theorem servable_second :
    (roundWith [2, 3]).Servable (run [roundWith [1, 2]] (.initial 0)) := by
  refine ⟨fastPeers [2, 3], rfl, fastPeer 3, ?_, by decide, by decide +kernel, by decide⟩
  exact List.mem_cons_of_mem _ List.mem_cons_self

/-- **The first peer is asked for the first three segments and leaves; the second one has asked
for the next three. The third one is then asked for what comes behind them.** -/
theorem not_inFlight_second :
    (∀ t ∈ [roundWith [1, 2], roundWith [2, 3]], t.Bounded) ∧
      (roundWith [2, 3]).Requests (run [roundWith [1, 2]] (.initial 0)) ∧
      (roundWith [2, 3]).Servable (run [roundWith [1, 2]] (.initial 0)) ∧
      ¬ Pending (neededSegment 0)
        (run [roundWith [1, 2], roundWith [2, 3]] (.initial 0)).pendingRequests := by
  refine ⟨fun t ht => ?_, ⟨by decide, by decide +kernel⟩, servable_second, ?_⟩
  · simp only [List.mem_cons, List.not_mem_nil, or_false] at ht
    rcases ht with rfl | rfl <;> exact bounded_roundWith _
  · unfold Pending
    decide +kernel

/-- On the first round the needed segment is asked for. -/
theorem inFlight_run_first :
    ((run [roundWith [1, 2]] (.initial 0)).pendingRequests.map fun r => r.identifier).Nodup ∧
      (Pending (neededSegment 0) (run [roundWith [1, 2]] (.initial 0)).pendingRequests ↔
        (roundWith [1, 2]).Ready (.initial 0)) := by
  have h := inFlight_run 0 [roundWith [1, 2]] fun t ht =>
    List.mem_singleton.1 ht ▸ bounded_roundWith _
  refine ⟨h.1, h.2 [] (roundWith [1, 2]) [] rfl ⟨by decide, by decide⟩ ?_⟩
  refine ⟨fastPeers [1, 2], rfl, fastPeer 1, List.mem_cons_self, by decide, by decide, by decide⟩

end HeaderSyncer

end GrinPlusPlus
