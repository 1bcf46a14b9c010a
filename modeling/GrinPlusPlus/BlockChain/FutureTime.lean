import GrinPlusPlus.BlockChain.BlockSpec
import GrinPlusPlus.BlockChain.HeaderMirror
import Mathlib.Algebra.Order.Field.Rat
import Mathlib.Algebra.Order.Ring.Int

/-!
# How far in the future a header may be

The timestamp of a header counts seconds. `Consensus::GetMaxBlockTime` adds five minutes to the
current time and returns the *count* of the result, which is in ticks of
`std::chrono::system_clock`: a second has one tick on no common platform, but 10⁶, 10⁷ or 10⁹.

The limit itself is a statement about seconds (`GrinPlusPlus.WithinLimit`), in which the ticks
only say what time it is. `GrinPlusPlus.forall_withinLimit_iff` compares the two for every rate
of the clock and every time: they agree when a tick is a second, and otherwise only when there is
nothing to accept behind the epoch. `GrinPlusPlus.timely_of_reaches` carries the limit along the
runs of the node, each header with the time of the call that accepted it.
-/

namespace GrinPlusPlus

open Exec MMRHashUtil

/-! ### The limit -/

/-- The time in seconds since the epoch, of a count of ticks. -/
def Global.seconds (G : Global) (ticks : ℤ) : ℚ :=
  ticks / G.clockTicksPerSecond

/-- **The future time limit**: the timestamp, in seconds, is at most the current time and the
limit. -/
def WithinLimit (G : Global) (now : ℤ) (header : BlockHeader) : Prop :=
  (header.getTimestamp : ℚ) ≤ G.seconds now + Consensus.defaultFutureTimeLimitSec

section Limit

variable {G : Global} {now : ℤ} {header previous : BlockHeader}

/-- The limit in ticks. -/
theorem withinLimit_iff (hclock : 0 < G.clockTicksPerSecond) :
    WithinLimit G now header ↔
      header.getTimestamp * G.clockTicksPerSecond ≤ Consensus.getMaxBlockTime G now := by
  have hpos : (0 : ℚ) < G.clockTicksPerSecond := Nat.cast_pos.mpr hclock
  have hscale : (G.seconds now + Consensus.defaultFutureTimeLimitSec) * G.clockTicksPerSecond =
      ((Consensus.getMaxBlockTime G now : ℤ) : ℚ) := by
    rw [Global.seconds, Consensus.getMaxBlockTime, add_mul, div_mul_cancel₀ _ hpos.ne']
    push_cast
    rfl
  rw [WithinLimit, ← mul_le_mul_iff_left₀ hpos, hscale]
  norm_cast

/-- What `Validate` compares. -/
theorem BlockHeaderValidator.timestamp_le_of_validate {lookup : HeaderLookup} {mmr : HeaderMMR}
    (h : validate G now lookup mmr header previous = .ok ()) :
    header.getTimestamp ≤ Consensus.getMaxBlockTime G now := by
  obtain ⟨_, -, h⟩ := of_bind_eq_ok h
  obtain ⟨_, hlimit, -⟩ := of_bind_eq_ok h
  exact of_require hlimit

/-- The clock counts seconds, or five minutes from now is not behind the epoch. -/
def CountsSeconds (G : Global) (now : ℤ) : Prop :=
  G.clockTicksPerSecond = 1 ∨ Consensus.getMaxBlockTime G now ≤ 0

/-- **Where a tick is a second, the comparison is the limit.** -/
theorem CountsSeconds.withinLimit (hcounts : CountsSeconds G now)
    (hclock : 0 < G.clockTicksPerSecond)
    (hle : header.getTimestamp ≤ Consensus.getMaxBlockTime G now) :
    WithinLimit G now header := by
  rw [withinLimit_iff hclock]
  rcases hcounts with hone | hepoch
  · rw [hone, Nat.cast_one, mul_one]
    exact hle
  · -- A timestamp that is not positive is smaller still in ticks.
    have hone : (1 : ℤ) ≤ G.clockTicksPerSecond := by exact_mod_cast hclock
    have hneg : header.getTimestamp ≤ 0 := hle.trans hepoch
    calc header.getTimestamp * G.clockTicksPerSecond
        ≤ header.getTimestamp * 1 := mul_le_mul_of_nonpos_left hone hneg
      _ = header.getTimestamp := mul_one _
      _ ≤ Consensus.getMaxBlockTime G now := hle

end Limit

/-! ### A network with another clock -/

section Clock

open SmallNet

/-- The small network, with a clock of some rate. -/
def clockNet (ticksPerSecond : ℕ) : Global :=
  { smallNet .automatedTesting with clockTicksPerSecond := ticksPerSecond }

/-- The range of the genesis header. -/
def genesisMMR : HeaderMMR :=
  Batch.of [blake2b (.leafWithIndex 0 genesisHeader.proofOfWork.serializeCycle)]

/-- The header behind the genesis block, at some time. -/
def timedHeader (timestamp : Int64) : BlockHeader :=
  { genesisHeader with
    height := 1
    timestamp := timestamp
    previousRoot := blake2b (.leafWithIndex 0 genesisHeader.proofOfWork.serializeCycle) }

/-- The header is accepted at every time of the clock that is not before its own, tick for
second. -/
theorem validate_timedHeader {ticksPerSecond : ℕ} {now : ℤ} {timestamp : Int64}
    (hpos : 0 < timestamp.toInt)
    (hle : timestamp.toInt ≤ Consensus.getMaxBlockTime (clockNet ticksPerSecond) now)
    (lookup : HeaderLookup) :
    BlockHeaderValidator.validate (clockNet ticksPerSecond) now lookup genesisMMR
      (timedHeader timestamp) genesisHeader = .ok () := by
  have hroot : genesisMMR.root (clockNet ticksPerSecond) 0 =
      .ok (blake2b (.leafWithIndex 0 genesisHeader.proofOfWork.serializeCycle)) := rfl
  have hheight : (timedHeader timestamp).height = genesisHeader.height + 1 := rfl
  have hlimit : (timedHeader timestamp).getTimestamp ≤
      Consensus.getMaxBlockTime (clockNet ticksPerSecond) now := hle
  have hversion : (timedHeader timestamp).version.toNat = Consensus.getHeaderVersion
      (clockNet ticksPerSecond).env (timedHeader timestamp).getHeight := rfl
  have hlater : genesisHeader.getTimestamp < (timedHeader timestamp).getTimestamp := hpos
  have hprevious : decrement (timedHeader timestamp).getHeight = 0 := rfl
  have htesting : (clockNet ticksPerSecond).isAutomatedTesting = true := rfl
  rw [BlockHeaderValidator.validate, require, if_pos hheight, require, if_pos hlimit, require,
    if_pos hversion, require, if_pos hlater, BlockHeaderValidator.isPoWValid,
    if_pos htesting, hprevious, hroot]
  rfl

/-- **Exactly where the limit holds.** Whatever the rate of the clock and the current time, the
headers that some network with this clock accepts are all within the limit if and only if a tick
is a second, or five minutes from now is not behind the epoch. -/
theorem forall_withinLimit_iff {ticksPerSecond : ℕ} (hclock : 0 < ticksPerSecond) {now : ℤ}
    (hword : now + Consensus.defaultFutureTimeLimitSec * ticksPerSecond < 2 ^ 63) :
    (∀ G : Global, G.clockTicksPerSecond = ticksPerSecond →
      ∀ (lookup : HeaderLookup) (mmr : HeaderMMR) (header previous : BlockHeader),
        BlockHeaderValidator.validate G now lookup mmr header previous = .ok () →
        WithinLimit G now header) ↔
      ticksPerSecond = 1 ∨ now + Consensus.defaultFutureTimeLimitSec * ticksPerSecond ≤ 0 := by
  constructor
  · intro hall
    by_contra hnot
    obtain ⟨hne, hpos⟩ := not_or.mp hnot
    -- The latest header that is accepted, with the count of ticks as its timestamp.
    have hmax : Consensus.getMaxBlockTime (clockNet ticksPerSecond) now =
        now + Consensus.defaultFutureTimeLimitSec * ticksPerSecond := rfl
    have htime : (Int64.ofInt (Consensus.getMaxBlockTime (clockNet ticksPerSecond) now)).toInt =
        Consensus.getMaxBlockTime (clockNet ticksPerSecond) now :=
      Int64.toInt_ofInt_of_le (by rw [hmax]; omega) (by rw [hmax]; omega)
    have hvalid := validate_timedHeader (by rw [htime, hmax]; omega) htime.le fun _ => none
    have hwithin := (withinLimit_iff (G := clockNet ticksPerSecond) hclock).mp
      (hall _ rfl _ _ _ _ hvalid)
    have htwo : (2 : ℤ) ≤ ticksPerSecond := by omega
    have hcount : (timedHeader (Int64.ofInt
        (Consensus.getMaxBlockTime (clockNet ticksPerSecond) now))).getTimestamp =
        Consensus.getMaxBlockTime (clockNet ticksPerSecond) now := htime
    rw [hcount, hmax] at hwithin
    have hgrow := mul_le_mul_of_nonneg_left htwo (Int.not_le.mp hpos).le
    have hclockNet : ((clockNet ticksPerSecond).clockTicksPerSecond : ℤ) = ticksPerSecond := rfl
    rw [hclockNet] at hwithin
    omega
  · rintro hcounts G rfl lookup mmr header previous hvalid
    exact CountsSeconds.withinLimit hcounts hclock
      (BlockHeaderValidator.timestamp_le_of_validate hvalid)

end Clock

/-! ### Along a run -/

/-- The time at which a call is made. A resynchronisation does not look at the clock. -/
def HeaderCall.now : HeaderCall → ℤ
  | single now _ => now
  | sync now _ => now
  | resync => 0

/-- The headers that are accepted in a call. -/
def HeaderCall.accepts (G : Global) (s : ChainState) (call : HeaderCall) : List BlockHeader :=
  (call.perform G s).accepted.drop s.accepted.length

/-- What all the other calls of the node leave alone, the block part of `ProcessBlock` among
them: the candidate chain, the stored headers and the history of accepted ones. -/
structure KeepsHeaders (s t : ChainState) : Prop where
  /-- The candidate chain is the same, … -/
  candidate : t.candidate = s.candidate
  /-- … and so are the headers of the table … -/
  table : t.blockDB.tables.current.header = s.blockDB.tables.current.header
  /-- … and those of the cache. -/
  headersCache : t.blockDB.headersCache = s.blockDB.headersCache
  /-- No header is accepted. -/
  accepted : t.accepted = s.accepted
  /-- Nothing is pending. -/
  atRest : t.AtRest

variable (G : Global) in
/-- The states that a node reaches, with the headers it accepted on the way, each with the time
of the call. -/
inductive Reaches : ChainState → List (ℤ × BlockHeader) → Prop
  | create {s : ChainState} (h : ChainState.create G = .ok s) : Reaches s []
  | call {s : ChainState} {log : List (ℤ × BlockHeader)} (h : Reaches s log)
      (call : HeaderCall) :
      Reaches (call.perform G s) (log ++ (call.accepts G s).map fun header => (call.now, header))
  | other {s t : ChainState} {log : List (ℤ × BlockHeader)} (h : Reaches s log)
      (hsame : KeepsHeaders s t) : Reaches t log

variable (G : Global) in
/-- The genesis header, or one of the list, as it was received or as it was stored. -/
def FromList (headers : List BlockHeader) (h : BlockHeader) : Prop :=
  ∃ a ∈ G.genesisBlock.header :: headers, h = a ∨ h = a.reload

section Run

open ChainState BlockHeaderProcessor

variable {G : Global} {now : ℤ} {s t : ChainState}

theorem FromList.mono {headers more : List BlockHeader} {h : BlockHeader}
    (hsub : headers ⊆ more) (hh : FromList G headers h) : FromList G more h := by
  obtain ⟨a, ha, heq⟩ := hh
  exact ⟨a, List.cons_subset_cons _ hsub ha, heq⟩

variable (G now) in
/-- The history grows by headers that passed the comparison. -/
def AcceptsBy (s t : ChainState) : Prop :=
  ∃ new, t.accepted = s.accepted ++ new ∧
    ∀ h ∈ new, h.getTimestamp ≤ Consensus.getMaxBlockTime G now

instance instReflAcceptsBy : Std.Refl (AcceptsBy G now) :=
  ⟨fun s => ⟨[], (List.append_nil _).symm, fun _ h => by cases h⟩⟩

instance instIsTransAcceptsBy : IsTrans ChainState (AcceptsBy G now) := by
  refine ⟨?_⟩
  rintro s t u ⟨new, ht, hnew⟩ ⟨more, hu, hmore⟩
  refine ⟨new ++ more, by rw [hu, ht, List.append_assoc], fun h hh => ?_⟩
  exact (List.mem_append.mp hh).elim (hnew h) (hmore h)

theorem alongHeaders_acceptsBy : AlongHeaders G now (AcceptsBy G now) where
  quiet s t _ h := ⟨[], by rw [h, List.append_nil], fun _ h => by cases h⟩
  accept s header previous hvalid := by
    refine ⟨[header], rfl, List.forall_mem_singleton.mpr ?_⟩
    exact BlockHeaderValidator.timestamp_le_of_validate hvalid

/-- **A call accepts what passed the comparison** at its time. -/
theorem acceptsBy_perform (s : ChainState) (call : HeaderCall) :
    AcceptsBy G call.now s (call.perform G s) := by
  cases call with
  | single now header => exact alongHeaders_acceptsBy.calls.processSingleHeader trivial s
  | sync now headers => exact alongHeaders_acceptsBy.calls.processSyncHeaders headers s
  | resync => exact alongHeaders_acceptsBy.calls.resyncChain s

variable (G) in
/-- Nothing is pending, and every stored header was accepted. -/
structure StoredAccepted (s : ChainState) : Prop where
  /-- Nothing is pending. -/
  atRest : s.AtRest
  /-- Every stored header was accepted. -/
  headers : s.blockDB.AllHeaders fun _ h => FromList G s.accepted h

theorem StoredAccepted.of_pools (h : StoredAccepted G s) (ht : t = t.withPoolsOf s)
    (hgrow : AcceptsBy G now s t) : StoredAccepted G t := by
  obtain ⟨new, haccepted, -⟩ := hgrow
  rw [ht]
  refine ⟨⟨h.atRest.1, h.atRest.2, h.atRest.3, h.atRest.4, h.atRest.5⟩, ?_⟩
  refine h.headers.imp fun _ a ha => ha.mono ?_
  rw [withPoolsOf, haccepted]
  exact List.subset_append_left _ _

theorem StoredAccepted.headerStep {n : ℕ} {previous : BlockHeader} {headers : List BlockHeader}
    (h : StoredAccepted G s) (hstep : HeaderStep G s t n previous headers) :
    StoredAccepted G t := by
  have hdb : t.blockDB = (s.blockDB.addBlockHeaders G headers).commit G := by rw [hstep.eq]
  have haccepted : t.accepted = s.accepted ++ headers := by rw [hstep.eq]
  refine ⟨hstep.atRest, ?_⟩
  rw [hdb, haccepted]
  have hold : s.blockDB.AllHeaders fun _ a => FromList G (s.accepted ++ headers) a :=
    h.headers.imp fun _ a ha => ha.mono (List.subset_append_left _ _)
  refine hold.commit_addBlockHeaders h.atRest.blockDB.2 fun a ha => ?_
  have hmem : a ∈ G.genesisBlock.header :: (s.accepted ++ headers) :=
    List.mem_cons_of_mem _ (List.mem_append_right _ ha)
  exact ⟨⟨a, hmem, .inl rfl⟩, ⟨a, hmem, .inr rfl⟩⟩

theorem StoredAccepted.resynced {headers : List BlockHeader} (h : StoredAccepted G s)
    (hstep : ChainResyncer.Resynced G s t headers) : StoredAccepted G t := by
  have hdb : t.blockDB = s.blockDB.clear.commit G := by rw [hstep.eq]
  have haccepted : t.accepted = s.accepted := by rw [hstep.eq]
  refine ⟨hstep.atRest, ?_⟩
  rw [hdb, haccepted]
  exact h.headers.commit_writeTables h.atRest.blockDB.2 rfl

/-- **Every call keeps it.** -/
theorem StoredAccepted.perform (h : StoredAccepted G s) (call : HeaderCall) :
    StoredAccepted G (call.perform G s) := by
  have hgrow := acceptsBy_perform (G := G) s call
  cases call with
  | single now header =>
    rcases processSingleHeader_cases h.atRest rfl with hpools | ⟨-, n, previous, headers, hstep, -⟩
    · exact h.of_pools hpools hgrow
    · exact h.headerStep hstep
  | sync now headers =>
    refine processSyncHeaders_induction (fun chunk _ u hu => ?_) h
    rcases processChunkedSyncHeaders_cases hu.atRest rfl with
      hpools | ⟨-, n, previous, headers, hstep, -⟩
    · have hchunk : AcceptsBy G now u (run (processChunkedSyncHeaders G now chunk) u).2 :=
        alongHeaders_acceptsBy.calls.processChunkedSyncHeaders chunk u
      exact hu.of_pools hpools hchunk
    · exact hu.headerStep hstep
  | resync =>
    rcases ChainResyncer.resyncChain_cases h.atRest rfl with hpools | ⟨headers, hstep⟩
    · exact h.of_pools hpools hgrow
    · exact h.resynced hstep

theorem StoredAccepted.other (h : StoredAccepted G s) (hsame : KeepsHeaders s t) :
    StoredAccepted G t := by
  refine ⟨hsame.atRest, ?_, ?_⟩
  · rw [hsame.table, hsame.accepted]
    exact h.headers.table
  · rw [hsame.headersCache, hsame.accepted]
    exact h.headers.cache

theorem storedAccepted_of_create (h : ChainState.create G = .ok s) : StoredAccepted G s := by
  have hcreated := created_of_create h
  refine ⟨hcreated.atRest, fun k a hk => ?_, fun k a hk => ?_⟩
  · rw [hcreated.table, Function.update_apply] at hk
    split at hk
    · cases hk
      exact ⟨_, List.mem_cons_self .., .inr rfl⟩
    · cases hk
  · rw [hcreated.cache, List.mem_singleton, Prod.mk.injEq] at hk
    exact ⟨_, List.mem_cons_self .., .inl hk.2⟩

variable (G) in
/-- The log of a run is its history, and what it holds passed the comparison. -/
structure Logged (s : ChainState) (log : List (ℤ × BlockHeader)) : Prop where
  /-- Every stored header was accepted. -/
  stored : StoredAccepted G s
  /-- The log is the history. -/
  accepted : s.accepted = log.map Prod.snd
  /-- Each header passed the comparison. -/
  compared : ∀ p ∈ log, p.2.getTimestamp ≤ Consensus.getMaxBlockTime G p.1

/-- **The invariant of the runs.** -/
theorem logged_of_reaches {log : List (ℤ × BlockHeader)} (h : Reaches G s log) :
    Logged G s log := by
  induction h with
  | create hcreate =>
    exact ⟨storedAccepted_of_create hcreate, (created_of_create hcreate).accepted,
      fun p hp => by cases hp⟩
  | @call s log _ call ih =>
    obtain ⟨new, haccepted, hnew⟩ := acceptsBy_perform (G := G) s call
    have haccepts : call.accepts G s = new := by
      rw [HeaderCall.accepts, haccepted, List.drop_left]
    refine ⟨ih.stored.perform call, ?_, fun p hp => ?_⟩
    · rw [haccepted, haccepts, ih.accepted, List.map_append, List.map_map]
      simp [Function.comp_def]
    · rw [haccepts] at hp
      rcases List.mem_append.mp hp with hold | hlast
      · exact ih.compared p hold
      · obtain ⟨header, hheader, rfl⟩ := List.mem_map.mp hlast
        exact hnew header hheader
  | other _ hsame ih =>
    exact ⟨ih.stored.other hsame, hsame.accepted.trans ih.accepted, ih.compared⟩

variable (G) in
/-- **The limit along a run**: every accepted header was within the limit of the time of the
call that accepted it, and the headers of the candidate chain are the genesis header and headers
that were accepted so. -/
structure Timely (s : ChainState) (log : List (ℤ × BlockHeader)) : Prop where
  /-- What was accepted was within the limit. -/
  accepted : ∀ p ∈ log, WithinLimit G p.1 p.2
  /-- The candidate chain has nothing else. -/
  candidate : ∀ i h, s.getBlockHeaderByHeight i .candidate = some h →
    (h = G.genesisBlock.header ∨ h = G.genesisBlock.header.reload) ∨
      ∃ p ∈ log, (h = p.2 ∨ h = p.2.reload) ∧ WithinLimit G p.1 h

theorem timely_of_reaches (hclock : 0 < G.clockTicksPerSecond) {log : List (ℤ × BlockHeader)}
    (h : Reaches G s log) (hcounts : ∀ p ∈ log, CountsSeconds G p.1) : Timely G s log := by
  have hlogged := logged_of_reaches h
  have hwithin : ∀ p ∈ log, WithinLimit G p.1 p.2 := fun p hp =>
    (hcounts p hp).withinLimit hclock (hlogged.compared p hp)
  refine ⟨hwithin, fun i header hheader => ?_⟩
  obtain ⟨k, -, hk⟩ := Option.bind_eq_some_iff.mp hheader
  obtain ⟨a, ha, heq⟩ := hlogged.stored.headers.of_getBlockHeader hk
  rcases List.mem_cons.mp ha with rfl | ha
  · exact .inl heq
  · rw [hlogged.accepted] at ha
    obtain ⟨p, hp, rfl⟩ := List.mem_map.mp ha
    refine .inr ⟨p, hp, heq, ?_⟩
    -- A stored header has the timestamp it was received with.
    rcases heq with rfl | rfl
    · exact hwithin p hp
    · exact hwithin p hp

end Run

/-! ### For every clock -/

/-- **The future time limit**, for one header and along the runs: for every rate of the clock and
every time, the headers that are accepted are within the limit exactly when a tick is a second or
five minutes from now is not behind the epoch; and in every run whose headers were accepted at
such times, the candidate chain never has another header. -/
theorem futureTimeLimit_iff {ticksPerSecond : ℕ} (hclock : 0 < ticksPerSecond) {now : ℤ}
    (hword : now + Consensus.defaultFutureTimeLimitSec * ticksPerSecond < 2 ^ 63) :
    ((∀ G : Global, G.clockTicksPerSecond = ticksPerSecond →
      ∀ (lookup : HeaderLookup) (mmr : HeaderMMR) (header previous : BlockHeader),
        BlockHeaderValidator.validate G now lookup mmr header previous = .ok () →
        WithinLimit G now header) ↔
      ticksPerSecond = 1 ∨ now + Consensus.defaultFutureTimeLimitSec * ticksPerSecond ≤ 0) ∧
    ∀ G : Global, G.clockTicksPerSecond = ticksPerSecond →
      ∀ (s : ChainState) (log : List (ℤ × BlockHeader)), Reaches G s log →
        (∀ p ∈ log, CountsSeconds G p.1) → Timely G s log := by
  refine ⟨forall_withinLimit_iff hclock hword, ?_⟩
  rintro G rfl s log hreaches hcounts
  exact timely_of_reaches hclock hreaches hcounts

/-- A clock of nanoseconds, in November 2023. -/
theorem futureTimeLimit_iff_nanoseconds :
    ((∀ G : Global, G.clockTicksPerSecond = 10 ^ 9 →
      ∀ (lookup : HeaderLookup) (mmr : HeaderMMR) (header previous : BlockHeader),
        BlockHeaderValidator.validate G (1700000000 * 10 ^ 9) lookup mmr header previous =
          .ok () → WithinLimit G (1700000000 * 10 ^ 9) header) ↔
      10 ^ 9 = 1 ∨ (1700000000 * 10 ^ 9 : ℤ) +
        Consensus.defaultFutureTimeLimitSec * (10 ^ 9 : ℕ) ≤ 0) ∧
    ∀ G : Global, G.clockTicksPerSecond = 10 ^ 9 →
      ∀ (s : ChainState) (log : List (ℤ × BlockHeader)), Reaches G s log →
        (∀ p ∈ log, CountsSeconds G p.1) → Timely G s log :=
  futureTimeLimit_iff (by decide) (by decide)

/-- **On a clock of nanoseconds a header of the year 2100 is accepted in 2023.** -/
theorem not_withinLimit_nanoseconds :
    ¬∀ (G : Global) (now : ℤ) (lookup : HeaderLookup) (mmr : HeaderMMR)
      (header previous : BlockHeader), 0 < G.clockTicksPerSecond →
      BlockHeaderValidator.validate G now lookup mmr header previous = .ok () →
      WithinLimit G now header := by
  intro h
  have hmax : Consensus.getMaxBlockTime (clockNet (10 ^ 9)) (1700000000 * 10 ^ 9) =
      1700000300 * 10 ^ 9 := rfl
  have hvalid := @validate_timedHeader (10 ^ 9) (1700000000 * 10 ^ 9) 4102444800 (by decide)
    (by rw [hmax]; decide) fun _ => none
  have hwithin := (withinLimit_iff (G := clockNet (10 ^ 9)) (by decide)).mp
    (h _ _ _ _ _ _ (by decide) hvalid)
  rw [hmax] at hwithin
  exact absurd hwithin (by decide)


end GrinPlusPlus
