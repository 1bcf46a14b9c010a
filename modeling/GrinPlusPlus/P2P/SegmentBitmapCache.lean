import GrinPlusPlus.Pmmr.OutputBitmap

/-!
# The bitmap cache of the segment workers

The threads of `TxHashSetPipe` that answer requests for segments share one cache entry: a key –
the hash of a block, the size of its output range, the number of its outputs – and two values
under it, the bitmap of the outputs and its root. `GetCachedOutputBitmapAccumulator` and
`GetCachedOutputBitmapRoot` look the value up in one section of the mutex, compute outside it, and
put key and value in another; `GetSegmentTxHashSet` empties the entry when it has taken a new
snapshot.

The model is the entry, what each worker is at between its sections, and the answers given. A run
is any sequence of sections.

* The root is always that of the block (`GrinPlusPlus.TxHashSetPipe.RootsRight`): whoever changes
  the key under a root drops it.
* The bitmap need not be (`GrinPlusPlus.TxHashSetPipe.AccumulatorsRight`). To put a root overwrites
  the key and leaves the bitmap that is there, which from then on is found under another block.

The bitmaps are right in every run that puts a root only over the bitmap of the same block
(`GrinPlusPlus.TxHashSetPipe.answersRight_run`).
-/

namespace GrinPlusPlus

namespace TxHashSetPipe

/-! ### The entry -/

/-- `TxHashSetPipe::PIBDSegmentBitmapCache`. -/
structure PIBDSegmentBitmapCache where
  /-- The block. -/
  blockHash : Option Hash
  /-- The size of its output range. -/
  outputMMRSize : UInt64
  /-- The number of its outputs. -/
  numOutputs : UInt64
  /-- The bitmap of the outputs. -/
  pAccumulator : Option BitmapAccumulator
  /-- The root of the bitmap. -/
  outputBitmapRoot : Option Hash

namespace PIBDSegmentBitmapCache

/-- `PIBDSegmentBitmapCache()`. -/
def empty : PIBDSegmentBitmapCache :=
  ⟨none, 0, 0, none, none⟩

/-- The first section of `GetCachedOutputBitmapAccumulator`. -/
def findAccumulator (c : PIBDSegmentBitmapCache) (blockHash : Hash) (outputMMRSize : UInt64) :
    Option BitmapAccumulator :=
  if c.pAccumulator.isSome ∧ c.blockHash = some blockHash ∧ c.outputMMRSize = outputMMRSize then
    c.pAccumulator
  else none

/-- The second section of `GetCachedOutputBitmapAccumulator`. -/
def putAccumulator (blockHash : Hash) (outputMMRSize : UInt64) (accumulator : BitmapAccumulator)
    (c : PIBDSegmentBitmapCache) : PIBDSegmentBitmapCache :=
  { c with
    blockHash := some blockHash
    outputMMRSize := outputMMRSize
    pAccumulator := some accumulator
    outputBitmapRoot := none }

/-- The first section of `GetCachedOutputBitmapRoot`. -/
def findRoot (c : PIBDSegmentBitmapCache) (blockHash : Hash) (outputMMRSize numOutputs : UInt64) :
    Option Hash :=
  if c.outputBitmapRoot.isSome ∧ c.blockHash = some blockHash ∧
      c.outputMMRSize = outputMMRSize ∧ c.numOutputs = numOutputs then
    c.outputBitmapRoot
  else none

/-- The second section of `GetCachedOutputBitmapRoot`. -/
def putRoot (blockHash : Hash) (outputMMRSize numOutputs : UInt64) (outputBitmapRoot : Hash)
    (c : PIBDSegmentBitmapCache) : PIBDSegmentBitmapCache :=
  { c with
    blockHash := some blockHash
    outputMMRSize := outputMMRSize
    numOutputs := numOutputs
    outputBitmapRoot := some outputBitmapRoot }

variable {c : PIBDSegmentBitmapCache} {blockHash : Hash} {outputMMRSize numOutputs : UInt64}

/-- A bitmap is found under the block of the key. -/
theorem findAccumulator_eq_some {a : BitmapAccumulator}
    (h : c.findAccumulator blockHash outputMMRSize = some a) :
    c.blockHash = some blockHash ∧ c.pAccumulator = some a := by
  rw [findAccumulator] at h
  split_ifs at h with hkey
  exact ⟨hkey.2.1, h⟩

/-- A root is found under the block of the key. -/
theorem findRoot_eq_some {r : Hash}
    (h : c.findRoot blockHash outputMMRSize numOutputs = some r) :
    c.blockHash = some blockHash ∧ c.outputBitmapRoot = some r := by
  rw [findRoot] at h
  split_ifs at h with hkey
  exact ⟨hkey.2.1, h⟩

end PIBDSegmentBitmapCache

/-! ### The workers -/

/-- What a worker passes for a block: its snapshot, and the sizes in its header. -/
structure SegmentSnapshot where
  /-- The hash set of the block. -/
  txHashSet : CachedTxHashSet
  /-- `BlockHeader::GetOutputMMRSize`. -/
  outputMMRSize : UInt64
  /-- `BlockHeader::GetNumOutputs`. -/
  numOutputs : UInt64

/-- The bitmap of the outputs of a snapshot. -/
def SegmentSnapshot.bitmap (G : Global) (p : SegmentSnapshot) : Option BitmapAccumulator :=
  (p.txHashSet.getOutputBitmapAccumulator G).1

/-- Its root; the hash set may throw. -/
def SegmentSnapshot.bitmapRoot (G : Global) (p : SegmentSnapshot) : Except Exc Hash :=
  p.txHashSet.getOutputBitmapRoot G p.numOutputs.toNat

/-- What a worker is at between two sections. -/
inductive Phase
  | /-- In neither function. -/
    idle
  | /-- It builds the bitmap of a block. -/
    buildingAccumulator (blockHash : Hash)
  | /-- It computes the root of a block. -/
    buildingRoot (blockHash : Hash)

/-- What a worker was given for a block. -/
inductive Answer
  | /-- A bitmap. -/
    accumulator (blockHash : Hash) (accumulator : BitmapAccumulator)
  | /-- A root. -/
    root (blockHash : Hash) (outputBitmapRoot : Hash)

/-- The entry, the workers and the answers, the last one first. -/
structure ServeState (Worker : Type) where
  /-- `m_pibdSegmentBitmapCache`. -/
  cache : PIBDSegmentBitmapCache
  /-- What each worker is at. -/
  phase : Worker → Phase
  /-- What was returned. -/
  answers : List Answer

/-- A section of the mutex. -/
inductive Section (Worker : Type)
  | /-- The first one of `GetCachedOutputBitmapAccumulator`. -/
    lookupAccumulator (worker : Worker) (blockHash : Hash)
  | /-- Its second one. -/
    storeAccumulator (worker : Worker)
  | /-- The first one of `GetCachedOutputBitmapRoot`. -/
    lookupRoot (worker : Worker) (blockHash : Hash)
  | /-- Its second one. -/
    storeRoot (worker : Worker)
  | /-- The one of `GetSegmentTxHashSet`. -/
    resetCache

section Run

variable {Worker : Type} [DecidableEq Worker] (G : Global) (snapshots : Hash → SegmentSnapshot)

/-- A section that a worker may enter in a state, and the state behind it. -/
def serve (s : ServeState Worker) : Section Worker → Option (ServeState Worker)
  | .lookupAccumulator worker blockHash =>
    match s.phase worker with
    | .idle =>
      match s.cache.findAccumulator blockHash (snapshots blockHash).outputMMRSize with
      | some accumulator =>
        some { s with answers := .accumulator blockHash accumulator :: s.answers }
      | none =>
        some { s with phase := Function.update s.phase worker (.buildingAccumulator blockHash) }
    | _ => none
  | .storeAccumulator worker =>
    match s.phase worker with
    | .buildingAccumulator blockHash =>
      match (snapshots blockHash).bitmap G with
      | some accumulator =>
        some
          { cache := s.cache.putAccumulator blockHash (snapshots blockHash).outputMMRSize
              accumulator
            phase := Function.update s.phase worker .idle
            answers := .accumulator blockHash accumulator :: s.answers }
      | none => some { s with phase := Function.update s.phase worker .idle }
    | _ => none
  | .lookupRoot worker blockHash =>
    match s.phase worker with
    | .idle =>
      match s.cache.findRoot blockHash (snapshots blockHash).outputMMRSize
          (snapshots blockHash).numOutputs with
      | some outputBitmapRoot =>
        some { s with answers := .root blockHash outputBitmapRoot :: s.answers }
      | none => some { s with phase := Function.update s.phase worker (.buildingRoot blockHash) }
    | _ => none
  | .storeRoot worker =>
    match s.phase worker with
    | .buildingRoot blockHash =>
      match (snapshots blockHash).bitmapRoot G with
      | .ok outputBitmapRoot =>
        some
          { cache := s.cache.putRoot blockHash (snapshots blockHash).outputMMRSize
              (snapshots blockHash).numOutputs outputBitmapRoot
            phase := Function.update s.phase worker .idle
            answers := .root blockHash outputBitmapRoot :: s.answers }
      -- the worker leaves with the exception
      | .error _ => some { s with phase := Function.update s.phase worker .idle }
    | _ => none
  | .resetCache => some { s with cache := .empty }

/-- No worker is at anything, and nothing is cached. -/
def ServeState.initial : ServeState Worker :=
  ⟨.empty, fun _ => .idle, []⟩

/-- A run of sections. -/
def serveAll (s : ServeState Worker) (sections : List (Section Worker)) :
    Option (ServeState Worker) :=
  sections.foldlM (serve G snapshots) s

/-! ### What the answers should be -/

/-- The answer is that of the snapshot of its block. -/
def Answer.Right : Answer → Prop
  | .accumulator blockHash a => (snapshots blockHash).bitmap G = some a
  | .root blockHash r => (snapshots blockHash).bitmapRoot G = .ok r

/-- The answer is a root. -/
def Answer.IsRoot : Answer → Prop
  | .accumulator _ _ => False
  | .root _ _ => True

/-- The root in the entry, and every root that was returned, is that of its block. -/
structure RootsRight (s : ServeState Worker) : Prop where
  /-- The root in the entry. -/
  cached : ∀ r, s.cache.outputBitmapRoot = some r →
    ∃ blockHash, s.cache.blockHash = some blockHash ∧ (snapshots blockHash).bitmapRoot G = .ok r
  /-- The roots that were returned. -/
  answered : ∀ answer ∈ s.answers, answer.IsRoot → answer.Right G snapshots

/-- The bitmap in the entry, and every bitmap that was returned, is that of its block. -/
structure AccumulatorsRight (s : ServeState Worker) : Prop where
  /-- The bitmap in the entry. -/
  cached : ∀ a, s.cache.pAccumulator = some a →
    ∃ blockHash, s.cache.blockHash = some blockHash ∧ (snapshots blockHash).bitmap G = some a
  /-- The bitmaps that were returned. -/
  answered : ∀ answer ∈ s.answers, ¬ answer.IsRoot → answer.Right G snapshots

/-- A root is put only where no bitmap is, or the bitmap of the same block. -/
def OverItsOwn (s : ServeState Worker) : Section Worker → Prop
  | .storeRoot worker => ∀ blockHash, s.phase worker = .buildingRoot blockHash →
    s.cache.pAccumulator = none ∨ s.cache.blockHash = some blockHash
  | _ => True

/-- Every section of the run puts its root so. -/
def AllOverTheirOwn (s : ServeState Worker) : List (Section Worker) → Prop
  | [] => True
  | x :: sections => OverItsOwn s x ∧
    ∀ s', serve G snapshots s x = some s' → AllOverTheirOwn s' sections

/-! ### A section at a time -/

variable {G snapshots} {s s' : ServeState Worker} {x : Section Worker}

/-- **What a section does.** A worker is given a value that the entry holds for its block; it
starts to compute; it puts what it has computed, and is given it; it leaves with nothing; or the
entry is emptied. -/
theorem serve_cases (h : serve G snapshots s x = some s') :
    (∃ blockHash a, s.cache.blockHash = some blockHash ∧ s.cache.pAccumulator = some a ∧
      s'.cache = s.cache ∧ s'.answers = .accumulator blockHash a :: s.answers) ∨
    (∃ blockHash r, s.cache.blockHash = some blockHash ∧ s.cache.outputBitmapRoot = some r ∧
      s'.cache = s.cache ∧ s'.answers = .root blockHash r :: s.answers) ∨
    (∃ blockHash a, (snapshots blockHash).bitmap G = some a ∧
      s'.cache = s.cache.putAccumulator blockHash (snapshots blockHash).outputMMRSize a ∧
      s'.answers = .accumulator blockHash a :: s.answers) ∨
    (∃ worker blockHash r, x = .storeRoot worker ∧ s.phase worker = .buildingRoot blockHash ∧
      (snapshots blockHash).bitmapRoot G = .ok r ∧
      s'.cache = s.cache.putRoot blockHash (snapshots blockHash).outputMMRSize
        (snapshots blockHash).numOutputs r ∧
      s'.answers = .root blockHash r :: s.answers) ∨
    (s'.cache = s.cache ∧ s'.answers = s.answers) ∨
    (s'.cache = .empty ∧ s'.answers = s.answers) := by
  cases x with
  | lookupAccumulator worker blockHash =>
    rw [serve] at h
    split at h
    · split at h
      · next a hfind =>
        obtain ⟨hkey, ha⟩ := PIBDSegmentBitmapCache.findAccumulator_eq_some hfind
        obtain rfl := Option.some.inj h
        exact .inl ⟨blockHash, a, hkey, ha, rfl, rfl⟩
      · obtain rfl := Option.some.inj h
        exact .inr (.inr (.inr (.inr (.inl ⟨rfl, rfl⟩))))
    · cases h
  | storeAccumulator worker =>
    rw [serve] at h
    split at h
    · next blockHash hphase =>
      split at h
      · next a ha =>
        obtain rfl := Option.some.inj h
        exact .inr (.inr (.inl ⟨blockHash, a, ha, rfl, rfl⟩))
      · obtain rfl := Option.some.inj h
        exact .inr (.inr (.inr (.inr (.inl ⟨rfl, rfl⟩))))
    · cases h
  | lookupRoot worker blockHash =>
    rw [serve] at h
    split at h
    · split at h
      · next r hfind =>
        obtain ⟨hkey, hr⟩ := PIBDSegmentBitmapCache.findRoot_eq_some hfind
        obtain rfl := Option.some.inj h
        exact .inr (.inl ⟨blockHash, r, hkey, hr, rfl, rfl⟩)
      · obtain rfl := Option.some.inj h
        exact .inr (.inr (.inr (.inr (.inl ⟨rfl, rfl⟩))))
    · cases h
  | storeRoot worker =>
    rw [serve] at h
    split at h
    · next blockHash hphase =>
      split at h
      · next r hr =>
        obtain rfl := Option.some.inj h
        exact .inr (.inr (.inr (.inl ⟨worker, blockHash, r, rfl, hphase, hr, rfl, rfl⟩)))
      · obtain rfl := Option.some.inj h
        exact .inr (.inr (.inr (.inr (.inl ⟨rfl, rfl⟩))))
    · cases h
  | resetCache =>
    rw [serve] at h
    obtain rfl := Option.some.inj h
    exact .inr (.inr (.inr (.inr (.inr ⟨rfl, rfl⟩))))

/-- **Every section keeps the roots right**: who changes the block of the key puts the root of
that block, or drops the root. -/
theorem RootsRight.serve (hs : RootsRight G snapshots s) (h : serve G snapshots s x = some s') :
    RootsRight G snapshots s' := by
  obtain ⟨blockHash, a, -, -, hc, ha⟩ | ⟨blockHash, r, hkey, hr, hc, ha⟩ |
    ⟨blockHash, a, -, hc, ha⟩ | ⟨-, blockHash, r, -, -, hr, hc, ha⟩ | ⟨hc, ha⟩ | ⟨hc, ha⟩ :=
      serve_cases h
  · exact ⟨hc ▸ hs.cached, ha ▸ List.forall_mem_cons.2 ⟨False.elim, hs.answered⟩⟩
  · obtain ⟨blockHash', hkey', hright⟩ := hs.cached r hr
    obtain rfl := Option.some.inj (hkey.symm.trans hkey')
    exact ⟨hc ▸ hs.cached, ha ▸ List.forall_mem_cons.2 ⟨fun _ => hright, hs.answered⟩⟩
  · refine ⟨fun r hr => ?_, ha ▸ List.forall_mem_cons.2 ⟨False.elim, hs.answered⟩⟩
    rw [hc] at hr
    cases hr
  · refine ⟨fun r' hr' => ?_, ha ▸ List.forall_mem_cons.2 ⟨fun _ => hr, hs.answered⟩⟩
    rw [hc] at hr' ⊢
    obtain rfl := Option.some.inj hr'
    exact ⟨blockHash, rfl, hr⟩
  · exact ⟨hc ▸ hs.cached, ha ▸ hs.answered⟩
  · refine ⟨fun r hr => ?_, ha ▸ hs.answered⟩
    rw [hc] at hr
    cases hr

/-- **A section keeps the bitmaps right** when it puts no root over the bitmap of another
block. -/
theorem AccumulatorsRight.serve (hs : AccumulatorsRight G snapshots s) (hx : OverItsOwn s x)
    (h : serve G snapshots s x = some s') : AccumulatorsRight G snapshots s' := by
  have hroot {blockHash : Hash} {r : Hash} : ¬ (Answer.root blockHash r).IsRoot →
      (Answer.root blockHash r).Right G snapshots := fun hnot => absurd trivial hnot
  obtain ⟨blockHash, a, hkey, hacc, hc, ha⟩ | ⟨blockHash, r, -, -, hc, ha⟩ |
    ⟨blockHash, a, hacc, hc, ha⟩ | ⟨worker, blockHash, r, rfl, hphase, -, hc, ha⟩ | ⟨hc, ha⟩ |
    ⟨hc, ha⟩ := serve_cases h
  · obtain ⟨blockHash', hkey', hright⟩ := hs.cached a hacc
    obtain rfl := Option.some.inj (hkey.symm.trans hkey')
    exact ⟨hc ▸ hs.cached, ha ▸ List.forall_mem_cons.2 ⟨fun _ => hright, hs.answered⟩⟩
  · exact ⟨hc ▸ hs.cached, ha ▸ List.forall_mem_cons.2 ⟨hroot, hs.answered⟩⟩
  · refine ⟨fun a' ha' => ?_, ha ▸ List.forall_mem_cons.2 ⟨fun _ => hacc, hs.answered⟩⟩
    rw [hc] at ha' ⊢
    obtain rfl := Option.some.inj ha'
    exact ⟨blockHash, rfl, hacc⟩
  · refine ⟨fun a ha' => ?_, ha ▸ List.forall_mem_cons.2 ⟨hroot, hs.answered⟩⟩
    -- the bitmap stays: it is that of the block whose root is put
    rw [hc] at ha' ⊢
    have hacc : s.cache.pAccumulator = some a := ha'
    rcases hx blockHash hphase with hnone | hkey
    · cases hnone.symm.trans hacc
    · obtain ⟨blockHash', hkey', hright⟩ := hs.cached a hacc
      obtain rfl := Option.some.inj (hkey.symm.trans hkey')
      exact ⟨blockHash, rfl, hright⟩
  · exact ⟨hc ▸ hs.cached, ha ▸ hs.answered⟩
  · refine ⟨fun a ha' => ?_, ha ▸ hs.answered⟩
    rw [hc] at ha'
    cases ha'

/-! ### Runs -/

omit [DecidableEq Worker] in
theorem rootsRight_initial : RootsRight G snapshots (.initial : ServeState Worker) :=
  ⟨by rintro r ⟨⟩, by rintro answer ⟨⟩⟩

omit [DecidableEq Worker] in
theorem accumulatorsRight_initial :
    AccumulatorsRight G snapshots (.initial : ServeState Worker) :=
  ⟨by rintro a ⟨⟩, by rintro answer ⟨⟩⟩

theorem RootsRight.serveAll {sections : List (Section Worker)} (hs : RootsRight G snapshots s)
    (h : serveAll G snapshots s sections = some s') : RootsRight G snapshots s' := by
  induction sections generalizing s with
  | nil =>
    obtain rfl := Option.some.inj h
    exact hs
  | cons x sections ih =>
    obtain ⟨t, ht, h⟩ := Option.bind_eq_some_iff.1 h
    exact ih (hs.serve ht) h

theorem AccumulatorsRight.serveAll {sections : List (Section Worker)}
    (hs : AccumulatorsRight G snapshots s) (hown : AllOverTheirOwn G snapshots s sections)
    (h : serveAll G snapshots s sections = some s') : AccumulatorsRight G snapshots s' := by
  induction sections generalizing s with
  | nil =>
    obtain rfl := Option.some.inj h
    exact hs
  | cons x sections ih =>
    obtain ⟨t, ht, h⟩ := Option.bind_eq_some_iff.1 h
    exact ih (hs.serve hown.1 ht) (hown.2 t ht) h

/-- **The answers of a run.** Every root that a worker is given is that of its block; and so is
every bitmap, in a run that puts each root where no bitmap is or the bitmap of the same block. -/
theorem answersRight_run {sections : List (Section Worker)}
    (h : serveAll G snapshots .initial sections = some s) :
    (∀ answer ∈ s.answers, answer.IsRoot → answer.Right G snapshots) ∧
    (AllOverTheirOwn G snapshots .initial sections →
      ∀ answer ∈ s.answers, answer.Right G snapshots) := by
  have hroots := rootsRight_initial.serveAll h
  refine ⟨hroots.answered, fun hown answer hmem => ?_⟩
  by_cases hroot : answer.IsRoot
  · exact hroots.answered answer hmem hroot
  · exact (accumulatorsRight_initial.serveAll hown h).answered answer hmem hroot

/-- **Nothing less will do**: a root that is put over a bitmap puts the bitmap under the block of
the root, and whoever asks for that block next is given it, whatever block it is of. -/
theorem answer_of_storeRoot {worker asker : Worker} {blockHash : Hash} {a : BitmapAccumulator}
    {r : Hash} (hphase : s.phase worker = .buildingRoot blockHash)
    (hr : (snapshots blockHash).bitmapRoot G = .ok r) (ha : s.cache.pAccumulator = some a)
    (hasker : asker = worker ∨ s.phase asker = .idle) :
    ∃ s', TxHashSetPipe.serveAll G snapshots s
        [.storeRoot worker, .lookupAccumulator asker blockHash] = some s' ∧
      s'.answers = .accumulator blockHash a :: .root blockHash r :: s.answers := by
  have hidle : Function.update s.phase worker .idle asker = .idle := by
    by_cases heq : asker = worker
    · rw [heq, Function.update_self]
    · rw [Function.update_of_ne heq]
      exact hasker.resolve_left heq
  have hfind : (s.cache.putRoot blockHash (snapshots blockHash).outputMMRSize
      (snapshots blockHash).numOutputs r).findAccumulator blockHash
        (snapshots blockHash).outputMMRSize = some a := by
    rw [PIBDSegmentBitmapCache.findAccumulator, PIBDSegmentBitmapCache.putRoot, if_pos]
    · exact ha
    · exact ⟨by rw [ha]; rfl, rfl, rfl⟩
  rw [serveAll, List.foldlM_cons, serve, hphase]
  dsimp only
  rw [hr]
  dsimp only
  rw [Option.bind_eq_bind, Option.bind_some, List.foldlM_cons, serve]
  dsimp only
  rw [hidle]
  dsimp only
  rw [hfind]
  exact ⟨_, rfl, rfl⟩

end Run

/-! ### Two blocks -/

section TwoBlocks

variable {G : Global} {snapshots : Hash → SegmentSnapshot}

/-- Three workers and two blocks: the first worker serves `b` and is overtaken by the second one,
who serves `a`, between its bitmap and its root; the third one asks for the bitmap of `b`. -/
def overtaking (a b : Hash) : List (Section ℕ) :=
  [.lookupAccumulator 0 b, .storeAccumulator 0, .lookupAccumulator 1 a, .storeAccumulator 1,
    .lookupRoot 0 b, .storeRoot 0, .lookupAccumulator 2 b]

/-- **The third worker is given the bitmap of the wrong block.** -/
theorem answer_of_overtaking {a b : Hash} (hab : a ≠ b) {bitmapA bitmapB : BitmapAccumulator}
    {r : Hash} (hA : (snapshots a).bitmap G = some bitmapA)
    (hB : (snapshots b).bitmap G = some bitmapB) (hr : (snapshots b).bitmapRoot G = .ok r) :
    ∃ s, serveAll G snapshots .initial (overtaking a b) = some s ∧
      .accumulator b bitmapA ∈ s.answers := by
  simp [overtaking, serveAll, serve, ServeState.initial, PIBDSegmentBitmapCache.empty,
    PIBDSegmentBitmapCache.findAccumulator, PIBDSegmentBitmapCache.findRoot,
    PIBDSegmentBitmapCache.putAccumulator, PIBDSegmentBitmapCache.putRoot, hA, hB, hr, hab,
    hab.symm]

end TwoBlocks

section SmallNet

open SmallNet CachedTxHashSet

/-- The outputs of the genesis block, when a later block has spent them. -/
def spentOutputs : PruneableFiles OutputIdentifier :=
  { genesisOutputs with leafSet := fun _ => false }

/-- The snapshot of the later block. -/
def spentTxHashSet : CachedTxHashSet :=
  { genesisTxHashSet with
    txHashSet := { genesisTxHashSet.txHashSet with outputPMMR := Batch.of spentOutputs } }

/-- The snapshots of the two blocks. -/
def twoSnapshots (blockHash : Hash) : SegmentSnapshot :=
  if blockHash = ⟨0⟩ then ⟨genesisTxHashSet, 1, 1⟩ else ⟨spentTxHashSet, 1, 1⟩

theorem bitmap_genesis : (twoSnapshots ⟨0⟩).bitmap (smallNet .mainnet) =
    some (buildAccumulator (smallNet .mainnet) genesisOutputs 1) := rfl

theorem bitmap_spent : (twoSnapshots ⟨1⟩).bitmap (smallNet .mainnet) =
    some (buildAccumulator (smallNet .mainnet) spentOutputs 1) := rfl

theorem isOk_bitmapRoot_spent :
    ((twoSnapshots ⟨1⟩).bitmapRoot (smallNet .mainnet)).toOption.isSome = true := by
  decide +kernel

/-- The unspent output is in one of the bitmaps only. -/
theorem bitmap_ne : buildAccumulator (smallNet .mainnet) genesisOutputs 1 ≠
    buildAccumulator (smallNet .mainnet) spentOutputs 1 := by
  intro h
  have hbit := congrArg (BitmapAccumulator.contains · 0) h
  exact absurd hbit (by decide +kernel)

/-- A run that ends with the bitmap of another block. -/
theorem not_answersRight_overtaking : ∃ s,
    serveAll (smallNet .mainnet) twoSnapshots .initial (overtaking ⟨0⟩ ⟨1⟩) = some s ∧
      ¬ ∀ answer ∈ s.answers, answer.Right (smallNet .mainnet) twoSnapshots := by
  obtain ⟨r, hr⟩ := Exec.exists_ok_of_isSome isOk_bitmapRoot_spent
  obtain ⟨s, hs, hmem⟩ := answer_of_overtaking (by decide) bitmap_genesis bitmap_spent hr
  refine ⟨s, hs, fun h => ?_⟩
  have hright : (twoSnapshots ⟨1⟩).bitmap (smallNet .mainnet) = _ := h _ hmem
  rw [bitmap_spent] at hright
  exact bitmap_ne (Option.some.inj hright).symm

/-- One worker alone puts the bitmap and the root of a block. -/
def alone (b : Hash) : List (Section ℕ) :=
  [.lookupAccumulator 0 b, .storeAccumulator 0, .lookupRoot 0 b, .storeRoot 0]

/-- It is given what belongs to its block. -/
theorem answersRight_run_alone : ∃ s,
    serveAll (smallNet .mainnet) twoSnapshots .initial (alone ⟨1⟩) = some s ∧
      s.answers.length = 2 ∧
      ∀ answer ∈ s.answers, answer.Right (smallNet .mainnet) twoSnapshots := by
  obtain ⟨r, hr⟩ := Exec.exists_ok_of_isSome isOk_bitmapRoot_spent
  have hrun : ∃ s, serveAll (smallNet .mainnet) twoSnapshots .initial (alone ⟨1⟩) = some s ∧
      s.answers.length = 2 := by
    simp [alone, serveAll, serve, ServeState.initial, PIBDSegmentBitmapCache.empty,
      PIBDSegmentBitmapCache.findAccumulator, PIBDSegmentBitmapCache.findRoot,
      PIBDSegmentBitmapCache.putAccumulator, bitmap_spent, hr]
  have hown : AllOverTheirOwn (smallNet .mainnet) twoSnapshots .initial (alone ⟨1⟩) := by
    simp [alone, AllOverTheirOwn, OverItsOwn, serve, ServeState.initial,
      PIBDSegmentBitmapCache.empty, PIBDSegmentBitmapCache.findAccumulator,
      PIBDSegmentBitmapCache.findRoot, PIBDSegmentBitmapCache.putAccumulator, bitmap_spent]
  obtain ⟨s, hs, hlength⟩ := hrun
  exact ⟨s, hs, hlength, (answersRight_run hs).2 hown⟩

end SmallNet

end TxHashSetPipe

end GrinPlusPlus
