import GrinPlusPlus.Core.Global
import GrinPlusPlus.Lib.Batch
import GrinPlusPlus.Lib.Cache

/-!
# The block database

`BlockDB`: five tables behind one transaction, and a cache of headers in front of the header
table. Three points matter to the chain:

* a header is looked up in the cache first, then in the transaction
  (`GrinPlusPlus.BlockDB.getBlockHeader`). The cache keeps the header as it was received, the
  table gives it back after a round trip through its serialised form
  (`GrinPlusPlus.BlockHeader.reload`);
* headers that are added in a batch reach the cache when the batch is committed
  (`GrinPlusPlus.BlockDB.commit`), and a rollback forgets them;
* the length of a list of spent outputs is stored in 16 bits.

The body of a block comes back from the table sorted again; the blocks that are stored have
passed `TxBodyValidator::VerifySorted`, so it is the same body.
-/

namespace GrinPlusPlus

/-- The tables of the database. -/
structure Tables where
  /-- `HEADER`. -/
  header : Hash → Option BlockHeader
  /-- `BLOCK`. -/
  block : Hash → Option FullBlock
  /-- `BLOCK_SUMS`. -/
  blockSums : Hash → Option BlockSums
  /-- `OUTPUT_POS`. -/
  outputPos : Commitment → Option OutputLocation
  /-- `SPENT_OUTPUTS`. -/
  spentOutputs : Hash → Option (List SpentOutput)

/-- `BlockDB`. -/
structure BlockDB where
  /-- The tables, as of the last commit and in the open transaction. -/
  tables : Batch Tables
  /-- `m_blockHeadersCache`. -/
  headersCache : Cache Hash BlockHeader
  /-- `m_uncommitted`. -/
  uncommitted : List BlockHeader

namespace BlockDB

/-- The size of `m_blockHeadersCache`. -/
def headersCacheSize : ℕ := 128

variable (G : Global)

/-! ### Reading -/

/-- `BlockDB::GetBlockHeader`. -/
def getBlockHeader (db : BlockDB) (hash : Hash) : Option BlockHeader :=
  match db.headersCache.get? hash with
  | some h => some h
  | none => db.tables.current.header hash

/-- `BlockDB::GetBlock`. -/
def getBlock (db : BlockDB) (hash : Hash) : Option FullBlock :=
  db.tables.current.block hash

/-- `BlockDB::GetBlockSums`. -/
def getBlockSums (db : BlockDB) (hash : Hash) : Option BlockSums :=
  db.tables.current.blockSums hash

/-- `BlockDB::GetOutputPosition`. -/
def getOutputPosition (db : BlockDB) (commitment : Commitment) : Option OutputLocation :=
  db.tables.current.outputPos commitment

/-- `BlockDB::GetSpentPositions`. -/
def getSpentPositions (db : BlockDB) (hash : Hash) : Except Exc (List SpentOutput) :=
  orThrow (db.tables.current.spentOutputs hash) (.database "Failed to retrieve spent positions")

/-! ### Writing -/

/-- A change of the tables. -/
def writeTables (f : Tables → Tables) (db : BlockDB) : BlockDB :=
  { db with tables := db.tables.write f }

/-- `BlockDB::AddBlockHeader`. -/
def addBlockHeader (header : BlockHeader) (db : BlockDB) : BlockDB :=
  { db with
    tables := db.tables.write fun t =>
      { t with header := Function.update t.header (header.getHash G) (some header.reload) }
    uncommitted := db.uncommitted ++ [header] }

/-- `BlockDB::AddBlock`. -/
def addBlock (block : FullBlock) : BlockDB → BlockDB :=
  writeTables fun t =>
    { t with block := Function.update t.block (block.getHash G) (some block.reload) }

/-- `BlockDB::AddBlockSums`. -/
def addBlockSums (hash : Hash) (sums : BlockSums) : BlockDB → BlockDB :=
  writeTables fun t => { t with blockSums := Function.update t.blockSums hash (some sums) }

/-- `BlockDB::AddOutputPosition`. -/
def addOutputPosition (commitment : Commitment) (location : OutputLocation) :
    BlockDB → BlockDB :=
  writeTables fun t =>
    { t with outputPos := Function.update t.outputPos commitment (some location) }

/-- `BlockDB::RemoveOutputPositions`. -/
def removeOutputPositions (commitments : List Commitment) : BlockDB → BlockDB :=
  writeTables fun t =>
    { t with outputPos := fun c => if commitments.contains c then none else t.outputPos c }

/-- `BlockDB::AddSpentPositions`; the count is written in 16 bits. -/
def addSpentPositions (hash : Hash) (spent : List SpentOutput) : BlockDB → BlockDB :=
  writeTables fun t =>
    { t with
      spentOutputs := Function.update t.spentOutputs hash
        (some (spent.take (spent.length % 2 ^ 16))) }

/-- `BlockDB::ClearBlocks`, `ClearBlockSums`, `ClearOutputPositions` and
`ClearSpentPositions`. -/
def clear : BlockDB → BlockDB :=
  writeTables fun t =>
    { header := t.header, block := fun _ => none, blockSums := fun _ => none,
      outputPos := fun _ => none, spentOutputs := fun _ => none }

/-- `BlockDB::Commit`. -/
def commit (db : BlockDB) : BlockDB where
  tables := db.tables.commit
  headersCache :=
    db.uncommitted.foldl (fun c h => c.putFifo headersCacheSize (h.getHash G) h) db.headersCache
  uncommitted := []

/-- `BlockDB::Rollback`. -/
def rollback (db : BlockDB) : BlockDB :=
  { db with tables := db.tables.rollback, uncommitted := [] }

/-- Nothing is pending. -/
def AtRest (db : BlockDB) : Prop :=
  db.tables.AtRest ∧ db.uncommitted = []

/-! ### What is left alone -/

variable {G} {db : BlockDB}

section Frame

variable (header : BlockHeader) (block : FullBlock) (hash : Hash) (sums : BlockSums)
  (commitment : Commitment) (commitments : List Commitment) (location : OutputLocation)
  (spent : List SpentOutput) (f : Tables → Tables)

@[simp] theorem writeTables_committed :
    (db.writeTables f).tables.committed = db.tables.committed := rfl

@[simp] theorem writeTables_current :
    (db.writeTables f).tables.current = f db.tables.current := rfl

@[simp] theorem writeTables_headersCache :
    (db.writeTables f).headersCache = db.headersCache := rfl

@[simp] theorem writeTables_uncommitted :
    (db.writeTables f).uncommitted = db.uncommitted := rfl

@[simp] theorem addBlockHeader_committed :
    (db.addBlockHeader G header).tables.committed = db.tables.committed := rfl

@[simp] theorem addBlockHeader_headersCache :
    (db.addBlockHeader G header).headersCache = db.headersCache := rfl

/-- A change of the tables that leaves the headers alone does not change their lookup. -/
theorem getBlockHeader_writeTables (h : (f db.tables.current).header = db.tables.current.header)
    (k : Hash) : (db.writeTables f).getBlockHeader k = db.getBlockHeader k := by
  simp only [getBlockHeader, writeTables_headersCache, writeTables_current, h]

end Frame

/-! ### Adding headers -/

variable (G) in
/-- Add header after header. -/
def addBlockHeaders (headers : List BlockHeader) (db : BlockDB) : BlockDB :=
  headers.foldl (fun db h => db.addBlockHeader G h) db

theorem addBlockHeaders_cons (h : BlockHeader) (hs : List BlockHeader) (db : BlockDB) :
    db.addBlockHeaders G (h :: hs) = (db.addBlockHeader G h).addBlockHeaders G hs := rfl

@[simp] theorem addBlockHeaders_headersCache (hs : List BlockHeader) (db : BlockDB) :
    (db.addBlockHeaders G hs).headersCache = db.headersCache := by
  induction hs generalizing db with
  | nil => rfl
  | cons h hs ih => rw [addBlockHeaders_cons, ih, addBlockHeader_headersCache]

@[simp] theorem addBlockHeaders_committed (hs : List BlockHeader) (db : BlockDB) :
    (db.addBlockHeaders G hs).tables.committed = db.tables.committed := by
  induction hs generalizing db with
  | nil => rfl
  | cons h hs ih => rw [addBlockHeaders_cons, ih, addBlockHeader_committed]

@[simp] theorem addBlockHeaders_uncommitted (hs : List BlockHeader) (db : BlockDB) :
    (db.addBlockHeaders G hs).uncommitted = db.uncommitted ++ hs := by
  induction hs generalizing db with
  | nil => rw [List.append_nil]; rfl
  | cons h hs ih =>
    rw [addBlockHeaders_cons, ih, addBlockHeader, List.append_assoc, List.singleton_append]

/-- The other tables stay. -/
theorem addBlockHeaders_current (hs : List BlockHeader) (db : BlockDB) :
    ∃ header, (db.addBlockHeaders G hs).tables.current =
      { db.tables.current with header := header } := by
  induction hs generalizing db with
  | nil => exact ⟨_, rfl⟩
  | cons h hs ih =>
    obtain ⟨header, heq⟩ := ih (db.addBlockHeader G h)
    exact ⟨header, heq⟩

/-- A header of the table is one that was added, after a round trip, or was there before. -/
theorem header_of_addBlockHeaders {hs : List BlockHeader} {db : BlockDB} {k : Hash}
    {h : BlockHeader} (hk : (db.addBlockHeaders G hs).tables.current.header k = some h) :
    (∃ h' ∈ hs, h'.getHash G = k ∧ h = h'.reload) ∨ db.tables.current.header k = some h := by
  induction hs generalizing db with
  | nil => exact .inr hk
  | cons a hs ih =>
    rcases @ih (db.addBlockHeader G a) hk with ⟨h', hmem, hh⟩ | hold
    · exact .inl ⟨h', List.mem_cons_of_mem a hmem, hh⟩
    · by_cases heq : k = a.getHash G
      · subst heq
        have hold' : some a.reload = some h := by
          simpa [addBlockHeader] using hold
        exact .inl ⟨a, List.mem_cons_self .., rfl, (Option.some_inj.mp hold').symm⟩
      · exact .inr (by simpa [addBlockHeader, heq] using hold)

/-- Adding headers never loses one. -/
theorem isSome_header_addBlockHeaders {hs : List BlockHeader} {db : BlockDB} {k : Hash}
    (hk : (db.tables.current.header k).isSome = true ∨ ∃ h ∈ hs, h.getHash G = k) :
    ((db.addBlockHeaders G hs).tables.current.header k).isSome = true := by
  induction hs generalizing db with
  | nil =>
    rcases hk with hk | ⟨h, hmem, -⟩
    · exact hk
    · cases hmem
  | cons a hs ih =>
    refine ih ?_
    by_cases heq : k = a.getHash G
    · subst heq
      exact .inl (by simp [addBlockHeader])
    · rcases hk with hk | ⟨h, hmem, hh⟩
      · exact .inl (by simpa [addBlockHeader, heq] using hk)
      · rcases List.mem_cons.mp hmem with rfl | hmem
        · exact absurd hh.symm heq
        · exact .inr ⟨h, hmem, hh⟩

/-- After a commit the cache has what it had, and the headers of the batch. -/
theorem mem_headersCache_commit {db : BlockDB} {e : Hash × BlockHeader}
    (he : e ∈ (db.commit G).headersCache) :
    e ∈ db.headersCache ∨ ∃ h ∈ db.uncommitted, e = (h.getHash G, h) := by
  have key : ∀ (hs : List BlockHeader) (c : Cache Hash BlockHeader),
      e ∈ hs.foldl (fun c h => c.putFifo headersCacheSize (h.getHash G) h) c →
      e ∈ c ∨ ∃ h ∈ hs, e = (h.getHash G, h) := by
    intro hs
    induction hs with
    | nil => exact fun c hc => .inl hc
    | cons a hs ih =>
      intro c hc
      rcases ih _ hc with hc | ⟨h, hmem, hh⟩
      · rcases Cache.mem_putFifo hc with rfl | hc
        · exact .inr ⟨a, List.mem_cons_self .., rfl⟩
        · exact .inl hc
      · exact .inr ⟨h, List.mem_cons_of_mem a hmem, hh⟩
  exact key _ _ he

/-- The last header of a batch is found as it was received. -/
theorem getBlockHeader_commit_addBlockHeaders {db : BlockDB} (hrest : db.uncommitted = [])
    {hs : List BlockHeader} {last : BlockHeader} (hlast : hs.getLast? = some last) :
    ((db.addBlockHeaders G hs).commit G).getBlockHeader (last.getHash G) = some last := by
  obtain ⟨front, rfl⟩ := List.getLast?_eq_some_iff.mp hlast
  rw [getBlockHeader, commit, addBlockHeaders_uncommitted, hrest, List.nil_append,
    List.foldl_append]
  dsimp only [List.foldl_cons, List.foldl_nil]
  rw [Cache.get?_putFifo_self (by decide)]

/-- A header that is found was found in the cache or in the table. -/
theorem of_getBlockHeader {db : BlockDB} {k : Hash} {h : BlockHeader}
    (hk : db.getBlockHeader k = some h) :
    (k, h) ∈ db.headersCache ∨ db.tables.current.header k = some h := by
  rw [getBlockHeader] at hk
  split at hk
  · next a ha =>
    cases hk
    exact .inl (Cache.mem_of_get? ha)
  · exact .inr hk

theorem isSome_getBlockHeader {db : BlockDB} {k : Hash}
    (h : (db.tables.current.header k).isSome = true) : (db.getBlockHeader k).isSome = true := by
  rw [getBlockHeader]
  split
  · rfl
  · exact h

/-- Every header of the database has a property, together with the hash it is found under. -/
structure AllHeaders (P : Hash → BlockHeader → Prop) (db : BlockDB) : Prop where
  /-- The headers of the table. -/
  table : ∀ k h, db.tables.current.header k = some h → P k h
  /-- The headers of the cache. -/
  cache : ∀ k h, (k, h) ∈ db.headersCache → P k h

variable {P : Hash → BlockHeader → Prop}

theorem AllHeaders.of_getBlockHeader (hdb : db.AllHeaders P) {k : Hash} {h : BlockHeader}
    (hk : db.getBlockHeader k = some h) : P k h :=
  (BlockDB.of_getBlockHeader hk).elim (hdb.cache k h) (hdb.table k h)

theorem AllHeaders.imp {Q : Hash → BlockHeader → Prop} (hdb : db.AllHeaders P)
    (himp : ∀ k h, P k h → Q k h) : db.AllHeaders Q :=
  ⟨fun k h hk => himp k h (hdb.table k h hk), fun k h hk => himp k h (hdb.cache k h hk)⟩

/-- **Headers that are added and committed**: the cache gets them as they are, the table after
a round trip. -/
theorem AllHeaders.commit_addBlockHeaders (hdb : db.AllHeaders P) (hrest : db.uncommitted = [])
    {hs : List BlockHeader}
    (hs' : ∀ h ∈ hs, P (h.getHash G) h ∧ P (h.getHash G) h.reload) :
    ((db.addBlockHeaders G hs).commit G).AllHeaders P where
  table := by
    intro k h hk
    rw [commit, Batch.commit_current] at hk
    rcases header_of_addBlockHeaders hk with ⟨a, ha, rfl, rfl⟩ | hold
    · exact (hs' a ha).2
    · exact hdb.table k h hold
  cache := by
    intro k h hk
    rcases mem_headersCache_commit hk with hold | ⟨a, ha, heq⟩
    · exact hdb.cache k h (by rwa [addBlockHeaders_headersCache] at hold)
    · rw [addBlockHeaders_uncommitted, hrest, List.nil_append] at ha
      rw [Prod.mk.injEq] at heq
      rw [heq.1, heq.2]
      exact (hs' a ha).1

/-- A change of the other tables that is committed keeps the headers. -/
theorem AllHeaders.commit_writeTables (hdb : db.AllHeaders P) (hrest : db.uncommitted = [])
    {f : Tables → Tables} (hf : (f db.tables.current).header = db.tables.current.header) :
    ((db.writeTables f).commit G).AllHeaders P where
  table := by
    intro k h hk
    rw [commit, Batch.commit_current, writeTables_current, hf] at hk
    exact hdb.table k h hk
  cache := by
    intro k h hk
    rcases mem_headersCache_commit hk with hold | ⟨a, ha, -⟩
    · exact hdb.cache k h hold
    · rw [writeTables_uncommitted, hrest] at ha
      cases ha

/-- A rolled back database is the one from before the batch. -/
theorem rollback_eq {db' : BlockDB} (hdb : db.AtRest)
    (hc : db'.tables.committed = db.tables.committed)
    (hh : db'.headersCache = db.headersCache) : db'.rollback = db := by
  cases db with
  | mk tables cache uncommitted =>
    obtain ⟨ht, hu⟩ := hdb
    simp only [rollback, Batch.rollback_eq ht hc, hh]
    exact congrArg _ hu.symm

end BlockDB

end GrinPlusPlus
