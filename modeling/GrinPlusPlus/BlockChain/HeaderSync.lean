import GrinPlusPlus.BlockChain.HeaderMirror

/-!
# When header sync adopts a better chain

`ProcessSyncHeaders` hands its headers on in chunks of 512, and every chunk is compared with
the candidate chain on its own. A list whose end is better than the candidate chain is
therefore adopted only when the candidate chain is overtaken by the end of the first chunk
that has something new.

* `GrinPlusPlus.HeaderSync.ValidHeaders` – a list of headers that are valid one after the
  other, behind a header of the candidate chain. Where two headers share a hash, they are
  valid whichever of them is looked up;
* `GrinPlusPlus.HeaderSync.Overtakes` – the condition on the ends of the chunks;
* `GrinPlusPlus.HeaderSync.adopts_iff` – the list is adopted **exactly** under this
  condition. The three ways in which the loop over the chunks can go – nothing new so far, all
  adopted so far, or lost – are the lemmas `adopts_of_known`, `adopts_of_adopted` and
  `not_adopts_of_lost`.
-/

namespace GrinPlusPlus

namespace HeaderSync

open Exec ChainState BlockHeaderProcessor MMRHashUtil

variable (G : Global)

/-! ### Valid lists of headers -/

/-- A header that can be found under a hash, in a database to which headers were added. -/
def Possible (db : BlockDB) (added : List BlockHeader) (k : Hash) (h : BlockHeader) : Prop :=
  (k, h) ∈ db.headersCache ∨ db.tables.current.header k = some h ∨
    ∃ a ∈ added, a.getHash G = k ∧ (h = a ∨ h = a.reload)

/-- A lookup of such a database. -/
structure Answers (db : BlockDB) (added : List BlockHeader) (lookup : HeaderLookup) : Prop where
  /-- It finds what can be found. -/
  some : ∀ k h, lookup k = some h → Possible G db added k h
  /-- It misses nothing. -/
  none : ∀ k, lookup k = none →
    db.tables.current.header k = none ∧ ∀ a ∈ added, a.getHash G ≠ k

/-- The header MMR has the cycles of these hashes. -/
def MirrorsHashes (mmr : HeaderMMR) (hashes : List Hash) : Prop :=
  ∃ cycles, IsRangeOf G mmr.current cycles ∧ List.Forall₂ (CycleOf G) hashes cycles

/-- The headers can be a chain behind the first `n` hashes of the candidate chain. -/
structure ValidHeaders (now : ℤ) (s : ChainState) (n : ℕ) (headers : List BlockHeader) :
    Prop where
  /-- There is a header. -/
  nonempty : headers ≠ []
  /-- They come behind the genesis block. -/
  pos : 0 < n
  /-- Their heights are consecutive. -/
  heights : ∀ i h, headers[i]? = some h → h.getHeight = n + i
  /-- The first one is behind the candidate chain … -/
  first : ∀ h ∈ headers.head?, s.candidate.hashes[n - 1]? = some h.previousHash
  /-- … and each other one behind the one before it. -/
  linked : headers.IsChain fun a b => b.previousHash = a.getHash G
  /-- None of them is banned. -/
  notBad : ∀ h ∈ headers, h.getHash G ∉ badBlocks
  /-- Each one passes `BlockHeaderValidator::Validate` behind the ones in front of it. -/
  valid : ∀ front h back, headers = front ++ h :: back → ∀ lookup previous mmr,
    Answers G s.blockDB front lookup → Possible G s.blockDB front h.previousHash previous →
    MirrorsHashes G mmr (s.candidate.hashes.take n ++ front.map (BlockHeader.getHash G)) →
    BlockHeaderValidator.validate G now lookup mmr h previous = .ok ()

/-! ### Databases that grow -/

/-- The second database is the first one with headers added to it. -/
structure Grown (db : BlockDB) (added : List BlockHeader) (db' : BlockDB) : Prop where
  /-- New in the cache are the headers. -/
  cache : ∀ k h, (k, h) ∈ db'.headersCache →
    (k, h) ∈ db.headersCache ∨ ∃ a ∈ added, a.getHash G = k ∧ h = a
  /-- New in the table are the headers after a round trip. -/
  table : ∀ k h, db'.tables.current.header k = some h →
    db.tables.current.header k = some h ∨ ∃ a ∈ added, a.getHash G = k ∧ h = a.reload
  /-- Nothing is lost. -/
  keeps : ∀ k, (db.tables.current.header k).isSome = true ∨ (∃ a ∈ added, a.getHash G = k) →
    (db'.tables.current.header k).isSome = true

variable {G} {now : ℤ} {s t : ChainState} {n : ℕ} {headers front new back : List BlockHeader}

theorem Grown.answers {db db' : BlockDB} {added : List BlockHeader} (h : Grown G db added db') :
    Answers G db added db'.getBlockHeader where
  some := by
    intro k a hk
    rcases BlockDB.of_getBlockHeader hk with hmem | htab
    · rcases h.cache k a hmem with hold | ⟨b, hb, hkey, rfl⟩
      · exact .inl hold
      · exact .inr (.inr ⟨a, hb, hkey, .inl rfl⟩)
    · rcases h.table k a htab with hold | ⟨b, hb, hkey, rfl⟩
      · exact .inr (.inl hold)
      · exact .inr (.inr ⟨b, hb, hkey, .inr rfl⟩)
  none := by
    intro k hk
    have hnone : db'.tables.current.header k = none := by
      by_contra hsome
      have := BlockDB.isSome_getBlockHeader (Option.isSome_iff_ne_none.mpr hsome)
      rw [hk] at this
      cases this
    refine ⟨?_, fun a ha hkey => ?_⟩
    · by_contra hsome
      have := h.keeps k (.inl (Option.isSome_iff_ne_none.mpr hsome))
      rw [hnone] at this
      cases this
    · have := h.keeps k (.inr ⟨a, ha, hkey⟩)
      rw [hnone] at this
      cases this

theorem Grown.addBlockHeader {db db' : BlockDB} {added : List BlockHeader}
    (h : Grown G db added db') (a : BlockHeader) :
    Grown G db (added ++ [a]) (db'.addBlockHeader G a) where
  cache := by
    intro k b hk
    rcases h.cache k b hk with hold | ⟨c, hc, hkey, rfl⟩
    · exact .inl hold
    · exact .inr ⟨b, List.mem_append_left _ hc, hkey, rfl⟩
  table := by
    intro k b hk
    by_cases heq : k = a.getHash G
    · have hb : some a.reload = some b := by
        simpa [BlockDB.addBlockHeader, heq] using hk
      exact .inr ⟨a, by simp, heq.symm, (Option.some_inj.mp hb).symm⟩
    · have hb : db'.tables.current.header k = some b := by
        simpa [BlockDB.addBlockHeader, heq] using hk
      rcases h.table k b hb with hold | ⟨c, hc, hkey, rfl⟩
      · exact .inl hold
      · exact .inr ⟨c, List.mem_append_left _ hc, hkey, rfl⟩
  keeps := by
    intro k hk
    by_cases heq : k = a.getHash G
    · simp [BlockDB.addBlockHeader, heq]
    · have hold : (db'.tables.current.header k).isSome = true := by
        refine h.keeps k (hk.imp id ?_)
        rintro ⟨c, hc, hkey⟩
        rcases List.mem_append.mp hc with hc | hc
        · exact ⟨c, hc, hkey⟩
        · rw [List.mem_singleton] at hc
          exact absurd (hc ▸ hkey.symm) heq
      simpa [BlockDB.addBlockHeader, heq] using hold

theorem Grown.addBlockHeaders {db db' : BlockDB} {added : List BlockHeader}
    (h : Grown G db added db') (new : List BlockHeader) :
    Grown G db (added ++ new) (db'.addBlockHeaders G new) := by
  induction new generalizing added db' with
  | nil => rwa [List.append_nil]
  | cons a new ih =>
    have hstep := ih (h.addBlockHeader a)
    rwa [List.append_assoc, List.singleton_append] at hstep

theorem Grown.commit {db db' : BlockDB} {added : List BlockHeader} (h : Grown G db added db')
    (hnew : ∀ a ∈ db'.uncommitted, a ∈ added) : Grown G db added (db'.commit G) where
  cache := by
    intro k b hk
    rcases BlockDB.mem_headersCache_commit hk with hold | ⟨a, ha, heq⟩
    · exact h.cache k b hold
    · rw [Prod.mk.injEq] at heq
      exact .inr ⟨a, hnew a ha, heq.1.symm, heq.2⟩
  table := by
    intro k b hk
    rw [BlockDB.commit, Batch.commit_current] at hk
    exact h.table k b hk
  keeps := by
    intro k hk
    rw [BlockDB.commit, Batch.commit_current]
    exact h.keeps k hk

/-! ### The headers are validated and added -/

theorem MirrorsHashes.addHeader {mmr : HeaderMMR} {hashes : List Hash}
    (h : MirrorsHashes G mmr hashes) (header : BlockHeader) :
    ∃ mmr', mmr.addHeader G header = .ok mmr' ∧
      MirrorsHashes G mmr' (hashes ++ [header.getHash G]) := by
  obtain ⟨cycles, hrange, hcycles⟩ := h
  obtain ⟨mmr', hmmr', hrange', -⟩ := HeaderMMR.addHeader_ok hrange header
  refine ⟨mmr', hmmr', _, hrange', List.rel_append hcycles ?_⟩
  exact .cons ⟨header, rfl, rfl⟩ .nil

/-- **`ValidateHeaders` goes through** the next headers of a valid list. -/
theorem run_validateEach_ok (hvalid : ValidHeaders G now s n headers) {u : ChainState}
    {previous : BlockHeader} (hsplit : headers = front ++ (new ++ back))
    (hlength : u.candidate.hashes.length = n + front.length)
    (hgrown : Grown G s.blockDB front u.blockDB)
    (hmmr : MirrorsHashes G u.headerMMR
      (s.candidate.hashes.take n ++ front.map (BlockHeader.getHash G)))
    (hprevious : ∀ h ∈ new.head?, Possible G s.blockDB front h.previousHash previous) :
    ∃ v, run (validateEach G now new previous) u = (.ok (), v) := by
  induction new generalizing front previous u with
  | nil => exact ⟨u, rfl⟩
  | cons h new ih =>
    rw [List.cons_append] at hsplit
    have hval := hvalid.valid front h (new ++ back) hsplit u.blockDB.getBlockHeader previous
      u.headerMMR hgrown.answers (hprevious h rfl) hmmr
    have hheight : h.getHeight = u.candidate.hashes.length := by
      rw [hlength]
      exact hvalid.heights front.length h (by rw [hsplit]; simp)
    obtain ⟨m, hm, hmirror⟩ := hmmr.addHeader h
    obtain ⟨c, hc, hhashes, -⟩ := Chain.addBlock_length u.candidate (h.getHash G)
    have hsplit' : headers = (front ++ [h]) ++ (new ++ back) := by
      rw [hsplit, List.append_assoc, List.singleton_append]
    obtain ⟨v, hv⟩ := @ih (front ++ [h])
      { u with
        candidate := c
        headerMMR := m
        blockDB := u.blockDB.addBlockHeader G h
        accepted := u.accepted ++ [h] } h hsplit'
      (by simp [hhashes, hlength, Nat.add_assoc]) (hgrown.addBlockHeader h)
      (by simpa using hmirror) (by
        intro a ha
        have hlink := hvalid.linked
        rw [hsplit, List.isChain_append, List.isChain_cons] at hlink
        have hprev : a.previousHash = h.getHash G := by
          refine hlink.2.1.1 a ?_
          rw [Option.mem_def] at ha ⊢
          rw [List.head?_append, ha]
          rfl
        exact .inr (.inr ⟨h, by simp, hprev.symm, .inl rfl⟩))
    refine ⟨v, ?_⟩
    have hrun : run (validate G now h previous) u =
        (.ok (), { u with accepted := u.accepted ++ [h] }) := by
      rw [validate, run_bind_ok (run_get u), hval, run_bind_ok (run_ofExcept _ u)]
      rfl
    rw [validateEach, run_bind_ok hrun, updateHeaderMMR,
      run_bind_ok (run_update_ok (t := { u with headerMMR := m, accepted := u.accepted ++ [h] })
        (by rw [hm]; rfl)), modifyDB, run_bind_ok (run_modify _ _), updateCandidate,
      run_bind_ok (run_update_ok (by rw [hheight, hc]; rfl))]
    exact hv

/-! ### One chunk -/

variable (G) in
/-- The state in front of the headers behind `front`: the candidate chain starts with the first
`n` hashes and those of `front`. -/
structure Before (s : ChainState) (n : ℕ) (front : List BlockHeader) (u : ChainState) :
    Prop where
  /-- The header MMR mirrors the candidate chain. -/
  mirror : Mirror G u
  /-- The database has the headers. -/
  grown : Grown G s.blockDB front u.blockDB
  /-- The candidate chain has the headers. -/
  hashes : u.candidate.hashes.take (n + front.length) =
    s.candidate.hashes.take n ++ front.map (BlockHeader.getHash G)
  /-- The candidate chain is long enough. -/
  le : n + front.length ≤ u.candidate.hashes.length

theorem ValidHeaders.le_length (h : ValidHeaders G now s n headers) :
    n ≤ s.candidate.hashes.length := by
  obtain ⟨first, rest, rfl⟩ := List.exists_cons_of_ne_nil h.nonempty
  obtain ⟨hlt, -⟩ := List.getElem?_eq_some_iff.mp (h.first first rfl)
  have := h.pos
  omega

/-- The previous hash of a header is the last one in front of it. -/
theorem ValidHeaders.previous_eq (h : ValidHeaders G now s n headers) {a : BlockHeader}
    (hsplit : headers = front ++ a :: back) :
    (s.candidate.hashes.take n ++ front.map (BlockHeader.getHash G))[n + front.length - 1]? =
      some a.previousHash := by
  have hn := h.le_length
  have hpos := h.pos
  rcases List.eq_nil_or_concat front with rfl | ⟨l, b, rfl⟩
  · have hfirst := h.first a (by rw [hsplit]; rfl)
    rw [List.map_nil, List.append_nil, List.length_nil, Nat.add_zero,
      List.getElem?_take_of_lt (by omega)]
    exact hfirst
  · have hlink := h.linked
    rw [hsplit, List.concat_eq_append, List.append_assoc, List.isChain_append] at hlink
    have hab : a.previousHash = b.getHash G := by
      have hcons := hlink.2.1
      rw [List.singleton_append, List.isChain_cons_cons] at hcons
      exact hcons.1
    rw [List.concat_eq_append, List.length_append, List.length_singleton,
      List.getElem?_append_right (by rw [List.length_take]; omega), List.length_take,
      List.map_append, List.map_singleton, List.getElem?_append_right (by
        rw [List.length_map]; omega), List.length_map, hab]
    rw [show n + (l.length + 1) - 1 - min n s.candidate.hashes.length - l.length = 0 by omega]
    rfl

theorem Before.previous_onChain {u : ChainState} (hvalid : ValidHeaders G now s n headers)
    (h : Before G s n front u) {a : BlockHeader} (hsplit : headers = front ++ a :: back) :
    u.candidate.hashes[n + front.length - 1]? = some a.previousHash := by
  have hprev := hvalid.previous_eq hsplit
  have hpos := hvalid.pos
  rwa [← h.hashes, List.getElem?_take_of_lt (by omega)] at hprev

/-- **The next headers of a valid list can be adopted.** -/
theorem run_adoptHeaders_ok {u : ChainState} (hvalid : ValidHeaders G now s n headers)
    (h : Before G s n front u) (hsplit : headers = front ++ (new ++ back)) (hnew : new ≠ [])
    (lastDifficulty totalDifficulty : ℕ) :
    ∃ v, run (adoptHeaders G now new lastDifficulty totalDifficulty) u = (.ok .success, v) := by
  obtain ⟨first, rest, rfl⟩ := List.exists_cons_of_ne_nil hnew
  have hpos := hvalid.pos
  have hle := h.le
  have hheight : first.getHeight = n + front.length :=
    hvalid.heights front.length first (by rw [hsplit]; simp)
  have hdec : decrement first.getHeight = n + front.length - 1 := by
    rw [hheight, decrement, if_neg (by omega)]
  obtain ⟨c, hc, hhashes, -⟩ :=
    Chain.rewind_of_lt (by omega : n + front.length - 1 < u.candidate.hashes.length)
  rw [Nat.sub_add_cancel (by omega), h.hashes] at hhashes
  obtain ⟨cycles, hrange, hcycles⟩ := h.mirror.range
  obtain ⟨m, hm, hrange', -⟩ := HeaderMMR.rewind_ok hrange
    (show n + front.length ≤ cycles.length by rw [← hcycles.length_eq]; exact hle)
  have hmirror : MirrorsHashes G m
      (s.candidate.hashes.take n ++ front.map (BlockHeader.getHash G)) := by
    refine ⟨_, hrange', ?_⟩
    rw [← h.hashes]
    exact List.forall₂_take _ hcycles
  -- The previous header of the first one is on the candidate chain, so it is stored.
  obtain ⟨previous, hprevious⟩ : ∃ previous,
      u.blockDB.getBlockHeader first.previousHash = some previous := by
    refine Option.isSome_iff_exists.mp (BlockDB.isSome_getBlockHeader (h.mirror.stored _ ?_))
    exact List.mem_of_getElem? (h.previous_onChain hvalid hsplit)
  have hlength : c.hashes.length = n + front.length := by
    have := hvalid.le_length
    rw [hhashes, List.length_append, List.length_take, List.length_map]
    omega
  have hpossible : ∀ a ∈ (first :: rest).head?,
      Possible G s.blockDB front a.previousHash previous := by
    intro a ha
    cases ha
    exact h.grown.answers.some _ _ hprevious
  obtain ⟨v, hv⟩ := run_validateEach_ok (u := { u with candidate := c, headerMMR := m })
    hvalid hsplit hlength h.grown hmirror hpossible
  have hval : run (validateHeaders G now (first :: rest))
      { u with candidate := c, headerMMR := m } = (.ok (), v) := by
    rw [validateHeaders, run_bind_ok (run_get _)]
    dsimp only
    rw [hprevious]
    exact hv
  refine ⟨(if lastDifficulty ≤ totalDifficulty then
      { v with headerMMR := v.headerMMR.rollback, candidate := v.candidate.rollback }
    else v).commit G, ?_⟩
  rw [adoptHeaders, hdec, hheight, updateCandidate,
    run_bind_ok (run_update_ok (t := { u with candidate := c }) (by rw [hc]; rfl)),
    updateHeaderMMR,
    run_bind_ok (run_update_ok (t := { u with candidate := c, headerMMR := m })
      (by dsimp only; rw [hm]; rfl)),
    run_bind_ok hval, run_bind_ok (run_rollbackUnlessMore _ _ v), run_bind_ok (run_modify _ _)]
  rfl

/-- The headers of the candidate chain that follow are known. -/
theorem take_append_known {hashes : List Hash} {m : ℕ} (known : List BlockHeader)
    (hknown : ∀ i h, known[i]? = some h → hashes[m + i]? = some (h.getHash G)) :
    hashes.take (m + known.length) =
      hashes.take m ++ known.map (BlockHeader.getHash G) := by
  induction known generalizing m with
  | nil => simp
  | cons a known ih =>
    have hhead := hknown 0 a rfl
    rw [Nat.add_zero] at hhead
    have htail := @ih (m + 1) fun i h hi => by
      have := hknown (i + 1) h (by simpa using hi)
      rwa [Nat.add_assoc, Nat.add_comm 1]
    rw [List.length_cons, ← Nat.add_assoc, Nat.add_right_comm, htail, List.take_add_one, hhead,
      List.map_cons, List.append_assoc]
    rfl

/-- The total difficulty at the end of a chunk. -/
def lastDifficulty (chunk : List BlockHeader) : ℕ :=
  (chunk.getLast?.map (·.getTotalDifficulty)).getD 0

/-- The headers are on the candidate chain. -/
def known (G : Global) (s : ChainState) (chunk : List BlockHeader) : Bool :=
  chunk.all fun h => s.candidate.isOnChain h.getHeight (h.getHash G)

theorem Before.known {u : ChainState} (hvalid : ValidHeaders G now s n headers)
    (h : Before G s n front u) {chunk : List BlockHeader}
    (hsplit : headers = front ++ (chunk ++ back))
    (hknown : ∀ a ∈ chunk, u.candidate.isOnChain a.getHeight (a.getHash G) = true) :
    Before G s n (front ++ chunk) u := by
  have hat : ∀ i a, chunk[i]? = some a →
      u.candidate.hashes[n + front.length + i]? = some (a.getHash G) := by
    intro i a hi
    have hheight : a.getHeight = n + (front.length + i) := by
      refine hvalid.heights (front.length + i) a ?_
      obtain ⟨hlt, -⟩ := List.getElem?_eq_some_iff.mp hi
      rw [hsplit, List.getElem?_append_right (by omega), Nat.add_sub_cancel_left,
        List.getElem?_append_left hlt, hi]
    have hon := Chain.isOnChain_iff.mp (hknown a (List.mem_of_getElem? hi))
    rwa [hheight, ← Nat.add_assoc] at hon
  refine ⟨h.mirror, ?_, ?_, ?_⟩
  · refine ⟨fun k a hk => ?_, fun k a hk => ?_, fun k hk => ?_⟩
    · exact (h.grown.cache k a hk).imp id fun ⟨b, hb, hrest⟩ =>
        ⟨b, List.mem_append_left _ hb, hrest⟩
    · exact (h.grown.table k a hk).imp id fun ⟨b, hb, hrest⟩ =>
        ⟨b, List.mem_append_left _ hb, hrest⟩
    · rcases hk with hk | ⟨a, ha, rfl⟩
      · exact h.grown.keeps k (.inl hk)
      · rcases List.mem_append.mp ha with ha | ha
        · exact h.grown.keeps _ (.inr ⟨a, ha, rfl⟩)
        · -- A header of the candidate chain is stored.
          exact h.mirror.stored _
            (List.mem_of_getElem? (Chain.isOnChain_iff.mp (hknown a ha)))
  · rw [List.length_append, ← Nat.add_assoc, take_append_known chunk hat, h.hashes,
      List.append_assoc, List.map_append]
  · rcases List.eq_nil_or_concat chunk with rfl | ⟨l, b, rfl⟩
    · simpa using h.le
    · have hlast := hat l.length b (by simp)
      obtain ⟨hlt, -⟩ := List.getElem?_eq_some_iff.mp hlast
      simp only [List.concat_eq_append, List.length_append, List.length_singleton]
      omega

/-- The total difficulty of a candidate chain whose last header was just added. -/
theorem getTotalDifficulty_of_last {db : BlockDB} (hdb : db.uncommitted = [])
    (ht : t.blockDB = (db.addBlockHeaders G new).commit G) {hashes : List Hash}
    (hhashes : t.candidate.hashes = hashes ++ new.map (BlockHeader.getHash G)) (hnew : new ≠ []) :
    t.getTotalDifficulty .candidate = lastDifficulty new := by
  obtain ⟨l, last, rfl⟩ := List.eq_nil_or_concat new |>.resolve_left hnew
  have htip : t.candidate.getTipHash = last.getHash G := by
    have htip' := Chain.getElem?_getHeight t.candidate
    rw [Chain.getHeight, ← List.getLast?_eq_getElem?, hhashes] at htip'
    simpa using htip'.symm
  have hlast : t.blockDB.getBlockHeader (last.getHash G) = some last := by
    rw [ht]
    exact BlockDB.getBlockHeader_commit_addBlockHeaders hdb (by simp)
  rw [getTotalDifficulty, getTipBlockHeader, getChain, htip, hlast]
  simp [lastDifficulty]

/-- **One chunk of a valid list**: everything in it is known, or the rest is adopted or loses,
as its last header decides. -/
theorem run_chunk {u : ChainState} (hvalid : ValidHeaders G now s n headers)
    (h : Before G s n front u) {chunk : List BlockHeader}
    (hsplit : headers = front ++ (chunk ++ back)) (hchunk : chunk ≠ []) :
    (known G u chunk = true ∧
        run (processChunkedSyncHeaders G now chunk) u = (.ok .alreadyExists, u)) ∨
      known G u chunk = false ∧
        ∃ t, run (processChunkedSyncHeaders G now chunk) u = (.ok .success, t) ∧ Mirror G t ∧
          Grown G s.blockDB (front ++ chunk) t.blockDB ∧
          (lastDifficulty chunk ≤ u.getTotalDifficulty .candidate ∧ t.candidate = u.candidate ∨
            u.getTotalDifficulty .candidate < lastDifficulty chunk ∧
              t.candidate.hashes = s.candidate.hashes.take n ++
                (front ++ chunk).map (BlockHeader.getHash G) ∧
              t.getTotalDifficulty .candidate = lastDifficulty chunk) := by
  obtain ⟨first, rest, rfl⟩ := List.exists_cons_of_ne_nil hchunk
  have hpos := hvalid.pos
  have hprepared : u.candidate.isOnChain (decrement first.getHeight) first.previousHash = true := by
    have hheight : first.getHeight = n + front.length :=
      hvalid.heights front.length first (by rw [hsplit]; simp)
    rw [Chain.isOnChain_iff, hheight, decrement, if_neg (by omega)]
    exact h.previous_onChain hvalid hsplit
  have htake := List.takeWhile_append_dropWhile
    (p := fun h => u.candidate.isOnChain h.getHeight (h.getHash G)) (l := first :: rest)
  rcases hdrop : (first :: rest).dropWhile fun h =>
    u.candidate.isOnChain h.getHeight (h.getHash G) with _ | ⟨first', rest'⟩
  · -- Everything is on the candidate chain.
    refine .inl ⟨?_, ?_⟩
    · rw [known, List.all_eq_true]
      rw [List.dropWhile_eq_nil_iff] at hdrop
      exact hdrop
    · have hbody : run (processChunkedSyncHeadersLocked G now (first :: rest)) u =
          (.ok .alreadyExists, u) := by
        rw [processChunkedSyncHeadersLocked, run_bind_ok (run_get u), hprepared,
          if_neg (by simp), hdrop]
        rfl
      rw [processChunkedSyncHeaders, run_batch_of_same h.mirror.atRest hbody rfl]
      rfl
  · refine .inr ⟨?_, ?_⟩
    · rw [known, List.all_eq_false]
      refine ⟨first', List.dropWhile_subset (fun h =>
        u.candidate.isOnChain h.getHeight (h.getHash G)) (by rw [hdrop]; simp), ?_⟩
      have := List.head?_dropWhile_not
        (fun h => u.candidate.isOnChain h.getHeight (h.getHash G)) (first :: rest)
      rw [hdrop] at this
      simpa using this
    · rw [hdrop] at htake
      set old := (first :: rest).takeWhile fun h =>
        u.candidate.isOnChain h.getHeight (h.getHash G) with hold
      have hnew : first' :: rest' ≠ [] := List.cons_ne_nil _ _
      have hsplit' : headers = (front ++ old) ++ ((first' :: rest') ++ back) := by
        rw [hsplit, ← htake, List.append_assoc, List.append_assoc]
      have hbefore : Before G s n (front ++ old) u := by
        have hsplit'' : headers = front ++ (old ++ ((first' :: rest') ++ back)) := by
          rw [hsplit', List.append_assoc]
        refine h.known hvalid hsplit'' fun a ha => ?_
        have hon := List.mem_takeWhile_imp ha
        exact hon
      have hlastd : lastDifficulty (first :: rest) = lastDifficulty (first' :: rest') := by
        rw [lastDifficulty, ← htake, List.getLast?_append_of_ne_nil _ hnew]
        rfl
      obtain ⟨v, hv⟩ := run_adoptHeaders_ok hvalid hbefore hsplit' hnew
        (lastDifficulty (first' :: rest')) (u.getTotalDifficulty .candidate)
      have hbody : run (processChunkedSyncHeadersLocked G now (first :: rest)) u =
          (.ok .success, v) := by
        rw [processChunkedSyncHeadersLocked, run_bind_ok (run_get u), hprepared,
          if_neg (by simp), hdrop]
        exact hv
      have hlast : lastDifficulty (first' :: rest') =
          ((first' :: rest').getLast hnew).getTotalDifficulty := by
        rw [lastDifficulty, List.getLast?_eq_some_getLast hnew]
        rfl
      obtain ⟨-, m, previous, hstep, hlose⟩ :=
        headerStep_of_run_adoptHeaders (o := u.orphanPool) h.mirror.atRest hnew hlast hv
      have hm : m = n + (front ++ old).length := by
        have hheight := hvalid.heights (front ++ old).length first' (by
          rw [hsplit', List.getElem?_append_right le_rfl]
          simp)
        rw [← hheight, hstep.heights 0 first' rfl, Nat.add_zero]
      have hdb : v.rollback.blockDB = (u.blockDB.addBlockHeaders G (first' :: rest')).commit G := by
        rw [hstep.eq]
      refine ⟨v.rollback, ?_, h.mirror.headerStep hstep, ?_, ?_⟩
      · rw [processChunkedSyncHeaders, batch, run_ofRun, hbody]
      · rw [hdb, ← htake, ← List.append_assoc]
        refine (hbefore.grown.addBlockHeaders _).commit fun a ha => ?_
        rw [BlockDB.addBlockHeaders_uncommitted, h.mirror.atRest.blockDB.2, List.nil_append] at ha
        exact List.mem_append_right _ ha
      · rw [hlastd]
        by_cases hle : lastDifficulty (first' :: rest') ≤ u.getTotalDifficulty .candidate
        · exact .inl ⟨hle, hlose hle⟩
        · rcases hstep.outcome with ⟨habs, -⟩ | ⟨-, hhashes, -⟩
          · exact absurd (hlast ▸ habs) hle
          · rw [hm, hbefore.hashes] at hhashes
            refine .inr ⟨Nat.lt_of_not_le hle, ?_, ?_⟩
            · rw [hhashes, ← htake, List.append_assoc, ← List.map_append, List.append_assoc]
            · exact getTotalDifficulty_of_last h.mirror.atRest.blockDB.2 hdb hhashes hnew

/-! ### The loop over the chunks -/

variable (G) in
/-- The call succeeded and the candidate chain ends with the headers, behind its first `n`
hashes. -/
def Adopts (s : ChainState) (n : ℕ) (headers : List BlockHeader)
    (r : Except Exc EBlockChainStatus × ChainState) : Prop :=
  r.1 = .ok .success ∧
    r.2.candidate.hashes = s.candidate.hashes.take n ++ headers.map (BlockHeader.getHash G)

/-- **Lost**: a place of the candidate chain below all headers to come is wrong, and stays so. -/
theorem not_adopts_of_lost {chunks : List (List BlockHeader)} {u : ChainState} {j : ℕ}
    (hu : u.AtRest) (hchunks : ∀ c ∈ chunks, ∀ h ∈ c, j < h.getHeight)
    (hj : u.candidate.hashes[j]? ≠
      (s.candidate.hashes.take n ++ headers.map (BlockHeader.getHash G))[j]?) :
    ¬Adopts G s n headers (run (processChunks G now chunks) u) := by
  induction chunks generalizing u with
  | nil =>
    rintro ⟨-, hhashes⟩
    exact hj (by rw [← hhashes]; rfl)
  | cons chunk chunks ih =>
    have hrest : ∀ c ∈ chunks, ∀ h ∈ c, j < h.getHeight :=
      fun c hc => hchunks c (List.mem_cons_of_mem _ hc)
    rcases hrun : run (processChunkedSyncHeaders G now chunk) u with ⟨e | status, t⟩
    · rintro ⟨hok, -⟩
      rw [processChunks, run_bind_error hrun] at hok
      cases hok
    · have ht : t.AtRest := by
        have := batch_atRest (processChunkedSyncHeadersLocked G now chunk) u
        rw [processChunkedSyncHeaders] at hrun
        rwa [hrun] at this
      have hj' : t.candidate.hashes[j]? ≠
          (s.candidate.hashes.take n ++ headers.map (BlockHeader.getHash G))[j]? := by
        rcases processChunkedSyncHeaders_cases hu hrun with hpools | ⟨-, m, _, new, hstep, horigin⟩
        · rw [hpools]
          exact hj
        · rcases hstep.outcome with ⟨-, hcand, -⟩ | ⟨-, hhashes, -⟩
          · rwa [hcand]
          · -- The headers are added behind the place.
            obtain ⟨first, rest, rfl⟩ := List.exists_cons_of_ne_nil hstep.nonempty
            obtain ⟨old, hold, -⟩ := horigin.known
            have hlt := hchunks chunk (List.mem_cons_self ..) first (by rw [hold]; simp)
            have hm := hstep.heights 0 first rfl
            have hle := hstep.le
            rwa [hhashes, List.getElem?_append_left (by rw [List.length_take]; omega),
              List.getElem?_take_of_lt (by omega)]
      rw [processChunks, run_bind_ok hrun]
      split
      · next hstatus =>
        rintro ⟨hok, -⟩
        rw [run_pure] at hok
        exact hstatus.1 (Except.ok.inj hok)
      · exact ih ht hrest hj'

/-- The heights behind the headers in front. -/
theorem ValidHeaders.height_of_mem (h : ValidHeaders G now s n headers)
    (hsplit : headers = front ++ back) {a : BlockHeader} (ha : a ∈ back) :
    n + front.length ≤ a.getHeight := by
  obtain ⟨i, hi⟩ := List.getElem?_of_mem ha
  have := h.heights (front.length + i) a (by
    rw [hsplit, List.getElem?_append_right (by omega), Nat.add_sub_cancel_left, hi])
  omega

theorem getElem?_target (hn : n ≤ s.candidate.hashes.length) {a : BlockHeader} {i : ℕ}
    (hi : headers[i]? = some a) :
    (s.candidate.hashes.take n ++ headers.map (BlockHeader.getHash G))[n + i]? =
      some (a.getHash G) := by
  rw [List.getElem?_append_right (by rw [List.length_take]; omega), List.length_take,
    Nat.min_eq_left hn, Nat.add_sub_cancel_left, List.getElem?_map, hi]
  rfl

/-- **A chunk that loses is never made up for**: its new header is missing, and all headers to
come are higher. -/
theorem not_adopts_of_chunk_lost {chunk : List BlockHeader} {chunks : List (List BlockHeader)}
    {u : ChainState} (hvalid : ValidHeaders G now s n headers)
    (hsplit : headers = front ++ (chunk ++ chunks.flatten)) (hknown : known G u chunk = false)
    (ht : t.AtRest) (hcand : t.candidate = u.candidate) :
    ¬Adopts G s n headers (run (processChunks G now chunks) t) := by
  rw [known, List.all_eq_false] at hknown
  obtain ⟨a, ha, hoff⟩ := hknown
  obtain ⟨i, hi⟩ := List.getElem?_of_mem ha
  obtain ⟨hlt, -⟩ := List.getElem?_eq_some_iff.mp hi
  have hat : headers[front.length + i]? = some a := by
    rw [hsplit, List.getElem?_append_right (by omega), Nat.add_sub_cancel_left,
      List.getElem?_append_left hlt, hi]
  refine not_adopts_of_lost (j := n + (front.length + i)) ht ?_ ?_
  · intro c hc b hb
    have hrest : headers = (front ++ chunk) ++ chunks.flatten := by
      rw [hsplit, List.append_assoc]
    have := hvalid.height_of_mem hrest (List.mem_flatten.mpr ⟨c, hc, hb⟩)
    rw [List.length_append] at this
    omega
  · intro heq
    rw [hcand, getElem?_target hvalid.le_length hat, ← hvalid.heights _ _ hat] at heq
    exact hoff (Chain.isOnChain_iff.mpr heq)

/-- The state behind a chunk that was adopted. -/
theorem before_of_won {chunk : List BlockHeader} (hvalid : ValidHeaders G now s n headers)
    (ht : Mirror G t) (hgrown : Grown G s.blockDB (front ++ chunk) t.blockDB)
    (hhashes : t.candidate.hashes = s.candidate.hashes.take n ++
      (front ++ chunk).map (BlockHeader.getHash G)) :
    Before G s n (front ++ chunk) t ∧
      t.candidate.hashes.length = n + (front ++ chunk).length := by
  have hn := hvalid.le_length
  have hlen : t.candidate.hashes.length = n + (front ++ chunk).length := by
    rw [hhashes, List.length_append, List.length_take, List.length_map]
    omega
  exact ⟨⟨ht, hgrown, by rw [← hlen, List.take_length, hhashes], hlen.ge⟩, hlen⟩

/-- **Adopted so far**: the rest is adopted when the ends of the chunks keep increasing. -/
theorem adopts_of_adopted {chunks : List (List BlockHeader)} {u : ChainState}
    (hvalid : ValidHeaders G now s n headers) (h : Before G s n front u)
    (hlength : u.candidate.hashes.length = n + front.length)
    (hsplit : headers = front ++ chunks.flatten) (hne : ∀ c ∈ chunks, c ≠ []) :
    Adopts G s n headers (run (processChunks G now chunks) u) ↔
      (u.getTotalDifficulty .candidate :: chunks.map lastDifficulty).IsChain (· < ·) := by
  induction chunks generalizing front u with
  | nil =>
    refine ⟨fun _ => List.IsChain.singleton _, fun _ => ⟨rfl, ?_⟩⟩
    rw [List.flatten_nil, List.append_nil] at hsplit
    have hhashes := h.hashes
    rw [← hlength, List.take_length] at hhashes
    rw [hsplit]
    exact hhashes
  | cons chunk chunks ih =>
    rw [List.flatten_cons] at hsplit
    have hchunk := hne chunk (List.mem_cons_self ..)
    rcases run_chunk hvalid h hsplit hchunk with ⟨hknown, -⟩ | ⟨hknown, t, hrun, ht, hgrown, hend⟩
    · -- The first header is higher than the candidate chain, so it is new.
      obtain ⟨first, rest, rfl⟩ := List.exists_cons_of_ne_nil hchunk
      rw [known, List.all_eq_true] at hknown
      have hon := Chain.isOnChain_iff.mp (hknown first (List.mem_cons_self ..))
      obtain ⟨hlt, -⟩ := List.getElem?_eq_some_iff.mp hon
      have := hvalid.height_of_mem hsplit (List.mem_append_left _ (List.mem_cons_self ..))
      omega
    · rw [processChunks, run_bind_ok hrun, if_neg (by decide), List.map_cons,
        List.isChain_cons_cons]
      rcases hend with ⟨hle, hcand⟩ | ⟨hlt, hhashes, hdifficulty⟩
      · refine ⟨fun hadopts => ?_, fun hchain => absurd hchain.1 (Nat.not_lt.mpr hle)⟩
        exact absurd hadopts (not_adopts_of_chunk_lost hvalid hsplit hknown ht.atRest hcand)
      · obtain ⟨hbefore, hlen⟩ := before_of_won hvalid ht hgrown hhashes
        have hrest := ih hbefore hlen (by rw [hsplit, List.append_assoc])
          fun c hc => hne c (List.mem_cons_of_mem _ hc)
        rw [hdifficulty] at hrest
        rw [hrest]
        exact ⟨fun hchain => ⟨hlt, hchain⟩, fun hchain => hchain.2⟩

variable (G) in
/-- The candidate chain is overtaken by the end of each of the chunks, from the first one with
something new on. When nothing is new, the candidate chain already ends with the headers. -/
def OvertakenBy (s : ChainState) (n : ℕ) (headers : List BlockHeader)
    (chunks : List (List BlockHeader)) : Prop :=
  match chunks.dropWhile (known G s) with
  | [] => s.candidate.hashes.length = n + headers.length
  | new :: rest =>
    (s.getTotalDifficulty .candidate :: (new :: rest).map lastDifficulty).IsChain (· < ·)

/-- **Nothing new so far**: the first chunk with something new decides. -/
theorem adopts_of_known {chunks : List (List BlockHeader)}
    (hvalid : ValidHeaders G now s n headers) (h : Before G s n front s)
    (hsplit : headers = front ++ chunks.flatten) (hne : ∀ c ∈ chunks, c ≠ []) :
    Adopts G s n headers (run (processChunks G now chunks) s) ↔
      OvertakenBy G s n headers chunks := by
  induction chunks generalizing front with
  | nil =>
    rw [List.flatten_nil, List.append_nil] at hsplit
    subst hsplit
    have hhashes := h.hashes
    have hle := h.le
    have hn := hvalid.le_length
    constructor
    · rintro ⟨-, hadopts⟩
      have hlen := congrArg List.length hadopts
      rw [List.length_append, List.length_take, List.length_map] at hlen
      have : s.candidate.hashes.length = n + headers.length := by
        rw [Nat.min_eq_left hn] at hlen
        exact hlen
      exact this
    · intro hlen
      refine ⟨rfl, ?_⟩
      have hlen' : s.candidate.hashes.length = n + headers.length := hlen
      rw [← hlen', List.take_length] at hhashes
      exact hhashes
  | cons chunk chunks ih =>
    rw [List.flatten_cons] at hsplit
    have hchunk := hne chunk (List.mem_cons_self ..)
    have hrest : ∀ c ∈ chunks, c ≠ [] := fun c hc => hne c (List.mem_cons_of_mem _ hc)
    rcases run_chunk hvalid h hsplit hchunk with
      ⟨hknown, hrun⟩ | ⟨hknown, t, hrun, ht, hgrown, hend⟩
    · rw [processChunks, run_bind_ok hrun, if_neg (by decide), OvertakenBy,
        List.dropWhile_cons_of_pos hknown]
      have hall := hknown
      rw [known, List.all_eq_true] at hall
      exact ih (h.known hvalid hsplit hall) (by rw [hsplit, List.append_assoc]) hrest
    · rw [processChunks, run_bind_ok hrun, if_neg (by decide), OvertakenBy,
        List.dropWhile_cons_of_neg (by rw [hknown]; decide)]
      dsimp only
      rw [List.map_cons, List.isChain_cons_cons]
      rcases hend with ⟨hle, hcand⟩ | ⟨hlt, hhashes, hdifficulty⟩
      · refine ⟨fun hadopts => ?_, fun hchain => absurd hchain.1 (Nat.not_lt.mpr hle)⟩
        exact absurd hadopts (not_adopts_of_chunk_lost hvalid hsplit hknown ht.atRest hcand)
      · obtain ⟨hbefore, hlen⟩ := before_of_won hvalid ht hgrown hhashes
        have hiff := adopts_of_adopted hvalid hbefore hlen (by rw [hsplit, List.append_assoc]) hrest
        rw [hdifficulty] at hiff
        rw [hiff]
        exact ⟨fun hchain => ⟨hlt, hchain⟩, fun hchain => hchain.2⟩

/-! ### The chunks of the list -/

/-- The chunks are the headers again. -/
theorem flatten_chunksFrom (index : ℕ) (begun : List BlockHeader) (hheaders : headers ≠ []) :
    (chunksFrom index begun headers).flatten = begun ++ headers := by
  induction headers generalizing index begun with
  | nil => exact absurd rfl hheaders
  | cons header headers ih =>
    rw [chunksFrom]
    by_cases hnil : headers = []
    · subst hnil
      simp [chunksFrom]
    · split
      · rw [List.flatten_cons, ih _ _ hnil, List.nil_append, List.append_assoc,
          List.singleton_append]
      · rw [ih _ _ hnil, List.append_assoc, List.singleton_append]

theorem eq_flatten_chunksFrom (hheaders : headers ≠ []) :
    headers = [] ++ (chunksFrom 0 [] headers).flatten := by
  rw [flatten_chunksFrom 0 [] hheaders, List.nil_append, List.nil_append]

/-- No chunk is empty. -/
theorem ne_nil_of_mem_chunksFrom {index : ℕ} {begun chunk : List BlockHeader}
    (h : chunk ∈ chunksFrom index begun headers) : chunk ≠ [] := by
  induction headers generalizing index begun with
  | nil => cases h
  | cons header headers ih =>
    rw [chunksFrom] at h
    split at h
    · rcases List.mem_cons.mp h with rfl | h
      · simp
      · exact ih h
    · exact ih h

theorem ValidHeaders.headersSorted (h : ValidHeaders G now s n headers) :
    headersSorted headers = true := by
  rw [BlockHeaderProcessor.headersSorted, List.all_eq_true]
  rintro ⟨a, b⟩ hab
  obtain ⟨i, hi⟩ := List.getElem?_of_mem hab
  rw [List.getElem?_zip_eq_some, List.getElem?_tail] at hi
  have ha : a.height.toNat = n + i := h.heights i a hi.1
  have hb : b.height.toNat = n + (i + 1) := h.heights (i + 1) b hi.2
  have hlt : b.height.toNat < 2 ^ 64 := b.height.toNat_lt
  have hone : (1 : UInt64).toNat = 1 := rfl
  rw [decide_eq_true_eq, ← UInt64.toNat_inj, UInt64.toNat_add, hone]
  dsimp only
  omega

theorem ValidHeaders.run_processSyncHeaders (h : ValidHeaders G now s n headers) :
    run (processSyncHeaders G now headers) s =
      run (processChunks G now (chunksFrom 0 [] headers)) s := by
  obtain ⟨first, rest, rfl⟩ := List.exists_cons_of_ne_nil h.nonempty
  have hpos := h.pos
  have hfirst : first.getHeight ≠ 0 := by
    have := h.heights 0 first rfl
    omega
  have hbad : ¬∃ a ∈ first :: rest, a.getHash G ∈ badBlocks := by
    rintro ⟨a, ha, hmem⟩
    exact h.notBad a ha hmem
  rw [processSyncHeaders, if_neg hbad, if_neg hfirst, if_neg (by rw [h.headersSorted]; decide)]

/-! ### When the list is adopted -/

variable (G) in
/-- **The condition**: cut into chunks of 512 headers, the list has more total difficulty than
the candidate chain at the end of the first chunk with a header that is not on the candidate
chain, and at the end of every later chunk more than at the end of the one before it. Where
all headers are on the candidate chain, it already ends with them. -/
def Overtakes (s : ChainState) (n : ℕ) (headers : List BlockHeader) : Prop :=
  OvertakenBy G s n headers (chunksFrom 0 [] headers)

theorem ValidHeaders.before (hs : Mirror G s) (h : ValidHeaders G now s n headers) :
    Before G s n [] s := by
  refine ⟨hs, ⟨fun k a hk => .inl hk, fun k a hk => .inl hk, fun k hk => ?_⟩, ?_, ?_⟩
  · rcases hk with hk | ⟨a, ha, -⟩
    · exact hk
    · cases ha
  · simp
  · simpa using h.le_length

/-- **Header sync adopts a list of valid headers exactly when it overtakes the candidate chain
chunk by chunk.** -/
theorem adopts_iff (hs : Mirror G s) (hvalid : ValidHeaders G now s n headers) :
    Adopts G s n headers (run (processSyncHeaders G now headers) s) ↔
      Overtakes G s n headers := by
  rw [hvalid.run_processSyncHeaders]
  exact adopts_of_known hvalid (hvalid.before hs)
    (eq_flatten_chunksFrom hvalid.nonempty) fun c hc => ne_nil_of_mem_chunksFrom hc

/-! ### A longer fork that is not adopted -/

open SmallNet

variable {difficulty : ℕ → UInt64}

/-- The first headers of a chain of the small network. -/
def forkHeaders (difficulty : ℕ → UInt64) (length : ℕ) : List BlockHeader :=
  (List.range length).map fun i => forkHeader difficulty (i + 1)

theorem mirrorsHashes_fork (difficulty : ℕ → UInt64) (n : ℕ) :
    MirrorsHashes testNet (fork difficulty n).2
      ((List.range (n + 1)).map fun i => (forkHeader difficulty i).getHash testNet) := by
  induction n with
  | zero =>
    have hcreated := created_of_create create_eq
    exact ⟨_, hcreated.range, .cons ⟨genesisHeader, rfl, rfl⟩ .nil⟩
  | succ n ih =>
    obtain ⟨mmr', hmmr', hmirrors⟩ := ih.addHeader (forkHeader difficulty (n + 1))
    have hnext : (fork difficulty (n + 1)).2 = mmr' := by
      have hdef : (fork difficulty (n + 1)).2 = ((fork difficulty n).2.addHeader testNet
          (forkHeader difficulty (n + 1))).toOption.getD (fork difficulty n).2 := rfl
      rw [hdef, hmmr']
      rfl
    rw [hnext, List.range_succ, List.map_append]
    exact hmirrors

/-- Two header MMRs of the same hashes have the same root. -/
theorem MirrorsHashes.root_eq (hG : G.InjectiveOnBytes) {a b : HeaderMMR} {hashes : List Hash}
    (ha : MirrorsHashes G a hashes) (hb : MirrorsHashes G b hashes) {i : ℕ}
    (hi : hashes.length = i + 1) (h64 : i + 1 < 2 ^ 64) :
    ∃ r, a.root G i = .ok r ∧ b.root G i = .ok r := by
  obtain ⟨cycles, hrange, hcycles⟩ := ha
  obtain ⟨cycles', hrange', hcycles'⟩ := hb
  have heq : cycles = cycles' := by
    clear hi hrange hrange'
    induction hcycles generalizing cycles' with
    | nil =>
      cases hcycles'
      rfl
    | cons hc _ ih =>
      cases hcycles' with
      | cons hc' hcs' => rw [hc.unique hG hc', ih _ hcs']
  subst heq
  have hlen : cycles.length = i + 1 := by rw [← hcycles.length_eq, hi]
  have htake : cycles.take (i + 1) = cycles := by rw [← hlen, List.take_length]
  obtain ⟨r, hr, hall⟩ := HeaderMMR.root_eq hrange (by omega : i < cycles.length) h64
  obtain ⟨r', hr', hall'⟩ := HeaderMMR.root_eq hrange' (by omega : i < cycles.length) h64
  rw [htake] at hall hall'
  have := (hall _ hrange).symm.trans (hall' _ hrange)
  cases this
  exact ⟨r, hr, hr'⟩

/-- A header of another chain, with more total difficulty. -/
def strongHeader : BlockHeader :=
  nextHeader genesis genesisHeader 200 1000

/-- The state behind it. -/
def strongState : ChainState :=
  HeaderCall.perform testNet genesis (.single noon strongHeader)

theorem hashes_strongState :
    strongState.candidate.hashes =
      [genesisHeader.getHash testNet, strongHeader.getHash testNet] := by
  decide +kernel

theorem mirror_strongState : Mirror testNet strongState :=
  (mirror_of_created (created_of_create create_eq)).perform _

theorem grown_strongState :
    Grown testNet genesis.blockDB [strongHeader] strongState.blockDB := by
  have haccepted : strongState.accepted = [strongHeader] := by decide +kernel
  have hcreated := created_of_create create_eq
  have hrun : run (processSingleHeader testNet noon strongHeader) genesis =
      ((run (processSingleHeader testNet noon strongHeader) genesis).1, strongState) := rfl
  rcases processSingleHeader_cases genesis_atRest hrun with
    hpools | ⟨-, n, previous, headers, hstep, -⟩
  · have hsame : strongState.candidate = genesis.candidate := by rw [hpools]; rfl
    have hlen := congrArg (fun c : Chain => c.hashes.length) hsame
    rw [hashes_strongState, hcreated.candidate] at hlen
    cases hlen
  · have hheaders : headers = [strongHeader] := by
      rw [← haccepted, hstep.eq, hcreated.accepted, List.nil_append]
    have hdb : strongState.blockDB =
        (genesis.blockDB.addBlockHeaders testNet [strongHeader]).commit testNet := by
      rw [hstep.eq, hheaders]
    rw [hdb]
    have hrefl : Grown testNet genesis.blockDB [] genesis.blockDB :=
      ⟨fun k a hk => .inl hk, fun k a hk => .inl hk, fun k hk => hk.elim id (by simp)⟩
    refine (hrefl.addBlockHeaders [strongHeader]).commit fun a ha => ?_
    rwa [BlockDB.addBlockHeaders_uncommitted, genesis_atRest.blockDB.2] at ha

/-- What can be found under the hash of a header of the fork has its height and its time. -/
theorem eq_of_possible {length i : ℕ} (hlength : length ≤ 1000) (hi : i ≤ length)
    {h : BlockHeader} (h' : Possible testNet strongState.blockDB (forkHeaders difficulty length)
      ((forkHeader difficulty i).getHash testNet) h) :
    h.height = (forkHeader difficulty i).height ∧
      h.timestamp = (forkHeader difficulty i).timestamp := by
  have hcreated := created_of_create create_eq
  have hstrong : strongHeader.getHash testNet ≠ (forkHeader difficulty i).getHash testNet := by
    intro heq
    have hpow := BlockHeader.proofOfWork_eq_of_getHash_eq (injectiveOnBytes _) heq
    rcases i with _ | i
    · have hne : proofOfWork 200 ≠ proofOfWork 0 := by decide
      exact hne hpow
    · exact proofOfWork_ne_longProofOfWork 200 (i + 1) hpow
  have hgenesis : genesisHeader.getHash testNet = (forkHeader difficulty i).getHash testNet →
      i = 0 := fun heq => (forkHeader_injective (m := 0) (by decide) (by omega) heq).symm
  rcases h' with hcache | htable | ⟨a, ha, hkey, hh⟩
  · rcases grown_strongState.cache _ _ hcache with hold | ⟨a, ha, hkey, -⟩
    · rw [hcreated.cache, List.mem_singleton, Prod.mk.injEq] at hold
      obtain ⟨hkey, rfl⟩ := hold
      obtain rfl := hgenesis hkey.symm
      exact ⟨rfl, rfl⟩
    · rw [List.mem_singleton.mp ha] at hkey
      exact absurd hkey hstrong
  · rcases grown_strongState.table _ _ htable with hold | ⟨a, ha, hkey, -⟩
    · rw [hcreated.table, Function.update_apply] at hold
      split at hold
      · next hkey =>
        cases hold
        obtain rfl := hgenesis hkey.symm
        exact ⟨rfl, rfl⟩
      · cases hold
    · rw [List.mem_singleton.mp ha] at hkey
      exact absurd hkey hstrong
  · obtain ⟨j, hj, rfl⟩ := List.mem_map.mp ha
    rw [List.mem_range] at hj
    obtain rfl := forkHeader_injective (by omega) (by omega) hkey
    rcases hh with rfl | rfl
    · exact ⟨rfl, rfl⟩
    · exact ⟨rfl, rfl⟩

theorem validate_forkHeader {lookup : HeaderLookup} {mmr : HeaderMMR} {previous : BlockHeader}
    {i : ℕ} (hi : i < 1000) (hheight : previous.height = (forkHeader difficulty i).height)
    (htime : previous.timestamp = (forkHeader difficulty i).timestamp)
    (hmmr : MirrorsHashes testNet mmr
      ((List.range (i + 1)).map fun j => (forkHeader difficulty j).getHash testNet)) :
    BlockHeaderValidator.validate testNet 100000 lookup mmr (forkHeader difficulty (i + 1))
      previous = .ok () := by
  have hnext := getTimestamp_forkHeader difficulty (show i + 1 < 65536 by omega)
  have hbefore := getTimestamp_forkHeader difficulty (show i < 65536 by omega)
  have htime' : previous.getTimestamp = (forkHeader difficulty i).getTimestamp :=
    congrArg Int64.toInt htime
  have hnum := getHeight_forkHeader difficulty (show i + 1 < 65536 by omega)
  have hheight' : (forkHeader difficulty (i + 1)).height = previous.height + 1 := by
    have hnum' := getHeight_forkHeader difficulty (show i < 65536 by omega)
    rw [BlockHeader.getHeight] at hnum hnum'
    have hone : (1 : UInt64).toNat = 1 := rfl
    rw [hheight, ← UInt64.toNat_inj, UInt64.toNat_add, hnum, hnum', hone]
    omega
  have hmax : (forkHeader difficulty (i + 1)).getTimestamp ≤
      Consensus.getMaxBlockTime testNet 100000 := by
    have hlimit : Consensus.getMaxBlockTime testNet 100000 = 100300 := by decide
    rw [hlimit, hnext]
    push_cast
    omega
  have hafter : previous.getTimestamp < (forkHeader difficulty (i + 1)).getTimestamp := by
    rw [htime', hbefore, hnext]
    push_cast
    omega
  have hversion : (forkHeader difficulty (i + 1)).version.toNat =
      Consensus.getHeaderVersion testNet.env (forkHeader difficulty (i + 1)).getHeight := by
    have hone : (forkHeader difficulty (i + 1)).version = 1 := rfl
    have hfork : Consensus.hardForkInterval = 262080 := rfl
    rw [hone, hnum, Consensus.getHeaderVersion, if_neg (by decide), if_pos (by omega)]
    rfl
  obtain ⟨r, hr, hr'⟩ := hmmr.root_eq (i := i) (injectiveOnBytes _)
    (mirrorsHashes_fork difficulty i) (by simp) (by omega)
  have hroot : r = (forkHeader difficulty (i + 1)).previousRoot := by
    have hdef : (forkHeader difficulty (i + 1)).previousRoot =
        rootOr ((fork difficulty i).2.root testNet i) := rfl
    rw [hdef, hr']
    rfl
  rw [BlockHeaderValidator.validate, require, if_pos hheight', require, if_pos hmax, require,
    if_pos hversion, require, if_pos hafter, BlockHeaderValidator.isPoWValid, if_pos (by decide),
    hnum, decrement_succ]
  simp [hr, require, hroot, bind, Except.bind]

/-- **The headers of the fork are valid**, whatever their total difficulties are. -/
theorem validHeaders_fork (difficulty : ℕ → UInt64) {length : ℕ} (hpos : 0 < length)
    (hlength : length ≤ 1000) :
    ValidHeaders testNet 100000 strongState 1 (forkHeaders difficulty length) where
  nonempty := by
    rw [forkHeaders, Ne, List.map_eq_nil_iff, List.range_eq_nil]
    omega
  pos := by decide
  heights := by
    intro i h hi
    rw [forkHeaders, List.getElem?_map, Option.map_eq_some_iff] at hi
    obtain ⟨j, hj, rfl⟩ := hi
    obtain ⟨hlt, rfl⟩ := List.getElem?_eq_some_iff.mp hj
    rw [List.length_range] at hlt
    rw [List.getElem_range, getHeight_forkHeader difficulty (by omega), Nat.add_comm]
  first := by
    intro h hh
    obtain ⟨n, rfl⟩ := Nat.exists_eq_succ_of_ne_zero (Nat.pos_iff_ne_zero.mp hpos)
    rw [forkHeaders, List.range_succ_eq_map, List.map_cons] at hh
    cases hh
    rw [hashes_strongState]
    rfl
  linked := by
    rw [forkHeaders, List.isChain_map, List.isChain_iff_getElem]
    intro i hi
    rw [List.getElem_range, List.getElem_range]
    rfl
  notBad := by
    -- A hash of bytes of the small network is a multiple of three.
    intro h _ hbad
    have hval := congrArg Hash.value (List.mem_singleton.mp hbad)
    have hmod : 3 * encode h.proofOfWork.bits =
        0x0002897182d8cf7631e86d56ad546b7cf0893bda811592aa9312ae633ce04813 := hval
    omega
  valid := by
    intro front h back hsplit lookup previous mmr hlookup hprevious hmmr
    have hlen : front.length + (back.length + 1) = length := by
      have := congrArg List.length hsplit
      simpa [forkHeaders] using this.symm
    obtain ⟨i, rfl⟩ : ∃ i, front = forkHeaders difficulty i := by
      refine ⟨front.length, ?_⟩
      have := congrArg (List.take front.length) hsplit
      rw [List.take_left, forkHeaders, ← List.map_take, List.take_range,
        Nat.min_eq_left (by omega)] at this
      exact this.symm
    have hi : (forkHeaders difficulty i).length = i := by simp [forkHeaders]
    rw [hi] at hlen
    obtain rfl : h = forkHeader difficulty (i + 1) := by
      have := congrArg (fun l => l[i]?) hsplit
      rw [List.getElem?_append_right hi.le, hi, Nat.sub_self, List.getElem?_cons_zero, forkHeaders,
        List.getElem?_map, List.getElem?_range (by omega)] at this
      exact (Option.some_inj.mp this).symm
    obtain ⟨hheight, htime⟩ := eq_of_possible (by omega) le_rfl hprevious
    refine validate_forkHeader (by omega) hheight htime ?_
    rw [hashes_strongState] at hmmr
    rw [List.range_succ_eq_map, List.map_cons, List.map_map]
    rw [forkHeaders, List.map_map] at hmmr
    exact hmmr

/-- A chunk is cut off where an index is a multiple of 512. -/
theorem chunksFrom_append {index : ℕ} {begun block rest : List BlockHeader} (hblock : block ≠ [])
    (hrest : rest ≠ []) (hend : (index + block.length) % syncBatchSize = 0)
    (hlt : block.length ≤ syncBatchSize) :
    chunksFrom index begun (block ++ rest) =
      (begun ++ block) :: chunksFrom (index + block.length) [] rest := by
  induction block generalizing index begun with
  | nil => exact absurd rfl hblock
  | cons header block ih =>
    have hne : block ++ rest ≠ [] := by simp [hrest]
    rw [List.length_cons] at hend hlt
    rw [syncBatchSize] at hend hlt ih
    rw [List.cons_append, chunksFrom, syncBatchSize]
    by_cases hnil : block = []
    · subst hnil
      rw [List.length_nil, Nat.zero_add] at hend
      rw [if_pos (.inl hend)]
      rfl
    · have hpos := List.length_pos_iff.mpr hnil
      rw [if_neg (by simp only [hne, or_false]; omega), ih hnil (by omega) (by omega),
        List.append_assoc, List.length_cons]
      congr 2
      omega

/-- The total difficulties of a fork that catches up with its last header only. -/
def lateDifficulty (i : ℕ) : UInt64 :=
  if i = 513 then 2000 else UInt64.ofNat (i + 1)

theorem not_known_fork (difficulty : ℕ → UInt64) (length : ℕ) :
    known testNet strongState (forkHeaders difficulty (length + 1)) = false := by
  rw [known, List.all_eq_false]
  refine ⟨forkHeader difficulty 1, List.mem_map.mpr ⟨0, by simp, rfl⟩, ?_⟩
  rw [Chain.isOnChain_iff, hashes_strongState]
  intro heq
  have hkey : strongHeader.getHash testNet = (forkHeader difficulty 1).getHash testNet :=
    Option.some_inj.mp heq
  exact proofOfWork_ne_longProofOfWork 200 1
    (BlockHeader.proofOfWork_eq_of_getHash_eq (injectiveOnBytes _) hkey)

theorem getTotalDifficulty_strongState :
    strongState.getTotalDifficulty .candidate = 1000 := by
  decide +kernel

theorem lastDifficulty_forkHeaders (difficulty : ℕ → UInt64) (length : ℕ) :
    lastDifficulty (forkHeaders difficulty (length + 1)) = (difficulty (length + 1)).toNat := by
  rw [lastDifficulty, forkHeaders, List.range_succ, List.map_append, List.map_singleton,
    List.getLast?_concat]
  rfl

/-- On the small network, two headers that overtake the candidate chain. -/
theorem adopts_forkHeaders :
    Adopts testNet strongState 1 (forkHeaders (fun _ => 2000) 2)
      (run (processSyncHeaders testNet 100000 (forkHeaders (fun _ => 2000) 2)) strongState) := by
  refine (adopts_iff mirror_strongState (validHeaders_fork _ (by decide) (by decide))).mpr ?_
  have hchunks : chunksFrom 0 [] (forkHeaders (fun _ => 2000) 2) =
      [forkHeaders (fun _ => 2000) 2] := rfl
  rw [Overtakes, OvertakenBy, hchunks,
    List.dropWhile_cons_of_neg (by rw [not_known_fork]; decide)]
  dsimp only
  rw [List.map_singleton, lastDifficulty_forkHeaders, getTotalDifficulty_strongState,
    List.isChain_pair]
  decide

/-- A fork with one header more than a chunk is not adopted when it has less total difficulty
than the candidate chain in front of this header. -/
theorem not_adopts_of_late {length : ℕ} (hlength : length + 1 = syncBatchSize)
    (hlate : (difficulty (length + 1)).toNat ≤ 1000) :
    ¬Adopts testNet strongState 1 (forkHeaders difficulty (length + 2))
      (run (processSyncHeaders testNet 100000 (forkHeaders difficulty (length + 2)))
        strongState) := by
  have hsize : syncBatchSize = 512 := rfl
  have hvalid := validHeaders_fork difficulty (Nat.zero_lt_succ (length + 1)) (by omega)
  have hlen : (forkHeaders difficulty (length + 1)).length = syncBatchSize := by
    rw [forkHeaders, List.length_map, List.length_range, hlength]
  have hsplit : forkHeaders difficulty (length + 2) =
      forkHeaders difficulty (length + 1) ++ [forkHeader difficulty (length + 2)] := by
    rw [forkHeaders, List.range_succ, List.map_append]
    rfl
  have hchunks : chunksFrom 0 [] (forkHeaders difficulty (length + 2)) =
      forkHeaders difficulty (length + 1) ::
        chunksFrom syncBatchSize [] [forkHeader difficulty (length + 2)] := by
    rw [hsplit, chunksFrom_append (List.ne_nil_of_length_pos (by rw [hlen]; decide))
      (List.cons_ne_nil _ _) (by rw [hlen]; decide) hlen.le, hlen, List.nil_append, Nat.zero_add]
  rw [hvalid.run_processSyncHeaders, adopts_of_known hvalid (hvalid.before mirror_strongState)
    (eq_flatten_chunksFrom hvalid.nonempty) fun c hc => ne_nil_of_mem_chunksFrom hc, OvertakenBy,
    hchunks, List.dropWhile_cons_of_neg (by rw [not_known_fork]; decide)]
  dsimp only
  rw [List.map_cons, List.isChain_cons_cons, lastDifficulty_forkHeaders,
    getTotalDifficulty_strongState]
  intro hover
  omega

/-- A fork of 513 valid headers behind the genesis block has more total difficulty than the
candidate chain, but less at the end of its first chunk of 512 headers. It is not adopted. -/
theorem not_adopts_forkHeaders :
    ValidHeaders testNet 100000 strongState 1 (forkHeaders lateDifficulty 513) ∧
      strongState.getTotalDifficulty .candidate <
        lastDifficulty (forkHeaders lateDifficulty 513) ∧
      ¬Adopts testNet strongState 1 (forkHeaders lateDifficulty 513)
        (run (processSyncHeaders testNet 100000 (forkHeaders lateDifficulty 513)) strongState) := by
  refine ⟨validHeaders_fork lateDifficulty (by decide) (by decide), ?_,
    @not_adopts_of_late lateDifficulty 511 rfl (by decide)⟩
  rw [lastDifficulty_forkHeaders, getTotalDifficulty_strongState]
  decide

end HeaderSync

end GrinPlusPlus
