import GrinPlusPlus.BlockChain.HeaderSync

/-!
# Block locators

`BlockLocator`: a node that is behind asks its peers for headers and names hashes of its own
candidate chain, at heights that grow sparse towards the genesis block; the peer looks for the
first of them that it knows and answers with the headers that follow *its height* on its own
candidate chain.

The peer looks in all the headers that it has stored, those of forks included. What it sends
attaches to the chain of the node that asked (`GrinPlusPlus.BlockLocator.Attaches`) when the
header it found is on its candidate chain; the theorem of this file says when that is.
-/

namespace GrinPlusPlus

/-- `P2P::MAX_LOCATORS`. -/
def P2P.maxLocators : ℕ := 20

/-- `P2P::MAX_BLOCK_HEADERS`. -/
def P2P.maxBlockHeaders : ℕ := 512

namespace BlockLocator

/-! ### Asking -/

/-- The loop of `BlockLocator::GetLocatorHeights`, while `left` more heights may be pushed. The
steps are the powers of two, by the number of heights that were pushed. -/
def locatorLoop : ℕ → UInt64 → List UInt64
  | 0, _ => []
  | left + 1, current =>
    if current = 0 then []
    else
      let next := UInt64.ofNat (2 ^ (P2P.maxLocators - 1 - left))
      current :: if next < current then locatorLoop left (current - next) else []

/-- `BlockLocator::GetLocatorHeights`. -/
def getLocatorHeights (headerHeight : UInt64) : List UInt64 :=
  locatorLoop (P2P.maxLocators - 1) headerHeight ++ [0]

variable (G : Global) in
/-- `BlockLocator::GetLocators`, with the height of the sync status. -/
def getLocators (s : ChainState) (headerHeight : UInt64) : List Hash :=
  (getLocatorHeights headerHeight).filterMap fun height =>
    (s.getBlockHeaderByHeight height.toNat .candidate).map (BlockHeader.getHash G)

/-! ### Answering -/

/-- `BlockLocator::FindCommonHeader`. -/
def findCommonHeader (s : ChainState) (locatorHashes : List Hash) : Option BlockHeader :=
  locatorHashes.findSome? s.blockDB.getBlockHeader

/-- The loop of `BlockLocator::LocateHeaders`: at most so many headers behind a height. -/
def headersBehind (s : ChainState) (height : UInt64) : ℕ → List BlockHeader
  | 0 => []
  | n + 1 =>
    match s.getBlockHeaderByHeight (height + 1).toNat .candidate with
    | none => []
    | some header => header :: headersBehind s (height + 1) n

/-- `BlockLocator::LocateHeaders`. The difference of the heights is one of 64 bits. -/
def locateHeaders (s : ChainState) (locatorHashes : List Hash) : List BlockHeader :=
  match findCommonHeader s locatorHashes with
  | none => []
  | some header =>
    headersBehind s header.height
      (min (UInt64.ofNat s.candidate.getHeight - header.height).toNat P2P.maxBlockHeaders)

/-! ### The heights of the locators -/

theorem locatorStep_pos (left : ℕ) :
    0 < (UInt64.ofNat (2 ^ (P2P.maxLocators - 1 - left))).toNat := by
  have hle : 2 ^ (P2P.maxLocators - 1 - left) ≤ 2 ^ 19 :=
    Nat.pow_le_pow_right (by decide) (by rw [P2P.maxLocators]; omega)
  rw [UInt64.toNat_ofNat_of_lt' (lt_of_le_of_lt hle (by decide))]
  exact Nat.two_pow_pos _

/-- The heights of the loop fall, and none of them is zero. -/
theorem locatorLoop_spec (left : ℕ) (current : UInt64) :
    (locatorLoop left current).Pairwise (· > ·) ∧
      ∀ height ∈ locatorLoop left current, 0 < height ∧ height ≤ current := by
  induction left generalizing current with
  | zero => exact ⟨.nil, by simp [locatorLoop]⟩
  | succ left ih =>
    rw [locatorLoop]
    split
    · exact ⟨.nil, by simp⟩
    · next hne =>
      have hpos : 0 < current := UInt64.pos_iff_ne_zero.mpr hne
      dsimp only
      split
      · next hlt =>
        -- The next height is below this one, and so are all that follow.
        obtain ⟨hpairwise, hbounds⟩ :=
          ih (current - UInt64.ofNat (2 ^ (P2P.maxLocators - 1 - left)))
        have hstep := locatorStep_pos left
        have hbelow : ∀ height ∈ locatorLoop left
            (current - UInt64.ofNat (2 ^ (P2P.maxLocators - 1 - left))), height < current := by
          intro height hheight
          have hle := (hbounds height hheight).2
          rw [UInt64.le_iff_toNat_le, UInt64.toNat_sub_of_le _ _ (UInt64.le_of_lt hlt)] at hle
          rw [UInt64.lt_iff_toNat_lt] at hlt ⊢
          omega
        refine ⟨List.pairwise_cons.mpr ⟨hbelow, hpairwise⟩, ?_⟩
        intro height hheight
        rcases List.mem_cons.mp hheight with rfl | hheight
        · exact ⟨hpos, UInt64.le_refl _⟩
        · exact ⟨(hbounds height hheight).1, UInt64.le_of_lt (hbelow height hheight)⟩
      · exact ⟨List.pairwise_singleton _ _, by simp [hpos]⟩

/-- **The heights of the locators fall**, down to the genesis block. -/
theorem pairwise_getLocatorHeights (headerHeight : UInt64) :
    (getLocatorHeights headerHeight).Pairwise (· > ·) := by
  obtain ⟨hpairwise, hbounds⟩ := locatorLoop_spec (P2P.maxLocators - 1) headerHeight
  rw [getLocatorHeights, List.pairwise_append]
  refine ⟨hpairwise, List.pairwise_singleton _ _, ?_⟩
  intro height hheight zero hzero
  rw [List.mem_singleton.mp hzero]
  exact (hbounds height hheight).1

/-! ### Two nodes -/

variable {G : Global}

variable (G) in
/-- The candidate chain of a node: its headers are stored, each at its height, and linked by their
hashes. -/
structure CandidateChain (s : ChainState) : Prop where
  /-- The headers are stored. -/
  stored : ∀ height hash, s.candidate.hashes[height]? = some hash →
    ∃ header, s.blockDB.getBlockHeader hash = some header ∧ header.getHash G = hash ∧
      header.getHeight = height
  /-- Each names the one before it. -/
  linked : ∀ height previous hash header, s.candidate.hashes[height]? = some previous →
    s.candidate.hashes[height + 1]? = some hash → s.blockDB.getBlockHeader hash = some header →
    header.previousHash = previous
  /-- There is a height for the next header. -/
  length_lt : s.candidate.hashes.length < 2 ^ 64

/-- What two nodes store under one hash has one height and one previous header. -/
def SameHeaders (s t : ChainState) : Prop :=
  ∀ hash a b, s.blockDB.getBlockHeader hash = some a → t.blockDB.getBlockHeader hash = some b →
    a.height = b.height ∧ a.previousHash = b.previousHash

/-- **Headers attach to the chain of the node that asked**: they are consecutive headers of the
candidate chain of the node that answers, at most as many as fit into a message, and the header
before the first of them is on both chains. There are none only if there is nothing to send. -/
structure Attaches (requester responder : ChainState) (headers : List BlockHeader) : Prop where
  /-- They fit into a message. -/
  length_le : headers.length ≤ P2P.maxBlockHeaders
  /-- They are consecutive headers of the candidate chain. -/
  consecutive : ∃ start, ∀ i, i < headers.length →
    responder.getBlockHeaderByHeight (start + i) .candidate = headers[i]?
  /-- They follow a header of both chains. -/
  attached : ∀ header ∈ headers.head?, ∃ height, header.getHeight = height + 1 ∧
    requester.candidate.isOnChain height header.previousHash = true ∧
    responder.candidate.isOnChain height header.previousHash = true
  /-- Nothing is sent only to a node that has everything. -/
  complete : headers = [] →
    requester.candidate.isOnChain responder.candidate.getHeight
      responder.candidate.getTipHash = true

section Chains

variable {s t : ChainState}

/-- The header at a height of the chain. -/
theorem CandidateChain.exists_header (hs : CandidateChain G s) {height : ℕ}
    (hheight : height ≤ s.candidate.getHeight) :
    ∃ header, s.getBlockHeaderByHeight height .candidate = some header ∧
      s.candidate.hashes[height]? = some (header.getHash G) ∧ header.getHeight = height := by
  have hlt : height < s.candidate.hashes.length := by
    rw [s.candidate.length_hashes]
    omega
  have hhash := List.getElem?_eq_getElem hlt
  obtain ⟨header, hstored, hgetHash, hgetHeight⟩ := hs.stored height _ hhash
  refine ⟨header, ?_, by rw [hgetHash]; exact hhash, hgetHeight⟩
  rw [ChainState.getBlockHeaderByHeight, ChainState.getChain, Chain.getByHeight, hhash]
  exact hstored

/-- There is no header above the chain. -/
theorem getBlockHeaderByHeight_of_lt {height : ℕ} (hheight : s.candidate.getHeight < height) :
    s.getBlockHeaderByHeight height .candidate = none := by
  have hnone : s.candidate.hashes[height]? = none := by
    rw [List.getElem?_eq_none_iff, s.candidate.length_hashes]
    omega
  rw [ChainState.getBlockHeaderByHeight, ChainState.getChain, Chain.getByHeight, hnone]
  rfl

/-- **Chains that agree at a height agree below it.** -/
theorem agree_below (hs : CandidateChain G s) (ht : CandidateChain G t) (hsame : SameHeaders s t)
    {height : ℕ} {hash : Hash} (hhash : s.candidate.hashes[height]? = some hash)
    (hhash' : t.candidate.hashes[height]? = some hash) {k : ℕ} (hk : k ≤ height) :
    s.candidate.hashes[k]? = t.candidate.hashes[k]? := by
  induction height generalizing hash with
  | zero =>
    obtain rfl := Nat.le_zero.mp hk
    rw [hhash, hhash']
  | succ height ih =>
    rcases Nat.le_or_eq_of_le_succ hk with hk | rfl
    · -- One step down: the headers at the height name the same previous header.
      have hlt : height < s.candidate.hashes.length := by
        have := (List.getElem?_eq_some_iff.mp hhash).1
        omega
      have hlt' : height < t.candidate.hashes.length := by
        have := (List.getElem?_eq_some_iff.mp hhash').1
        omega
      have hprev := List.getElem?_eq_getElem hlt
      have hprev' := List.getElem?_eq_getElem hlt'
      obtain ⟨a, ha, -, -⟩ := hs.stored _ _ hhash
      obtain ⟨b, hb, -, -⟩ := ht.stored _ _ hhash'
      have hlink := hs.linked _ _ _ _ hprev hhash ha
      have hlink' := ht.linked _ _ _ _ hprev' hhash' hb
      rw [(hsame hash a b ha hb).2, hlink'] at hlink
      exact ih hprev (by rw [hprev', hlink]) hk
    · rw [hhash, hhash']

end Chains

/-! ### What is sent -/

section Sent

variable {s : ChainState} (hs : CandidateChain G s)

include hs

/-- The loop sends as many headers as it is asked for, as long as the chain has them. -/
theorem headersBehind_spec {height : UInt64} {n : ℕ}
    (hn : height.toNat + n ≤ s.candidate.getHeight) :
    (headersBehind s height n).length = n ∧
      ∀ i, i < n →
        s.getBlockHeaderByHeight (height.toNat + 1 + i) .candidate =
          (headersBehind s height n)[i]? := by
  induction n generalizing height with
  | zero => exact ⟨rfl, fun i hi => absurd hi (Nat.not_lt_zero i)⟩
  | succ n ih =>
    have hfits : height.toNat + 1 < 2 ^ 64 := by
      have := hs.length_lt
      rw [s.candidate.length_hashes] at this
      omega
    have hsucc : (height + 1).toNat = height.toNat + 1 := by
      rw [UInt64.toNat_add, UInt64.toNat_one, Nat.mod_eq_of_lt hfits]
    have hfirst : height.toNat + 1 ≤ s.candidate.getHeight := by omega
    have hrest : (height + 1).toNat + n ≤ s.candidate.getHeight := by
      rw [hsucc]
      omega
    obtain ⟨header, hheader, -, -⟩ := hs.exists_header hfirst
    obtain ⟨hlength, hget⟩ := ih hrest
    rw [headersBehind, hsucc, hheader]
    refine ⟨congrArg (· + 1) hlength, ?_⟩
    rintro (_ | i) hi
    · exact hheader
    · rw [hsucc] at hget
      rw [List.getElem?_cons_succ, ← hget i (by omega)]
      congr 1
      omega

omit hs in
/-- Above the chain nothing is sent. -/
theorem headersBehind_of_le {height : UInt64} (hle : s.candidate.getHeight ≤ height.toNat)
    (hlt : height.toNat + 1 < 2 ^ 64) (n : ℕ) : headersBehind s height n = [] := by
  cases n with
  | zero => rfl
  | succ n =>
    have hsucc : (height + 1).toNat = height.toNat + 1 := by
      rw [UInt64.toNat_add, UInt64.toNat_one, Nat.mod_eq_of_lt hlt]
    rw [headersBehind, hsucc, getBlockHeaderByHeight_of_lt (by omega)]

omit hs in
/-- What is sent, from the header that was found. -/
theorem locateHeaders_eq {locatorHashes : List Hash} {common : BlockHeader}
    (hcommon : findCommonHeader s locatorHashes = some common) :
    locateHeaders s locatorHashes =
      headersBehind s common.height
        (min (UInt64.ofNat s.candidate.getHeight - common.height).toNat P2P.maxBlockHeaders) := by
  rw [locateHeaders, hcommon]

/-- **Where there is more to send**, the headers attach when the one that was found is at its
height on the chain of the node that asked as well. -/
theorem attaches_of_lt {requester : ChainState} {locatorHashes : List Hash} {common : BlockHeader}
    (hcommon : findCommonHeader s locatorHashes = some common)
    (hlt : common.getHeight < s.candidate.getHeight) :
    Attaches requester s (locateHeaders s locatorHashes) ↔
      requester.candidate.hashes[common.getHeight]? = s.candidate.hashes[common.getHeight]? := by
  have hlength := hs.length_lt
  rw [s.candidate.length_hashes] at hlength
  have hdiff : (UInt64.ofNat s.candidate.getHeight - common.height).toNat =
      s.candidate.getHeight - common.getHeight := by
    have htip : (UInt64.ofNat s.candidate.getHeight).toNat = s.candidate.getHeight :=
      UInt64.toNat_ofNat_of_lt' (Nat.lt_of_succ_lt hlength)
    rw [UInt64.toNat_sub_of_le, htip]
    · rfl
    · rw [UInt64.le_iff_toNat_le, htip]
      exact hlt.le
  rw [locateHeaders_eq hcommon, hdiff]
  generalize hn : min (s.candidate.getHeight - common.getHeight) P2P.maxBlockHeaders = n
  have hpos : 0 < n := by
    rw [← hn, lt_min_iff]
    exact ⟨by omega, by decide⟩
  have hle : common.height.toNat + n ≤ s.candidate.getHeight := by
    have : n ≤ s.candidate.getHeight - common.getHeight := hn ▸ min_le_left _ _
    change common.height.toNat < _ at hlt
    change n ≤ _ - common.height.toNat at this
    omega
  obtain ⟨hlen, hget⟩ := headersBehind_spec hs hle
  -- The first header that is sent, and the one before it.
  obtain ⟨first, hfirst, hfirstHash, hfirstHeight⟩ :=
    hs.exists_header (Nat.succ_le_of_lt hlt)
  obtain ⟨below, -, hbelowHash, -⟩ := hs.exists_header hlt.le
  have hhead : (headersBehind s common.height n).head? = some first := by
    rw [List.head?_eq_getElem?, ← hget 0 hpos, Nat.add_zero]
    exact hfirst
  have hprevious : first.previousHash = below.getHash G := by
    obtain ⟨stored, hstored, -, -⟩ := hs.stored _ _ hfirstHash
    have hfound : s.blockDB.getBlockHeader (first.getHash G) = some first := by
      rw [ChainState.getBlockHeaderByHeight, ChainState.getChain, Chain.getByHeight,
        hfirstHash] at hfirst
      exact hfirst
    exact hs.linked _ _ _ _ hbelowHash hfirstHash hfound
  rw [hbelowHash]
  constructor
  · intro hattaches
    obtain ⟨height, hheight, honRequester, -⟩ := hattaches.attached first hhead
    obtain rfl : height = common.getHeight := by omega
    rw [Chain.isOnChain_iff, hprevious] at honRequester
    exact honRequester
  · intro hagree
    refine ⟨?_, ⟨common.getHeight + 1, ?_⟩, ?_, ?_⟩
    · rw [hlen, ← hn]
      exact min_le_right _ _
    · intro i hi
      exact hget i (hlen ▸ hi)
    · intro header hheader
      rw [hhead] at hheader
      cases hheader
      refine ⟨common.getHeight, hfirstHeight, ?_, ?_⟩
      · rw [Chain.isOnChain_iff, hprevious, hagree]
      · rw [Chain.isOnChain_iff, hprevious, hbelowHash]
    · intro hnil
      rw [hnil] at hhead
      cases hhead

omit hs in
/-- **Where there is nothing more to send**, nothing is sent. -/
theorem attaches_of_le {requester : ChainState} {locatorHashes : List Hash} {common : BlockHeader}
    (hcommon : findCommonHeader s locatorHashes = some common)
    (hle : s.candidate.getHeight ≤ common.getHeight) (hlt : common.getHeight + 1 < 2 ^ 64) :
    Attaches requester s (locateHeaders s locatorHashes) ↔
      requester.candidate.isOnChain s.candidate.getHeight s.candidate.getTipHash = true := by
  rw [locateHeaders_eq hcommon, headersBehind_of_le hle hlt]
  constructor
  · intro hattaches
    exact hattaches.complete rfl
  · intro htip
    exact ⟨Nat.zero_le _, ⟨0, by simp⟩, by simp, fun _ => htip⟩

end Sent

/-! ### When the headers attach -/

section Locators

variable {s t : ChainState}

/-- The locators are the hashes at the heights, as far as the chain has them. -/
theorem getLocators_eq (hs : CandidateChain G s) (headerHeight : UInt64) :
    getLocators G s headerHeight =
      (getLocatorHeights headerHeight).filterMap fun height =>
        s.candidate.hashes[height.toNat]? := by
  rw [getLocators]
  congr 1
  funext height
  by_cases hheight : height.toNat ≤ s.candidate.getHeight
  · obtain ⟨header, hheader, hhash, -⟩ := hs.exists_header hheight
    rw [hheader, hhash]
    rfl
  · rw [not_le] at hheight
    rw [getBlockHeaderByHeight_of_lt hheight, Option.map_none, eq_comm,
      List.getElem?_eq_none_iff, s.candidate.length_hashes]
    omega

/-- Two nodes that store a header of a chain store it at its height. -/
theorem getHeight_eq (hs : CandidateChain G s) (hsame : SameHeaders s t) {height : ℕ} {hash : Hash}
    {header : BlockHeader} (hhash : s.candidate.hashes[height]? = some hash)
    (hheader : t.blockDB.getBlockHeader hash = some header) : header.getHeight = height := by
  obtain ⟨stored, hstored, -, hheight⟩ := hs.stored _ _ hhash
  rw [← hheight, BlockHeader.getHeight, BlockHeader.getHeight,
    (hsame hash stored header hstored hheader).1]

/-- **The header that is found** is the highest one at a height of the locators that is known, and
one is found, since the genesis block is known. -/
theorem exists_findCommonHeader (hs : CandidateChain G s) (ht : CandidateChain G t)
    (hgenesis : s.candidate.hashes[0]? = t.candidate.hashes[0]?) (headerHeight : UInt64) :
    ∃ height ∈ getLocatorHeights headerHeight, ∃ hash common,
      s.candidate.hashes[height.toNat]? = some hash ∧
      t.blockDB.getBlockHeader hash = some common ∧
      findCommonHeader t (getLocators G s headerHeight) = some common ∧
      ∀ higher ∈ getLocatorHeights headerHeight, height < higher →
        ∀ hash, s.candidate.hashes[higher.toNat]? = some hash →
          t.blockDB.getBlockHeader hash = none := by
  have hfind : findCommonHeader t (getLocators G s headerHeight) =
      (getLocatorHeights headerHeight).findSome? fun height =>
        (s.candidate.hashes[height.toNat]?).bind t.blockDB.getBlockHeader := by
    rw [findCommonHeader, getLocators_eq hs, ← List.head?_filterMap, List.filterMap_filterMap,
      List.head?_filterMap]
  obtain ⟨common, hcommon⟩ : ∃ common,
      findCommonHeader t (getLocators G s headerHeight) = some common := by
    rw [← Option.isSome_iff_exists, hfind, List.findSome?_isSome_iff]
    have hzero : 0 < t.candidate.hashes.length :=
      List.length_pos_iff.mpr t.candidate.hashes_ne_nil
    have hhash := List.getElem?_eq_getElem hzero
    obtain ⟨header, hstored, -, -⟩ := ht.stored 0 _ hhash
    refine ⟨0, List.mem_append_right _ (List.mem_singleton_self _), ?_⟩
    rw [UInt64.toNat_zero, hgenesis, hhash, Option.bind_some, hstored]
    rfl
  have hfirst := hcommon
  rw [hfind, List.findSome?_eq_some_iff] at hfirst
  obtain ⟨before, height, after, hsplit, hknown, hbefore⟩ := hfirst
  rw [Option.bind_eq_some_iff] at hknown
  obtain ⟨hash, hhash, hstored⟩ := hknown
  refine ⟨height, by rw [hsplit]; simp, hash, common, hhash, hstored, hcommon, ?_⟩
  intro higher hhigher hlt hash' hhash'
  -- The higher ones stand before it, and none of these is known.
  have hpairwise := pairwise_getLocatorHeights headerHeight
  rw [hsplit] at hpairwise hhigher
  rcases List.mem_append.mp hhigher with hmem | hmem
  · have hnone := hbefore higher hmem
    rwa [hhash', Option.bind_some] at hnone
  · obtain ⟨-, htail, -⟩ := List.pairwise_append.mp hpairwise
    rcases List.mem_cons.mp hmem with rfl | hmem
    · exact absurd hlt (UInt64.lt_irrefl _)
    · have hgt := (List.pairwise_cons.mp htail).1 higher hmem
      exact absurd hlt (UInt64.lt_asymm hgt)

/-- A node knows the headers of another one at the heights of its locators only as headers of its
own candidate chain. -/
def KnowsOnChain (requester responder : ChainState) (headerHeight : UInt64) : Prop :=
  ∀ height ∈ getLocatorHeights headerHeight, ∀ hash header,
    requester.candidate.hashes[height.toNat]? = some hash →
    responder.blockDB.getBlockHeader hash = some header →
    responder.candidate.isOnChain header.getHeight hash = true

end Locators

end BlockLocator

open BlockLocator in
/-- **When the headers attach**: exactly when the node that answers knows none of the headers that
it is asked about from a fork, or its tip is on the chain of the node that asked. -/
theorem attaches_iff {G : Global} {s t : ChainState} (hs : CandidateChain G s)
    (ht : CandidateChain G t) (hgenesis : s.candidate.hashes[0]? = t.candidate.hashes[0]?)
    (hsame : SameHeaders s t) (headerHeight : UInt64) :
    Attaches s t (locateHeaders t (getLocators G s headerHeight)) ↔
      KnowsOnChain s t headerHeight ∨
        s.candidate.isOnChain t.candidate.getHeight t.candidate.getTipHash = true := by
  obtain ⟨height, hheight, hash, common, hhash, hstored, hcommon, hhighest⟩ :=
    exists_findCommonHeader hs ht hgenesis headerHeight
  have hcommonHeight : common.getHeight = height.toNat := getHeight_eq hs hsame hhash hstored
  have htip := t.candidate.getElem?_getHeight
  -- If the chains agree at the height of the common header, they agree at all lower locators.
  have hknows : t.candidate.hashes[height.toNat]? = some hash → KnowsOnChain s t headerHeight := by
    intro hagree lower hlower hash' header hhash' hheader
    have hle : lower.toNat ≤ height.toNat := by
      rw [← UInt64.le_iff_toNat_le, ← UInt64.not_lt]
      intro hlt
      rw [hhighest lower hlower hlt hash' hhash'] at hheader
      cases hheader
    rw [Chain.isOnChain_iff, getHeight_eq hs hsame hhash' hheader,
      ← agree_below hs ht hsame hhash hagree hle]
    exact hhash'
  rcases Nat.lt_or_ge common.getHeight t.candidate.getHeight with hlt | hle
  · rw [attaches_of_lt ht hcommon hlt, hcommonHeight, hhash]
    rw [hcommonHeight] at hlt
    constructor
    · intro hagree
      exact .inl (hknows hagree.symm)
    · rintro (hknown | hon)
      · have hon := hknown height hheight hash common hhash hstored
        rw [Chain.isOnChain_iff, hcommonHeight] at hon
        exact hon.symm
      · rw [Chain.isOnChain_iff] at hon
        rw [← hhash]
        exact agree_below hs ht hsame hon htip hlt.le
  · have hfits : common.getHeight + 1 < 2 ^ 64 := by
      have hlength := hs.length_lt
      have hindex := (List.getElem?_eq_some_iff.mp hhash).1
      omega
    rw [attaches_of_le hcommon hle hfits]
    constructor
    · exact .inr
    · rintro (hknown | hon)
      · -- The common header is then the tip.
        have hon := hknown height hheight hash common hhash hstored
        rw [Chain.isOnChain_iff] at hon
        have hindex := (List.getElem?_eq_some_iff.mp hon).1
        rw [t.candidate.length_hashes] at hindex
        obtain heq : common.getHeight = t.candidate.getHeight := by omega
        rw [heq, htip] at hon
        rw [Chain.isOnChain_iff, ← heq, hcommonHeight, hhash, ← hon]
      · exact hon

/-! ### Two nodes of the small network -/

namespace BlockLocator

/-- The chain of a list of headers that are stored. -/
theorem candidateChain_of {G : Global} {s : ChainState} (headers : List BlockHeader)
    (hhashes : s.candidate.hashes = headers.map (BlockHeader.getHash G))
    (hstored : ∀ header ∈ headers,
      s.blockDB.getBlockHeader (header.getHash G) = some header)
    (hheights : headers.map BlockHeader.getHeight = List.range headers.length)
    (hlinked : headers.IsChain fun a b => b.previousHash = a.getHash G)
    (hlength : headers.length < 2 ^ 64) : CandidateChain G s where
  stored := by
    intro height hash hhash
    rw [hhashes, List.getElem?_map, Option.map_eq_some_iff] at hhash
    obtain ⟨header, hheader, rfl⟩ := hhash
    refine ⟨header, hstored header (List.mem_of_getElem? hheader), rfl, ?_⟩
    have hget := congrArg (·[height]?) hheights
    rw [List.getElem?_map, hheader, Option.map_some,
      List.getElem?_range (List.getElem?_eq_some_iff.mp hheader).1] at hget
    exact Option.some.inj hget
  linked := by
    intro height previous hash header hprevious hhash hheader
    rw [hhashes, List.getElem?_map, Option.map_eq_some_iff] at hprevious hhash
    obtain ⟨a, ha, rfl⟩ := hprevious
    obtain ⟨b, hb, rfl⟩ := hhash
    rw [hstored b (List.mem_of_getElem? hb)] at hheader
    cases hheader
    rw [List.isChain_iff_getElem] at hlinked
    obtain ⟨hltA, rfl⟩ := List.getElem?_eq_some_iff.mp ha
    obtain ⟨hltB, rfl⟩ := List.getElem?_eq_some_iff.mp hb
    exact hlinked height hltB
  length_lt := by
    rw [hhashes, List.length_map]
    exact hlength

end BlockLocator

namespace SmallNet

open HeaderSync BlockLocator

/-- A header on the genesis block, of another fork than `GrinPlusPlus.HeaderSync.strongHeader`. -/
def strongerHeader : BlockHeader :=
  nextHeader genesis genesisHeader 201 2000

/-- The state of a node that had the one fork and went over to the other. -/
def strongerState : ChainState :=
  HeaderCall.perform testNet strongState (.single noon strongerHeader)

/-- The next header of that fork. -/
def strongestHeader : BlockHeader :=
  nextHeader strongerState strongerHeader 202 3000

/-- The state behind it. -/
def strongestState : ChainState :=
  HeaderCall.perform testNet strongerState (.single noon strongestHeader)

theorem candidateChain_genesis : CandidateChain testNet genesis := by
  refine candidateChain_of [genesisHeader] ?_ ?_ ?_ ?_ ?_
  · decide +kernel
  · decide +kernel
  · decide
  · exact List.isChain_singleton _
  · decide

theorem candidateChain_strongState : CandidateChain testNet strongState := by
  refine candidateChain_of [genesisHeader, strongHeader] ?_ ?_ ?_ ?_ ?_
  · decide +kernel
  · decide +kernel
  · decide +kernel
  · exact List.isChain_pair.mpr rfl
  · decide

theorem candidateChain_strongestState : CandidateChain testNet strongestState := by
  refine candidateChain_of [genesisHeader, strongerHeader, strongestHeader]
    ?_ ?_ ?_ ?_ ?_
  · decide +kernel
  · decide +kernel
  · decide +kernel
  · exact List.isChain_cons_cons.mpr ⟨rfl, List.isChain_pair.mpr rfl⟩
  · decide

/-- What the node of the first fork stores. -/
theorem of_getBlockHeader_strongState {hash : Hash} {header : BlockHeader}
    (h : strongState.blockDB.getBlockHeader hash = some header) :
    (hash = genesisHeader.getHash testNet ∧ header.height = genesisHeader.height ∧
        header.previousHash = genesisHeader.previousHash) ∨
      (hash = strongHeader.getHash testNet ∧ header.height = strongHeader.height ∧
        header.previousHash = strongHeader.previousHash) := by
  have hcreated := ChainState.created_of_create create_eq
  rcases grown_strongState.answers.some _ _ h with hcache | htable | ⟨a, ha, hkey, hheader⟩
  · rw [hcreated.cache, List.mem_singleton, Prod.mk.injEq] at hcache
    obtain ⟨rfl, rfl⟩ := hcache
    exact .inl ⟨rfl, rfl, rfl⟩
  · rw [hcreated.table, Function.update_apply] at htable
    split at htable
    · next hkey =>
      cases htable
      exact .inl ⟨hkey, rfl, rfl⟩
    · cases htable
  · obtain rfl := List.mem_singleton.mp ha
    rcases hheader with rfl | rfl
    · exact .inr ⟨hkey.symm, rfl, rfl⟩
    · exact .inr ⟨hkey.symm, rfl, rfl⟩

/-- What the node of the other fork stores of it. -/
theorem sameHeaders_strongState : SameHeaders strongState strongestState := by
  intro hash a b ha hb
  rcases of_getBlockHeader_strongState ha with ⟨rfl, hheight, hprevious⟩ | ⟨rfl, hheight, hprevious⟩
  · have hfound : strongestState.blockDB.getBlockHeader (genesisHeader.getHash testNet) =
        some genesisHeader := by decide +kernel
    rw [hfound] at hb
    cases hb
    exact ⟨hheight, hprevious⟩
  · have hfound : strongestState.blockDB.getBlockHeader (strongHeader.getHash testNet) =
        some strongHeader := by decide +kernel
    rw [hfound] at hb
    cases hb
    exact ⟨hheight, hprevious⟩

/-- What a new node stores of it. -/
theorem sameHeaders_genesis : SameHeaders genesis strongestState := by
  have hcreated := ChainState.created_of_create create_eq
  have hfound :
      strongestState.blockDB.getBlockHeader (testNet.genesisBlock.header.getHash testNet) =
        some testNet.genesisBlock.header := by
    decide +kernel
  intro hash a b ha hb
  rcases BlockDB.of_getBlockHeader ha with hcache | htable
  · rw [hcreated.cache, List.mem_singleton, Prod.mk.injEq] at hcache
    obtain ⟨rfl, rfl⟩ := hcache
    rw [hfound] at hb
    cases hb
    exact ⟨rfl, rfl⟩
  · rw [hcreated.table, Function.update_apply] at htable
    split at htable
    · next hkey =>
      cases htable
      rw [hkey, hfound] at hb
      cases hb
      exact ⟨rfl, rfl⟩
    · cases htable

end SmallNet

open SmallNet HeaderSync BlockLocator

/-- A new node gets headers that attach to its chain. -/
theorem attaches_iff_newNode :
    Attaches genesis strongestState
      (locateHeaders strongestState (getLocators testNet genesis 0)) := by
  refine (attaches_iff candidateChain_genesis candidateChain_strongestState (by decide +kernel)
    sameHeaders_genesis 0).mpr (.inl ?_)
  intro height hheight hash header hhash hheader
  obtain rfl : height = 0 := List.mem_singleton.mp hheight
  have hgenesis : genesis.candidate.hashes[(0 : UInt64).toNat]? =
      some (genesisHeader.getHash testNet) := by decide +kernel
  have hfound : strongestState.blockDB.getBlockHeader (genesisHeader.getHash testNet) =
      some genesisHeader := by decide +kernel
  rw [hgenesis] at hhash
  cases hhash
  rw [hfound] at hheader
  cases hheader
  decide +kernel

/-- A node on a fork that the other one has stored gets a header that does not attach to its
chain. -/
theorem not_attaches_fork :
    CandidateChain testNet strongState ∧ CandidateChain testNet strongestState ∧
      strongState.candidate.hashes[0]? = strongestState.candidate.hashes[0]? ∧
      SameHeaders strongState strongestState ∧
      ¬Attaches strongState strongestState
        (locateHeaders strongestState (getLocators testNet strongState 1)) := by
  refine ⟨candidateChain_strongState, candidateChain_strongestState, by decide +kernel,
    sameHeaders_strongState, ?_⟩
  intro hattaches
  have hsent : locateHeaders strongestState (getLocators testNet strongState 1) =
      [strongestHeader] := by decide +kernel
  rw [hsent] at hattaches
  obtain ⟨height, hheight, hon, -⟩ := hattaches.attached strongestHeader rfl
  obtain rfl : height = 1 := by
    have htwo : strongestHeader.getHeight = 2 := by decide +kernel
    omega
  revert hon
  decide +kernel

end GrinPlusPlus
