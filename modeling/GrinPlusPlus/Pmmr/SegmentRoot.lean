import GrinPlusPlus.Pmmr.SegmentTree

/-!
# The root of a segment

`GrinPlusPlus.Segment.root` is a stack machine: the positions of a block are its program, in
the order in which the range lists its nodes. That order is the one of the tree – the left
subtree, the right subtree, the node – so that running the machine over a complete tree pushes
one entry, the hash of the tree, which `GrinPlusPlus.Segment.subtreeHash` says by recursion on
the tree (`GrinPlusPlus.Segment.rootLoop_block`). Over the last block the machine leaves one
entry for each peak, and these are bagged.

Without a bitmap every leaf of the block has to be supplied, and the root is the root of the
part of the hash tree of the range that the segment covers
(`GrinPlusPlus.Segment.root_eq_some_iff`). Nothing else that was supplied enters.
-/

namespace GrinPlusPlus

open PostOrder Mountain MMRHashUtil MMRUtil Merkle

/-! ### The positions of a tree -/

/-- The positions of the complete tree over a block of leaves. -/
def block (h j : ℕ) : List ℕ :=
  List.range' (leafPos (2 ^ h * j)) (2 ^ (h + 1) - 1)

theorem block_zero (j : ℕ) : block 0 j = [nodePos 0 j] := by
  rw [block, pow_zero, Nat.one_mul, nodePos_zero]
  rfl

/-- **The order of the range**: the left subtree, the right subtree, the node. -/
theorem block_succ (h j : ℕ) :
    block (h + 1) j = block h (2 * j) ++ (block h (2 * j + 1) ++ [nodePos (h + 1) j]) := by
  have hpos : 0 < 2 ^ h := Nat.two_pow_pos h
  have hhigh : 2 ^ (h + 1) = 2 * 2 ^ h := by rw [pow_succ, Nat.mul_comm]
  have htop : 2 ^ (h + 1 + 1) = 2 * 2 ^ (h + 1) := by rw [pow_succ, Nat.mul_comm]
  have hfirst : 2 ^ (h + 1) * j = 2 ^ h * (2 * j) := by
    rw [pow_succ, Nat.mul_assoc]
  -- The right subtree starts right behind the left one, and the node stands behind both.
  have hright : leafPos (2 ^ h * (2 * j + 1)) =
      leafPos (2 ^ h * (2 * j)) + (2 ^ (h + 1) - 1) := by
    have h1 := nodePos_succ_even h j
    have h2 := nodePos_eq_leafPos_add h (2 * j)
    omega
  have hlast : nodePos (h + 1) j =
      leafPos (2 ^ h * (2 * j)) + (2 ^ (h + 1) - 1) + (2 ^ (h + 1) - 1) := by
    have h1 := nodePos_eq_leafPos_add (h + 1) j
    rw [hfirst] at h1
    omega
  have hone : ([nodePos (h + 1) j] : List ℕ) = List.range' (nodePos (h + 1) j) 1 := rfl
  rw [block, block, block, hfirst, hone, hlast, hright, List.range'_append_1,
    List.range'_append_1]
  congr 1
  omega

/-- The positions between two numbers of leaves, along a run of left children. -/
theorem range'_eq_flatMap {a b : ℕ} {qs : List (ℕ × ℕ)} (h : Consecutive a b qs)
    (heven : ∀ q ∈ qs, q.2 % 2 = 0) :
    List.range' (leafPos a) (leafPos b - leafPos a) = qs.flatMap fun q => block q.1 q.2 := by
  induction qs generalizing a with
  | nil =>
    rw [h, Nat.sub_self]
    rfl
  | cons q qs ih =>
    obtain ⟨rfl, hrest⟩ := h
    have hle := leafPos_strictMono.monotone hrest.le
    have hpos : 0 < 2 ^ q.1 := Nat.two_pow_pos _
    -- Behind a left child stands the first leaf of the next block.
    have hnext : leafPos (2 ^ q.1 * (q.2 + 1)) =
        leafPos (2 ^ q.1 * q.2) + (2 ^ (q.1 + 1) - 1) := by
      obtain ⟨i, hi⟩ : ∃ i, q.2 = 2 * i := ⟨q.2 / 2, by
        have := heven q (List.mem_cons_self ..)
        omega⟩
      have h1 := nodePos_succ_even q.1 i
      have h2 := nodePos_eq_leafPos_add q.1 (2 * i)
      rw [pow_succ] at h2
      rw [hi, ← h1, pow_succ]
      omega
    have hlength : leafPos b - leafPos (2 ^ q.1 * q.2) =
        (2 ^ (q.1 + 1) - 1) + (leafPos b - leafPos (2 ^ q.1 * (q.2 + 1))) := by
      omega
    rw [List.flatMap_cons, ← ih hrest fun p hp => heven p (List.mem_cons_of_mem _ hp), block,
      hlength, hnext, List.range'_append_1]

namespace Segment

variable {α : Type} (G : Global) (serialized : α → List UInt8) (s : Segment α) (mmrSize : ℕ)
  (bitmap : Option BitmapAccumulator)

/-! ### The machine over a tree -/

/-- What is pushed for a leaf. -/
def leafEntry (position : ℕ) : Option (Option Hash) :=
  if leafRequired bitmap position mmrSize then
    (s.getLeafAt position).map fun leaf =>
      some (hashLeafWithIndex G (serialized leaf) position)
  else some none

/-- What is pushed for a complete tree: nothing when no leaf of it is required, and otherwise
its hash. -/
def subtreeHash : ℕ → ℕ → Option (Option Hash)
  | 0, j => leafEntry G serialized s mmrSize bitmap (nodePos 0 j)
  | h + 1, j =>
    (subtreeHash h (2 * j)).bind fun leftHash =>
      (subtreeHash h (2 * j + 1)).bind fun rightHash =>
        parentHash G s bitmap.isSome (nodePos (h + 1) j) leftHash rightHash

variable {G serialized s mmrSize bitmap}

theorem rootLoop_leaf (j : ℕ) (rest : List ℕ) (stack : List (Option Hash)) :
    rootLoop G serialized s mmrSize bitmap (nodePos 0 j :: rest) stack =
      (leafEntry G serialized s mmrSize bitmap (nodePos 0 j)).bind fun entry =>
        rootLoop G serialized s mmrSize bitmap rest (entry :: stack) := by
  rw [rootLoop.eq_def]
  dsimp only
  rw [leafEntry, Index.calculateHeight, height_nodePos, if_pos rfl]
  split
  · rcases s.getLeafAt (nodePos 0 j) with _ | leaf
    · rfl
    · rfl
  · rfl

theorem rootLoop_parent (h j : ℕ) (rest : List ℕ) (leftHash rightHash : Option Hash)
    (stack : List (Option Hash)) :
    rootLoop G serialized s mmrSize bitmap (nodePos (h + 1) j :: rest)
        (rightHash :: leftHash :: stack) =
      (parentHash G s bitmap.isSome (nodePos (h + 1) j) leftHash rightHash).bind fun entry =>
        rootLoop G serialized s mmrSize bitmap rest (entry :: stack) := by
  rw [rootLoop, Index.calculateHeight, height_nodePos, if_neg (Nat.succ_ne_zero h)]
  rcases parentHash G s bitmap.isSome (nodePos (h + 1) j) leftHash rightHash with _ | hash
  · rfl
  · rfl

/-- **The machine over a complete tree** pushes one entry. -/
theorem rootLoop_block (h j : ℕ) (rest : List ℕ) (stack : List (Option Hash)) :
    rootLoop G serialized s mmrSize bitmap (block h j ++ rest) stack =
      (subtreeHash G serialized s mmrSize bitmap h j).bind fun entry =>
        rootLoop G serialized s mmrSize bitmap rest (entry :: stack) := by
  induction h generalizing j rest stack with
  | zero =>
    rw [block_zero, List.singleton_append, rootLoop_leaf, subtreeHash]
  | succ h ih =>
    rw [block_succ, List.append_assoc, List.append_assoc, ih, subtreeHash, Option.bind_assoc]
    congr 1
    funext leftHash
    rw [ih, Option.bind_assoc]
    congr 1
    funext rightHash
    rw [List.singleton_append, rootLoop_parent]

/-- The entries of some peaks, from the first to the last. -/
def peakEntries (G : Global) (serialized : α → List UInt8) (s : Segment α) (mmrSize : ℕ)
    (bitmap : Option BitmapAccumulator) : List (ℕ × ℕ) → Option (List (Option Hash))
  | [] => some []
  | q :: qs =>
    (subtreeHash G serialized s mmrSize bitmap q.1 q.2).bind fun entry =>
      (peakEntries G serialized s mmrSize bitmap qs).bind fun entries => some (entry :: entries)

/-- Over some blocks the machine pushes one entry for each. -/
theorem rootLoop_blocks (qs : List (ℕ × ℕ)) (stack : List (Option Hash)) :
    rootLoop G serialized s mmrSize bitmap (qs.flatMap fun q => block q.1 q.2) stack =
      (peakEntries G serialized s mmrSize bitmap qs).map fun entries =>
        entries.reverse ++ stack := by
  induction qs generalizing stack with
  | nil => rfl
  | cons q qs ih =>
    rw [List.flatMap_cons, rootLoop_block, peakEntries]
    rcases subtreeHash G serialized s mmrSize bitmap q.1 q.2 with _ | entry
    · rfl
    · rw [Option.bind_some, Option.bind_some, ih]
      rcases peakEntries G serialized s mmrSize bitmap qs with _ | entries
      · rfl
      · simp

/-! ### The peaks of the last segment -/

/-- The hash of a peak: with a bitmap it may be supplied instead. -/
def peakHash (s : Segment α) (useBitmap : Bool) (q : ℕ × ℕ) (entry : Option Hash) :
    Option Hash :=
  if entry.isNone && useBitmap then s.getProvidedStoredHash (nodePos q.1 q.2) else entry

/-- The root over some peaks, which `Segment::Root` builds from the last one on; of no peaks
there is none. -/
def bagEntries (G : Global) (s : Segment α) (mmrSize : ℕ) (useBitmap : Bool) :
    List (ℕ × ℕ) → List (Option Hash) → Option (Option Hash)
  | q :: qs, entry :: entries =>
    (bagEntries G s mmrSize useBitmap qs entries).bind fun root =>
      (s.peakHash useBitmap q entry).map fun hash =>
        some (match root with
          | some root => hashParentWithIndex G hash root mmrSize
          | none => hash)
  | _, _ => some none

/-- Peaks outside the segment are skipped. -/
theorem mergePeaks_skip {useBitmap : Bool} {posRange : ℕ × ℕ} {peaks : List ℕ}
    (h : ∀ peak ∈ peaks, peak < posRange.1 ∨ posRange.2 < peak) (stack : List (Option Hash))
    (root : Option Hash) :
    mergePeaks G s mmrSize useBitmap posRange peaks stack root = some root := by
  induction peaks with
  | nil => rfl
  | cons peak peaks ih =>
    have hpeak := h peak (List.mem_cons_self ..)
    rw [mergePeaks.eq_def]
    dsimp only
    rw [if_pos hpeak]
    exact ih fun p hp => h p (List.mem_cons_of_mem _ hp)

/-- **The peaks of the segment are bagged**, the last one first. -/
theorem mergePeaks_bag {useBitmap : Bool} {posRange : ℕ × ℕ} {qs : List (ℕ × ℕ)}
    {entries : List (Option Hash)} (hlength : entries.length = qs.length)
    (hrange : ∀ q ∈ qs, posRange.1 ≤ nodePos q.1 q.2 ∧ nodePos q.1 q.2 ≤ posRange.2)
    (peaks : List ℕ) (stack : List (Option Hash)) :
    mergePeaks G s mmrSize useBitmap posRange
        ((qs.map fun q => nodePos q.1 q.2).reverse ++ peaks) (entries.reverse ++ stack) none =
      (bagEntries G s mmrSize useBitmap qs entries).bind fun root =>
        mergePeaks G s mmrSize useBitmap posRange peaks stack root := by
  induction qs generalizing entries peaks stack with
  | nil =>
    obtain rfl := List.eq_nil_of_length_eq_zero hlength
    rfl
  | cons q qs ih =>
    obtain ⟨entry, entries, rfl⟩ := List.exists_cons_of_length_eq_add_one hlength
    have hq := hrange q (List.mem_cons_self ..)
    rw [List.map_cons, List.reverse_cons, List.append_assoc, List.reverse_cons,
      List.append_assoc, ih (Nat.succ.inj hlength) fun p hp => hrange p (List.mem_cons_of_mem _ hp),
      bagEntries, Option.bind_assoc]
    congr 1
    funext root
    rw [List.singleton_append, List.singleton_append, mergePeaks, if_neg (by omega)]
    rcases hpeak : s.peakHash useBitmap q entry with _ | hash
    · rw [peakHash] at hpeak
      rw [hpeak]
      rfl
    · rw [peakHash] at hpeak
      rw [hpeak]
      rcases root with _ | root
      · rfl
      · rfl

theorem length_peakEntries {qs : List (ℕ × ℕ)} {entries : List (Option Hash)}
    (h : peakEntries G serialized s mmrSize bitmap qs = some entries) :
    entries.length = qs.length := by
  induction qs generalizing entries with
  | nil =>
    cases h
    rfl
  | cons q qs ih =>
    obtain ⟨entry, -, h⟩ := Option.bind_eq_some_iff.mp h
    obtain ⟨rest, hrest, h⟩ := Option.bind_eq_some_iff.mp h
    cases h
    rw [List.length_cons, List.length_cons, ih hrest]

/-! ### The root of a segment -/

end Segment

namespace SegmentIdentifier

variable {id : SegmentIdentifier} {mmrSize h i : ℕ}

/-- The segment of a block of leaves: its offset has not been reduced. -/
structure Block (id : SegmentIdentifier) (h i : ℕ) : Prop where
  /-- The height of the block. -/
  height_eq : id.height.toNat = h
  /-- The leaves in front of it. -/
  offset_eq : id.getLeafOffset = 2 ^ h * i

/-- An offset in front of some leaf has not been reduced. -/
theorem block_of_lt (hlt : 2 ^ id.height.toNat * id.index.toNat < 2 ^ 64) :
    id.Block id.height.toNat id.index.toNat where
  height_eq := rfl
  offset_eq := by
    rw [getLeafOffset, getSegmentCapacity, Nat.mul_comm, Nat.mod_eq_of_lt hlt]

theorem Block.getSegmentUnprunedSize_full (hid : id.Block h i)
    (hblock : 2 ^ h * (i + 1) ≤ countLeaves mmrSize) :
    id.getSegmentUnprunedSize mmrSize = id.getSegmentCapacity := by
  have hpos : 0 < 2 ^ h := Nat.two_pow_pos h
  rw [Nat.mul_succ] at hblock
  rw [getSegmentUnprunedSize, getSegmentCapacity, hid.offset_eq, hid.height_eq, if_neg (by omega)]
  omega

/-- **A full segment** is a complete tree. -/
theorem Block.getPositionRange_full (hid : id.Block h i)
    (hblock : 2 ^ h * (i + 1) ≤ countLeaves mmrSize) :
    id.getPositionRange mmrSize = (leafPos (2 ^ h * i), nodePos h i) := by
  have hpos : 0 < 2 ^ h := Nat.two_pow_pos h
  have hcapacity : id.getSegmentCapacity = 2 ^ h := by rw [getSegmentCapacity, hid.height_eq]
  have hlast := nodePos_eq_last_leafPos_add h i
  rw [getPositionRange, hid.getSegmentUnprunedSize_full hblock, hcapacity, if_neg (by omega)]
  dsimp only
  rw [if_pos rfl, hid.offset_eq, hid.height_eq, leafPosition, leafPosition, hlast, Nat.mul_succ]

theorem Block.getSegmentUnprunedSize_last (hid : id.Block h i)
    (hfirst : 2 ^ h * i < countLeaves mmrSize) (hlast : countLeaves mmrSize < 2 ^ h * (i + 1)) :
    id.getSegmentUnprunedSize mmrSize = countLeaves mmrSize - 2 ^ h * i := by
  rw [Nat.mul_succ] at hlast
  rw [getSegmentUnprunedSize, getSegmentCapacity, hid.offset_eq, hid.height_eq, if_neg (by omega)]
  omega

theorem Block.getSegmentUnprunedSize_last_ne (hid : id.Block h i)
    (hfirst : 2 ^ h * i < countLeaves mmrSize) (hlast : countLeaves mmrSize < 2 ^ h * (i + 1)) :
    id.getSegmentUnprunedSize mmrSize ≠ id.getSegmentCapacity := by
  rw [hid.getSegmentUnprunedSize_last hfirst hlast, getSegmentCapacity, hid.height_eq]
  rw [Nat.mul_succ] at hlast
  omega

/-- **The last segment** reaches up to the end of the range. -/
theorem Block.getPositionRange_last (hid : id.Block h i)
    (hfirst : 2 ^ h * i < countLeaves mmrSize) (hlast : countLeaves mmrSize < 2 ^ h * (i + 1)) :
    id.getPositionRange mmrSize = (leafPos (2 ^ h * i), mmrSize - 1) := by
  have hne := hid.getSegmentUnprunedSize_last_ne hfirst hlast
  rw [getPositionRange, if_neg]
  · dsimp only
    rw [if_neg hne, hid.offset_eq, leafPosition]
  · rw [hid.getSegmentUnprunedSize_last hfirst hlast]
    omega

end SegmentIdentifier

namespace Segment

variable {α : Type} {G : Global} {serialized : α → List UInt8} {s : Segment α} {mmrSize : ℕ}
  {bitmap : Option BitmapAccumulator} {h i : ℕ}

/-! ### The root of a segment -/

/-- **The root of a full segment** is the entry of its tree. -/
theorem root_full (hid : s.id.Block h i) (hs : s.Deserialized)
    (hblock : 2 ^ h * (i + 1) ≤ countLeaves mmrSize) :
    s.root G serialized mmrSize bitmap =
      (subtreeHash G serialized s mmrSize bitmap h i).join := by
  have hpos : 0 < 2 ^ h * (i + 1) := Nat.mul_pos (Nat.two_pow_pos h) (Nat.succ_pos i)
  have hsize : mmrSize ≠ 0 := by
    rintro rfl
    rw [countLeaves, if_pos rfl] at hblock
    omega
  have hlast := nodePos_eq_leafPos_add h i
  have hrange : List.range' (PostOrder.leafPos (2 ^ h * i))
      (nodePos h i - PostOrder.leafPos (2 ^ h * i) + 1) = block h i ++ [] := by
    have : 0 < 2 ^ h := Nat.two_pow_pos h
    rw [List.append_nil, block, hlast, pow_succ]
    congr 1
    omega
  rw [root, if_neg (by rintro (hne | hne)
                       · exact hne hs.length_hashes
                       · exact hne hs.length_leaves),
    hid.getPositionRange_full hblock, hid.getSegmentUnprunedSize_full hblock]
  dsimp only
  rw [if_neg (by omega), hrange, rootLoop_block]
  rcases subtreeHash G serialized s mmrSize bitmap h i with _ | entry
  · rfl
  · rw [Option.bind_some, rootLoop]
    dsimp only
    rw [if_pos rfl, List.head?_cons]

/-- The peaks of the last segment. -/
theorem rangePeaks_last {n : ℕ} (hfirst : 2 ^ h * i < n) (hlast : n < 2 ^ h * (i + 1)) :
    ∃ front p back, rangePeaks n = front ++ p :: back ∧ peaks h n = p :: back ∧
      Consecutive (2 ^ h * i) n (p :: back) ∧ 2 ^ p.1 * p.2 = 2 ^ h * i := by
  have hdiv : n / 2 ^ h = i := by
    refine Nat.div_eq_of_lt_le ?_ ?_
    · rw [Nat.mul_comm]
      exact hfirst.le
    · rw [Nat.mul_comm]
      exact hlast
  have hrun := consecutive_peaks h n
  rw [hdiv] at hrun
  obtain ⟨front, hfront⟩ : ∃ front, rangePeaks n = front ++ peaks h n := by
    rcases Nat.le_total h (bitLength (PostOrder.leafPos n)) with hle | hle
    · exact exists_peaks_eq_append hle n
    · exact ⟨[], (peaks_eq_of_le hle (lt_two_pow_bitLength_leafPos n)).symm⟩
  rcases hpeaks : peaks h n with _ | ⟨p, back⟩
  · rw [hpeaks] at hrun
    exact absurd hrun hfirst.ne
  · rw [hpeaks] at hrun hfront
    exact ⟨front, p, back, hfront, rfl, hrun, hrun.1.symm⟩

/-- **The root of the last segment** is bagged from the entries of its peaks. -/
theorem root_last {n : ℕ} (hid : s.id.Block h i) (hs : s.Deserialized)
    (hcount : countLeaves (PostOrder.leafPos n) = n) (hfirst : 2 ^ h * i < n)
    (hlast : n < 2 ^ h * (i + 1)) :
    s.root G serialized (PostOrder.leafPos n) bitmap =
      ((peakEntries G serialized s (PostOrder.leafPos n) bitmap (peaks h n)).bind
        (bagEntries G s (PostOrder.leafPos n) bitmap.isSome (peaks h n))).join := by
  obtain ⟨front, p, back, hsplit, hpeaks, hrun, hp⟩ := rangePeaks_last hfirst hlast
  have hfirst' := hfirst
  have hlast' := hlast
  rw [← hcount] at hfirst' hlast'
  have hlt := leafPos_strictMono hfirst
  have heven : ∀ q ∈ p :: back, q.2 % 2 = 0 := fun q hq => even_of_mem_peaks (hpeaks ▸ hq)
  have hrange : List.range' (PostOrder.leafPos (2 ^ h * i))
      (PostOrder.leafPos n - 1 - PostOrder.leafPos (2 ^ h * i) + 1) =
        (peaks h n).flatMap fun q => block q.1 q.2 := by
    rw [hpeaks, ← range'_eq_flatMap hrun heven]
    congr 1
    omega
  -- The peaks in front of the segment are skipped, the others lie in it.
  have hfront : ∀ pos ∈ (front.map fun q => nodePos q.1 q.2).reverse,
      pos < PostOrder.leafPos (2 ^ h * i) := by
    intro pos hpos
    obtain ⟨q, hq, rfl⟩ := List.mem_map.mp (List.mem_reverse.mp hpos)
    rw [← hp]
    exact SegmentProof.lt_of_mem_front hsplit hq
  have hback : ∀ q ∈ peaks h n, PostOrder.leafPos (2 ^ h * i) ≤ nodePos q.1 q.2 ∧
      nodePos q.1 q.2 ≤ PostOrder.leafPos n - 1 := by
    intro q hq
    rw [hpeaks] at hq
    obtain ⟨h1, h2⟩ := hrun.mem hq
    have h3 := leafPos_strictMono.monotone h1
    have h4 := nodePos_eq_leafPos_add q.1 q.2
    have h5 := nodePos_lt_leafPos_iff.mpr h2
    omega
  have hindices : (getPeakIndices (PostOrder.leafPos n)).reverse =
      ((peaks h n).map fun q => nodePos q.1 q.2).reverse ++
        (front.map fun q => nodePos q.1 q.2).reverse := by
    rw [getPeakIndices_eq, hsplit, hpeaks, List.map_append, List.reverse_append]
  rw [root, if_neg (by rintro (hne | hne)
                       · exact hne hs.length_hashes
                       · exact hne hs.length_leaves),
    hid.getPositionRange_last hfirst' hlast']
  dsimp only
  rw [if_neg (by omega), hrange, rootLoop_blocks]
  rcases hentries : peakEntries G serialized s (PostOrder.leafPos n) bitmap (peaks h n) with
    _ | entries
  · rfl
  · rw [Option.map_some]
    dsimp only
    rw [if_neg (hid.getSegmentUnprunedSize_last_ne hfirst' hlast'), hindices,
      mergePeaks_bag (length_peakEntries hentries) hback, Option.bind_some]
    congr 1
    rcases bagEntries G s (PostOrder.leafPos n) bitmap.isSome (peaks h n) entries with _ | root
    · rfl
    · exact mergePeaks_skip (fun pos hpos => .inl (hfront pos hpos)) _ _

/-- Of a range that is not closed the last segment has no root. -/
theorem root_of_ne (hid : s.id.Block h i)
    (hsize : mmrSize ≠ PostOrder.leafPos (Index.calculateLeafIndex mmrSize))
    (hfirst : 2 ^ h * i < countLeaves mmrSize) (hlast : countLeaves mmrSize < 2 ^ h * (i + 1)) :
    s.root G serialized mmrSize bitmap = none := by
  rw [root]
  split
  · rfl
  · dsimp only
    split
    · rfl
    · split
      · rfl
      · rw [if_neg (hid.getSegmentUnprunedSize_last_ne hfirst hlast), getPeakIndices_of_ne hsize]
        rfl

/-! ### Without a bitmap -/

/-- The hash of the leaf that is supplied at a position. -/
def leafHash (G : Global) (serialized : α → List UInt8) (s : Segment α) (position : ℕ) : Hash :=
  ((s.getLeafAt position).map fun leaf =>
    hashLeafWithIndex G (serialized leaf) position).getD Hash.zero

/-- Every leaf of a tree is supplied. -/
def Supplies (s : Segment α) (t : Tree) : Prop :=
  ∀ place ∈ t.places, ∃ leaf, s.getLeafAt place = some leaf

theorem leafHash_of_getLeafAt {position : ℕ} {leaf : α} (hleaf : s.getLeafAt position = some leaf) :
    leafHash G serialized s position = hashLeafWithIndex G (serialized leaf) position := by
  rw [leafHash, hleaf]
  rfl

/-- **The entry of a tree is its root**, and all of its leaves are supplied. -/
theorem subtreeHash_eq_some {entry : Option Hash}
    (hentry : subtreeHash G serialized s mmrSize none h i = some entry) :
    s.Supplies (completeTree h i) ∧
      entry = some (Merkle.root (combine G) (leafHash G serialized s) (completeTree h i)) := by
  induction h generalizing i entry with
  | zero =>
    rw [subtreeHash, leafEntry, leafRequired, if_pos rfl, Option.map_eq_some_iff] at hentry
    obtain ⟨leaf, hleaf, rfl⟩ := hentry
    refine ⟨fun place hplace => ?_, ?_⟩
    · rw [completeTree, Tree.places, List.mem_singleton] at hplace
      exact ⟨leaf, hplace ▸ hleaf⟩
    · rw [completeTree, Merkle.root, leafHash_of_getLeafAt hleaf]
  | succ h ih =>
    obtain ⟨left, hleft, hentry⟩ := Option.bind_eq_some_iff.mp hentry
    obtain ⟨right, hright, hentry⟩ := Option.bind_eq_some_iff.mp hentry
    obtain ⟨hsl, rfl⟩ := ih hleft
    obtain ⟨hsr, rfl⟩ := ih hright
    refine ⟨fun place hplace => ?_, ?_⟩
    · rcases List.mem_append.mp hplace with hmem | hmem
      · exact hsl place hmem
      · exact hsr place hmem
    · exact (Option.some.inj hentry).symm

/-- And when they all are supplied, it is pushed. -/
theorem subtreeHash_of_supplies (hsupplies : s.Supplies (completeTree h i)) :
    subtreeHash G serialized s mmrSize none h i =
      some (some (Merkle.root (combine G) (leafHash G serialized s) (completeTree h i))) := by
  induction h generalizing i with
  | zero =>
    obtain ⟨leaf, hleaf⟩ := hsupplies _ (List.mem_cons_self ..)
    rw [subtreeHash, leafEntry, leafRequired, if_pos rfl, hleaf, completeTree, Merkle.root,
      leafHash_of_getLeafAt hleaf, Option.map_some]
  | succ h ih =>
    rw [subtreeHash, ih fun place hplace => hsupplies place (List.mem_append_left _ hplace),
      Option.bind_some, ih fun place hplace => hsupplies place (List.mem_append_right _ hplace)]
    rfl

theorem bagEntries_eq_some {n : ℕ} {q : ℕ × ℕ} {qs : List (ℕ × ℕ)} {entries : List (Option Hash)}
    {r : Option Hash}
    (hentries : peakEntries G serialized s mmrSize none (q :: qs) = some entries)
    (hbag : bagEntries G s n false (q :: qs) entries = some r) :
    s.Supplies (bagTree n q qs) ∧
      r = some (Merkle.root (combine G) (leafHash G serialized s) (bagTree n q qs)) := by
  induction qs generalizing q entries r with
  | nil =>
    obtain ⟨entry, hentry, hentries⟩ := Option.bind_eq_some_iff.mp hentries
    cases hentries
    obtain ⟨hs, rfl⟩ := subtreeHash_eq_some hentry
    exact ⟨hs, (Option.some.inj hbag).symm⟩
  | cons q' qs ih =>
    obtain ⟨entry, hentry, hentries⟩ := Option.bind_eq_some_iff.mp hentries
    obtain ⟨rest, hrest, hentries⟩ := Option.bind_eq_some_iff.mp hentries
    cases hentries
    obtain ⟨hs, rfl⟩ := subtreeHash_eq_some hentry
    obtain ⟨root, hroot, hbag⟩ := Option.bind_eq_some_iff.mp hbag
    obtain ⟨hs', rfl⟩ := ih hrest hroot
    refine ⟨fun place hplace => ?_, (Option.some.inj hbag).symm⟩
    rcases List.mem_append.mp hplace with hmem | hmem
    · exact hs place hmem
    · exact hs' place hmem

/-- A range without leaves, or with too many to count them, gives no segment a root. -/
theorem root_of_countLeaves_eq_zero (hcount : countLeaves mmrSize = 0) :
    s.root G serialized mmrSize bitmap = none := by
  have hsize : s.id.getSegmentUnprunedSize mmrSize = 0 := by
    rw [SegmentIdentifier.getSegmentUnprunedSize, hcount, if_pos (Nat.zero_le _)]
  have hcapacity : 0 < s.id.getSegmentCapacity := Nat.two_pow_pos _
  have hrange : s.id.getPositionRange mmrSize = (0, 0) := by
    rw [SegmentIdentifier.getPositionRange, hsize]
    rfl
  have hpeaks : mmrSize ≠ 0 → ∀ peak ∈ (getPeakIndices mmrSize).reverse, peak < 0 ∨ 0 < peak := by
    rintro hne peak hpeak
    right
    obtain ⟨-, hlt, -⟩ := leafPos_le_size mmrSize
    obtain ⟨n, hn⟩ : ∃ n, n = Index.calculateLeafIndex mmrSize := ⟨_, rfl⟩
    rw [← hn] at hlt
    rw [countLeaves, if_neg hne, ← hn] at hcount
    by_cases hclosed : mmrSize = PostOrder.leafPos n
    · rw [hclosed, getPeakIndices_eq, List.mem_reverse, List.mem_map] at hpeak
      obtain ⟨q, hq, rfl⟩ := hpeak
      by_contra hzero
      -- Only a range of one leaf has a peak in front.
      have hfirst : nodePos q.1 q.2 = nodePos 0 0 := by
        rw [nodePos_zero]
        exact Nat.le_zero.mp (Nat.le_of_not_lt hzero)
      obtain ⟨h1, h2⟩ := nodePos_inj hfirst
      rw [show q = (0, 0) from Prod.ext h1 h2] at hq
      obtain ⟨-, -, hblock⟩ := mem_peaks.mp hq
      rw [pow_zero, Nat.div_one] at hblock
      have hpos : n ≠ 0 := by
        rintro rfl
        exact hne (hclosed.trans rfl)
      omega
    · rw [getPeakIndices_of_ne (hn ▸ hclosed)] at hpeak
      cases hpeak
  rw [root]
  split
  · rfl
  · rw [hrange]
    dsimp only
    split
    · rfl
    · next hne =>
      split
      · rfl
      · rw [hsize, if_neg hcapacity.ne, mergePeaks_skip (hpeaks fun hzero => hne (.inr hzero))]
        rfl

end Segment

/-- Behind an even number of leaves every range is closed: the next position is a leaf. -/
theorem closed_of_even {size : ℕ} (heven : Index.calculateLeafIndex size % 2 = 0) :
    size = leafPos (Index.calculateLeafIndex size) := by
  obtain ⟨hle, hlt, -⟩ := leafPos_le_size size
  obtain ⟨m, hm⟩ : ∃ m, Index.calculateLeafIndex size = 2 * m :=
    ⟨Index.calculateLeafIndex size / 2, by omega⟩
  have hnext := nodePos_succ_even 0 m
  rw [nodePos_zero, pow_zero, Nat.one_mul] at hnext
  rw [hm] at hle hlt ⊢
  omega

/-- A size of 64 bits that has leaves has no more than are counted. -/
theorem countLeaves_eq {size : ℕ} (hbits : size < 2 ^ 64) (hpos : 0 < countLeaves size) :
    countLeaves size = Index.calculateLeafIndex size := by
  obtain ⟨hle, -, -⟩ := leafPos_le_size size
  have hmax : Index.calculateLeafIndex size < 2 ^ 63 + 1 := by
    by_contra hge
    have h1 := leafPos_strictMono.monotone (Nat.le_of_not_lt hge)
    have h2 := leafPos_lt_succ (2 ^ 63)
    have h3 := leafPos_two_pow 63
    omega
  rw [countLeaves] at hpos ⊢
  split at hpos
  · cases hpos
  · next hne =>
    rw [if_neg hne]
    omega

namespace Segment

variable {α : Type} {G : Global} {serialized : α → List UInt8} {s : Segment α} {mmrSize : ℕ}
  {h i : ℕ}

/-- The part of the hash tree of the range that a segment covers, with the way to its root. -/
structure Covers (G : Global) (serialized : α → List UInt8) (s : Segment α) (mmrSize j : ℕ)
    (hash : Hash) (whole part : Tree) : Prop where
  /-- No place of the whole occurs twice. -/
  nodup : whole.places.Nodup
  /-- The steps of the segment lead from the part to the root of the whole. -/
  sub : Sub whole
    (SegmentProof.steps mmrSize (s.id.getPositionRange mmrSize).1
      (s.id.getPositionRange mmrSize).2 ((s.id.getPositionRange mmrSize).2 + 1)) part
  /-- The steps of the leaf lead from the leaf to the root of the whole. -/
  sub_leaf : Sub whole
    (SegmentProof.steps mmrSize (PostOrder.leafPos j) (PostOrder.leafPos j)
      (PostOrder.leafPos j + 1)) (.leaf (PostOrder.leafPos j))
  /-- The leaf belongs to the part. -/
  mem : PostOrder.leafPos j ∈ part.places
  /-- All leaves of the part are supplied. -/
  supplies : s.Supplies part
  /-- The hash of the segment is the root of the part. -/
  hash_eq : hash = Merkle.root (combine G) (leafHash G serialized s) part

/-- **What the root of a segment says.** -/
theorem exists_covers (hid : s.id.Block h i) (hs : s.Deserialized) (hbits : mmrSize < 2 ^ 64)
    {j : ℕ} (hle : 2 ^ h * i ≤ j) (hlt : j < 2 ^ h * (i + 1)) (hj : j < countLeaves mmrSize)
    {hash : Hash} (hroot : s.root G serialized mmrSize none = some hash) :
    ∃ whole part, Covers G serialized s mmrSize j hash whole part := by
  have hcount := countLeaves_eq hbits (Nat.zero_lt_of_lt hj)
  have hdiv : j / 2 ^ h = i := by
    refine Nat.div_eq_of_lt_le ?_ ?_
    · rw [Nat.mul_comm]
      exact hle
    · rw [Nat.mul_comm]
      exact hlt
  rcases Nat.lt_or_ge (countLeaves mmrSize) (2 ^ h * (i + 1)) with hlast | hfull
  · -- The last segment only has a root when the range is closed.
    have hfirst : 2 ^ h * i < countLeaves mmrSize := by omega
    have hsize : mmrSize = PostOrder.leafPos (countLeaves mmrSize) := by
      by_contra hne
      rw [hcount] at hne
      rw [root_of_ne hid hne hfirst hlast] at hroot
      cases hroot
    obtain ⟨n, hn⟩ : ∃ n, n = countLeaves mmrSize := ⟨_, rfl⟩
    rw [← hn] at hsize hfirst hlast hj
    subst hsize
    obtain ⟨front, p, back, hsplit, hpeaks, hrun, hp⟩ := rangePeaks_last hfirst hlast
    rw [root_last hid hs hn.symm hfirst hlast, hpeaks, Option.join_eq_some_iff,
      Option.bind_eq_some_iff] at hroot
    obtain ⟨entries, hentries, hbag⟩ := hroot
    obtain ⟨hsupplies, hhash⟩ := bagEntries_eq_some hentries hbag
    have hsub := SegmentProof.sub_tail hsplit (PostOrder.leafPos n - 1 + 1)
    have hleaf : Sub (rangeTree n) (SegmentProof.steps (PostOrder.leafPos n)
        (PostOrder.leafPos (2 ^ 0 * j)) (nodePos 0 j) (PostOrder.leafPos j + 1))
          (completeTree 0 j) :=
      SegmentProof.sub_of_node (by omega) (by rw [nodePos_zero])
    rw [pow_zero, Nat.one_mul, nodePos_zero, completeTree, nodePos_zero] at hleaf
    refine ⟨rangeTree n, bagTree (PostOrder.leafPos n) p back,
      nodup_places_rangeTree (by omega), ?_,
      hleaf, ?_, hsupplies, Option.some.inj hhash⟩
    · rw [hid.getPositionRange_last (hn ▸ hfirst) (hn ▸ hlast), ← hp]
      exact hsub
    · rw [places_bagTree hrun]
      exact List.mem_map_of_mem (List.mem_range'_1.mpr (by omega))
  · obtain ⟨whole, hnodup, hways⟩ := SegmentProof.exists_tree (hcount ▸ hj)
    have hblock := hways h (nodePos h i + 1) (by rw [hdiv, ← hcount]; exact hfull)
      (by rw [hdiv])
    have hleaf := hways 0 (PostOrder.leafPos j + 1) (by rw [pow_zero, Nat.div_one]; omega)
      (by rw [pow_zero, Nat.div_one, nodePos_zero])
    rw [hdiv] at hblock
    rw [pow_zero, Nat.div_one, Nat.one_mul, nodePos_zero, completeTree, nodePos_zero] at hleaf
    rw [root_full hid hs hfull, Option.join_eq_some_iff] at hroot
    obtain ⟨hsupplies, hhash⟩ := subtreeHash_eq_some hroot
    refine ⟨whole, completeTree h i, hnodup, ?_, hleaf, ?_, hsupplies, Option.some.inj hhash⟩
    · rw [hid.getPositionRange_full hfull]
      exact hblock
    · rw [places_completeTree]
      rw [Nat.mul_succ] at hlt
      exact List.mem_map_of_mem (List.mem_range'_1.mpr (by omega))

/-- A proof that a leaf belongs to the root of a range. -/
def Commits (G : Global) (mmrSize : ℕ) (mmrRoot : Hash) (j : ℕ) (hash : Hash) : Prop :=
  ∃ proof : SegmentProof, proof.validate G mmrSize (PostOrder.leafPos j) (PostOrder.leafPos j)
    hash (PostOrder.leafPos j + 1) mmrRoot = true

theorem commits_iff {mmrRoot : Hash} {j : ℕ} {hash : Hash} :
    Commits G mmrSize mmrRoot j hash ↔
      ∃ siblings, climb (combine G)
        (SegmentProof.steps mmrSize (PostOrder.leafPos j) (PostOrder.leafPos j)
          (PostOrder.leafPos j + 1)) hash siblings = some (mmrRoot, []) := by
  constructor
  · rintro ⟨proof, hproof⟩
    rw [SegmentProof.validate, beq_iff_eq, SegmentProof.reconstructRoot_eq_some_iff] at hproof
    exact ⟨proof.hashes, hproof⟩
  · rintro ⟨siblings, hclimb⟩
    refine ⟨⟨siblings⟩, ?_⟩
    rw [SegmentProof.validate, beq_iff_eq, SegmentProof.reconstructRoot_eq_some_iff]
    exact hclimb

/-- **A root commits to one leaf** in each place. -/
theorem Commits.unique (hG : G.InjectiveWithIndex) {mmrRoot : Hash} {j : ℕ} {hash hash' : Hash}
    (h : Commits G mmrSize mmrRoot j hash) (h' : Commits G mmrSize mmrRoot j hash') :
    hash = hash' := by
  obtain ⟨siblings, hclimb⟩ := commits_iff.mp h
  obtain ⟨siblings', hclimb'⟩ := commits_iff.mp h'
  exact (climb_injective (binding_combine hG) hclimb hclimb').1

/-- **An accepted segment supplies the leaves that the root commits to.** -/
theorem commits_of_validate (hid : s.id.Block h i) (hs : s.Deserialized)
    (hbits : mmrSize < 2 ^ 64) {mmrRoot : Hash}
    (hvalid : s.validate G serialized mmrSize mmrRoot none = true) {j : ℕ} (hle : 2 ^ h * i ≤ j)
    (hlt : j < 2 ^ h * (i + 1)) (hj : j < countLeaves mmrSize) :
    ∃ leaf, s.getLeafAt (PostOrder.leafPos j) = some leaf ∧
      Commits G mmrSize mmrRoot j
        (hashLeafWithIndex G (serialized leaf) (PostOrder.leafPos j)) := by
  rw [validate, firstUnprunedParent] at hvalid
  rcases hroot : s.root G serialized mmrSize none with _ | hash
  · rw [hroot] at hvalid
    cases hvalid
  · rw [hroot] at hvalid
    dsimp only at hvalid
    rw [SegmentProof.validate, beq_iff_eq, SegmentProof.reconstructRoot_eq_some_iff] at hvalid
    obtain ⟨whole, part, hcovers⟩ := exists_covers hid hs hbits hle hlt hj hroot
    obtain ⟨leaf, hleaf⟩ := hcovers.supplies _ hcovers.mem
    rw [hcovers.hash_eq] at hvalid
    obtain ⟨siblings, hclimb⟩ := exists_climb_leaf hcovers.nodup hcovers.sub hcovers.mem
      hcovers.sub_leaf hvalid
    rw [leafHash_of_getLeafAt hleaf] at hclimb
    exact ⟨leaf, hleaf, commits_iff.mpr ⟨siblings, hclimb⟩⟩

end Segment

/-! ### The root of a range -/

section Range

variable {G : Global} {file : List Hash} {leaves : List (List UInt8)}

/-- The entries of a file of hashes. -/
def entryAt (file : List Hash) (position : ℕ) : Hash :=
  file.getD position Hash.zero

/-- **An entry of a range** is the root of the tree below it. -/
theorem getElem?_nodePos (hfile : IsRangeOf G file leaves) {h j : ℕ}
    (hle : 2 ^ h * (j + 1) ≤ leaves.length) :
    file[nodePos h j]? = some (Merkle.root (combine G) (entryAt file) (completeTree h j)) := by
  have hlt := nodePos_lt_leafPos_iff.mpr hle
  rw [← hfile.length_eq] at hlt
  induction h generalizing j with
  | zero =>
    rw [completeTree, Merkle.root, entryAt, List.getD_eq_getElem?_getD,
      List.getElem?_eq_getElem hlt, Option.getD_some]
  | succ h ih =>
    have hpos : 0 < 2 ^ h := Nat.two_pow_pos h
    have hl := nodePos_left h j
    have hr := nodePos_right h j
    have hleft : 2 ^ h * (2 * j + 1) ≤ leaves.length := by
      rw [pow_succ, Nat.mul_assoc, show 2 * (j + 1) = 2 * j + 1 + 1 by omega, Nat.mul_succ] at hle
      omega
    have hright : 2 ^ h * (2 * j + 1 + 1) ≤ leaves.length := by
      rwa [pow_succ, Nat.mul_assoc, show 2 * (j + 1) = 2 * j + 1 + 1 by omega] at hle
    have hparent := hfile.parent (nodePos (h + 1) j) h hlt (height_nodePos _ _)
      (Merkle.root (combine G) (entryAt file) (completeTree h (2 * j)))
      (Merkle.root (combine G) (entryAt file) (completeTree h (2 * j + 1)))
    rw [← hl, Nat.add_sub_cancel] at hparent
    rw [hl, ← hr, Nat.add_sub_cancel, hr] at hparent
    exact hparent (ih hleft (by omega)) (ih hright (by omega))

/-- No entry is empty. -/
theorem root_completeTree_ne_zero (hz : G.NonzeroWithIndex) (hfile : IsRangeOf G file leaves)
    {h j : ℕ} (hle : 2 ^ h * (j + 1) ≤ leaves.length) :
    Merkle.root (combine G) (entryAt file) (completeTree h j) ≠ Hash.zero := by
  cases h with
  | zero =>
    rw [pow_zero, Nat.one_mul] at hle
    have hleaf := hfile.leaf j _ (List.getElem?_eq_getElem hle)
    rw [completeTree, Merkle.root, entryAt, nodePos_zero, List.getD_eq_getElem?_getD, hleaf]
    exact hz.leaf _ _
  | succ h => exact hz.parent _ _ _

/-- Bagging the peaks of a range gives the root of its bag. -/
theorem bag_eq_root (hz : G.NonzeroWithIndex) {size : ℕ} {val : ℕ → Hash} {q : ℕ × ℕ}
    {qs : List (ℕ × ℕ)}
    (hne : ∀ p ∈ q :: qs, Merkle.root (combine G) val (completeTree p.1 p.2) ≠ Hash.zero) :
    bag (nodeHash G) Hash.zero size
        ((q :: qs).map fun p => Merkle.root (combine G) val (completeTree p.1 p.2)) =
      Merkle.root (combine G) val (bagTree size q qs) ∧
      Merkle.root (combine G) val (bagTree size q qs) ≠ Hash.zero := by
  induction qs generalizing q with
  | nil =>
    have hq := hne q (List.mem_cons_self ..)
    rw [List.map_singleton, bag, if_neg hq, bag, if_pos rfl]
    exact ⟨rfl, hq⟩
  | cons q' qs ih =>
    have hq := hne q (List.mem_cons_self ..)
    obtain ⟨hbag, hroot⟩ := ih fun p hp => hne p (List.mem_cons_of_mem _ hp)
    rw [List.map_cons, bag, if_neg hq, hbag, if_neg hroot]
    exact ⟨rfl, hz.parent _ _ _⟩

/-- **The root of a range** is the root of its hash tree. -/
theorem root_eq_root_rangeTree (hz : G.NonzeroWithIndex) (hfile : IsRangeOf G file leaves)
    (hpos : 0 < leaves.length) :
    MMRHashUtil.root G file (leafPos leaves.length) none =
      .ok (Merkle.root (combine G) (entryAt file) (rangeTree leaves.length)) := by
  have hrun := consecutive_rangePeaks leaves.length
  have hhashes : peakHashes file none (getPeakIndices (leafPos leaves.length)) =
      .ok ((rangePeaks leaves.length).map fun q =>
        Merkle.root (combine G) (entryAt file) (completeTree q.1 q.2)) := by
    rw [peakHashes_eq_ok, getPeakIndices_eq, List.forall₂_map_left_iff, List.forall₂_map_right_iff,
      List.forall₂_same]
    exact fun q hq => getElem?_nodePos hfile (hrun.mem hq).2
  have hsize : leafPos leaves.length ≠ 0 := by
    have := le_leafPos leaves.length
    omega
  rw [MMRHashUtil.root, if_neg hsize, hhashes]
  rcases hpeaks : rangePeaks leaves.length with _ | ⟨q, qs⟩
  · rw [hpeaks] at hrun
    exact absurd hrun hpos.ne
  · rw [hpeaks] at hrun
    rw [rangeTree, hpeaks]
    exact congrArg Except.ok (bag_eq_root hz fun p hp =>
      root_completeTree_ne_zero hz hfile (hrun.mem hp).2).1

/-- **A range whose leaves a root commits to has that root.** -/
theorem root_of_commits (hG : G.InjectiveWithIndex) (hz : G.NonzeroWithIndex)
    (hfile : IsRangeOf G file leaves) (hpos : 0 < leaves.length) {r : Hash}
    (hcommits : ∀ j leaf, leaves[j]? = some leaf →
      Segment.Commits G (leafPos leaves.length) r j (hashLeafWithIndex G leaf (leafPos j))) :
    MMRHashUtil.root G file (leafPos leaves.length) none = .ok r := by
  rw [root_eq_root_rangeTree hz hfile hpos]
  refine congrArg Except.ok (root_eq_of_cover (binding_combine hG)
    (nodup_places_rangeTree hpos) fun place hplace => ?_)
  rw [places_rangeTree hpos] at hplace
  obtain ⟨j, hj, rfl⟩ := List.mem_map.mp hplace
  have hlt := List.mem_range.mp hj
  have hleaf := List.getElem?_eq_getElem hlt
  obtain ⟨siblings, hclimb⟩ := Segment.commits_iff.mp (hcommits j _ hleaf)
  have hsub : Sub (rangeTree leaves.length) (SegmentProof.steps (leafPos leaves.length)
      (leafPos (2 ^ 0 * j)) (nodePos 0 j) (leafPos j + 1)) (completeTree 0 j) :=
    SegmentProof.sub_of_node (by omega) (by rw [nodePos_zero])
  rw [pow_zero, Nat.one_mul, nodePos_zero, completeTree, nodePos_zero] at hsub
  refine ⟨_, List.mem_cons_self .., _, siblings, hsub, ?_⟩
  rw [Merkle.root, entryAt, List.getD_eq_getElem?_getD, hfile.leaf j _ hleaf]
  exact hclimb

end Range

end GrinPlusPlus
