import GrinPlusPlus.Pmmr.Desegmenter
import GrinPlusPlus.Pmmr.SegmentTree

/-!
# Segments of one type

The part of `TxHashSetDesegmenter` that is written once and used for outputs, range proofs and
kernels: which segments to ask for, and how those that have arrived are handed to the callback.

How far a type is, is recovered from the size of what was applied. After `j` segments that is the
size over `j * 2 ^ h` leaves, or the size that is aimed at if this is less; and from it the next
index is `j` again (`GrinPlusPlus.TxHashSetDesegmenter.nextRequiredSegmentIndex_full`). The
exception is **a partial last segment**: once it is applied, the next index is the one of that
segment, still (`GrinPlusPlus.TxHashSetDesegmenter.nextRequiredSegmentIndex_short`). Asking for
segments looks whether a segment is applied, handing them over does not; so such a segment must
not be in the cache then (`GrinPlusPlus.TxHashSetDesegmenter.Lane.At.spent`).
-/

namespace GrinPlusPlus

open PostOrder MMRUtil

namespace PIBD

/-- `MAX_CACHED_SEGMENTS`. -/
def maxCachedSegments : ℕ := 30

/-- `SEGMENT_APPLY_BATCH_SIZE`. -/
def segmentApplyBatchSize : ℕ := 12

end PIBD

namespace TxHashSetDesegmenter

open SegmentIdentifier

/-! ### What is applied -/

/-- `TxHashSetDesegmenter::IsSegmentApplied`. -/
def isSegmentApplied (identifier : SegmentIdentifier) (targetMMRSize appliedMMRSize : ℕ) : Bool :=
  if appliedMMRSize = 0 ∨ identifier.getSegmentUnprunedSize targetMMRSize = 0 then false
  else decide ((identifier.getPositionRange targetMMRSize).2 < appliedMMRSize)

/-- `TxHashSetDesegmenter::AppliedMMRSizeAfterSegment`. -/
def appliedMMRSizeAfterSegment (identifier : SegmentIdentifier) (targetMMRSize : ℕ) : ℕ :=
  min (getPMMRSize (identifier.index.toNat + 1) identifier.height.toNat) targetMMRSize

section Sizes

variable {n h i j m : ℕ} {id : SegmentIdentifier}

/-- A segment is required when there is a leaf at its start. -/
theorem lt_countSegmentsRequired_iff (hn : n < 2 ^ 63) :
    i < countSegmentsRequired (leafPos n) h ↔ i * 2 ^ h < n := by
  have hpos : 0 < 2 ^ h := Nat.two_pow_pos h
  rw [countSegmentsRequired, countLeaves_leafPos hn, Nat.lt_iff_add_one_le,
    Nat.le_div_iff_mul_le hpos, Nat.add_one_mul]
  omega

/-- **The next index** after full segments only is their number. -/
theorem nextRequiredSegmentIndex_full (hh : 1 ≤ h) (hj : j * 2 ^ h < 2 ^ 63) :
    nextRequiredSegmentIndex (leafPos (j * 2 ^ h)) h = j := by
  have htwo : 2 ^ 1 ≤ 2 ^ h := Nat.pow_le_pow_right (by decide) hh
  rw [nextRequiredSegmentIndex]
  rcases Nat.eq_zero_or_pos j with rfl | hpos
  · rw [Nat.zero_mul, if_pos (.inl rfl)]
  · have hle : 1 * 2 ^ h ≤ j * 2 ^ h := Nat.mul_le_mul_right _ hpos
    have hsize := le_leafPos (j * 2 ^ h)
    have hcount : countSegmentsRequired (leafPos (j * 2 ^ h)) h = j := by
      refine Nat.le_antisymm (Nat.le_of_not_lt fun hlt => ?_) ?_
      · rw [lt_countSegmentsRequired_iff hj] at hlt
        exact absurd hlt (Nat.lt_irrefl _)
      · have hlast := (lt_countSegmentsRequired_iff (i := j - 1) (h := h) hj).2
          (Nat.mul_lt_mul_of_pos_right (by omega) (by omega))
        omega
    rw [if_neg (by omega), hcount]
    dsimp only
    rw [getPMMRSize, if_neg hpos.ne', leafPosition, if_neg (by omega)]

/-- **The next index** after a partial last segment is its own. -/
theorem nextRequiredSegmentIndex_short (hn : n < 2 ^ 63) (hj : j * 2 ^ h < n)
    (hlast : n < (j + 1) * 2 ^ h) : nextRequiredSegmentIndex (leafPos n) h = j := by
  rw [nextRequiredSegmentIndex]
  rcases Nat.lt_or_ge n 2 with hsmall | hge
  · obtain rfl : n = 1 := by omega
    have hpos : 0 < 2 ^ h := Nat.two_pow_pos h
    have hzero : j = 0 := by
      by_contra hne
      have : 1 * 2 ^ h ≤ j * 2 ^ h := Nat.mul_le_mul_right _ (Nat.one_le_iff_ne_zero.2 hne)
      omega
    rw [if_pos (.inr rfl), hzero]
  · have hsize := le_leafPos n
    have hcount : countSegmentsRequired (leafPos n) h = j + 1 := by
      refine Nat.le_antisymm (Nat.le_of_not_lt fun hlt => ?_) ?_
      · rw [lt_countSegmentsRequired_iff hn] at hlt
        omega
      · exact (lt_countSegmentsRequired_iff hn).2 hj
    rw [if_neg (by omega), hcount]
    dsimp only
    rw [getPMMRSize, if_neg (Nat.succ_ne_zero j), leafPosition,
      if_pos ⟨Nat.succ_pos j, leafPos_strictMono hlast⟩, Nat.add_sub_cancel]

/-- The offset of a required segment does not overflow. -/
theorem getLeafOffset_eq (hn : n < 2 ^ 63) (hheight : id.height.toNat = h)
    (hid : id.index.toNat * 2 ^ h < n) : id.getLeafOffset = id.index.toNat * 2 ^ h := by
  rw [getLeafOffset, getSegmentCapacity, hheight, Nat.mod_eq_of_lt (by omega)]

theorem getSegmentUnprunedSize_eq (hn : n < 2 ^ 63) (hheight : id.height.toNat = h)
    (hid : id.index.toNat * 2 ^ h < n) :
    id.getSegmentUnprunedSize (leafPos n) = min (2 ^ h) (n - id.index.toNat * 2 ^ h) := by
  rw [getSegmentUnprunedSize, countLeaves_leafPos hn, getLeafOffset_eq hn hheight hid,
    if_neg (by omega), getSegmentCapacity, hheight]

/-- **A segment is applied** when its last leaf is. -/
theorem isSegmentApplied_iff (hn : n < 2 ^ 63) (hheight : id.height.toNat = h)
    (hid : id.index.toNat * 2 ^ h < n) (hm : m ≤ n) :
    isSegmentApplied id (leafPos n) (leafPos m) = true ↔
      min ((id.index.toNat + 1) * 2 ^ h) n ≤ m := by
  have hpos : 0 < 2 ^ h := Nat.two_pow_pos h
  have hunpruned := getSegmentUnprunedSize_eq hn hheight hid
  have hnext : (id.index.toNat + 1) * 2 ^ h = id.index.toNat * 2 ^ h + 2 ^ h :=
    Nat.add_one_mul _ _
  rw [isSegmentApplied]
  rcases Nat.eq_zero_or_pos m with rfl | hmpos
  · rw [if_pos (.inl rfl)]
    simp only [Bool.false_eq_true, false_iff]
    omega
  · have hsize := le_leafPos m
    rw [if_neg (by rw [hunpruned]; omega), decide_eq_true_eq, getPositionRange, hunpruned]
    dsimp only
    rw [if_neg (by omega), getLeafOffset_eq hn hheight hid, getSegmentCapacity, hheight]
    split_ifs with hfull
    · -- a full segment ends with the root over its leaves
      have hroot := nodePos_eq_last_leafPos_add h id.index.toNat
      have hcomm : 2 ^ h * (id.index.toNat + 1) = id.index.toNat * 2 ^ h + 2 ^ h := by
        rw [Nat.mul_comm, hnext]
      have hblock := nodePos_lt_leafPos_iff (h := h) (j := id.index.toNat) (n := m)
      rw [hcomm] at hroot hblock
      dsimp only
      rw [hfull, leafPosition, ← hroot, hblock]
      omega
    · have hmono := leafPos_strictMono.lt_iff_lt (a := m) (b := n)
      have hnsize := le_leafPos n
      dsimp only
      omega

/-- The size after a segment. -/
theorem appliedMMRSizeAfterSegment_eq (hheight : id.height.toNat = h) :
    appliedMMRSizeAfterSegment id (leafPos n) =
      leafPos (min ((id.index.toNat + 1) * 2 ^ h) n) := by
  rw [appliedMMRSizeAfterSegment, getPMMRSize, if_neg (Nat.succ_ne_zero _), leafPosition, hheight,
    leafPos_strictMono.monotone.map_min]

end Sizes

/-! ### Asking for segments -/

/-- `SegmentTypeIdentifier`. -/
abbrev SegmentTypeIdentifier := SegmentType × SegmentIdentifier

variable {α : Type}

/-- `TxHashSetDesegmenter::HasSegment`. -/
def hasSegment (cache : List (Segment α)) (identifier : SegmentIdentifier) : Bool :=
  cache.any fun segment => segment.id = identifier

/-- The segment of a type with a height. -/
def segmentAt (height index : ℕ) : SegmentIdentifier :=
  ⟨UInt8.ofNat height, UInt64.ofNat index⟩

/-- The loop of `TxHashSetDesegmenter::AppendDesiredSegments`, over the indices that are left. -/
def desiredFrom (maxElements : ℕ) (type : SegmentType) (targetMMRSize height localMMRSize : ℕ)
    (cache : List (Segment α)) :
    ℕ → ℕ → List SegmentTypeIdentifier → List SegmentTypeIdentifier
  | 0, _, desired => desired
  | left + 1, nextIndex, desired =>
    if desired.length < maxElements then
      let identifier := segmentAt height nextIndex
      if !isSegmentApplied identifier targetMMRSize localMMRSize &&
          !hasSegment cache identifier then
        let desired := desired ++ [(type, identifier)]
        if PIBD.maxCachedSegments ≤ cache.length then desired
        else desiredFrom maxElements type targetMMRSize height localMMRSize cache left
          (nextIndex + 1) desired
      else desiredFrom maxElements type targetMMRSize height localMMRSize cache left
        (nextIndex + 1) desired
    else desired

/-- `TxHashSetDesegmenter::AppendDesiredSegments`. -/
def appendDesiredSegments (desired : List SegmentTypeIdentifier) (maxElements : ℕ)
    (type : SegmentType) (targetMMRSize height localMMRSize : ℕ) (cache : List (Segment α)) :
    List SegmentTypeIdentifier :=
  let totalSegments := countSegmentsRequired targetMMRSize height
  let nextIndex := nextRequiredSegmentIndex localMMRSize height
  desiredFrom maxElements type targetMMRSize height localMMRSize cache
    (totalSegments - nextIndex) nextIndex desired

section Desired

variable {maxElements target height size : ℕ} {type : SegmentType} {cache : List (Segment α)}

/-- **What is asked for** is neither applied nor cached, and the indices go up. -/
theorem desiredFrom_spec (maxElements target height size : ℕ) (type : SegmentType)
    (cache : List (Segment α)) {left nextIndex : ℕ} (hbound : nextIndex + left ≤ 2 ^ 64)
    (desired : List SegmentTypeIdentifier) :
    ∃ more, desiredFrom maxElements type target height size cache left nextIndex desired =
        desired ++ more ∧
      (∀ x ∈ more, x.1 = type ∧ isSegmentApplied x.2 target size = false ∧
        hasSegment cache x.2 = false ∧ nextIndex ≤ x.2.index.toNat) ∧
      more.Pairwise fun x y => x.2.index.toNat < y.2.index.toNat := by
  induction left generalizing nextIndex desired with
  | zero => exact ⟨[], (List.append_nil _).symm, by simp, List.Pairwise.nil⟩
  | succ left ih =>
    have hindex : (segmentAt height nextIndex).index.toNat = nextIndex :=
      UInt64.toNat_ofNat_of_lt' (lt_of_lt_of_le (by omega) hbound)
    have hbound' : nextIndex + 1 + left ≤ 2 ^ 64 := by omega
    rw [desiredFrom]
    dsimp only
    split_ifs with hroom hneeded hfull
    · rw [Bool.and_eq_true, Bool.not_eq_true', Bool.not_eq_true'] at hneeded
      refine ⟨[(type, segmentAt height nextIndex)], rfl, ?_, List.pairwise_singleton _ _⟩
      simp [hneeded, hindex]
    · rw [Bool.and_eq_true, Bool.not_eq_true', Bool.not_eq_true'] at hneeded
      obtain ⟨more, heq, hmore, hascend⟩ :=
        ih hbound' (desired ++ [(type, segmentAt height nextIndex)])
      refine ⟨(type, segmentAt height nextIndex) :: more, ?_, ?_, ?_⟩
      · rw [heq, List.append_assoc, List.singleton_append]
      · simp only [List.mem_cons, forall_eq_or_imp]
        refine ⟨⟨trivial, hneeded.1, hneeded.2, hindex.ge⟩, fun x hx => ?_⟩
        obtain ⟨h1, h2, h3, h4⟩ := hmore x hx
        exact ⟨h1, h2, h3, by omega⟩
      · refine List.pairwise_cons.2 ⟨fun x hx => ?_, hascend⟩
        have := (hmore x hx).2.2.2
        rw [hindex]
        omega
    · obtain ⟨more, heq, hmore, hascend⟩ := ih hbound' desired
      refine ⟨more, heq, fun x hx => ?_, hascend⟩
      obtain ⟨h1, h2, h3, h4⟩ := hmore x hx
      exact ⟨h1, h2, h3, by omega⟩
    · exact ⟨[], (List.append_nil _).symm, by simp, List.Pairwise.nil⟩

/-- The number of segments is one of 64 bits. -/
theorem countSegmentsRequired_le (target height : ℕ) :
    countSegmentsRequired target height ≤ 2 ^ 64 := by
  have hpos : 0 < 2 ^ height := Nat.two_pow_pos height
  have hleaves : countLeaves target < 2 ^ 63 := by
    rw [countLeaves]
    split
    · norm_num
    · exact Nat.mod_lt _ (by norm_num)
  rw [countSegmentsRequired]
  refine Nat.div_le_of_le_mul ?_
  have : 2 ^ height * 1 ≤ 2 ^ height * 2 ^ 63 := Nat.mul_le_mul_left _ (by norm_num)
  have : 1 * 2 ^ 63 ≤ 2 ^ height * 2 ^ 63 := Nat.mul_le_mul_right _ hpos
  omega

theorem appendDesiredSegments_spec :
    (∀ x ∈ appendDesiredSegments [] maxElements type target height size cache,
      x.1 = type ∧ isSegmentApplied x.2 target size = false ∧ hasSegment cache x.2 = false) ∧
    (appendDesiredSegments [] maxElements type target height size cache).Nodup := by
  have hbound := countSegmentsRequired_le target height
  rw [appendDesiredSegments]
  rcases Nat.le_total (countSegmentsRequired target height)
      (nextRequiredSegmentIndex size height) with hle | hle
  · rw [Nat.sub_eq_zero_of_le hle, desiredFrom]
    exact ⟨by simp, List.nodup_nil⟩
  · obtain ⟨more, heq, hmore, hascend⟩ := desiredFrom_spec maxElements target height size type cache
      (Nat.add_sub_of_le hle ▸ hbound) []
    rw [heq, List.nil_append]
    refine ⟨fun x hx => ?_, hascend.imp fun {x y} hlt heq => ?_⟩
    · obtain ⟨h1, h2, h3, -⟩ := hmore x hx
      exact ⟨h1, h2, h3⟩
    · rw [heq] at hlt
      exact hlt.false

/-- **The next index comes first**, unless it is in the cache. -/
theorem getElem?_appendDesiredSegments (hmax : 0 < maxElements)
    (hlt : nextRequiredSegmentIndex size height < countSegmentsRequired target height)
    (happlied : isSegmentApplied (segmentAt height (nextRequiredSegmentIndex size height))
      target size = false)
    (hcached : hasSegment cache (segmentAt height (nextRequiredSegmentIndex size height)) =
      false) :
    (appendDesiredSegments [] maxElements type target height size cache)[0]? =
      some (type, segmentAt height (nextRequiredSegmentIndex size height)) := by
  have hbound := countSegmentsRequired_le target height
  obtain ⟨left, hleft⟩ : ∃ left, countSegmentsRequired target height -
      nextRequiredSegmentIndex size height = left + 1 := Nat.exists_eq_add_one.2 (by omega)
  rw [appendDesiredSegments, hleft, desiredFrom, if_pos (by simpa using hmax)]
  dsimp only
  rw [if_pos (by simp [happlied, hcached])]
  split_ifs
  · rfl
  · obtain ⟨more, heq, -⟩ := desiredFrom_spec maxElements target height size type cache
      (show nextRequiredSegmentIndex size height + 1 + left ≤ 2 ^ 64 by omega)
      ([] ++ [(type, segmentAt height (nextRequiredSegmentIndex size height))])
    rw [heq]
    rfl

end Desired

/-! ### Handing segments over -/

/-- The segments of a type: those in the cache, the size that is applied, and those that the
callback was given so far, in this order. -/
structure Lane (α : Type) where
  /-- `m_outputSegments` and the others. -/
  cache : List (Segment α)
  /-- `m_appliedOutputMMRSize` and the others. -/
  appliedMMRSize : ℕ
  /-- What the callback was given. -/
  handed : List (Segment α)

namespace Lane

/-- The loop of `TxHashSetDesegmenter::ApplyReadySegmentBatch`. -/
def applyReadyFrom (targetMMRSize : ℕ) (applySegment : Segment α → ℕ → Bool) :
    ℕ → ℕ → ℕ → Lane α → Option ℕ × Lane α
  | 0, _, appliedCount, lane => (some appliedCount, lane)
  | passes + 1, nextIndex, appliedCount, lane =>
    match lane.cache.find? fun segment => segment.id.index.toNat = nextIndex with
    | none => (some appliedCount, lane)
    | some segment =>
      if applySegment segment targetMMRSize then
        applyReadyFrom targetMMRSize applySegment passes (nextIndex + 1) (appliedCount + 1)
          { cache := lane.cache.eraseP fun segment => segment.id.index.toNat = nextIndex
            appliedMMRSize := appliedMMRSizeAfterSegment segment.id targetMMRSize
            handed := lane.handed ++ [segment] }
      else (none, { lane with handed := lane.handed ++ [segment] })

/-- `TxHashSetDesegmenter::ApplyReadySegmentBatch`. -/
def applyReadySegmentBatch (height targetMMRSize : ℕ) (applySegment : Segment α → ℕ → Bool)
    (lane : Lane α) : Option ℕ × Lane α :=
  applyReadyFrom targetMMRSize applySegment PIBD.segmentApplyBatchSize
    (nextRequiredSegmentIndex lane.appliedMMRSize height) 0 lane

/-- **A lane after `j` segments**, to which the segments `added` have come so far: the callback was
given the segments `0, …, j - 1` in this order, the others that came are in the cache. -/
structure At (n h : ℕ) (added : Set ℕ) (j : ℕ) (lane : Lane α) : Prop where
  /-- The segments were required. -/
  required : ∀ i < j, i * 2 ^ h < n
  applied : lane.appliedMMRSize = leafPos (min (j * 2 ^ h) n)
  handed : lane.handed.map (fun segment => segment.id.index.toNat) = List.range j
  standard : ∀ segment ∈ lane.cache,
    segment.id.height.toNat = h ∧ segment.id.index.toNat * 2 ^ h < n
  nodup : (lane.cache.map fun segment => segment.id.index.toNat).Nodup
  /-- Nothing gets lost. -/
  kept : ∀ i ∈ added, i < j ∨ ∃ segment ∈ lane.cache, segment.id.index.toNat = i
  /-- A partial last segment is not in the cache again. -/
  spent : n < j * 2 ^ h → ∀ segment ∈ lane.cache, segment.id.index.toNat + 1 ≠ j

variable {n h j : ℕ} {added : Set ℕ} {lane : Lane α} {segment : Segment α}

/-- What is taken out of the cache is out of it. -/
theorem ne_of_mem_eraseP {cache : List (Segment α)} {i : ℕ}
    (hnodup : (cache.map fun segment => segment.id.index.toNat).Nodup)
    (hmem : segment ∈ cache.eraseP fun segment => segment.id.index.toNat = i) :
    segment.id.index.toNat ≠ i := by
  induction cache with
  | nil => exact absurd hmem List.not_mem_nil
  | cons first rest ih =>
    rw [List.map_cons, List.nodup_cons] at hnodup
    by_cases hfirst : first.id.index.toNat = i
    · rw [List.eraseP_cons_of_pos (by simpa using hfirst)] at hmem
      rintro rfl
      exact hnodup.1 (hfirst ▸ List.mem_map_of_mem hmem)
    · rw [List.eraseP_cons_of_neg (by simpa using hfirst)] at hmem
      rcases List.mem_cons.1 hmem with rfl | hrest
      · exact hfirst
      · exact ih hnodup.2 hrest

/-- **The next segment is handed over.** -/
theorem At.step (hlane : At n h added j lane)
    (hfind : (lane.cache.find? fun segment => segment.id.index.toNat = j) = some segment) :
    At n h added (j + 1)
      { cache := lane.cache.eraseP fun segment => segment.id.index.toNat = j
        appliedMMRSize := appliedMMRSizeAfterSegment segment.id (leafPos n)
        handed := lane.handed ++ [segment] } := by
  have hmem := List.mem_of_find?_eq_some hfind
  have hindex : segment.id.index.toNat = j := by simpa using List.find?_some hfind
  obtain ⟨hheight, hrequired⟩ := hlane.standard segment hmem
  have hsub : ∀ s ∈ lane.cache.eraseP fun segment => segment.id.index.toNat = j,
      s ∈ lane.cache := fun s hs => List.mem_of_mem_eraseP hs
  refine ⟨Nat.forall_lt_succ_right.2 ⟨hlane.required, hindex ▸ hrequired⟩, ?_, ?_,
    fun s hs => hlane.standard s (hsub s hs), ?_, fun i hi => ?_, fun _ s hs => ?_⟩
  · rw [appliedMMRSizeAfterSegment_eq hheight, hindex]
  · rw [List.map_append, hlane.handed, List.range_succ, List.map_singleton, hindex]
  · exact hlane.nodup.sublist (List.eraseP_sublist.map _)
  · rcases hlane.kept i hi with hlt | ⟨s, hs, rfl⟩
    · exact .inl (by omega)
    · by_cases hsame : s.id.index.toNat = j
      · exact .inl (by omega)
      · exact .inr ⟨s, (List.mem_eraseP_of_neg (by simpa using hsame)).2 hs, rfl⟩
  · have := ne_of_mem_eraseP hlane.nodup hs
    omega

/-- **The loop** hands over what is there, and all that is left when everything has come. -/
theorem At.applyReadyFrom {passes : ℕ} (count : ℕ) (hlane : At n h added j lane) :
    ∃ j' ≥ j, (∃ count', (applyReadyFrom (leafPos n) (fun _ _ => true) passes j count lane).1 =
        some count') ∧
      At n h added j' (applyReadyFrom (leafPos n) (fun _ _ => true) passes j count lane).2 ∧
      ((∀ i, i * 2 ^ h < n → i ∈ added) → j + passes ≤ j' ∨ n ≤ j' * 2 ^ h) := by
  induction passes generalizing j count lane with
  | zero => exact ⟨j, le_rfl, ⟨count, rfl⟩, hlane, fun _ => .inl le_rfl⟩
  | succ passes ih =>
    rw [Lane.applyReadyFrom]
    split
    · next hnone =>
      refine ⟨j, le_rfl, ⟨count, rfl⟩, hlane, fun hall => .inr ?_⟩
      -- a segment that is still required would be in the cache
      by_contra hlt
      rcases hlane.kept j (hall j (by omega)) with hlt | ⟨s, hs, hindex⟩
      · exact hlt.false
      · exact List.find?_eq_none.1 hnone s hs (by simpa using hindex)
    · next segment hfind =>
      rw [if_pos rfl]
      obtain ⟨j', hle, hcount, hlane', hall⟩ := ih (count + 1) (hlane.step hfind)
      refine ⟨j', by omega, hcount, hlane', fun hadded => ?_⟩
      rcases hall hadded with hpasses | hdone
      · exact .inl (by omega)
      · exact .inr hdone

variable (hn : n < 2 ^ 63) (hh : 1 ≤ h)

include hn hh in
/-- **One batch.** Behind a partial last segment the loop looks for that segment, and does not
find it. -/
theorem At.applyReadySegmentBatch (hlane : At n h added j lane) :
    ∃ j' ≥ j, (∃ count, (lane.applyReadySegmentBatch h (leafPos n) fun _ _ => true).1 =
        some count) ∧
      At n h added j' (lane.applyReadySegmentBatch h (leafPos n) fun _ _ => true).2 ∧
      ((∀ i, i * 2 ^ h < n → i ∈ added) →
        j + PIBD.segmentApplyBatchSize ≤ j' ∨ n ≤ j' * 2 ^ h) := by
  rw [Lane.applyReadySegmentBatch, hlane.applied]
  rcases Nat.lt_or_ge n (j * 2 ^ h) with hpast | hfull
  · have hj : 0 < j := by
      by_contra hzero
      obtain rfl : j = 0 := by omega
      omega
    have hsucc : j - 1 + 1 = j := Nat.sub_add_cancel hj
    have hnext : nextRequiredSegmentIndex (leafPos n) h = j - 1 :=
      nextRequiredSegmentIndex_short hn (hlane.required (j - 1) (by omega)) (by rwa [hsucc])
    have hnone : (lane.cache.find? fun segment => segment.id.index.toNat = j - 1) = none := by
      refine List.find?_eq_none.2 fun segment hmem hindex => hlane.spent hpast segment hmem ?_
      rw [decide_eq_true_eq] at hindex
      omega
    rw [min_eq_right hpast.le, hnext]
    have hloop : Lane.applyReadyFrom (leafPos n) (fun _ _ => true) PIBD.segmentApplyBatchSize
        (j - 1) 0 lane = (some 0, lane) := by
      rw [PIBD.segmentApplyBatchSize, Lane.applyReadyFrom, hnone]
    rw [hloop]
    exact ⟨j, le_rfl, ⟨0, rfl⟩, hlane, fun _ => .inr hpast.le⟩
  · rw [min_eq_left hfull, nextRequiredSegmentIndex_full hh (by omega)]
    exact hlane.applyReadyFrom 0

/-- **A segment comes.** -/
theorem At.cacheSegment (hlane : At n h added j lane) (hheight : segment.id.height.toNat = h)
    (hrequired : segment.id.index.toNat * 2 ^ h < n)
    (hfresh : n < j * 2 ^ h → segment.id.index.toNat + 1 ≠ j) :
    At n h (insert segment.id.index.toNat added) j
      { lane with cache := cacheSegment lane.cache segment } := by
  rcases hfind : lane.cache.find? fun cached => cached.id = segment.id with _ | cached
  · have hcache : TxHashSetDesegmenter.cacheSegment lane.cache segment =
        lane.cache ++ [segment] := by
      rw [TxHashSetDesegmenter.cacheSegment, hfind]
    rw [hcache]
    have hnew : ∀ s ∈ lane.cache, s.id.index.toNat ≠ segment.id.index.toNat := by
      intro s hs hindex
      refine List.find?_eq_none.1 hfind s hs ?_
      rw [decide_eq_true_eq, SegmentIdentifier.mk.injEq]
      exact ⟨UInt8.toNat_inj.1 ((hlane.standard s hs).1.trans hheight.symm),
        UInt64.toNat_inj.1 hindex⟩
    refine ⟨hlane.required, hlane.applied, hlane.handed, fun s hs => ?_, ?_, ?_,
      fun hpast s hs => ?_⟩
    · rcases List.mem_append.1 hs with hold | hlast
      · exact hlane.standard s hold
      · rw [List.mem_singleton.1 hlast]
        exact ⟨hheight, hrequired⟩
    · rw [List.map_append, List.map_singleton, List.nodup_append]
      refine ⟨hlane.nodup, List.nodup_singleton _, fun a ha b hb => ?_⟩
      obtain ⟨s, hs, rfl⟩ := List.mem_map.1 ha
      rw [List.mem_singleton.1 hb]
      exact hnew s hs
    · rintro i (rfl | hi)
      · exact .inr ⟨segment, List.mem_append_right _ (List.mem_singleton_self segment), rfl⟩
      · exact (hlane.kept i hi).imp_right fun ⟨s, hs, hindex⟩ =>
          ⟨s, List.mem_append_left _ hs, hindex⟩
    · rcases List.mem_append.1 hs with hold | hlast
      · exact hlane.spent hpast s hold
      · rw [List.mem_singleton.1 hlast]
        exact hfresh hpast
  · have hcache : TxHashSetDesegmenter.cacheSegment lane.cache segment = lane.cache := by
      rw [TxHashSetDesegmenter.cacheSegment, hfind]
    rw [hcache]
    refine ⟨hlane.required, hlane.applied, hlane.handed, hlane.standard, hlane.nodup, ?_,
      hlane.spent⟩
    rintro i (rfl | hi)
    · refine .inr ⟨cached, List.mem_of_find?_eq_some hfind, ?_⟩
      have hid : cached.id = segment.id := by simpa using List.find?_some hfind
      rw [hid]
    · exact hlane.kept i hi

/-- **At most once, and in order.** -/
theorem At.pairwise (hlane : At n h added j lane) :
    (lane.handed.map fun segment => segment.id.index.toNat).Pairwise (· < ·) := by
  rw [hlane.handed]
  exact List.pairwise_lt_range

include hn in
/-- **What is applied** are the first `j` segments. -/
theorem At.isSegmentApplied_iff (hlane : At n h added j lane) {id : SegmentIdentifier}
    (hheight : id.height.toNat = h) (hrequired : id.index.toNat * 2 ^ h < n) :
    isSegmentApplied id (leafPos n) lane.appliedMMRSize = true ↔ id.index.toNat < j := by
  have hpos : 0 < 2 ^ h := Nat.two_pow_pos h
  have hnext : (id.index.toNat + 1) * 2 ^ h = id.index.toNat * 2 ^ h + 2 ^ h :=
    Nat.add_one_mul _ _
  rw [hlane.applied,
    TxHashSetDesegmenter.isSegmentApplied_iff hn hheight hrequired (min_le_right _ _)]
  constructor
  · intro hle
    by_contra hge
    have := Nat.mul_le_mul_right (2 ^ h) (Nat.le_of_not_lt hge)
    omega
  · intro hlt
    have hle : (id.index.toNat + 1) * 2 ^ h ≤ j * 2 ^ h := Nat.mul_le_mul_right _ hlt
    omega

include hn in
/-- What a caller has to look at before it adds a segment again. -/
theorem At.fresh (hlane : At n h added j lane) {id : SegmentIdentifier}
    (hheight : id.height.toNat = h) (hrequired : id.index.toNat * 2 ^ h < n)
    (hnot : ¬(id.getSegmentUnprunedSize (leafPos n) ≠ id.getSegmentCapacity ∧
      isSegmentApplied id (leafPos n) lane.appliedMMRSize = true))
    (hpast : n < j * 2 ^ h) : id.index.toNat + 1 ≠ j := by
  rintro rfl
  refine hnot ⟨?_, (hlane.isSegmentApplied_iff hn hheight hrequired).2 (Nat.lt_succ_self _)⟩
  rw [getSegmentUnprunedSize_eq hn hheight hrequired, getSegmentCapacity, hheight]
  rw [Nat.add_one_mul] at hpast
  omega

include hn in
/-- **A required segment comes** that is not a partial last one which is applied. -/
theorem At.add (hlane : At n h added j lane) {target : ℕ} (htarget : target = leafPos n)
    (hrequired : segment.id.height.toNat = h ∧
      segment.id.index.toNat < countSegmentsRequired target h)
    (hagain : ¬(segment.id.getSegmentUnprunedSize target ≠ segment.id.getSegmentCapacity ∧
      isSegmentApplied segment.id target lane.appliedMMRSize = true)) :
    At n h (insert segment.id.index.toNat added) j
      { lane with cache := TxHashSetDesegmenter.cacheSegment lane.cache segment } := by
  subst htarget
  obtain ⟨hheight, hindex⟩ := hrequired
  rw [lt_countSegmentsRequired_iff hn] at hindex
  exact hlane.cacheSegment hheight hindex (hlane.fresh hn hheight hindex hagain)

/-- Fewer segments that have to be there. -/
theorem At.mono {added' : Set ℕ} (hlane : At n h added j lane) (hsub : ∀ i ∈ added', i ∈ added) :
    At n h added' j lane :=
  ⟨hlane.required, hlane.applied, hlane.handed, hlane.standard, hlane.nodup,
    fun i hi => hlane.kept i (hsub i hi), hlane.spent⟩

/-- Nothing has happened yet. -/
theorem At.start (n h : ℕ) : At (α := α) n h ∅ 0 ⟨[], 0, []⟩ := by
  refine ⟨by simp, ?_, rfl, by simp, List.nodup_nil, by simp, by simp⟩
  rw [Nat.zero_mul, Nat.zero_min]
  rfl

/-- **All is applied** when the size is the one that is aimed at. -/
theorem At.applied_eq_iff (hlane : At n h added j lane) :
    lane.appliedMMRSize = leafPos n ↔ n ≤ j * 2 ^ h := by
  rw [hlane.applied, leafPos_strictMono.injective.eq_iff]
  omega

include hh in
theorem At.nextRequiredSegmentIndex_eq (hlane : At n h added j lane) (hlt : j * 2 ^ h < n)
    (hn : n < 2 ^ 63) : nextRequiredSegmentIndex lane.appliedMMRSize h = j := by
  rw [hlane.applied, min_eq_left hlt.le, nextRequiredSegmentIndex_full hh (by omega)]

include hn in
theorem toNat_segmentAt (hlt : j * 2 ^ h < n) (hsmall : h < 256) :
    (segmentAt h j).height.toNat = h ∧ (segmentAt h j).index.toNat = j := by
  have hj : j * 1 ≤ j * 2 ^ h := Nat.mul_le_mul_left j (Nat.two_pow_pos h)
  exact ⟨UInt8.toNat_ofNat_of_lt' hsmall, UInt64.toNat_ofNat_of_lt' (by change j < 2 ^ 64; omega)⟩

include hn hh in
/-- **The next segment** is not applied, while there is one; and it is asked for or cached. -/
theorem At.next (hlane : At n h added j lane) (hlt : j * 2 ^ h < n) (hsmall : h < 256)
    {maxElements : ℕ} (hmax : 0 < maxElements) (type : SegmentType) :
    isSegmentApplied (segmentAt h j) (leafPos n) lane.appliedMMRSize = false ∧
      (hasSegment lane.cache (segmentAt h j) = true ∨
        (appendDesiredSegments [] maxElements type (leafPos n) h lane.appliedMMRSize
          lane.cache)[0]? = some (type, segmentAt h j)) := by
  obtain ⟨hheight, hindex⟩ := toNat_segmentAt hn hlt hsmall
  have hnext := hlane.nextRequiredSegmentIndex_eq hh hlt hn
  have hnot : isSegmentApplied (segmentAt h j) (leafPos n) lane.appliedMMRSize = false := by
    rw [Bool.eq_false_iff]
    intro happlied
    rw [hlane.isSegmentApplied_iff hn hheight (by rwa [hindex]), hindex] at happlied
    exact happlied.false
  refine ⟨hnot, ?_⟩
  by_cases hcached : hasSegment lane.cache (segmentAt h j) = true
  · exact .inl hcached
  · have hfirst : (appendDesiredSegments [] maxElements type (leafPos n) h lane.appliedMMRSize
          lane.cache)[0]? =
        some (type, segmentAt h (nextRequiredSegmentIndex lane.appliedMMRSize h)) :=
      getElem?_appendDesiredSegments hmax
        (by rw [hnext]; exact (lt_countSegmentsRequired_iff hn).2 hlt) (by rwa [hnext])
        (by rw [hnext]; exact Bool.eq_false_iff.2 hcached)
    rw [hnext] at hfirst
    exact .inr hfirst

include hn hh in
/-- **An unfinished type** has a next segment, and all segments before it are applied. -/
theorem At.exists_next (hlane : At n h added j lane) (hsmall : h < 256) {target : ℕ}
    (htarget : target = leafPos n) (hunfinished : lane.appliedMMRSize ≠ target)
    {maxElements : ℕ} (hmax : 0 < maxElements) (type : SegmentType) :
    ∃ id : SegmentIdentifier,
      (id.height.toNat = h ∧ id.index.toNat < countSegmentsRequired target h) ∧
      isSegmentApplied id target lane.appliedMMRSize = false ∧
      (∀ id' : SegmentIdentifier,
        (id'.height.toNat = h ∧ id'.index.toNat < countSegmentsRequired target h) →
        id'.index.toNat < id.index.toNat →
          isSegmentApplied id' target lane.appliedMMRSize = true) ∧
      (hasSegment lane.cache id = true ∨
        (appendDesiredSegments [] maxElements type target h lane.appliedMMRSize
          lane.cache)[0]? = some (type, id)) := by
  subst htarget
  have hlt : j * 2 ^ h < n := by
    rw [Ne, hlane.applied_eq_iff] at hunfinished
    omega
  obtain ⟨hheight, hindex⟩ := toNat_segmentAt hn hlt hsmall
  obtain ⟨hnot, hnext⟩ := hlane.next hn hh hlt hsmall hmax type
  refine ⟨segmentAt h j, ⟨hheight, ?_⟩, hnot, fun id' hid' hbefore => ?_, hnext⟩
  · rw [hindex]
    exact (lt_countSegmentsRequired_iff hn).2 hlt
  · rw [lt_countSegmentsRequired_iff hn] at hid'
    rw [hlane.isSegmentApplied_iff hn hid'.1 hid'.2]
    rwa [hindex] at hbefore

end Lane

end TxHashSetDesegmenter

end GrinPlusPlus
