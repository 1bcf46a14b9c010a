import GrinPlusPlus.Pmmr.BitmapSync

/-!
# The progress of a download

`TxHashSetDesegmenter` as a whole: outputs, range proofs and kernels come in any order, are
handed to their callbacks by `ApplyReadySegments`, and `NextDesiredSegments` says what to ask for,
the output bitmap first and then the other types in turn.

The three types do not know of each other, so what holds of a run is what holds of three lanes
(`GrinPlusPlus.TxHashSetDesegmenter.Progress.Steady`). The one thing the desegmenter leaves to its
caller is to look at `IsApplied` before a segment is added: a partial last segment that is added
again when it is applied is handed over again
(`GrinPlusPlus.TxHashSetDesegmenter.Progress.not_inOrder`).
-/

namespace GrinPlusPlus

open Exec PostOrder MMRUtil PIBD

namespace TxHashSetDesegmenter

open SegmentIdentifier

/-- The standard heights. -/
def segmentHeight : SegmentType → ℕ
  | .outputBitmap => bitmapSegmentHeight
  | .output => outputSegmentHeight
  | .rangeProof => rangeProofSegmentHeight
  | .kernel => kernelSegmentHeight

/-! ### The state -/

/-- `TxHashSetDesegmenter` with all of its counters, and what the callbacks were given. -/
structure Progress extends TxHashSetDesegmenter where
  /-- `m_appliedOutputMMRSize`. -/
  appliedOutputMMRSize : ℕ
  /-- `m_appliedRangeProofMMRSize`. -/
  appliedRangeProofMMRSize : ℕ
  /-- `m_appliedKernelMMRSize`. -/
  appliedKernelMMRSize : ℕ
  /-- `m_nextDesiredTypeOffset`. -/
  nextDesiredTypeOffset : ℕ
  /-- `m_allSegmentsComplete`. -/
  allSegmentsComplete : Bool
  /-- What the callbacks were given, in this order. -/
  handedOutputs : List (Segment OutputIdentifier)
  handedRangeProofs : List (Segment RangeProof)
  handedKernels : List (Segment TransactionKernel)

namespace Progress

/-- `TxHashSetDesegmenter::Reset`. -/
def reset (archiveHeader : BlockHeader) : Progress where
  toTxHashSetDesegmenter := TxHashSetDesegmenter.reset archiveHeader
  appliedOutputMMRSize := 0
  appliedRangeProofMMRSize := 0
  appliedKernelMMRSize := 0
  nextDesiredTypeOffset := 0
  allSegmentsComplete := false
  handedOutputs := []
  handedRangeProofs := []
  handedKernels := []

/-- `TxHashSetDesegmenter::IsComplete`. -/
def isComplete (p : Progress) : Bool :=
  p.allSegmentsComplete

/-- The size that a type has to reach. -/
def targetMMRSize (p : Progress) : SegmentType → ℕ
  | .outputBitmap => p.bitmapMMRSize
  | .output => p.archiveHeader.getOutputMMRSize
  | .rangeProof => p.archiveHeader.getOutputMMRSize
  | .kernel => p.archiveHeader.getKernelMMRSize

/-- The size that a type has reached. -/
def appliedMMRSize (p : Progress) : SegmentType → ℕ
  | .outputBitmap => p.appliedBitmapMMRSize
  | .output => p.appliedOutputMMRSize
  | .rangeProof => p.appliedRangeProofMMRSize
  | .kernel => p.appliedKernelMMRSize

/-- `TxHashSetDesegmenter::IsApplied`. -/
def isApplied (p : Progress) (typeId : SegmentTypeIdentifier) : Bool :=
  isSegmentApplied typeId.2 (p.targetMMRSize typeId.1) (p.appliedMMRSize typeId.1)

/-- The segment is in the cache of its type. -/
def isCached (p : Progress) (typeId : SegmentTypeIdentifier) : Bool :=
  match typeId.1 with
  | .outputBitmap => hasSegment p.bitmapSegments typeId.2
  | .output => hasSegment p.outputSegments typeId.2
  | .rangeProof => hasSegment p.rangeProofSegments typeId.2
  | .kernel => hasSegment p.kernelSegments typeId.2

/-- The segments that the callback of a type was given. -/
def handed (p : Progress) : SegmentType → List SegmentIdentifier
  | .outputBitmap => []
  | .output => p.handedOutputs.map fun segment => segment.id
  | .rangeProof => p.handedRangeProofs.map fun segment => segment.id
  | .kernel => p.handedKernels.map fun segment => segment.id

/-- The applied sizes are those of the header. -/
def allApplied (p : Progress) : Bool :=
  p.appliedOutputMMRSize == p.archiveHeader.getOutputMMRSize &&
    p.appliedRangeProofMMRSize == p.archiveHeader.getOutputMMRSize &&
    p.appliedKernelMMRSize == p.archiveHeader.getKernelMMRSize

/-! ### Asking in turn -/

/-- The segment of one type at an index is appended, when there is one and there is room. -/
def appendAt (maxElements : ℕ) (lists : ℕ → List SegmentTypeIdentifier) (typeOffset index : ℕ)
    (desired : List SegmentTypeIdentifier) (typeIndex : ℕ) : List SegmentTypeIdentifier :=
  if desired.length < maxElements then
    desired ++ ((lists ((typeOffset + typeIndex) % 3))[index]?).toList
  else desired

/-- The inner loop of `TxHashSetDesegmenter::NextDesiredSegments`, over the three types. -/
def appendRotated (maxElements : ℕ) (lists : ℕ → List SegmentTypeIdentifier)
    (typeOffset index : ℕ) (desired : List SegmentTypeIdentifier) : List SegmentTypeIdentifier :=
  [0, 1, 2].foldl (appendAt maxElements lists typeOffset index) desired

/-- The outer loop. Every pass but the last one appends something. -/
def rotateFrom (maxElements : ℕ) (lists : ℕ → List SegmentTypeIdentifier) (typeOffset : ℕ) :
    ℕ → ℕ → List SegmentTypeIdentifier → List SegmentTypeIdentifier
  | 0, _, desired => desired
  | passes + 1, index, desired =>
    if desired.length < maxElements then
      let next := appendRotated maxElements lists typeOffset index desired
      if next.length = desired.length then desired
      else rotateFrom maxElements lists typeOffset passes (index + 1) next
    else desired

/-- The segments of each type that are asked for, in the order of the rotation. -/
def desiredLists (p : Progress) (maxElements : ℕ) : ℕ → List SegmentTypeIdentifier
  | 0 => appendDesiredSegments [] maxElements .output p.archiveHeader.getOutputMMRSize
      outputSegmentHeight p.appliedOutputMMRSize p.outputSegments
  | 1 => appendDesiredSegments [] maxElements .rangeProof p.archiveHeader.getOutputMMRSize
      rangeProofSegmentHeight p.appliedRangeProofMMRSize p.rangeProofSegments
  | _ => appendDesiredSegments [] maxElements .kernel p.archiveHeader.getKernelMMRSize
      kernelSegmentHeight p.appliedKernelMMRSize p.kernelSegments

/-- `TxHashSetDesegmenter::NextDesiredSegments`. -/
def nextDesiredSegments (maxElements : ℕ) (p : Progress) :
    List SegmentTypeIdentifier × Progress :=
  if !p.bitmapCacheComplete then
    (appendDesiredSegments [] maxElements .outputBitmap p.bitmapMMRSize bitmapSegmentHeight
      p.appliedBitmapMMRSize p.bitmapSegments, p)
  else
    let typeOffset := p.nextDesiredTypeOffset % 3
    let desired := rotateFrom maxElements (p.desiredLists maxElements) typeOffset maxElements 0 []
    (desired,
      { p with
        nextDesiredTypeOffset := p.nextDesiredTypeOffset + 1
        allSegmentsComplete := desired.isEmpty && p.allApplied })

/-! ### Applying -/

/-- The lanes of the three types. -/
def outputLane (p : Progress) : Lane OutputIdentifier :=
  ⟨p.outputSegments, p.appliedOutputMMRSize, p.handedOutputs⟩

def rangeProofLane (p : Progress) : Lane RangeProof :=
  ⟨p.rangeProofSegments, p.appliedRangeProofMMRSize, p.handedRangeProofs⟩

def kernelLane (p : Progress) : Lane TransactionKernel :=
  ⟨p.kernelSegments, p.appliedKernelMMRSize, p.handedKernels⟩

/-- A lane is put back. -/
def withOutputLane (p : Progress) (lane : Lane OutputIdentifier) : Progress :=
  { p with
    outputSegments := lane.cache
    appliedOutputMMRSize := lane.appliedMMRSize
    handedOutputs := lane.handed }

def withRangeProofLane (p : Progress) (lane : Lane RangeProof) : Progress :=
  { p with
    rangeProofSegments := lane.cache
    appliedRangeProofMMRSize := lane.appliedMMRSize
    handedRangeProofs := lane.handed }

def withKernelLane (p : Progress) (lane : Lane TransactionKernel) : Progress :=
  { p with
    kernelSegments := lane.cache
    appliedKernelMMRSize := lane.appliedMMRSize
    handedKernels := lane.handed }

/-- `TxHashSetDesegmenter::ApplyReadySegments`: what was applied before a callback failed stays
applied. -/
def applyReadySegments (applyOutputSegment : Segment OutputIdentifier → ℕ → Bool)
    (applyRangeProofSegment : Segment RangeProof → ℕ → Bool)
    (applyKernelSegment : Segment TransactionKernel → ℕ → Bool) (p : Progress) :
    Option ℕ × Progress :=
  if !p.bitmapCacheComplete then (some 0, p)
  else
    let output := p.outputLane.applyReadySegmentBatch outputSegmentHeight
      p.archiveHeader.getOutputMMRSize applyOutputSegment
    let p := p.withOutputLane output.2
    match output.1 with
    | none => (none, p)
    | some outputCount =>
      let rangeProof := p.rangeProofLane.applyReadySegmentBatch rangeProofSegmentHeight
        p.archiveHeader.getOutputMMRSize applyRangeProofSegment
      let p := p.withRangeProofLane rangeProof.2
      match rangeProof.1 with
      | none => (none, p)
      | some rangeProofCount =>
        let kernel := p.kernelLane.applyReadySegmentBatch kernelSegmentHeight
          p.archiveHeader.getKernelMMRSize applyKernelSegment
        let p := p.withKernelLane kernel.2
        match kernel.1 with
        | none => (none, p)
        | some kernelCount =>
          (some (outputCount + rangeProofCount + kernelCount),
            { p with allSegmentsComplete := p.bitmapCacheComplete && p.allApplied })

/-! ### The rotation -/

section Rotation

variable {maxElements typeOffset : ℕ} {lists : ℕ → List SegmentTypeIdentifier}
  {x : SegmentTypeIdentifier}

/-- The segments at an index. -/
def picks (lists : ℕ → List SegmentTypeIdentifier) (typeOffset index : ℕ) :
    List SegmentTypeIdentifier :=
  [0, 1, 2].flatMap fun typeIndex => ((lists ((typeOffset + typeIndex) % 3))[index]?).toList

theorem mem_picks {index : ℕ} : x ∈ picks lists typeOffset index ↔
    ∃ typeIndex < 3, (lists ((typeOffset + typeIndex) % 3))[index]? = some x := by
  have hthree : ∀ typeIndex, typeIndex ∈ [0, 1, 2] ↔ typeIndex < 3 := by
    intro typeIndex
    simp only [List.mem_cons, List.not_mem_nil, or_false]
    omega
  rw [picks, List.mem_flatMap]
  simp only [hthree, Option.mem_toList]

theorem appendAt_sublist (index : ℕ) (desired : List SegmentTypeIdentifier) (typeIndex : ℕ) :
    (appendAt maxElements lists typeOffset index desired typeIndex).Sublist
      (desired ++ ((lists ((typeOffset + typeIndex) % 3))[index]?).toList) := by
  rw [appendAt]
  split_ifs
  · exact List.Sublist.refl _
  · exact List.sublist_append_left _ _

/-- One pass takes from the segments at its index, as far as there is room. -/
theorem appendRotated_sublist (index : ℕ) (desired : List SegmentTypeIdentifier) :
    (appendRotated maxElements lists typeOffset index desired).Sublist
      (desired ++ picks lists typeOffset index) := by
  rw [appendRotated, picks]
  generalize [0, 1, 2] = typeIndices
  induction typeIndices generalizing desired with
  | nil => simp
  | cons typeIndex typeIndices ih =>
    rw [List.foldl_cons, List.flatMap_cons, ← List.append_assoc]
    exact (ih _).trans ((appendAt_sublist index desired typeIndex).append (List.Sublist.refl _))

/-- So do all passes together. -/
theorem rotateFrom_sublist (passes index : ℕ) (desired : List SegmentTypeIdentifier) :
    (rotateFrom maxElements lists typeOffset passes index desired).Sublist
      (desired ++ (List.range' index passes).flatMap (picks lists typeOffset)) := by
  induction passes generalizing index desired with
  | zero => simp [rotateFrom]
  | succ passes ih =>
    rw [rotateFrom, List.range'_succ, List.flatMap_cons, ← List.append_assoc]
    dsimp only
    split_ifs
    · rw [List.append_assoc]
      exact List.sublist_append_left _ _
    · exact (ih (index + 1) _).trans
        ((appendRotated_sublist index desired).append (List.Sublist.refl _))
    · rw [List.append_assoc]
      exact List.sublist_append_left _ _

theorem mem_of_mem_rotateFrom {passes : ℕ}
    (hx : x ∈ rotateFrom maxElements lists typeOffset passes 0 []) : ∃ t < 3, x ∈ lists t := by
  have hmem := (rotateFrom_sublist passes 0 []).subset hx
  rw [List.nil_append, List.mem_flatMap] at hmem
  obtain ⟨index, -, hpick⟩ := hmem
  obtain ⟨typeIndex, -, hget⟩ := mem_picks.1 hpick
  exact ⟨_, Nat.mod_lt _ (by decide), List.mem_of_getElem? hget⟩

/-- **No segment is taken twice**, when the lists have different segments. -/
theorem nodup_rotateFrom {passes : ℕ} (hnodup : ∀ t < 3, (lists t).Nodup)
    (hapart : ∀ t < 3, ∀ t' < 3, ∀ x, x ∈ lists t → x ∈ lists t' → t = t') :
    (rotateFrom maxElements lists typeOffset passes 0 []).Nodup := by
  refine List.Nodup.sublist (rotateFrom_sublist passes 0 []) ?_
  have hmod : ∀ a : ℕ, a % 3 < 3 := fun a => Nat.mod_lt _ (by decide)
  rw [List.nil_append, List.nodup_flatMap]
  refine ⟨fun index _ => ?_, ?_⟩
  · rw [picks, List.nodup_flatMap]
    refine ⟨fun typeIndex _ => ?_, ?_⟩
    · cases (lists ((typeOffset + typeIndex) % 3))[index]? <;> simp
    · have hthree : [0, 1, 2].Pairwise fun a b => a < b ∧ b < 3 := by simp
      refine hthree.imp fun {a b} hab => ?_
      refine List.disjoint_left.2 fun x hx hx' => ?_
      rw [Option.mem_toList] at hx hx'
      have := hapart _ (hmod _) _ (hmod _) x (List.mem_of_getElem? hx) (List.mem_of_getElem? hx')
      omega
  · have hascend : (List.range' 0 passes).Pairwise (· < ·) := List.pairwise_lt_range' ..
    refine hascend.imp fun {index index'} hlt => ?_
    refine List.disjoint_left.2 fun x hx hx' => ?_
    obtain ⟨a, -, ha⟩ := mem_picks.1 hx
    obtain ⟨b, -, hb⟩ := mem_picks.1 hx'
    have hsame := hapart _ (hmod _) _ (hmod _) x (List.mem_of_getElem? ha)
      (List.mem_of_getElem? hb)
    rw [← hsame] at hb
    obtain ⟨hi, hxi⟩ := List.getElem?_eq_some_iff.1 ha
    obtain ⟨hi', hxi'⟩ := List.getElem?_eq_some_iff.1 hb
    have := (hnodup _ (hmod _)).getElem_inj_iff.1 (hxi.trans hxi'.symm)
    omega

/-- With room for all of them, a pass takes the segments at its index. -/
theorem appendRotated_of_room {index : ℕ} {desired : List SegmentTypeIdentifier}
    (hroom : desired.length + 3 ≤ maxElements) :
    appendRotated maxElements lists typeOffset index desired =
      desired ++ picks lists typeOffset index := by
  have hfold : ∀ (typeIndices : List ℕ) (desired : List SegmentTypeIdentifier),
      desired.length + typeIndices.length ≤ maxElements →
      typeIndices.foldl (appendAt maxElements lists typeOffset index) desired =
      desired ++ typeIndices.flatMap fun typeIndex =>
        ((lists ((typeOffset + typeIndex) % 3))[index]?).toList := by
    intro typeIndices
    induction typeIndices with
    | nil => intro desired _; simp
    | cons typeIndex typeIndices ih =>
      intro desired hlength
      rw [List.length_cons] at hlength
      have hone := Option.length_toList_le (o := (lists ((typeOffset + typeIndex) % 3))[index]?)
      rw [List.foldl_cons, appendAt, if_pos (by omega), ih _ (by rw [List.length_append]; omega),
        List.flatMap_cons, List.append_assoc]
  exact hfold [0, 1, 2] desired hroom

/-- A pass keeps what was taken, … -/
theorem mem_appendRotated_of_mem {index : ℕ} {desired : List SegmentTypeIdentifier}
    (hx : x ∈ desired) : x ∈ appendRotated maxElements lists typeOffset index desired := by
  rw [appendRotated]
  generalize [0, 1, 2] = typeIndices
  induction typeIndices generalizing desired with
  | nil => exact hx
  | cons typeIndex typeIndices ih =>
    rw [List.foldl_cons, appendAt]
    refine ih ?_
    split_ifs
    · exact List.mem_append_left _ hx
    · exact hx

/-- … and so do the passes after it. -/
theorem mem_rotateFrom_of_mem {passes index : ℕ} {desired : List SegmentTypeIdentifier}
    (hx : x ∈ desired) : x ∈ rotateFrom maxElements lists typeOffset passes index desired := by
  induction passes generalizing index desired with
  | zero => exact hx
  | succ passes ih =>
    rw [rotateFrom]
    dsimp only
    split_ifs
    · exact hx
    · exact ih (mem_appendRotated_of_mem hx)
    · exact hx

/-- **The first segments of all types** are taken, when there is room for three. -/
theorem mem_rotateFrom_of_first {passes t : ℕ} (hpasses : 0 < passes) (hroom : 3 ≤ maxElements)
    (ht : t < 3) (hfirst : (lists t)[0]? = some x) :
    x ∈ rotateFrom maxElements lists typeOffset passes 0 [] := by
  obtain ⟨passes, rfl⟩ := Nat.exists_eq_add_one.2 hpasses
  have hpick : x ∈ picks lists typeOffset 0 := by
    -- the rotation comes to every type
    refine mem_picks.2 ⟨(t + 3 - typeOffset % 3) % 3, Nat.mod_lt _ (by decide), ?_⟩
    rwa [show (typeOffset + (t + 3 - typeOffset % 3) % 3) % 3 = t by omega]
  rw [rotateFrom, if_pos (by rw [List.length_nil]; omega), appendRotated_of_room
    (by rw [List.length_nil]; omega), List.nil_append]
  dsimp only
  rw [if_neg (by
    rw [List.length_nil, List.length_eq_zero_iff]
    exact List.ne_nil_of_mem hpick)]
  exact mem_rotateFrom_of_mem hpick

end Rotation

/-! ### What is asked for -/

variable {p : Progress} {maxElements : ℕ} {x : SegmentTypeIdentifier}

/-- The types in the order of the rotation. -/
def rotatedType : ℕ → SegmentType
  | 0 => .output
  | 1 => .rangeProof
  | _ => .kernel

theorem rotatedType_injective {t t' : ℕ} (ht : t < 3) (ht' : t' < 3)
    (h : rotatedType t = rotatedType t') : t = t' := by
  have hall : ∀ t < 3, ∀ t' < 3, rotatedType t = rotatedType t' → t = t' := by decide
  exact hall t ht t' ht' h

/-- One list: its type, and what it leaves out. -/
theorem desiredLists_spec (p : Progress) (maxElements t : ℕ) :
    (∀ x ∈ p.desiredLists maxElements t,
      x.1 = rotatedType t ∧ p.isApplied x = false ∧ p.isCached x = false) ∧
    (p.desiredLists maxElements t).Nodup := by
  rcases t with _ | _ | t
  all_goals
    obtain ⟨hmem, hnodup⟩ := appendDesiredSegments_spec
    refine ⟨?_, hnodup⟩
    rintro ⟨type, id⟩ hx
    obtain ⟨htype, happlied, hcached⟩ := hmem _ hx
    dsimp only at htype
    subst htype
    exact ⟨rfl, happlied, hcached⟩

/-- **What is asked for** is neither applied nor cached, and is asked for once. This holds in
every state. -/
theorem nextDesiredSegments_spec (p : Progress) (maxElements : ℕ) :
    (p.nextDesiredSegments maxElements).1.Nodup ∧
      ∀ x ∈ (p.nextDesiredSegments maxElements).1,
        p.isApplied x = false ∧ p.isCached x = false := by
  rw [nextDesiredSegments]
  split_ifs
  · obtain ⟨hmem, hnodup⟩ := @appendDesiredSegments_spec _ maxElements p.bitmapMMRSize
      bitmapSegmentHeight p.appliedBitmapMMRSize .outputBitmap p.bitmapSegments
    refine ⟨hnodup, ?_⟩
    rintro ⟨type, id⟩ hx
    obtain ⟨htype, happlied, hcached⟩ := hmem _ hx
    dsimp only at htype
    subst htype
    exact ⟨happlied, hcached⟩
  · refine ⟨nodup_rotateFrom (fun t _ => (desiredLists_spec p maxElements t).2)
      fun t ht t' ht' x hx hx' => ?_, fun x hx => ?_⟩
    · have h := ((desiredLists_spec p maxElements t).1 x hx).1
      have h' := ((desiredLists_spec p maxElements t').1 x hx').1
      exact rotatedType_injective ht ht' (h.symm.trans h')
    · obtain ⟨t, -, hmem⟩ := mem_of_mem_rotateFrom hx
      exact ((desiredLists_spec p maxElements t).1 x hmem).2

/-! ### Steps -/

variable (G : Global)

/-- What is done to the desegmenter; the callbacks return true. -/
inductive Op
  | bitmap (call : BitmapSync.Call)
  | addOutput (segment : Segment OutputIdentifier)
  | addRangeProof (segment : Segment RangeProof)
  | addKernel (segment : Segment TransactionKernel)
  | applyReady
  | nextDesired (maxElements : ℕ)

/-- The state after it. -/
def step (p : Progress) : Op → Progress
  | .bitmap call =>
    { p with toTxHashSetDesegmenter := BitmapSync.step G call p.toTxHashSetDesegmenter }
  | .addOutput segment =>
    { p with toTxHashSetDesegmenter :=
        (run (addOutputSegment G segment) p.toTxHashSetDesegmenter).2 }
  | .addRangeProof segment =>
    { p with toTxHashSetDesegmenter :=
        (run (addRangeProofSegment G segment) p.toTxHashSetDesegmenter).2 }
  | .addKernel segment =>
    { p with toTxHashSetDesegmenter :=
        (run (addKernelSegment G segment) p.toTxHashSetDesegmenter).2 }
  | .applyReady =>
    (p.applyReadySegments (fun _ _ => true) (fun _ _ => true) fun _ _ => true).2
  | .nextDesired maxElements => (p.nextDesiredSegments maxElements).2

/-- The output, range proof or kernel segment that is added. -/
def Op.added : Op → Option SegmentTypeIdentifier
  | .bitmap _ => none
  | .addOutput segment => some (.output, segment.id)
  | .addRangeProof segment => some (.rangeProof, segment.id)
  | .addKernel segment => some (.kernel, segment.id)
  | .applyReady => none
  | .nextDesired _ => none

/-- The segment is accepted. -/
def Accepts (p : Progress) : Op → Prop
  | .bitmap _ => True
  | .addOutput segment =>
    (run (addOutputSegment G segment) p.toTxHashSetDesegmenter).1 = .ok true
  | .addRangeProof segment =>
    (run (addRangeProofSegment G segment) p.toTxHashSetDesegmenter).1 = .ok true
  | .addKernel segment =>
    (run (addKernelSegment G segment) p.toTxHashSetDesegmenter).1 = .ok true
  | .applyReady => True
  | .nextDesired _ => True

/-- The segment is one of those of the standard height that are required. -/
def Required (p : Progress) (typeId : SegmentTypeIdentifier) : Prop :=
  typeId.2.height.toNat = segmentHeight typeId.1 ∧
    typeId.2.index.toNat <
      countSegmentsRequired (p.targetMMRSize typeId.1) (segmentHeight typeId.1)

/-- The segment is the last one, partial, and applied. -/
def SpentLast (p : Progress) (typeId : SegmentTypeIdentifier) : Prop :=
  typeId.2.getSegmentUnprunedSize (p.targetMMRSize typeId.1) ≠ typeId.2.getSegmentCapacity ∧
    p.isApplied typeId = true

/-- The first required segment of a type that is not applied. -/
def NextRequired (p : Progress) (type : SegmentType) (id : SegmentIdentifier) : Prop :=
  Required p (type, id) ∧ p.isApplied (type, id) = false ∧
    ∀ id', Required p (type, id') → id'.index.toNat < id.index.toNat →
      p.isApplied (type, id') = true

/-- The runs whose steps are allowed, and in which required segments are added that are
accepted. -/
inductive Run (allowed : Progress → Op → Prop) (p₀ : Progress) : List Op → Progress → Prop
  | nil : Run allowed p₀ [] p₀
  | snoc {ops : List Op} {p : Progress} (h : Run allowed p₀ ops p) (op : Op)
      (haccepts : Accepts G p op) (hrequired : ∀ typeId, op.added = some typeId → Required p typeId)
      (hallowed : allowed p op) : Run allowed p₀ (ops ++ [op]) (step G p op)

/-- No partial last segment is added when it is applied. -/
def NotAgain (p : Progress) (op : Op) : Prop :=
  ∀ typeId, op.added = some typeId → ¬SpentLast p typeId

variable {G}

/-- A check that was passed. -/
theorem of_run_guard {c : Prop} [Decidable c] {y : Exec Exc TxHashSetDesegmenter Bool}
    {d : TxHashSetDesegmenter} (h : (run (if c then pure false else y) d).1 = .ok true) :
    ¬c ∧ (run y d).1 = .ok true := by
  split_ifs at h with hc
  · cases h
  · exact ⟨hc, h⟩

theorem addOutputSegment_accepted {segment : Segment OutputIdentifier} {d : TxHashSetDesegmenter}
    (h : (run (addOutputSegment G segment) d).1 = .ok true) :
    (run (addOutputSegment G segment) d).2 =
      { d with outputSegments := cacheSegment d.outputSegments segment } := by
  rw [addOutputSegment, run_bind_ok (run_get d)] at h ⊢
  obtain ⟨hheight, h⟩ := of_run_guard h
  obtain ⟨hcomplete, h⟩ := of_run_guard h
  rw [if_neg hheight, if_neg hcomplete]
  rcases hfirst : segment.firstUnprunedParent G OutputIdentifier.serialize
    d.archiveHeader.getOutputMMRSize (some d.bitmapAccumulator) with _ | ⟨hash, unprunedPos⟩
  · rw [hfirst] at h
    cases h
  · rw [hfirst] at h
    dsimp only at h ⊢
    obtain ⟨hvalid, -⟩ := of_run_guard h
    rw [if_neg hvalid]
    rfl

theorem addRangeProofSegment_accepted {segment : Segment RangeProof} {d : TxHashSetDesegmenter}
    (h : (run (addRangeProofSegment G segment) d).1 = .ok true) :
    (run (addRangeProofSegment G segment) d).2 =
      { d with rangeProofSegments := cacheSegment d.rangeProofSegments segment } := by
  rw [addRangeProofSegment, run_bind_ok (run_get d)] at h ⊢
  obtain ⟨hheight, h⟩ := of_run_guard h
  obtain ⟨hcomplete, h⟩ := of_run_guard h
  obtain ⟨hvalid, -⟩ := of_run_guard h
  rw [if_neg hheight, if_neg hcomplete, if_neg hvalid]
  rfl

theorem addKernelSegment_accepted {segment : Segment TransactionKernel} {d : TxHashSetDesegmenter}
    (h : (run (addKernelSegment G segment) d).1 = .ok true) :
    (run (addKernelSegment G segment) d).2 =
      { d with kernelSegments := cacheSegment d.kernelSegments segment } := by
  rw [addKernelSegment, run_bind_ok (run_get d)] at h ⊢
  obtain ⟨hheight, h⟩ := of_run_guard h
  obtain ⟨hvalid, -⟩ := of_run_guard h
  rw [if_neg hheight, if_neg hvalid]
  rfl

/-! ### Runs -/

/-- The indices of the segments of a type that were added. -/
def addedIn (ops : List Op) (type : SegmentType) : Set ℕ :=
  {i | ∃ op ∈ ops, ∃ id, op.added = some (type, id) ∧ id.index.toNat = i}

theorem mem_addedIn {ops : List Op} {type : SegmentType} {i : ℕ} :
    i ∈ addedIn ops type ↔ ∃ op ∈ ops, ∃ id, op.added = some (type, id) ∧ id.index.toNat = i :=
  Iff.rfl

theorem addedIn_concat_self {ops : List Op} (op : Op) {type : SegmentType} {id : SegmentIdentifier}
    (hadded : op.added = some (type, id)) :
    addedIn (ops ++ [op]) type = insert id.index.toNat (addedIn ops type) := by
  ext i
  simp only [mem_addedIn, Set.mem_insert_iff, List.mem_append, List.mem_singleton, or_and_right,
    exists_or, exists_eq_left, hadded, Option.some.injEq, Prod.mk.injEq, true_and, exists_eq_left',
    eq_comm (a := i)]
  exact or_comm

theorem addedIn_concat_of_ne {ops : List Op} {op : Op} {type : SegmentType}
    (hadded : ∀ id, op.added ≠ some (type, id)) :
    addedIn (ops ++ [op]) type = addedIn ops type := by
  ext i
  simp only [mem_addedIn, List.mem_append, List.mem_singleton, or_and_right, exists_or,
    exists_eq_left, hadded, false_and, exists_false, or_false]

/-- **The three lanes**, over the leaves that the header states. -/
structure Steady (n m : ℕ) (ops : List Op) (jo jr jk : ℕ) (p : Progress) : Prop where
  output_size : p.archiveHeader.getOutputMMRSize = leafPos n
  kernel_size : p.archiveHeader.getKernelMMRSize = leafPos m
  output : p.outputLane.At n outputSegmentHeight (addedIn ops .output) jo
  rangeProof : p.rangeProofLane.At n rangeProofSegmentHeight (addedIn ops .rangeProof) jr
  kernel : p.kernelLane.At m kernelSegmentHeight (addedIn ops .kernel) jk

variable {n m jo jr jk : ℕ} {ops : List Op}

theorem steady_reset {header : BlockHeader} (hout : header.getOutputMMRSize = leafPos n)
    (hker : header.getKernelMMRSize = leafPos m) : Steady n m [] 0 0 0 (reset header) where
  output_size := hout
  kernel_size := hker
  output := (Lane.At.start n _).mono fun i hi => by simp [addedIn] at hi
  rangeProof := (Lane.At.start n _).mono fun i hi => by simp [addedIn] at hi
  kernel := (Lane.At.start m _).mono fun i hi => by simp [addedIn] at hi

/-- A call that concerns the bitmap leaves the other caches alone. -/
theorem bitmapStep_frame (call : BitmapSync.Call) (d : TxHashSetDesegmenter) :
    (BitmapSync.step G call d).archiveHeader = d.archiveHeader ∧
      (BitmapSync.step G call d).outputSegments = d.outputSegments ∧
      (BitmapSync.step G call d).rangeProofSegments = d.rangeProofSegments ∧
      (BitmapSync.step G call d).kernelSegments = d.kernelSegments := by
  cases call with
  | addBitmapSegment bitmapSegment outputRoot =>
    rw [BitmapSync.step, addBitmapSegment]
    rcases bitmapSegment.toSegment with e | segment
    · exact ⟨rfl, rfl, rfl, rfl⟩
    · rw [run_bind_ok (run_ofExcept (.ok segment) d)]
      split
      · exact ⟨rfl, rfl, rfl, rfl⟩
      · rw [run_bind_ok (run_get d)]
        split <;> exact ⟨rfl, rfl, rfl, rfl⟩
  | applyNextBitmapSegment =>
    rw [BitmapSync.step]
    rcases BitmapSync.applyNextBitmapSegment_cases (G := G) d with h | ⟨_, -, -, _, _, -, -, h⟩
    all_goals
      rw [h]
      exact ⟨rfl, rfl, rfl, rfl⟩

/-- What `ApplyReadySegments` does when no callback fails. -/
theorem applyReadySegments_eq {ao : Segment OutputIdentifier → ℕ → Bool}
    {ar : Segment RangeProof → ℕ → Bool} {ak : Segment TransactionKernel → ℕ → Bool}
    (hcomplete : p.bitmapCacheComplete = true) {co cr ck : ℕ} {output : Lane OutputIdentifier}
    {rangeProof : Lane RangeProof} {kernel : Lane TransactionKernel}
    (ho : p.outputLane.applyReadySegmentBatch outputSegmentHeight
      p.archiveHeader.getOutputMMRSize ao = (some co, output))
    (hr : p.rangeProofLane.applyReadySegmentBatch rangeProofSegmentHeight
      p.archiveHeader.getOutputMMRSize ar = (some cr, rangeProof))
    (hk : p.kernelLane.applyReadySegmentBatch kernelSegmentHeight
      p.archiveHeader.getKernelMMRSize ak = (some ck, kernel)) :
    (p.applyReadySegments ao ar ak).2 =
      { ((p.withOutputLane output).withRangeProofLane rangeProof).withKernelLane kernel with
        allSegmentsComplete := (((p.withOutputLane output).withRangeProofLane
          rangeProof).withKernelLane kernel).allApplied } := by
  have hr' : (p.withOutputLane output).rangeProofLane.applyReadySegmentBatch
      rangeProofSegmentHeight (p.withOutputLane output).archiveHeader.getOutputMMRSize ar =
      (some cr, rangeProof) := hr
  have hk' : ((p.withOutputLane output).withRangeProofLane
        rangeProof).kernelLane.applyReadySegmentBatch kernelSegmentHeight
      ((p.withOutputLane output).withRangeProofLane
        rangeProof).archiveHeader.getKernelMMRSize ak = (some ck, kernel) := hk
  have hcomplete' : (((p.withOutputLane output).withRangeProofLane
      rangeProof).withKernelLane kernel).bitmapCacheComplete = true := hcomplete
  rw [applyReadySegments, if_neg (by simp [hcomplete])]
  simp only [ho, hr', hk', hcomplete', Bool.true_and]

/-- **One call of `ApplyReadySegments`** behind the bitmap: every lane goes on, and the flag says
whether all of them are at their ends. -/
theorem Steady.applyReady (hn : n < 2 ^ 63) (hm : m < 2 ^ 63) (h : Steady n m ops jo jr jk p)
    (hcomplete : p.bitmapCacheComplete = true) :
    ∃ jo' jr' jk', Steady n m ops jo' jr' jk' (step G p .applyReady) ∧
      (step G p .applyReady).bitmapCacheComplete = true ∧
      (step G p .applyReady).allSegmentsComplete = (step G p .applyReady).allApplied ∧
      ((∀ i, i * 2 ^ outputSegmentHeight < n → i ∈ addedIn ops .output) →
        jo + segmentApplyBatchSize ≤ jo' ∨ n ≤ jo' * 2 ^ outputSegmentHeight) ∧
      ((∀ i, i * 2 ^ rangeProofSegmentHeight < n → i ∈ addedIn ops .rangeProof) →
        jr + segmentApplyBatchSize ≤ jr' ∨ n ≤ jr' * 2 ^ rangeProofSegmentHeight) ∧
      ((∀ i, i * 2 ^ kernelSegmentHeight < m → i ∈ addedIn ops .kernel) →
        jk + segmentApplyBatchSize ≤ jk' ∨ m ≤ jk' * 2 ^ kernelSegmentHeight) := by
  obtain ⟨jo', -, ⟨co, ho⟩, houtput, hallo⟩ :=
    h.output.applyReadySegmentBatch hn (by decide)
  obtain ⟨jr', -, ⟨cr, hr⟩, hrangeProof, hallr⟩ :=
    h.rangeProof.applyReadySegmentBatch hn (by decide)
  obtain ⟨jk', -, ⟨ck, hk⟩, hkernel, hallk⟩ :=
    h.kernel.applyReadySegmentBatch hm (by decide)
  rw [← h.output_size] at ho hr houtput hrangeProof
  rw [← h.kernel_size] at hk hkernel
  have hstep := applyReadySegments_eq hcomplete (Prod.ext ho rfl) (Prod.ext hr rfl)
    (Prod.ext hk rfl)
  refine ⟨jo', jr', jk', ?_, ?_, ?_, hallo, hallr, hallk⟩
  · rw [step, hstep]
    exact ⟨h.output_size, h.kernel_size, houtput, hrangeProof, hkernel⟩
  · rw [step, hstep]
    exact hcomplete
  · rw [step, hstep]
    rfl

/-- A step at which nothing is added. -/
theorem Steady.of_none (h : Steady n m ops jo jr jk p) (op : Op) (hadded : op.added = none) :
    Steady n m (ops ++ [op]) jo jr jk p := by
  have hsame : ∀ type, addedIn (ops ++ [op]) type = addedIn ops type := fun type =>
    addedIn_concat_of_ne fun id => by simp [hadded]
  refine ⟨h.output_size, h.kernel_size, ?_, ?_, ?_⟩
  · exact hsame .output ▸ h.output
  · exact hsame .rangeProof ▸ h.rangeProof
  · exact hsame .kernel ▸ h.kernel

/-- **One step.** Every case concerns one lane, but for `ApplyReadySegments`. -/
theorem Steady.of_step {op : Op} (hn : n < 2 ^ 63) (hm : m < 2 ^ 63) (h : Steady n m ops jo jr jk p)
    (haccepts : Accepts G p op) (hrequired : ∀ typeId, op.added = some typeId → Required p typeId)
    (hagain : NotAgain p op) :
    ∃ jo' jr' jk', Steady n m (ops ++ [op]) jo' jr' jk' (step G p op) := by
  cases op with
  | bitmap call =>
    obtain ⟨hheader, ho, hr, hk⟩ := bitmapStep_frame (G := G) call p.toTxHashSetDesegmenter
    have hnone := h.of_none (.bitmap call) rfl
    refine ⟨jo, jr, jk, ?_, ?_, ?_, ?_, ?_⟩
    · rw [Progress.step, hheader, h.output_size]
    · rw [Progress.step, hheader, h.kernel_size]
    · rw [Progress.step, outputLane, ho]
      exact hnone.output
    · rw [Progress.step, rangeProofLane, hr]
      exact hnone.rangeProof
    · rw [Progress.step, kernelLane, hk]
      exact hnone.kernel
  | addOutput segment =>
    have hother : ∀ type ≠ .output, addedIn (ops ++ [.addOutput segment]) type = addedIn ops type :=
      fun type hne => addedIn_concat_of_ne fun id => by simp [Op.added, hne.symm]
    have hlane := h.output.add hn h.output_size (hrequired _ rfl) (hagain _ rfl)
    rw [← addedIn_concat_self (.addOutput segment) rfl] at hlane
    rw [Progress.step, addOutputSegment_accepted haccepts]
    refine ⟨jo, jr, jk, h.output_size, h.kernel_size, hlane, ?_, ?_⟩
    · exact hother .rangeProof (by decide) ▸ h.rangeProof
    · exact hother .kernel (by decide) ▸ h.kernel
  | addRangeProof segment =>
    have hother : ∀ type ≠ .rangeProof,
        addedIn (ops ++ [.addRangeProof segment]) type = addedIn ops type :=
      fun type hne => addedIn_concat_of_ne fun id => by simp [Op.added, hne.symm]
    have hlane := h.rangeProof.add hn h.output_size (hrequired _ rfl) (hagain _ rfl)
    rw [← addedIn_concat_self (.addRangeProof segment) rfl] at hlane
    rw [Progress.step, addRangeProofSegment_accepted haccepts]
    refine ⟨jo, jr, jk, h.output_size, h.kernel_size, ?_, hlane, ?_⟩
    · exact hother .output (by decide) ▸ h.output
    · exact hother .kernel (by decide) ▸ h.kernel
  | addKernel segment =>
    have hother : ∀ type ≠ .kernel, addedIn (ops ++ [.addKernel segment]) type = addedIn ops type :=
      fun type hne => addedIn_concat_of_ne fun id => by simp [Op.added, hne.symm]
    have hlane := h.kernel.add hm h.kernel_size (hrequired _ rfl) (hagain _ rfl)
    rw [← addedIn_concat_self (.addKernel segment) rfl] at hlane
    rw [Progress.step, addKernelSegment_accepted haccepts]
    refine ⟨jo, jr, jk, h.output_size, h.kernel_size, ?_, ?_, hlane⟩
    · exact hother .output (by decide) ▸ h.output
    · exact hother .rangeProof (by decide) ▸ h.rangeProof
  | applyReady =>
    have hnone := h.of_none .applyReady rfl
    by_cases hcomplete : p.bitmapCacheComplete = true
    · obtain ⟨jo', jr', jk', hsteady, -⟩ := hnone.applyReady hn hm hcomplete
      exact ⟨jo', jr', jk', hsteady⟩
    · refine ⟨jo, jr, jk, ?_⟩
      rwa [Progress.step, applyReadySegments, if_pos (by simp [hcomplete])]
  | nextDesired maxElements =>
    have hnone := h.of_none (.nextDesired maxElements) rfl
    refine ⟨jo, jr, jk, ?_⟩
    rw [Progress.step, nextDesiredSegments]
    split_ifs
    · exact hnone
    · exact ⟨hnone.output_size, hnone.kernel_size, hnone.output, hnone.rangeProof, hnone.kernel⟩

/-- **Every run** keeps the three lanes. -/
theorem Run.steady {header : BlockHeader} (hn : n < 2 ^ 63) (hm : m < 2 ^ 63)
    (hout : header.getOutputMMRSize = leafPos n) (hker : header.getKernelMMRSize = leafPos m)
    (hrun : Run G NotAgain (reset header) ops p) : ∃ jo jr jk, Steady n m ops jo jr jk p := by
  induction hrun with
  | nil => exact ⟨0, 0, 0, steady_reset hout hker⟩
  | snoc _ op haccepts hrequired hagain ih =>
    obtain ⟨jo, jr, jk, hsteady⟩ := ih
    exact hsteady.of_step hn hm haccepts hrequired hagain

/-! ### What holds of a steady state -/

/-- **At most once, and in order.** -/
theorem Steady.inOrder (h : Steady n m ops jo jr jk p) (type : SegmentType) :
    ((p.handed type).map fun id => id.index.toNat).Pairwise (· < ·) := by
  cases type with
  | outputBitmap => exact List.Pairwise.nil
  | output =>
    rw [handed, List.map_map]
    exact h.output.pairwise
  | rangeProof =>
    rw [handed, List.map_map]
    exact h.rangeProof.pairwise
  | kernel =>
    rw [handed, List.map_map]
    exact h.kernel.pairwise

/-- The first segment of a list is returned. -/
theorem mem_nextDesiredSegments {t : ℕ} (hcomplete : p.bitmapCacheComplete = true)
    (hroom : 3 ≤ maxElements) (ht : t < 3) (hfirst : (p.desiredLists maxElements t)[0]? = some x) :
    x ∈ (p.nextDesiredSegments maxElements).1 := by
  rw [nextDesiredSegments, if_neg (by simp [hcomplete])]
  exact mem_rotateFrom_of_first (by omega) hroom ht hfirst

/-- **Nothing is waited for** that is neither here nor asked for. -/
theorem Steady.exists_nextRequired (hn : n < 2 ^ 63) (hm : m < 2 ^ 63)
    (h : Steady n m ops jo jr jk p) (hcomplete : p.bitmapCacheComplete = true)
    (hroom : 3 ≤ maxElements) {type : SegmentType} (htype : type ≠ .outputBitmap)
    (hunfinished : p.appliedMMRSize type ≠ p.targetMMRSize type) :
    ∃ id, NextRequired p type id ∧
      (p.isCached (type, id) = true ∨ (type, id) ∈ (p.nextDesiredSegments maxElements).1) := by
  have hpos : 0 < maxElements := by omega
  cases type with
  | outputBitmap => exact absurd rfl htype
  | output =>
    obtain ⟨id, hrequired, hnot, hbefore, hnext⟩ :=
      h.output.exists_next hn (by decide) (by decide) h.output_size hunfinished hpos .output
    exact ⟨id, ⟨hrequired, hnot, hbefore⟩,
      hnext.imp_right (mem_nextDesiredSegments (t := 0) hcomplete hroom (by decide))⟩
  | rangeProof =>
    obtain ⟨id, hrequired, hnot, hbefore, hnext⟩ := h.rangeProof.exists_next hn (by decide)
      (by decide) h.output_size hunfinished hpos .rangeProof
    exact ⟨id, ⟨hrequired, hnot, hbefore⟩,
      hnext.imp_right (mem_nextDesiredSegments (t := 1) hcomplete hroom (by decide))⟩
  | kernel =>
    obtain ⟨id, hrequired, hnot, hbefore, hnext⟩ :=
      h.kernel.exists_next hm (by decide) (by decide) h.kernel_size hunfinished hpos .kernel
    exact ⟨id, ⟨hrequired, hnot, hbefore⟩,
      hnext.imp_right (mem_nextDesiredSegments (t := 2) hcomplete hroom (by decide))⟩

/-! ### To the end -/

/-- One more batch. -/
theorem batches_succ {h j j' k : ℕ}
    (hk : k * segmentApplyBatchSize ≤ j ∨ n ≤ j * 2 ^ h)
    (hbatch : j + segmentApplyBatchSize ≤ j' ∨ n ≤ j' * 2 ^ h) :
    (k + 1) * segmentApplyBatchSize ≤ j' ∨ n ≤ j' * 2 ^ h := by
  rcases hbatch with hle | hdone
  · rcases hk with hk | hdone
    · exact .inl (by rw [Nat.add_one_mul]; omega)
    · have : j * 2 ^ h ≤ j' * 2 ^ h := Nat.mul_le_mul_right _ (by omega)
      exact .inr (by omega)
  · exact .inr hdone

/-- As many batches as there are leaves. -/
theorem le_of_batches {h j k : ℕ} (hk : k * segmentApplyBatchSize ≤ j ∨ n ≤ j * 2 ^ h)
    (hn : n ≤ k) : n ≤ j * 2 ^ h := by
  rcases hk with hk | hdone
  · have hone : j * 1 ≤ j * 2 ^ h := Nat.mul_le_mul_left j (Nat.two_pow_pos h)
    rw [segmentApplyBatchSize] at hk
    omega
  · exact hdone

/-- **All segments that are required were added.** -/
def AllAdded (ops : List Op) (p : Progress) : Prop :=
  ∀ typeId, typeId.1 ≠ .outputBitmap → Required p typeId → ∃ op ∈ ops, op.added = some typeId

theorem AllAdded.mem_addedIn (h : AllAdded ops p) (type : SegmentType)
    (htype : type ≠ .outputBitmap) {target : ℕ} (htarget : p.targetMMRSize type = leafPos target)
    (hlt : target < 2 ^ 63) (hsmall : segmentHeight type < 256) {i : ℕ}
    (hi : i * 2 ^ segmentHeight type < target) : i ∈ addedIn ops type := by
  obtain ⟨hheight, hindex⟩ := Lane.toNat_segmentAt hlt hi hsmall
  obtain ⟨op, hop, hadded⟩ := h (type, segmentAt (segmentHeight type) i) htype
    ⟨hheight, by rw [hindex, htarget]; exact (lt_countSegmentsRequired_iff hlt).2 hi⟩
  exact ⟨op, hop, _, hadded, hindex⟩

/-- **Every call takes a batch further.** -/
theorem Steady.iterate_applyReady (hn : n < 2 ^ 63) (hm : m < 2 ^ 63)
    (h : Steady n m ops jo jr jk p) (hcomplete : p.bitmapCacheComplete = true)
    (hall : AllAdded ops p) (k : ℕ) :
    ∃ jo' jr' jk', Steady n m ops jo' jr' jk' ((step G · .applyReady)^[k] p) ∧
      ((step G · .applyReady)^[k] p).bitmapCacheComplete = true ∧
      (k * segmentApplyBatchSize ≤ jo' ∨ n ≤ jo' * 2 ^ outputSegmentHeight) ∧
      (k * segmentApplyBatchSize ≤ jr' ∨ n ≤ jr' * 2 ^ rangeProofSegmentHeight) ∧
      (k * segmentApplyBatchSize ≤ jk' ∨ m ≤ jk' * 2 ^ kernelSegmentHeight) := by
  induction k with
  | zero =>
    refine ⟨jo, jr, jk, h, hcomplete, ?_, ?_, ?_⟩
    all_goals exact .inl (by rw [Nat.zero_mul]; exact Nat.zero_le _)
  | succ k ih =>
    obtain ⟨jo₁, jr₁, jk₁, hsteady, hcomplete₁, ho, hr, hk⟩ := ih
    obtain ⟨jo₂, jr₂, jk₂, hsteady₂, hcomplete₂, -, hallo, hallr, hallk⟩ :=
      hsteady.applyReady (G := G) hn hm hcomplete₁
    rw [Function.iterate_succ_apply']
    refine ⟨jo₂, jr₂, jk₂, hsteady₂, hcomplete₂, batches_succ ho (hallo fun i hi => ?_),
      batches_succ hr (hallr fun i hi => ?_), batches_succ hk (hallk fun i hi => ?_)⟩
    · exact hall.mem_addedIn .output (by decide) h.output_size hn (by decide) hi
    · exact hall.mem_addedIn .rangeProof (by decide) h.output_size hn (by decide) hi
    · exact hall.mem_addedIn .kernel (by decide) h.kernel_size hm (by decide) hi

/-- **The download ends.** -/
theorem Steady.isComplete (hn : n < 2 ^ 63) (hm : m < 2 ^ 63) (h : Steady n m ops jo jr jk p)
    (hcomplete : p.bitmapCacheComplete = true) (hall : AllAdded ops p) {k : ℕ}
    (hk : n + m + 1 ≤ k) : ((step G · .applyReady)^[k] p).isComplete = true := by
  obtain ⟨k, rfl⟩ := Nat.exists_eq_add_one.2 (show 0 < k by omega)
  obtain ⟨jo₁, jr₁, jk₁, hsteady, -, ho, hr, hkernel⟩ :=
    h.iterate_applyReady (G := G) hn hm hcomplete hall (k + 1)
  -- the flag is the one of the last call
  have hflag : ((step G · .applyReady)^[k + 1] p).allSegmentsComplete =
      ((step G · .applyReady)^[k + 1] p).allApplied := by
    obtain ⟨_, _, _, hbefore, hcomplete₁, -⟩ :=
      h.iterate_applyReady (G := G) hn hm hcomplete hall k
    obtain ⟨_, _, _, -, -, hflag, -⟩ := hbefore.applyReady (G := G) hn hm hcomplete₁
    rwa [Function.iterate_succ_apply']
  rw [Progress.isComplete, hflag, allApplied, hsteady.output_size, hsteady.kernel_size]
  simp only [Bool.and_eq_true, beq_iff_eq]
  refine ⟨⟨hsteady.output.applied_eq_iff.2 ?_, hsteady.rangeProof.applied_eq_iff.2 ?_⟩,
    hsteady.kernel.applied_eq_iff.2 ?_⟩
  · exact le_of_batches ho (by omega)
  · exact le_of_batches hr (by omega)
  · exact le_of_batches hkernel (by omega)

/-- **The desegmenter makes progress.** Whatever required segments come, in whatever order and
however often, as long as no partial last segment is added again when it is applied: every segment
is handed over at most once and in order; nothing is asked for that is applied, cached or asked for
already; behind the bitmap the next segment of every unfinished type is here or asked for; and when
all segments have come, the download ends. -/
theorem progress {header : BlockHeader} (hn : n < 2 ^ 63) (hm : m < 2 ^ 63)
    (hout : header.getOutputMMRSize = leafPos n) (hker : header.getKernelMMRSize = leafPos m)
    (hrun : Run G NotAgain (reset header) ops p) :
    (∀ type, ((p.handed type).map fun id => id.index.toNat).Pairwise (· < ·)) ∧
    (∀ maxElements, (p.nextDesiredSegments maxElements).1.Nodup ∧
      ∀ x ∈ (p.nextDesiredSegments maxElements).1,
        p.isApplied x = false ∧ p.isCached x = false) ∧
    (p.bitmapCacheComplete = true → ∀ maxElements ≥ 3, ∀ type ≠ .outputBitmap,
      p.appliedMMRSize type ≠ p.targetMMRSize type → ∃ id, NextRequired p type id ∧
        (p.isCached (type, id) = true ∨ (type, id) ∈ (p.nextDesiredSegments maxElements).1)) ∧
    (p.bitmapCacheComplete = true → AllAdded ops p →
      ∃ k₀, ∀ k ≥ k₀, ((step G · .applyReady)^[k] p).isComplete = true) := by
  obtain ⟨jo, jr, jk, hsteady⟩ := hrun.steady hn hm hout hker
  refine ⟨hsteady.inOrder, p.nextDesiredSegments_spec, ?_, ?_⟩
  · intro hcomplete maxElements hroom type htype hunfinished
    exact hsteady.exists_nextRequired hn hm hcomplete hroom htype hunfinished
  · intro hcomplete hall
    exact ⟨n + m + 1, fun k hk => hsteady.isComplete hn hm hcomplete hall hk⟩

section SmallNet

open SmallNet

/-- The bitmap of one chunk comes. -/
def bitmapOps : List Op :=
  [.bitmap (.addBitmapSegment BitmapSync.bitmapSegment Hash.zero), .bitmap .applyNextBitmapSegment]

/-- The one kernel segment comes, and is handed over. -/
def kernelOps : List Op :=
  [.addKernel KernelSync.kernelSegment, .applyReady]

/-- The desegmenter behind the bitmap of one chunk. -/
def behindBitmap : Progress :=
  bitmapOps.foldl (step (smallNet .mainnet)) (reset BitmapSync.bitmapHeader)

/-- The same after the kernel segment. -/
def behindKernel : Progress :=
  kernelOps.foldl (step (smallNet .mainnet)) behindBitmap

theorem run_bitmapOps (allowed : Progress → Op → Prop)
    (hallowed : ∀ p call, allowed p (.bitmap call)) :
    Run (smallNet .mainnet) allowed (reset BitmapSync.bitmapHeader) bitmapOps behindBitmap := by
  have hnil : Run (smallNet .mainnet) allowed (reset BitmapSync.bitmapHeader) []
      (reset BitmapSync.bitmapHeader) := .nil
  have hfirst := hnil.snoc (.bitmap (.addBitmapSegment BitmapSync.bitmapSegment Hash.zero))
    trivial nofun (hallowed _ _)
  exact hfirst.snoc (.bitmap .applyNextBitmapSegment) trivial nofun (hallowed _ _)

/-- The kernel segment can be added behind the bitmap. -/
theorem Run.kernelOps {allowed : Progress → Op → Prop} {p₀ : Progress} {ops : List Op}
    {p : Progress} (h : Run (smallNet .mainnet) allowed p₀ ops p)
    (haccepts : (run (addKernelSegment (smallNet .mainnet) KernelSync.kernelSegment)
      p.toTxHashSetDesegmenter).1 = .ok true)
    (hrequired : 0 < countSegmentsRequired p.archiveHeader.getKernelMMRSize kernelSegmentHeight)
    (hadd : allowed p (.addKernel KernelSync.kernelSegment))
    (happly : ∀ p, allowed p .applyReady) :
    Run (smallNet .mainnet) allowed p₀ (ops ++ Progress.kernelOps)
      (Progress.kernelOps.foldl (step (smallNet .mainnet)) p) := by
  have hfirst := h.snoc (.addKernel KernelSync.kernelSegment) haccepts
    (by rintro _ ⟨⟩; exact ⟨rfl, hrequired⟩) hadd
  have hsecond := hfirst.snoc .applyReady trivial nofun (happly _)
  rwa [List.append_assoc] at hsecond

/-- The bitmap, and then the kernels. -/
theorem progress_kernelOps :
    ((behindKernel.handed .kernel).map fun id => id.index.toNat).Pairwise (· < ·) := by
  have hrun : Run (smallNet .mainnet) NotAgain (reset BitmapSync.bitmapHeader)
      (bitmapOps ++ kernelOps) behindKernel := by
    refine (run_bitmapOps NotAgain fun _ _ => nofun).kernelOps (by decide +kernel)
      (by decide +kernel) ?_ fun _ => nofun
    rintro _ ⟨⟩ ⟨-, happlied⟩
    revert happlied
    decide +kernel
  exact (progress (n := 1) (m := 1) (by decide) (by decide) rfl rfl hrun).1 .kernel

/-- **A partial last segment that comes again** when it is applied is handed over again; and in
front of the bitmap nothing else is asked for. -/
theorem not_inOrder :
    (∃ ops p, Run (smallNet .mainnet) (fun _ _ => True) (reset BitmapSync.bitmapHeader) ops p ∧
      (p.handed .kernel).map (fun id => id.index.toNat) = [0, 0]) ∧
    (reset BitmapSync.bitmapHeader).isCached (.kernel, ⟨11, 0⟩) = false ∧
      (.kernel, ⟨11, 0⟩) ∉ ((reset BitmapSync.bitmapHeader).nextDesiredSegments 3).1 := by
  refine ⟨⟨bitmapOps ++ kernelOps ++ kernelOps,
    kernelOps.foldl (step (smallNet .mainnet)) behindKernel, ?_, by decide +kernel⟩,
    by decide +kernel, by decide +kernel⟩
  have hfirst := (run_bitmapOps (fun _ _ => True) fun _ _ => trivial).kernelOps (by decide +kernel)
    (by decide +kernel) trivial fun _ => trivial
  exact hfirst.kernelOps (by decide +kernel) (by decide +kernel) trivial fun _ => trivial

end SmallNet

end Progress

end TxHashSetDesegmenter

end GrinPlusPlus
